import GraphPattern.Session
import GraphPattern.Proofs.StreamFrames

/-!
# GraphPattern — many iterations at once

Iterations of a match sequence share the streams that were given with the arguments, and read them
together: what one has read, no other comes across. Where no argument is or holds such a stream, and
no form gives back one from elsewhere, an iteration never comes to the shared streams. Then it answers
and calls, whatever else is asked of the match sequence meanwhile, what it answers and calls when it
is alone.

## Results

* `Matches.driveOn_succ`, `Matches.serve_new` — what is asked of a session is what can be asked outside.
* `Matches.exists_nextOn` — the next match does not depend on what is shared.
* `Matches.serve_eq` — a request is answered as if it were the only one, and only changes its iteration.
* `Matches.transcript_alone` — so are all requests of a session.
* `Matches.transcript_sharedStream` — iterations that read a shared stream together.
-/

namespace GraphPattern

/-- None of the first streams of a run occurs in what an iteration has left. -/
structure Iterator.Beyond (given : Nat) (it : Iterator) : Prop where
  cursor : ∀ cursor, it.state = .stopped cursor → cursor.Beyond given
  streams : ∀ supply ∈ it.streams, supply.Beyond given

/-- Some streams were given, and no iteration that is under way has anything to do with them. -/
structure Session.Keeps (given : List Supply) (s : Session) : Prop where
  shared : s.shared.streams = given
  iterators : ∀ it ∈ s.iterators, it.Beyond given.length

namespace Matches

variable {m : Matches}

theorem beyond_iterator (given : Nat) : m.iterator.Beyond given where
  cursor _ h := nomatch h
  streams _ h := nomatch h

/-- The next match, where a run has left the given streams as they were. -/
theorem nextOn_of_run {shared : Journal} {it : Iterator} {r : Except Fault (Option (Value × Cursor))}
    {calls : List Call} {own : List Supply}
    (h : (m.advance it.state).run.run ⟨shared.calls, shared.streams ++ it.streams⟩ =
      (r, ⟨calls, shared.streams ++ own⟩)) :
    m.nextOn shared it = match r with
      | .ok (some (v, cursor)) => (.found v, { shared with calls }, ⟨.stopped cursor, own⟩)
      | .ok none => (.stop, { shared with calls }, ⟨.finished, own⟩)
      | .error f => (.failed f, { shared with calls }, ⟨.finished, own⟩) := by
  simp only [nextOn, h, List.take_left, List.drop_left]
  rcases r with f | _ | ⟨v, cursor⟩ <;> rfl

-- ---------------------------------------------------------------------------
-- Sessions without given streams
-- ---------------------------------------------------------------------------

/-- What a run up to the next match comes to. -/
def yielded (m : Matches) : Progress → Action (Option (Value × Cursor))
  | .found ctx cursor => do return some (← m.emit ctx, cursor)
  | .done | .halted => return none

theorem modest_advance (state : IteratorState) : Modest (m.advance state).run := by
  have hyielded : ∀ p, Modest (m.yielded p).run := by
    intro p
    cases p with
    | found ctx cursor => exact (m.modest_emit ctx).next fun v => .answer _
    | done | halted => exact .answer _
  cases state with
  | fresh => exact (Setting.modest_enter _ _).next hyielded
  | stopped cursor => exact (Setting.modest_resume cursor).next hyielded
  | finished => exact hyielded .done

/-- Where no streams were given, an iteration goes on behind whatever was called before. -/
theorem nextOn_eq_next (earlier : List Call) (it : Iterator) :
    m.nextOn { calls := earlier } it = match m.next it with
      | (answer, calls, it') => (answer, { calls := earlier ++ calls }, it') := by
  have hframed := (m.modest_advance it.state).framed earlier { streams := it.streams }
  simp only [Journal.after, List.append_nil] at hframed
  simp only [next_eq, nextOn, List.nil_append, hframed]
  rcases (m.advance it.state).run.run { streams := it.streams } with ⟨_ | _ | ⟨v, cursor⟩, j⟩ <;> rfl

theorem takeOn_eq_takeFrom (n : Nat) (earlier : List Call) (it : Iterator) :
    m.takeOn { calls := earlier } it n = match m.takeFrom it n with
      | ⟨results, fault?, calls⟩ => ((results, fault?), { calls := earlier ++ calls }) := by
  induction n generalizing earlier it with
  | zero => simp [takeOn, takeFrom]
  | succ n ih =>
    rw [takeOn, takeFrom, nextOn_eq_next]
    rcases m.next it with ⟨_ | _ | _, calls, it'⟩
    · simp only [ih, List.append_assoc]
    · rfl
    · rfl

/-- Driving an iteration where no streams were given is asking for its next match again and again. -/
theorem driveOn_succ (it : Iterator) (n : Nat) :
    m.driveOn [] it (n + 1) = match m.next it with
      | (answer, calls, it') => (answer, calls) :: m.driveOn [] it' n := by
  rw [driveOn]
  have hnext := m.nextOn_eq_next [] it
  simp only [hnext, List.nil_append]

/-- In a new session, all matches, the first ones and the first one are what the match sequence gives
outside any session. -/
theorem serve_new (request : Request) :
    (m.serve {} request).1.ofItself? = match request with
      | .all => some (.harvested m.all.results m.all.fault?, m.all.calls)
      | .take n => some (.harvested (m.take n).results (m.take n).fault?, (m.take n).calls)
      | .first default => some (.valued (m.first default).1, (m.first default).2)
      | .start | .next _ => none := by
  cases request with
  | start => rfl
  | next k => rfl
  | all => rfl
  | take n =>
    have htake := m.takeOn_eq_takeFrom n [] m.iterator
    simp only [serve, reply, Served.ofItself?, htake, take, List.nil_append]
    rfl
  | first default =>
    have hnext := m.nextOn_eq_next [] m.iterator
    simp only [serve, reply, Served.ofItself?, firstOn, first, hnext]
    rcases m.next m.iterator with ⟨_ | _ | _, calls, it'⟩ <;> rfl

section

variable (hargs : ∀ b ∈ m.arguments, b.2.streams = []) (hforms : m.setting.Discreet)

include hargs in
/-- Arguments without a stream are arguments without a given stream. -/
theorem beyond_arguments (given : Nat) : m.arguments.Beyond given := by
  intro b hb id hid
  rw [hargs b hb] at hid
  cases hid

-- ---------------------------------------------------------------------------
-- Runs that do not come to what is shared
-- ---------------------------------------------------------------------------

include hforms in
theorem minds_emit {given : Nat} {ctx : Bindings} (hctx : ctx.Beyond given) :
    Minds given (m.emit ctx) fun _ => True := by
  unfold emit
  split
  · intro own hown
    obtain ⟨x, own', calls, -, hown', hrun⟩ := Setting.minds_callForm hforms hctx _ own hown
    exact ⟨x, own', calls, fun _ _ => trivial, hown', hrun⟩
  · exact (Minds.ask (P := fun _ => True) fun _ _ => trivial).next fun _ _ => .answer trivial

include hforms in
theorem minds_yielded {given : Nat} (p : Progress) (hp : p.Beyond given) :
    Minds given (m.yielded p) fun r => ∀ v cursor, r = some (v, cursor) → cursor.Beyond given := by
  cases p with
  | found ctx cursor =>
    refine (minds_emit hforms hp.1).next fun v _ => .answer ?_
    rintro _ _ ⟨⟩
    exact hp.2
  | done => exact .answer fun _ _ h => by cases h
  | halted => exact .answer fun _ _ h => by cases h

include hargs hforms

theorem minds_advance {given : Nat} {state : IteratorState}
    (hstate : ∀ cursor, state = .stopped cursor → cursor.Beyond given) :
    Minds given (m.advance state) fun r => ∀ v cursor, r = some (v, cursor) →
      cursor.Beyond given := by
  cases state with
  | fresh =>
    exact (Setting.minds_enter hforms _ (beyond_arguments hargs given)).next (minds_yielded hforms)
  | stopped cursor =>
    exact (Setting.minds_resume hforms (hstate cursor rfl)).next (minds_yielded hforms)
  | finished => exact minds_yielded hforms .done trivial

/-- The next match, the calls it takes and the iteration after it are the same whatever is shared, and
of what is shared only the log is added to. -/
theorem exists_nextOn {given : Nat} {it : Iterator} (hit : it.Beyond given) :
    ∃ answer it' calls, it'.Beyond given ∧ ∀ shared : Journal, shared.streams.length = given →
      m.nextOn shared it = (answer, { shared with calls := shared.calls ++ calls }, it') := by
  obtain ⟨r, own, calls, hr, hown, hrun⟩ := minds_advance hargs hforms hit.cursor it.streams hit.streams
  rcases r with f | _ | ⟨v, cursor⟩
  · exact ⟨.failed f, ⟨.finished, own⟩, calls, ⟨fun _ h => (nomatch h), hown⟩, fun shared hshared =>
      nextOn_of_run (hrun shared.calls shared.streams hshared)⟩
  · exact ⟨.stop, ⟨.finished, own⟩, calls, ⟨fun _ h => (nomatch h), hown⟩, fun shared hshared =>
      nextOn_of_run (hrun shared.calls shared.streams hshared)⟩
  · refine ⟨_, _, calls, ⟨?_, hown⟩, fun shared hshared =>
      nextOn_of_run (hrun shared.calls shared.streams hshared)⟩
    rintro _ ⟨⟩
    exact hr _ rfl v cursor rfl

theorem exists_takeOn {given : Nat} (n : Nat) {it : Iterator} (hit : it.Beyond given) :
    ∃ harvest calls, ∀ shared : Journal, shared.streams.length = given →
      m.takeOn shared it n = (harvest, { shared with calls := shared.calls ++ calls }) := by
  induction n generalizing it with
  | zero => exact ⟨_, [], fun shared _ => by rw [takeOn, List.append_nil]⟩
  | succ n ih =>
    obtain ⟨answer, it', calls, hit', hnext⟩ := exists_nextOn hargs hforms hit
    obtain ⟨harvest, calls', hmore⟩ := ih hit'
    cases answer with
    | found v =>
      refine ⟨(v :: harvest.1, harvest.2), calls ++ calls', fun shared hshared => ?_⟩
      rw [takeOn, hnext shared hshared]
      simp only
      rw [hmore { shared with calls := shared.calls ++ calls } hshared, List.append_assoc]
    | stop => exact ⟨_, calls, fun shared hshared => by rw [takeOn, hnext shared hshared]⟩
    | failed f => exact ⟨_, calls, fun shared hshared => by rw [takeOn, hnext shared hshared]⟩

theorem exists_firstOn (given : Nat) (default : Value) :
    ∃ r calls, ∀ shared : Journal, shared.streams.length = given →
      m.firstOn shared default = (r, { shared with calls := shared.calls ++ calls }) := by
  obtain ⟨answer, it', calls, -, hnext⟩ := exists_nextOn hargs hforms (m.beyond_iterator given)
  cases answer <;> exact ⟨_, calls, fun shared hshared => by rw [firstOn, hnext shared hshared]⟩

theorem exists_allOn (given : Nat) :
    ∃ harvest calls, ∀ shared : Journal, shared.streams.length = given →
      m.allOn shared = (harvest, { shared with calls := shared.calls ++ calls }) := by
  obtain ⟨swept, own, calls, -, -, hrun⟩ := Setting.apart_sweep hforms
    (fun c hc => minds_emit hforms hc) m.plan.steps (beyond_arguments hargs given) []
    (fun _ h => nomatch h)
  refine ⟨(swept.results, swept.ending.fault?), calls, fun shared hshared => ?_⟩
  have hthis := hrun shared.calls shared.streams hshared
  rw [List.append_nil] at hthis
  simp only [allOn, hthis, List.take_left]

-- ---------------------------------------------------------------------------
-- Sessions
-- ---------------------------------------------------------------------------

/-- A request is answered as if there were no other, and of the iterations under way it only changes
the one that is asked. -/
theorem serve_eq {given : List Supply} {s : Session} (hs : s.Keeps given) (request : Request) :
    m.serve s request = match request with
      | .start => (⟨.start, .started s.iterators.length, []⟩,
          { s with iterators := s.iterators ++ [m.iterator] })
      | .next k => match s.iterators[k]? with
        | none => (⟨.next k, .unknown, []⟩, s)
        | some it => match m.nextOn { streams := given } it with
          | (answer, after, it') => (⟨.next k, .answered answer, after.calls⟩,
              { shared := { s.shared with calls := s.shared.calls ++ after.calls }
                iterators := s.iterators.set k it' })
      | request => match (m.serve { shared := { streams := given } } request).1 with
        | served => (served,
            { s with shared := { s.shared with calls := s.shared.calls ++ served.calls } }) := by
  have hlength : s.shared.streams.length = given.length := congrArg List.length hs.shared
  cases request with
  | start => simp [serve, reply]
  | next k =>
    rcases hk : s.iterators[k]? with _ | it
    · simp [serve, reply, hk]
    · obtain ⟨answer, it', calls, -, hnext⟩ :=
        exists_nextOn hargs hforms (hs.iterators it (List.mem_of_getElem? hk))
      simp [serve, reply, hk, hnext s.shared hlength, hnext { streams := given } rfl]
  | all =>
    obtain ⟨harvest, calls, hall⟩ := exists_allOn hargs hforms given.length
    simp [serve, reply, hall s.shared hlength, hall { streams := given } rfl]
  | take n =>
    obtain ⟨harvest, calls, htake⟩ :=
      exists_takeOn hargs hforms n (m.beyond_iterator given.length)
    simp [serve, reply, htake s.shared hlength, htake { streams := given } rfl]
  | first default =>
    obtain ⟨r, calls, hfirst⟩ := exists_firstOn hargs hforms given.length default
    simp [serve, reply, hfirst s.shared hlength, hfirst { streams := given } rfl]

/-- Requests leave the given streams as they are, and keep the iterations away from them. -/
theorem keeps_serve {given : List Supply} {s : Session} (hs : s.Keeps given) (request : Request) :
    (m.serve s request).2.Keeps given := by
  rw [serve_eq hargs hforms hs]
  cases request with
  | start =>
    refine ⟨hs.shared, fun it hit => ?_⟩
    rcases List.mem_append.1 hit with hit | hit
    · exact hs.iterators it hit
    · rw [List.mem_singleton.1 hit]
      exact m.beyond_iterator _
  | next k =>
    rcases hk : s.iterators[k]? with _ | it
    · simp only [hk]
      exact hs
    · obtain ⟨answer, it', calls, hit', hnext⟩ :=
        exists_nextOn hargs hforms (hs.iterators it (List.mem_of_getElem? hk))
      simp only [hk, hnext { streams := given } rfl]
      refine ⟨hs.shared, fun u hu => ?_⟩
      rcases List.mem_or_eq_of_mem_set hu with hu | rfl
      · exact hs.iterators u hu
      · exact hit'
  | all => exact ⟨hs.shared, hs.iterators⟩
  | take n => exact ⟨hs.shared, hs.iterators⟩
  | first default => exact ⟨hs.shared, hs.iterators⟩

omit hargs hforms in
theorem transcript_cons (s : Session) (request : Request) (rest : List Request) :
    m.transcript s (request :: rest) =
      (m.serve s request).1 :: m.transcript (m.serve s request).2 rest :=
  rfl

omit hargs hforms in
/-- Every request is served. -/
theorem map_request_transcript (s : Session) (script : List Request) :
    (m.transcript s script).map (·.request) = script := by
  induction script generalizing s with
  | nil => rfl
  | cons request rest ih => rw [transcript_cons, List.map_cons, ih]; rfl

/-- What is asked without a look at the iterations under way is answered as in a new session. -/
theorem transcript_itself {given : List Supply} {s : Session} (hs : s.Keeps given)
    (script : List Request) :
    (m.transcript s script).filterMap Served.ofItself? = script.filterMap fun request =>
      (m.serve { shared := { streams := given } } request).1.ofItself? := by
  induction script generalizing s with
  | nil => rfl
  | cons request rest ih =>
    have hthis : (m.serve s request).1.ofItself? =
        (m.serve { shared := { streams := given } } request).1.ofItself? := by
      rw [serve_eq hargs hforms hs]
      cases request with
      | next k => rcases hk : s.iterators[k]? with _ | it <;> simp only [hk] <;> rfl
      | _ => rfl
    rw [transcript_cons, List.filterMap_cons, List.filterMap_cons, hthis,
      ih (keeps_serve hargs hforms hs request)]

/-- An iteration answers as it does alone; one that is yet to be started starts anew. -/
theorem transcript_iteration (k : Nat) {given : List Supply} {s : Session} (hs : s.Keeps given)
    (script : List Request) :
    (m.transcript s script).filterMap (Served.ofIteration? k) =
      m.driveOn given ((s.iterators[k]?).getD m.iterator)
        (Request.asked k s.iterators.length script) := by
  induction script generalizing s with
  | nil => rfl
  | cons request rest ih =>
    rw [transcript_cons, List.filterMap_cons, ih (keeps_serve hargs hforms hs request),
      serve_eq hargs hforms hs]
    cases request with
    | all => rfl
    | take n => rfl
    | first default => rfl
    | start =>
      -- a new iteration stands where one that is yet to be started does
      have hsame : (s.iterators ++ [m.iterator])[k]?.getD m.iterator =
          s.iterators[k]?.getD m.iterator := by
        rw [List.getElem?_append]
        split
        · rfl
        · rename_i hk
          rw [List.getElem?_eq_none (Nat.le_of_not_lt hk)]
          rcases k - s.iterators.length with _ | i <;> rfl
      simp only [hsame, List.length_append, List.length_singleton, Request.asked]
      rfl
    | next i =>
      rcases hi : s.iterators[i]? with _ | it
      · have hout : ¬ i < s.iterators.length := by simpa using hi
        simp [Request.asked, hout, Served.ofIteration?]
      · have hin : i < s.iterators.length := (List.getElem?_eq_some_iff.1 hi).1
        obtain ⟨answer, it', calls, -, hnext⟩ :=
          exists_nextOn hargs hforms (hs.iterators it (List.mem_of_getElem? hi))
        have hthis := hnext { streams := given } rfl
        by_cases hik : i = k
        · subst hik
          -- the given streams are as they were when the iteration goes on alone
          simp only [hi, Served.ofIteration?, if_true, List.length_set,
            List.getElem?_set_self hin, Option.getD_some, Request.asked, hin, and_self,
            Nat.add_comm 1, driveOn, hthis]
        · simp only [hi, Served.ofIteration?, List.length_set, List.getElem?_set_ne hik,
            Request.asked, hik, false_and, if_false, Nat.zero_add]

end

/-- No argument is or holds a stream that is given to all iterations, and forms give back no streams
but those that they are called with. Then, whatever is asked of a match sequence in the meantime and
whatever is left of the given streams, an iteration answers and calls what it does when it is driven
alone; and all matches, the first ones or the first one are what they are in a new session. -/
theorem transcript_alone (m : Matches) (hargs : ∀ b ∈ m.arguments, b.2.streams = [])
    (hforms : m.setting.Discreet) (given : List Supply) (script : List Request) :
    (m.transcript { shared := { streams := given } } script).map (·.request) = script ∧
    (∀ k, (m.transcript { shared := { streams := given } } script).filterMap
        (Served.ofIteration? k) =
      m.driveOn given m.iterator (Request.asked k 0 script)) ∧
    (m.transcript { shared := { streams := given } } script).filterMap Served.ofItself? =
      script.filterMap fun request =>
        (m.serve { shared := { streams := given } } request).1.ofItself? := by
  have hkeeps : Session.Keeps given { shared := { streams := given } } :=
    ⟨rfl, fun _ h => nomatch h⟩
  exact ⟨map_request_transcript _ _, fun k => transcript_iteration hargs hforms k hkeeps script,
    transcript_itself hargs hforms hkeeps script⟩

/-- Enumerates what an argument stands for. -/
def enumeration (xs : Value) : Matches where
  plan := { steps := [.generate "y" (.var "xs")], arguments := ["xs"], engine := .graph }
  setting := ⟨.graph, .graph {}, fun _ _ => .ok (.bool true)⟩
  arguments := [("xs", xs)]

def number (n : Int) : Value := .int n .shared

/-- A match of the enumeration. -/
def single (n : Int) : Value := .list [number n] (.made [])

/-- Iterations over a list, next to a stream that nobody reads. -/
theorem transcript_alone_list :
    let m := enumeration (.list [number 1, number 2] (.given 0))
    let given : List Supply := [.values [number 7]]
    (∀ b ∈ m.arguments, b.2.streams = []) ∧ m.setting.Discreet ∧
      (m.transcript { shared := { streams := given } }
          [.start, .next 0, .start, .all, .next 1, .next 0]).filterMap (Served.ofIteration? 0) =
        [(.found (single 1), []), (.found (single 2), [])] := by
  intro m given
  have hargs : ∀ b ∈ m.arguments, b.2.streams = [] := by
    intro b hb
    obtain rfl := List.mem_singleton.1 hb
    rfl
  have hforms : m.setting.Discreet := by
    rintro f params passed env v - - ⟨⟩ id hid
    cases hid
  refine ⟨hargs, hforms, ?_⟩
  rw [(transcript_alone m hargs hforms given _).2.1 0]
  rfl

/-- Two iterations over one stream read it together: the first goes on behind what the second has read.
And once all matches were found, there are none any more. -/
theorem transcript_sharedStream :
    let m := enumeration (.stream 0)
    let given : List Supply := [.values [number 1, number 2, number 3, number 4]]
    (m.transcript { shared := { streams := given } }
        [.start, .start, .next 0, .next 1, .next 0]).filterMap (Served.ofIteration? 0) =
      [(.found (single 1), []), (.found (single 3), [])] ∧
    m.driveOn given m.iterator 2 = [(.found (single 1), []), (.found (single 2), [])] ∧
    (m.transcript { shared := { streams := given } }
        [.start, .start, .next 0, .next 1, .next 0]).filterMap (Served.ofIteration? 0) ≠
      m.driveOn given m.iterator 2 ∧
    (m.transcript { shared := { streams := given } } [.all, .all]).filterMap Served.ofItself? =
      [(.harvested [single 1, single 2, single 3, single 4] none, []), (.harvested [] none, [])] := by
  refine ⟨rfl, rfl, fun hsame => ?_, rfl⟩
  -- the second answers are different matches
  injection hsame with _ hsame
  cases hsame

end Matches

end GraphPattern
