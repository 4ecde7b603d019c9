import GraphPattern.Proofs.Journals

/-!
# GraphPattern — matches one at a time

A run that stops at its matches and a sweep that finds all of them do the same in the same order. What
a sweep does is to go on to the first match, to make its result, and to sweep what is left from there;
what is left is told by the cursor at which the run has stopped.

## Results

* `Setting.sweep_eq`, `Setting.finish_eq` — a sweep by its first match.
* `Matches.exists_unfolds` — an iteration gives the matches of a sweep, and makes its calls.
* `Matches.requests_of_all` — the answers to any number of requests, as told by all matches.
-/

namespace GraphPattern

-- ---------------------------------------------------------------------------
-- Sweeps and what goes on after them
-- ---------------------------------------------------------------------------

namespace Sweep

/-- A sweep with a result before all others. -/
def cons (v : Value) (m : Sweep) : Sweep := do
  let others ← m
  return ⟨v :: others.results, others.ending⟩

variable {α β : Type}

theorem run_cons (v : Value) (m : Sweep) (j : Journal) :
    (cons v m).run j = (⟨v :: (m.run j).1.results, (m.run j).1.ending⟩, (m.run j).2) :=
  rfl

theorem after_pure (x : α) (k : α → Sweep) : after (pure x) k = k x :=
  rfl

theorem after_bind (a : Action α) (f : α → Action β) (k : β → Sweep) :
    after (a >>= f) k = after a fun x => after (f x) k := by
  funext j
  show (after (a >>= f) k).run j = (after a fun x => after (f x) k).run j
  rw [run_after, run_after, Gives.run_bind]
  rcases a.run.run j with ⟨_ | x, j'⟩
  · rfl
  · exact (run_after (f x) k j').symm

theorem andThen_after (a : Action α) (k : α → Sweep) (next : Sweep) :
    andThen (after a k) next = after a fun x => andThen (k x) next := by
  funext j
  show (andThen (after a k) next).run j = (after a fun x => andThen (k x) next).run j
  rw [run_andThen, run_after, run_after]
  rcases a.run.run j with ⟨_ | x, j'⟩
  · rfl
  · exact (run_andThen (k x) next j').symm

theorem andThen_cons (v : Value) (m next : Sweep) :
    andThen (cons v m) next = cons v (andThen m next) := by
  funext j
  show (andThen (cons v m) next).run j = (cons v (andThen m next)).run j
  rw [run_andThen, run_cons, run_cons, run_andThen]
  rcases m.run j with ⟨⟨results, _ | _ | f⟩, j'⟩ <;> rfl

theorem andThen_done (next : Sweep) : andThen (pure ⟨[], .done⟩) next = next :=
  rfl

/-- What goes on after an action only matters where the action can lead. -/
theorem after_congr {a : Action α} {k k' : α → Sweep} (ha : Modest a.run) {j : Journal}
    (h : ∀ x (j' : Journal), j.Wanes j' → (k x).run j' = (k' x).run j') :
    (after a k).run j = (after a k').run j := by
  rw [run_after, run_after]
  have hwanes := ha.wanes j
  rcases hrun : a.run.run j with ⟨_ | x, j'⟩
  · rfl
  · rw [hrun] at hwanes
    exact h x j' hwanes

theorem cons_congr {v : Value} {m m' : Sweep} {j : Journal} (h : m.run j = m'.run j) :
    (cons v m).run j = (cons v m').run j := by
  rw [run_cons, run_cons, h]

theorem andThen_congr {m next next' : Sweep} (hm : Modest m) {j : Journal}
    (h : ∀ j' : Journal, j.Wanes j' → next.run j' = next'.run j') :
    (andThen m next).run j = (andThen m next').run j := by
  rw [run_andThen, run_andThen]
  have hwanes := hm.wanes j
  rcases hrun : m.run j with ⟨⟨results, _ | _ | f⟩, j'⟩
  · rw [hrun] at hwanes
    simp only [h j' hwanes]
  · rfl
  · rfl

-- ---------------------------------------------------------------------------
-- How often a stream can be read
-- ---------------------------------------------------------------------------

variable {body : Value → Sweep} {id : Nat} {j : Journal}

theorem run_eachShared_succ (limit : Nat) :
    (eachShared body id (limit + 1)).run j = match j.left id with
      | .broken f => (⟨[], .failed f⟩, j)
      | .values [] => (⟨[], .done⟩, j)
      | .values (v :: rest) => (andThen (body v) (eachShared body id limit)).run (j.leave id rest) := by
  rw [eachShared, run_after, Setting.run_pull]
  rcases j.left id with (_ | ⟨v, rest⟩) | f <;> rfl

/-- A stream with something left is one of the journal, and it is left shorter. -/
theorem size_leave {v : Value} {rest : List Value} {limit : Nat}
    (hleft : j.left id = .values (v :: rest)) (hsize : (j.left id).size ≤ limit + 1) {j' : Journal}
    (h : (j.leave id rest).Wanes j') : (j'.left id).size ≤ limit := by
  have hid : id < j.streams.length := by
    refine Nat.lt_of_not_le fun hout => ?_
    rw [Journal.left, List.getElem?_eq_none hout] at hleft
    cases hleft
  have hid' : id < (j.leave id rest).streams.length := by
    rwa [Journal.leave, List.length_set]
  have hrest : (j.leave id rest).left id = .values rest := by
    simp only [Journal.left, Journal.leave, List.getElem?_set_self hid, Option.getD_some]
  have hshorter := h.size id hid'
  rw [hrest] at hshorter
  rw [hleft, Supply.size, List.length_cons] at hsize
  exact Nat.le_trans hshorter (Nat.le_of_succ_le_succ hsize)

/-- How often a stream may be read does not matter once it is often enough. -/
theorem eachShared_congr (hbody : ∀ v, Modest (body v)) {limit limit' : Nat}
    (h : (j.left id).size ≤ limit) (h' : (j.left id).size ≤ limit') :
    (eachShared body id limit).run j = (eachShared body id limit').run j := by
  -- a stream that is used up ends every limit alike
  have hempty : ∀ {j : Journal} (limit : Nat), (j.left id).size ≤ 0 →
      (eachShared body id limit).run j = (⟨[], .done⟩, j) := by
    intro j limit hsize
    cases limit with
    | zero => rfl
    | succ limit =>
      rw [run_eachShared_succ]
      rcases hleft : j.left id with (_ | ⟨v, rest⟩) | f
      · rfl
      · rw [hleft] at hsize
        cases hsize
      · rw [hleft] at hsize
        cases hsize
  -- on the limits, both of which are enough for what the stream still has
  induction limit generalizing limit' j with
  | zero => rw [hempty 0 h, hempty limit' h]
  | succ limit ih =>
    cases limit' with
    | zero => rw [hempty 0 h', hempty (limit + 1) h']
    | succ limit' =>
      rw [run_eachShared_succ, run_eachShared_succ]
      rcases hleft : j.left id with (_ | ⟨v, rest⟩) | f
      · rfl
      · -- the rest of a round leaves a stream no longer than before
        exact andThen_congr (hbody v) fun j' hj' =>
          ih (size_leave hleft h hj') (size_leave hleft h' hj')
      · rfl

end Sweep

-- ---------------------------------------------------------------------------
-- Sweeps by their first match
-- ---------------------------------------------------------------------------

namespace Setting

variable {s : Setting} {emit : Bindings → Action Value}

/-- The sweep of what is left at a cursor. -/
def finish (s : Setting) (emit : Bindings → Action Value) : Cursor → Sweep
  | .spent => return ⟨[], .done⟩
  | .loop n rest ctx source inner =>
    Sweep.andThen (s.finish emit inner)
      (Sweep.each (fun v => s.sweep emit rest (ctx.set n (v.settled rest.length))) source)

/-- The sweep that goes on from where a run has come to. -/
def conclude (s : Setting) (emit : Bindings → Action Value) : Progress → Sweep
  | .found ctx cursor => Sweep.after (emit ctx) fun v => Sweep.cons v (s.finish emit cursor)
  | .done => return ⟨[], .done⟩
  | .halted => return ⟨[], .halted⟩

/-- What follows a round that has come to a match is left at the cursor. -/
theorem andThen_conclude_found (ctx : Bindings) (cursor : Cursor) (next : Sweep) :
    Sweep.andThen (s.conclude emit (.found ctx cursor)) next =
      Sweep.after (emit ctx) fun v => Sweep.cons v (Sweep.andThen (s.finish emit cursor) next) := by
  rw [conclude, Sweep.andThen_after]
  exact congrArg _ (funext fun v => Sweep.andThen_cons v _ next)

/-- Rounds over candidates, by the first round that comes to a match. -/
theorem eachOwn_eq {body : Value → Sweep} {search : Value → Action Progress} {n : String}
    {rest : List Step} {ctx : Bindings} (vs : List Value)
    (hbody : body = fun v => s.sweep emit rest (ctx.set n (v.settled rest.length)))
    (hsearch : ∀ v, body v = Sweep.after (search v) (s.conclude emit)) :
    Sweep.eachOwn body vs = Sweep.after
      (Cursor.searchOwn search (fun left => .loop n rest ctx (.own left)) vs) (s.conclude emit) := by
  induction vs with
  | nil => rfl
  | cons v vs ih =>
    rw [Sweep.eachOwn, hsearch v, Sweep.andThen_after, Cursor.searchOwn, Sweep.after_bind]
    refine congrArg _ (funext fun p => ?_)
    cases p with
    | found c inner =>
      rw [andThen_conclude_found, Sweep.after_pure, conclude, finish, Sweep.each, hbody]
    | done => rw [conclude, Sweep.andThen_done, ih]
    | halted => rfl

/-- Rounds over the values of a stream, by the first round that comes to a match. -/
theorem run_eachShared_eq {body : Value → Sweep} {search : Value → Action Progress} {n : String}
    {rest : List Step} {ctx : Bindings} {id limit : Nat} {j : Journal}
    (hbody : body = fun v => s.sweep emit rest (ctx.set n (v.settled rest.length)))
    (hsearch : ∀ v, body v = Sweep.after (search v) (s.conclude emit))
    (hmodest : ∀ v, Modest (body v)) (hmodest' : ∀ v, Modest (search v).run)
    (hemit : ∀ c, Modest (emit c).run) (hfinish : ∀ c, Modest (s.finish emit c))
    (hsize : (j.left id).size ≤ limit) :
    (Sweep.eachShared body id limit).run j = (Sweep.after
      (Cursor.searchShared search (.loop n rest ctx (.shared id)) id limit)
      (s.conclude emit)).run j := by
  induction limit generalizing j with
  | zero => rfl
  | succ limit ih =>
    rw [Sweep.run_eachShared_succ, Cursor.searchShared, Sweep.after_bind, Sweep.run_after, run_pull]
    rcases hleft : j.left id with (_ | ⟨v, left⟩) | f
    · rfl
    · simp only
      rw [hsearch v, Sweep.andThen_after, Sweep.after_bind]
      refine Sweep.after_congr (hmodest' v) fun p j₁ hj₁ => ?_
      cases p with
      | found c inner =>
        rw [andThen_conclude_found, Sweep.after_pure, conclude, finish]
        refine Sweep.after_congr (hemit c) fun w j₂ hj₂ => Sweep.cons_congr ?_
        refine Sweep.andThen_congr (hfinish inner) fun j₃ hj₃ => ?_
        -- a fresh look at the stream allows for as many rounds as it takes
        rw [← hbody]
        exact Sweep.eachShared_congr hmodest
          (Sweep.size_leave hleft hsize ((hj₁.trans hj₂).trans hj₃)) (Nat.le_refl _)
      | done =>
        rw [conclude, Sweep.andThen_done]
        exact ih (Sweep.size_leave hleft hsize hj₁)
      | halted => rfl
    · rfl

theorem modest_finish (hemit : ∀ c, Modest (emit c).run) (cursor : Cursor) :
    Modest (s.finish emit cursor) := by
  induction cursor with
  | spent => exact .pure _
  | loop n rest ctx source inner ih =>
    exact ih.andThen (Modest.composes.each (fun v => modest_sweep hemit rest _) source)

theorem modest_searchOwn {search : Value → Action Progress} (h : ∀ v, Modest (search v).run)
    (wrap : List Value → Cursor → Cursor) (vs : List Value) :
    Modest (Cursor.searchOwn search wrap vs).run := by
  induction vs with
  | nil => exact .answer _
  | cons v vs ih =>
    refine (h v).next fun p => ?_
    cases p with
    | found c inner => exact .answer _
    | done => exact ih
    | halted => exact .answer _

theorem modest_searchShared {search : Value → Action Progress} (h : ∀ v, Modest (search v).run)
    (wrap : Cursor → Cursor) (id limit : Nat) :
    Modest (Cursor.searchShared search wrap id limit).run := by
  induction limit with
  | zero => exact .answer _
  | succ limit ih =>
    refine (modest_pull id).next fun v? => ?_
    cases v? with
    | none => exact .answer _
    | some v =>
      refine (h v).next fun p => ?_
      cases p with
      | found c inner => exact .answer _
      | done => exact ih
      | halted => exact .answer _

theorem modest_search {enter : Bindings → Action Progress} (h : ∀ c, Modest (enter c).run)
    (n : String) (rest : List Step) (ctx : Bindings) (source : Source) :
    Modest (Cursor.search n rest ctx enter source).run := by
  cases source with
  | own vs => exact modest_searchOwn (fun v => h _) _ vs
  | shared id => exact .sized id (modest_searchShared (fun v => h _) _ id)

/-- Runs up to the first match. -/
theorem modest_enter (steps : List Step) (ctx : Bindings) : Modest (s.enter steps ctx).run := by
  induction steps generalizing ctx with
  | nil => exact .answer _
  | cons step rest ih =>
    have htest : ∀ (e : Expr) (p : Progress), Modest (do
        if ← s.holds ctx e then s.enter rest ctx else return p : Action Progress).run := by
      intro e p
      refine (modest_holds ctx e).next fun b => ?_
      cases b with
      | true => exact ih ctx
      | false => exact .answer _
    cases step with
    | generate n e => exact (modest_source ctx e).next fun src => modest_search ih n rest ctx src
    | assign n e => exact (modest_evaluate ctx e).next fun v => ih _
    | guard e => exact htest e .done
    | whilst e => exact htest e .halted
    | assignAll bs => exact .throw _
    | foreign k => exact .throw _

/-- Runs up to the next match. -/
theorem modest_resume (cursor : Cursor) : Modest (s.resume cursor).run := by
  induction cursor with
  | spent => exact .answer _
  | loop n rest ctx source inner ih =>
    refine ih.next fun p => ?_
    cases p with
    | found c inner => exact .answer _
    | done => exact modest_search (modest_enter rest) n rest ctx source
    | halted => exact .answer _

/-- Rounds over candidates, by the first round that comes to a match. -/
theorem each_eq (hemit : ∀ c, Modest (emit c).run) {n : String} {rest : List Step} {ctx : Bindings}
    (hrest : ∀ c, s.sweep emit rest c = Sweep.after (s.enter rest c) (s.conclude emit))
    (source : Source) :
    Sweep.each (fun v => s.sweep emit rest (ctx.set n (v.settled rest.length))) source =
      Sweep.after (Cursor.search n rest ctx (s.enter rest) source) (s.conclude emit) := by
  cases source with
  | own vs => exact eachOwn_eq vs rfl fun v => hrest _
  | shared id =>
    funext j
    exact run_eachShared_eq (j := j) rfl (fun v => hrest _) (fun v => modest_sweep hemit rest _)
      (fun v => modest_enter rest _) hemit (modest_finish hemit) (Nat.le_refl _)

/-- A sweep goes on to the first match, makes its result, and sweeps what is left. -/
theorem sweep_eq (hemit : ∀ c, Modest (emit c).run) (steps : List Step) (ctx : Bindings) :
    s.sweep emit steps ctx = Sweep.after (s.enter steps ctx) (s.conclude emit) := by
  -- along the steps; a test that fails concludes the sweep as it ends it
  induction steps generalizing ctx with
  | nil => rfl
  | cons step rest ih =>
    have htest : ∀ (e : Expr) (ending : Ending) (p : Progress),
        s.conclude emit p = pure ⟨[], ending⟩ →
        -- entering the rest, or having stopped, is concluded as the sweep does it
        (Sweep.after (s.holds ctx e) fun b =>
          bif b then s.sweep emit rest ctx else return ⟨[], ending⟩) =
        Sweep.after (do if ← s.holds ctx e then s.enter rest ctx else return p)
          (s.conclude emit) := by
      intro e ending p hp
      rw [Sweep.after_bind]
      refine congrArg _ (funext fun b => ?_)
      cases b with
      | true => exact ih ctx
      | false => exact hp.symm
    cases step with
    | generate n e =>
      rw [sweep, enter, Sweep.after_bind]
      exact congrArg _ (funext fun source => each_eq hemit ih source)
    | assign n e =>
      rw [sweep, enter, Sweep.after_bind]
      exact congrArg _ (funext fun v => ih _)
    | guard e => exact htest e .done .done rfl
    | whilst e => exact htest e .halted .halted rfl
    | assignAll bs => rfl
    | foreign k => rfl

/-- The sweep of what is left at a cursor goes on to the next match. -/
theorem finish_eq (hemit : ∀ c, Modest (emit c).run) (cursor : Cursor) :
    s.finish emit cursor = Sweep.after (s.resume cursor) (s.conclude emit) := by
  induction cursor with
  | spent => rfl
  | loop n rest ctx source inner ih =>
    rw [finish, ih, Sweep.andThen_after, resume, Sweep.after_bind]
    refine congrArg _ (funext fun p => ?_)
    cases p with
    | found c inner => rw [andThen_conclude_found, Sweep.after_pure, conclude, finish]
    | done =>
      rw [conclude, Sweep.andThen_done]
      exact each_eq hemit (sweep_eq hemit rest) source
    | halted => rfl

end Setting

-- ---------------------------------------------------------------------------
-- How an iteration goes
-- ---------------------------------------------------------------------------

/-- The last answer of an iteration that ends in some way. -/
def Ending.answer : Ending → Answer
  | .done | .halted => .stop
  | .failed f => .failed f

/-- The fault of an answer. -/
def Answer.fault? : Answer → Option Fault
  | .failed f => some f
  | .found _ | .stop => none

/-- The last answer of an iteration over some matches. -/
def Harvest.answer (h : Harvest) : Answer :=
  match h.fault? with
  | some f => .failed f
  | none => .stop

/-- Makes the result of a match and leaves a mark in the journal. -/
def marking (mark : Call) (emit : Bindings → Action Value) (ctx : Bindings) : Action Value := do
  let v ← emit ctx
  modify fun j => { j with calls := j.calls ++ [mark] }
  return v

theorem run_marking (mark : Call) (emit : Bindings → Action Value) (ctx : Bindings) (j : Journal) :
    (marking mark emit ctx).run.run j = match (emit ctx).run.run j with
      | (.ok v, j') => (.ok v, { j' with calls := j'.calls ++ [mark] })
      | (.error f, j') => (.error f, j') := by
  rw [marking, Gives.run_bind]
  rcases (emit ctx).run.run j with ⟨_ | v, j'⟩ <;> rfl

theorem modest_marking (mark : Call) {emit : Bindings → Action Value}
    (hemit : ∀ c, Modest (emit c).run) (ctx : Bindings) : Modest (marking mark emit ctx).run := by
  refine (hemit ctx).next fun v => Modest.next ?_ fun _ => .answer v
  refine { framed := fun earlier j => ?_, wanes := fun j => ⟨Nat.le_refl _, fun _ _ => Nat.le_refl _⟩ }
  show (_, Journal.mk ((earlier ++ j.calls) ++ [mark]) j.streams) = _
  rw [List.append_assoc]
  rfl

namespace Matches

variable {m : Matches}

/-- The calls that all matches take, with a mark behind those that were made when a match came. -/
def marked (m : Matches) (mark : Call) : List Call :=
  ((m.setting.sweep (marking mark m.emit) m.plan.steps m.arguments).run {}).2.calls

/-- The answers of an iteration to a number of requests, with the calls that each takes. -/
def drive (m : Matches) (it : Iterator) : Nat → List (Answer × List Call)
  | 0 => []
  | n + 1 =>
    match m.next it with
    | (answer, calls, it) => (answer, calls) :: m.drive it n

/-- What is left to an iteration, as a sweep. -/
def remaining (m : Matches) (emit : Bindings → Action Value) : IteratorState → Sweep
  | .fresh => m.setting.sweep emit m.plan.steps m.arguments
  | .stopped cursor => m.setting.finish emit cursor
  | .finished => return ⟨[], .done⟩

/-- The run up to the next match. -/
def course (m : Matches) : IteratorState → Action Progress
  | .fresh => m.setting.enter m.plan.steps m.arguments
  | .stopped cursor => m.setting.resume cursor
  | .finished => pure .done

theorem remaining_eq {emit : Bindings → Action Value} (hemit : ∀ c, Modest (emit c).run)
    (state : IteratorState) :
    m.remaining emit state = Sweep.after (m.course state) (m.setting.conclude emit) := by
  cases state with
  | fresh => exact Setting.sweep_eq hemit _ _
  | stopped cursor => exact Setting.finish_eq hemit cursor
  | finished => rfl

theorem run_advance (state : IteratorState) (j : Journal) :
    (m.advance state).run.run j = match (m.course state).run.run j with
      | (.ok (.found ctx cursor), j') => match (m.emit ctx).run.run j' with
        | (.ok v, j'') => (.ok (some (v, cursor)), j'')
        | (.error f, j'') => (.error f, j'')
      | (.ok _, j') => (.ok none, j')
      | (.error f, j') => (.error f, j') := by
  have hadvance : m.advance state = m.course state >>= fun progress => match progress with
      | .found ctx cursor => do return some (← m.emit ctx, cursor)
      | .done | .halted => return none := by
    cases state <;> rfl
  rw [hadvance, Gives.run_bind]
  rcases (m.course state).run.run j with ⟨_ | ⟨ctx, cursor⟩ | _ | _, j'⟩
  · rfl
  · simp only
    rw [Gives.run_bind]
    rcases (m.emit ctx).run.run j' with ⟨_ | v, j''⟩ <;> rfl
  · rfl
  · rfl

/-- What is left to an iteration, by its next match. -/
theorem run_remaining {emit : Bindings → Action Value} (hemit : ∀ c, Modest (emit c).run)
    (state : IteratorState) (j : Journal) :
    (m.remaining emit state).run j = match (m.course state).run.run j with
      | (.ok (.found ctx cursor), j') => match (emit ctx).run.run j' with
        | (.ok v, j'') => (Sweep.cons v (m.setting.finish emit cursor)).run j''
        | (.error f, j'') => (⟨[], .failed f⟩, j'')
      | (.ok .done, j') => (⟨[], .done⟩, j')
      | (.ok .halted, j') => (⟨[], .halted⟩, j')
      | (.error f, j') => (⟨[], .failed f⟩, j') := by
  rw [remaining_eq hemit, Sweep.run_after]
  rcases (m.course state).run.run j with ⟨_ | ⟨ctx, cursor⟩ | _ | _, j'⟩
  · rfl
  · simp only
    rw [Setting.conclude, Sweep.run_after]
    rcases (emit ctx).run.run j' with ⟨_ | v, j''⟩ <;> rfl
  · rfl
  · rfl

/-- How an iteration goes: the matches with the calls that each of them takes, and the last answer. -/
inductive Unfolds (m : Matches) : Iterator → List (Value × List Call) → Answer × List Call → Prop
  | found {it it' : Iterator} {v : Value} {calls : List Call} {rounds : List (Value × List Call)}
      {last : Answer × List Call} (next : m.next it = (.found v, calls, it'))
      (more : Unfolds m it' rounds last) : Unfolds m it ((v, calls) :: rounds) last
  | ended {it : Iterator} {answer : Answer} {calls : List Call} {streams : List Supply}
      (next : m.next it = (answer, calls, ⟨.finished, streams⟩)) (last : ∀ v, answer ≠ .found v) :
      Unfolds m it [] (answer, calls)

/-- The calls of a sweep are those of an iteration. With a mark at every match, they fall into those
that each match takes. -/
structure Accounts (m : Matches) (it : Iterator) (rounds : List (Value × List Call))
    (last : Answer × List Call) : Prop where
  results : ((m.remaining m.emit it.state).run { streams := it.streams }).1.results =
    rounds.map (·.1)
  answer : ((m.remaining m.emit it.state).run { streams := it.streams }).1.ending.answer = last.1
  calls : ((m.remaining m.emit it.state).run { streams := it.streams }).2.calls =
    (rounds.map (·.2)).flatten ++ last.2
  marked : ∀ mark, ((m.remaining (marking mark m.emit) it.state).run
    { streams := it.streams }).2.calls = rounds.flatMap (fun r => r.2 ++ [mark]) ++ last.2

/-- An iteration that comes to no match is over. -/
theorem exists_ended {it : Iterator} (answer : Answer) {j : Journal} {r : Swept}
    (hnext : m.next it = (answer, j.calls, ⟨.finished, j.streams⟩)) (hlast : ∀ v, answer ≠ .found v)
    (hr : r.results = []) (hanswer : r.ending.answer = answer)
    (hrun : (m.remaining m.emit it.state).run { streams := it.streams } = (r, j))
    (hmarked : ∀ mark, (m.remaining (marking mark m.emit) it.state).run
      { streams := it.streams } = (r, j)) :
    ∃ rounds last, m.Unfolds it rounds last ∧ m.Accounts it rounds last := by
  refine ⟨[], (answer, j.calls), .ended hnext hlast, ?_⟩
  exact { results := by rw [hrun, hr]; rfl, answer := by rw [hrun, hanswer]
          calls := by rw [hrun]; rfl, marked := fun mark => by rw [hmarked mark]; rfl }

/-- A match, and what an iteration goes on with after it. -/
theorem exists_found {it : Iterator} (v : Value) (cursor : Cursor) {j : Journal}
    (hnext : m.next it = (.found v, j.calls, ⟨.stopped cursor, j.streams⟩))
    (hrun : (m.remaining m.emit it.state).run { streams := it.streams } =
      (Sweep.cons v (m.setting.finish m.emit cursor)).run j)
    (hmarked : ∀ mark, (m.remaining (marking mark m.emit) it.state).run { streams := it.streams } =
      (Sweep.cons v (m.setting.finish (marking mark m.emit) cursor)).run
        { j with calls := j.calls ++ [mark] })
    (hmore : ∃ rounds last, m.Unfolds ⟨.stopped cursor, j.streams⟩ rounds last ∧
      m.Accounts ⟨.stopped cursor, j.streams⟩ rounds last) :
    ∃ rounds last, m.Unfolds it rounds last ∧ m.Accounts it rounds last := by
  obtain ⟨rounds, last, hunfolds, haccounts⟩ := hmore
  -- the calls of this round come before those that are made from the cursor on
  have hframed := (Setting.modest_finish (s := m.setting) m.modest_emit cursor).framed j.calls
    { streams := j.streams }
  rw [← j.eq_after] at hframed
  have hframed' := fun mark => (Setting.modest_finish (s := m.setting)
    (modest_marking mark m.modest_emit) cursor).framed (j.calls ++ [mark])
    { streams := j.streams }
  refine ⟨(v, j.calls) :: rounds, last, .found hnext hunfolds, ?_⟩
  have hresults := haccounts.results
  have hanswer := haccounts.answer
  have hcalls := haccounts.calls
  have hmarks := haccounts.marked
  simp only [remaining] at hresults hanswer hcalls hmarks
  rw [Sweep.run_cons, hframed] at hrun
  refine { results := ?_, answer := ?_, calls := ?_, marked := fun mark => ?_ }
  · rw [hrun, hresults]
    rfl
  · rw [hrun, hanswer]
  · rw [hrun, Journal.after, hcalls, List.map_cons, List.flatten_cons, List.append_assoc]
  · have hthis : ({ j with calls := j.calls ++ [mark] } : Journal) =
        Journal.after (j.calls ++ [mark]) { streams := j.streams } :=
      Journal.eq_after _
    rw [hmarked mark, Sweep.run_cons, hthis, hframed' mark, Journal.after, hmarks mark,
      List.flatMap_cons]
    simp only [List.append_assoc]

/-- An iteration gives the matches of a sweep, and makes its calls. -/
theorem exists_unfolds (m : Matches) (it : Iterator) :
    ∃ rounds last, m.Unfolds it rounds last ∧ m.Accounts it rounds last := by
  -- by the number of matches that are left
  generalize hn : ((m.remaining m.emit it.state).run { streams := it.streams }).1.results.length = n
  induction n using Nat.strongRecOn generalizing it with
  | ind n ih =>
    have hrun := run_remaining (m := m) m.modest_emit it.state { streams := it.streams }
    have hmarked := fun mark => run_remaining (m := m) (modest_marking mark m.modest_emit)
      it.state { streams := it.streams }
    have hadvance := run_advance (m := m) it.state { streams := it.streams }
    simp only [run_marking] at hmarked
    rcases hcourse : (m.course it.state).run.run { streams := it.streams } with
      ⟨f | ⟨ctx, cursor⟩ | _ | _, j⟩ <;> simp only [hcourse] at hrun hmarked hadvance
    case error =>
      refine exists_ended (.failed f) ?_ (fun v => Answer.noConfusion) rfl rfl hrun hmarked
      rw [next_eq, hadvance]
    case ok.done =>
      refine exists_ended .stop ?_ (fun v => Answer.noConfusion) rfl rfl hrun hmarked
      rw [next_eq, hadvance]
    case ok.halted =>
      refine exists_ended .stop ?_ (fun v => Answer.noConfusion) rfl rfl hrun hmarked
      rw [next_eq, hadvance]
    case ok.found =>
      rcases hemit : (m.emit ctx).run.run j with ⟨f | v, j'⟩ <;>
        simp only [hemit] at hrun hmarked hadvance
      · refine exists_ended (.failed f) ?_ (fun v => Answer.noConfusion) rfl rfl hrun hmarked
        rw [next_eq, hadvance]
      · refine exists_found v cursor (j := j') ?_ hrun hmarked
          (ih _ ?_ ⟨.stopped cursor, j'.streams⟩ rfl)
        · rw [next_eq, hadvance]
        · have hframed := (Setting.modest_finish (s := m.setting) m.modest_emit cursor).framed
            j'.calls { streams := j'.streams }
          rw [← j'.eq_after] at hframed
          rw [hrun, Sweep.run_cons, hframed] at hn
          rw [← hn]
          exact Nat.lt_succ_self _

-- ---------------------------------------------------------------------------
-- Requests
-- ---------------------------------------------------------------------------

theorem drive_finished (streams : List Supply) (n : Nat) :
    m.drive ⟨.finished, streams⟩ n = List.replicate n (.stop, []) := by
  induction n with
  | zero => rfl
  | succ n ih => exact congrArg _ ih

namespace Unfolds

variable {it : Iterator} {rounds : List (Value × List Call)} {last : Answer × List Call}

/-- The matches come first, then the last answer, and then nothing but the end. -/
theorem drive_eq (h : m.Unfolds it rounds last) {n k : Nat} (hk : n ≤ k) :
    m.drive it n = (rounds.map (fun r => (Answer.found r.1, r.2)) ++
      last :: List.replicate k (.stop, [])).take n := by
  induction h generalizing n with
  | found next more ih =>
    cases n with
    | zero => rfl
    | succ n =>
      rw [drive, next, List.map_cons, List.cons_append, List.take_succ_cons]
      exact congrArg _ (ih (Nat.le_of_succ_le hk))
  | ended next last =>
    cases n with
    | zero => rfl
    | succ n =>
      rw [drive, next, List.map_nil, List.nil_append, List.take_succ_cons, List.take_replicate,
        Nat.min_eq_left (Nat.le_of_succ_le hk)]
      exact congrArg _ (drive_finished _ n)

/-- The last answer is none with a match. -/
theorem last_ne (h : m.Unfolds it rounds last) (v : Value) : last.1 ≠ .found v := by
  induction h with
  | found next more ih => exact ih
  | ended next last => exact last v

/-- Some first matches, and how they end. -/
theorem takeFrom_eq (h : m.Unfolds it rounds last) (n : Nat) :
    m.takeFrom it n =
      if n ≤ rounds.length then
        { results := (rounds.map (·.1)).take n, calls := ((rounds.map (·.2)).take n).flatten }
      else
        { results := rounds.map (·.1), fault? := last.1.fault?
          calls := (rounds.map (·.2)).flatten ++ last.2 } := by
  induction h generalizing n with
  | @found it it' v calls rounds last next more ih =>
    cases n with
    | zero => simp [takeFrom]
    | succ n =>
      simp only [takeFrom, next, ih n, List.length_cons, Nat.succ_le_succ_iff]
      split <;> simp
  | @ended it answer calls streams next last =>
    cases n with
    | zero => simp [takeFrom]
    | succ n =>
      cases answer with
      | found v => exact absurd rfl (last v)
      | stop => simp [takeFrom, next, Answer.fault?]
      | failed f => simp [takeFrom, next, Answer.fault?]

end Unfolds

/-- All matches, as an iteration goes. -/
theorem Accounts.all_eq {rounds : List (Value × List Call)} {last : Answer × List Call}
    (h : m.Accounts m.iterator rounds last) :
    m.all = { results := rounds.map (·.1), fault? := last.1.fault?
              calls := (rounds.map (·.2)).flatten ++ last.2 } := by
  have hresults := h.results
  have hanswer := h.answer
  have hcalls := h.calls
  simp only [iterator, remaining] at hresults hanswer hcalls
  rw [all, ← hanswer]
  rcases hrun : (m.setting.sweep m.emit m.plan.steps m.arguments).run {} with ⟨⟨results, ending⟩, j⟩
  rw [hrun] at hresults hcalls
  simp only at hresults hcalls
  simp only [hresults, hcalls]
  cases ending <;> rfl

/-- Requests on a new iteration are answered as all matches tell. Every match takes the calls from the
one before it up to its own; behind the last match comes the end, or the fault that there is; and
behind that, there is only the end, without a call. -/
theorem requests_of_all (m : Matches) :
    ∃ (rounds : List (Value × List Call)) (last : List Call),
      m.all.results = rounds.map (·.1) ∧
      m.all.calls = (rounds.map (·.2)).flatten ++ last ∧
      (∀ mark, m.marked mark = rounds.flatMap (fun r => r.2 ++ [mark]) ++ last) ∧
      (∀ n, m.drive m.iterator n = (rounds.map (fun r => (Answer.found r.1, r.2)) ++
        (m.all.answer, last) :: List.replicate n (Answer.stop, [])).take n) ∧
      ∀ n, m.take n =
        if n ≤ rounds.length then
          { results := m.all.results.take n, calls := ((rounds.map (·.2)).take n).flatten }
        else m.all := by
  obtain ⟨rounds, last, hunfolds, haccounts⟩ := m.exists_unfolds m.iterator
  have hall := haccounts.all_eq
  -- the last answer says how the run ended, and a run that has ended found nothing more
  have hanswer : m.all.answer = last.1 := by
    have hover := hunfolds.last_ne
    rcases last with ⟨_ | _ | f, calls⟩
    · exact absurd rfl (hover _)
    · rw [hall]; rfl
    · rw [hall]; rfl
  refine ⟨rounds, last.2, ?_, ?_, haccounts.marked, fun n => ?_, fun n => ?_⟩
  · rw [hall]
  · rw [hall]
  · rw [hanswer]
    exact hunfolds.drive_eq (Nat.le_refl n)
  · rw [hall]
    exact hunfolds.takeFrom_eq n

end Matches

end GraphPattern
