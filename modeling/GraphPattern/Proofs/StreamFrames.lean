import GraphPattern.Proofs.Steady
import GraphPattern.Proofs.Laziness

/-!
# GraphPattern — runs that leave given streams alone

The streams that were given with the arguments have the first numbers in a run. A run whose bindings
neither are nor hold one of them never comes across their numbers: the values that it reads from its
own streams and from the model hold none either, forms give back no streams but those they are called
with, and a stream that it makes has a number behind all that there are. So it does the same whatever
is left of the given streams, and leaves that as it is.

## Results

* `Value.Beyond`, `Cursor.Beyond` — the given streams do not occur.
* `Setting.minds_evaluate` — evaluations mind their own streams.
* `Setting.apart_sweep`, `Setting.minds_enter`, `Setting.minds_resume` — so do sweeps, and runs up to a
  match.
-/

namespace GraphPattern

-- ---------------------------------------------------------------------------
-- Where streams occur
-- ---------------------------------------------------------------------------

namespace Value

mutual

/-- The numbers of the streams that a value is or holds. -/
def streams : Value → List Nat
  | .stream id => [id]
  | .list vs _ => streamsAll vs
  | _ => []

def streamsAll : List Value → List Nat
  | [] => []
  | v :: vs => streams v ++ streamsAll vs

end

/-- None of the first streams of a run occurs in a value. -/
def Beyond (given : Nat) (v : Value) : Prop :=
  ∀ id ∈ v.streams, given ≤ id

variable {given : Nat}

theorem mem_streamsAll {vs : List Value} {id : Nat} :
    id ∈ streamsAll vs ↔ ∃ v ∈ vs, id ∈ v.streams := by
  induction vs with
  | nil => simp [streamsAll]
  | cons v vs ih => simp [streamsAll, ih]

theorem beyond_list {vs : List Value} {o : Origin} :
    (Value.list vs o).Beyond given ↔ ∀ v ∈ vs, v.Beyond given := by
  simp only [Beyond, streams, mem_streamsAll]
  constructor
  · exact fun h v hv id hid => h id ⟨v, hv, hid⟩
  · rintro h id ⟨v, hv, hid⟩
    exact h v hv id hid

theorem IsElement.beyond {v : Value} (h : v.IsElement) : v.Beyond given := by
  cases v <;> first | exact h.elim | exact fun _ hid => absurd hid List.not_mem_nil

mutual

/-- A step that binds a value binds the streams in it. -/
theorem streams_settled (stepsLeft : Nat) : ∀ v : Value, (v.settled stepsLeft).streams = v.streams
  | .list vs o => by rw [settled, streams, streams, streamsAll_settleds stepsLeft vs]
  | .null | .bool _ | .int _ _ | .float _ _ | .text _ _ | .vertex _ | .edge _ | .object _
  | .stream _ => rfl

theorem streamsAll_settleds (stepsLeft : Nat) :
    ∀ vs : List Value, streamsAll (settleds stepsLeft vs) = streamsAll vs
  | [] => rfl
  | v :: vs => by
    rw [settleds, streamsAll, streamsAll, streams_settled stepsLeft v, streamsAll_settleds stepsLeft vs]

end

theorem Beyond.settled {v : Value} (h : v.Beyond given) (stepsLeft : Nat) :
    (v.settled stepsLeft).Beyond given := by
  rwa [Beyond, streams_settled]

end Value

/-- None of the first streams of a run occurs in what is left of a stream. -/
def Supply.Beyond (given : Nat) : Supply → Prop
  | .values vs => ∀ v ∈ vs, v.Beyond given
  | .broken _ => True

theorem Supply.OfElements.beyond {given : Nat} {supply : Supply} (h : supply.OfElements) :
    supply.Beyond given := by
  cases supply with
  | values vs => exact fun v hv => (h vs rfl v hv).beyond
  | broken f => trivial

/-- None of the first streams of a run occurs in the values of the names. -/
def Bindings.Beyond (given : Nat) (b : Bindings) : Prop :=
  ∀ p ∈ b, p.2.Beyond given

namespace Bindings.Beyond

variable {given : Nat} {b : Bindings}

theorem get (h : b.Beyond given) {n : String} {v : Value} (hv : b.get? n = some v) :
    v.Beyond given := by
  induction b with
  | nil => cases hv
  | cons p rest ih =>
    obtain ⟨hp, hrest⟩ := List.forall_mem_cons.1 h
    rw [Bindings.get?] at hv
    split at hv
    · cases hv
      exact hp
    · exact ih hrest hv

theorem set (h : b.Beyond given) (n : String) {v : Value} (hv : v.Beyond given) :
    (b.set n v).Beyond given := by
  induction b with
  | nil => exact List.forall_mem_cons.2 ⟨hv, fun _ hp => absurd hp List.not_mem_nil⟩
  | cons p rest ih =>
    obtain ⟨hp, hrest⟩ := List.forall_mem_cons.1 h
    rw [Bindings.set]
    split
    · exact List.forall_mem_cons.2 ⟨hv, hrest⟩
    · exact List.forall_mem_cons.2 ⟨hp, ih hrest⟩

end Bindings.Beyond

/-- None of the first streams of a run occurs in what an expression stands for. -/
def Computed.Beyond (given : Nat) : Computed → Prop
  | .value v => v.Beyond given
  | .candidates supply => supply.Beyond given

/-- None of the first streams of a run is read, or occurs in what is read. -/
def Source.Beyond (given : Nat) : Source → Prop
  | .own vs => ∀ v ∈ vs, v.Beyond given
  | .shared id => given ≤ id

/-- None of the first streams of a run occurs where it has stopped. -/
def Cursor.Beyond (given : Nat) : Cursor → Prop
  | .spent => True
  | .loop _ _ ctx source inner => ctx.Beyond given ∧ source.Beyond given ∧ inner.Beyond given

def Progress.Beyond (given : Nat) : Progress → Prop
  | .found ctx cursor => ctx.Beyond given ∧ cursor.Beyond given
  | .done | .halted => True

/-- Forms give back no streams but those that they are called with. -/
def Setting.Discreet (s : Setting) : Prop :=
  ∀ (f : Form) (params : List Param) (passed env : Bindings) (v : Value),
    f.params? = some params → Form.environment? params passed = some env →
    s.behaviour f env = .ok v → ∀ id ∈ v.streams, ∃ p ∈ passed, id ∈ p.2.streams

-- ---------------------------------------------------------------------------
-- Minding one's own streams
-- ---------------------------------------------------------------------------

/-- What is computed, what it calls and what it leaves of its own streams is the same whatever the
given streams are, and it leaves these as they are. `post` says what the result is like. -/
def Apart (given : Nat) {α : Type} (m : StateM Journal α) (post : α → Prop) : Prop :=
  ∀ own : List Supply, (∀ supply ∈ own, supply.Beyond given) →
    ∃ x own' calls, post x ∧ (∀ supply ∈ own', supply.Beyond given) ∧
      ∀ (earlier : List Call) (shared : List Supply), shared.length = given →
        m.run ⟨earlier, shared ++ own⟩ = (x, ⟨earlier ++ calls, shared ++ own'⟩)

namespace Apart

variable {given : Nat} {α β : Type} {P : α → Prop} {Q : β → Prop}

/-- It does not touch the journal. -/
theorem of_still {m : StateM Journal α} {x : α} (h : ∀ j, m.run j = (x, j)) (hx : P x) :
    Apart given m P :=
  fun own hown => ⟨x, own, [], hx, hown, fun earlier shared _ => by rw [h, List.append_nil]⟩

theorem pure {x : α} (hx : P x) : Apart given (Pure.pure x : StateM Journal α) P :=
  .of_still (fun _ => rfl) hx

theorem bind {m : StateM Journal α} {f : α → StateM Journal β} (hm : Apart given m P)
    (hf : ∀ x, P x → Apart given (f x) Q) : Apart given (m >>= f) Q := by
  intro own hown
  obtain ⟨x, own', calls, hx, hown', hrun⟩ := hm own hown
  obtain ⟨y, own'', calls', hy, hown'', hrun'⟩ := hf x hx own' hown'
  refine ⟨y, own'', calls ++ calls', hy, hown'', fun earlier shared hshared => ?_⟩
  rw [StateT.run_bind, hrun earlier shared hshared]
  show (f x).run ⟨earlier ++ calls, shared ++ own'⟩ = _
  rw [hrun' _ shared hshared, List.append_assoc]

end Apart

/-- An action minds its own streams. `post` says what its result is like if it succeeds. -/
def Minds (given : Nat) {α : Type} (a : Action α) (post : α → Prop) : Prop :=
  Apart given a.run fun r => Ensures r post

namespace Minds

variable {given : Nat} {α β : Type} {P : α → Prop} {Q : β → Prop}

theorem answer {x : α} (hx : P x) : Minds given (Pure.pure x : Action α) P :=
  .of_still (fun _ => rfl) (.ok hx)

theorem throw (f : Fault) : Minds given (MonadExcept.throw f : Action α) P :=
  .of_still (fun _ => rfl) (.error f)

theorem ask {e : Except Fault α} (h : Ensures e P) : Minds given (Setting.ask e) P :=
  .of_still (fun _ => rfl) h

/-- One action after another. -/
theorem next {a : Action α} {k : α → Action β} (ha : Minds given a P)
    (hk : ∀ x, P x → Minds given (k x) Q) : Minds given (a >>= k) Q := by
  show Apart given (a.run >>= ExceptT.bindCont k) _
  refine Apart.bind ha fun r hr => ?_
  cases r with
  | ok x => exact hk x (hr x rfl)
  | error f => exact .of_still (fun _ => rfl) (.error f)

end Minds

-- ---------------------------------------------------------------------------
-- Reading streams
-- ---------------------------------------------------------------------------

namespace Journal

variable {shared own : List Supply} {id : Nat}

/-- Behind the streams that were given stand those of the run. -/
theorem left_own (calls : List Call) (hid : shared.length ≤ id) :
    (⟨calls, shared ++ own⟩ : Journal).left id = (own[id - shared.length]?).getD (.values []) := by
  rw [left, List.getElem?_append_right hid]

theorem leave_own (calls : List Call) (hid : shared.length ≤ id) (rest : List Value) :
    (⟨calls, shared ++ own⟩ : Journal).leave id rest =
      ⟨calls, shared ++ own.set (id - shared.length) (.values rest)⟩ := by
  rw [leave, List.set_append_right _ _ hid]

end Journal

variable {given : Nat}

/-- What is left of a stream of the run. -/
theorem Supply.beyond_getD {own : List Supply} (hown : ∀ supply ∈ own, supply.Beyond given) (i : Nat) :
    ((own[i]?).getD (.values [])).Beyond given := by
  cases h : own[i]? with
  | none => exact fun _ hv => absurd hv List.not_mem_nil
  | some supply => exact hown supply (List.mem_of_getElem? h)

theorem Supply.beyond_set {own : List Supply} (hown : ∀ supply ∈ own, supply.Beyond given) (i : Nat)
    {rest : List Value} (hrest : ∀ v ∈ rest, v.Beyond given) :
    ∀ supply ∈ own.set i (.values rest), supply.Beyond given := by
  intro supply hsupply
  rcases List.mem_or_eq_of_mem_set hsupply with hmem | rfl
  · exact hown supply hmem
  · exact hrest

namespace Computed

/-- Candidates become a stream behind all that there are. -/
theorem minds_toValue {c : Computed} (hc : c.Beyond given) :
    Minds given c.toValue (Value.Beyond given) := by
  cases c with
  | value v => exact .answer hc
  | candidates supply =>
    intro own hown
    refine ⟨.ok (.stream (given + own.length)), own ++ [supply], [], .ok ?_, ?_, ?_⟩
    · intro id hid
      obtain rfl : id = given + own.length := List.mem_singleton.1 hid
      exact Nat.le_add_right _ _
    · intro s hs
      rcases List.mem_append.1 hs with hs | hs
      · exact hown s hs
      · exact List.mem_singleton.1 hs ▸ hc
    · rintro earlier shared rfl
      rw [List.append_nil, ← List.length_append, ← List.append_assoc]
      rfl

theorem ensures_toSource {c : Computed} (hc : c.Beyond given) :
    Ensures c.toSource (Source.Beyond given) := by
  rcases c with v | ⟨vs | f⟩
  · cases v with
    | list vs o => exact .ok (Value.beyond_list.1 hc)
    | stream id => exact .ok (hc id (List.mem_singleton.2 rfl))
    | text s o =>
      refine .ok fun v hv => ?_
      obtain ⟨c, -, rfl⟩ := List.mem_map.1 hv
      exact fun _ hid => absurd hid List.not_mem_nil
    | _ => exact .error _
  · exact .ok hc
  · exact .error f

end Computed

/-- What looks at a stream of the run, and may leave less of it. -/
theorem Apart.reading {α : Type} {m : StateM Journal α} {P : α → Prop} {id : Nat} (hid : given ≤ id)
    (read : Supply → α × Option (List Value))
    (hrun : ∀ j, m.run j = ((read (j.left id)).1, ((read (j.left id)).2).elim j (j.leave id)))
    (hread : ∀ supply, supply.Beyond given → P (read supply).1 ∧
      ∀ rest, (read supply).2 = some rest → ∀ v ∈ rest, v.Beyond given) : Apart given m P := by
  intro own hown
  obtain ⟨hpost, hrest⟩ := hread _ (Supply.beyond_getD hown (id - given))
  rcases hleft : read ((own[id - given]?).getD (.values [])) with ⟨x, _ | rest⟩ <;>
    rw [hleft] at hpost hrest
  · refine ⟨x, own, [], hpost, hown, ?_⟩
    rintro earlier shared rfl
    rw [hrun, Journal.left_own earlier hid, hleft, List.append_nil]
    rfl
  · refine ⟨x, own.set (id - given) (.values rest), [], hpost,
      Supply.beyond_set hown _ (hrest rest rfl), ?_⟩
    rintro earlier shared rfl
    rw [hrun, Journal.left_own earlier hid, hleft, List.append_nil, ← Journal.leave_own earlier hid]
    rfl

/-- The next value of a stream, and what is left behind it. -/
def Supply.uncons : Supply → Except Fault (Option Value) × Option (List Value)
  | .broken f => (.error f, none)
  | .values [] => (.ok none, none)
  | .values (v :: rest) => (.ok (some v), some rest)

theorem minds_pull {id : Nat} (hid : given ≤ id) :
    Minds given (pull id) fun v? => ∀ v, v? = some v → v.Beyond given := by
  refine .reading hid Supply.uncons (fun j => ?_) fun supply hsupply => ?_
  · show (pull id).run.run j = _
    rw [Setting.run_pull]
    rcases j.left id with (_ | ⟨v, rest⟩) | f <;> rfl
  · rcases supply with (_ | ⟨v, rest⟩) | f
    · exact ⟨.ok fun _ hv => (by cases hv), fun _ hr => by cases hr⟩
    · obtain ⟨hv, hrest⟩ := List.forall_mem_cons.1 hsupply
      refine ⟨.ok ?_, ?_⟩
      · rintro _ ⟨⟩
        exact hv
      · rintro _ ⟨⟩
        exact hrest
    · exact ⟨.error f, fun _ hr => by cases hr⟩

/-- Whether a value is in a stream, and what is left behind it. Nothing is, if it is not found. -/
def Supply.seek (v : Value) : Supply → Except Fault Bool × Option (List Value)
  | .broken f => (.error f, none)
  | .values vs =>
    let left := vs.dropWhile fun w => !w.fits v
    (.ok !left.isEmpty, some left.tail)

theorem minds_isMember (v : Value) {c : Computed} (hc : c.Beyond given) :
    Minds given (isMember v c) fun _ => True := by
  rcases c with w | ⟨vs | f⟩
  · cases w with
    | list vs o => exact .answer trivial
    | text t o => cases v <;> first | exact .answer trivial | exact .throw _
    | stream id =>
      refine .reading (hc id (List.mem_singleton.2 rfl)) (Supply.seek v) (fun j => ?_)
        fun supply hsupply => ?_
      · show (isMember v (.value (.stream id))).run.run j = _
        rw [Setting.run_isMember_stream]
        rcases j.left id with vs | f
        · simp only [Supply.seek]
          cases vs.dropWhile fun w => !w.fits v <;> rfl
        · rfl
      · rcases supply with vs | f
        · refine ⟨.ok trivial, ?_⟩
          rintro _ ⟨⟩ u hu
          exact hsupply u ((List.dropWhile_suffix _).subset (List.mem_of_mem_tail hu))
        · exact ⟨.error f, fun _ hr => by cases hr⟩
    | _ => exact .throw _
  · exact .answer trivial
  · exact .throw f

theorem minds_isNonEmpty {c : Computed} (hc : c.Beyond given) :
    Minds given (isNonEmpty c) fun _ => True := by
  refine Minds.next (.ask (Computed.ensures_toSource hc)) fun source hsource => ?_
  cases source with
  | own vs => exact .answer trivial
  | shared id => exact (minds_pull hsource).next fun _ _ => .answer trivial

-- ---------------------------------------------------------------------------
-- Evaluation
-- ---------------------------------------------------------------------------

namespace Form

variable {ctx : Bindings}

theorem ensures_gather (f : Form) (params : List Param) (hctx : ctx.Beyond given) :
    Ensures (keywordsFor.gather f ctx params) (Bindings.Beyond given) := by
  induction params with
  | nil => exact .ok fun p hp => absurd hp List.not_mem_nil
  | cons p ps ih =>
    unfold keywordsFor.gather
    split
    · rename_i v hv
      exact ih.map fun passed hpassed => List.forall_mem_cons.2 ⟨hctx.get hv, hpassed⟩
    · split
      · exact .error _
      · exact ih

/-- What is passed to a form was bound. -/
theorem ensures_keywordsFor (f : Form) (params : List Param) (hctx : ctx.Beyond given) :
    Ensures (f.keywordsFor params ctx) (Bindings.Beyond given) := by
  unfold keywordsFor
  split
  · exact .ok fun p hp => hctx p (List.mem_of_mem_filter hp)
  · exact f.ensures_gather params hctx

end Form

namespace Setting

variable {s : Setting} {ctx : Bindings}

theorem minds_callForm (hs : s.Discreet) (hctx : ctx.Beyond given) (f : Form) :
    Minds given (s.callForm ctx f) (Value.Beyond given) := by
  unfold callForm
  split
  · exact .throw _
  · rename_i params hparams
    refine Minds.next (.ask (f.ensures_keywordsFor params hctx)) fun passed hpassed => ?_
    split
    · exact .throw _
    · rename_i env henv
      refine Minds.next (P := fun _ => True) ?_ fun _ _ => .ask fun v hv id hid => ?_
      · -- the call is noted behind the earlier ones
        exact fun own hown => ⟨.ok (), own, [_], .ok trivial, hown, fun _ _ _ => rfl⟩
      · obtain ⟨p, hp, hpid⟩ := hs f params passed env v hparams henv hv id hid
        exact hpassed p hp id hpid

theorem minds_needEdges : Minds given s.needEdges fun _ => True := by
  unfold needEdges
  split
  · exact .answer trivial
  · exact .throw _

theorem minds_compute (hs : s.Discreet) (hctx : ctx.Beyond given) (e : Expr) :
    Minds given (s.compute ctx e) (Computed.Beyond given) := by
  have hany : ∀ {α : Type} (r : Except Fault α), Ensures r fun _ => True := fun _ _ _ => trivial
  have hvalue : ∀ {α : Type} {a : Action Computed} {k : Value → Action α} {Q : α → Prop},
      Minds given a (Computed.Beyond given) → (∀ v, v.Beyond given → Minds given (k v) Q) →
      Minds given (do k (← (← a).toValue)) Q :=
    fun ha hk => ha.next fun c hc => (Computed.minds_toValue hc).next hk
  have hbool : ∀ b : Bool, Computed.Beyond given (.value (.bool b)) :=
    fun b id hid => absurd hid List.not_mem_nil
  have hsupply : ∀ {found : Except Fault Supply}, Ensures found Supply.OfElements →
      Minds given (do return Computed.candidates (← ask found) : Action Computed)
        (Computed.Beyond given) :=
    fun h => (Minds.ask h).next fun supply hfound => .answer hfound.beyond
  induction e with
  | var n | argument n =>
    rw [compute]
    split
    · rename_i v hv
      exact .answer (hctx.get hv)
    · exact .throw _
  | unnamed => exact .throw _
  | instances t => exact hsupply (Engine.ensures_instances t)
  | adjacent e t d ih =>
    exact minds_needEdges.next fun _ _ => hvalue ih fun v _ => hsupply (Engine.ensures_adjacent v t d)
  | edgeEnd e d far ih =>
    refine minds_needEdges.next fun _ _ => hvalue ih fun v _ => ?_
    exact (Minds.ask (Engine.ensures_edgeEnd v d far)).next fun w hw => .answer hw.beyond
  | reachable e p ih =>
    refine hvalue ih fun v hv => ?_
    exact (Minds.ask (Engine.ensures_reachable (fun _ => Value.IsElement.beyond) hv)).next
      fun vs hvs => .answer (Value.beyond_list.2 hvs)
  | equal l r ihl ihr => exact hvalue ihl fun a _ => hvalue ihr fun b _ => .answer (hbool _)
  | isInstance e t ih =>
    exact hvalue ih fun v _ => (Minds.ask (hany _)).next fun b _ => .answer (hbool b)
  | nonEmpty c ih => exact ih.next fun c hc => (minds_isNonEmpty hc).next fun b _ => .answer (hbool b)
  | member e c ihe ihc =>
    exact hvalue ihe fun v _ => ihc.next fun c hc => (minds_isMember v hc).next
      fun b _ => .answer (hbool b)
  | present e ih => exact hvalue ih fun v _ => .answer (hbool _)
  | call f => exact (minds_callForm hs hctx f).next fun v hv => .answer hv
  | foreign k => exact .throw _

theorem minds_evaluate (hs : s.Discreet) (hctx : ctx.Beyond given) (e : Expr) :
    Minds given (s.evaluate ctx e) (Value.Beyond given) :=
  (minds_compute hs hctx e).next fun _ hc => Computed.minds_toValue hc

theorem minds_holds (hs : s.Discreet) (hctx : ctx.Beyond given) (e : Expr) :
    Minds given (s.holds ctx e) fun _ => True :=
  (minds_evaluate hs hctx e).next fun _ _ => .answer trivial

theorem minds_source (hs : s.Discreet) (hctx : ctx.Beyond given) (e : Expr) :
    Minds given (s.source ctx e) (Source.Beyond given) :=
  (minds_compute hs hctx e).next fun _ hc => .ask (Computed.ensures_toSource hc)

end Setting

-- ---------------------------------------------------------------------------
-- Sweeps
-- ---------------------------------------------------------------------------

namespace Apart

/-- What starts with a look at how long a stream of the run is. -/
theorem sized {α : Type} {m : Nat → StateM Journal α} {P : α → Prop} {id : Nat} (hid : given ≤ id)
    (h : ∀ n, Apart given (m n) P) : Apart given (do let j ← get; m (j.left id).size) P := by
  intro own hown
  obtain ⟨x, own', calls, hx, hown', hrun⟩ := h ((own[id - given]?).getD (.values [])).size own hown
  refine ⟨x, own', calls, hx, hown', ?_⟩
  rintro earlier shared rfl
  rw [← hrun earlier shared rfl, ← Journal.left_own earlier hid]
  rfl

theorem after {α : Type} {a : Action α} {k : α → Sweep} {P : α → Prop} (ha : Minds given a P)
    (hk : ∀ x, P x → Apart given (k x) fun _ => True) :
    Apart given (Sweep.after a k) fun _ => True := by
  refine Apart.bind ha fun r hr => ?_
  cases r with
  | ok x => exact hk x (hr x rfl)
  | error f => exact .pure trivial

theorem andThen {round next : Sweep} (hround : Apart given round fun _ => True)
    (hnext : Apart given next fun _ => True) :
    Apart given (Sweep.andThen round next) fun _ => True := by
  refine hround.bind fun first _ => ?_
  cases first.ending with
  | done => exact hnext.bind fun others _ => .pure trivial
  | halted => exact .pure trivial
  | failed f => exact .pure trivial

theorem each {body : Value → Sweep} (hbody : ∀ v, v.Beyond given → Apart given (body v) fun _ => True)
    {source : Source} (hsource : source.Beyond given) :
    Apart given (Sweep.each body source) fun _ => True := by
  cases source with
  | own vs =>
    show Apart given (Sweep.eachOwn body vs) _
    induction vs with
    | nil => exact .pure trivial
    | cons v vs ih =>
      obtain ⟨hv, hvs⟩ := List.forall_mem_cons.1 hsource
      exact (hbody v hv).andThen (ih hvs)
  | shared id =>
    refine .sized hsource fun limit => ?_
    induction limit with
    | zero => exact .pure trivial
    | succ limit ih =>
      refine .after (minds_pull hsource) fun v? hv? => ?_
      cases v? with
      | none => exact .pure trivial
      | some v => exact (hbody v (hv? v rfl)).andThen ih

end Apart

namespace Setting

variable {s : Setting} {ctx : Bindings}

/-- Sweeps mind their own streams. -/
theorem apart_sweep (hs : s.Discreet) {emit : Bindings → Action Value}
    (hemit : ∀ c : Bindings, c.Beyond given → Minds given (emit c) fun _ => True) (steps : List Step)
    (hctx : ctx.Beyond given) : Apart given (s.sweep emit steps ctx) fun _ => True := by
  induction steps generalizing ctx with
  | nil => exact .after (hemit ctx hctx) fun v _ => .pure trivial
  | cons step rest ih =>
    have htest : ∀ (e : Expr) (ending : Ending), Apart given (Sweep.after (s.holds ctx e) fun b =>
        bif b then s.sweep emit rest ctx else return ⟨[], ending⟩) fun _ => True := by
      intro e ending
      refine .after (minds_holds hs hctx e) fun b _ => ?_
      cases b with
      | true => exact ih hctx
      | false => exact .pure trivial
    cases step with
    | generate n e =>
      exact .after (minds_source hs hctx e) fun source hsource =>
        .each (fun v hv => ih (hctx.set n (hv.settled _))) hsource
    | assign n e =>
      exact .after (minds_evaluate hs hctx e) fun v hv => ih (hctx.set n (hv.settled _))
    | guard e => exact htest e .done
    | whilst e => exact htest e .halted
    | assignAll bs => exact .pure trivial
    | foreign k => exact .pure trivial

-- ---------------------------------------------------------------------------
-- Runs up to a match
-- ---------------------------------------------------------------------------

theorem minds_searchOwn {search : Value → Action Progress}
    (hsearch : ∀ v, v.Beyond given → Minds given (search v) (Progress.Beyond given))
    {wrap : List Value → Cursor → Cursor} {vs : List Value}
    (hwrap : ∀ (left : List Value) (inner : Cursor), (∀ v ∈ left, v.Beyond given) →
      inner.Beyond given → (wrap left inner).Beyond given) (hvs : ∀ v ∈ vs, v.Beyond given) :
    Minds given (Cursor.searchOwn search wrap vs) (Progress.Beyond given) := by
  induction vs with
  | nil => exact .answer trivial
  | cons v vs ih =>
    obtain ⟨hv, hvs⟩ := List.forall_mem_cons.1 hvs
    refine (hsearch v hv).next fun p hp => ?_
    cases p with
    | found c inner => exact .answer ⟨hp.1, hwrap vs inner hvs hp.2⟩
    | done => exact ih hvs
    | halted => exact .answer trivial

theorem minds_searchShared {search : Value → Action Progress}
    (hsearch : ∀ v, v.Beyond given → Minds given (search v) (Progress.Beyond given))
    {wrap : Cursor → Cursor} (hwrap : ∀ inner : Cursor, inner.Beyond given → (wrap inner).Beyond given)
    {id : Nat} (hid : given ≤ id) (limit : Nat) :
    Minds given (Cursor.searchShared search wrap id limit) (Progress.Beyond given) := by
  induction limit with
  | zero => exact .answer trivial
  | succ limit ih =>
    refine (minds_pull hid).next fun v? hv? => ?_
    cases v? with
    | none => exact .answer trivial
    | some v =>
      refine (hsearch v (hv? v rfl)).next fun p hp => ?_
      cases p with
      | found c inner => exact .answer ⟨hp.1, hwrap inner hp.2⟩
      | done => exact ih
      | halted => exact .answer trivial

theorem minds_search {enter : Bindings → Action Progress}
    (henter : ∀ c : Bindings, c.Beyond given → Minds given (enter c) (Progress.Beyond given))
    (n : String) (rest : List Step) (hctx : ctx.Beyond given) {source : Source}
    (hsource : source.Beyond given) :
    Minds given (Cursor.search n rest ctx enter source) (Progress.Beyond given) := by
  have hround : ∀ v : Value, v.Beyond given →
      Minds given (enter (ctx.set n (v.settled rest.length))) (Progress.Beyond given) :=
    fun v hv => henter _ (hctx.set n (hv.settled _))
  cases source with
  | own vs =>
    exact minds_searchOwn hround (fun left inner hleft hinner => ⟨hctx, hleft, hinner⟩) hsource
  | shared id =>
    have hwrap : ∀ inner : Cursor, inner.Beyond given →
        (Cursor.loop n rest ctx (.shared id) inner).Beyond given :=
      fun inner hinner => ⟨hctx, hsource, hinner⟩
    exact Apart.sized hsource (minds_searchShared hround hwrap hsource)

/-- Runs up to the first match mind their own streams. -/
theorem minds_enter (hs : s.Discreet) (steps : List Step) (hctx : ctx.Beyond given) :
    Minds given (s.enter steps ctx) (Progress.Beyond given) := by
  induction steps generalizing ctx with
  | nil => exact .answer ⟨hctx, trivial⟩
  | cons step rest ih =>
    have htest : ∀ (e : Expr) (p : Progress), p.Beyond given → Minds given (do
        if ← s.holds ctx e then s.enter rest ctx else return p : Action Progress)
        (Progress.Beyond given) := by
      intro e p hp
      refine (minds_holds hs hctx e).next fun b _ => ?_
      cases b with
      | true => exact ih hctx
      | false => exact .answer hp
    cases step with
    | generate n e =>
      exact (minds_source hs hctx e).next fun source hsource =>
        minds_search (fun c hc => ih hc) n rest hctx hsource
    | assign n e =>
      exact (minds_evaluate hs hctx e).next fun v hv => ih (hctx.set n (hv.settled _))
    | guard e => exact htest e .done trivial
    | whilst e => exact htest e .halted trivial
    | assignAll bs => exact .throw _
    | foreign k => exact .throw _

/-- Runs up to the next match mind their own streams. -/
theorem minds_resume (hs : s.Discreet) {cursor : Cursor} (hcursor : cursor.Beyond given) :
    Minds given (s.resume cursor) (Progress.Beyond given) := by
  induction cursor with
  | spent => exact .answer trivial
  | loop n rest ctx source inner ih =>
    obtain ⟨hctx, hsource, hinner⟩ := hcursor
    refine (ih hinner).next fun p hp => ?_
    cases p with
    | found c inner => exact .answer ⟨hp.1, hctx, hsource, hp.2⟩
    | done => exact minds_search (fun c hc => minds_enter hs rest hc) n rest hctx hsource
    | halted => exact .answer trivial

end Setting

end GraphPattern
