import GraphPattern.Proofs.Scoping

/-!
# GraphPattern — what runs do to the journal

A run adds calls to its journal and reads from its streams; it neither looks at the calls made before
nor does it put anything back into a stream. So a part of a run can be told from the streams alone, and
what it calls is the same wherever the part stands.

## Results

* `Setting.Evaluates.compute` — what holds of the parts of an evaluation holds of the evaluation.
* `Setting.modest_evaluates` — this holds of all that is evaluated in a run.
* `Setting.modest_sweep`, `Setting.modest_enter` — it holds of sweeps and of runs up to a match.
-/

namespace GraphPattern

namespace Journal

/-- The journal with earlier calls before its own. -/
def after (earlier : List Call) (j : Journal) : Journal :=
  { j with calls := earlier ++ j.calls }

/-- A journal is one without calls, after its own calls. -/
theorem eq_after (j : Journal) : j = after j.calls { streams := j.streams } := by
  rw [after, List.append_nil]

/-- Streams are only read, and new ones are put behind those that there are. -/
structure Wanes (j j' : Journal) : Prop where
  count : j.streams.length ≤ j'.streams.length
  size : ∀ id < j.streams.length, (j'.left id).size ≤ (j.left id).size

theorem Wanes.refl (j : Journal) : j.Wanes j where
  count := Nat.le_refl _
  size _ _ := Nat.le_refl _

theorem Wanes.trans {j j' j'' : Journal} (h : j.Wanes j') (h' : j'.Wanes j'') : j.Wanes j'' where
  count := Nat.le_trans h.count h'.count
  size id hid := Nat.le_trans (h'.size id (Nat.lt_of_lt_of_le hid h.count)) (h.size id hid)

theorem left_append (j : Journal) (supply : Supply) {id : Nat} (hid : id < j.streams.length) :
    ({ j with streams := j.streams ++ [supply] } : Journal).left id = j.left id := by
  rw [left, left, List.getElem?_append_left hid]

/-- A stream that is read gets no longer, and the others stay as they are. -/
theorem wanes_leave (j : Journal) (id : Nat) {rest : List Value}
    (hrest : rest.length ≤ (j.left id).size) : j.Wanes (j.leave id rest) where
  count := Nat.le_of_eq (List.length_set ..).symm
  size i hi := by
    unfold left leave at *
    rw [List.getElem?_set]
    split
    · rename_i heq
      subst heq
      rw [if_pos hi]
      exact hrest
    · exact Nat.le_refl _

theorem left_after (earlier : List Call) (j : Journal) (id : Nat) :
    (j.after earlier).left id = j.left id :=
  rfl

end Journal

/-- What is computed has nothing to do with earlier calls, and no stream gets longer. -/
structure Modest {α : Type} (m : StateM Journal α) : Prop where
  framed : ∀ earlier (j : Journal), m.run (j.after earlier) = ((m.run j).1, (m.run j).2.after earlier)
  wanes : ∀ j : Journal, j.Wanes (m.run j).2

namespace Modest

variable {α β : Type}

/-- It does not touch the journal. -/
theorem of_still {m : StateM Journal α} (x : α) (h : ∀ j, m.run j = (x, j)) : Modest m where
  framed earlier j := by rw [h, h]
  wanes j := by rw [h]; exact .refl j

theorem pure (x : α) : Modest (Pure.pure x : StateM Journal α) :=
  .of_still x fun _ => rfl

theorem bind {m : StateM Journal α} {f : α → StateM Journal β} (hm : Modest m)
    (hf : ∀ x, Modest (f x)) : Modest (m >>= f) where
  framed earlier j := by
    show (f (m.run (j.after earlier)).1).run (m.run (j.after earlier)).2 = _
    rw [hm.framed, (hf _).framed]
    rfl
  wanes j := (hm.wanes j).trans ((hf _).wanes _)

theorem answer (x : α) : Modest (Pure.pure x : Action α).run :=
  .of_still (.ok x) fun _ => rfl

theorem throw (f : Fault) : Modest (MonadExcept.throw f : Action α).run :=
  .of_still (.error f) fun _ => rfl

theorem ask (e : Except Fault α) : Modest (Setting.ask e).run :=
  .of_still e fun _ => rfl

/-- One action after another. -/
theorem next {a : Action α} {f : α → Action β} (ha : Modest a.run) (hf : ∀ x, Modest (f x).run) :
    Modest (a >>= f).run := by
  show Modest (a.run >>= ExceptT.bindCont f)
  refine ha.bind fun r => ?_
  cases r with
  | ok x => exact hf x
  | error e => exact .of_still (.error e) fun _ => rfl

end Modest

-- ---------------------------------------------------------------------------
-- Evaluation
-- ---------------------------------------------------------------------------

theorem Computed.modest_toValue (c : Computed) : Modest c.toValue.run := by
  cases c with
  | value v => exact .answer v
  | candidates supply =>
    refine { framed := fun _ _ => rfl, wanes := fun j => { count := ?_, size := fun id hid => ?_ } }
    · show j.streams.length ≤ (j.streams ++ [supply]).length
      simp
    · exact Nat.le_of_eq (congrArg Supply.size (j.left_append supply hid))

namespace Setting

theorem modest_pull (id : Nat) : Modest (pull id).run where
  framed earlier j := by
    have h := run_pull id j
    have h' := run_pull id (j.after earlier)
    rw [Journal.left_after] at h'
    rcases hleft : j.left id with (_ | ⟨v, rest⟩) | f <;> rw [hleft] at h h' <;> rw [h, h']
    rfl
  wanes j := by
    have h := run_pull id j
    rcases hleft : j.left id with (_ | ⟨v, rest⟩) | f <;> rw [hleft] at h <;> rw [h]
    · exact .refl j
    · exact j.wanes_leave id (by rw [hleft]; simp [Supply.size])
    · exact .refl j

theorem modest_isMember (v : Value) (c : Computed) : Modest (isMember v c).run := by
  rcases c with w | ⟨vs | f⟩
  · cases w with
    | list vs o => exact .answer _
    | text t o => cases v <;> first | exact .answer _ | exact .throw _
    | stream id =>
      refine { framed := fun earlier j => ?_, wanes := fun j => ?_ }
      · have h := run_isMember_stream v id j
        have h' := run_isMember_stream v id (j.after earlier)
        rw [Journal.left_after] at h'
        rcases hleft : j.left id with vs | f <;> rw [hleft] at h h'
        · rcases hdrop : vs.dropWhile (fun w => !w.fits v) with _ | ⟨w, rest⟩ <;>
            simp only [hdrop] at h h' <;> rw [h, h'] <;> rfl
        · rw [h, h']
      · have h := run_isMember_stream v id j
        rcases hleft : j.left id with vs | f <;> rw [hleft] at h
        · have hlen := (List.dropWhile_suffix (fun w => !Value.fits w v) (l := vs)).length_le
          rcases hdrop : vs.dropWhile (fun w => !w.fits v) with _ | ⟨w, rest⟩ <;>
            simp only [hdrop] at h <;> rw [h] <;> refine j.wanes_leave id ?_ <;> rw [hleft]
          · simp [Supply.size]
          · rw [hdrop, List.length_cons] at hlen
            exact Nat.le_trans (Nat.le_succ _) hlen
        · rw [h]
          exact .refl j
    | _ => exact .throw _
  · exact .answer _
  · exact .throw f

variable {s : Setting}

theorem modest_callForm (ctx : Bindings) (f : Form) : Modest (s.callForm ctx f).run := by
  unfold callForm
  split
  · exact .throw _
  · refine (Modest.ask _).next fun passed => ?_
    split
    · exact .throw _
    · refine Modest.next ?_ fun _ => .ask _
      refine { framed := fun earlier j => ?_, wanes := fun j => ⟨Nat.le_refl _, fun _ _ => Nat.le_refl _⟩ }
      show (_, Journal.mk ((earlier ++ j.calls) ++ _) j.streams) = _
      rw [List.append_assoc]
      rfl

/-- Something about actions that is true of all that is evaluated, if it is of what an evaluation
consists of. -/
structure Evaluates (s : Setting) (ctx : Bindings) (C : {α : Type} → Action α → Prop) : Prop where
  answer {α : Type} (x : α) : C (Pure.pure x)
  throw {α : Type} (f : Fault) : C (MonadExcept.throw f : Action α)
  ask {α : Type} (e : Except Fault α) : C (Setting.ask e)
  next {α β : Type} {a : Action α} {k : α → Action β} : C a → (∀ x, C (k x)) → C (a >>= k)
  value (c : Computed) : C c.toValue
  pull (id : Nat) : C (pull id)
  member (v : Value) (c : Computed) : C (isMember v c)
  call (f : Form) : C (s.callForm ctx f)

namespace Evaluates

variable {ctx : Bindings} {C : {α : Type} → Action α → Prop}

theorem needEdges (h : s.Evaluates ctx C) : C s.needEdges := by
  unfold Setting.needEdges
  split
  · exact h.answer _
  · exact h.throw _

theorem nonEmpty (h : s.Evaluates ctx C) (c : Computed) : C (isNonEmpty c) := by
  refine h.next (h.ask c.toSource) fun source => ?_
  cases source with
  | own vs => exact h.answer _
  | shared id => exact h.next (h.pull id) fun _ => h.answer _

theorem compute (h : s.Evaluates ctx C) (e : Expr) : C (s.compute ctx e) := by
  have hvalue : ∀ {α : Type} {a : Action Computed} {k : Value → Action α}, C a →
      (∀ v, C (k v)) → C (do k (← (← a).toValue)) :=
    fun ha hk => h.next ha fun c => h.next (h.value c) hk
  have hask : ∀ {α : Type} (e : Except Fault α) (k : α → Computed),
      C (do return k (← Setting.ask e) : Action Computed) :=
    fun e k => h.next (h.ask e) fun _ => h.answer _
  induction e with
  | var n | argument n =>
    rw [Setting.compute]
    split
    · exact h.answer _
    · exact h.throw _
  | unnamed => exact h.throw _
  | instances t => exact hask _ _
  | adjacent e t d ih => exact h.next h.needEdges fun _ => hvalue ih fun v => hask _ _
  | edgeEnd e d far ih => exact h.next h.needEdges fun _ => hvalue ih fun v => hask _ _
  | reachable e p ih => exact hvalue ih fun v => hask _ fun vs => .value (.list vs (.made []))
  | equal l r ihl ihr => exact hvalue ihl fun a => hvalue ihr fun b => h.answer _
  | isInstance e t ih => exact hvalue ih fun v => hask _ fun b => .value (.bool b)
  | nonEmpty c ih => exact h.next ih fun c => h.next (h.nonEmpty c) fun _ => h.answer _
  | member e c ihe ihc =>
    exact hvalue ihe fun v => h.next ihc fun c => h.next (h.member v c) fun _ => h.answer _
  | present e ih => exact hvalue ih fun v => h.answer _
  | call f => exact h.next (h.call f) fun _ => h.answer _
  | foreign k => exact h.throw _

theorem evaluate (h : s.Evaluates ctx C) (e : Expr) : C (s.evaluate ctx e) :=
  h.next (h.compute e) fun c => h.value c

theorem holds (h : s.Evaluates ctx C) (e : Expr) : C (s.holds ctx e) :=
  h.next (h.evaluate e) fun _ => h.answer _

theorem source (h : s.Evaluates ctx C) (e : Expr) : C (s.source ctx e) :=
  h.next (h.compute e) fun _ => h.ask _

end Evaluates

/-- All that is evaluated in a run is modest. -/
theorem modest_evaluates (ctx : Bindings) : s.Evaluates ctx fun a => Modest a.run where
  answer := .answer
  throw := .throw
  ask := .ask
  next := .next
  value := Computed.modest_toValue
  pull := modest_pull
  member := modest_isMember
  call := modest_callForm ctx

theorem modest_evaluate (ctx : Bindings) (e : Expr) : Modest (s.evaluate ctx e).run :=
  (modest_evaluates ctx).evaluate e

theorem modest_holds (ctx : Bindings) (e : Expr) : Modest (s.holds ctx e).run :=
  (modest_evaluates ctx).holds e

theorem modest_source (ctx : Bindings) (e : Expr) : Modest (s.source ctx e).run :=
  (modest_evaluates ctx).source e

end Setting

-- ---------------------------------------------------------------------------
-- Sweeps
-- ---------------------------------------------------------------------------

namespace Modest

variable {α : Type}

/-- What starts with a look at how long a stream is. -/
theorem sized {m : Nat → StateM Journal α} (id : Nat) (h : ∀ n, Modest (m n)) :
    Modest (do let j ← get; m (j.left id).size) where
  framed earlier j := (h (j.left id).size).framed earlier j
  wanes j := (h (j.left id).size).wanes j

theorem after {a : Action α} {k : α → Sweep} (ha : Modest a.run) (hk : ∀ x, Modest (k x)) :
    Modest (Sweep.after a k) := by
  refine ha.bind fun r => ?_
  cases r with
  | ok x => exact hk x
  | error f => exact .pure _

theorem andThen {round next : Sweep} (hround : Modest round) (hnext : Modest next) :
    Modest (Sweep.andThen round next) := by
  refine hround.bind fun first => ?_
  cases first.ending with
  | done => exact hnext.bind fun others => .pure _
  | halted => exact .pure _
  | failed f => exact .pure _

theorem composes : Sweep.Composes Modest where
  ended := .pure _
  andThen := .andThen
  reading hk := (Setting.modest_pull _).after hk
  sized id hm := .sized id hm

end Modest

namespace Setting

variable {s : Setting}

theorem modest_sweep {emit : Bindings → Action Value} (hemit : ∀ ctx, Modest (emit ctx).run)
    (steps : List Step) (ctx : Bindings) : Modest (s.sweep emit steps ctx) := by
  induction steps generalizing ctx with
  | nil => exact (hemit ctx).after fun v => .pure _
  | cons step rest ih =>
    have htest : ∀ (e : Expr) (ending : Ending), Modest (Sweep.after (s.holds ctx e) fun b =>
        bif b then s.sweep emit rest ctx else return ⟨[], ending⟩) := by
      intro e ending
      refine (modest_holds ctx e).after fun b => ?_
      cases b with
      | true => exact ih ctx
      | false => exact .pure _
    cases step with
    | generate n e => exact (modest_source ctx e).after (Modest.composes.each fun v => ih _)
    | assign n e => exact (modest_evaluate ctx e).after fun v => ih _
    | guard e => exact htest e .done
    | whilst e => exact htest e .halted
    | assignAll bs => exact .pure _
    | foreign k => exact .pure _

end Setting

theorem Matches.modest_emit (m : Matches) (ctx : Bindings) : Modest (m.emit ctx).run := by
  unfold emit
  split
  · exact Setting.modest_callForm ctx _
  · exact (Modest.ask _).next fun _ => .answer _

end GraphPattern
