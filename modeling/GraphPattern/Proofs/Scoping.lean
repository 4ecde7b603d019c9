import GraphPattern.Proofs.Complaints
import GraphPattern.Proofs.Keywords
import GraphPattern.Matches

/-!
# GraphPattern — plans whose variables are bound

The names that are bound at a step can be read off the plan: they are those of the arguments and of
the steps before it. If every expression only reads such names and only asks the engine for what it
can do, no run of the plan goes wrong, whatever the model, the values and the forms are.

## Results

* `Plan.Scoped.sweep` — a sweep of a plan whose variables are bound does not go wrong.
* `Plan.Scoped.enter`, `Cursor.Sound.resume` — neither does a run that stops at matches.
* `Matches.Sound.all`, `Matches.Sound.take` — all matches, or the first ones, are found without
  going wrong.
-/

namespace GraphPattern

-- ---------------------------------------------------------------------------
-- Scopes
-- ---------------------------------------------------------------------------

/-- An expression that the engine can compute where some names are bound. -/
inductive Expr.Scoped (engine : Engine) (bound : List String) : Expr → Prop
  | var {n : String} (mem : n ∈ bound) : Scoped engine bound (.var n)
  | argument {n : String} (mem : n ∈ bound) : Scoped engine bound (.argument n)
  | instances {t : TypeMark} : Scoped engine bound (.instances t)
  | adjacent {e : Expr} {t : TypeMark} {d : Direction}
      (identity : engine.edgesHaveIdentity = true) (source : e.Scoped engine bound) :
      Scoped engine bound (.adjacent e t d)
  | edgeEnd {e : Expr} {d : Direction} {far : Bool}
      (identity : engine.edgesHaveIdentity = true) (edge : e.Scoped engine bound) :
      Scoped engine bound (.edgeEnd e d far)
  | reachable {e : Expr} {p : Path} (start : e.Scoped engine bound)
      (followed : ∀ g ∈ p, g.Followed engine) : Scoped engine bound (.reachable e p)
  | equal {l r : Expr} (left : l.Scoped engine bound) (right : r.Scoped engine bound) :
      Scoped engine bound (.equal l r)
  | isInstance {e : Expr} {t : TypeMark} (value : e.Scoped engine bound) :
      Scoped engine bound (.isInstance e t)
  | nonEmpty {c : Expr} (collection : c.Scoped engine bound) : Scoped engine bound (.nonEmpty c)
  | member {e c : Expr} (element : e.Scoped engine bound)
      (collection : c.Scoped engine bound) : Scoped engine bound (.member e c)
  | present {e : Expr} (value : e.Scoped engine bound) : Scoped engine bound (.present e)
  | call {f : Form} (required : Plan.missingParameter? f bound = none) :
      Scoped engine bound (.call f)

namespace Plan

/-- Every expression of some steps meets a condition on what is bound before it: one condition for
what is enumerated, and one for all else. -/
inductive Throughout (S P : List String → Expr → Prop) : List String → List Step → Prop
  | done {bound : List String} : Throughout S P bound []
  | generate {bound : List String} {n : String} {e : Expr} {rest : List Step}
      (source : S bound e) (more : Throughout S P (n :: bound) rest) :
      Throughout S P bound (.generate n e :: rest)
  | assign {bound : List String} {n : String} {e : Expr} {rest : List Step}
      (value : P bound e) (more : Throughout S P (n :: bound) rest) :
      Throughout S P bound (.assign n e :: rest)
  | guard {bound : List String} {e : Expr} {rest : List Step} (test : P bound e)
      (more : Throughout S P bound rest) : Throughout S P bound (.guard e :: rest)
  | whilst {bound : List String} {e : Expr} {rest : List Step} (test : P bound e)
      (more : Throughout S P bound rest) : Throughout S P bound (.whilst e :: rest)

/-- The variables of some steps are bound where they are read. -/
abbrev Scoped (engine : Engine) : List String → List Step → Prop :=
  Throughout (Expr.Scoped engine) (Expr.Scoped engine)

theorem Throughout.append {S P : List String → Expr → Prop} {bound : List String}
    {first second : List Step} (h : Throughout S P bound first)
    (h' : Throughout S P ((first.flatMap Step.boundNames).reverse ++ bound) second) :
    Throughout S P bound (first ++ second) := by
  induction h with
  | done => exact h'
  | generate source _ ih =>
    refine .generate source (ih ?_)
    simpa [Step.boundNames] using h'
  | assign value _ ih =>
    refine .assign value (ih ?_)
    simpa [Step.boundNames] using h'
  | guard test _ ih => exact .guard test (ih (by simpa [Step.boundNames] using h'))
  | whilst test _ ih => exact .whilst test (ih (by simpa [Step.boundNames] using h'))

end Plan

/-- Some names are bound. -/
def Bindings.Bind (ctx : Bindings) (bound : List String) : Prop :=
  ∀ n ∈ bound, ∃ v, ctx.get? n = some v

theorem Bindings.Bind.set {ctx : Bindings} {bound : List String} (h : ctx.Bind bound) (n : String)
    (v : Value) : (ctx.set n v).Bind (n :: bound) := by
  intro m hm
  rw [Bindings.get?_set]
  by_cases hnm : n = m
  · exact ⟨v, by rw [if_pos hnm]⟩
  · rw [if_neg hnm]
    exact h m ((List.mem_cons.1 hm).resolve_left (Ne.symm hnm))

-- ---------------------------------------------------------------------------
-- Runs that do not go wrong
-- ---------------------------------------------------------------------------

namespace Setting

variable (s : Setting)

/-- A fault that is no misuse, unless a form's body gave up with it. -/
def Excuses (f : Fault) : Prop :=
  f.Misuse → ∃ form env, s.behaviour form env = .error f

/-- What is left to be read meets no misuse. -/
def Sober (j : Journal) : Prop :=
  ∀ f, .broken f ∈ j.streams → s.Excuses f

/-- An action that does not go wrong, and what its answer is like. -/
def Safe {α : Type} (a : Action α) (post : α → Prop) : Prop :=
  ∀ j, s.Sober j → s.Sober (a.run.run j).2 ∧
    match (a.run.run j).1 with
    | .ok x => post x
    | .error f => s.Excuses f

variable {s}

theorem excuses_of_fair {α : Type} {e : Except Fault α} (h : Fair e) {f : Fault}
    (he : e = .error f) : s.Excuses f :=
  fun hf => absurd hf (h f he)

namespace Safe

variable {α β : Type} {a : Action α} {P : α → Prop} {Q : β → Prop}

theorem pure {x : α} (h : P x) : s.Safe (Pure.pure x) P :=
  fun _ hj => ⟨hj, h⟩

theorem throw {f : Fault} (h : s.Excuses f) : s.Safe (MonadExcept.throw f : Action α) P :=
  fun _ hj => ⟨hj, h⟩

theorem ask {e : Except Fault α} (hok : ∀ x, e = .ok x → P x)
    (herror : ∀ f, e = .error f → s.Excuses f) : s.Safe (Setting.ask e) P := by
  intro j hj
  refine ⟨hj, ?_⟩
  cases he : e with
  | ok x => exact hok x he
  | error f => exact herror f he

theorem fair {e : Except Fault α} (h : Fair e) : s.Safe (Setting.ask e) fun _ => True :=
  .ask (fun _ _ => trivial) fun _ he => excuses_of_fair h he

theorem bind {k : α → Action β} (ha : s.Safe a P) (hk : ∀ x, P x → s.Safe (k x) Q) :
    s.Safe (a >>= k) Q := by
  intro j hj
  obtain ⟨hj', hans⟩ := ha j hj
  rw [Gives.run_bind]
  rcases hrun : a.run.run j with ⟨r, j'⟩
  rw [hrun] at hj' hans
  cases r with
  | ok x => exact hk x hans j' hj'
  | error f => exact ⟨hj', hans⟩

theorem mono {P' : α → Prop} (ha : s.Safe a P) (h : ∀ x, P x → P' x) : s.Safe a P' := by
  intro j hj
  obtain ⟨hj', hans⟩ := ha j hj
  refine ⟨hj', ?_⟩
  cases hr : (a.run.run j).1 with
  | ok x =>
    rw [hr] at hans
    exact h x hans
  | error f =>
    rw [hr] at hans
    exact hans

theorem map {f : α → β} (ha : s.Safe a P) (h : ∀ x, P x → Q (f x)) :
    s.Safe (do return f (← a)) Q :=
  ha.bind fun x hx => .pure (h x hx)

end Safe

-- ---------------------------------------------------------------------------
-- Expressions
-- ---------------------------------------------------------------------------

/-- The candidates that an expression stands for are found without misuse. -/
def Serene (s : Setting) (c : Computed) : Prop :=
  ∀ f, c = .candidates (.broken f) → s.Excuses f

variable {ctx : Bindings} {bound : List String}

theorem serene_value (v : Value) : s.Serene (.value v) := by
  intro f h
  cases h

theorem safe_toValue {c : Computed} (h : s.Serene c) : s.Safe c.toValue fun _ => True := by
  cases c with
  | value v => exact .pure trivial
  | candidates x =>
    intro j hj
    refine ⟨fun f hf => ?_, trivial⟩
    have hf : .broken f ∈ j.streams ++ [x] := hf
    rcases List.mem_append.1 hf with hf | hf
    · exact hj f hf
    · exact h f (by rw [List.mem_singleton.1 hf])

/-- What is left of a stream meets no misuse. -/
theorem Sober.excuses_of_left {j : Journal} (hj : s.Sober j) {id : Nat} {f : Fault}
    (h : j.left id = .broken f) : s.Excuses f := by
  unfold Journal.left at h
  cases hs : j.streams[id]? with
  | none => rw [hs] at h; cases h
  | some x =>
    rw [hs, Option.getD_some] at h
    subst h
    exact hj f (List.mem_of_getElem? hs)

theorem Sober.leave {j : Journal} (hj : s.Sober j) (id : Nat) (rest : List Value) :
    s.Sober (j.leave id rest) := by
  intro f hf
  rcases List.mem_or_eq_of_mem_set hf with hf | hf
  · exact hj f hf
  · cases hf

theorem run_pull (id : Nat) (j : Journal) : (pull id).run.run j = match j.left id with
    | .broken f => (.error f, j)
    | .values [] => (.ok none, j)
    | .values (v :: rest) => (.ok (some v), j.leave id rest) := by
  show ((match j.left id with
    | .broken f => throw f
    | .values [] => return none
    | .values (v :: rest) => do
      set (j.leave id rest)
      return some v : Action (Option Value)).run.run j) = _
  rcases j.left id with ⟨_ | ⟨v, rest⟩⟩ | f <;> rfl

theorem safe_pull (id : Nat) : s.Safe (pull id) fun _ => True := by
  intro j hj
  rw [run_pull]
  split
  · rename_i f hleft
    exact ⟨hj, hj.excuses_of_left hleft⟩
  · exact ⟨hj, trivial⟩
  · exact ⟨hj.leave id _, trivial⟩

theorem run_isMember_stream (v : Value) (id : Nat) (j : Journal) :
    (isMember v (.value (.stream id))).run.run j = match j.left id with
      | .broken f => (.error f, j)
      | .values vs => match vs.dropWhile fun w => !w.fits v with
        | [] => (.ok false, j.leave id [])
        | _ :: rest => (.ok true, j.leave id rest) := by
  show ((match j.left id with
    | .broken f => throw f
    | .values vs =>
      match vs.dropWhile fun w => !w.fits v with
      | [] => do
        set (j.leave id [])
        return false
      | _ :: rest => do
        set (j.leave id rest)
        return true : Action Bool).run.run j) = _
  rcases j.left id with vs | f
  · simp only
    generalize (vs.dropWhile fun w => !w.fits v) = left
    cases left <;> rfl
  · rfl

/-- Faults of values that an operation does not take. -/
theorem excuses_of_category {f : Fault} (h : f.category ≠ .misuse) (h' : ∀ n, f ≠ .missingArgument n) :
    s.Excuses f := by
  rintro (hf | ⟨n, hf⟩)
  · exact absurd hf h
  · exact absurd hf (h' n)

theorem safe_isMember (v : Value) {c : Computed} (h : s.Serene c) :
    s.Safe (isMember v c) fun _ => True := by
  have hnotIterable : s.Excuses .notIterable :=
    excuses_of_category FaultCategory.noConfusion fun n => Fault.noConfusion
  have hwrongOperand : s.Excuses .wrongOperand :=
    excuses_of_category FaultCategory.noConfusion fun n => Fault.noConfusion
  rcases c with w | ⟨vs | f⟩
  · cases w with
    | list vs o => exact .pure trivial
    | text t o =>
      cases v with
      | text t' o' => exact .pure trivial
      | _ => exact .throw hwrongOperand
    | stream id =>
      intro j hj
      rw [run_isMember_stream]
      split
      · rename_i f hleft
        exact ⟨hj, hj.excuses_of_left hleft⟩
      · split
        · exact ⟨hj.leave id _, trivial⟩
        · exact ⟨hj.leave id _, trivial⟩
    | _ => exact .throw hnotIterable
  · exact .pure trivial
  · exact .throw (h f rfl)

theorem safe_toSource {c : Computed} (h : s.Serene c) : s.Safe (ask c.toSource) fun _ => True := by
  refine .ask (fun _ _ => trivial) fun f hf => ?_
  unfold Computed.toSource at hf
  split at hf <;> cases hf
  · exact h f rfl
  · exact excuses_of_category FaultCategory.noConfusion fun n => Fault.noConfusion

theorem safe_isNonEmpty {c : Computed} (h : s.Serene c) : s.Safe (isNonEmpty c) fun _ => True := by
  refine (safe_toSource h).bind fun source _ => ?_
  cases source with
  | own vs => exact .pure trivial
  | shared id => exact (safe_pull id).map fun _ _ => trivial

-- ---------------------------------------------------------------------------
-- Forms
-- ---------------------------------------------------------------------------

/-- A form finds what it requires among the names that are bound. -/
theorem fair_keywordsFor {f : Form} {params : List Param} (hparams : f.params? = some params)
    (hrequired : Plan.missingParameter? f bound = none) (hctx : ctx.Bind bound) :
    Fair (f.keywordsFor params ctx) := by
  unfold Form.keywordsFor
  split
  · exact .ok _
  · rename_i hkeywords
    have hplain : Form.takesKeywords params = false := by simpa using hkeywords
    rw [Form.gather_eq fun p hp hd =>
      hctx p.name (Form.mem_bound_of_missingParameter? hparams hplain hrequired p hp hd)]
    exact .ok _

theorem safe_callForm {f : Form} (hrequired : Plan.missingParameter? f bound = none)
    (hctx : ctx.Bind bound) : s.Safe (s.callForm ctx f) fun _ => True := by
  have hmismatch : s.Excuses .callMismatch :=
    excuses_of_category FaultCategory.noConfusion fun n => Fault.noConfusion
  unfold callForm
  split
  · exact .throw hmismatch
  · rename_i params hparams
    refine (Safe.fair (fair_keywordsFor hparams hrequired hctx)).bind fun passed _ => ?_
    split
    · exact .throw hmismatch
    · rename_i env henv
      have hnote : s.Safe (modify fun j : Journal =>
          { j with calls := j.calls ++ [⟨f.id, passed.mergeSort fun a b => decide (a.1 ≤ b.1)⟩] })
          fun _ => True := fun j hj => ⟨hj, trivial⟩
      refine hnote.bind fun _ _ => ?_
      exact .ask (fun _ _ => trivial) fun e he _ => ⟨f, env, he⟩

-- ---------------------------------------------------------------------------
-- What expressions stand for
-- ---------------------------------------------------------------------------

theorem safe_needEdges (h : s.engine.edgesHaveIdentity = true) :
    s.Safe s.needEdges fun _ => True := by
  rw [needEdges, if_pos h]
  exact .pure trivial

theorem safe_supply {e : Except Fault Supply} (h : Engine.FairSupply e) :
    s.Safe (do return .candidates (← ask e)) s.Serene := by
  refine Safe.map (P := fun x => e = .ok x) (.ask (fun _ hx => hx) fun f => ?_) fun x hx => ?_
  · exact excuses_of_fair h.1
  · rintro f ⟨⟩
    exact fun hf => absurd hf (h.2 f hx)

/-- An expression whose variables are bound is computed without going wrong. -/
theorem safe_compute (hm : s.engine.Takes s.model) (hctx : ctx.Bind bound) {e : Expr}
    (h : e.Scoped s.engine bound) : s.Safe (s.compute ctx e) s.Serene := by
  induction h with
  | @var n mem =>
    obtain ⟨v, hv⟩ := hctx n mem
    simp only [compute, hv]
    exact .pure (serene_value v)
  | @argument n mem =>
    obtain ⟨v, hv⟩ := hctx n mem
    simp only [compute, hv]
    exact .pure (serene_value v)
  | instances => exact safe_supply (Engine.fair_instances hm _)
  | adjacent identity _ ih =>
    refine (safe_needEdges identity).bind fun _ _ => ?_
    refine ih.bind fun c hc => (safe_toValue hc).bind fun v _ => ?_
    exact safe_supply (Engine.fair_adjacent v _ _)
  | edgeEnd identity _ ih =>
    refine (safe_needEdges identity).bind fun _ _ => ?_
    refine ih.bind fun c hc => (safe_toValue hc).bind fun v _ => ?_
    exact (Safe.fair (Engine.fair_edgeEnd v _ _)).map fun w _ => serene_value w
  | reachable _ followed ih =>
    refine ih.bind fun c hc => (safe_toValue hc).bind fun v _ => ?_
    exact (Safe.fair (Engine.fair_reachable followed v)).map fun ws _ => serene_value _
  | equal _ _ ihl ihr =>
    refine ihl.bind fun c hc => (safe_toValue hc).bind fun a _ => ?_
    exact ihr.bind fun c hc => (safe_toValue hc).map fun b _ => serene_value _
  | isInstance _ ih =>
    refine ih.bind fun c hc => (safe_toValue hc).bind fun v _ => ?_
    exact (Safe.fair (Engine.fair_isInstance v _)).map fun b _ => serene_value _
  | nonEmpty _ ih =>
    exact ih.bind fun c hc => (safe_isNonEmpty hc).map fun b _ => serene_value _
  | member _ _ ihe ihc =>
    refine ihe.bind fun c hc => (safe_toValue hc).bind fun v _ => ?_
    exact ihc.bind fun c hc => (safe_isMember v hc).map fun b _ => serene_value _
  | present _ ih =>
    exact ih.bind fun c hc => (safe_toValue hc).map fun v _ => serene_value _
  | call required => exact (safe_callForm required hctx).map fun v _ => serene_value v

-- ---------------------------------------------------------------------------
-- Sweeps
-- ---------------------------------------------------------------------------

/-- A sweep that does not go wrong. -/
def SafeSweep (s : Setting) (m : Sweep) : Prop :=
  ∀ j, s.Sober j → s.Sober (m.run j).2 ∧ ∀ f, (m.run j).1.ending = .failed f → s.Excuses f

namespace SafeSweep

theorem pure {r : Swept} (h : ∀ f, r.ending ≠ .failed f) : s.SafeSweep (Pure.pure r) :=
  fun _ hj => ⟨hj, fun f hf => absurd hf (h f)⟩

theorem after {α : Type} {a : Action α} {P : α → Prop} {k : α → Sweep} (ha : s.Safe a P)
    (hk : ∀ x, P x → s.SafeSweep (k x)) : s.SafeSweep (Sweep.after a k) := by
  intro j hj
  obtain ⟨hj', hans⟩ := ha j hj
  rw [Sweep.run_after]
  rcases hr : a.run.run j with ⟨_ | x, j'⟩
  · rw [hr] at hj' hans
    refine ⟨hj', fun f hf => ?_⟩
    cases hf
    exact hans
  · rw [hr] at hj' hans
    exact hk x hans j' hj'

theorem andThen {round next : Sweep} (hr : s.SafeSweep round) (hn : s.SafeSweep next) :
    s.SafeSweep (Sweep.andThen round next) := by
  intro j hj
  obtain ⟨hj', hfault⟩ := hr j hj
  rw [Sweep.run_andThen]
  rcases hround : round.run j with ⟨⟨results, ending⟩, j'⟩
  rw [hround] at hj' hfault
  cases ending with
  | done => exact hn j' hj'
  | halted => exact ⟨hj', fun f hf => by cases hf⟩
  | failed f' =>
    refine ⟨hj', fun f hf => ?_⟩
    cases hf
    exact hfault f' rfl

theorem composes (s : Setting) : Sweep.Composes s.SafeSweep where
  ended := pure fun _ => Ending.noConfusion
  andThen := andThen
  reading hk := after (safe_pull _) fun v? _ => hk v?
  sized id hm := fun j hj => hm (j.left id).size j hj

end SafeSweep

theorem safe_evaluate (hm : s.engine.Takes s.model) (hctx : ctx.Bind bound) {e : Expr}
    (h : e.Scoped s.engine bound) : s.Safe (s.evaluate ctx e) fun _ => True :=
  (safe_compute hm hctx h).bind fun _ hc => safe_toValue hc

theorem safe_holds (hm : s.engine.Takes s.model) (hctx : ctx.Bind bound) {e : Expr}
    (h : e.Scoped s.engine bound) : s.Safe (s.holds ctx e) fun _ => True :=
  (safe_evaluate hm hctx h).map fun _ _ => trivial

theorem safe_source (hm : s.engine.Takes s.model) (hctx : ctx.Bind bound) {e : Expr}
    (h : e.Scoped s.engine bound) : s.Safe (s.source ctx e) fun _ => True :=
  (safe_compute hm hctx h).bind fun _ hc => safe_toSource hc

end Setting

variable {s : Setting} {ctx : Bindings} {bound final : List String} {steps : List Step}

/-- What some steps bind after some names. -/
def Plan.Reach (bound : List String) (steps : List Step) (final : List String) : Prop :=
  ∀ n ∈ final, n ∈ bound ∨ n ∈ steps.flatMap Step.boundNames

theorem Plan.Reach.cons {n : String} {step : Step} (hstep : step.boundNames = [n])
    (h : Plan.Reach bound (step :: steps) final) : Plan.Reach (n :: bound) steps final := by
  intro m hm
  have := h m hm
  rw [List.flatMap_cons, hstep] at this
  simp only [List.cons_append, List.nil_append, List.mem_cons] at this ⊢
  grind

theorem Plan.Reach.skip {step : Step} (hstep : step.boundNames = [])
    (h : Plan.Reach bound (step :: steps) final) : Plan.Reach bound steps final := by
  intro m hm
  have := h m hm
  rwa [List.flatMap_cons, hstep, List.nil_append] at this

theorem Plan.Reach.bind (h : Plan.Reach bound [] final) (hctx : ctx.Bind bound) :
    ctx.Bind final :=
  fun n hn => hctx n ((h n hn).resolve_right (by simp))

/-- A sweep of steps whose variables are bound does not go wrong. -/
theorem Plan.Scoped.sweep (h : Plan.Scoped s.engine bound steps) (hm : s.engine.Takes s.model)
    {emit : Bindings → Action Value} (hctx : ctx.Bind bound) (hreach : Plan.Reach bound steps final)
    (hemit : ∀ c : Bindings, c.Bind final → s.Safe (emit c) fun _ => True) :
    s.SafeSweep (s.sweep emit steps ctx) := by
  induction h generalizing ctx with
  | done =>
    exact .after (hemit ctx (hreach.bind hctx)) fun v _ => .pure fun f => Ending.noConfusion
  | generate source _ ih =>
    refine .after (Setting.safe_source hm hctx source) fun c _ => ?_
    refine (Setting.SafeSweep.composes s).each (fun v => ?_) c
    exact ih (hctx.set _ _) (hreach.cons rfl)
  | assign value _ ih =>
    refine .after (Setting.safe_evaluate hm hctx value) fun v _ => ?_
    exact ih (hctx.set _ _) (hreach.cons rfl)
  | guard test _ ih =>
    refine .after (Setting.safe_holds hm hctx test) fun b _ => ?_
    cases b with
    | true => exact ih hctx (hreach.skip rfl)
    | false => exact .pure fun f => Ending.noConfusion
  | whilst test _ ih =>
    refine .after (Setting.safe_holds hm hctx test) fun b _ => ?_
    cases b with
    | true => exact ih hctx (hreach.skip rfl)
    | false => exact .pure fun f => Ending.noConfusion

-- ---------------------------------------------------------------------------
-- Runs that stop at matches
-- ---------------------------------------------------------------------------

/-- A cursor that can be gone on from without going wrong. -/
inductive Cursor.Sound (engine : Engine) (final : List String) : Cursor → Prop
  | spent : Sound engine final .spent
  | loop {name : String} {rest : List Step} {ctx : Bindings} {source : Source} {inner : Cursor}
      {bound : List String} (hrest : Plan.Scoped engine (name :: bound) rest)
      (binds : ctx.Bind bound) (reach : Plan.Reach (name :: bound) rest final)
      (inside : inner.Sound engine final) : Sound engine final (.loop name rest ctx source inner)

/-- A match that is found has its names bound, and can be gone on from. -/
def Progress.Sound (engine : Engine) (final : List String) : Progress → Prop
  | .found ctx cursor => ctx.Bind final ∧ cursor.Sound engine final
  | .done | .halted => True

namespace Setting

theorem safe_searchOwn {body : Value → Action Progress} {wrap : List Value → Cursor → Cursor}
    (hbody : ∀ v, s.Safe (body v) (Progress.Sound s.engine final))
    (hwrap : ∀ left inner, inner.Sound s.engine final → (wrap left inner).Sound s.engine final)
    (vs : List Value) :
    s.Safe (Cursor.searchOwn body wrap vs) (Progress.Sound s.engine final) := by
  induction vs with
  | nil => exact .pure trivial
  | cons v vs ih =>
    refine (hbody v).bind fun p hp => ?_
    cases p with
    | found c inner => exact .pure ⟨hp.1, hwrap vs inner hp.2⟩
    | done => exact ih
    | halted => exact .pure trivial

theorem safe_searchShared {body : Value → Action Progress} {wrap : Cursor → Cursor}
    (hbody : ∀ v, s.Safe (body v) (Progress.Sound s.engine final))
    (hwrap : ∀ inner, inner.Sound s.engine final → (wrap inner).Sound s.engine final)
    (id limit : Nat) :
    s.Safe (Cursor.searchShared body wrap id limit) (Progress.Sound s.engine final) := by
  induction limit with
  | zero => exact .pure trivial
  | succ limit ih =>
    refine (safe_pull id).bind fun v? _ => ?_
    cases v? with
    | none => exact .pure trivial
    | some v =>
      refine (hbody v).bind fun p hp => ?_
      cases p with
      | found c inner => exact .pure ⟨hp.1, hwrap inner hp.2⟩
      | done => exact ih
      | halted => exact .pure trivial

theorem safe_search {name : String} {rest : List Step}
    (hrest : Plan.Scoped s.engine (name :: bound) rest) (hctx : ctx.Bind bound)
    (hreach : Plan.Reach (name :: bound) rest final)
    (henter : ∀ c : Bindings, c.Bind (name :: bound) →
      s.Safe (s.enter rest c) (Progress.Sound s.engine final)) (source : Source) :
    s.Safe (Cursor.search name rest ctx (s.enter rest) source)
      (Progress.Sound s.engine final) := by
  have hbody : ∀ v : Value, s.Safe (s.enter rest (ctx.set name (v.settled rest.length)))
      (Progress.Sound s.engine final) := fun v => henter _ (hctx.set _ _)
  cases source with
  | own vs =>
    exact safe_searchOwn hbody (fun left inner hi => .loop hrest hctx hreach hi) vs
  | shared id =>
    intro j hj
    exact safe_searchShared hbody (fun inner hi => .loop hrest hctx hreach hi) id
      (j.left id).size j hj

end Setting

/-- A run of steps whose variables are bound gets to its first match without going wrong. -/
theorem Plan.Scoped.enter (h : Plan.Scoped s.engine bound steps) (hm : s.engine.Takes s.model)
    (hctx : ctx.Bind bound) (hreach : Plan.Reach bound steps final) :
    s.Safe (s.enter steps ctx) (Progress.Sound s.engine final) := by
  induction h generalizing ctx with
  | done => exact .pure ⟨hreach.bind hctx, .spent⟩
  | generate source more ih =>
    refine (Setting.safe_source hm hctx source).bind fun c _ => ?_
    exact Setting.safe_search more hctx (hreach.cons rfl)
      (fun c hc => ih hc (hreach.cons rfl)) c
  | assign value _ ih =>
    refine (Setting.safe_evaluate hm hctx value).bind fun v _ => ?_
    exact ih (hctx.set _ _) (hreach.cons rfl)
  | guard test _ ih =>
    refine (Setting.safe_holds hm hctx test).bind fun b _ => ?_
    cases b with
    | true => exact ih hctx (hreach.skip rfl)
    | false => exact .pure trivial
  | whilst test _ ih =>
    refine (Setting.safe_holds hm hctx test).bind fun b _ => ?_
    cases b with
    | true => exact ih hctx (hreach.skip rfl)
    | false => exact .pure trivial

/-- It goes on to the next match without going wrong. -/
theorem Cursor.Sound.resume {cursor : Cursor} (h : cursor.Sound s.engine final)
    (hm : s.engine.Takes s.model) :
    s.Safe (s.resume cursor) (Progress.Sound s.engine final) := by
  induction h with
  | spent => exact .pure trivial
  | loop hrest binds reach _ ih =>
    refine ih.bind fun p hp => ?_
    cases p with
    | found c inner => exact .pure ⟨hp.1, .loop hrest binds reach hp.2⟩
    | done =>
      exact Setting.safe_search hrest binds reach
        (fun c hc => Plan.Scoped.enter hrest hm hc reach) _
    | halted => exact .pure trivial

-- ---------------------------------------------------------------------------
-- Matches
-- ---------------------------------------------------------------------------

namespace Matches

variable {m : Matches}

/-- A plan whose variables are bound, for a model of its engine, with all its arguments. -/
structure Sound (m : Matches) : Prop where
  takes : m.setting.engine.Takes m.setting.model
  steps : Plan.Scoped m.setting.engine m.plan.arguments m.plan.steps
  given : m.arguments.Bind m.plan.arguments
  /-- Results are tuples of what is bound. -/
  plain : m.result? = none

theorem reach_resultNames (p : Plan) : Plan.Reach p.arguments p.steps p.resultNames := by
  intro n hn
  rw [Plan.resultNames, List.mem_eraseDups, List.mem_filter] at hn
  exact .inr hn.1

theorem Sound.emit (h : m.Sound) {c : Bindings} (hc : c.Bind m.plan.resultNames) :
    m.setting.Safe (m.emit c) fun _ => True := by
  rw [Matches.emit, h.plain]
  have hvalues : Fair (m.plan.resultNames.mapM (boundValue c)) := by
    refine .mapM fun n hn => ?_
    obtain ⟨v, hv⟩ := hc n hn
    rw [boundValue, hv]
    exact .ok v
  exact (Setting.Safe.fair hvalues).map fun _ _ => trivial

theorem sober_empty (s : Setting) : s.Sober {} := by
  intro f hf
  cases hf

/-- All matches are found without going wrong. -/
theorem Sound.all (h : m.Sound) {f : Fault} (hf : m.all.fault? = some f) :
    m.setting.Excuses f := by
  have hsweep := h.steps.sweep h.takes h.given (reach_resultNames m.plan) (fun c hc => h.emit hc)
  obtain ⟨-, hfault⟩ := hsweep {} (sober_empty m.setting)
  unfold Matches.all at hf
  rcases hrun : (m.setting.sweep m.emit m.plan.steps m.arguments).run {} with ⟨swept, j⟩
  rw [hrun] at hfault
  simp only [hrun] at hf
  cases he : swept.ending with
  | done => rw [he] at hf; cases hf
  | halted => rw [he] at hf; cases hf
  | failed f' =>
    rw [he] at hf
    cases hf
    exact hfault _ he

/-- An iteration can be gone on with. -/
structure SoundIterator (m : Matches) (it : Iterator) : Prop where
  cursor : ∀ cursor, it.state = .stopped cursor →
    cursor.Sound m.setting.engine m.plan.resultNames
  streams : m.setting.Sober { streams := it.streams }

theorem Sound.advance (h : m.Sound) {state : IteratorState}
    (hstate : ∀ cursor, state = .stopped cursor →
      cursor.Sound m.setting.engine m.plan.resultNames) :
    m.setting.Safe (m.advance state) fun r => ∀ v cursor, r = some (v, cursor) →
      cursor.Sound m.setting.engine m.plan.resultNames := by
  have hfinish : ∀ p : Progress, p.Sound m.setting.engine m.plan.resultNames →
      m.setting.Safe (match p with
        | .found c cursor => do return some (← m.emit c, cursor)
        | .done | .halted => return none) fun r => ∀ v cursor, r = some (v, cursor) →
          cursor.Sound m.setting.engine m.plan.resultNames := by
    intro p hp
    cases p with
    | found c cursor =>
      refine (h.emit hp.1).map fun v _ => ?_
      rintro _ _ ⟨⟩
      exact hp.2
    | done => exact .pure (by rintro _ _ ⟨⟩)
    | halted => exact .pure (by rintro _ _ ⟨⟩)
  cases state with
  | fresh =>
    exact (h.steps.enter h.takes h.given (reach_resultNames m.plan)).bind hfinish
  | stopped cursor => exact ((hstate cursor rfl).resume h.takes).bind hfinish
  | finished => exact hfinish .done trivial

/-- Neither is any number of matches that are taken one after the other. -/
theorem Sound.takeFrom (h : m.Sound) {it : Iterator} (hit : m.SoundIterator it) (n : Nat)
    {f : Fault} (hf : (m.takeFrom it n).fault? = some f) : m.setting.Excuses f := by
  induction n generalizing it with
  | zero => cases hf
  | succ n ih =>
    obtain ⟨hsober, hans⟩ := h.advance hit.cursor { streams := it.streams } hit.streams
    rw [Matches.takeFrom, Matches.next_eq] at hf
    rcases hrun : (m.advance it.state).run.run { streams := it.streams } with ⟨r, j⟩
    rw [hrun] at hsober hans
    simp only [hrun] at hf
    match r, hans with
    | .ok (some (v, cursor)), hans =>
      have hit' : m.SoundIterator ⟨.stopped cursor, j.streams⟩ := by
        refine ⟨?_, hsober⟩
        rintro _ ⟨⟩
        exact hans v cursor rfl
      exact ih hit' hf
    | .ok none, _ => cases hf
    | .error f', hans =>
      cases hf
      exact hans

theorem Sound.take (h : m.Sound) (n : Nat) {f : Fault} (hf : (m.take n).fault? = some f) :
    m.setting.Excuses f := by
  have hit : m.SoundIterator m.iterator := by
    refine ⟨fun cursor hc => ?_, sober_empty m.setting⟩
    cases hc
  exact h.takeFrom hit n hf

end Matches

end GraphPattern
