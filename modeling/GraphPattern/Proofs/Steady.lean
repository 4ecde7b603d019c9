import GraphPattern.Proofs.ScopedPlans

/-!
# GraphPattern — steady steps

What compiled plans compute apart from their forms has a few shapes: a variable or an end of the edge
that it stands for, the candidates next to such a thing, and tests of such things. None of them makes
or reads a stream, so its answer does not depend on the journal; and what it comes up with is a part
of the model, which is the same thing whatever step binds it.

## Results

* `Setting.answers_source`, `Setting.answers_holds` — such expressions give the same answer whatever
  the journal.
* `Context.shaped_of_compile` — the steps of a compiled plan are steady or call a form.
-/

namespace GraphPattern

-- ---------------------------------------------------------------------------
-- Values that last
-- ---------------------------------------------------------------------------

/-- A value that a step binds as it is. -/
def Value.Lasting (v : Value) : Prop :=
  ∀ k, v.settled k = v

/-- All values are bound as they are. -/
def Bindings.Lasting (b : Bindings) : Prop :=
  ∀ n v, b.get? n = some v → v.Lasting

theorem Bindings.Lasting.set {b : Bindings} (h : b.Lasting) (n : String) {v : Value}
    (hv : v.Lasting) : (b.set n v).Lasting := by
  intro m w hw
  rw [get?_set] at hw
  split at hw
  · cases hw
    exact hv
  · exact h m w hw

-- ---------------------------------------------------------------------------
-- What the engines come up with
-- ---------------------------------------------------------------------------

/-- If all goes well, the result is as described. -/
def Ensures {α : Type} (e : Except Fault α) (post : α → Prop) : Prop :=
  ∀ x, e = .ok x → post x

/-- All of them last. -/
def Value.AllLasting (vs : List Value) : Prop :=
  ∀ v ∈ vs, v.Lasting

open Value

namespace Ensures

variable {α β : Type} {e : Except Fault α} {P : α → Prop} {Q : β → Prop}

theorem error (f : Fault) : Ensures (.error f) P :=
  fun _ h => nomatch h

theorem ok {x : α} (h : P x) : Ensures (.ok x) P := by
  rintro _ ⟨⟩
  exact h

theorem bind {k : α → Except Fault β} (he : Ensures e P) (hk : ∀ x, P x → Ensures (k x) Q) :
    Ensures (e >>= k) Q := by
  cases e with
  | error f => exact error f
  | ok x => exact hk x (he x rfl)

theorem map {f : α → β} (he : Ensures e P) (h : ∀ x, P x → Q (f x)) :
    Ensures (do return f (← e)) Q :=
  he.bind fun x hx => ok (h x hx)

theorem mapM {f : α → Except Fault β} {xs : List α} (h : ∀ x ∈ xs, Ensures (f x) Q) :
    Ensures (xs.mapM f) fun ys => ∀ y ∈ ys, Q y := by
  induction xs with
  | nil => exact ok fun y hy => absurd hy List.not_mem_nil
  | cons x xs ih =>
    rw [List.mapM_cons]
    refine (h x (by simp)).bind fun y hy => ?_
    refine (ih fun z hz => h z (List.mem_cons_of_mem _ hz)).map fun ys hys => ?_
    exact List.forall_mem_cons.2 ⟨hy, hys⟩

theorem filterAuxM {f : α → Except Fault Bool} {xs acc : List α}
    (hxs : ∀ x ∈ xs, f x = .ok true → P x) (hacc : ∀ x ∈ acc, P x) :
    Ensures (List.filterAuxM f xs acc) fun ys => ∀ y ∈ ys, P y := by
  induction xs generalizing acc with
  | nil => exact ok hacc
  | cons x xs ih =>
    obtain ⟨hx, hxs⟩ := List.forall_mem_cons.1 hxs
    unfold List.filterAuxM
    cases hfx : f x with
    | error g => exact error g
    | ok b =>
      refine ih hxs ?_
      cases b with
      | false => exact hacc
      | true => exact List.forall_mem_cons.2 ⟨hx hfx, hacc⟩

/-- What is left passes the test. -/
theorem filterM {f : α → Except Fault Bool} {xs : List α} (h : ∀ x ∈ xs, f x = .ok true → P x) :
    Ensures (xs.filterM f) fun ys => ∀ y ∈ ys, P y :=
  (filterAuxM h fun _ hx => absurd hx List.not_mem_nil).map fun _ hys y hy =>
    hys y (List.mem_reverse.1 hy)

/-- A search by a type finds what a search by a spec finds. -/
theorem select {t : TypeMark} {matching : Option String → Except Fault (List α)}
    (h : ∀ spec?, Ensures (matching spec?) fun xs => ∀ x ∈ xs, P x) :
    Ensures (t.select matching) fun xs => ∀ x ∈ xs, P x := by
  unfold TypeMark.select
  split
  · exact h _
  · refine (h none).bind fun xs _ => ?_
    split
    · exact ok fun x hx => absurd hx List.not_mem_nil
    · exact error _

end Ensures

/-- A vertex, an edge or an object. -/
def Value.IsElement : Value → Prop
  | .vertex _ | .edge _ | .object _ => True
  | _ => False

theorem Value.IsElement.lasting {v : Value} (h : v.IsElement) : v.Lasting := by
  cases v <;> first | exact fun _ => rfl | exact h.elim

theorem Value.IsElement.isNull {v : Value} (h : v.IsElement) : v.isNull = false := by
  cases v <;> first | rfl | exact h.elim

theorem TypedGraph.isElement_valueOf (G : TypedGraph) (id : Nat) : (G.valueOf id).IsElement := by
  unfold valueOf
  split <;> trivial

/-- The values of a supply are elements. -/
def Supply.OfElements (supply : Supply) : Prop :=
  ∀ vs, supply = .values vs → ∀ v ∈ vs, v.IsElement

namespace Engine

variable {e : Engine} {m : Model} {P : Value → Prop}

/-- Any list of elements. -/
private theorem ensures_map {α : Type} {f : α → Value} (h : ∀ x, (f x).IsElement)
    (xs : Except Fault (List α)) : Ensures (do return (← xs).map f) fun vs => ∀ v ∈ vs, v.IsElement :=
  have hany : Ensures xs fun _ => True := fun _ _ => trivial
  hany.map fun ys _ v hv => by
    obtain ⟨x, -, rfl⟩ := List.mem_map.1 hv
    exact h x

theorem ensures_neighbours (v : Value) (t : TypeMark) (d : Direction) :
    Ensures (e.neighbours m v t d) fun vs => ∀ v ∈ vs, v.IsElement := by
  have hreferences : Ensures (m.references v t) fun vs => ∀ v ∈ vs, v.IsElement := by
    unfold Model.references
    split
    · split
      · exact ensures_map (f := Value.object) (fun _ => trivial) _
      · exact ensures_map (f := Value.object) (fun _ => trivial) _
      · exact .ok fun v hv => absurd hv List.not_mem_nil
    · exact .error _
  unfold neighbours
  split
  · unfold Model.adjacentElements
    split
    · exact ensures_map (fun id => TypedGraph.isElement_valueOf _ id) _
    · exact .error _
  · exact hreferences
  · exact .error _

/-- A step along edges leads to elements. -/
theorem ensures_step (current : List Value) (d : Direction) (t : TypeMark) :
    Ensures (Path.advance (e.neighbours m) (e.isInstance m) current (.step d t))
      fun vs => ∀ v ∈ vs, v.IsElement := by
  refine (Ensures.mapM fun u _ => ensures_neighbours u t d).map fun yss hyss v hv => ?_
  rw [distinct, List.mem_eraseDups, List.mem_flatten] at hv
  obtain ⟨ys, hys, hv⟩ := hv
  exact hyss ys hys v hv

/-- What holds of elements, and of what a path starts from, holds of what the path leads to. -/
theorem ensures_evaluateFrom (hP : ∀ v : Value, v.IsElement → P v) (p : Path) {current : List Value}
    (hcurrent : ∀ v ∈ current, P v) :
    Ensures (Path.evaluateFrom (e.neighbours m) (e.isInstance m) current p) fun vs =>
      ∀ v ∈ vs, P v := by
  fun_induction Path.evaluateFrom (e.neighbours m) (e.isInstance m) current p with
  | case1 current => exact .ok hcurrent
  | case2 => exact .ok fun v hv => absurd hv List.not_mem_nil
  | case3 x current s rest ih =>
    refine Ensures.bind (P := fun next => ∀ v ∈ next, P v) ?_ fun next hnext => ih next hnext
    cases s with
    | step d t => exact fun vs hvs v hv => hP v (ensures_step _ d t vs hvs v hv)
    | restrict t => exact .filterM fun u hu _ => hcurrent u hu
    | foreign k => exact .error _

theorem ensures_reachable (hP : ∀ v : Value, v.IsElement → P v) {p : Path} {v : Value} (hv : P v) :
    Ensures (e.reachable m v p) fun vs => ∀ v ∈ vs, P v :=
  ensures_evaluateFrom hP p fun u hu => by rwa [List.mem_singleton.1 hu]

theorem ensures_ofSearch {search : Except Fault (List Value)}
    (h : Ensures search fun vs => ∀ v ∈ vs, v.IsElement) :
    Ensures (.ok (.ofSearch search)) Supply.OfElements := by
  refine .ok ?_
  cases search with
  | error f => exact fun _ hvs => nomatch hvs
  | ok ws =>
    rintro _ ⟨⟩
    exact h ws rfl

theorem ensures_instances (t : TypeMark) : Ensures (e.instances m t) Supply.OfElements := by
  have hmap : ∀ {f : Nat → Value} (ids : List Nat), (∀ n, (f n).IsElement) →
      Ensures (.ok (ids.map f)) fun vs => ∀ v ∈ vs, v.IsElement :=
    fun ids h => ensures_map h (.ok ids)
  unfold instances
  split
  · exact ensures_ofSearch (.select fun _ => hmap _ fun _ => trivial)
  · exact ensures_ofSearch (.select fun _ => hmap _ fun _ => trivial)
  · exact .error _

theorem ensures_adjacent (v : Value) (t : TypeMark) (d : Direction) :
    Ensures (Engine.adjacent m v t d) Supply.OfElements := by
  unfold Engine.adjacent
  split
  · exact ensures_ofSearch (.select fun _ => ensures_map (f := Value.edge) (fun _ => trivial) _)
  · exact .error _

theorem ensures_edgeEnd (v : Value) (d : Direction) (far : Bool) :
    Ensures (Engine.edgeEnd m v d far) Value.IsElement := by
  unfold Engine.edgeEnd
  split
  · have hany : ∀ e : Except Fault Nat, Ensures e fun _ => True := fun _ _ _ => trivial
    split <;> exact (hany _).map fun n _ => TypedGraph.isElement_valueOf _ n
  · exact .error _

end Engine

-- ---------------------------------------------------------------------------
-- Answers
-- ---------------------------------------------------------------------------

/-- The answer of an action does not depend on the journal; `post` says what it is like. -/
def Answers {α : Type} (a : Action α) (post : α → Prop) : Prop :=
  ∃ r, Gives a r ∧ Ensures r post

namespace Answers

variable {α β : Type} {a : Action α} {P : α → Prop} {Q : β → Prop}

theorem pure {x : α} (h : P x) : Answers (Pure.pure x) P :=
  ⟨_, .pure x, .ok h⟩

theorem throw (f : Fault) : Answers (MonadExcept.throw f : Action α) P :=
  ⟨_, .throw f, .error f⟩

theorem ask {e : Except Fault α} (h : Ensures e P) : Answers (Setting.ask e) P :=
  ⟨e, .ask e, h⟩

theorem bind {k : α → Action β} (ha : Answers a P) (hk : ∀ x, P x → Answers (k x) Q) :
    Answers (a >>= k) Q := by
  obtain ⟨r, hr, hpost⟩ := ha
  cases r with
  | error f => exact ⟨.error f, hr.bind_error, .error f⟩
  | ok x =>
    obtain ⟨r', hr', hpost'⟩ := hk x (hpost x rfl)
    exact ⟨r', hr.bind hr', hpost'⟩

end Answers

-- ---------------------------------------------------------------------------
-- Steady expressions
-- ---------------------------------------------------------------------------

/-- What a variable stands for or an argument is given, or an end of it. -/
inductive Expr.Direct : Expr → Prop
  | var {n : String} : Direct (.var n)
  | argument {n : String} : Direct (.argument n)
  | edgeEnd {e : Expr} {d : Direction} {far : Bool} (edge : e.Direct) : Direct (.edgeEnd e d far)

/-- Candidates in the model. -/
inductive Expr.Ranging : Expr → Prop
  | instances {t : TypeMark} : Ranging (.instances t)
  | adjacent {e : Expr} {t : TypeMark} {d : Direction} (source : e.Direct) :
      Ranging (.adjacent e t d)
  | reachable {e : Expr} {p : Path} (start : e.Direct) : Ranging (.reachable e p)

/-- Tests of things in the model. -/
inductive Expr.Testing : Expr → Prop
  | equal {l r : Expr} (left : l.Direct) (right : r.Direct) : Testing (.equal l r)
  | isInstance {e : Expr} {t : TypeMark} (value : e.Direct) : Testing (.isInstance e t)
  | nonEmpty {e : Expr} {p : Path} (start : e.Direct) : Testing (.nonEmpty (.reachable e p))
  | member {e e' : Expr} {p : Path} (element : e.Direct) (start : e'.Direct) :
      Testing (.member e (.reachable e' p))
  | present {e : Expr} (value : e.Direct) : Testing (.present e)

namespace Setting

variable {s : Setting} {ctx : Bindings} {e : Expr}

theorem answers_needEdges : Answers s.needEdges fun _ => True := by
  unfold needEdges
  split
  · exact .pure trivial
  · exact .throw _

/-- The value of what was computed is a value that lasts. -/
theorem answers_value {β : Type} {a : Action Computed} {k : Value → Action β} {Q : β → Prop}
    (ha : Answers a fun c => ∃ v, c = .value v ∧ v.Lasting)
    (hk : ∀ v, v.Lasting → Answers (k v) Q) : Answers (do k (← (← a).toValue)) Q := by
  refine ha.bind ?_
  rintro _ ⟨v, rfl, hv⟩
  exact hk v hv

theorem answers_evaluate (h : Answers (s.compute ctx e) fun c => ∃ v, c = .value v ∧ v.Lasting) :
    Answers (s.evaluate ctx e) Lasting := by
  refine h.bind ?_
  rintro _ ⟨v, rfl, hv⟩
  exact .pure hv

/-- A thing is the same whatever the journal, and it lasts. -/
theorem answers_direct (hctx : ctx.Lasting) (he : e.Direct) :
    Answers (s.compute ctx e) fun c => ∃ v, c = .value v ∧ v.Lasting := by
  induction he with
  | @var n | @argument n =>
    rw [compute]
    split
    · rename_i v hv
      exact .pure ⟨v, rfl, hctx n v hv⟩
    · exact .throw _
  | edgeEnd _ ih =>
    rw [compute]
    refine answers_needEdges.bind fun _ _ => answers_value ih fun v _ => ?_
    exact (Answers.ask (Engine.ensures_edgeEnd v _ _)).bind fun w hw => .pure ⟨w, rfl, hw.lasting⟩

theorem answers_reachable (hctx : ctx.Lasting) (he : e.Direct) (p : Path) :
    Answers (s.compute ctx (.reachable e p)) fun c =>
      ∃ vs o, c = .value (.list vs o) ∧ AllLasting vs := by
  rw [compute]
  refine answers_value (answers_direct hctx he) fun v hv => ?_
  exact (Answers.ask (Engine.ensures_reachable (fun _ => IsElement.lasting) hv)).bind
    fun vs hvs => .pure ⟨vs, _, rfl, hvs⟩

/-- Candidates are the same whatever the journal, and they last. -/
theorem answers_source (hctx : ctx.Lasting) (he : e.Ranging) :
    Answers (s.source ctx e) fun src => ∃ vs, src = .own vs ∧ AllLasting vs := by
  have hsupply : ∀ {found : Except Fault Supply}, Ensures found Supply.OfElements →
      Answers (do return Computed.candidates (← ask found) : Action Computed)
        fun c => ∃ supply, c = .candidates supply ∧ supply.OfElements :=
    fun h => (Answers.ask h).bind fun supply hs => .pure ⟨supply, rfl, hs⟩
  have hread : ∀ {a : Action Computed},
      Answers a (fun c => ∃ supply, c = .candidates supply ∧ supply.OfElements) →
      Answers (do ask (← a).toSource) fun src => ∃ vs, src = .own vs ∧ AllLasting vs := by
    intro a ha
    refine ha.bind ?_
    rintro _ ⟨supply, rfl, hs⟩
    refine .ask ?_
    cases supply with
    | values vs => exact .ok ⟨vs, rfl, fun v hv => (hs vs rfl v hv).lasting⟩
    | broken f => exact .error f
  rw [source]
  cases he with
  | instances =>
    rw [compute]
    exact hread (hsupply (Engine.ensures_instances _))
  | adjacent hsource =>
    rw [compute]
    refine hread (answers_needEdges.bind fun _ _ => ?_)
    exact answers_value (answers_direct hctx hsource)
      fun v _ => hsupply (Engine.ensures_adjacent v _ _)
  | reachable hstart =>
    refine (answers_reachable hctx hstart _).bind ?_
    rintro _ ⟨vs, o, rfl, hvs⟩
    exact .ask (.ok ⟨vs, rfl, hvs⟩)

/-- A test has the same answer whatever the journal. -/
theorem answers_holds (hctx : ctx.Lasting) (he : e.Testing) :
    Answers (s.holds ctx e) fun _ => True := by
  have hcompute : Answers (s.compute ctx e) fun c => ∃ v, c = .value v ∧ v.Lasting := by
    cases he with
    | equal hl hr =>
      rw [compute]
      refine answers_value (answers_direct hctx hl) fun a _ => ?_
      refine answers_value (answers_direct hctx hr) fun b _ => ?_
      exact .pure ⟨_, rfl, fun _ => rfl⟩
    | isInstance hv =>
      rw [compute]
      refine answers_value (answers_direct hctx hv) fun v _ => ?_
      have hany : ∀ r : Except Fault Bool, Ensures r fun _ => True := fun _ _ _ => trivial
      exact (Answers.ask (hany _)).bind fun b _ => .pure ⟨_, rfl, fun _ => rfl⟩
    | nonEmpty hstart =>
      rw [compute]
      refine (answers_reachable hctx hstart _).bind ?_
      rintro _ ⟨vs, o, rfl, -⟩
      exact .pure ⟨_, rfl, fun _ => rfl⟩
    | member helement hstart =>
      rw [compute]
      refine answers_value (answers_direct hctx helement) fun v _ => ?_
      refine (answers_reachable hctx hstart _).bind ?_
      rintro _ ⟨vs, o, rfl, -⟩
      exact .pure ⟨_, rfl, fun _ => rfl⟩
    | present hv =>
      rw [compute]
      exact answers_value (answers_direct hctx hv) fun v _ => .pure ⟨_, rfl, fun _ => rfl⟩
  exact (answers_evaluate hcompute).bind fun v _ => .pure trivial

end Setting

-- ---------------------------------------------------------------------------
-- Steady steps
-- ---------------------------------------------------------------------------

/-- A step that computes what is in the model. -/
inductive Step.Steady : Step → Prop
  | generate {n : String} {e : Expr} (source : e.Ranging) : Steady (.generate n e)
  | assign {n : String} {e : Expr} (value : e.Direct) : Steady (.assign n e)
  | guard {e : Expr} (test : e.Testing) : Steady (.guard e)

/-- A step that calls a form. -/
inductive Step.Calls : Step → Prop
  | assign {n : String} {f : Form} : Calls (.assign n (.call f))
  | guard {f : Form} : Calls (.guard (.call f))
  | whilst {f : Form} : Calls (.whilst (.call f))

/-- Every step is steady or calls a form. -/
def Plan.Shaped (steps : List Step) : Prop :=
  ∀ s ∈ steps.flatMap Step.expanded, s.Steady ∨ s.Calls

namespace Plan

variable {cx : Context} {g g₀ : PatternGraph}

theorem Shaped.append {first second : List Step} (h : Shaped first) (h' : Shaped second) :
    Shaped (first ++ second) := by
  intro s hs
  rw [List.flatMap_append, List.mem_append] at hs
  exact hs.elim (h s) (h' s)

theorem shaped_nil : Shaped [] :=
  fun _ hs => nomatch hs

theorem Shaped.cons {s : Step} {steps : List Step}
    (hs : ∀ x ∈ s.expanded, x.Steady ∨ x.Calls) (h : Shaped steps) : Shaped (s :: steps) := by
  intro x hx
  rw [List.flatMap_cons, List.mem_append] at hx
  exact hx.elim (hs x) (h x)

/-- A step that is not expanded. -/
theorem Shaped.steady {s : Step} {steps : List Step} (hs : s.Steady) (h : Shaped steps) :
    Shaped (s :: steps) := by
  have hexpanded : s.expanded = [s] := by cases hs <;> rfl
  refine h.cons fun x hx => .inl ?_
  rw [hexpanded, List.mem_singleton] at hx
  rwa [hx]

theorem shaped_constraintStep (c : Constraint) :
    ∀ x ∈ (constraintStep c).expanded, x.Steady ∨ x.Calls := by
  intro x hx
  cases c with
  | when f =>
    rw [List.mem_singleton.1 hx]
    exact .inr .guard
  | whilst f =>
    rw [List.mem_singleton.1 hx]
    exact .inr .whilst
  | bind bs =>
    simp only [constraintStep, Step.expanded, List.mem_flatMap, List.mem_map, List.mem_cons,
      List.not_mem_nil, or_false] at hx
    obtain ⟨_, ⟨b, -, rfl⟩, rfl | rfl⟩ := hx
    · exact .inr .assign
    · exact .inl (.guard (.present .var))

theorem Splices.shaped {n : NodeId} {visited marks : List Handle} {steps : List Step}
    (h : Splices g n visited steps marks) : Shaped steps := by
  induction h with
  | last => exact shaped_nil.cons (shaped_constraintStep _)
  | next _ _ _ _ ih => exact ih.cons (shaped_constraintStep _)

theorem ChainEmits.shaped {start : Expr} {c : Chain} {visited more : List Handle}
    {em : Emission} (h : ChainEmits g start c visited em more) (hstart : start.Direct) :
    Shaped em.steps := by
  cases h with
  | known => exact shaped_nil.steady (.guard (.member .var hstart))
  | closed => exact shaped_nil.steady (.guard (.nonEmpty hstart))
  | bound => exact shaped_nil.steady (.generate (.reachable hstart))

theorem shaped_typeTest (name : String) (t? : Option String) : Shaped (typeTest name t?) := by
  unfold typeTest
  split
  · split
    · exact shaped_nil
    · exact shaped_nil.steady (.guard (.isInstance .var))
  · exact shaped_nil

theorem FarEmits.shaped {i : Incidence} {edge : Expr} {visited more : List Handle}
    {em : Emission} (h : FarEmits cx g i edge visited em more) (hedge : edge.Direct) :
    Shaped em.steps := by
  cases h with
  | known => exact shaped_nil.steady (.guard (.equal .var (.edgeEnd hedge)))
  | @named nd es name =>
    refine (shaped_typeTest name nd.typeName?).cons fun x hx => ?_
    simp only [Step.expanded, List.flatMap_singleton, List.mem_cons, List.not_mem_nil,
      or_false] at hx
    rcases hx with rfl | rfl
    · exact .inl (.assign (.edgeEnd hedge))
    · exact .inl (.guard (.present .var))
  | chain _ _ _ _ emits => exact ChainEmits.shaped emits (.edgeEnd hedge)

theorem Emits.shaped {x : Entry} {visited more : List Handle} {em : Emission}
    (h : Emits cx g visited x em more) : Shaped em.steps := by
  cases h with
  | anchor => exact shaped_nil
  | place => exact shaped_nil.steady (.generate .instances)
  | argument => exact shaped_nil.steady (.assign .argument)
  | start => exact shaped_nil
  | constraints _ _ splices => exact splices.shaped
  | chain _ _ _ _ _ emits => exact ChainEmits.shaped emits .var
  | argumentEdge _ _ _ far =>
    exact (FarEmits.shaped far .var).steady (.guard (.equal .var (.edgeEnd .var)))
  | namedEdge _ _ _ _ far => exact (FarEmits.shaped far .var).steady (.generate (.adjacent .var))

theorem Explores.shaped {visited binds visited' binds' : List Handle} {stack : List Entry}
    {steps : List Step} (h : Explores cx g₀ g visited binds stack steps visited' binds') :
    Shaped steps := by
  induction h with
  | done => exact shaped_nil
  | skip _ _ ih => exact ih
  | visit _ _ emits _ ih => exact (Emits.shaped emits).append ih

end Plan

/-- The steps of a compiled plan are steady or call a form. -/
theorem Context.shaped_of_compile {cx : Context} {plan : Plan} (h : cx.compile = .ok plan) :
    ∀ s ∈ plan.steps, s.Steady ∨ s.Calls := by
  obtain ⟨g, p, hg, hp, -, rfl⟩ := compile_ok h
  obtain ⟨_, g₀, -, -, hr⟩ := rooted_of_anchoredGraph hg
  obtain ⟨-, -, -, visited, binds, hexplores, -⟩ := Plan.explores_of_ofGraph hr hp
  exact hexplores.shaped

end GraphPattern
