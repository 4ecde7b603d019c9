import GraphPattern.Proofs.ScopedPlans

/-!
# GraphPattern — steps with constraints woven in

The plan of a pattern has the steps of the bare pattern, in their order and up to the hidden names,
and the steps of the constraints in between. What was checked of the plan also holds of the bare one,
which calls no form.

## Results

* `Plan.Woven.append` — parts of plans are woven one after the other.
* `Plan.Woven.check_eq` — the steps of a bare pattern pass the checks of a finished plan.
-/

namespace GraphPattern

/-- Which names of two plans stand for the same things. Only hidden names may differ. -/
structure Naming (V : String → String → Prop) : Prop where
  injective : ∀ {a a' c c'}, V a a' → V c c' → (a = c ↔ a' = c')
  visible : ∀ {a a'}, V a a' → isHiddenName a = false → a' = a
  hidden : ∀ {a a'}, V a a' → isHiddenName a = true → isHiddenName a' = true

variable {V : String → String → Prop} {args : List String}

/-- Two expressions that say the same under their names. None of them calls a form. -/
inductive Expr.Twin (V : String → String → Prop) : Expr → Expr → Prop
  | var {a a' : String} (name : V a a') : Twin V (.var a) (.var a')
  | argument {n : String} (name : V n n) : Twin V (.argument n) (.argument n)
  | instances {t : TypeMark} : Twin V (.instances t) (.instances t)
  | adjacent {e e' : Expr} {t : TypeMark} {d : Direction} (source : e.Twin V e') :
      Twin V (.adjacent e t d) (.adjacent e' t d)
  | edgeEnd {e e' : Expr} {d : Direction} {far : Bool} (edge : e.Twin V e') :
      Twin V (.edgeEnd e d far) (.edgeEnd e' d far)
  | reachable {e e' : Expr} {p : Path} (start : e.Twin V e') :
      Twin V (.reachable e p) (.reachable e' p)
  | equal {l l' r r' : Expr} (left : l.Twin V l') (right : r.Twin V r') :
      Twin V (.equal l r) (.equal l' r')
  | isInstance {e e' : Expr} {t : TypeMark} (value : e.Twin V e') :
      Twin V (.isInstance e t) (.isInstance e' t)
  | nonEmpty {c c' : Expr} (collection : c.Twin V c') : Twin V (.nonEmpty c) (.nonEmpty c')
  | member {e e' c c' : Expr} (element : e.Twin V e') (collection : c.Twin V c') :
      Twin V (.member e c) (.member e' c')
  | present {e e' : Expr} (value : e.Twin V e') : Twin V (.present e) (.present e')

/-- Two steps that do the same under their names. What is not an argument is not bound as one. -/
inductive Step.Twin (args : List String) (V : String → String → Prop) : Step → Step → Prop
  | generate {a a' : String} {e e' : Expr} (name : V a a')
      (own : isHiddenName a = true ∨ a ∉ args) (source : e.Twin V e') :
      Twin args V (.generate a e) (.generate a' e')
  | supply {n : String} (name : V n n) : Twin args V (.assign n (.argument n)) (.assign n (.argument n))
  | bind {n : String} {e e' : Expr} (name : V n n) (own : n ∉ args) (value : e.Twin V e') :
      Twin args V (.assignAll [(n, e)]) (.assignAll [(n, e')])
  | guard {e e' : Expr} (test : e.Twin V e') : Twin args V (.guard e) (.guard e')

theorem Expr.Twin.ne_call {e e' : Expr} (h : e.Twin V e') (f : Form) : e' ≠ .call f := by
  cases h <;> exact Expr.noConfusion

theorem Step.Twin.boundNames {s s' : Step} (h : s.Twin args V s') :
    (s.boundNames = [] ∧ s'.boundNames = []) ∨
      ∃ a a', V a a' ∧ s.boundNames = [a] ∧ s'.boundNames = [a'] := by
  cases h with
  | generate name own source => exact .inr ⟨_, _, name, rfl, rfl⟩
  | supply name => exact .inr ⟨_, _, name, rfl, rfl⟩
  | bind name own value => exact .inr ⟨_, _, name, rfl, rfl⟩
  | guard test => exact .inl ⟨rfl, rfl⟩

namespace Plan

/-- The first steps are the second ones with the steps of constraints in between. -/
inductive Woven (args : List String) (V : String → String → Prop) :
    List Step → List Step → List Constraint → Prop
  | done : Woven args V [] [] []
  | step {s s' : Step} {steps steps' : List Step} {cs : List Constraint}
      (twin : s.Twin args V s') (more : Woven args V steps steps' cs) :
      Woven args V (s :: steps) (s' :: steps') cs
  | constraint {c : Constraint} {steps steps' : List Step} {cs : List Constraint}
      (more : Woven args V steps steps' cs) :
      Woven args V (constraintStep c :: steps) steps' (c :: cs)

variable {cx : Context} {steps steps' more more' : List Step} {cs cs' : List Constraint}

namespace Woven

theorem append (h : Woven args V steps steps' cs) (h' : Woven args V more more' cs') :
    Woven args V (steps ++ more) (steps' ++ more') (cs ++ cs') := by
  induction h with
  | done => exact h'
  | step twin _ ih => exact .step twin ih
  | constraint _ ih => exact .constraint ih

theorem constraints (cs : List Constraint) : Woven args V (cs.map constraintStep) [] cs := by
  induction cs with
  | nil => exact .done
  | cons c cs ih => exact .constraint ih

theorem exists_twin (h : Woven args V steps steps' cs) {s' : Step} (hs : s' ∈ steps') :
    ∃ s ∈ steps, s.Twin args V s' := by
  induction h with
  | done => cases hs
  | @step t t' steps steps' cs twin _ ih =>
    rcases List.mem_cons.1 hs with rfl | hs
    · exact ⟨t, by simp, twin⟩
    · obtain ⟨s, hmem, htwin⟩ := ih hs
      exact ⟨s, List.mem_cons_of_mem _ hmem, htwin⟩
  | constraint _ ih =>
    obtain ⟨s, hmem, htwin⟩ := ih hs
    exact ⟨s, List.mem_cons_of_mem _ hmem, htwin⟩

-- ---------------------------------------------------------------------------
-- What was checked
-- ---------------------------------------------------------------------------

theorem exists_name (h : Woven args V steps steps' cs) {a' : String}
    (ha : a' ∈ steps'.flatMap Step.boundNames) :
    ∃ a ∈ steps.flatMap Step.boundNames, V a a' := by
  obtain ⟨s', hs', ha⟩ := List.mem_flatMap.1 ha
  obtain ⟨s, hs, htwin⟩ := h.exists_twin hs'
  rcases htwin.boundNames with ⟨-, hnone⟩ | ⟨a, c', hV, hn, hn'⟩
  · rw [hnone] at ha
    cases ha
  · rw [hn', List.mem_singleton] at ha
    subst ha
    exact ⟨a, List.mem_flatMap.2 ⟨s, hs, by rw [hn]; simp⟩, hV⟩

/-- Names that are bound once are bound once without the constraints. -/
theorem nodup (hV : Naming V) (h : Woven args V steps steps' cs)
    (hn : (steps.flatMap Step.boundNames).Nodup) : (steps'.flatMap Step.boundNames).Nodup := by
  induction h with
  | done => exact .nil
  | @step s s' steps steps' cs twin more ih =>
    rw [List.flatMap_cons, List.nodup_append] at hn ⊢
    refine ⟨?_, ih hn.2.1, fun x hx y hy => ?_⟩
    · rcases twin.boundNames with ⟨-, hnone⟩ | ⟨a, a', -, -, hn'⟩
      · rw [hnone]
        exact .nil
      · rw [hn']
        exact List.pairwise_singleton _ _
    · rcases twin.boundNames with ⟨-, hnone⟩ | ⟨a, a', ha, hs, hs'⟩
      · rw [hnone] at hx
        cases hx
      · rw [hs', List.mem_singleton] at hx
        subst hx
        obtain ⟨c, hc, hcy⟩ := more.exists_name hy
        have hne := hn.2.2 a (by rw [hs]; simp) c hc
        exact fun heq => hne ((hV.injective ha hcy).2 heq)
  | constraint _ ih =>
    rw [List.flatMap_cons, List.nodup_append] at hn
    exact ih hn.2.1

theorem bindsUnnamed_eq (h : Woven args V steps steps' cs) : steps'.any bindsUnnamed = false := by
  rw [List.any_eq_false]
  intro s' hs'
  obtain ⟨s, -, htwin⟩ := h.exists_twin hs'
  cases htwin <;> simp [bindsUnnamed]

end Woven

theorem checkForm_of_ne {g? : Option PatternGraph} {bound : List String} {e : Expr}
    (h : ∀ f, e ≠ .call f) : checkForm cx g? bound e = .ok () := by
  cases e with
  | call f => exact absurd rfl (h f)
  | _ => rfl

/-- Steps that call no form need not be checked for any. -/
theorem checkStep_of_twin {g? : Option PatternGraph} {s s' x : Step} (h : s.Twin args V s')
    (hx : x ∈ s'.expanded) (bound : List String) :
    ∃ after, checkStep cx g? bound x = .ok after := by
  cases h with
  | generate name own source =>
    rw [List.mem_singleton.1 hx]
    exact ⟨_, rfl⟩
  | supply name =>
    rw [List.mem_singleton.1 hx]
    exact ⟨_, rfl⟩
  | bind name own value =>
    have hne := fun f => value.ne_call f
    simp only [Step.expanded, List.flatMap_singleton, List.mem_cons, List.not_mem_nil,
      or_false] at hx
    rcases hx with rfl | rfl
    · exact ⟨_, by simp only [checkStep, checkForm_of_ne hne, bind, Except.bind]; rfl⟩
    · exact ⟨_, rfl⟩
  | guard test =>
    rw [List.mem_singleton.1 hx]
    have hne := fun f => test.ne_call f
    exact ⟨_, by simp only [checkStep, checkForm_of_ne hne, bind, Except.bind]; rfl⟩

theorem foldlM_ok {α β : Type} {f : β → α → Except Failure β} {xs : List α}
    (h : ∀ x ∈ xs, ∀ b, ∃ b', f b x = .ok b') (b : β) : ∃ b', xs.foldlM f b = .ok b' := by
  induction xs generalizing b with
  | nil => exact ⟨b, rfl⟩
  | cons x xs ih =>
    obtain ⟨b', hb'⟩ := h x (by simp) b
    obtain ⟨c, hc⟩ := ih (fun y hy => h y (List.mem_cons_of_mem _ hy)) b'
    exact ⟨c, by rw [List.foldlM_cons, hb']; exact hc⟩

theorem reboundArgument?_of_twin {s s' x : Step} (h : s.Twin args V s') (hx : x ∈ s'.expanded) :
    reboundArgument? args x = none := by
  cases h with
  | generate name own source =>
    rw [List.mem_singleton.1 hx]
    rfl
  | supply name =>
    rw [List.mem_singleton.1 hx]
    rfl
  | @bind n e e' name own value =>
    simp only [Step.expanded, List.flatMap_singleton, List.mem_cons, List.not_mem_nil,
      or_false] at hx
    rcases hx with rfl | rfl
    · have hnot : ¬ args.contains n = true := by simpa using own
      cases e' <;> simp only [reboundArgument?, if_neg hnot]
    · rfl
  | guard test =>
    rw [List.mem_singleton.1 hx]
    rfl

theorem Woven.exists_twin_of_expanded (h : Woven args V steps steps' cs) {x : Step}
    (hx : x ∈ steps'.flatMap Step.expanded) :
    ∃ s s' : Step, s.Twin args V s' ∧ x ∈ s'.expanded := by
  obtain ⟨s', hs', hx⟩ := List.mem_flatMap.1 hx
  obtain ⟨s, -, htwin⟩ := h.exists_twin hs'
  exact ⟨s, s', htwin, hx⟩

theorem Woven.checkSteps_ok (h : Woven args V steps steps' cs) (cx : Context)
    (g? : Option PatternGraph) (bound : List String) :
    ∃ after, (steps'.flatMap Step.expanded).foldlM (checkStep cx g?) bound = .ok after := by
  refine foldlM_ok (fun x hx b => ?_) bound
  obtain ⟨s, s', htwin, hx⟩ := h.exists_twin_of_expanded hx
  exact checkStep_of_twin htwin hx b

/-- The steps of a bare pattern pass the checks of a finished plan. -/
theorem Woven.check_eq (hV : Naming V) {p q : Plan} {g? : Option PatternGraph}
    (h : Woven cx.arguments V p.steps q.steps cs) (hn : p.boundNames.Nodup) :
    q.expanded.check cx g? = .ok () := by
  have hrepeated : repeated q.expanded.boundNames = [] := by
    rw [repeated_eq_nil_iff, boundNames_expanded]
    exact h.nodup hV hn
  have hrebound : q.expanded.steps.findSome? (reboundArgument? cx.arguments) = none := by
    rw [List.findSome?_eq_none_iff]
    intro x hx
    obtain ⟨s, s', htwin, hx⟩ := h.exists_twin_of_expanded hx
    exact reboundArgument?_of_twin htwin hx
  obtain ⟨after, hafter⟩ := h.checkSteps_ok cx g? cx.arguments
  have hsteps : q.expanded.steps.foldlM (checkStep cx g?) cx.arguments = .ok after := hafter
  rw [check, hrepeated, hrebound, hsteps]
  rfl

end Plan

end GraphPattern
