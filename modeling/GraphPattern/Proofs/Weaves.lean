import GraphPattern.Proofs.BarePlans
import GraphPattern.Proofs.Steady

/-!
# GraphPattern — expanded steps with constraints woven in

The steps of a plan and those of the bare pattern are run alongside each other once they are expanded.
A pair of steps reads names that stand for the same things and binds such names; in between, the
plan of the pattern tests a form, or binds a name to the value of a form unless the value is absent.
A name that is in sight is bound to nothing else later on.

## Results

* `Plan.Woven.weave` — the expanded steps of two plans that were checked.
-/

namespace GraphPattern

/-- A single test or value of a constraint. -/
inductive Clause where
  | test (form : Form)
  | value (name : String) (form : Form)

namespace Clause

/-- The form of a clause. -/
def form : Clause → Form
  | test f | value _ f => f

end Clause

/-- The tests and values of a constraint. One that ends an enumeration has none. -/
def Constraint.clauses : Constraint → List Clause
  | .when f => [.test f]
  | .bind bs => bs.map fun b => .value b.1 b.2
  | .whilst _ => []

namespace Plan

variable {V : String → String → Prop} {args bound bound' : List String}

/-- The second steps are the first ones without those of some clauses. What is bound before them is
in sight. -/
inductive Weave (V : String → String → Prop) :
    List String → List String → List Step → List Step → List Clause → Prop
  | done {bound bound' : List String} : Weave V bound bound' [] [] []
  | generate {bound bound' : List String} {a a' : String} {e e' : Expr} {steps steps' : List Step}
      {cs : List Clause} (name : V a a') (fresh : isHiddenName a = true ∨ a ∉ bound)
      (source : e.Twin V e') (reads : e'.Scoped .graph bound') (ranging : e'.Ranging)
      (more : Weave V (a :: bound) (a' :: bound') steps steps' cs) :
      Weave V bound bound' (.generate a e :: steps) (.generate a' e' :: steps') cs
  | assign {bound bound' : List String} {n : String} {e e' : Expr} {steps steps' : List Step}
      {cs : List Clause} (name : V n n) (fresh : e = .argument n ∨ n ∉ bound)
      (value : e.Twin V e') (reads : e'.Scoped .graph bound') (direct : e'.Direct)
      (more : Weave V (n :: bound) (n :: bound') steps steps' cs) :
      Weave V bound bound' (.assign n e :: steps) (.assign n e' :: steps') cs
  | guard {bound bound' : List String} {e e' : Expr} {steps steps' : List Step} {cs : List Clause}
      (test : e.Twin V e') (reads : e'.Scoped .graph bound') (testing : e'.Testing)
      (more : Weave V bound bound' steps steps' cs) :
      Weave V bound bound' (.guard e :: steps) (.guard e' :: steps') cs
  | test {bound bound' : List String} {f : Form} {steps steps' : List Step} {cs : List Clause}
      (required : missingParameter? f bound = none) (more : Weave V bound bound' steps steps' cs) :
      Weave V bound bound' (.guard (.call f) :: steps) steps' (.test f :: cs)
  | value {bound bound' : List String} {n : String} {f : Form} {steps steps' : List Step}
      {cs : List Clause} (fresh : n ∉ bound) (required : missingParameter? f bound = none)
      (more : Weave V (n :: bound) bound' steps steps' cs) :
      Weave V bound bound' (.assign n (.call f) :: .guard (.present (.var n)) :: steps) steps'
        (.value n f :: cs)

-- ---------------------------------------------------------------------------
-- Orderly steps
-- ---------------------------------------------------------------------------

theorem Scoped.generate {n : String} {e : Expr} {steps : List Step}
    (h : Scoped .graph bound (.generate n e :: steps)) :
    e.Scoped .graph bound ∧ Scoped .graph (n :: bound) steps := by
  cases h with
  | generate source more => exact ⟨source, more⟩

theorem Scoped.guard {e : Expr} {steps : List Step} (h : Scoped .graph bound (.guard e :: steps)) :
    e.Scoped .graph bound ∧ Scoped .graph bound steps := by
  cases h with
  | guard test more => exact ⟨test, more⟩

theorem Scoped.assign {n : String} {e : Expr} {steps : List Step}
    (h : Scoped .graph bound (.assign n e :: steps)) :
    e.Scoped .graph bound ∧ Scoped .graph (n :: bound) steps := by
  cases h with
  | assign value more => exact ⟨value, more⟩

/-- Some steps that only read what is bound, bind every name once, and bind no argument to anything
but what is supplied for it. -/
structure Orderly (args bound : List String) (steps : List Step) : Prop where
  reads : Scoped .graph bound steps
  nodup : (steps.flatMap Step.boundNames).Nodup
  kept : ∀ s ∈ steps, reboundArgument? args s = none
  fresh : ∀ n ∈ bound, n ∈ steps.flatMap Step.boundNames → n ∈ args

namespace Orderly

variable {n : String} {e : Expr} {s : Step} {steps : List Step}

/-- What comes after a step that binds a name. -/
theorem bind (hs : s.boundNames = [n]) (h : Orderly args bound (s :: steps))
    (hreads : Scoped .graph (n :: bound) steps) : Orderly args (n :: bound) steps where
  reads := hreads
  nodup := by
    have hnodup := h.nodup
    rw [List.flatMap_cons, List.nodup_append] at hnodup
    exact hnodup.2.1
  kept x hx := h.kept x (List.mem_cons_of_mem _ hx)
  fresh m hm hlater := by
    have hnodup := h.nodup
    rw [List.flatMap_cons, hs, List.singleton_append, List.nodup_cons] at hnodup
    rcases List.mem_cons.1 hm with rfl | hm
    · exact absurd hlater hnodup.1
    · exact h.fresh m hm (by rw [List.flatMap_cons]; exact List.mem_append_right _ hlater)

/-- What comes after a step that binds nothing. -/
theorem skip (hs : s.boundNames = []) (h : Orderly args bound (s :: steps))
    (hreads : Scoped .graph bound steps) : Orderly args bound steps where
  reads := hreads
  nodup := by
    have hnodup := h.nodup
    rwa [List.flatMap_cons, hs, List.nil_append] at hnodup
  kept x hx := h.kept x (List.mem_cons_of_mem _ hx)
  fresh m hm hlater := h.fresh m hm (by rwa [List.flatMap_cons, hs, List.nil_append])

theorem mem_args (hs : s.boundNames = [n]) (h : Orderly args bound (s :: steps))
    (hn : n ∈ bound) : n ∈ args :=
  h.fresh n hn (by simp [hs])

theorem generate (h : Orderly args bound (.generate n e :: steps)) :
    Orderly args (n :: bound) steps :=
  h.bind rfl h.reads.generate.2

theorem assign (h : Orderly args bound (.assign n e :: steps)) :
    e.Scoped .graph bound ∧ Orderly args (n :: bound) steps := by
  obtain ⟨value, more⟩ := h.reads.assign
  exact ⟨value, h.bind rfl more⟩

theorem guard (h : Orderly args bound (.guard e :: steps)) :
    e.Scoped .graph bound ∧ Orderly args bound steps := by
  obtain ⟨test, more⟩ := h.reads.guard
  exact ⟨test, h.skip rfl more⟩

/-- A name that is bound to the value of a form was not in sight. -/
theorem not_mem_of_call {f : Form} (h : Orderly args bound (.assign n (.call f) :: steps)) :
    n ∉ bound := by
  intro hn
  have hargs : n ∈ args := h.mem_args rfl hn
  have hkept := h.kept (.assign n (.call f)) (by simp)
  simp [reboundArgument?, hargs] at hkept

end Orderly

-- ---------------------------------------------------------------------------
-- Weaving
-- ---------------------------------------------------------------------------

theorem Orderly.required {f : Form} (h : (Expr.call f).Scoped .graph bound) :
    missingParameter? f bound = none := by
  cases h with
  | call required => exact required

/-- The values that are declared together come one after the other. -/
theorem weave_bind {bs : List (String × Form)} {steps steps' : List Step} {cs : List Clause}
    (h : Orderly args bound ((constraintStep (.bind bs)).expanded ++ steps))
    (hmore : ∀ bound, Orderly args bound steps → Weave V bound bound' steps steps' cs) :
    Weave V bound bound' ((constraintStep (.bind bs)).expanded ++ steps) steps'
      ((Constraint.bind bs).clauses ++ cs) := by
  induction bs generalizing bound with
  | nil => exact hmore bound h
  | cons b bs ih =>
    have hfresh := Orderly.not_mem_of_call h
    obtain ⟨hcall, hguard⟩ := Orderly.assign h
    exact .value hfresh (Orderly.required hcall) (ih (Orderly.guard hguard).2)

/-- The expanded steps of two plans that were checked. -/
theorem Woven.weave {steps steps' : List Step} {cs : List Constraint}
    (h : Woven args V steps steps' cs) (ho : Orderly args bound (steps.flatMap Step.expanded))
    (hreads : Scoped .graph bound' (steps'.flatMap Step.expanded)) (hshaped : Shaped steps')
    (hplain : ∀ c ∈ cs, ∀ f, c ≠ .whilst f) :
    Weave V bound bound' (steps.flatMap Step.expanded) (steps'.flatMap Step.expanded)
      (cs.flatMap Constraint.clauses) := by
  induction h generalizing bound bound' with
  | done => exact .done
  | @step s s' steps steps' cs twin _ ih =>
    have hmore : Shaped steps' := fun x hx =>
      hshaped x (by rw [List.flatMap_cons]; exact List.mem_append_right _ hx)
    have hfirst : ∀ x ∈ s'.expanded, x.Steady ∨ x.Calls := fun x hx =>
      hshaped x (by rw [List.flatMap_cons]; exact List.mem_append_left _ hx)
    rw [List.flatMap_cons] at ho hreads ⊢
    rw [List.flatMap_cons]
    cases twin with
    | @generate a a' e e' name own source =>
      obtain ⟨hscoped, hrest⟩ := Scoped.generate hreads
      refine .generate name ?_ source hscoped ?_ (ih (Orderly.generate ho) hrest hmore hplain)
      · exact own.imp_right fun hargs hbound => hargs (ho.mem_args rfl hbound)
      · rcases hfirst _ (List.mem_singleton.2 rfl) with hsteady | hcalls
        · cases hsteady with
          | generate ranging => exact ranging
        · cases hcalls
    | @supply n name =>
      obtain ⟨hscoped, hrest⟩ := Scoped.assign hreads
      exact .assign name (.inl rfl) (.argument name) hscoped .argument
        (ih (Orderly.assign ho).2 hrest hmore hplain)
    | @bind n e e' name own value =>
      obtain ⟨hscoped, hpresent⟩ := Scoped.assign hreads
      obtain ⟨hscoped', hrest⟩ := Scoped.guard hpresent
      have hfresh : n ∉ bound := fun hbound => own (ho.mem_args rfl hbound)
      have hdirect : e'.Direct := by
        rcases hfirst (.assign n e') (by simp [Step.expanded]) with hsteady | hcalls
        · cases hsteady with
          | assign direct => exact direct
        · cases hcalls
          exact absurd rfl (value.ne_call _)
      exact .assign name (.inr hfresh) value hscoped hdirect
        (.guard (.present (.var name)) hscoped' (.present .var)
          (ih (Orderly.guard (Orderly.assign ho).2).2 hrest hmore hplain))
    | @guard e e' test =>
      obtain ⟨hscoped, hrest⟩ := Scoped.guard hreads
      refine .guard test hscoped ?_ (ih (Orderly.guard ho).2 hrest hmore hplain)
      rcases hfirst _ (List.mem_singleton.2 rfl) with hsteady | hcalls
      · cases hsteady with
        | guard testing => exact testing
      · cases hcalls
        exact absurd rfl (test.ne_call _)
  | @constraint c steps steps' cs _ ih =>
    have hrest : ∀ c ∈ cs, ∀ f, c ≠ .whilst f := fun d hd => hplain d (List.mem_cons_of_mem _ hd)
    rw [List.flatMap_cons] at ho ⊢
    rw [List.flatMap_cons]
    cases c with
    | whilst f => exact absurd rfl (hplain _ (by simp) f)
    | when f =>
      obtain ⟨hcall, hmore⟩ := Orderly.guard ho
      exact .test (Orderly.required hcall) (ih hmore hreads hshaped hrest)
    | bind bs => exact weave_bind ho fun _ hmore => ih hmore hreads hshaped hrest

end Plan

end GraphPattern
