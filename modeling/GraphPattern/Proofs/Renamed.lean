import GraphPattern.Proofs.ScopedPlans
import GraphPattern.Proofs.EdgeTallies

/-!
# GraphPattern — renamed plans

Hidden variables are numbered by the nodes they stand for, so that the same steps come with other
numbers when there are nodes before theirs. Renaming the variables of a plan changes nothing else: it
is expanded in the same way, and what was checked of it still holds as long as no form asks for one of
the hidden variables.

## Results

* `Step.expanded_renamed` — renaming and expanding commute.
* `Plan.checkSteps_renamed` — renamed steps pass the checks, with more names bound before them.
-/

namespace GraphPattern

-- ---------------------------------------------------------------------------
-- Renaming
-- ---------------------------------------------------------------------------

/-- A hidden variable with its number raised; any other name as it is. -/
def raised (n : Nat) (name : String) : String :=
  match name.toList with
  | '#' :: digits => "#" ++ toString (Nat.ofDigitChars 10 digits 0 + n)
  | _ => name

/-- The expression with its variables renamed. -/
def Expr.renamed (r : String → String) : Expr → Expr
  | .var name => .var (r name)
  | .adjacent e t d => .adjacent (e.renamed r) t d
  | .edgeEnd e d far => .edgeEnd (e.renamed r) d far
  | .reachable e p => .reachable (e.renamed r) p
  | .equal x y => .equal (x.renamed r) (y.renamed r)
  | .isInstance e t => .isInstance (e.renamed r) t
  | .nonEmpty e => .nonEmpty (e.renamed r)
  | .member e c => .member (e.renamed r) (c.renamed r)
  | .present e => .present (e.renamed r)
  | .argument name => .argument name
  | .unnamed => .unnamed
  | .instances t => .instances t
  | .call f => .call f
  | .foreign kind => .foreign kind

/-- The step with its variables renamed, those that it binds and those that it reads. -/
def Step.renamed (r : String → String) : Step → Step
  | .generate name e => .generate (r name) (e.renamed r)
  | .assign name e => .assign (r name) (e.renamed r)
  | .assignAll bs => .assignAll (bs.map fun b => (r b.1, b.2.renamed r))
  | .guard e => .guard (e.renamed r)
  | .whilst e => .whilst (e.renamed r)
  | .foreign kind => .foreign kind

/-- What the form requires are names of a sort. -/
def Form.Asks (V : String → Prop) (f : Form) : Prop :=
  ∀ params, f.params? = some params → ∀ p ∈ Form.requires params, V p

/-- The form requires no hidden variables. Parameters are identifiers. -/
def Form.Legible (f : Form) : Prop :=
  f.Asks fun name => isHiddenName name = false

variable {r : String → String}

theorem raised_hidden (n k : Nat) : raised n ("#" ++ toString k) = "#" ++ toString (k + n) := by
  have hlist : ("#" ++ toString k).toList = '#' :: Nat.toDigits 10 k := by
    simp
  rw [raised, hlist]
  simp only [Nat.ofDigitChars_ten_toDigits]

theorem raised_visible (n : Nat) {name : String} (h : isHiddenName name = false) :
    raised n name = name := by
  unfold raised
  split
  · rename_i digits hlist
    simp [isHiddenName, hlist] at h
  · rfl

@[simp] theorem Expr.renamed_id (e : Expr) : e.renamed id = e := by
  induction e <;> simp_all [Expr.renamed]

@[simp] theorem Step.renamed_id (s : Step) : s.renamed id = s := by
  cases s <;> simp [Step.renamed]

theorem Step.boundNames_renamed (s : Step) :
    (s.renamed r).boundNames = s.boundNames.map r := by
  cases s <;> simp [Step.renamed, Step.boundNames, Function.comp_def]

/-- Renaming and expanding commute. -/
theorem Step.expanded_renamed (s : Step) :
    (s.renamed r).expanded = s.expanded.map (Step.renamed r) := by
  cases s with
  | assignAll bs =>
    simp only [Step.renamed, Step.expanded, List.flatMap_map, List.map_flatMap]
    rfl
  | generate | assign | guard | whilst | foreign => rfl

namespace Plan

variable {cx cx' : Context} {bound bound' : List String}

theorem boundNames_renamed (steps : List Step) :
    (steps.map (Step.renamed r)).flatMap Step.boundNames =
      (steps.flatMap Step.boundNames).map r := by
  simp only [List.flatMap_map, List.map_flatMap, Step.boundNames_renamed]

theorem expandAll_renamed (steps : List Step) :
    expandAll (steps.map (Step.renamed r)) = (expandAll steps).map (Step.renamed r) := by
  simp only [expandAll, List.flatMap_map, List.map_flatMap, Step.expanded_renamed]

theorem bindsUnnamed_renamed (s : Step) : bindsUnnamed (s.renamed r) = bindsUnnamed s := by
  cases s with
  | assign name e => cases e <;> rfl
  | generate | assignAll | guard | whilst | foreign => rfl

/-- What is assigned has a visible name, so that renaming leaves no argument to be rebound. -/
theorem reboundArgument?_renamed (hr : ∀ name, isHiddenName name = false → r name = name)
    {s : Step} (hs : ∀ name e, s = .assign name e → isHiddenName name = false)
    (args : List String) : reboundArgument? args (s.renamed r) = reboundArgument? args s := by
  cases s with
  | assign name e =>
    rw [Step.renamed, hr name (hs name e rfl)]
    cases e <;> rfl
  | generate | assignAll | guard | whilst | foreign => rfl

-- ---------------------------------------------------------------------------
-- Checks of forms
-- ---------------------------------------------------------------------------

/-- The names of a sort that are in the first list are in the second one. -/
def Covers (V : String → Prop) (bound bound' : List String) : Prop :=
  ∀ name ∈ bound, V name → name ∈ bound'

variable {V : String → Prop}

theorem Covers.cons (h : Covers V bound bound') (hr : ∀ name, V name → r name = name)
    (name : String) : Covers V (name :: bound) (r name :: bound') := by
  intro x hx hv
  rcases List.mem_cons.1 hx with rfl | hx
  · rw [hr x hv]
    exact List.mem_cons_self
  · exact List.mem_cons_of_mem _ (h x hx hv)

/-- A form that asks for names of the sort only is called with more names bound as well. -/
theorem missingParameter?_of_covers {f : Form} (h : Covers V bound bound') (hf : f.Asks V)
    (hnone : missingParameter? f bound = none) : missingParameter? f bound' = none := by
  unfold missingParameter? at hnone ⊢
  cases hparams : f.params? with
  | none => rfl
  | some params =>
    simp only [hparams] at hnone ⊢
    by_cases hkeywords : Form.takesKeywords params
    · rw [if_pos hkeywords]
    · rw [if_neg hkeywords] at hnone ⊢
      simp only [List.find?_eq_none, Bool.not_eq_true', Bool.not_eq_false, List.contains_iff_mem]
        at hnone ⊢
      intro p hp
      exact h p (hnone p hp) (hf params hparams p hp)

theorem checkForm_renamed {g? g'? : Option PatternGraph} {e : Expr} (h : Covers V bound bound')
    (hforms : ∀ f ∈ e.forms, f.Asks V) (hcheck : checkForm cx g? bound e = .ok ()) :
    checkForm cx' g'? bound' (e.renamed r) = .ok () := by
  cases e with
  | call f =>
    rw [Expr.renamed]
    cases hmissing : missingParameter? f bound with
    | some p =>
      simp only [checkForm, hmissing] at hcheck
      cases hcheck
    | none =>
      have hmissing' := missingParameter?_of_covers h (hforms f (by simp [Expr.forms])) hmissing
      simp only [checkForm, hmissing']
  | _ => rfl

/-- The check of a step, with more names bound before it. -/
theorem checkStep_renamed {g? g'? : Option PatternGraph} {s : Step} {after : List String}
    (hr : ∀ name, V name → r name = name) (h : Covers V bound bound')
    (hsingle : ∀ bs, s ≠ .assignAll bs) (hforms : ∀ f ∈ s.forms, f.Asks V)
    (hcheck : checkStep cx g? bound s = .ok after) :
    ∃ after', checkStep cx' g'? bound' (s.renamed r) = .ok after' ∧ Covers V after after' ∧
      bound' ⊆ after' := by
  have htest : ∀ {e : Expr}, (∀ f ∈ e.forms, f.Asks V) → ∀ {rest : List String},
      (checkForm cx g? bound e >>= fun _ => .ok rest) = .ok after →
      checkForm cx' g'? bound' (e.renamed r) = .ok () ∧ rest = after := by
    intro e he rest heq
    cases hform : checkForm cx g? bound e with
    | error f =>
      rw [hform] at heq
      cases heq
    | ok u =>
      rw [hform] at heq
      exact ⟨checkForm_renamed h he hform, Except.ok.inj heq⟩
  cases s with
  | generate name e =>
    cases hcheck
    exact ⟨_, rfl, h.cons hr name, List.subset_cons_self _ _⟩
  | assign name e =>
    obtain ⟨hform, rfl⟩ := htest hforms hcheck
    exact ⟨r name :: bound', by rw [Step.renamed, checkStep, hform]; rfl, h.cons hr name,
      List.subset_cons_self _ _⟩
  | assignAll bs => exact absurd rfl (hsingle bs)
  | guard e | whilst e =>
    obtain ⟨hform, rfl⟩ := htest hforms hcheck
    exact ⟨bound', by rw [Step.renamed, checkStep, hform]; rfl, h, List.Subset.refl _⟩
  | foreign kind =>
    cases hcheck
    exact ⟨_, rfl, h, List.Subset.refl _⟩

/-- Renamed steps pass the checks, with more names bound before them. -/
theorem checkSteps_renamed {g? g'? : Option PatternGraph} {steps : List Step}
    {after : List String} (hr : ∀ name, V name → r name = name) (h : Covers V bound bound')
    (hsingle : ∀ s ∈ steps, ∀ bs, s ≠ .assignAll bs)
    (hforms : ∀ s ∈ steps, ∀ f ∈ s.forms, f.Asks V)
    (hcheck : steps.foldlM (checkStep cx g?) bound = .ok after) :
    ∃ after', (steps.map (Step.renamed r)).foldlM (checkStep cx' g'?) bound' = .ok after' ∧
      bound' ⊆ after' := by
  induction steps generalizing bound bound' with
  | nil => exact ⟨bound', rfl, List.Subset.refl _⟩
  | cons s steps ih =>
    rw [List.foldlM_cons] at hcheck
    cases hs : checkStep cx g? bound s with
    | error f =>
      rw [hs] at hcheck
      cases hcheck
    | ok mid =>
      rw [hs] at hcheck
      have hstep : ∃ mid', checkStep cx' g'? bound' (s.renamed r) = .ok mid' ∧
          Covers V mid mid' ∧ bound' ⊆ mid' :=
        checkStep_renamed hr h (hsingle s (by simp)) (hforms s (by simp)) hs
      obtain ⟨mid', hs', hmid, hsub⟩ := hstep
      obtain ⟨after', hafter, hsub'⟩ := ih hmid (fun t ht => hsingle t (List.mem_cons_of_mem _ ht))
        (fun t ht => hforms t (List.mem_cons_of_mem _ ht)) hcheck
      exact ⟨after', by rw [List.map_cons, List.foldlM_cons, hs']; exact hafter,
        List.Subset.trans hsub hsub'⟩

end Plan

end GraphPattern
