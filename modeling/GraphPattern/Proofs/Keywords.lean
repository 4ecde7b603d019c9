import GraphPattern.Matching.Evaluate
import GraphPattern.Plan.Checked
import Mathlib.Data.List.Nodup

/-!
# GraphPattern — keywords of calls

A form is called with the bindings in sight that its parameters name. A parameter that takes no keyword
is looked for by its name as well: what is in sight under the name of a rest parameter, or of one that
goes by its position, is passed as a keyword, and the call does not fit.

* `Form.gather_eq` — what is passed, where everything that the parameters demand is in sight.
* `Form.environment?_inSight` — the keywords fit exactly if nothing in sight has the name of a parameter
  that takes no keyword.
* `Setting.run_callForm_of_environment?`, `Setting.run_callForm_of_misfit` — what comes of a call.
-/

namespace GraphPattern

namespace Form

variable {f : Form} {params ps : List Param} {ctx passed : Bindings}

-- ---------------------------------------------------------------------------
-- The bindings that are passed
-- ---------------------------------------------------------------------------

/-- The bindings in sight that some parameters name. -/
def inSight (params : List Param) (ctx : Bindings) : Bindings :=
  params.filterMap fun p => (ctx.get? p.name).map fun v => (p.name, v)

/-- Nothing in sight has the name of a parameter that takes no keyword. -/
def Spares (params : List Param) (ctx : Bindings) : Prop :=
  ∀ p ∈ params, p.single = false → ctx.get? p.name = none

theorem inSight_cons (p : Param) (ps : List Param) (ctx : Bindings) :
    inSight (p :: ps) ctx = match ctx.get? p.name with
      | some v => (p.name, v) :: inSight ps ctx
      | none => inSight ps ctx := by
  rw [inSight, List.filterMap_cons]
  cases ctx.get? p.name <;> rfl

theorem gather_eq (hall : ∀ p ∈ ps, p.demanded = true → ∃ v, ctx.get? p.name = some v) :
    keywordsFor.gather f ctx ps = .ok (inSight ps ctx) := by
  induction ps with
  | nil => rfl
  | cons p ps ih =>
    have hrest := ih fun q hq => hall q (List.mem_cons_of_mem _ hq)
    rw [keywordsFor.gather, inSight_cons]
    cases hp : ctx.get? p.name with
    | some v =>
      simp only [hrest]
      rfl
    | none =>
      have hnot : ¬ p.demanded = true := fun hd => by
        obtain ⟨v, hv⟩ := hall p (by simp) hd
        rw [hp] at hv
        cases hv
      simp only [if_neg hnot, hrest]

theorem get?_inSight (n : String) :
    (inSight ps ctx).get? n = if n ∈ ps.map (·.name) then ctx.get? n else none := by
  induction ps with
  | nil => rfl
  | cons p ps ih =>
    rw [inSight_cons]
    by_cases hn : p.name = n
    · subst hn
      cases hp : ctx.get? p.name with
      | some v => simp [Bindings.get?]
      | none =>
        simp only [ih, hp, ite_self]
    · have hiff : n ∈ (p :: ps).map (·.name) ↔ n ∈ ps.map (·.name) := by simp [Ne.symm hn]
      simp only [hiff, ← ih]
      cases ctx.get? p.name with
      | some v => simp [Bindings.get?, hn]
      | none => rfl

/-- The demanded parameters are bound if none is missing. -/
theorem mem_bound_of_missingParameter? {bound : List String} (hparams : f.params? = some params)
    (hplain : takesKeywords params = false) (hmissing : Plan.missingParameter? f bound = none) :
    ∀ p ∈ params, p.demanded = true → p.name ∈ bound := by
  intro p hp hd
  simp only [Plan.missingParameter?, hparams, hplain, Bool.false_eq_true, if_false,
    List.find?_eq_none] at hmissing
  have hmem : p.name ∈ requires params := List.mem_map_of_mem (List.mem_filter.2 ⟨hp, hd⟩)
  simpa using hmissing p.name hmem

theorem mem_inSight {b : String × Value} :
    b ∈ inSight ps ctx ↔ ∃ p ∈ ps, p.name = b.1 ∧ ctx.get? p.name = some b.2 := by
  obtain ⟨n, v⟩ := b
  simp only [inSight, List.mem_filterMap, Option.map_eq_some_iff, Prod.mk.injEq]
  constructor
  · rintro ⟨p, hp, _, hv, hn, rfl⟩
    exact ⟨p, hp, hn, hv⟩
  · rintro ⟨p, hp, hn, hv⟩
    exact ⟨p, hp, v, hv, hn, rfl⟩

theorem leftover_eq_nil_iff :
    leftover passed params = [] ↔ ∀ b ∈ passed, ∃ p ∈ params, p.single = true ∧ p.name = b.1 := by
  rw [leftover, List.filter_eq_nil_iff]
  simp

/-- What is passed is all taken if nothing has the name of a parameter that takes no keyword. -/
theorem leftover_inSight_eq_nil_iff (hnames : (params.map (·.name)).Nodup) :
    leftover (inSight params ctx) params = [] ↔ Spares params ctx := by
  rw [leftover_eq_nil_iff]
  constructor
  · intro h p hp hsingle
    rw [Option.eq_none_iff_forall_ne_some]
    intro v hv
    -- what takes the keyword has the name of `p`, so it is `p`
    obtain ⟨q, hq, htakes, hname⟩ := h (p.name, v) (mem_inSight.2 ⟨p, hp, rfl, hv⟩)
    obtain rfl : q = p := List.inj_on_of_nodup_map hnames hq hp hname
    rw [hsingle] at htakes
    cases htakes
  · intro h b hb
    obtain ⟨p, hp, hname, hv⟩ := mem_inSight.1 hb
    refine ⟨p, hp, ?_, hname⟩
    by_contra hsingle
    rw [h p hp (by simpa using hsingle)] at hv
    cases hv

/-- Every parameter with one value finds it. -/
theorem fill?_isSome (h : ∀ p ∈ ps, (p.single = true → ((passed.get? p.name).or p.default?).isSome) ∧
    (p.kind = .positional → p.default?.isSome)) : ∃ filled, fill? passed ps = some filled := by
  induction ps with
  | nil => exact ⟨[], rfl⟩
  | cons p ps ih =>
    obtain ⟨filled, hfilled⟩ := ih fun q hq => h q (List.mem_cons_of_mem _ hq)
    obtain ⟨hsingle, hpositional⟩ := h p (by simp)
    rw [fill?]
    split
    · rename_i hs
      obtain ⟨v, hv⟩ := Option.isSome_iff_exists.1 (hsingle hs)
      rw [hv, hfilled]
      exact ⟨_, rfl⟩
    · split
      · rename_i hk
        obtain ⟨v, hv⟩ := Option.isSome_iff_exists.1 (hpositional hk)
        rw [hv, hfilled]
        exact ⟨_, rfl⟩
      · exact ⟨filled, hfilled⟩

/-- Where what a form demands is in sight, the keywords fit exactly if nothing in sight has the name of
a parameter that takes no keyword. -/
theorem environment?_inSight (hnames : (params.map (·.name)).Nodup)
    (hplain : takesKeywords params = false)
    (hall : ∀ p ∈ params, p.demanded = true → ∃ v, ctx.get? p.name = some v) :
    (environment? params (inSight params ctx)).isSome ↔ Spares params ctx := by
  rw [← leftover_inSight_eq_nil_iff hnames]
  constructor
  · intro h
    by_contra hleft
    have hnone : environment? params (inSight params ctx) = none := by
      simp only [environment?, hplain, Bool.or_false, List.isEmpty_iff, hleft, if_false]
      cases fill? (inSight params ctx) params <;> rfl
    rw [hnone] at h
    cases h
  · intro hleft
    have hspares := (leftover_inSight_eq_nil_iff hnames).1 hleft
    have hvalue : ∀ p ∈ params,
        (p.single = true → (((inSight params ctx).get? p.name).or p.default?).isSome) ∧
        (p.kind = .positional → p.default?.isSome) := by
      intro p hp
      rw [get?_inSight, if_pos (List.mem_map_of_mem hp)]
      cases hdefault : p.default? with
      | some v => simp
      | none =>
        refine ⟨fun hsingle => ?_, fun hkind => ?_⟩
        · obtain ⟨v, hv⟩ := hall p hp (by simp [Param.demanded, Param.required, hsingle, hdefault])
          rw [hv]
          rfl
        · -- its name is demanded, and nothing in sight may have it
          obtain ⟨v, hv⟩ := hall p hp (by simp [Param.demanded, hkind, hdefault])
          rw [hspares p hp (by simp [Param.single, hkind])] at hv
          cases hv
    obtain ⟨filled, hfilled⟩ := fill?_isSome hvalue
    simp [environment?, hfilled, hleft]

end Form

-- ---------------------------------------------------------------------------
-- Calls
-- ---------------------------------------------------------------------------

namespace Setting

variable {s : Setting} {f : Form} {params : List Param} {ctx passed : Bindings}

theorem ask_ok_bind {α β : Type} (x : α) (k : α → Action β) : ask (.ok x) >>= k = k x :=
  rfl

/-- A call whose keywords fit is noted and answered. -/
theorem run_callForm_of_environment? (hparams : f.params? = some params)
    (hpassed : f.keywordsFor params ctx = .ok passed) {env : Bindings}
    (henv : Form.environment? params passed = some env) (j : Journal) :
    (s.callForm ctx f).run.run j = (s.behaviour f env, { j with
      calls := j.calls ++ [⟨f.id, passed.mergeSort fun a b => decide (a.1 ≤ b.1)⟩] }) := by
  simp only [callForm, hparams, hpassed, ask_ok_bind, henv]
  rfl

/-- A call whose keywords do not fit is refused. -/
theorem run_callForm_of_misfit (hparams : f.params? = some params)
    (hpassed : f.keywordsFor params ctx = .ok passed)
    (hmisfit : Form.environment? params passed = none) (j : Journal) :
    (s.callForm ctx f).run.run j = (.error .callMismatch, j) := by
  simp only [callForm, hparams, hpassed, ask_ok_bind, hmisfit]
  rfl

end Setting

end GraphPattern
