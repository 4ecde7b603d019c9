import Mathlib
import GraphPattern.Proofs.Keywords
import GraphPattern.Proofs.RunMoments
import GraphPattern.Proofs.ScopedPlans
import GraphPattern.Proofs.EdgeTallies

/-!
# GraphPattern — the calls of compiled plans

That the parameters which a form demands are bound is checked when a plan is compiled. So where a run
reaches a step, no call misses one of them. Whether the call fits is left to the names: it does unless
a parameter that takes no keyword has the name of something in sight.

* `Plan.missingParameter?_of_mem_moments` — when a step is reached, what its forms demand is bound.
* `Matches.callForm_of_compile` — what comes of the calls of a compiled plan.
-/

namespace GraphPattern

-- ---------------------------------------------------------------------------
-- Names that are bound where a step is reached
-- ---------------------------------------------------------------------------

/-- What the forms of an expression require is bound where its variables are. -/
theorem Expr.Scoped.missingParameter? {engine : Engine} {bound : List String} {e : Expr}
    (h : e.Scoped engine bound) {f : Form} (hf : f ∈ e.forms) :
    Plan.missingParameter? f bound = none := by
  induction h with
  | var | argument | instances => cases hf
  | adjacent _ _ ih => exact ih hf
  | edgeEnd _ _ ih => exact ih hf
  | reachable _ _ ih => exact ih hf
  | equal _ _ ihl ihr => exact (List.mem_append.1 hf).elim ihl ihr
  | isInstance _ ih => exact ih hf
  | nonEmpty _ ih => exact ih hf
  | member _ _ ihe ihc => exact (List.mem_append.1 hf).elim ihe ihc
  | present _ ih => exact ih hf
  | call required => rwa [List.mem_singleton.1 hf]

namespace Plan

variable {engine : Engine} {bound : List String}

theorem Scoped.missingParameter? {step : Step} {rest : List Step}
    (h : Scoped engine bound (step :: rest)) {f : Form} (hf : f ∈ step.forms) :
    Plan.missingParameter? f bound = none := by
  cases h with
  | generate source => exact source.missingParameter? hf
  | assign value => exact value.missingParameter? hf
  | guard test | whilst test => exact test.missingParameter? hf

/-- The steps that are left read what is bound. -/
def Provided (engine : Engine) (rest : List Step) (ctx : Bindings) : Prop :=
  ∃ bound, Scoped engine bound rest ∧ ctx.Bind bound

/-- A run goes on with what the steps that are left read. -/
theorem Provided.turn {s : Setting} {rest rest' : List Step} {ctx ctx' : Bindings}
    (h : Provided engine rest ctx) (hturn : s.Turns rest ctx rest' ctx') :
    Provided engine rest' ctx' := by
  obtain ⟨bound, hscoped, hbind⟩ := h
  cases hturn with
  | generate => cases hscoped with | generate _ more => exact ⟨_, more, hbind.set _ _⟩
  | assign => cases hscoped with | assign _ more => exact ⟨_, more, hbind.set _ _⟩
  | guard => cases hscoped with | guard _ more => exact ⟨bound, more, hbind⟩
  | whilst => cases hscoped with | whilst _ more => exact ⟨bound, more, hbind⟩

/-- When a run of a compiled plan reaches a step, what the forms of the step require is bound. -/
theorem missingParameter?_of_mem_moments {cx : Context} {plan : Plan} (h : cx.compile = .ok plan)
    {m : Matches} (hm : m.plan = plan) (hgiven : ∀ n ∈ plan.arguments, ∃ v, m.arguments.get? n = some v)
    {μ : Moment} (hμ : μ ∈ m.moments) {step : Step} {rest : List Step} (hrest : μ.rest = step :: rest)
    {f : Form} (hf : f ∈ step.forms) :
    ∃ bound, Plan.missingParameter? f bound = none ∧ μ.ctx.Bind bound := by
  have hstart : Provided cx.engine m.plan.steps m.arguments := by
    rw [hm]
    exact ⟨plan.arguments, scoped_of_compile h, hgiven⟩
  obtain ⟨bound, hscoped, hbind⟩ :=
    Setting.forall_moments (fun hI hturn => hI.turn hturn) hstart {} μ hμ
  rw [hrest] at hscoped
  exact ⟨bound, hscoped.missingParameter? hf, hbind⟩

end Plan

namespace Matches

variable {s : Setting} {plan : Plan} {args : Bindings} {result? : Option Form} {m : Matches}

/-- A match sequence is about what it was made of, and its arguments are given. -/
theorem of?_eq_ok (h : of? s plan args result? = .ok m) :
    m = ⟨plan, s, args, result?⟩ ∧ ∀ n ∈ plan.arguments, ∃ v, args.get? n = some v := by
  unfold of? at h
  split at h
  · cases h
  · split at h
    · rename_i hmissing
      cases h
      refine ⟨rfl, fun n hn => ?_⟩
      have := List.filter_eq_nil_iff.1 hmissing n hn
      exact Option.isSome_iff_exists.1 (by simpa [Option.isSome_iff_ne_none] using this)
    · cases h

/-- What comes of the call of a form without a keywords parameter, where a run of a compiled plan
reaches its step. No required parameter is missing: the call takes exactly the bindings in sight that
the parameters name. If none of them has the name of a parameter that takes no keyword, the keywords
fit, and the form answers. Otherwise they do not fit, and the form is never called. -/
theorem callForm_of_compile {cx : Context} (h : cx.compile = .ok plan)
    (hof : of? s plan args result? = .ok m) {μ : Moment} (hμ : μ ∈ m.moments) {step : Step}
    {rest : List Step} (hrest : μ.rest = step :: rest) {f : Form} (hf : f ∈ step.forms)
    {params : List Param} (hparams : f.params? = some params)
    (hplain : Form.takesKeywords params = false) (hnames : (params.map (·.name)).Nodup) :
    f.keywordsFor params μ.ctx = .ok (Form.inSight params μ.ctx) ∧
      (Form.Spares params μ.ctx →
        ∃ env, Form.environment? params (Form.inSight params μ.ctx) = some env ∧
          ∀ j, (s.callForm μ.ctx f).run.run j = (s.behaviour f env, { j with calls := j.calls ++
            [⟨f.id, (Form.inSight params μ.ctx).mergeSort fun a b => decide (a.1 ≤ b.1)⟩] })) ∧
      (¬ Form.Spares params μ.ctx → ∀ j, (s.callForm μ.ctx f).run.run j = (.error .callMismatch, j)) := by
  obtain ⟨rfl, hgiven⟩ := of?_eq_ok hof
  obtain ⟨bound, hmissing, hbind⟩ := Plan.missingParameter?_of_mem_moments h rfl hgiven hμ hrest hf
  have hall : ∀ p ∈ params, p.demanded = true → ∃ v, μ.ctx.get? p.name = some v := fun p hp hd =>
    hbind p.name (Form.mem_bound_of_missingParameter? hparams hplain hmissing p hp hd)
  have hpassed : f.keywordsFor params μ.ctx = .ok (Form.inSight params μ.ctx) := by
    rw [Form.keywordsFor, hplain]
    exact Form.gather_eq hall
  have hfits := Form.environment?_inSight hnames hplain hall
  refine ⟨hpassed, fun hspares => ?_, fun hnot => ?_⟩
  · obtain ⟨env, henv⟩ := Option.isSome_iff_exists.1 (hfits.2 hspares)
    exact ⟨env, henv, Setting.run_callForm_of_environment? hparams hpassed henv⟩
  · have hmisfit : Form.environment? params (Form.inSight params μ.ctx) = none := by
      rw [← Option.not_isSome_iff_eq_none]
      exact fun hsome => hnot (hfits.1 hsome)
    exact Setting.run_callForm_of_misfit hparams hpassed hmisfit

/-- A node that is given, a default, and a parameter for the rest. -/
def inquiryParams : List Param :=
  [{ name := "x" }, { name := "depth", kind := .keywordOnly, default? := some .null },
    { name := "more", kind := .rest }]

def inquiry : Form :=
  { id := "inquiry", params? := some inquiryParams }

def inquired : Context :=
  { arguments := ["x"], elements := [.text "x", .text ":when", .form inquiry], engine := .graph }

def inquiryPlan : Plan :=
  { steps := [.assign "x" (.argument "x"), .guard (.call inquiry)]
    arguments := ["x"], engine := .graph }

theorem callForm_of_compile_inquired :
    let s : Setting := ⟨.graph, .graph {}, fun _ _ => .ok .null⟩
    inquired.compile = .ok inquiryPlan ∧
      inquiry.keywordsFor inquiryParams [("x", .vertex 1)] = .ok [("x", .vertex 1)] ∧
      ∃ env, Form.environment? inquiryParams [("x", .vertex 1)] = some env ∧
        ∀ j, (s.callForm [("x", .vertex 1)] inquiry).run.run j = (s.behaviour inquiry env,
          { j with calls := j.calls ++ [⟨"inquiry", [("x", .vertex 1)]⟩] }) := by
  have hcompile : inquired.compile = .ok inquiryPlan := by cbv
  let s : Setting := ⟨.graph, .graph {}, fun _ _ => .ok .null⟩
  let m : Matches := ⟨inquiryPlan, s, [("x", .vertex 1)], none⟩
  have hof : of? s inquiryPlan [("x", .vertex 1)] none = .ok m := rfl
  let μ : Moment := ⟨[.guard (.call inquiry)], [("x", .vertex 1)], {}⟩
  have hμ : μ ∈ m.moments := .tail _ (.head _)
  have hnames : (inquiryParams.map (·.name)).Nodup := by decide
  have hspares : Form.Spares inquiryParams [("x", .vertex 1)] := by
    intro p hp hsingle
    simp only [inquiryParams, List.mem_cons, List.not_mem_nil, or_false] at hp
    obtain rfl | rfl | rfl := hp
    · cases hsingle
    · cases hsingle
    · rfl
  obtain ⟨hpassed, hfits, -⟩ :=
    callForm_of_compile hcompile hof hμ rfl (List.mem_singleton.2 rfl) rfl rfl hnames
  obtain ⟨env, henv, hrun⟩ := hfits hspares
  have hsight : Form.inSight inquiryParams μ.ctx = [("x", .vertex 1)] := rfl
  rw [hsight, List.mergeSort_singleton] at hrun
  exact ⟨hcompile, hpassed, env, henv, hrun⟩

/-- A form that takes what is passed by position, under the name of a node. -/
def bystander : Form :=
  { id := "bystander", params? := some [{ name := "a", kind := .rest }] }

def crowded : Context :=
  { arguments := [], elements := [.text "a", .text ":when", .form bystander], engine := .graph }

def crowdedPlan : Plan :=
  { steps := [.generate "a" (.instances .any), .guard (.call bystander)]
    arguments := [], engine := .graph }

/-- A single vertex. -/
def lonely : TypedGraph :=
  let item : ElementClass := ⟨.mk "Item" [], false⟩
  { schema := ⟨[item]⟩, elements := [.vertex { cls := item, attributes := [] }] }

/-- The form requires nothing, but the node is passed to it, and the call does not fit. -/
theorem callForm_crowded :
    let s : Setting := ⟨.graph, .graph lonely, fun _ _ => .ok (.bool true)⟩
    crowded.compile = .ok crowdedPlan ∧
      ∃ m, of? s crowdedPlan [] none = .ok m ∧
        (∃ μ ∈ m.moments, μ.rest = [.guard (.call bystander)] ∧
          ((s.callForm μ.ctx bystander).run.run μ.journal).1 = .error .callMismatch) ∧
        m.all.results = [] ∧ m.all.fault? = some .callMismatch := by
  have hcompile : crowded.compile = .ok crowdedPlan := by cbv
  let m : Matches :=
    ⟨crowdedPlan, ⟨.graph, .graph lonely, fun _ _ => .ok (.bool true)⟩, [], none⟩
  let μ : Moment := ⟨[.guard (.call bystander)], [("a", .vertex 1)], {}⟩
  have hμ : μ ∈ m.moments := .tail _ (.head _)
  exact ⟨hcompile, m, rfl, ⟨μ, hμ, rfl, rfl⟩, rfl, rfl⟩

end Matches

end GraphPattern
