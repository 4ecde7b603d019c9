import Mathlib
import GraphPattern.Proofs.Answers
import GraphPattern.Proofs.Scoping

/-!
# GraphPattern — compiled plans do not go wrong

Along the walk, the nodes that edges are followed from are known: they were bound by an earlier
step, or they are arguments. So every variable that a step reads is bound before it. What forms
require is checked once the plan is finished. A plan that was compiled is therefore never run
against its rules, with constraints or without.

## Results

* `Plan.Explores.walked` — the variables of a walk are bound where they are read.
* `Plan.scoped_of_compile` — those of a compiled plan are, and so are the names its forms require.
* `Plan.excused_of_compile` — a compiled plan does not go wrong.
-/

namespace GraphPattern

open PatternGraph

namespace Plan

variable {cx : Context} {g g₀ : PatternGraph} {engine : Engine} {bound : List String}

/-- The call of a form, or an expression that only reads what is bound. -/
def Readable (engine : Engine) (bound : List String) (e : Expr) : Prop :=
  (∃ f, e = .call f) ∨ e.Scoped engine bound

/-- Some steps only read what is bound, whatever their forms require. -/
abbrev Walked (engine : Engine) : List String → List Step → Prop :=
  Throughout (Expr.Scoped engine) (Readable engine)

-- ---------------------------------------------------------------------------
-- Constraints
-- ---------------------------------------------------------------------------

theorem walked_constraintStep (c : Constraint) :
    Walked engine bound (constraintStep c).expanded := by
  cases c with
  | when f => exact .guard (.inl ⟨f, rfl⟩) .done
  | whilst f => exact .whilst (.inl ⟨f, rfl⟩) .done
  | bind bs =>
    rw [constraintStep, Step.expanded]
    induction bs generalizing bound with
    | nil => exact .done
    | cons b bs ih =>
      refine .assign (.inl ⟨b.2, rfl⟩) (.guard (.inr (.present (.var (by simp)))) ?_)
      exact ih

theorem boundNames_expanded_steps (steps : List Step) :
    (steps.flatMap Step.expanded).flatMap Step.boundNames = steps.flatMap Step.boundNames := by
  induction steps with
  | nil => rfl
  | cons s steps ih =>
    rw [List.flatMap_cons, List.flatMap_append, ih, s.boundNames_expanded, List.flatMap_cons]

/-- Two parts of a plan, the second one with what the first one binds. -/
theorem Throughout.append_expanded {S P : List String → Expr → Prop} {first second : List Step}
    (h : Throughout S P bound (first.flatMap Step.expanded))
    (h' : Throughout S P ((first.flatMap Step.boundNames).reverse ++ bound)
      (second.flatMap Step.expanded)) :
    Throughout S P bound ((first ++ second).flatMap Step.expanded) := by
  rw [List.flatMap_append]
  refine Throughout.append h ?_
  rwa [boundNames_expanded_steps]

theorem Splices.walked {n : NodeId} {visited marks : List Handle} {steps : List Step}
    (h : Splices g n visited steps marks) :
    Walked engine bound (steps.flatMap Step.expanded) := by
  induction h generalizing bound with
  | last node form next =>
    rw [List.flatMap_singleton]
    exact walked_constraintStep _
  | @next n nd c visited i steps marks node form next rest ih =>
    have hfirst : Walked engine bound ([constraintStep c].flatMap Step.expanded) := by
      rw [List.flatMap_singleton]
      exact walked_constraintStep c
    exact hfirst.append_expanded ih

-- ---------------------------------------------------------------------------
-- Visits
-- ---------------------------------------------------------------------------

theorem ChainEmits.walked {start : Expr} {c : Chain} {visited more : List Handle}
    {em : Emission} (h : ChainEmits g start c visited em more)
    (hstart : start.Scoped engine bound) (hpath : ∀ q ∈ c.path, q.Followed engine)
    (hknown : ∀ nd, g.node? c.terminal = some nd →
      .node c.terminal ∈ visited ∨ nd.kind = .argument → varOf g c.terminal ∈ bound) :
    Walked engine bound (em.steps.flatMap Step.expanded) := by
  have hreach : (Expr.reachable start c.path).Scoped engine bound := .reachable hstart hpath
  cases h with
  | known node _ known => exact .guard (.inr (.member (.var (hknown _ node known)) hreach)) .done
  | closed => exact .guard (.inr (.nonEmpty hreach)) .done
  | bound => exact .generate hreach .done

theorem FarEmits.walked {i : Incidence} {edge : Expr} {visited more : List Handle}
    {em : Emission} (h : FarEmits cx g i edge visited em more)
    (hid : cx.engine.edgesHaveIdentity = true) (hedge : edge.Scoped cx.engine bound)
    (hknown : ∀ nd, g.node? i.that = some nd →
      .node i.that ∈ visited ∨ nd.kind = .argument → varOf g i.that ∈ bound)
    (hterminal : ∀ c, Chain.Walks cx g i.that visited c → ∀ nd, g.node? c.terminal = some nd →
      .node c.terminal ∈ visited ∨ nd.kind = .argument → varOf g c.terminal ∈ bound) :
    Walked cx.engine bound (em.steps.flatMap Step.expanded) := by
  have hend : (Expr.edgeEnd edge i.direction true).Scoped cx.engine bound := .edgeEnd hid hedge
  cases h with
  | known node _ known =>
    exact .guard (.inr (.equal (.var (hknown _ node known)) hend)) .done
  | @named nd es name node _ fresh named =>
    refine .assign (.inr hend) (.guard (.inr (.present (.var (by simp)))) ?_)
    unfold typeTest
    split
    · split
      · exact .done
      · exact .guard (.inr (.isInstance (.var (by simp)))) .done
    · exact .done
  | chain node fresh anonymous walks emits =>
    exact ChainEmits.walked emits hend walks.followed (hterminal _ walks)

/-- A visit only reads what is known where it takes place. -/
theorem Emits.walked (hr : Rooted cx g₀ g) (hid : Identified cx g) {visited binds : List Handle}
    {x : Entry} {rest : List Entry} {em : Emission} {more : List Handle}
    (hf : Frontier g₀ g visited binds (x :: rest)) (hfresh : x.handle ∉ visited)
    (h : Emits cx g (x.handle :: visited) x em more)
    (hknown : ∀ b, Known g binds b → b.variable g ∈ bound) :
    Walked cx.engine bound (em.steps.flatMap Step.expanded) := by
  have hargument : ∀ {n nd}, g.IsNode n → g.node? n = some nd → nd.kind = .argument →
      varOf g n ∈ bound := fun hn hnode hk => hknown (.node _) (.inr ⟨hn, _, hnode, hk⟩)
  have hterminal : ∀ {i : Incidence}, x = .along i → g.Structural i → ∀ {seen : List Handle},
      (∀ h, h ∈ seen ↔ h = .edge i.edge ∨ h ∈ visited) → ∀ c, Chain.Walks cx g i.that seen c →
      ∀ nd, g.node? c.terminal = some nd → .node c.terminal ∈ seen ∨ nd.kind = .argument →
        varOf g c.terminal ∈ bound := by
    rintro i rfl hst seen hseen c hwalks nd hnode hv
    obtain ⟨hi, -, -⟩ := hf.along i (by simp)
    have hc := hr.consumed hwalks (hr.regular.isPlace_that hi hst)
    rcases hv with hv | hk
    · have hv : .node c.terminal ∈ visited := by simpa [hseen] using hv
      exact hknown _ (hf.known_terminal hst hfresh hseen hc hv)
    · exact hargument (hc.isPlace _ hc.terminal).1 hnode hk
  cases h with
  | anchor => exact .done
  | place => exact .generate .instances .done
  | @argument n nd name es node kind named _ =>
    have hn : g.IsNode n := by
      rcases hf.enter n (by simp) with rfl | hs
      · exact isNode_anchor hr.regular.consistent.inhabited
      · exact hr.anchors.extended.isNode hs.isNode
    have hvar : varOf g n = name := varOf_named ⟨hn, by rw [node]; exact named⟩
    refine .assign (.inr (.argument ?_)) .done
    rw [← hvar]
    exact hargument hn node kind
  | start => exact .done
  | constraints _ _ splices => exact splices.walked
  | @chain i e segment c em more edge kind anonymous segment_ok walks emits =>
    obtain ⟨hi, hvthis, -⟩ := hf.along i (by simp)
    have hst : g.Structural i := structural_of_pattern edge kind
    refine ChainEmits.walked emits (.var (hknown _ (hf.live i hi hvthis hfresh hst))) ?_ ?_
    · intro q hq
      rcases List.mem_cons.1 hq with rfl | hq
      · obtain ⟨rfl, hd⟩ := edgeSegment_ok segment_ok
        exact ⟨⟨_, rfl⟩, hd⟩
      · exact walks.followed q hq
    · intro nd hnode hv
      refine hterminal rfl hst (by simp [Entry.handle]) c walks nd hnode
        (hv.imp (fun hv => ?_) id)
      exact List.mem_cons_of_mem _ hv
  | @argumentEdge i e name em more edge kind named far =>
    obtain ⟨hi, hvthis, -⟩ := hf.along i (by simp)
    have hst : g.Structural i := structural_of_argument edge kind
    have hid' : cx.engine.edgesHaveIdentity = true :=
      hid e (List.mem_of_getElem? edge) (by rw [kind]; rfl)
        (by rw [PatternEdge.anonymous, named]; rfl)
    have hname : (Handle.edge i.edge).variable g = name :=
      variable_edge ((hasName_edge_iff edge).2 named)
    have hedge : (Expr.var name).Scoped cx.engine bound := by
      rw [← hname]
      exact .var (hknown _ (.inr ⟨e, edge, kind⟩))
    refine .guard (.inr (.equal (.var (hknown _ (hf.live i hi hvthis hfresh hst)))
      (.edgeEnd hid' hedge))) ?_
    refine FarEmits.walked far hid' hedge ?_ (hterminal rfl hst (by simp [Entry.handle]))
    rintro nd hnode (hv | hk)
    · exact hknown _ (hf.known_that hst hfresh (Frontier.mem_edge_cons.1 hv))
    · exact hargument (hr.regular.isPlace_that hi hst).1 hnode hk
  | @namedEdge i e name em more edge kind named identity far =>
    obtain ⟨hi, hvthis, -⟩ := hf.along i (by simp)
    have hst : g.Structural i := structural_of_pattern edge kind
    refine .generate (.adjacent identity
      (.var (hknown _ (hf.live i hi hvthis hfresh hst)))) ?_
    refine FarEmits.walked far identity (.var (by simp)) ?_ ?_
    · rintro nd hnode (hv | hk)
      · exact List.mem_cons_of_mem _
          (hknown _ (hf.known_that hst hfresh (Frontier.mem_edge_cons.1 hv)))
      · exact List.mem_cons_of_mem _ (hargument (hr.regular.isPlace_that hi hst).1 hnode hk)
    · intro c hwalks nd hnode hv
      exact List.mem_cons_of_mem _
        (hterminal rfl hst (by simp [Entry.handle]) c hwalks nd hnode hv)

/-- The variables of a walk are bound where they are read. -/
theorem Explores.walked (hr : Rooted cx g₀ g) (hid : Identified cx g)
    {visited binds visited' binds' : List Handle} {stack : List Entry} {steps : List Step}
    (h : Explores cx g₀ g visited binds stack steps visited' binds')
    (hknown : ∀ b, Known g binds b → b.variable g ∈ bound) :
    Walked cx.engine bound (steps.flatMap Step.expanded) := by
  induction h generalizing bound with
  | done => exact .done
  | skip _ _ ih => exact ih hknown
  | @visit visited binds visited' binds' more x em rest steps frontier fresh emits _ ih =>
    refine (Emits.walked hr hid frontier fresh emits hknown).append_expanded (ih ?_)
    intro b hb
    rw [List.mem_append, List.mem_reverse]
    rcases hb with hb | hb
    · rcases List.mem_append.1 hb with hb | hb
      · exact .inl (Emits.mem_boundNames emits hb)
      · exact .inr (hknown b (.inl hb))
    · exact .inr (hknown b (.inr hb))

-- ---------------------------------------------------------------------------
-- Forms
-- ---------------------------------------------------------------------------

theorem checkForm_ok {g? : Option PatternGraph} {e : Expr} (h : checkForm cx g? bound e = .ok ())
    (f : Form) (he : e = .call f) : missingParameter? f bound = none := by
  subst he
  unfold checkForm at h
  simp only at h
  split at h
  · assumption
  · cases h

theorem Readable.scoped {g? : Option PatternGraph} {e : Expr} (h : Readable engine bound e)
    (hcheck : checkForm cx g? bound e = .ok ()) : e.Scoped engine bound := by
  rcases h with ⟨f, rfl⟩ | h
  · exact .call (checkForm_ok hcheck f rfl)
  · exact h

/-- What the forms of a plan require was checked step by step. -/
theorem Walked.scoped {g? : Option PatternGraph} {steps : List Step} {after : List String}
    (h : Walked engine bound steps) (hcheck : steps.foldlM (checkStep cx g?) bound = .ok after) :
    Scoped engine bound steps := by
  have hform : ∀ {bound : List String} {e : Expr} {k : Unit → Except Failure (List String)} {r},
      (checkForm cx g? bound e >>= k) = .ok r → checkForm cx g? bound e = .ok () ∧ k () = .ok r := by
    intro bound e k r hk
    cases hc : checkForm cx g? bound e with
    | error f => rw [hc] at hk; cases hk
    | ok u => rw [hc] at hk; exact ⟨rfl, hk⟩
  induction h with
  | done => exact .done
  | generate source _ ih => exact .generate source (ih hcheck)
  | assign value _ ih =>
    rw [List.foldlM_cons, checkStep, bind_assoc] at hcheck
    obtain ⟨hc, hrest⟩ := hform hcheck
    exact .assign (value.scoped hc) (ih hrest)
  | guard test _ ih =>
    rw [List.foldlM_cons, checkStep, bind_assoc] at hcheck
    obtain ⟨hc, hrest⟩ := hform hcheck
    exact .guard (test.scoped hc) (ih hrest)
  | whilst test _ ih =>
    rw [List.foldlM_cons, checkStep, bind_assoc] at hcheck
    obtain ⟨hc, hrest⟩ := hform hcheck
    exact .whilst (test.scoped hc) (ih hrest)

/-- No name is repeated. -/
theorem repeated_eq_nil_iff {names : List String} : repeated names = [] ↔ names.Nodup := by
  rw [repeated, List.filter_eq_nil_iff, List.nodup_iff_count]
  simp only [List.mem_map, List.mem_eraseDups, decide_eq_true_eq]
  constructor
  · intro h a
    by_cases ha : a ∈ names
    · exact Nat.not_lt.1 (h _ ⟨a, ha, rfl⟩)
    · rw [List.count_eq_zero_of_not_mem ha]
      exact Nat.zero_le 1
  · rintro h _ ⟨a, -, rfl⟩
    exact Nat.not_lt.2 (h a)

/-- What a finished plan has been checked for. -/
theorem check_ok {g? : Option PatternGraph} {p : Plan} (h : p.check cx g? = .ok ()) :
    repeated p.boundNames = [] ∧ p.steps.findSome? (reboundArgument? cx.arguments) = none ∧
      ∃ after, p.steps.foldlM (checkStep cx g?) cx.arguments = .ok after := by
  unfold check at h
  cases hr : repeated p.boundNames with
  | cons c cs => rw [hr] at h; cases h
  | nil =>
    cases ha : p.steps.findSome? (reboundArgument? cx.arguments) with
    | some n => rw [hr, ha] at h; cases h
    | none =>
      rw [hr, ha] at h
      cases hs : p.steps.foldlM (checkStep cx g?) cx.arguments with
      | error f => rw [hs] at h; cases h
      | ok after => exact ⟨rfl, rfl, after, rfl⟩

/-- The variables of a compiled plan are bound where they are read, and so is what its forms
require. -/
theorem scoped_of_compile {plan : Plan} (h : cx.compile = .ok plan) :
    Scoped cx.engine plan.arguments plan.steps := by
  obtain ⟨hargs, -⟩ := Context.plan_of_compile h
  obtain ⟨g, p, hg, hp, hcheck, rfl⟩ := Context.compile_ok h
  obtain ⟨_, g₀, -, -, hr⟩ := Context.rooted_of_anchoredGraph hg
  obtain ⟨-, -, hedges, visited, binds, hexplores, -⟩ := explores_of_ofGraph hr hp
  obtain ⟨-, -, after, hforms⟩ := check_ok hcheck
  have hknown : ∀ b, Known g [] b → b.variable g ∈ cx.arguments := by
    rintro b (hb | hb)
    · cases hb
    · obtain ⟨name, hmem, hname⟩ := hr.regular.name_of_isArgument hb
      rwa [variable_named hname]
  rw [hargs]
  exact (hexplores.walked hr (identified_of_checkEdges hedges) hknown).scoped hforms

/-- A compiled plan does not go wrong: on a model of its engine, with a value for every argument, a
run is never stopped by a misuse of the plan, unless the body of a form gave up with one. -/
theorem excused_of_compile {plan : Plan} {s : Setting} {args : Bindings}
    (h : cx.compile = .ok plan) (hs : s.engine = cx.engine) (hm : s.engine.Takes s.model)
    (hargs : ∀ name ∈ cx.arguments, ∃ v, args.get? name = some v) :
    ∃ m, Matches.of? s plan args none = .ok m ∧
      (∀ f, m.all.fault? = some f → s.Excuses f) ∧
      ∀ n f, (m.take n).fault? = some f → s.Excuses f := by
  refine ⟨_, Matches.of?_ok h hs hargs none, ?_⟩
  have hsound : Matches.Sound { plan, setting := s, arguments := args, result? := none } := by
    refine { takes := hm, steps := ?_, given := ?_, plain := rfl }
    · show Scoped s.engine plan.arguments plan.steps
      rw [hs]
      exact scoped_of_compile h
    · intro n hn
      have hn : n ∈ plan.arguments := hn
      rw [(Context.plan_of_compile h).1] at hn
      exact hargs n hn
  exact ⟨fun f hf => hsound.all hf, fun n f hf => hsound.take n hf⟩

/-- A form about a road and where it leads. -/
def question : Form :=
  { id := "question", params? := some [{ name := "r" }, { name := "y" }] }

/-- The form is asked about the roads from a given town to another. -/
def questioned : Context :=
  { arguments := ["x"]
    elements := [.text "x", .text "-r<Road>->", .text "y<Town>", .text ":when", .form question]
    engine := .graph }

def questionTokens : List Token :=
  [.node { name? := "x", typeName? := none },
    .edge { name? := "r", typeName? := "Road", direction := .out, index := 1 },
    .node { name? := "y", typeName? := "Town", index := 2 },
    .constraint { constraint := .when question, index := 3 }]

def questionPlan : Plan :=
  { steps := [.assign "x" (.argument "x"), .generate "r" (.adjacent (.var "x") (.spec "Road") .out),
      .assign "y" (.edgeEnd (.var "r") .out true), .guard (.present (.var "y")),
      .guard (.isInstance (.var "y") (.spec "Town")), .guard (.call question)]
    arguments := ["x"], engine := .graph }

/-- Two towns with a road between them, and forms that give up. -/
def reluctant : Setting :=
  let town : ElementClass := ⟨.mk "Town" [], false⟩
  let road : ElementClass := ⟨.mk "Road" [], true⟩
  let towns : TypedGraph :=
    { schema := ⟨[town, road]⟩
      elements := [.vertex ⟨town, [], [(3, .out)]⟩, .vertex ⟨town, [], [(3, .into)]⟩,
        .edge ⟨road, 1, 2, []⟩] }
  { engine := .graph, model := .graph towns, behaviour := fun _ _ => .error (.raised "no") }

/-- The road is followed, and the form is called and gives up, but nothing goes wrong. -/
theorem excused_of_compile_questioned :
    ∃ m, Matches.of? reluctant questionPlan [("x", .vertex 1)] none = .ok m ∧
      m.all.fault? = some (.raised "no") ∧ (m.take 1).fault? = some (.raised "no") ∧
      (∀ f, m.all.fault? = some f → f.category ≠ .misuse) ∧
      ∀ n f, (m.take n).fault? = some f → f.category ≠ .misuse := by
  have hts : Token.classify questioned.elements = .ok questionTokens := by rfl
  have hcompile : questioned.compile = .ok questionPlan := by
    rw [Context.compile, Context.anchoredGraph, Context.graph, hts]
    cbv
  have hargs : ∀ name ∈ questioned.arguments,
      ∃ v, Bindings.get? [("x", .vertex 1)] name = some v := by
    intro name hname
    obtain rfl : name = "x" := List.mem_singleton.1 hname
    exact ⟨_, rfl⟩
  have hs : reluctant.engine = questioned.engine := rfl
  obtain ⟨m, hof, hall, htake⟩ := excused_of_compile hcompile hs trivial hargs
  -- what a form gave up with is no misuse
  have hno : ∀ f, reluctant.Excuses f → f.category ≠ .misuse := by
    intro f hf hmisuse
    obtain ⟨form, env, hbehaviour⟩ := hf (.inl hmisuse)
    cases hbehaviour
    cases hmisuse
  cases hof
  exact ⟨_, rfl, rfl, rfl, fun f hf => hno f (hall f hf), fun n f hf => hno f (htake n f hf)⟩

end Plan

end GraphPattern
