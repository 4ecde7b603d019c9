import GraphPattern.Proofs.Exhaustive

/-!
# GraphPattern — steps that vouch for types

The type that is written on a named node or a named edge comes into the plan in one of five ways: as
the type of what is enumerated, as that of the edges that are enumerated, as a test after the end of an
edge, or as the last part of a path, which may have other tests on the way. Which of them it is depends
on how the walk comes to the node. Whatever is bound before has been vouched for where it was bound.

## Results

* `Plan.Explores.vouched` — what the walk binds, a step vouches for its type.
* `Plan.vouched_of_ofGraph` — a step vouches for the type of everything that has a name.
-/

namespace GraphPattern

open PatternGraph

/-- After the step, a variable stands for something of a type. -/
inductive Step.Vouches (name type : String) : Step → Prop
  | instances : Vouches name type (.generate name (.instances (.spec type)))
  | adjacent (source : Expr) (d : Direction) :
      Vouches name type (.generate name (.adjacent source (.spec type) d))
  | reachable (start : Expr) (path : Path) :
      Vouches name type (.generate name (.reachable start (path ++ [.restrict (.spec type)])))
  | test : Vouches name type (.guard (.isInstance (.var name) (.spec type)))

/-- The type of a node or an edge. -/
def PatternGraph.typeOf? (g : PatternGraph) : Handle → Option String
  | .node n => (g.node? n).bind (·.typeName?)
  | .edge k => (g.edge? k).bind (·.typeName?)

namespace Plan

variable {cx : Context} {g g₀ : PatternGraph} {visited binds : List Handle}

/-- Among the steps, one vouches for a variable that is bound by then. -/
def Vouched (name type : String) (steps : List Step) : Prop :=
  ∃ pre s post, steps = pre ++ s :: post ∧ s.Vouches name type ∧
    name ∈ (pre ++ [s]).flatMap Step.boundNames

namespace Vouched

variable {name type : String} {steps : List Step}

theorem append_left (h : Vouched name type steps) (before : List Step) :
    Vouched name type (before ++ steps) := by
  obtain ⟨pre, s, post, rfl, hs, hn⟩ := h
  refine ⟨before ++ pre, s, post, by rw [List.append_assoc], hs, ?_⟩
  rw [List.append_assoc, List.flatMap_append]
  exact List.mem_append_right _ hn

theorem append_right (h : Vouched name type steps) (after : List Step) :
    Vouched name type (steps ++ after) := by
  obtain ⟨pre, s, post, rfl, hs, hn⟩ := h
  exact ⟨pre, s, post ++ after, by simp, hs, hn⟩

/-- The first step vouches for what it binds. -/
theorem generate {e : Expr} (h : (Step.generate name e).Vouches name type) (after : List Step) :
    Vouched name type (.generate name e :: after) :=
  ⟨[], _, after, rfl, h, by simp [Step.boundNames]⟩

end Vouched

/-- Steps vouch for the type of something, if it has one. -/
def VouchedFor (g : PatternGraph) (steps : List Step) (b : Handle) : Prop :=
  ∀ type, g.typeOf? b = some type → type.isEmpty = false → Vouched (b.variable g) type steps

/-- A chain ends with the test of the node at which it ends. -/
theorem exists_path_of_walks {n : NodeId} {c : Chain} (h : Chain.Walks cx g n visited c) :
    ∃ path nd, g.node? c.terminal = some nd ∧ c.path = path ++ Chain.restriction nd := by
  induction h with
  | stop node | last node | openEnd node => exact ⟨[], _, node, rfl⟩
  | @step n nd visited left i e segment rest node _ _ _ _ _ _ ih =>
    obtain ⟨path, nd', hnode, hpath⟩ := ih
    refine ⟨Chain.restriction nd ++ segment :: path, nd', hnode, ?_⟩
    simp only
    rw [hpath, List.append_assoc, List.cons_append]

theorem ChainEmits.vouched {start : Expr} {c : Chain} {em : Emission} {bs : List Handle}
    (h : ChainEmits g start c visited em bs)
    (hpath : ∃ path nd, g.node? c.terminal = some nd ∧ c.path = path ++ Chain.restriction nd)
    (hbs : ∀ b ∈ bs, g.Bindable b) : ∀ b ∈ bs, VouchedFor g (expandAll em.steps) b := by
  cases h with
  | known | closed => exact fun b hb => nomatch hb
  | @bound nd es node pending fresh needed =>
    intro b hb type htype hne
    obtain rfl := List.mem_singleton.1 hb
    obtain ⟨path, nd', hnode', hpath⟩ := hpath
    rw [node] at hnode'
    cases hnode'
    obtain ⟨-, nd', hnode', hkind⟩ := hbs _ hb
    rw [node] at hnode'
    cases hnode'
    have hkind : nd.kind = .pattern := hkind.resolve_right fun hk => fresh (.inr hk)
    have htype : nd.typeName? = some type := by rwa [typeOf?, node] at htype
    have hrestriction : Chain.restriction nd = [.restrict (.spec type)] := by
      rw [Chain.restriction, hkind, htype]
      simp [hne]
    rw [hrestriction] at hpath
    refine .generate ?_ []
    rw [hpath]
    exact .reachable start path

theorem FarEmits.vouched {i : Incidence} {edge : Expr} {em : Emission} {bs : List Handle}
    (h : FarEmits cx g i edge visited em bs) (hbs : ∀ b ∈ bs, g.Bindable b) :
    ∀ b ∈ bs, VouchedFor g (expandAll em.steps) b := by
  cases h with
  | known => exact fun b hb => nomatch hb
  | chain node fresh anonymous walks emits => exact emits.vouched (exists_path_of_walks walks) hbs
  | @named nd es name node pending fresh named =>
    intro b hb type htype hne
    obtain rfl := List.mem_singleton.1 hb
    have hvar : (Handle.node i.that).variable g = name :=
      varOf_named ⟨(hbs _ hb).1, by rw [node]; exact named⟩
    have htype : nd.typeName? = some type := by rwa [typeOf?, node] at htype
    have htest : typeTest name nd.typeName? = [.guard (.isInstance (.var name) (.spec type))] := by
      rw [htype, typeTest, hne]
      rfl
    rw [hvar, htest]
    exact ⟨[.assign name (.edgeEnd edge i.direction true), .guard (.present (.var name))], _, [],
      rfl, .test, by simp [Step.boundNames]⟩

/-- The steps of a visit vouch for what it binds. -/
theorem Emits.vouched {x : Entry} {em : Emission} {bs : List Handle}
    (h : Emits cx g visited x em bs) (hbs : ∀ b ∈ bs, g.Bindable b) :
    ∀ b ∈ bs, VouchedFor g (expandAll em.steps) b := by
  cases h with
  | anchor | argument | start | constraints => exact fun b hb => nomatch hb
  | @place n nd es node kind pending =>
    intro b hb type htype hne
    obtain rfl := List.mem_singleton.1 hb
    have htype : nd.typeName? = some type := by rwa [typeOf?, node] at htype
    refine .generate ?_ []
    rw [htype]
    exact .instances
  | @chain i e segment c em bs edge kind anonymous segment_ok walks emits =>
    obtain ⟨path, nd, hnode, hpath⟩ := exists_path_of_walks walks
    exact emits.vouched ⟨segment :: path, nd, hnode, congrArg _ hpath⟩ hbs
  | argumentEdge edge kind named far =>
    exact fun b hb type htype hne => (far.vouched hbs b hb type htype hne).append_left _
  | @namedEdge i e name em bs edge kind named identity far =>
    intro b hb type htype hne
    rcases List.mem_cons.1 hb with rfl | hb
    · have hvar : (Handle.edge i.edge).variable g = name :=
        variable_edge ((hasName_edge_iff edge).2 named)
      have htype : e.typeName? = some type := by rwa [typeOf?, edge] at htype
      rw [hvar, htype]
      exact .generate (.adjacent _ _) _
    · have hfar := far.vouched (fun b hb => hbs b (List.mem_cons_of_mem _ hb)) b hb type htype hne
      exact hfar.append_left _

/-- What the walk binds, its steps vouch for. -/
theorem Explores.vouched (hr : Rooted cx g₀ g) {stack : List Entry} {steps : List Step}
    {visited' binds' : List Handle}
    (h : Explores cx g₀ g visited binds stack steps visited' binds') :
    ∀ b ∈ binds', b ∈ binds ∨ VouchedFor g (expandAll steps) b := by
  induction h with
  | done => exact fun b hb => .inl hb
  | skip seen more ih => exact ih
  | @visit visited binds visited' binds' own x em rest steps frontier fresh emits more ih =>
    intro b hb
    rw [expandAll_append]
    rcases ih b hb with hb | hvouched
    · rcases List.mem_append.1 hb with hown | hold
      · have hbindable : ∀ b ∈ own, g.Bindable b := fun b hb =>
          ((frontier.visit hr fresh emits).bound b (List.mem_append_left _ hb)).2.1
        exact .inr fun type htype hne =>
          (emits.vouched hbindable b hown type htype hne).append_right _
      · exact .inl hold
    · exact .inr fun type htype hne => (hvouched type htype hne).append_left _

/-- Everything that has a name and is no argument is vouched for in a compiled plan. -/
theorem vouched_of_ofGraph (hr : Rooted cx g₀ g) {p : Plan} (h : ofGraph cx g = .ok p) {b : Handle}
    {name : String} (hname : g.HasName b name) (hb : ¬ g.IsArgument b) :
    VouchedFor g p.expanded.steps b := by
  obtain ⟨-, -, -, visited, binds, hexplores, hf⟩ := explores_of_ofGraph hr h
  have hbound : b ∈ binds :=
    (hf.named b (hf.mem_of_hasName hr hname) fun hu => hu name hname).resolve_right hb
  exact (hexplores.vouched hr b hbound).resolve_left nofun

end Plan

end GraphPattern
