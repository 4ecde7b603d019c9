import GraphPattern.Proofs.BarePlans
import GraphPattern.Proofs.ScopedPlans
import GraphPattern.Proofs.EdgeTallies
import Mathlib.Data.List.Sigma

/-!
# GraphPattern — plans that have everything once

A compiled plan has everything of its pattern, and everything once: what has a name is bound by one
step, an argument by the supplied value where its component starts, every unnamed edge is a part of one
path, every argument edge is tested at its near end once, and every constraint is asked once.

## Results

* `Context.exhausts_of_compile` — this holds of every plan that a compilation gives.
-/

namespace GraphPattern

open PatternGraph

-- ---------------------------------------------------------------------------
-- Plans that exhaust a pattern
-- ---------------------------------------------------------------------------

/-- The step binds a name, to one value or to candidates in turn. -/
def Step.binds (name : String) : Step → Bool
  | .generate n _ | .assign n _ => n == name
  | .assignAll _ | .guard _ | .whilst _ | .foreign _ => false

/-- The names that a constraint binds. -/
def Constraint.names : Constraint → List String
  | .bind bs => bs.map (·.1)
  | .when _ | .whilst _ => []

namespace PatternGraph

/-- The name is that of a node or an edge of the pattern, and no argument. -/
def Declares (g : PatternGraph) (name : String) : Prop :=
  (∃ nd ∈ g.nodes, nd.kind = .pattern ∧ nd.name? = some name) ∨
    ∃ e ∈ g.edges, e.kind = .pattern ∧ e.name? = some name

/-- The name is that of an argument node, the first node of its component. -/
def StartsAt (g : PatternGraph) (name : String) : Prop :=
  ∃ n nd, g.IsStart n ∧ g.node? n = some nd ∧ nd.kind = .argument ∧ nd.name? = some name

end PatternGraph

/-- A plan that has everything of a pattern and has it once. The graph is that of the pattern before
its components are linked to the anchor. -/
structure Plan.Exhausts (cx : Context) (ts : List Token) (g : PatternGraph) (plan : Plan) :
    Prop where
  /-- Every named node and every named edge is bound by one step. -/
  declared : ∀ name, g.Declares name → plan.steps.countP (·.binds name) = 1
  /-- An argument is bound to its supplied value only. Names of arguments are identifiers, which
  are not hidden; a list that has `#1` among them gives no node or edge of the pattern that name. -/
  supplied : ∀ s ∈ plan.steps, ∀ name ∈ cx.arguments, isHiddenName name = false →
    s.binds name = true → s = .assign name (.argument name)
  /-- This happens once where a component starts with the argument, and nowhere else. -/
  started : ∀ name, g.StartsAt name → plan.steps.count (.assign name (.argument name)) = 1
  starts : ∀ n name, .assign n (.argument name) ∈ plan.steps → n = name ∧ g.StartsAt name
  /-- Every edge is passed in one direction: an argument edge is tested at the end where it is
  entered, and an unnamed edge of the model becomes a part of a path. -/
  passed : ∃ d : Nat → Direction,
    (plan.steps.filter Step.testsNearEnd).Perm
      (g.edges.zipIdx.filterMap fun x => g.nearEndTest? x.1 (d x.2)) ∧
    (plan.segments.filter Segment.follows).Perm
      (g.edges.zipIdx.filterMap fun x => x.1.segment? (d x.2))
  /-- The steps that call forms are those of the constraints. -/
  asked : (plan.steps.filter Step.callsForm).Perm
    ((Token.constraints ts).flatMap Constraint.steps)
  /-- No name is bound twice, and besides hidden variables the bound names are these. -/
  distinct : plan.boundNames.Nodup
  bound : ∀ name, isHiddenName name = false → (name ∈ plan.boundNames ↔
    g.Declares name ∨ g.StartsAt name ∨ name ∈ (Token.constraints ts).flatMap Constraint.names)

-- ---------------------------------------------------------------------------
-- Steps that bind
-- ---------------------------------------------------------------------------

namespace Plan

variable {cx : Context} {g g₀ : PatternGraph} {visited binds : List Handle} {rest : List Entry}

/-- Without bindings that are declared together, a step binds at most one name. -/
theorem countP_binds {steps : List Step} (h : ∀ s ∈ steps, ∀ bs, s ≠ .assignAll bs)
    (name : String) : steps.countP (·.binds name) = (steps.flatMap Step.boundNames).count name := by
  induction steps with
  | nil => rfl
  | cons s steps ih =>
    rw [List.countP_cons, List.flatMap_cons, List.count_append,
      ih fun t ht => h t (List.mem_cons_of_mem _ ht), Nat.add_comm]
    congr 1
    cases s with
    | assignAll bs => exact absurd rfl (h _ (by simp) bs)
    | generate n e | assign n e => simp [Step.binds, Step.boundNames, List.count_cons]
    | guard | whilst | foreign => rfl

theorem ne_assignAll_of_mem_expanded {s t : Step} (h : t ∈ s.expanded) (bs : List (String × Expr)) :
    t ≠ .assignAll bs := by
  rintro rfl
  cases s with
  | assignAll bs' =>
    simp only [Step.expanded, List.mem_flatMap, List.mem_cons, List.not_mem_nil, or_false] at h
    obtain ⟨b, -, h | h⟩ := h <;> cases h
  | generate | assign | guard | whilst | foreign =>
    cases List.mem_singleton.1 h

/-- A node or an edge that a step can bind: it is of the pattern, and no argument. -/
def Fillable (g : PatternGraph) : Handle → Prop
  | .node n => g.IsPlace n ∧ ∃ nd, g.node? n = some nd ∧ nd.kind = .pattern
  | .edge k => ∃ e, g.edge? k = some e ∧ e.kind = .pattern ∧ e.name?.isSome

/-- Where a step of an expanded plan comes from. -/
inductive Origin (g₀ g : PatternGraph) : Step → Prop
  /-- It binds nothing. -/
  | test {s : Step} (binds : s.boundNames = []) : Origin g₀ g s
  /-- It is one of a constraint. -/
  | form {s : Step} (calls : s.callsForm = true) : Origin g₀ g s
  /-- It binds a node or an edge to what it finds. -/
  | found {s : Step} {h : Handle} (fillable : Fillable g h) (binds : s.boundNames = [h.variable g])
      (assigned : ∀ n e, s = .assign n e → (∀ name, e ≠ .argument name) ∧ ¬ g.Unnamed h) :
      Origin g₀ g s
  /-- It binds an argument where its component starts. -/
  | supplied {n : NodeId} {nd : PatternNode} {name : String} (start : g₀.IsStart n)
      (node : g.node? n = some nd) (kind : nd.kind = .argument) (named : nd.name? = some name) :
      Origin g₀ g (.assign name (.argument name))

theorem origin_constraintStep (c : Constraint) :
    ∀ s ∈ (constraintStep c).expanded, Origin g₀ g s := by
  intro s hs
  cases c with
  | when f => exact .form (by rw [List.mem_singleton.1 hs]; rfl)
  | whilst f => exact .form (by rw [List.mem_singleton.1 hs]; rfl)
  | bind bs =>
    simp only [constraintStep, Step.expanded, List.flatMap_map, List.mem_flatMap, List.mem_cons,
      List.not_mem_nil, or_false] at hs
    obtain ⟨b, -, rfl | rfl⟩ := hs
    · exact .form rfl
    · exact .test rfl

theorem fillable_of_isPlace {n : NodeId} {nd : PatternNode} (hn : g.IsPlace n)
    (hnode : g.node? n = some nd) (hk : nd.kind ≠ .argument) : Fillable g (.node n) := by
  obtain ⟨-, nd', hnode', hkind⟩ := id hn
  rw [hnode] at hnode'
  cases hnode'
  exact ⟨hn, nd, hnode, hkind.resolve_right hk⟩

theorem ChainEmits.origin {start : Expr} {c : Chain} {em : Emission} {bs : List Handle}
    (hc : g.IsPlace c.terminal) (h : ChainEmits g start c visited em bs) :
    ∀ s ∈ expandAll em.steps, Origin g₀ g s := by
  cases h with
  | known | closed =>
    intro s hs
    exact .test (by rw [List.mem_singleton.1 hs]; rfl)
  | bound node pending fresh needed =>
    intro s hs
    rw [List.mem_singleton.1 hs]
    refine .found (fillable_of_isPlace hc node fun hk => fresh (.inr hk)) rfl ?_
    exact fun _ _ => Step.noConfusion

theorem origin_typeTest (name : String) (type? : Option String) :
    ∀ s ∈ expandAll (typeTest name type?), Origin g₀ g s := by
  intro s hs
  refine .test ?_
  unfold typeTest at hs
  split at hs
  · split at hs
    · cases hs
    · rw [List.mem_singleton.1 hs]
      rfl
  · cases hs

theorem isPlace_terminal (hr : Rooted cx g₀ g) {n : NodeId} {c : Chain} (hn : g.IsPlace n)
    (h : Chain.Walks cx g n visited c) : g.IsPlace c.terminal := by
  have hconsumed : Chain.Consumed g₀ g n visited c :=
    h.consumed hr.regular (fun i hi hs => hr.adjacent hi (.inl hs)) hn
  exact hconsumed.isPlace _ hconsumed.terminal

theorem FarEmits.origin (hr : Rooted cx g₀ g) {i : Incidence} {edge : Expr} {em : Emission}
    {bs : List Handle} (hthat : g.IsPlace i.that) (h : FarEmits cx g i edge visited em bs) :
    ∀ s ∈ expandAll em.steps, Origin g₀ g s := by
  -- a place that is known is tested, one with a name is found, or a chain goes on from it
  cases h with
  | known =>
    intro s hs
    exact .test (by rw [List.mem_singleton.1 hs]; rfl)
  | @named nd es name node pending fresh named =>
    intro s hs
    have hvar : (Handle.node i.that).variable g = name :=
      varOf_named ⟨hthat.1, by rw [node]; exact named⟩
    rcases List.mem_append.1 hs with hs | hs
    · simp only [Step.expanded, List.flatMap_cons, List.flatMap_nil, List.append_nil,
        List.mem_cons, List.not_mem_nil, or_false] at hs
      rcases hs with rfl | rfl
      · refine .found (fillable_of_isPlace hthat node fun hk => fresh (.inr hk)) ?_ ?_
        · rw [hvar]
          rfl
        · intro n e heq
          cases heq
          exact ⟨fun _ => Expr.noConfusion, fun hu => hu _ ⟨hthat.1, by rw [node]; exact named⟩⟩
      · exact .test rfl
    · exact origin_typeTest name nd.typeName? s hs
  | chain node fresh anonymous walks emits => exact emits.origin (isPlace_terminal hr hthat walks)

/-- Where the steps of a visit come from. -/
theorem Emits.origin (hr : Rooted cx g₀ g) {x : Entry} {em : Emission} {bs : List Handle}
    (hf : Frontier g₀ g visited binds (x :: rest))
    (h : Emits cx g (x.handle :: visited) x em bs) :
    ∀ s ∈ expandAll em.steps, Origin g₀ g s := by
  -- a node entered as such is the anchor or a start
  have hstart : ∀ {n nd}, x = .node n → g.node? n = some nd → nd.kind ≠ .anchor →
      g₀.IsStart n := by
    rintro n nd rfl hnode hk
    rcases hf.enter n (by simp) with rfl | hs
    · -- of a kind that is not the anchor's, so it is a start
      obtain ⟨nd', hnode', hk'⟩ := hr.regular.anchor
      rw [hnode] at hnode'
      cases hnode'
      exact absurd hk' hk
    · exact hs
  -- the step of each kind of visit, with the handle that it finds or tests
  cases h with
  | anchor | start => exact fun s hs => nomatch hs
  | @place n nd es node kind pending =>
    intro s hs
    rw [List.mem_singleton.1 hs]
    have hplace := hr.before.place_of_isStart (hstart rfl node (by simp [kind]))
    refine .found (fillable_of_isPlace (hr.anchors.extended.isPlace hplace) node ?_) rfl ?_
    · simp [kind]
    · exact fun _ _ => Step.noConfusion
  | argument node kind named pending =>
    intro s hs
    rw [List.mem_singleton.1 hs]
    exact .supplied (hstart rfl node (by simp [kind])) node kind named
  | constraints edge kind splices =>
    obtain ⟨cs, rfl, -⟩ := splices.constraints
    intro s hs
    rw [expandAll, List.flatMap_map, List.mem_flatMap] at hs
    obtain ⟨c, -, hs⟩ := hs
    exact origin_constraintStep c s hs
  | @chain i e segment c em bs edge kind anonymous segment_ok walks emits =>
    obtain ⟨hi, -, -⟩ := hf.along i (by simp)
    have hs : g.Structural i := structural_of_pattern edge kind
    have hterminal : g.IsPlace c.terminal :=
      isPlace_terminal hr (hr.regular.isPlace_that hi hs) walks
    refine ChainEmits.origin ?_ emits
    exact hterminal
  | @argumentEdge i e name em bs edge kind named far =>
    obtain ⟨hi, -, -⟩ := hf.along i (by simp)
    have hs : g.Structural i := structural_of_argument edge kind
    intro s hmem
    rcases List.mem_append.1 hmem with hmem | hmem
    · exact .test (by rw [List.mem_singleton.1 hmem]; rfl)
    · exact far.origin hr (hr.regular.isPlace_that hi hs) s hmem
  | @namedEdge i e name em bs edge kind named identity far =>
    obtain ⟨hi, -, -⟩ := hf.along i (by simp)
    have hs : g.Structural i := structural_of_pattern edge kind
    intro s hmem
    rcases List.mem_append.1 hmem with hmem | hmem
    · rw [List.mem_singleton.1 hmem]
      have hvar : (Handle.edge i.edge).variable g = name :=
        variable_edge ((hasName_edge_iff edge).2 named)
      refine .found (h := .edge i.edge) ⟨e, edge, kind, by rw [named]; rfl⟩ (by rw [hvar]; rfl) ?_
      exact fun _ _ => Step.noConfusion
    · exact far.origin hr (hr.regular.isPlace_that hi hs) s hmem

/-- Where the steps of the walk come from. -/
theorem Explores.origin (hr : Rooted cx g₀ g) {stack : List Entry} {steps : List Step}
    {visited' binds' : List Handle}
    (h : Explores cx g₀ g visited binds stack steps visited' binds') :
    ∀ s ∈ expandAll steps, Origin g₀ g s := by
  induction h with
  | done => exact fun s hs => nomatch hs
  | skip _ _ ih => exact ih
  | visit frontier _ emits _ ih =>
    intro s hs
    rw [expandAll_append, List.mem_append] at hs
    exact hs.elim (emits.origin hr frontier s) (ih s)

-- ---------------------------------------------------------------------------
-- Components that start with an argument
-- ---------------------------------------------------------------------------

/-- What a visit marks is joined with the node it starts from. -/
theorem Emits.joined_marks (hr : Rooted cx g₀ g) {i : Incidence} {em : Emission}
    {bs : List Handle} (hf : Frontier g₀ g visited binds (.along i :: rest))
    (h : Emits cx g (.edge i.edge :: visited) (.along i) em bs) {m : NodeId}
    (hm : .node m ∈ em.marks) : g₀.Joined i.this m := by
  obtain ⟨hi, -, hthis⟩ := hf.along i (by simp)
  -- what a chain consumes is joined to the place it leads to, hence to where the edge came from
  have hchain : ∀ {seen : List Handle} {c : Chain}, g.Structural i →
      Chain.Walks cx g i.that seen c → .node m ∈ c.elements → g₀.Joined i.this m := by
    intro seen c hs hwalks hmem
    have hconsumed := hr.consumed hwalks (hr.regular.isPlace_that hi hs)
    exact .head (hr.adjacent hi (.inl hs)) (hconsumed.joined m hmem)
  have hfar : ∀ {edge : Expr} {em : Emission} {bs : List Handle}, g.Structural i →
      FarEmits cx g i edge (.edge i.edge :: visited) em bs → .node m ∈ em.marks →
      g₀.Joined i.this m := by
    intro edge em bs hs hfar hmem
    cases hfar with
    | known | named =>
      rw [Handle.node.inj (List.mem_singleton.1 hmem)]
      exact .single (hr.adjacent hi (.inl hs))
    | chain node fresh anonymous walks emits =>
      rw [(Frontier.ChainEmits.parts emits).1] at hmem
      exact hchain hs walks hmem
  -- an edge between places, or one that leads into the constraints of the node it leaves
  cases h with
  | start => cases hm
  | @constraints _ e steps marks edge kind splices =>
    have hp : g.Precedes i := ⟨e, edge, kind⟩
    have hd := direction_of_precedes hr hi hp hthis
    have hspliced : Spliced g₀ g i.that (.edge i.edge :: visited) steps marks :=
      splices.spliced hr (isConstraint_that hr hi hp hd) (ledTo_that hi hd (by simp))
    exact .head (hr.adjacent hi (.inr hp)) (hspliced.node m hm).2
  | @chain _ e segment c em bs edge kind anonymous segment_ok walks emits =>
    rw [(Frontier.ChainEmits.parts emits).1] at hm
    simp only [List.mem_cons, reduceCtorEq, false_or] at hm
    exact hchain (structural_of_pattern edge kind) walks hm
  | @argumentEdge _ e name em bs edge kind named far =>
    exact hfar (structural_of_argument edge kind) far hm
  | @namedEdge _ e name em bs edge kind named identity far =>
    exact hfar (structural_of_pattern edge kind) far hm

/-- Where a node was visited, the start of its component was visited. -/
def EntersAtStarts (g₀ : PatternGraph) (visited : List Handle) : Prop :=
  ∀ n s, .node n ∈ visited → g₀.IsStart s → g₀.Joined s n → .node s ∈ visited

/-- Every visit enters components at their starts. -/
theorem EntersAtStarts.visit (hr : Rooted cx g₀ g) (hv : EntersAtStarts g₀ visited) {x : Entry}
    {em : Emission} {bs : List Handle} (hf : Frontier g₀ g visited binds (x :: rest))
    (h : Emits cx g (x.handle :: visited) x em bs) :
    EntersAtStarts g₀ (em.marks ++ x.handle :: visited) := by
  intro n s hn hs hj
  have hold : ∀ {m}, Handle.node m ∈ visited → g₀.Joined s m →
      Handle.node s ∈ em.marks ++ x.handle :: visited := by
    intro m hm hj
    exact List.mem_append_right _ (List.mem_cons_of_mem _ (hv m s hm hs hj))
  -- only a start enters a new component; an edge stays in the one it came from
  cases x with
  | along i =>
    have hthis := (hf.along i (by simp)).2.1
    rcases List.mem_append.1 hn with hn | hn
    · exact hold hthis (hj.trans (h.joined_marks hr hf hn).symm)
    · simp only [Entry.handle, List.mem_cons, reduceCtorEq, false_or] at hn
      exact hold hn hj
  | node m =>
    have hmarks : em.marks = [] := by cases h <;> rfl
    rw [hmarks, List.nil_append] at hn ⊢
    simp only [Entry.handle, List.mem_cons, Handle.node.injEq] at hn
    rcases hn with rfl | hn
    · rcases hf.enter n (by simp) with rfl | hstart
      · exact absurd hj (Frontier.not_joined_anchor hr hs)
      · rw [hs.eq_of_joined hstart hj]
        simp [Entry.handle]
    · exact List.mem_cons_of_mem _ (hv n s hn hs hj)

/-- A component that starts with an argument binds it. -/
theorem Explores.assigns (hr : Rooted cx g₀ g) {stack : List Entry} {steps : List Step}
    {visited' binds' : List Handle}
    (h : Explores cx g₀ g visited binds stack steps visited' binds')
    (hv : EntersAtStarts g₀ visited) {s : NodeId} {nd : PatternNode} {name : String}
    (hs : g₀.IsStart s) (hnode : g.node? s = some nd) (hk : nd.kind = .argument)
    (hname : nd.name? = some name) (hnew : .node s ∉ visited) (hend : .node s ∈ visited') :
    .assign name (.argument name) ∈ steps := by
  induction h with
  | done => exact absurd hend hnew
  | skip _ _ ih => exact ih hv hnew hend
  | @visit visited binds visited' binds' own x em rest steps frontier fresh emits _ ih =>
    by_cases hmem : .node s ∈ em.marks ++ x.handle :: visited
    · refine List.mem_append_left _ ?_
      cases x with
      | along i =>
        -- an edge only leads to nodes of components that were entered
        exfalso
        rcases List.mem_append.1 hmem with hmem | hmem
        · have hthis := (frontier.along i (by simp)).2.1
          exact hnew (hv _ s hthis hs (emits.joined_marks hr frontier hmem).symm)
        · simp only [Entry.handle, List.mem_cons, reduceCtorEq, false_or] at hmem
          exact hnew hmem
      | node m =>
        have hmarks : em.marks = [] := by cases emits <;> rfl
        rw [hmarks, List.nil_append] at hmem
        simp only [Entry.handle, List.mem_cons, Handle.node.injEq] at hmem
        obtain rfl := hmem.resolve_right hnew
        cases emits with
        | anchor node kind =>
          rw [hnode] at node
          cases node
          rw [hk] at kind
          rcases kind with kind | kind <;> cases kind
        | place node kind =>
          rw [hnode] at node
          cases node
          rw [hk] at kind
          cases kind
        | argument node kind named =>
          rw [hnode] at node
          cases node
          rw [hname] at named
          cases named
          simp
    · exact List.mem_append_right _ (ih (hv.visit hr frontier emits) hmem hend)

-- ---------------------------------------------------------------------------
-- Every edge in one direction
-- ---------------------------------------------------------------------------

/-- When every edge was passed, the passages are the edges, each in some direction. -/
theorem Passes.directions {marks : List Handle} {ps : List Passage} (h : Passes g [] marks ps)
    (hall : ∀ k e, g.edge? k = some e → .edge k ∈ marks) :
    ∃ d : Nat → Direction, ps.Perm (g.edges.zipIdx.map fun x => ⟨⟨x.2⟩, x.1, d x.2⟩) := by
  refine ⟨fun k => ((ps.find? fun p => p.id.index == k).map Passage.direction).getD .out, ?_⟩
  -- each edge is passed once, so the direction it was passed in is determined
  have hinj : ∀ p ∈ ps, ∀ q ∈ ps, p.id = q.id → p = q := List.inj_on_of_nodup_map h.nodup
  refine (List.perm_ext_iff_of_nodup (.of_map _ h.nodup) ?_).2 fun p => ?_
  · refine .of_map (fun q : Passage => q.id.index) ?_
    rw [List.map_map]
    exact List.nodup_zipIdx_map_snd _
  have hfind : ∀ q ∈ ps, ps.find? (fun p => p.id.index == q.id.index) = some q := by
    intro q hq
    obtain ⟨r, hr⟩ : ∃ r, ps.find? (fun p => p.id.index == q.id.index) = some r :=
      Option.isSome_iff_exists.1 (List.find?_isSome.2 ⟨q, hq, beq_self_eq_true _⟩)
    have hid : r.id.index = q.id.index := by
      simpa using List.find?_some hr
    rw [hr, hinj r (List.mem_of_find?_eq_some hr) q hq (congrArg EdgeId.mk hid)]
  constructor
  · -- a passage is of the edge that its number stands for
    intro hp
    refine List.mem_map.2 ⟨(p.edge, p.id.index), List.mem_zipIdx_iff_getElem?.2 (h.edge p hp), ?_⟩
    simp only [hfind p hp, Option.map_some, Option.getD_some]
  · -- and every edge was passed, since all are marked
    intro hp
    obtain ⟨⟨e, k⟩, hmem, rfl⟩ := List.mem_map.1 hp
    have he : g.edge? ⟨k⟩ = some e := List.mem_zipIdx_iff_getElem?.1 hmem
    obtain ⟨q, hq, hid⟩ := List.mem_map.1 ((h.marked ⟨k⟩).1 (hall ⟨k⟩ e he))
    have hk : q.id.index = k := by rw [hid]
    have hqe : q.edge = e := by
      have := h.edge q hq
      rw [hid, he] at this
      exact (Option.some.inj this).symm
    have hfound := hfind q hq
    rw [hk] at hfound
    simp only [hfound, Option.map_some, Option.getD_some]
    obtain ⟨id, edge, direction⟩ := q
    cases hid
    cases hqe
    exact hq

end Plan

namespace PatternGraph

variable {cx : Context} {g g₀ g₁ g₂ : PatternGraph}

/-- What start edges leave out is left by the edges that were there before. -/
theorem Anchors.filterMap_edges (h : Anchors g₀ g) {β : Type} (f : PatternEdge × Nat → Option β)
    (hf : ∀ n k, f (startEdge n, k) = none) :
    g.edges.zipIdx.filterMap f = g₀.edges.zipIdx.filterMap f := by
  have hstarts : ((g₀.starts.map startEdge).zipIdx (0 + g₀.edges.length)).filterMap f = [] := by
    rw [List.filterMap_eq_nil_iff]
    rintro ⟨e, k⟩ hmem
    obtain ⟨n, -, rfl⟩ := List.mem_map.1 (List.fst_mem_of_mem_zipIdx hmem)
    exact hf n k
  rw [h.edges, List.zipIdx_append, List.filterMap_append, hstarts, List.append_nil]

theorem hung?_eq_of_nodes_eq (h : g₁.nodes = g.nodes) : g₁.hung? = g.hung? := by
  funext e
  simp only [hung?, node?_of_nodes_eq h]

theorem nearEndTest?_eq_of_nodes_eq (h : g₁.nodes = g.nodes) :
    g₁.nearEndTest? = g.nearEndTest? := by
  funext e d
  simp only [nearEndTest?, Plan.varOf, node?_of_nodes_eq h]

-- ---------------------------------------------------------------------------
-- Constraints and the edges to them
-- ---------------------------------------------------------------------------

/-- The constraints that edges lead to, in the order of the edges. -/
def hung (g : PatternGraph) : List Constraint :=
  g.edges.filterMap g.hung?

/-- What is added to a graph leaves its edges to the constraints they lead to. -/
theorem Regular.hung_append (hg : g.Regular cx) (h : g.Extends g₁) {es : List PatternEdge}
    (hedges : g₁.edges = g.edges ++ es) : g₁.hung = g.hung ++ es.filterMap g₁.hung? := by
  rw [hung, hedges, List.filterMap_append]
  congr 1
  refine List.filterMap_congr fun e he => ?_
  by_cases hk : e.kind = .precedes
  · have hfits := hg.edge e he
    rw [EdgeFits, hk] at hfits
    rw [hung?, hung?, h.node? hfits.2.1]
  · rw [hung?, hung?, if_neg hk, if_neg hk]

namespace Reading

/-- Every constraint hangs on one edge, which was made with it. -/
theorem Reads.hung {r : Reading} {ts : List Token} {hs : List Handle} (h : Reads cx r ts hs g)
    (hr : Sound cx r) (hts : Token.Visible ts) (heq : r.graph.hung = r.graph.constraints) :
    g.hung = g.constraints := by
  -- along the reading: only a constraint adds an edge that hangs one on
  induction h with
  | done => exact heq
  | @constraint r r' t ts hs g step _ ih =>
    refine ih (hr.constrain step).1 (fun t ht => hts t (List.mem_cons_of_mem _ ht)) ?_
    have hext := (hr.constrain step).2
    obtain ⟨k, hadd, -⟩ := constrain_ok step
    have hnodes : r'.graph.nodes = r.graph.nodes ++ [constraintNode t] := nodes_of_addEdge hadd
    have hedges : r'.graph.edges = r.graph.edges ++
        [precedesEdge (r.lastConstraint?.getD r.current) ⟨r.graph.nodes.length⟩] := by
      rw [edges_of_addEdge hadd]
      rfl
    -- the new edge hangs on the constraint just read
    have hnew : r'.graph.hung? (precedesEdge (r.lastConstraint?.getD r.current)
        ⟨r.graph.nodes.length⟩) = some t.constraint := by
      have hnode : r'.graph.node? ⟨r.graph.nodes.length⟩ = some (constraintNode t) := by
        rw [node?_of_nodes_eq (nodes_of_addEdge hadd), node?_addNode_length]
      rw [hung?, if_pos (by rfl)]
      exact congrArg (Option.bind · (·.constraint?)) hnode
    rw [hr.regular.hung_append hext hedges, heq, List.filterMap_cons_some hnew,
      List.filterMap_nil, PatternGraph.constraints, PatternGraph.constraints, hnodes,
      List.filterMap_append]
    rfl
  | @node r t n g₁ g ts hs step _ ih =>
    obtain ⟨hreg, hext, hplace⟩ := hr.regular.resolve (hts (.node t) (by simp)) step
    refine ih ⟨hreg, .inr hplace, ?_⟩ (fun t ht => hts t (List.mem_cons_of_mem _ ht)) ?_
    · intro c hc
      cases hc
    · have hedges : g₁.edges = r.graph.edges ++ [] := by simp [edges_of_resolve step]
      rw [hr.regular.hung_append hext hedges, heq, constraints_resolve step]
      simp
  | @edge r t next n g₁ g₂ g ts hs source target step _ ih =>
    obtain ⟨hreg₁, hext, hplace⟩ := hr.regular.resolve (hts (.node next) (by simp)) target
    have hcur : g₁.IsPlace r.current := hext.isPlace (hr.isPlace_current source)
    obtain ⟨hreg₂, hext₂⟩ := hreg₁.connect hcur hplace (hts (.edge t) (by simp)) step
    refine ih ⟨hreg₂, .inr (hext₂.isPlace hplace), ?_⟩ (fun t ht => hts t (by simp [ht])) ?_
    · intro c hc
      cases hc
    · obtain ⟨-, k, hadd⟩ := connect_ok step
      have hedges : g₂.edges = r.graph.edges ++ [placeEdge cx t r.current n] := by
        rw [edges_of_addEdge hadd, edges_of_resolve target]
      -- an edge between places hangs on none
      have hnone : g₂.hung? (placeEdge cx t r.current n) = none := by
        rw [hung?, if_neg]
        exact placeEdge_kind_ne cx t _ _ rfl
      rw [hr.regular.hung_append (hext.trans hext₂) hedges, heq, List.filterMap_cons_none hnone,
        constraints_of_nodes_eq (nodes_of_addEdge hadd), constraints_resolve target]
      simp

end Reading

end PatternGraph

/-- The constraints that the edges of the graph of a pattern lead to are those of its tokens. -/
theorem Context.hung_of_anchoredGraph {cx : Context} {g : PatternGraph} {ts : List Token}
    (h : cx.anchoredGraph = .ok g) (hts : Token.classify cx.elements = .ok ts) :
    (g.edges.zipIdx.filterMap fun x => g.hung? x.1) = Token.constraints ts := by
  obtain ⟨ts', g₀, hts', hg₀, hr⟩ := rooted_of_anchoredGraph h
  rw [hts] at hts'
  cases hts'
  obtain ⟨hs, hreads⟩ := Reading.reads_of_run hg₀
  rw [hung?_eq_of_nodes_eq hr.anchors.nodes, hr.anchors.filterMap_edges _ fun n k => rfl,
    ← constraints_of_anchoredGraph h hts, constraints_of_nodes_eq hr.anchors.nodes,
    ← hreads.hung (.start cx) (Token.visible_of_classify hts) rfl]
  have hfst : g₀.edges = g₀.edges.zipIdx.map Prod.fst := (List.zipIdx_map_fst 0 _).symm
  rw [hung]
  conv_rhs => rw [hfst, List.filterMap_map]
  rfl

-- ---------------------------------------------------------------------------
-- What is bound, and where
-- ---------------------------------------------------------------------------

namespace Plan

variable {cx : Context} {g g₀ : PatternGraph} {s : Step} {name : String}

theorem mem_boundNames_of_binds (h : s.binds name = true) : name ∈ s.boundNames := by
  cases s with
  | generate | assign => exact List.mem_singleton.2 (eq_of_beq h).symm
  | assignAll | guard | whilst | foreign => cases h

/-- What a constraint binds is bound by a call. -/
theorem binds_of_mem_steps {c : Constraint} (h : s ∈ c.steps) (hn : name ∈ s.boundNames) :
    name ∈ c.names ∧ ∃ f, s = .assign name (.call f) := by
  cases c with
  | when | whilst =>
    rw [List.mem_singleton.1 h] at hn
    cases hn
  | bind bs =>
    obtain ⟨b, hb, rfl⟩ := List.mem_map.1 h
    rw [List.mem_singleton.1 hn]
    exact ⟨List.mem_map_of_mem hb, b.2, rfl⟩

theorem exists_step_of_mem_names {c : Constraint} (h : name ∈ c.names) :
    ∃ f, .assign name (.call f) ∈ c.steps := by
  cases c with
  | when | whilst => cases h
  | bind bs =>
    obtain ⟨b, hb, rfl⟩ := List.mem_map.1 h
    exact ⟨b.2, List.mem_map.2 ⟨b, hb, rfl⟩⟩

theorem mem_nodes_of_node? {n : NodeId} {nd : PatternNode} (h : g.node? n = some nd) :
    nd ∈ g.nodes := by
  obtain ⟨i, -, hi⟩ := Option.bind_eq_some_iff.1 h
  exact List.mem_of_getElem? hi

theorem exists_node_of_mem {nd : PatternNode} (h : nd ∈ g.nodes) :
    ∃ n, g.IsNode n ∧ g.node? n = some nd := by
  obtain ⟨i, hi⟩ := List.getElem?_of_mem h
  exact ⟨⟨i⟩, ⟨i, rfl, (List.getElem?_eq_some_iff.1 hi).1⟩, by rw [node?_natCast, hi]⟩

/-- What can be bound is declared, if its variable is not hidden. -/
theorem declares_of_fillable (hr : Rooted cx g₀ g) {h : Handle} (hf : Fillable g h)
    (hv : isHiddenName (h.variable g) = false) : g₀.Declares (h.variable g) := by
  cases h with
  | node n =>
    obtain ⟨hplace, nd, hnode, hk⟩ := hf
    cases hname : nd.name? with
    -- a place without a name has a hidden variable, against the assumption
    | none =>
      have hunnamed : g.Unnamed (.node n) := by
        rintro name ⟨-, hname'⟩
        rw [hnode, Option.bind_some, hname] at hname'
        cases hname'
      have hhidden := isHiddenName_varOf hplace.1 hunnamed
      rw [show varOf g n = (Handle.node n).variable g from rfl, hv] at hhidden
      cases hhidden
    | some own =>
      have hvar : (Handle.node n).variable g = own :=
        variable_named ⟨hplace.1, by rw [hnode]; exact hname⟩
      rw [hvar]
      refine .inl ⟨nd, ?_, hk, hname⟩
      rw [← hr.anchors.nodes]
      exact mem_nodes_of_node? hnode
  | edge k =>
    obtain ⟨e, he, hk, hsome⟩ := hf
    obtain ⟨own, hown⟩ := Option.isSome_iff_exists.1 hsome
    rw [variable_edge ((hasName_edge_iff he).2 hown)]
    refine .inr ⟨e, ?_, hk, hown⟩
    -- the edges added for the anchors are to starts, and no such edge can be found
    rcases hr.anchors.edge?_cases he with hold | ⟨n, -, rfl⟩
    · exact List.mem_of_getElem? hold
    · cases hk

/-- What is declared is the name of something that is no argument, and no name of one. -/
theorem hasName_of_declares (hr : Rooted cx g₀ g) (h : g₀.Declares name) :
    name ∉ cx.arguments ∧ ∃ b, g.HasName b name ∧ ¬ g.IsArgument b := by
  -- a node's name or an edge's, neither of an argument's kind
  rcases h with ⟨nd, hmem, hk, hname⟩ | ⟨e, hmem, hk, hname⟩
  · rw [← hr.anchors.nodes] at hmem
    obtain ⟨n, hn, hnode⟩ := exists_node_of_mem hmem
    have hfits := hr.regular.node n nd hn hnode
    rw [NodeFits, hk] at hfits
    refine ⟨hfits name hname, .node n, ⟨hn, by rw [hnode]; exact hname⟩, ?_⟩
    rintro ⟨-, nd', hnode', hk'⟩
    rw [hnode] at hnode'
    cases hnode'
    rw [hk] at hk'
    cases hk'
  · have hmem : e ∈ g.edges := by
      rw [hr.anchors.edges]
      exact List.mem_append_left _ hmem
    have hfits := hr.regular.edge e hmem
    rw [EdgeFits, hk] at hfits
    obtain ⟨k, he⟩ := List.getElem?_of_mem hmem
    have he : g.edge? ⟨k⟩ = some e := he
    refine ⟨hfits.2.2 name hname, .edge ⟨k⟩, (hasName_edge_iff he).2 hname, ?_⟩
    rintro ⟨e', he', hk'⟩
    rw [he] at he'
    cases he'
    rw [hk] at hk'
    cases hk'

/-- A name that is bound and not hidden is bound to a form, declared, or that of an argument. -/
theorem Origin.bound (hr : Rooted cx g₀ g) (h : Origin g₀ g s) (hn : name ∈ s.boundNames)
    (hv : isHiddenName name = false) :
    s.callsForm = true ∨ g₀.Declares name ∨
      (g₀.StartsAt name ∧ s = .assign name (.argument name)) := by
  cases h with
  | test binds =>
    rw [binds] at hn
    cases hn
  | form calls => exact .inl calls
  | found fillable binds =>
    rw [binds, List.mem_singleton] at hn
    subst hn
    exact .inr (.inl (declares_of_fillable hr fillable hv))
  | @supplied n nd own start node kind named =>
    obtain rfl := List.mem_singleton.1 hn
    rw [node?_of_nodes_eq hr.anchors.nodes] at node
    exact .inr (.inr ⟨⟨n, nd, start, node, kind, named⟩, rfl⟩)

-- ---------------------------------------------------------------------------
-- Compiled plans
-- ---------------------------------------------------------------------------

/-- What is checked of a plan in the end leaves calls of forms no argument to bind. -/
theorem not_mem_of_reboundArgument? {steps : List Step} {arguments : List String} {f : Form}
    (h : steps.findSome? (reboundArgument? arguments) = none)
    (hmem : .assign name (.call f) ∈ steps) : name ∉ arguments := by
  have hnone := List.findSome?_eq_none_iff.1 h _ hmem
  intro harg
  simp [reboundArgument?, harg] at hnone

/-- A finished plan: where its steps come from, what they ask and bind, and what was checked. -/
structure Surveyed (cx : Context) (ts : List Token) (g₀ g : PatternGraph) (plan : Plan) :
    Prop where
  rooted : Rooted cx g₀ g
  origin : ∀ s ∈ plan.steps, Origin g₀ g s
  single : ∀ s ∈ plan.steps, ∀ bs, s ≠ .assignAll bs
  asked : (plan.steps.filter Step.callsForm).Perm
    ((Token.constraints ts).flatMap Constraint.steps)
  declared : ∀ name, g₀.Declares name → name ∈ plan.boundNames
  started : ∀ name, g₀.StartsAt name → .assign name (.argument name) ∈ plan.steps
  distinct : plan.boundNames.Nodup
  checked : plan.steps.findSome? (reboundArgument? cx.arguments) = none

namespace Surveyed

variable {ts : List Token} {plan : Plan}

theorem countP_binds (h : Surveyed cx ts g₀ g plan) (name : String) :
    plan.steps.countP (·.binds name) = plan.boundNames.count name :=
  Plan.countP_binds h.single name

/-- What calls a form is a step of a constraint. -/
theorem exists_constraint (h : Surveyed cx ts g₀ g plan) (hs : s ∈ plan.steps)
    (hcalls : s.callsForm = true) : ∃ c ∈ Token.constraints ts, s ∈ c.steps :=
  List.mem_flatMap.1 (h.asked.mem_iff.1 (List.mem_filter.2 ⟨hs, hcalls⟩))

/-- An argument is bound to its supplied value only. -/
theorem supplied (h : Surveyed cx ts g₀ g plan) (hs : s ∈ plan.steps)
    (harg : name ∈ cx.arguments) (hv : isHiddenName name = false) (hbinds : s.binds name = true) :
    s = .assign name (.argument name) := by
  have hn := mem_boundNames_of_binds hbinds
  rcases (h.origin s hs).bound h.rooted hn hv with hcalls | hname | ⟨-, rfl⟩
  · obtain ⟨c, -, hc⟩ := h.exists_constraint hs hcalls
    obtain ⟨-, f, rfl⟩ := binds_of_mem_steps hc hn
    exact absurd harg (not_mem_of_reboundArgument? h.checked hs)
  · exact absurd harg (hasName_of_declares h.rooted hname).1
  · rfl

/-- Where a component starts with an argument, the argument is bound once. -/
theorem count_assign (h : Surveyed cx ts g₀ g plan) (hname : g₀.StartsAt name) :
    plan.steps.count (.assign name (.argument name)) = 1 := by
  have hone : plan.steps.countP (·.binds name) ≤ 1 := by
    rw [h.countP_binds]
    exact List.nodup_iff_count_le_one.1 h.distinct name
  have hle : plan.steps.count (.assign name (.argument name)) ≤
      plan.steps.countP (·.binds name) := by
    refine List.countP_mono_left fun s _ hs => ?_
    rw [eq_of_beq hs]
    exact beq_self_eq_true name
  exact Nat.le_antisymm (Nat.le_trans hle hone) (List.count_pos_iff.2 (h.started name hname))

/-- Supplied values are bound where components start, to the names of their arguments. -/
theorem starts (h : Surveyed cx ts g₀ g plan) {n : String}
    (hmem : .assign n (.argument name) ∈ plan.steps) : n = name ∧ g₀.StartsAt name := by
  cases h.origin _ hmem with
  | test binds => cases binds
  | form calls => cases calls
  | found fillable binds assigned => exact absurd rfl ((assigned n _ rfl).1 name)
  | supplied start node kind named =>
    rw [node?_of_nodes_eq h.rooted.anchors.nodes] at node
    exact ⟨rfl, _, _, start, node, kind, named⟩

/-- What is bound, besides hidden variables. -/
theorem mem_boundNames_iff (h : Surveyed cx ts g₀ g plan) (hv : isHiddenName name = false) :
    name ∈ plan.boundNames ↔
      g₀.Declares name ∨ g₀.StartsAt name ∨
        name ∈ (Token.constraints ts).flatMap Constraint.names := by
  have hbound : ∀ {s}, s ∈ plan.steps → name ∈ s.boundNames → name ∈ plan.boundNames :=
    fun hs hn => List.mem_flatMap.2 ⟨_, hs, hn⟩
  constructor
  · intro hmem
    obtain ⟨s, hs, hn⟩ := List.mem_flatMap.1 hmem
    rcases (h.origin s hs).bound h.rooted hn hv with hcalls | hname | ⟨hname, -⟩
    · obtain ⟨c, hc, hstep⟩ := h.exists_constraint hs hcalls
      exact .inr (.inr (List.mem_flatMap.2 ⟨c, hc, (binds_of_mem_steps hstep hn).1⟩))
    · exact .inl hname
    · exact .inr (.inl hname)
  · rintro (hname | hname | hname)
    · exact h.declared name hname
    · exact hbound (h.started name hname) (List.mem_singleton.2 rfl)
    · obtain ⟨c, hc, hname⟩ := List.mem_flatMap.1 hname
      obtain ⟨f, hstep⟩ := exists_step_of_mem_names hname
      have hmem := h.asked.mem_iff.2 (List.mem_flatMap.2 ⟨c, hc, hstep⟩)
      exact hbound (List.mem_filter.1 hmem).1 (List.mem_singleton.2 rfl)

end Surveyed

/-- In the end every edge of the graph was passed, and the traces in the plan are theirs. -/
theorem traced_of_ofGraph (hr : Rooted cx g₀ g) {p : Plan} (h : ofGraph cx g = .ok p) :
    ∃ (ps : List Passage) (d : Nat → Direction), Traced g ps p.steps ∧
      ps.Perm (g.edges.zipIdx.map fun x => ⟨⟨x.2⟩, x.1, d x.2⟩) := by
  obtain ⟨-, -, -, visited, binds, hexplores, hf⟩ := explores_of_ofGraph hr h
  obtain ⟨marks, ps, rfl, hpasses, htraced⟩ := hexplores.passes hr
  rw [List.append_nil] at hf
  obtain ⟨d, hd⟩ := hpasses.directions (hf.complete hr).2
  exact ⟨ps, d, htraced, hd⟩

/-- The start of every component that starts with an argument binds it. -/
theorem mem_steps_of_startsAt (hr : Rooted cx g₀ g) {p : Plan} (h : ofGraph cx g = .ok p)
    (hname : g₀.StartsAt name) : .assign name (.argument name) ∈ p.expanded.steps := by
  obtain ⟨-, -, -, visited, binds, hexplores, hf⟩ := explores_of_ofGraph hr h
  obtain ⟨n, nd, hs, hnode, hk, hown⟩ := hname
  rw [← node?_of_nodes_eq hr.anchors.nodes] at hnode
  have hvisited := (hf.complete hr).1 n (hr.anchors.extended.isNode hs.isNode)
  have hmem := hexplores.assigns hr (by simp [EntersAtStarts]) hs hnode hk hown (by simp) hvisited
  exact List.mem_flatMap.2 ⟨_, hmem, by simp [Step.expanded]⟩

/-- What the plan of a graph calls are the constraints of its pattern. -/
theorem calls_of_ofGraph {ts : List Token} {p : Plan} (hr : Rooted cx g₀ g)
    (hg : cx.anchoredGraph = .ok g) (hts : Token.classify cx.elements = .ok ts)
    (h : ofGraph cx g = .ok p) :
    (p.expanded.steps.filter Step.callsForm).Perm
      ((Token.constraints ts).flatMap Constraint.steps) := by
  obtain ⟨ps, d, htraced, hd⟩ := traced_of_ofGraph hr h
  refine htraced.forms.trans (.flatMap_right _ ((hd.filterMap _).trans ?_))
  rw [List.filterMap_map, ← Context.hung_of_anchoredGraph hg hts]
  exact .refl _

/-- The plan of a graph is surveyed once it was checked. -/
theorem surveyed_of_check {ts : List Token} {p : Plan} (hr : Rooted cx g₀ g)
    (hg : cx.anchoredGraph = .ok g) (hts : Token.classify cx.elements = .ok ts)
    (h : ofGraph cx g = .ok p) (hcheck : p.expanded.check cx g = .ok ()) :
    Surveyed cx ts g₀ g p.expanded := by
  obtain ⟨hrepeated, hrebound, -⟩ := check_ok hcheck
  obtain ⟨-, -, -, visited, binds, hexplores, -⟩ := explores_of_ofGraph hr h
  refine { rooted := hr, origin := hexplores.origin hr, single := ?_,
           asked := calls_of_ofGraph hr hg hts h, declared := ?_,
           started := fun name hname => mem_steps_of_startsAt hr h hname,
           distinct := repeated_eq_nil_iff.1 hrepeated, checked := hrebound }
  · intro s hs bs
    obtain ⟨t, -, ht⟩ := List.mem_flatMap.1 hs
    exact ne_assignAll_of_mem_expanded ht bs
  · intro name hname
    obtain ⟨-, b, hb, harg⟩ := hasName_of_declares hr hname
    exact (mem_resultNames.1 (mem_resultNames_of_hasName hr h hb harg)).1

end Plan

/-- A compiled plan has everything of its pattern, and has it once. -/
theorem Context.exhausts_of_compile {cx : Context} {plan : Plan} (h : cx.compile = .ok plan) :
    ∃ ts g, Token.classify cx.elements = .ok ts ∧ PatternGraph.ofTokens cx ts = .ok g ∧
      plan.Exhausts cx ts g := by
  obtain ⟨g, p, hg, hp, hcheck, rfl⟩ := compile_ok h
  obtain ⟨ts, g₀, hts, hg₀, hr⟩ := rooted_of_anchoredGraph hg
  have hplan := Plan.surveyed_of_check hr hg hts hp hcheck
  obtain ⟨ps, d, htraced, hd⟩ := Plan.traced_of_ofGraph hr hp
  refine ⟨ts, g₀, hts, hg₀, ?_, fun s hs name => hplan.supplied hs,
    fun name => hplan.count_assign, fun n name => hplan.starts, ⟨d, ?_, ?_⟩, hplan.asked,
    hplan.distinct, fun name => hplan.mem_boundNames_iff⟩
  · intro name hname
    rw [hplan.countP_binds, List.count_eq_one_of_mem hplan.distinct (hplan.declared name hname)]
  · refine htraced.nearEnds.trans ((hd.filterMap _).trans ?_)
    rw [List.filterMap_map, nearEndTest?_eq_of_nodes_eq hr.anchors.nodes]
    exact .of_eq (hr.anchors.filterMap_edges _ fun n k => rfl)
  · rw [Plan.segments_expanded]
    refine htraced.segments.trans ((hd.filterMap _).trans ?_)
    rw [List.filterMap_map]
    exact .of_eq (hr.anchors.filterMap_edges _ fun n k => rfl)

/-- A form about a node. -/
def arrival : Form :=
  { id := "arrival", params? := some [{ name := "c" }] }

/-- A way along a given edge, a named one and one that has no name, to a node that is tested. -/
def onward : Context :=
  { arguments := ["a", "x"]
    elements := [.text "a", .text "-x->", .text "b", .text "-y->", .text "<>", .text "-->",
      .text "c", .text ":when", .form arrival]
    engine := .graph }

def onwardPlan : Plan :=
  { steps := [.assign "a" (.argument "a"),
      .guard (.equal (.var "a") (.edgeEnd (.var "x") .out false)),
      .assign "b" (.edgeEnd (.var "x") .out true), .guard (.present (.var "b")),
      .generate "y" (.adjacent (.var "b") .any .out),
      .generate "c" (.reachable (.edgeEnd (.var "y") .out true) [.step .out .any]),
      .guard (.call arrival)]
    arguments := ["a", "x"], engine := .graph }

/-- The way is compiled, and its plan has each of its parts once. -/
theorem Context.exhausts_of_compile_onward :
    onward.compile = .ok onwardPlan ∧
      ∃ ts g, Token.classify onward.elements = .ok ts ∧
        PatternGraph.ofTokens onward ts = .ok g ∧ onwardPlan.Exhausts onward ts g := by
  have hcompile : onward.compile = .ok onwardPlan := by cbv
  exact ⟨hcompile, exhausts_of_compile hcompile⟩

end GraphPattern
