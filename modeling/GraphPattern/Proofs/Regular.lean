import GraphPattern.Proofs.Connected
import GraphPattern.Problem
import GraphPattern.Plan

/-!
# GraphPattern — regular pattern graphs

What the graph of a pattern is like, whatever the pattern: which nodes and edges there are, what
they may be named, and what the names stand for. Graphs that come from tokens are regular, and
anchoring leaves them so.

* `PatternGraph.Regular.grow` — a regular graph stays regular when what is added is.
* `PatternGraph.Regular.anchors` — the anchored graph of a regular graph is regular.
* `PatternGraph.Regular.place_of_isStart` — components start at nodes of the pattern.
-/

namespace GraphPattern

namespace PatternGraph

variable {cx : Context} {g g' : PatternGraph}

/-- A node that stands for a vertex or an object of the model. -/
def IsPlace (g : PatternGraph) (n : NodeId) : Prop :=
  g.IsNode n ∧ ∃ nd, g.node? n = some nd ∧ (nd.kind = .pattern ∨ nd.kind = .argument)

/-- A constraint of the pattern. -/
def IsConstraint (g : PatternGraph) (n : NodeId) : Prop :=
  g.IsNode n ∧ ∃ nd, g.node? n = some nd ∧ nd.kind = .constraint

/-- A node or an edge of the graph that has a name. -/
def HasName (g : PatternGraph) : Handle → String → Prop
  | .node n, name => g.IsNode n ∧ (g.node? n).bind (·.name?) = some name
  | .edge k, name => (g.edge? k).bind (·.name?) = some name

theorem hasName_edge_iff {k : EdgeId} {e : PatternEdge} {name : String}
    (he : g.edge? k = some e) : g.HasName (.edge k) name ↔ e.name? = some name := by
  rw [HasName, he, Option.bind_some]

/-- The names stand for the nodes and edges that have them, and for nothing else. -/
def NamesAgree (g : PatternGraph) : Prop :=
  ∀ name h, g.named? name = some h ↔ g.HasName h name

/-- What a node of each kind is like. -/
def NodeFits (cx : Context) (g : PatternGraph) (n : NodeId) (nd : PatternNode) : Prop :=
  match nd.kind with
  | .anchor => n = g.anchor ∧ nd.name? = none
  | .pattern => ∀ name, nd.name? = some name → name ∉ cx.arguments
  | .argument => nd.typeName? = none ∧ ∃ name ∈ cx.arguments, nd.name? = some name
  | .constraint => nd.name? = none ∧ nd.constraint?.isSome ∧
      ∃ e ∈ g.edges, e.kind = .precedes ∧ e.omega = n ∧ e.alpha.index < n.index

/-- What an edge of each kind is like. -/
def EdgeFits (cx : Context) (g : PatternGraph) (e : PatternEdge) : Prop :=
  match e.kind with
  | .start => e.name? = none ∧ e.alpha = g.anchor ∧ g.IsPlace e.omega
  | .precedes => e.name? = none ∧ g.IsConstraint e.omega
  | .pattern => g.IsPlace e.alpha ∧ g.IsPlace e.omega ∧
      ∀ name, e.name? = some name → name ∉ cx.arguments
  | .argument => g.IsPlace e.alpha ∧ g.IsPlace e.omega ∧
      ∃ name ∈ cx.arguments, e.name? = some name

/-- At most one edge leads to a constraint, and at most one leads on from it. -/
def Chained (g : PatternGraph) : Prop :=
  ∀ i j, g.Incident i → g.Incident j → g.IsConstraint i.this → j.this = i.this →
    j.direction = i.direction → j = i

/-- A graph as patterns make it. -/
structure Regular (cx : Context) (g : PatternGraph) : Prop where
  consistent : g.Consistent
  anchor : ∃ nd, g.node? g.anchor = some nd ∧ nd.kind = .anchor
  node : ∀ n nd, g.IsNode n → g.node? n = some nd → g.NodeFits cx n nd
  edge : ∀ e ∈ g.edges, g.EdgeFits cx e
  names : g.NamesAgree
  visible : ∀ h name, g.HasName h name → isHiddenName name = false
  chained : g.Chained

/-! ## Growing -/

theorem isNode_of_nodes_eq (hnodes : g'.nodes = g.nodes) (n : NodeId) :
    g'.IsNode n ↔ g.IsNode n := by
  simp only [IsNode, hnodes]

theorem node?_of_nodes_eq (hnodes : g'.nodes = g.nodes) (n : NodeId) :
    g'.node? n = g.node? n := by
  simp only [PatternGraph.node?, placeOf?, hnodes]

theorem edge?_append {e : PatternEdge} (hedges : g'.edges = g.edges ++ [e]) (k : EdgeId) :
    g'.edge? k = if k = ⟨g.edges.length⟩ then some e else g.edge? k := by
  obtain ⟨k⟩ := k
  show g'.edges[k]? = if (⟨k⟩ : EdgeId) = ⟨g.edges.length⟩ then some e else g.edges[k]?
  rw [hedges]
  by_cases hk : k = g.edges.length
  · subst hk
    rw [if_pos rfl, List.getElem?_append_right (Nat.le_refl _), Nat.sub_self]
    rfl
  · have hne : (⟨k⟩ : EdgeId) ≠ ⟨g.edges.length⟩ := fun h => hk (EdgeId.mk.inj h)
    rw [if_neg hne]
    by_cases hlt : k < g.edges.length
    · rw [List.getElem?_append_left hlt]
    · have hout : (g.edges ++ [e]).length ≤ k := by
        rw [List.length_append, List.length_singleton]
        omega
      rw [List.getElem?_eq_none hout, List.getElem?_eq_none (by omega)]

/-- The second graph has everything that the first one has, under the same handles. -/
structure Extends (g g' : PatternGraph) : Prop where
  nodes : g.nodes <+: g'.nodes
  edges : g.edges <+: g'.edges

namespace Extends

theorem refl (g : PatternGraph) : g.Extends g :=
  ⟨List.prefix_rfl, List.prefix_rfl⟩

theorem trans {g'' : PatternGraph} (h : g.Extends g') (h' : g'.Extends g'') : g.Extends g'' :=
  ⟨h.nodes.trans h'.nodes, h.edges.trans h'.edges⟩

theorem isNode (h : g.Extends g') {n : NodeId} (hn : g.IsNode n) : g'.IsNode n := by
  obtain ⟨i, rfl, hi⟩ := hn
  exact ⟨i, rfl, Nat.lt_of_lt_of_le hi h.nodes.length_le⟩

theorem node? (h : g.Extends g') {n : NodeId} (hn : g.IsNode n) : g'.node? n = g.node? n := by
  obtain ⟨i, rfl, hi⟩ := hn
  obtain ⟨t, ht⟩ := h.nodes
  rw [node?_natCast, node?_natCast, ← ht, List.getElem?_append_left hi]

theorem edge? (h : g.Extends g') {k : EdgeId} {e : PatternEdge} (he : g.edge? k = some e) :
    g'.edge? k = some e := by
  obtain ⟨t, ht⟩ := h.edges
  have hk : k.index < g.edges.length := (List.getElem?_eq_some_iff.1 he).1
  show g'.edges[k.index]? = some e
  rw [← ht, List.getElem?_append_left hk]
  exact he

theorem isPlace (h : g.Extends g') {n : NodeId} (hn : g.IsPlace n) : g'.IsPlace n := by
  obtain ⟨hnode, nd, hnd, hkind⟩ := hn
  exact ⟨h.isNode hnode, nd, by rw [h.node? hnode, hnd], hkind⟩

/-- A node that was there before stands for what it stood for. -/
theorem isPlace_before (h : g.Extends g') {n : NodeId} (hn : g.IsNode n) (hp : g'.IsPlace n) :
    g.IsPlace n := by
  obtain ⟨-, nd, hnd, hkind⟩ := hp
  exact ⟨hn, nd, by rw [← h.node? hn, hnd], hkind⟩

theorem isConstraint (h : g.Extends g') {n : NodeId} (hn : g.IsConstraint n) :
    g'.IsConstraint n := by
  obtain ⟨hnode, nd, hnd, hkind⟩ := hn
  exact ⟨h.isNode hnode, nd, by rw [h.node? hnode, hnd], hkind⟩

theorem nodeFits (h : g.Extends g') {n : NodeId} {nd : PatternNode} (hn : g.NodeFits cx n nd) :
    g'.NodeFits cx n nd := by
  unfold NodeFits at *
  split at hn
  · exact hn
  · exact hn
  · exact hn
  · obtain ⟨hname, hc, e, he, hrest⟩ := hn
    exact ⟨hname, hc, e, h.edges.subset he, hrest⟩

theorem edgeFits (h : g.Extends g') {e : PatternEdge} (he : g.EdgeFits cx e) :
    g'.EdgeFits cx e := by
  unfold EdgeFits at *
  split at he
  · exact ⟨he.1, he.2.1, h.isPlace he.2.2⟩
  · exact ⟨he.1, h.isConstraint he.2⟩
  · exact ⟨h.isPlace he.1, h.isPlace he.2.1, he.2.2⟩
  · exact ⟨h.isPlace he.1, h.isPlace he.2.1, he.2.2⟩

end Extends

/-- A graph with some more edges has everything that the graph has. -/
theorem extends_of_edges {es : List PatternEdge} (hnodes : g'.nodes = g.nodes)
    (hedges : g'.edges = g.edges ++ es) : g.Extends g' :=
  ⟨hnodes ▸ List.prefix_rfl, hedges ▸ List.prefix_append _ _⟩

theorem extends_addNode (g : PatternGraph) (nd : PatternNode) : g.Extends (g.addNode nd).2 :=
  ⟨List.prefix_append _ _, List.prefix_rfl⟩

/-- A node of a graph with one more node is an old one or the new one. -/
theorem isNode_addNode {n : NodeId} (nd : PatternNode) :
    (g.addNode nd).2.IsNode n ↔ g.IsNode n ∨ n = ⟨g.nodes.length⟩ := by
  simp only [IsNode, addNode, List.length_append, List.length_singleton]
  constructor
  · rintro ⟨i, rfl, hi⟩
    rcases Nat.lt_succ_iff_lt_or_eq.1 hi with hi | rfl
    · exact .inl ⟨i, rfl, hi⟩
    · exact .inr rfl
  · rintro (⟨i, rfl, hi⟩ | rfl)
    · exact ⟨i, rfl, by omega⟩
    · exact ⟨_, rfl, by omega⟩

theorem node?_addNode_length (g : PatternGraph) (nd : PatternNode) :
    (g.addNode nd).2.node? ⟨g.nodes.length⟩ = some nd := by
  rw [node?_natCast]
  simp [addNode]

theorem not_isNode_length (g : PatternGraph) : ¬ g.IsNode ⟨g.nodes.length⟩ := by
  rintro ⟨i, hi, hlt⟩
  have : (g.nodes.length : Int) = i := by simpa using hi
  omega

/-- One more thing may have a name that stands for nothing yet. -/
theorem NamesAgree.define (h : g.NamesAgree) {name? : Option String} {h₀ : Handle}
    (hnames : g'.names = match name? with
      | some own => (own, h₀) :: g.names
      | none => g.names)
    (hfresh : ∀ name, name? = some name → g.named? name = none)
    (hhas : ∀ k name, g'.HasName k name ↔ g.HasName k name ∨ (k = h₀ ∧ name? = some name)) :
    g'.NamesAgree := by
  intro name k
  rw [hhas, ← h]
  cases name? with
  | none => simp only [named?, hnames, reduceCtorEq, and_false, or_false]
  | some own =>
    have hown : g.named? own = none := hfresh own rfl
    simp only [named?, Option.some.injEq] at hown ⊢
    rw [hnames, List.lookup_cons]
    by_cases heq : name = own
    · subst heq
      simp only [beq_self_eq_true, hown, reduceCtorEq, false_or, and_true, Option.some.injEq]
      exact eq_comm
    · have hne : own ≠ name := fun h => heq h.symm
      simp only [beq_eq_false_iff_ne.2 heq, hne, and_false, or_false]

/-- One more node adds its own name, if it has one. -/
theorem hasName_addNode_iff (nd : PatternNode) (h : Handle) (name : String) :
    (g.addNode nd).2.HasName h name ↔
      g.HasName h name ∨ (h = .node ⟨g.nodes.length⟩ ∧ nd.name? = some name) := by
  have hext := extends_addNode g nd
  cases h with
  | edge k => simp [HasName, PatternGraph.addNode, PatternGraph.edge?]
  | node n =>
    simp only [HasName, isNode_addNode, Handle.node.injEq]
    constructor
    · rintro ⟨hn | rfl, hname⟩
      · exact .inl ⟨hn, by rwa [hext.node? hn] at hname⟩
      · rw [node?_addNode_length] at hname
        exact .inr ⟨rfl, hname⟩
    · rintro (⟨hn, hname⟩ | ⟨rfl, hname⟩)
      · exact ⟨.inl hn, by rwa [hext.node? hn]⟩
      · exact ⟨.inr rfl, by rwa [node?_addNode_length]⟩

theorem NamesAgree.addNode (h : g.NamesAgree) {nd : PatternNode}
    (hfresh : ∀ name, nd.name? = some name → g.named? name = none) :
    (g.addNode nd).2.NamesAgree :=
  h.define rfl hfresh (hasName_addNode_iff nd)

/-- One more edge adds its own name, if it has one. -/
theorem hasName_addEdge_iff {e : PatternEdge} (hnodes : g'.nodes = g.nodes)
    (hedges : g'.edges = g.edges ++ [e]) (h : Handle) (name : String) :
    g'.HasName h name ↔
      g.HasName h name ∨ (h = .edge ⟨g.edges.length⟩ ∧ e.name? = some name) := by
  cases h with
  | node n => simp [HasName, IsNode, PatternGraph.node?, placeOf?, hnodes]
  | edge k =>
    simp only [HasName, edge?_append hedges, Handle.edge.injEq]
    by_cases heq : k = ⟨g.edges.length⟩
    · subst heq
      have hnone : g.edge? ⟨g.edges.length⟩ = none := List.getElem?_eq_none (Nat.le_refl _)
      simp [hnone]
    · simp [heq]

theorem NamesAgree.addEdge (h : g.NamesAgree) {e : PatternEdge}
    (hfresh : ∀ name, e.name? = some name → g.named? name = none)
    (hnodes : g'.nodes = g.nodes) (hedges : g'.edges = g.edges ++ [e])
    (hnames : g'.names = Consistent.namesWith g e) : g'.NamesAgree :=
  h.define hnames hfresh (hasName_addEdge_iff hnodes hedges)

/-- Edges that do not touch constraints leave the constraints as they are. -/
theorem Chained.mono (h : g.Chained)
    (hold : ∀ i, g'.Incident i → g'.IsConstraint i.this → g.Incident i ∧ g.IsConstraint i.this) :
    g'.Chained := by
  intro i j hi hj hc hthis hdir
  obtain ⟨hi', hc'⟩ := hold i hi hc
  obtain ⟨hj', -⟩ := hold j hj (hthis ▸ hc)
  exact h i j hi' hj' hc' hthis hdir

theorem Chained.addNode (h : g.Chained) (hg : g.Consistent) (nd : PatternNode) :
    (g.addNode nd).2.Chained := by
  refine h.mono ?_
  intro i hi hc
  have hi' : g.Incident i := hi
  refine ⟨hi', hg.isNode_this hi', ?_⟩
  obtain ⟨-, nd', hnd', hkind⟩ := hc
  exact ⟨nd', by rwa [← (extends_addNode g nd).node? (hg.isNode_this hi')], hkind⟩

/-- An incidence of a graph with one more edge is an old one or one of the new edge. -/
theorem incident_append {e : PatternEdge} {i : Incidence} (hedges : g'.edges = g.edges ++ [e])
    (h : g'.Incident i) :
    g.Incident i ∨ i = e.seen ⟨g.edges.length⟩ i.direction := by
  obtain ⟨e', he', hi⟩ := h
  rw [edge?_append hedges] at he'
  split at he'
  · rename_i hk
    cases he'
    exact .inr (by rw [← hk]; exact hi)
  · exact .inl ⟨e', he', hi⟩

/-- A new edge leaves the constraints chained if no edge touches its ends in its directions. -/
theorem Chained.addEdge (h : g.Chained) {e : PatternEdge} (hnodes : g'.nodes = g.nodes)
    (hedges : g'.edges = g.edges ++ [e])
    (hnew : ∀ i, g.Incident i → g.IsConstraint i.this →
      i.this ≠ (e.seen ⟨g.edges.length⟩ i.direction).this) : g'.Chained := by
  have hcon : ∀ {n}, g'.IsConstraint n → g.IsConstraint n := by
    intro n hn
    simpa only [IsConstraint, IsNode, PatternGraph.node?, placeOf?, hnodes] using hn
  intro i j hi hj hc hthis hdir
  rcases incident_append hedges hi with hi | hi <;> rcases incident_append hedges hj with hj | hj
  · exact h i j hi hj (hcon hc) hthis hdir
  · exact absurd (by rw [← hdir, ← hj, hthis]) (hnew i hi (hcon hc))
  · exact absurd (by rw [hdir, ← hi, hthis]) (hnew j hj (hthis ▸ hcon hc))
  · rw [hi, hj, hdir]

/-- A regular graph stays regular when what is added is. -/
theorem Regular.grow (hg : g.Regular cx) (h : g.Extends g') (hg' : g'.Consistent)
    (hnodes : ∀ n nd, g'.IsNode n → g'.node? n = some nd → ¬ g.IsNode n → g'.NodeFits cx n nd)
    (hedges : ∀ e ∈ g'.edges, e ∉ g.edges → g'.EdgeFits cx e)
    (hnames : g'.NamesAgree)
    (hvisible : ∀ h name, g'.HasName h name → g.HasName h name ∨ isHiddenName name = false)
    (hchained : g'.Chained) : g'.Regular cx where
  consistent := hg'
  anchor := by
    obtain ⟨nd, hnd, hkind⟩ := hg.anchor
    refine ⟨nd, ?_, hkind⟩
    rw [← hnd]
    exact h.node? (isNode_anchor hg.consistent.inhabited)
  node := by
    intro n nd hn hnd
    by_cases hold : g.IsNode n
    · rw [h.node? hold] at hnd
      exact h.nodeFits (hg.node n nd hold hnd)
    · exact hnodes n nd hn hnd hold
  edge := by
    intro e he
    by_cases hold : e ∈ g.edges
    · exact h.edgeFits (hg.edge e hold)
    · exact hedges e he hold
  names := hnames
  visible := by
    intro k name hname
    rcases hvisible k name hname with hold | hnew
    · exact hg.visible k name hold
    · exact hnew
  chained := hchained

namespace Regular

variable (hg : g.Regular cx)

/-! ## Reading a regular graph -/

include hg in
/-- Two things of one name are the same. -/
theorem eq_of_hasName {h h' : Handle} {name : String} (hn : g.HasName h name)
    (hn' : g.HasName h' name) : h = h' := by
  have hsome := (hg.names name h).2 hn
  rw [(hg.names name h').2 hn'] at hsome
  exact (Option.some.inj hsome).symm

include hg in
theorem edgeFits_of_edge? {k : EdgeId} {e : PatternEdge} (h : g.edge? k = some e) :
    g.EdgeFits cx e :=
  hg.edge e (List.mem_of_getElem? h)

include hg in
/-- The ends of an edge of the model are nodes of the model. -/
theorem isPlace_ends {k : EdgeId} {e : PatternEdge} (h : g.edge? k = some e)
    (hs : e.kind.structural = true) : g.IsPlace e.alpha ∧ g.IsPlace e.omega := by
  have hfits := hg.edgeFits_of_edge? h
  unfold EdgeFits at hfits
  cases hk : e.kind <;> simp only [hk] at hfits hs
  case precedes => cases hs
  case start => cases hs
  case pattern => exact ⟨hfits.1, hfits.2.1⟩
  case argument => exact ⟨hfits.1, hfits.2.1⟩

include hg in
theorem not_isPlace_anchor : ¬ g.IsPlace g.anchor := by
  rintro ⟨-, nd, hnd, hkind⟩
  obtain ⟨nd', hnd', hanchor⟩ := hg.anchor
  rw [hnd] at hnd'
  cases hnd'
  rcases hkind with h | h <;> rw [h] at hanchor <;> cases hanchor

theorem not_isPlace_of_isConstraint {n : NodeId} (h : g.IsConstraint n) : ¬ g.IsPlace n := by
  rintro ⟨-, nd, hnd, hkind⟩
  obtain ⟨-, nd', hnd', hconstraint⟩ := h
  rw [hnd] at hnd'
  cases hnd'
  rcases hkind with h | h <;> rw [h] at hconstraint <;> cases hconstraint

include hg in
theorem not_isConstraint_anchor : ¬ g.IsConstraint g.anchor := by
  rintro ⟨-, nd, hnd, hkind⟩
  obtain ⟨nd', hnd', hanchor⟩ := hg.anchor
  rw [hnd] at hnd'
  cases hnd'
  rw [hanchor] at hkind
  cases hkind

include hg in
/-- Only the anchor is an anchor. -/
theorem eq_anchor_of_kind {n : NodeId} {nd : PatternNode} (hn : g.IsNode n)
    (hnd : g.node? n = some nd) (hkind : nd.kind = .anchor) : n = g.anchor := by
  have hfits := hg.node n nd hn hnd
  rw [NodeFits, hkind] at hfits
  exact hfits.1

include hg in
/-- Every node is the anchor, a node of the model or a constraint. -/
theorem node_cases {n : NodeId} (hn : g.IsNode n) :
    n = g.anchor ∨ g.IsPlace n ∨ g.IsConstraint n := by
  obtain ⟨nd, hnd⟩ := hn.exists_node
  cases hk : nd.kind with
  | anchor => exact .inl (hg.eq_anchor_of_kind hn hnd hk)
  | pattern => exact .inr (.inl ⟨hn, nd, hnd, .inl hk⟩)
  | argument => exact .inr (.inl ⟨hn, nd, hnd, .inr hk⟩)
  | constraint => exact .inr (.inr ⟨hn, nd, hnd, hk⟩)

include hg in
/-- Components start at nodes of the model. -/
theorem place_of_isStart {n : NodeId} (hn : g.IsStart n) : g.IsPlace n := by
  rcases hg.node_cases hn.isNode with h | h | ⟨hnode, nd, hnd, hkind⟩
  · exact absurd h hn.ne_anchor
  · exact h
  · -- a constraint hangs on an earlier node
    have hfits := hg.node n nd hnode hnd
    rw [NodeFits, hkind] at hfits
    obtain ⟨-, -, e, he, -, rfl, hlt⟩ := hfits
    exact absurd (.single (adjacent_of_mem he).symm)
      (hn.first e.alpha (hg.consistent.ends e he).1 hlt)

end Regular

namespace Regular

variable (hg : g.Regular cx)

include hg in
/-- What a name stands for is a node or an edge of the model. -/
theorem isPlace_of_named? {name : String} {n : NodeId} (h : g.named? name = some (.node n)) :
    g.IsPlace n ∧ ∃ nd, g.node? n = some nd ∧ nd.name? = some name := by
  obtain ⟨hn, hname⟩ := (hg.names name (.node n)).1 h
  obtain ⟨nd, hnd, hname⟩ := Option.bind_eq_some_iff.1 hname
  have hfits := hg.node n nd hn hnd
  rw [NodeFits] at hfits
  refine ⟨⟨hn, nd, hnd, ?_⟩, nd, hnd, hname⟩
  cases hk : nd.kind <;> simp only [hk] at hfits
  case anchor => rw [hfits.2] at hname; cases hname
  case constraint => rw [hfits.1] at hname; cases hname
  case pattern => exact .inl rfl
  case argument => exact .inr rfl

end Regular

/-! ## Anchoring -/

namespace Anchors

theorem extended (h : Anchors g g') : g.Extends g' := extends_of_edges h.nodes h.edges

theorem isNode_iff (h : Anchors g g') {n : NodeId} : g'.IsNode n ↔ g.IsNode n := by
  simp only [IsNode, h.nodes]

/-- An edge of the anchored graph is an edge of the graph or leads to a start. -/
theorem edge?_cases (h : Anchors g g') {k : EdgeId} {e : PatternEdge} (he : g'.edge? k = some e) :
    g.edge? k = some e ∨ ∃ n, g.IsStart n ∧ e = startEdge n := by
  have he' : g'.edges[k.index]? = some e := he
  rw [h.edges] at he'
  by_cases hk : k.index < g.edges.length
  · rw [List.getElem?_append_left hk] at he'
    exact .inl he'
  · rw [List.getElem?_append_right (Nat.le_of_not_lt hk)] at he'
    obtain ⟨n, hn, rfl⟩ := List.mem_map.1 (List.mem_of_getElem? he')
    exact .inr ⟨n, mem_starts.1 hn, rfl⟩

theorem hasName_iff (h : Anchors g g') {k : Handle} {name : String} :
    g'.HasName k name ↔ g.HasName k name := by
  cases k with
  | node n =>
    simp only [HasName, h.isNode_iff]
    constructor
    · rintro ⟨hn, hname⟩
      exact ⟨hn, by rwa [h.extended.node? hn] at hname⟩
    · rintro ⟨hn, hname⟩
      exact ⟨hn, by rwa [h.extended.node? hn]⟩
  | edge k =>
    simp only [HasName]
    constructor
    · intro hname
      obtain ⟨e, he, hen⟩ := Option.bind_eq_some_iff.1 hname
      rcases h.edge?_cases he with hold | ⟨n, -, rfl⟩
      · exact Option.bind_eq_some_iff.2 ⟨e, hold, hen⟩
      · cases hen
    · intro hname
      obtain ⟨e, he, hen⟩ := Option.bind_eq_some_iff.1 hname
      exact Option.bind_eq_some_iff.2 ⟨e, h.extended.edge? he, hen⟩

end Anchors

/-- The anchored graph of a regular graph is regular. -/
theorem Regular.anchors (hg : g.Regular cx) (h : Anchors g g') : g'.Regular cx := by
  refine hg.grow h.extended h.consistent ?_ ?_ ?_ ?_ (hg.chained.mono ?_)
  · intro n nd hn _ hnew
    exact absurd (h.isNode_iff.1 hn) hnew
  · intro e he hnew
    obtain ⟨k, hk⟩ := List.getElem?_of_mem he
    rcases h.edge?_cases (k := ⟨k⟩) hk with hold | ⟨n, hn, rfl⟩
    · exact absurd (List.mem_of_getElem? hold) hnew
    · exact ⟨rfl, rfl, h.extended.isPlace (hg.place_of_isStart hn)⟩
  · intro name k
    rw [h.hasName_iff, ← hg.names]
    simp only [named?, h.names]
  · intro k name hname
    exact .inl (h.hasName_iff.1 hname)
  · intro i hi hc
    obtain ⟨hnode, nd, hnd, hkind⟩ := hc
    have hnode' : g.IsNode i.this := h.isNode_iff.1 hnode
    rw [h.extended.node? hnode'] at hnd
    have hc : g.IsConstraint i.this := ⟨hnode', nd, hnd, hkind⟩
    obtain ⟨e, he, hseen⟩ := hi
    rcases h.edge?_cases he with hold | ⟨n, hn, rfl⟩
    · exact ⟨⟨e, hold, hseen⟩, hc⟩
    · -- a start edge lies between the anchor and a node of the model
      exfalso
      rw [hseen] at hc
      cases hd : i.direction <;> rw [hd] at hc
      · exact hg.not_isConstraint_anchor hc
      · exact not_isPlace_of_isConstraint hc (hg.place_of_isStart hn)

/-- A graph as it is read, and as it is once its components are linked to the anchor. -/
structure Rooted (cx : Context) (g₀ g : PatternGraph) : Prop where
  before : g₀.Regular cx
  unanchored : ∀ e ∈ g₀.edges, e.kind ≠ .start
  anchors : g₀.Anchors g
  regular : g.Regular cx

end PatternGraph

end GraphPattern
