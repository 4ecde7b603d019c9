import GraphPattern.Proofs.BarePatterns
import GraphPattern.Proofs.Renumberings
import Mathlib.Data.List.Induction

/-!
# GraphPattern — graphs without their constraints

The graph of a bare pattern is that of the pattern without the constraints and the edges to them. As
constraints take places of their own, everything after them has another place: a renumbering tells
which. It keeps the order of what stays, and takes a constraint to the place of the node on which it
hangs, so that what is joined stays joined.

## Results

* `PatternGraph.Bare.anchors` — anchoring links the same components.
* `PatternGraph.Bare.incidencesOf` — the incidences at a node, in their order.
-/

namespace GraphPattern

open PatternGraph

namespace PatternGraph

/-- What stays of a graph without its constraints. -/
def Kept (g : PatternGraph) : Handle → Prop
  | .node n => g.IsNode n ∧ ¬ g.IsConstraint n
  | .edge k => ∃ e, g.edge? k = some e ∧ e.kind ≠ .precedes

/-- The second graph is the first one without its constraints. -/
structure Bare (q : Renumbering) (g b : PatternGraph) : Prop where
  anchor : q.node g.anchor = b.anchor
  image : ∀ n, g.IsNode n → b.IsNode (q.node n)
  node : ∀ n nd, g.Kept (.node n) → g.node? n = some nd →
    ∃ nd', b.node? (q.node n) = some nd' ∧ nd.Like nd'
  nodes : ∀ m, b.IsNode m → ∃ n, g.Kept (.node n) ∧ q.node n = m
  order : ∀ m n, g.IsNode m → g.Kept (.node n) → m.index < n.index →
    (q.node m).index < (q.node n).index
  edge : ∀ k e, g.edge? k = some e → e.kind ≠ .precedes →
    ∃ e', b.edge? (q.edge k) = some e' ∧ e.Like q e'
  edges : ∀ k e', b.edge? k = some e' → ∃ j, g.Kept (.edge j) ∧ q.edge j = k
  edgeOrder : ∀ j k, g.Kept (.edge j) → g.Kept (.edge k) → j.index < k.index →
    (q.edge j).index < (q.edge k).index
  /-- A constraint has the place of what it hangs on. -/
  hung : ∀ e ∈ g.edges, e.kind = .precedes → q.node e.alpha = q.node e.omega

variable {cx cx' : Context} {q : Renumbering} {g g' g₁ b b' : PatternGraph}

-- ---------------------------------------------------------------------------
-- Growing alongside
-- ---------------------------------------------------------------------------

theorem isConstraint_addNode {n : NodeId} (nd : PatternNode) (hn : g.IsNode n) :
    (g.addNode nd).2.IsConstraint n ↔ g.IsConstraint n := by
  have hext := extends_addNode g nd
  refine ⟨?_, hext.isConstraint⟩
  rintro ⟨-, nd', hnd', hkind⟩
  exact ⟨hn, nd', by rw [← hext.node? hn]; exact hnd', hkind⟩

theorem isConstraint_addNode_length (nd : PatternNode) :
    (g.addNode nd).2.IsConstraint ⟨g.nodes.length⟩ ↔ nd.kind = .constraint := by
  have hnode := node?_addNode_length g nd
  constructor
  · rintro ⟨-, nd', hnd', hkind⟩
    rw [hnode] at hnd'
    cases hnd'
    exact hkind
  · intro hkind
    exact ⟨(isNode_addNode nd).2 (.inr rfl), nd, hnode, hkind⟩

theorem kept_addNode {n : NodeId} (nd : PatternNode) :
    (g.addNode nd).2.Kept (.node n) ↔
      g.Kept (.node n) ∨ (n = ⟨g.nodes.length⟩ ∧ nd.kind ≠ .constraint) := by
  simp only [Kept, isNode_addNode]
  constructor
  · rintro ⟨hn | rfl, hc⟩
    · exact .inl ⟨hn, fun h => hc ((isConstraint_addNode nd hn).2 h)⟩
    · exact .inr ⟨rfl, fun h => hc ((isConstraint_addNode_length nd).2 h)⟩
  · rintro (⟨hn, hc⟩ | ⟨rfl, hk⟩)
    · exact ⟨.inl hn, fun h => hc ((isConstraint_addNode nd hn).1 h)⟩
    · exact ⟨.inr rfl, fun h => hk ((isConstraint_addNode_length nd).1 h)⟩

theorem index_lt_of_isNode {n : NodeId} (hn : g.IsNode n) : n.index < g.nodes.length := by
  obtain ⟨i, rfl, hi⟩ := hn
  show (i : Int) < g.nodes.length
  omega

theorem index_lt_of_kept {k : EdgeId} (hk : g.Kept (.edge k)) : k.index < g.edges.length := by
  obtain ⟨e, he, -⟩ := hk
  exact (List.getElem?_eq_some_iff.1 he).1

theorem kept_of_nodes_eq (hnodes : g'.nodes = g.nodes) (n : NodeId) :
    g'.Kept (.node n) ↔ g.Kept (.node n) := by
  simp only [Kept, IsConstraint, isNode_of_nodes_eq hnodes, node?_of_nodes_eq hnodes]

theorem kept_append {e : PatternEdge} (hedges : g'.edges = g.edges ++ [e]) (k : EdgeId) :
    g'.Kept (.edge k) ↔
      g.Kept (.edge k) ∨ (k = ⟨g.edges.length⟩ ∧ e.kind ≠ .precedes) := by
  simp only [Kept, edge?_append hedges]
  by_cases hk : k = ⟨g.edges.length⟩
  · have hnone : g.edge? k = none := by
      rw [hk]
      exact List.getElem?_eq_none (Nat.le_refl _)
    simp [hk] at hnone ⊢
    simp [hnone]
  · simp [hk]

namespace Bare

/-- One more node is at a place in what may be a larger graph. -/
theorem node_append (h : Bare q g b) (hg : g.Consistent) {nd : PatternNode} {m : NodeId}
    (hb : b.Extends b') (hedges : b'.edges = b.edges) (hm : b'.IsNode m)
    (hnew : nd.kind ≠ .constraint → (∃ nd', b'.node? m = some nd' ∧ nd.Like nd') ∧
      m.index = b.nodes.length)
    (honto : ∀ n, b'.IsNode n → b.IsNode n ∨ (n = m ∧ nd.kind ≠ .constraint)) :
    Bare (q.withNode ⟨g.nodes.length⟩ m) (g.addNode nd).2 b' := by
  have hext := extends_addNode g nd
  have hold : ∀ {n}, g.IsNode n → (q.withNode ⟨g.nodes.length⟩ m).node n = q.node n :=
    fun hn => q.withNode_of_isNode hn m
  have hb? : ∀ k, b'.edge? k = b.edge? k := by
    intro k
    rw [PatternGraph.edge?, hedges]
    rfl
  refine { anchor := ?_, image := ?_, node := ?_, nodes := ?_, order := ?_, edge := ?_,
           edges := ?_, edgeOrder := h.edgeOrder, hung := ?_ }
  · -- anchor
    rw [show (g.addNode nd).2.anchor = g.anchor from rfl, hold (isNode_anchor hg.inhabited)]
    exact h.anchor
  · -- image
    intro n hn
    rcases (isNode_addNode nd).1 hn with hn | rfl
    · rw [hold hn]
      exact hb.isNode (h.image n hn)
    · rw [Renumbering.withNode_self]
      exact hm
  · -- node: the new one is kept unless it holds a constraint
    intro n nd₁ hn hnd₁
    rcases (kept_addNode nd).1 hn with hn | ⟨rfl, hk⟩
    · rw [hext.node? hn.1] at hnd₁
      obtain ⟨nd', hnd', hlike⟩ := h.node n nd₁ hn hnd₁
      refine ⟨nd', ?_, hlike⟩
      rw [hold hn.1, hb.node? (h.image n hn.1)]
      exact hnd'
    · rw [node?_addNode_length] at hnd₁
      cases hnd₁
      rw [Renumbering.withNode_self]
      exact (hnew hk).1
  · -- nodes
    intro n hn
    rcases honto n hn with hn | ⟨rfl, hk⟩
    · obtain ⟨n', hn', rfl⟩ := h.nodes n hn
      exact ⟨n', (kept_addNode nd).2 (.inl hn'), hold hn'.1⟩
    · exact ⟨_, (kept_addNode nd).2 (.inr ⟨rfl, hk⟩), Renumbering.withNode_self ..⟩
  · -- order: the new node comes last on both sides
    intro x y hx hy hlt
    rcases (kept_addNode nd).1 hy with hy | ⟨rfl, hk⟩
    · have hx : g.IsNode x := by
        refine ((isNode_addNode nd).1 hx).resolve_right ?_
        rintro rfl
        have := index_lt_of_isNode hy.1
        simp only at hlt
        omega
      rw [hold hx, hold hy.1]
      exact h.order x y hx hy hlt
    · have hx : g.IsNode x := by
        refine ((isNode_addNode nd).1 hx).resolve_right ?_
        rintro rfl
        omega
      rw [hold hx, Renumbering.withNode_self, (hnew hk).2]
      exact index_lt_of_isNode (h.image x hx)
  · -- edge: none was added, and the ends of the old ones are not the new node
    intro k e he hk
    have he : g.edge? k = some e := he
    obtain ⟨e', he', hlike⟩ := h.edge k e he hk
    obtain ⟨ha, ho⟩ := hg.ends e (List.mem_of_getElem? he)
    refine ⟨e', by rw [hb?]; exact he', { hlike with alpha := ?_, omega := ?_ }⟩
    · rw [hold ha, hlike.alpha]
    · rw [hold ho, hlike.omega]
  · -- edges
    intro k e' he'
    rw [hb?] at he'
    exact h.edges k e' he'
  · -- hung
    intro e he hk
    have he : e ∈ g.edges := he
    obtain ⟨ha, ho⟩ := hg.ends e he
    rw [hold ha, hold ho]
    exact h.hung e he hk

/-- A constraint has the place of what it hangs on. -/
theorem addConstraint (h : Bare q g b) (hg : g.Consistent) {nd : PatternNode} {m : NodeId}
    (hk : nd.kind = .constraint) (hm : b.IsNode m) :
    Bare (q.withNode ⟨g.nodes.length⟩ m) (g.addNode nd).2 b :=
  h.node_append hg (.refl _) rfl hm (absurd hk) fun _ => .inl

/-- Any other node is added to both graphs. -/
theorem addNode (h : Bare q g b) (hg : g.Consistent) {nd nd' : PatternNode}
    (hk : nd.kind ≠ .constraint) (hlike : nd.Like nd') :
    Bare (q.withNode ⟨g.nodes.length⟩ ⟨b.nodes.length⟩) (g.addNode nd).2 (b.addNode nd').2 :=
  h.node_append hg (extends_addNode b nd') rfl ((isNode_addNode nd').2 (.inr rfl))
    (fun _ => ⟨⟨nd', node?_addNode_length b nd', hlike⟩, rfl⟩) fun _ hn =>
      ((isNode_addNode nd').1 hn).imp id fun hn => ⟨hn, hk⟩

theorem congr (h : Bare q g b) (hn : g'.nodes = g.nodes) (he : g'.edges = g.edges)
    (hn' : b'.nodes = b.nodes) (he' : b'.edges = b.edges) : Bare q g' b' := by
  obtain ⟨gn, ge, gi, gm⟩ := g
  obtain ⟨gn', ge', gi', gm'⟩ := g'
  obtain ⟨bn, be, bi, bm⟩ := b
  obtain ⟨bn', be', bi', bm'⟩ := b'
  simp only at hn he hn' he'
  subst hn he hn' he'
  exact ⟨h.anchor, h.image, h.node, h.nodes, h.order, h.edge, h.edges, h.edgeOrder, h.hung⟩

/-- The edge to a constraint is added to the graph alone. -/
theorem addPrecedes (h : Bare q g b) {e : PatternEdge} (hk : e.kind = .precedes)
    (hplace : q.node e.alpha = q.node e.omega) (hnodes : g'.nodes = g.nodes)
    (hedges : g'.edges = g.edges ++ [e]) : Bare q g' b := by
  -- an edge that orders is not kept, so the kept ones are those of before
  have hkept : ∀ {k}, g'.Kept (.edge k) → g.Kept (.edge k) := fun hj =>
    ((kept_append hedges _).1 hj).resolve_right fun hn => hn.2 hk
  have hnode := isNode_of_nodes_eq hnodes
  refine { anchor := h.anchor, image := fun n hn => h.image n ((hnode n).1 hn), node := ?_,
           nodes := ?_, order := ?_, edge := ?_, edges := ?_, edgeOrder := ?_, hung := ?_ }
  · intro n nd hn hnd
    rw [node?_of_nodes_eq hnodes] at hnd
    exact h.node n nd ((kept_of_nodes_eq hnodes n).1 hn) hnd
  · intro n hn
    obtain ⟨n', hn', rfl⟩ := h.nodes n hn
    exact ⟨n', (kept_of_nodes_eq hnodes n').2 hn', rfl⟩
  · intro x y hx hy
    exact h.order x y ((hnode x).1 hx) ((kept_of_nodes_eq hnodes y).1 hy)
  · -- edge
    intro k e' he' hk'
    rw [edge?_append hedges] at he'
    split at he'
    · cases he'
      exact absurd hk hk'
    · exact h.edge k e' he' hk'
  · -- edges
    intro k e' he'
    obtain ⟨j, hj, rfl⟩ := h.edges k e' he'
    exact ⟨j, (kept_append hedges j).2 (.inl hj), rfl⟩
  · intro j k hj hk
    exact h.edgeOrder j k (hkept hj) (hkept hk)
  · -- hung: the new edge lies between two nodes with one image
    intro e' he' hk'
    rw [hedges] at he'
    rcases List.mem_append.1 he' with he' | he'
    · exact h.hung e' he' hk'
    · rw [List.mem_singleton.1 he']
      exact hplace

/-- Any other edge is added to both graphs. -/
theorem addEdge (h : Bare q g b) {e e' : PatternEdge} (hk : e.kind ≠ .precedes)
    (hlike : e.Like q e') (hnodes : g'.nodes = g.nodes) (hedges : g'.edges = g.edges ++ [e])
    (hnodes' : b'.nodes = b.nodes) (hedges' : b'.edges = b.edges ++ [e']) :
    Bare (q.withEdge ⟨g.edges.length⟩ ⟨b.edges.length⟩) g' b' := by
  let q' := q.withEdge ⟨g.edges.length⟩ ⟨b.edges.length⟩
  have hold : ∀ {k e}, g.edge? k = some e → q'.edge k = q.edge k :=
    fun he => q.withEdge_of_edge? he _
  have hkept : ∀ {k}, g.Kept (.edge k) → q'.edge k = q.edge k :=
    fun ⟨_, he, _⟩ => hold he
  -- the old images keep clear of the new edge's
  have hbelow : ∀ {k}, g.Kept (.edge k) → (q.edge k).index < b.edges.length := by
    rintro k ⟨e, he, hek⟩
    obtain ⟨e', he', -⟩ := h.edge k e he hek
    exact (List.getElem?_eq_some_iff.1 he').1
  have hnode := isNode_of_nodes_eq hnodes
  have hnode' := isNode_of_nodes_eq hnodes'
  refine { anchor := h.anchor, image := ?_, node := ?_, nodes := ?_, order := ?_, edge := ?_,
           edges := ?_, edgeOrder := ?_, hung := ?_ }
  · intro n hn
    exact (hnode' _).2 (h.image n ((hnode n).1 hn))
  · intro n nd hn hnd
    rw [node?_of_nodes_eq hnodes] at hnd
    obtain ⟨nd', hnd', hlike⟩ := h.node n nd ((kept_of_nodes_eq hnodes n).1 hn) hnd
    exact ⟨nd', (node?_of_nodes_eq hnodes' _).trans hnd', hlike⟩
  · intro n hn
    obtain ⟨n', hn', rfl⟩ := h.nodes n ((hnode' n).1 hn)
    exact ⟨n', (kept_of_nodes_eq hnodes n').2 hn', rfl⟩
  · intro x y hx hy
    exact h.order x y ((hnode x).1 hx) ((kept_of_nodes_eq hnodes y).1 hy)
  · -- edge: the new one has the new image, an old one its own
    intro k e₁ he₁ hk₁
    rw [edge?_append hedges] at he₁
    split at he₁
    · rename_i heq
      cases he₁
      refine ⟨e', ?_, ⟨hlike.kind, hlike.name, hlike.type, hlike.alpha, hlike.omega⟩⟩
      rw [heq, Renumbering.withEdge_self, edge?_append hedges', if_pos rfl]
    · obtain ⟨e₁', he₁', hlike₁⟩ := h.edge k e₁ he₁ hk₁
      refine ⟨e₁', ?_,
        ⟨hlike₁.kind, hlike₁.name, hlike₁.type, hlike₁.alpha, hlike₁.omega⟩⟩
      have hne : q.edge k ≠ ⟨b.edges.length⟩ := by
        intro heq
        have := hbelow ⟨e₁, he₁, hk₁⟩
        rw [heq] at this
        exact Nat.lt_irrefl _ this
      rw [hold he₁, edge?_append hedges', if_neg hne]
      exact he₁'
  · -- edges
    intro k e₁' he₁'
    rw [edge?_append hedges'] at he₁'
    split at he₁'
    · rename_i heq
      refine ⟨_, (kept_append hedges _).2 (.inr ⟨rfl, hk⟩), ?_⟩
      rw [Renumbering.withEdge_self, heq]
    · obtain ⟨j, hj, rfl⟩ := h.edges k e₁' he₁'
      exact ⟨j, (kept_append hedges j).2 (.inl hj), hkept hj⟩
  · -- edgeOrder: the new one comes last on both sides
    intro j k hj hk' hlt
    rcases (kept_append hedges j).1 hj with hj | ⟨rfl, -⟩ <;>
      rcases (kept_append hedges k).1 hk' with hk' | ⟨rfl, -⟩
    · rw [hkept hj, hkept hk']
      exact h.edgeOrder j k hj hk' hlt
    · rw [hkept hj, Renumbering.withEdge_self]
      exact hbelow hj
    · have := index_lt_of_kept hk'
      simp only at hlt
      omega
    · exact absurd hlt (Nat.lt_irrefl _)
  · -- hung
    intro e₁ he₁ hk₁
    rw [hedges] at he₁
    rcases List.mem_append.1 he₁ with he₁ | he₁
    · exact h.hung e₁ he₁ hk₁
    · rw [List.mem_singleton.1 he₁] at hk₁
      exact absurd hk₁ hk

-- ---------------------------------------------------------------------------
-- Names
-- ---------------------------------------------------------------------------

/-- No two things that stay get the same place. -/
theorem handle_injective (h : Bare q g b) {x y : Handle} (hx : g.Kept x) (hy : g.Kept y)
    (heq : q.handle x = q.handle y) : x = y := by
  -- images come in the order of what they are images of, so no two coincide
  cases x with
  | node m =>
    cases y with
    | edge k => cases heq
    | node n =>
      have heq : q.node m = q.node n := Handle.node.inj heq
      obtain ⟨i, rfl, hi⟩ := hx.1
      obtain ⟨j, rfl, hj⟩ := hy.1
      rcases Nat.lt_trichotomy i j with hlt | rfl | hlt
      · have := h.order ⟨i⟩ ⟨j⟩ hx.1 hy (by show (i : Int) < j; omega)
        rw [heq] at this
        omega
      · rfl
      · have := h.order ⟨j⟩ ⟨i⟩ hy.1 hx (by show (j : Int) < i; omega)
        rw [heq] at this
        omega
  | edge j =>
    cases y with
    | node n => cases heq
    | edge k =>
      have heq : q.edge j = q.edge k := Handle.edge.inj heq
      rcases Nat.lt_trichotomy j.index k.index with hlt | hjk | hlt
      · have := h.edgeOrder j k hx hy hlt
        rw [heq] at this
        omega
      · obtain ⟨j⟩ := j
        obtain ⟨k⟩ := k
        obtain rfl : j = k := hjk
        rfl
      · have := h.edgeOrder k j hy hx hlt
        rw [heq] at this
        omega

theorem exists_kept (h : Bare q g b) {y : Handle} {name : String} (hy : b.HasName y name) :
    ∃ x, g.Kept x ∧ q.handle x = y := by
  cases y with
  | node m =>
    obtain ⟨n, hn, rfl⟩ := h.nodes m hy.1
    exact ⟨.node n, hn, rfl⟩
  | edge k =>
    obtain ⟨e, he, -⟩ := Option.bind_eq_some_iff.1 hy
    obtain ⟨j, hj, rfl⟩ := h.edges k e he
    exact ⟨.edge j, hj, rfl⟩

/-- What stays keeps its name. -/
theorem hasName_iff (h : Bare q g b) {x : Handle} (hx : g.Kept x) {name : String} :
    b.HasName (q.handle x) name ↔ g.HasName x name := by
  cases x with
  | node n =>
    obtain ⟨nd, hnd⟩ := hx.1.exists_node
    obtain ⟨nd', hnd', hlike⟩ := h.node n nd hx hnd
    show b.IsNode (q.node n) ∧ _ ↔ _
    rw [HasName, hnd, hnd', Option.bind_some, Option.bind_some, hlike.name]
    exact and_congr_left fun _ => ⟨fun _ => hx.1, fun _ => h.image n hx.1⟩
  | edge k =>
    obtain ⟨e, he, hk⟩ := hx
    obtain ⟨e', he', hlike⟩ := h.edge k e he hk
    show (b.edge? (q.edge k)).bind (·.name?) = some name ↔ _
    rw [HasName, he, he', Option.bind_some, Option.bind_some, hlike.name]

end Bare

/-- What has a name is no constraint and leads to none. -/
theorem Regular.kept_of_hasName (hg : g.Regular cx) {x : Handle} {name : String}
    (hx : g.HasName x name) : g.Kept x := by
  cases x with
  | node n =>
    refine ⟨hx.1, fun hc => ?_⟩
    obtain ⟨hn, nd, hnd, hk⟩ := hc
    have hfits := hg.node n nd hn hnd
    rw [NodeFits, hk] at hfits
    have hname := hx.2
    rw [hnd, Option.bind_some, hfits.1] at hname
    cases hname
  | edge k =>
    obtain ⟨e, he, hname⟩ := Option.bind_eq_some_iff.1 hx
    refine ⟨e, he, fun hk => ?_⟩
    have hfits := hg.edgeFits_of_edge? he
    rw [EdgeFits, hk] at hfits
    rw [hfits.1] at hname
    cases hname

/-- Names stand for the same things in both graphs. -/
theorem Bare.named? (h : Bare q g b) (hg : g.Regular cx) (hb : b.Regular cx') (name : String) :
    b.named? name = (g.named? name).map q.handle := by
  cases hn : g.named? name with
  | some x =>
    have hname := (hg.names name x).1 hn
    exact (hb.names name _).2 ((h.hasName_iff (hg.kept_of_hasName hname)).2 hname)
  | none =>
    refine Option.eq_none_iff_forall_ne_some.2 fun y hy => ?_
    have hname := (hb.names name y).1 hy
    obtain ⟨x, hx, rfl⟩ := h.exists_kept hname
    rw [(hg.names name x).2 ((h.hasName_iff hx).1 hname)] at hn
    cases hn

theorem IsPlace.kept {n : NodeId} (hn : g.IsPlace n) : g.Kept (.node n) :=
  ⟨hn.1, fun hc => Regular.not_isPlace_of_isConstraint hc hn⟩

theorem Regular.kept_anchor (hg : g.Regular cx) : g.Kept (.node g.anchor) :=
  ⟨isNode_anchor hg.consistent.inhabited, hg.not_isConstraint_anchor⟩

-- ---------------------------------------------------------------------------
-- Components
-- ---------------------------------------------------------------------------

/-- The edges that stay have ends that stay. -/
theorem Regular.kept_ends (hg : g.Regular cx) {k : EdgeId} {e : PatternEdge}
    (he : g.edge? k = some e) (hk : e.kind ≠ .precedes) :
    g.Kept (.node e.alpha) ∧ g.Kept (.node e.omega) := by
  have hfits := hg.edgeFits_of_edge? he
  rw [EdgeFits] at hfits
  cases hkind : e.kind <;> simp only [hkind] at hfits
  case precedes => exact absurd hkind hk
  case start =>
    obtain ⟨-, ha, ho⟩ := hfits
    rw [ha]
    exact ⟨hg.kept_anchor, ho.kept⟩
  case pattern => exact ⟨hfits.1.kept, hfits.2.1.kept⟩
  case argument => exact ⟨hfits.1.kept, hfits.2.1.kept⟩

theorem Regular.kept_this (hg : g.Regular cx) {i : Incidence} (hi : g.Incident i)
    (hk : g.Kept (.edge i.edge)) : g.Kept (.node i.this) := by
  obtain ⟨e, he, hp⟩ := hk
  have hseen := hi.eq_seen he
  obtain ⟨ha, ho⟩ := hg.kept_ends he hp
  rw [hseen]
  cases i.direction
  · exact ha
  · exact ho

namespace Bare

/-- What is joined stays joined. -/
theorem joined (h : Bare q g b) {m n : NodeId} (hj : g.Joined m n) :
    b.Joined (q.node m) (q.node n) := by
  induction hj with
  | refl => exact .refl
  | @tail c d _ hcd ih =>
    obtain ⟨e, he, hends⟩ := hcd.exists_edge
    obtain ⟨k, hk⟩ := List.getElem?_of_mem he
    by_cases hp : e.kind = .precedes
    · -- a constraint has the place of what it hangs on
      have hsame : q.node c = q.node d := by
        rcases hends with ⟨rfl, rfl⟩ | ⟨rfl, rfl⟩
        · exact h.hung e he hp
        · exact (h.hung e he hp).symm
      rw [← hsame]
      exact ih
    · obtain ⟨e', he', hlike⟩ := h.edge ⟨k⟩ e hk hp
      have hadj := adjacent_ends he'
      rw [hlike.alpha, hlike.omega] at hadj
      rcases hends with ⟨rfl, rfl⟩ | ⟨rfl, rfl⟩
      · exact ih.tail hadj
      · exact ih.tail hadj.symm

/-- What stays is not joined anew. -/
theorem joined_of (h : Bare q g b) (hg : g.Regular cx) {x m : NodeId} (hx : g.Kept (.node x))
    (hj : b.Joined (q.node x) m) : ∀ y, g.Kept (.node y) → q.node y = m → g.Joined x y := by
  have hsame : ∀ {y z}, g.Kept (.node y) → g.Kept (.node z) → q.node y = q.node z → y = z :=
    fun hy hz heq => Handle.node.inj (h.handle_injective hy hz (congrArg Handle.node heq))
  -- along the path: each of its edges is the image of one between the ends it came from
  induction hj with
  | refl =>
    intro y hy heq
    rw [hsame hy hx heq]
  | @tail c d _ hcd ih =>
    intro y hy heq
    obtain ⟨e', he', hends⟩ := hcd.exists_edge
    obtain ⟨k, hk⟩ := List.getElem?_of_mem he'
    obtain ⟨j, ⟨e, he, hp⟩, hjk⟩ := h.edges ⟨k⟩ e' hk
    obtain ⟨e₁, he₁, hlike⟩ := h.edge j e he hp
    obtain rfl : e' = e₁ := by
      rw [hjk] at he₁
      exact Option.some.inj (hk.symm.trans he₁)
    obtain ⟨ha, ho⟩ := hg.kept_ends he hp
    have hadj := adjacent_ends he
    rw [hlike.alpha, hlike.omega] at hends
    -- in one direction or the other
    rcases hends with ⟨hc, hd⟩ | ⟨hd, hc⟩
    · rw [hsame hy ho (heq.trans hd.symm)]
      exact (ih _ ha hc).tail hadj
    · rw [hsame hy ha (heq.trans hd.symm)]
      exact (ih _ ho hc).tail hadj.symm

theorem index_lt_of (h : Bare q g b) {m n : NodeId} (hm : g.Kept (.node m))
    (hn : g.Kept (.node n)) (hlt : (q.node m).index < (q.node n).index) : m.index < n.index := by
  rcases Int.lt_trichotomy m.index n.index with hmn | hmn | hmn
  · exact hmn
  · have : m = n := by
      cases m
      cases n
      simpa using hmn
    rw [this] at hlt
    omega
  · have := h.order n m hn.1 hm hmn
    omega

/-- Components start at the same nodes. -/
theorem isStart_iff (h : Bare q g b) (hg : g.Regular cx) {n : NodeId} (hn : g.Kept (.node n)) :
    b.IsStart (q.node n) ↔ g.IsStart n := by
  constructor
  · intro hs
    refine ⟨hn.1, ?_, fun m hm hlt hj => ?_⟩
    · rintro rfl
      exact hs.ne_anchor h.anchor
    · exact hs.first _ (h.image m hm) (h.order m n hm hn hlt) (h.joined hj)
  · intro hs
    refine ⟨h.image n hn.1, fun heq => ?_, fun m hm hlt hj => ?_⟩
    · rw [← h.anchor] at heq
      exact hs.ne_anchor (Handle.node.inj
        (h.handle_injective hn hg.kept_anchor (congrArg Handle.node heq)))
    · obtain ⟨m', hm', rfl⟩ := h.nodes m hm
      exact hs.first m' hm'.1 (h.index_lt_of hm' hn hlt) (h.joined_of hg hn hj m' hm' rfl)

theorem starts_pairwise (g : PatternGraph) : g.starts.Pairwise fun m n => m.index < n.index :=
  g.nodeIds_pairwise.filter _

theorem starts_eq (h : Bare q g b) (hg : g.Regular cx) : b.starts = g.starts.map q.node := by
  have hkept : ∀ n ∈ g.starts, g.Kept (.node n) :=
    fun n hn => (hg.place_of_isStart (mem_starts.1 hn)).kept
  -- both lists are sorted by their numbers, so having the same members is enough
  have hsorted : (g.starts.map q.node).Pairwise fun m n => m.index < n.index := by
    rw [List.pairwise_map]
    refine (starts_pairwise g).imp_of_mem fun hm hn hlt => ?_
    exact h.order _ _ (hkept _ hm).1 (hkept _ hn) hlt
  have hne : ∀ {l : List NodeId}, l.Pairwise (fun m n => m.index < n.index) → l.Nodup := by
    intro l hl
    refine hl.imp ?_
    rintro m n hlt rfl
    omega
  refine List.Perm.eq_of_pairwise (fun m n _ _ hmn hnm => absurd hmn (by omega))
    (starts_pairwise b) hsorted ?_
  refine (List.perm_ext_iff_of_nodup (hne (starts_pairwise b)) (hne hsorted)).2 fun m => ?_
  rw [mem_starts, List.mem_map]
  constructor
  · intro hm
    obtain ⟨n, hn, rfl⟩ := h.nodes m hm.isNode
    exact ⟨n, mem_starts.2 ((h.isStart_iff hg hn).1 hm), rfl⟩
  · rintro ⟨n, hn, rfl⟩
    exact (h.isStart_iff hg (hkept n hn)).2 (mem_starts.1 hn)

/-- Links from the anchor are added to both graphs. -/
theorem addStarts (h : Bare q g b) (ns : List NodeId) (hnodes : g'.nodes = g.nodes)
    (hedges : g'.edges = g.edges ++ ns.map startEdge) (hnodes' : b'.nodes = b.nodes)
    (hedges' : b'.edges = b.edges ++ (ns.map q.node).map startEdge) : ∃ q', Bare q' g' b' := by
  induction ns generalizing q g b with
  | nil =>
    refine ⟨q, h.congr hnodes ?_ hnodes' ?_⟩
    · simpa using hedges
    · simpa using hedges'
  | cons n ns ih =>
    let g₁ : PatternGraph := { g with edges := g.edges ++ [startEdge n] }
    let b₁ : PatternGraph := { b with edges := b.edges ++ [startEdge (q.node n)] }
    have hlike : (startEdge n).Like q (startEdge (q.node n)) :=
      ⟨rfl, rfl, rfl, h.anchor.symm, rfl⟩
    have h₁ : Bare (q.withEdge ⟨g.edges.length⟩ ⟨b.edges.length⟩) g₁ b₁ :=
      h.addEdge EdgeKind.noConfusion hlike rfl rfl rfl rfl
    refine ih h₁ hnodes ?_ hnodes' ?_
    · rw [hedges, List.map_cons, List.append_cons]
    · rw [hedges', List.map_cons, List.map_cons, List.append_cons]
      rfl

/-- Anchoring links the same components. -/
theorem anchors {g₀ b₀ : PatternGraph} (h : Bare q g₀ b₀) (hg : g₀.Regular cx)
    (hga : Anchors g₀ g) (hba : Anchors b₀ b) : ∃ q', Bare q' g b := by
  refine h.addStarts g₀.starts hga.nodes hga.edges hba.nodes ?_
  rw [hba.edges, h.starts_eq hg]

end Bare

-- ---------------------------------------------------------------------------
-- Incidences
-- ---------------------------------------------------------------------------

/-- The incidence stays. -/
def keeps (g : PatternGraph) (i : Incidence) : Bool :=
  (g.edge? i.edge).any fun e => e.kind ≠ .precedes

theorem keeps_iff {i : Incidence} : g.keeps i = true ↔ g.Kept (.edge i.edge) := by
  simp only [keeps, Option.any_eq_true, decide_eq_true_eq, Kept]

namespace Bare

theorem incident (h : Bare q g b) {i : Incidence} (hi : g.Incident i)
    (hk : g.Kept (.edge i.edge)) : b.Incident (q.incidence i) := by
  obtain ⟨e, he, hp⟩ := hk
  have hseen := hi.eq_seen he
  obtain ⟨e', he', hlike⟩ := h.edge _ e he hp
  refine ⟨e', he', ?_⟩
  rw [hseen]
  cases i.direction <;> simp only [Renumbering.incidence, PatternEdge.seen, hlike.alpha,
    hlike.omega]

theorem exists_incident (h : Bare q g b) {j : Incidence} (hj : b.Incident j) :
    ∃ i, g.Incident i ∧ g.Kept (.edge i.edge) ∧ q.incidence i = j := by
  obtain ⟨e', he', hseen⟩ := hj
  obtain ⟨k, hk, hkj⟩ := h.edges _ e' he'
  obtain ⟨e, he, hp⟩ := id hk
  obtain ⟨e₁, he₁, hlike⟩ := h.edge k e he hp
  obtain rfl : e' = e₁ := by
    rw [hkj] at he₁
    exact Option.some.inj (he'.symm.trans he₁)
  refine ⟨e.seen k j.direction, .seen he _, by rw [PatternEdge.seen_edge]; exact hk, ?_⟩
  rw [hseen]
  cases j.direction <;> simp only [Renumbering.incidence, PatternEdge.seen, hlike.alpha,
    hlike.omega, hkj]

theorem before (h : Bare q g b) {i j : Incidence} (hi : g.Kept (.edge i.edge))
    (hj : g.Kept (.edge j.edge)) (hij : Before i j) :
    Before (q.incidence i) (q.incidence j) := by
  rcases hij with hlt | ⟨he, hd⟩
  · exact .inl (h.edgeOrder _ _ hi hj hlt)
  · exact .inr ⟨congrArg q.edge he, hd⟩

/-- A node that stays has the incidences that stay, in their order. -/
theorem incidencesOf (h : Bare q g b) (hg : g.Regular cx) (hb : b.Consistent) {n : NodeId}
    (hn : g.Kept (.node n)) {l : List Incidence} (hl : g.incidencesOf n = .ok l) :
    b.incidencesOf (q.node n) = .ok ((l.filter g.keeps).map q.incidence) := by
  have hmem : ∀ i, i ∈ l ↔ g.Incident i ∧ i.this = n :=
    fun i => hg.consistent.mem_incidencesOf hl hn.1
  refine hb.incidencesOf_eq (h.image n hn.1) ?_ fun j => ?_
  · rw [List.pairwise_map]
    refine ((hg.consistent.incidencesOf_pairwise hn.1 hl).filter _).imp_of_mem ?_
    intro i j hi hj hij
    exact h.before (keeps_iff.1 (List.mem_filter.1 hi).2) (keeps_iff.1 (List.mem_filter.1 hj).2) hij
  · simp only [List.mem_map, List.mem_filter, hmem, keeps_iff]
    constructor
    · rintro ⟨i, ⟨⟨hi, rfl⟩, hk⟩, rfl⟩
      exact ⟨h.incident hi hk, rfl⟩
    · rintro ⟨hj, hthis⟩
      obtain ⟨i, hi, hk, rfl⟩ := h.exists_incident hj
      refine ⟨i, ⟨⟨hi, ?_⟩, hk⟩, rfl⟩
      -- the ends of what stays are told apart
      have hkept := hg.kept_this hi hk
      exact Handle.node.inj (h.handle_injective hkept hn (congrArg Handle.node hthis))

end Bare

end PatternGraph

end GraphPattern
