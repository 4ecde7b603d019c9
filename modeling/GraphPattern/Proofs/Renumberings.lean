import GraphPattern.Proofs.WalkFrontier
import GraphPattern.Proofs.Reading

/-!
# GraphPattern — renumbered graphs

Two graphs can have the same parts at other places. A renumbering tells where, for nodes and for edges,
and carries over to everything that is made of them. What the compilation reads of a node or an edge is
the same in both graphs, up to the positions of tokens.
-/

namespace GraphPattern

open PatternGraph

-- ---------------------------------------------------------------------------
-- Renumbering
-- ---------------------------------------------------------------------------

/-- Other places for the nodes and edges of a graph. -/
structure Renumbering where
  node : NodeId → NodeId
  edge : EdgeId → EdgeId

namespace Renumbering

variable (q : Renumbering)

def handle : Handle → Handle
  | .node n => .node (q.node n)
  | .edge k => .edge (q.edge k)

def incidence (i : Incidence) : Incidence :=
  ⟨q.edge i.edge, q.node i.this, q.node i.that, i.direction⟩

/-- Gives a node a place. -/
def withNode (n m : NodeId) : Renumbering :=
  { q with node := fun k => if k = n then m else q.node k }

/-- Gives an edge a place. -/
def withEdge (k m : EdgeId) : Renumbering :=
  { q with edge := fun j => if j = k then m else q.edge j }

@[simp] theorem withNode_self (n m : NodeId) : (q.withNode n m).node n = m :=
  if_pos rfl

@[simp] theorem withNode_edge (n m : NodeId) (k : EdgeId) : (q.withNode n m).edge k = q.edge k :=
  rfl

@[simp] theorem withEdge_self (k m : EdgeId) : (q.withEdge k m).edge k = m :=
  if_pos rfl

@[simp] theorem withEdge_node (k m : EdgeId) (n : NodeId) : (q.withEdge k m).node n = q.node n :=
  rfl

theorem withNode_of_isNode {g : PatternGraph} {n : NodeId} (hn : g.IsNode n) (m : NodeId) :
    (q.withNode ⟨g.nodes.length⟩ m).node n = q.node n := by
  refine if_neg ?_
  rintro rfl
  exact not_isNode_length g hn

theorem withEdge_of_edge? {g : PatternGraph} {k : EdgeId} {e : PatternEdge}
    (he : g.edge? k = some e) (m : EdgeId) :
    (q.withEdge ⟨g.edges.length⟩ m).edge k = q.edge k := by
  refine if_neg ?_
  rintro rfl
  exact absurd (List.getElem?_eq_some_iff.1 he).1 (Nat.lt_irrefl _)

end Renumbering

/-- Two nodes that differ at most in the position of their tokens. -/
structure PatternNode.Like (nd nd' : PatternNode) : Prop where
  kind : nd'.kind = nd.kind
  name : nd'.name? = nd.name?
  type : nd'.typeName? = nd.typeName?

/-- Two edges that differ at most in the position of their tokens, the second one renumbered. -/
structure PatternEdge.Like (q : Renumbering) (e e' : PatternEdge) : Prop where
  kind : e'.kind = e.kind
  name : e'.name? = e.name?
  type : e'.typeName? = e.typeName?
  alpha : e'.alpha = q.node e.alpha
  omega : e'.omega = q.node e.omega

namespace Chain

variable {cx cx' : Context} {q : Renumbering}

theorem restriction_of_like {nd nd' : PatternNode} (h : nd.Like nd') :
    restriction nd' = restriction nd := by
  unfold restriction
  rw [h.kind, h.type]

theorem edgeSegment_of_like {e e' : PatternEdge} (h : e.Like q e') (hengine : cx'.engine = cx.engine)
    {d : Direction} {segment : Segment} (hs : cx.edgeSegment e d = .ok segment) :
    cx'.edgeSegment e' d = .ok segment := by
  unfold Context.edgeSegment at hs ⊢
  rw [hengine, h.type]
  cases hc : cx.engine <;> cases d <;> simp only [hc] at hs ⊢
  case containment.into => cases hs
  all_goals exact hs

end Chain

namespace Plan

variable {q : Renumbering}

/-- The entry about what has another place. -/
def Entry.renumbered (q : Renumbering) : Entry → Entry
  | .node n => .node (q.node n)
  | .along i => .along (q.incidence i)

theorem Entry.renumbered_handle (x : Entry) : (x.renumbered q).handle = q.handle x.handle := by
  cases x <;> rfl

end Plan

end GraphPattern
