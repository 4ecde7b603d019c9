import GraphPattern.Proofs.Growth
import GraphPattern.Proofs.Mentions

/-!
# GraphPattern — rows that come apart

Constraints in a row hang each on the one before it, unless a node is mentioned in between: the
constraint behind the mention hangs on the node itself, so what was one row is two rows at one node.
This is all that a mention of the current node changes in the graph of a pattern. Both graphs
connect the same nodes, so their components start at the same nodes.

## Results

* `PatternGraph.Rehung.addNode`, `PatternGraph.Rehung.link` — both graphs grow by the same.
* `PatternGraph.Rehung.joined_iff` — both graphs connect the same nodes.
* `PatternGraph.Rehung.anchors` — the same links lead from the anchor to the components of both.
-/

namespace GraphPattern

open PatternGraph

-- ---------------------------------------------------------------------------
-- Seams
-- ---------------------------------------------------------------------------

/-- A place at which a row of constraints comes apart. The row hangs on `owner`; its edges and its
constraints are numbered from `edge` and from `node` on, and `length` of them stand before the
seam. -/
structure Seam where
  owner : NodeId
  edge : Nat
  node : Nat
  length : Nat

namespace Seam

variable (s : Seam)

/-- What a constraint of the row hangs on, by its number. -/
def before : Nat → NodeId
  | 0 => s.owner
  | j + 1 => ⟨(s.node + j : Nat)⟩

/-- The edge to a constraint of the row. -/
def link (j : Nat) : Incidence :=
  ⟨⟨s.edge + j⟩, s.before j, ⟨(s.node + j : Nat)⟩, .out⟩

/-- The edge to the constraint behind the seam, once the row has come apart. -/
def moved : Incidence :=
  ⟨⟨s.edge + s.length⟩, s.owner, ⟨(s.node + s.length : Nat)⟩, .out⟩

/-- The last constraint before the seam. -/
def last? : Option NodeId :=
  match s.length with
  | 0 => none
  | j + 1 => some ⟨(s.node + j : Nat)⟩

theorem last?_getD : s.last?.getD s.owner = s.before s.length := by
  obtain ⟨owner, edge, node, length⟩ := s
  cases length <;> rfl

theorem link_edge_inj {j k : Nat} (h : (s.link j).edge = (s.link k).edge) : j = k :=
  Nat.add_left_cancel (EdgeId.mk.inj h)

theorem link_that_inj {j k : Nat} (h : (s.link j).that = (s.link k).that) : j = k :=
  Nat.add_left_cancel (Int.ofNat.inj (NodeId.mk.inj h))

/-- The constraints of the row, up to one of them, hang in a row. -/
def Row (g : PatternGraph) (m : Nat) : Prop :=
  ∀ j < m, g.edge? (s.link j).edge = some (precedesEdge (s.before j) (s.link j).that)

/-- A row at a named node of the graph goes on behind the seam. -/
structure Of (g : PatternGraph) : Prop where
  pos : 0 < s.length
  row : s.Row g (s.length + 1)
  named : ∃ name, g.HasName (.node s.owner) name

/-- What an edge hangs on once the row has come apart. -/
def hang (seam? : Option Seam) (k : EdgeId) (n : NodeId) : NodeId :=
  match seam? with
  | none => n
  | some s => if k = s.moved.edge then s.owner else n

theorem hang_of_ne {seam? : Option Seam} {k : EdgeId} (h : ∀ s ∈ seam?, k ≠ s.moved.edge)
    (n : NodeId) : hang seam? k n = n := by
  cases seam? with
  | none => rfl
  | some s => exact if_neg (h s rfl)

theorem hang_moved (s : Seam) (n : NodeId) : hang (some s) s.moved.edge n = s.owner :=
  if_pos rfl

end Seam

theorem Seam.Of.mono {s : Seam} {g g' : PatternGraph} (hs : s.Of g) (h : g.Extends g') :
    s.Of g' where
  pos := hs.pos
  row := fun j hj => h.edge? (hs.row j hj)
  named := hs.named.imp fun _ => h.hasName

namespace PatternGraph

variable {cx cx' : Context} {seam? : Option Seam} {s : Seam} {g g' g₀ g₀' g₁ g₁' : PatternGraph}

/-- The second graph is the first one with its row taken apart at the seam, if there is one. The
tokens of both may stand at other positions. -/
structure Rehung (seam? : Option Seam) (g g' : PatternGraph) : Prop where
  nodes : g'.nodes.length = g.nodes.length
  edges : g'.edges.length = g.edges.length
  node : ∀ (i : Nat) nd, g.nodes[i]? = some nd →
    ∃ place?, g'.nodes[i]? = some { nd with tokenIndex? := place? }
  edge : ∀ k e, g.edge? k = some e →
    ∃ place?, g'.edge? k =
      some { e with alpha := Seam.hang seam? k e.alpha, tokenIndex? := place? }
  names : g'.names = g.names

/-- The second graph is the first one, but that a row of it may have come apart. -/
def Loosened (g g' : PatternGraph) : Prop :=
  ∃ seam?, Rehung seam? g g' ∧ ∀ s ∈ seam?, s.Of g

theorem names_of_addEdge {e : PatternEdge} {k : EdgeId} (h : g.addEdge e = (.ok k, g₁)) :
    g₁.names = Consistent.namesWith g e := by
  unfold PatternGraph.addEdge at h
  simp only at h
  split at h
  · cases h
  · split at h
    · cases h
    · cases h
      rfl

namespace Rehung

theorem refl (g : PatternGraph) : Rehung none g g where
  nodes := rfl
  edges := rfl
  node := fun _ nd hnd => ⟨nd.tokenIndex?, hnd⟩
  edge := fun _ e he => ⟨e.tokenIndex?, he⟩
  names := rfl

theorem isNode_iff (h : Rehung seam? g g') {n : NodeId} : g'.IsNode n ↔ g.IsNode n := by
  simp only [IsNode, h.nodes]

theorem node? (h : Rehung seam? g g') {n : NodeId} {nd : PatternNode} (hnd : g.node? n = some nd) :
    ∃ place?, g'.node? n = some { nd with tokenIndex? := place? } := by
  obtain ⟨i, hplace, hnd⟩ := Option.bind_eq_some_iff.1 hnd
  obtain ⟨place?, hnd'⟩ := h.node i nd hnd
  refine ⟨place?, Option.bind_eq_some_iff.2 ⟨i, ?_, hnd'⟩⟩
  rwa [placeOf?, h.nodes]

theorem node?_none (h : Rehung seam? g g') {n : NodeId} (hnd : g.node? n = none) :
    g'.node? n = none := by
  simp only [PatternGraph.node?, placeOf?, h.nodes] at hnd ⊢
  cases hplace : position? g.nodes.length n.index with
  | none => rfl
  | some i =>
    rw [hplace, Option.bind_some, List.getElem?_eq_none_iff] at hnd
    rw [Option.bind_some, List.getElem?_eq_none_iff, h.nodes]
    exact hnd

theorem edge?_none (h : Rehung seam? g g') {k : EdgeId} (he : g.edge? k = none) :
    g'.edge? k = none := by
  have hle := List.getElem?_eq_none_iff.1 he
  exact List.getElem?_eq_none (by rw [h.edges]; exact hle)

/-- Every edge of the second graph is one of the first graph. -/
theorem edge?_back (h : Rehung seam? g g') {k : EdgeId} {e' : PatternEdge}
    (he' : g'.edge? k = some e') :
    ∃ e place?, g.edge? k = some e ∧
      e' = { e with alpha := Seam.hang seam? k e.alpha, tokenIndex? := place? } := by
  cases he : g.edge? k with
  | none =>
    rw [h.edge?_none he] at he'
    cases he'
  | some e =>
    obtain ⟨place?, hsame⟩ := h.edge k e he
    exact ⟨e, place?, rfl, Option.some.inj (he'.symm.trans hsame)⟩

theorem named?_eq (h : Rehung seam? g g') (name : String) : g'.named? name = g.named? name := by
  rw [named?, named?, h.names]

theorem typeName?_eq (h : Rehung seam? g g') (n : NodeId) :
    (g'.node? n).bind (·.typeName?) = (g.node? n).bind (·.typeName?) := by
  cases hnd : g.node? n with
  | none => rw [h.node?_none hnd]
  | some nd =>
    obtain ⟨place?, hnd'⟩ := h.node? hnd
    rw [hnd']
    rfl

theorem name?_eq (h : Rehung seam? g g') (n : NodeId) :
    (g'.node? n).bind (·.name?) = (g.node? n).bind (·.name?) := by
  cases hnd : g.node? n with
  | none => rw [h.node?_none hnd]
  | some nd =>
    obtain ⟨place?, hnd'⟩ := h.node? hnd
    rw [hnd']
    rfl

-- ---------------------------------------------------------------------------
-- Growing
-- ---------------------------------------------------------------------------

/-- The same node is added to both. -/
theorem addNode (h : Rehung seam? g g') (nd : PatternNode) (place? : Option Int) :
    (g'.addNode { nd with tokenIndex? := place? }).1 = (g.addNode nd).1 ∧
      Rehung seam? (g.addNode nd).2 (g'.addNode { nd with tokenIndex? := place? }).2 := by
  refine ⟨by simp only [PatternGraph.addNode, h.nodes], ?_⟩
  refine { nodes := by simp [PatternGraph.addNode, h.nodes], edges := h.edges, node := ?_,
           edge := h.edge, names := by simp only [PatternGraph.addNode, h.nodes, h.names] }
  intro i nd' hnd'
  simp only [PatternGraph.addNode] at hnd' ⊢
  rcases Nat.lt_or_ge i g.nodes.length with hlt | hge
  · rw [List.getElem?_append_left hlt] at hnd'
    rw [List.getElem?_append_left (by rw [h.nodes]; exact hlt)]
    exact h.node i nd' hnd'
  · rw [List.getElem?_append_right hge] at hnd'
    rw [List.getElem?_append_right (by rw [h.nodes]; exact hge), h.nodes]
    rw [List.getElem?_singleton] at hnd' ⊢
    split at hnd'
    · rename_i hzero
      cases hnd'
      exact ⟨place?, if_pos hzero⟩
    · cases hnd'

/-- An edge that hangs in both graphs as it should can be added to both. -/
theorem addEdge {more? : Option Seam} (h : Rehung seam? g g') {e : PatternEdge} {k k' : EdgeId}
    {place? : Option Int} (hadd : g.addEdge e = (.ok k, g₁))
    (hadd' : g'.addEdge
      { e with alpha := Seam.hang more? ⟨g.edges.length⟩ e.alpha, tokenIndex? := place? } =
        (.ok k', g₁'))
    (hold : ∀ k n, k.index < g.edges.length → Seam.hang more? k n = Seam.hang seam? k n) :
    Rehung more? g₁ g₁' := by
  have hedges := edges_of_addEdge hadd
  have hedges' := edges_of_addEdge hadd'
  have hnodes := nodes_of_addEdge hadd
  have hnodes' := nodes_of_addEdge hadd'
  refine { nodes := by rw [hnodes, hnodes', h.nodes], edges := by simp [hedges, hedges', h.edges],
           node := by rw [hnodes, hnodes']; exact h.node, edge := ?_, names := ?_ }
  · intro j e₁ he₁
    rw [edge?_append hedges] at he₁
    rw [edge?_append hedges', h.edges]
    split at he₁
    · rename_i hj
      cases he₁
      exact ⟨place?, by rw [if_pos hj, hj]⟩
    · rename_i hj
      rw [if_neg hj, hold j _ (List.getElem?_eq_some_iff.1 he₁).1]
      exact h.edge j e₁ he₁
  · rw [names_of_addEdge hadd, names_of_addEdge hadd', Consistent.namesWith, Consistent.namesWith,
      h.edges, h.names]

/-- An edge that hangs in both graphs as it should can always be added to both. -/
theorem link {more? : Option Seam} (h : Rehung seam? g g') (hg : g.Consistent)
    (hg' : g'.Consistent) {e : PatternEdge} (place? : Option Int) (ha : g.IsNode e.alpha)
    (ha' : g.IsNode (Seam.hang more? ⟨g.edges.length⟩ e.alpha)) (ho : g.IsNode e.omega)
    (hold : ∀ k n, k.index < g.edges.length → Seam.hang more? k n = Seam.hang seam? k n) :
    ∃ g₁ g₁', Reading.link g e = .ok g₁ ∧
      Reading.link g'
        { e with alpha := Seam.hang more? ⟨g.edges.length⟩ e.alpha, tokenIndex? := place? } =
          .ok g₁' ∧ Rehung more? g₁ g₁' := by
  obtain ⟨g₁, hadd, -⟩ := hg.addEdge e ha ho
  obtain ⟨g₁', hadd', -⟩ := hg'.addEdge
    { e with alpha := Seam.hang more? ⟨g.edges.length⟩ e.alpha, tokenIndex? := place? }
    (h.isNode_iff.2 ha') (h.isNode_iff.2 ho)
  exact ⟨g₁, g₁', by rw [Reading.link, hadd], by rw [Reading.link, hadd'],
    h.addEdge hadd hadd' hold⟩

end Rehung

end PatternGraph

-- ---------------------------------------------------------------------------
-- Components
-- ---------------------------------------------------------------------------

theorem Seam.Of.incident {s : Seam} {g : PatternGraph} (hs : s.Of g) {j : Nat}
    (hj : j < s.length + 1) : g.Incident (s.link j) :=
  Incident.seen (hs.row j hj) .out

namespace PatternGraph

variable {seam? : Option Seam} {s : Seam} {g g' g₀ g₀' : PatternGraph} {a b : NodeId}

theorem Joined.of_edges (h : ∀ e ∈ g.edges, g'.Joined e.alpha e.omega) (hj : g.Joined a b) :
    g'.Joined a b := by
  induction hj with
  | refl => exact .refl
  | tail _ hbc ih =>
    obtain ⟨e, he, ⟨rfl, rfl⟩ | ⟨rfl, rfl⟩⟩ := hbc.exists_edge
    · exact ih.trans (h e he)
    · exact ih.trans (h e he).symm

/-- The edges of a row join its constraints with the node on which it hangs. -/
theorem joined_owner {m : Nat} (h : ∀ j < m, g.Incident (s.link j)) {j : Nat} (hj : j ≤ m) :
    g.Joined s.owner (s.before j) := by
  induction j with
  | zero => exact .refl
  | succ j ih => exact (ih (Nat.le_of_succ_le hj)).tail ⟨s.link j, h j hj, rfl, rfl⟩

namespace Rehung

/-- The edges before the seam hang as they did. -/
theorem incident_link (h : Rehung (some s) g g') (hs : s.Of g) {j : Nat} (hj : j < s.length) :
    g'.Incident (s.link j) := by
  obtain ⟨place?, he'⟩ := h.edge _ _ (hs.row j (Nat.lt_succ_of_lt hj))
  have hne : (s.link j).edge ≠ s.moved.edge := fun heq =>
    absurd (s.link_edge_inj (k := s.length) heq) (Nat.ne_of_lt hj)
  have hinc := Incident.seen he' .out
  rwa [Seam.hang_of_ne (by rintro _ ⟨⟩; exact hne)] at hinc

theorem incident_moved (h : Rehung (some s) g g') (hs : s.Of g) : g'.Incident s.moved := by
  obtain ⟨place?, he'⟩ := h.edge _ _ (hs.row s.length (Nat.lt_succ_self _))
  have hinc := Incident.seen he' .out
  rwa [show (s.link s.length).edge = s.moved.edge from rfl, Seam.hang_moved] at hinc

/-- Both graphs connect the same nodes. -/
theorem joined_iff (h : Rehung seam? g g') (hs : ∀ s ∈ seam?, s.Of g) :
    g'.Joined a b ↔ g.Joined a b := by
  constructor
  · refine Joined.of_edges fun e' he' => ?_
    obtain ⟨k, hk⟩ := List.getElem?_of_mem he'
    obtain ⟨e, place?, he, rfl⟩ := h.edge?_back (k := ⟨k⟩) hk
    by_cases hmoved : ∃ s ∈ seam?, (⟨k⟩ : EdgeId) = s.moved.edge
    · obtain ⟨s, hseam, hmoved⟩ := hmoved
      cases hseam
      have hrow := (hs s rfl).row s.length (Nat.lt_succ_self _)
      rw [hmoved, show s.moved.edge = (s.link s.length).edge from rfl, hrow] at he
      cases he
      rw [hmoved, Seam.hang_moved]
      exact joined_owner (fun j => (hs s rfl).incident) (Nat.le_refl (s.length + 1))
    · have hends := adjacent_ends he
      rw [Seam.hang_of_ne fun s hs heq => hmoved ⟨s, hs, heq⟩]
      exact .single hends
  · refine Joined.of_edges fun e he => ?_
    obtain ⟨k, hk⟩ := List.getElem?_of_mem he
    obtain ⟨place?, he'⟩ := h.edge ⟨k⟩ e hk
    have hends := adjacent_ends he'
    by_cases hmoved : ∃ s ∈ seam?, (⟨k⟩ : EdgeId) = s.moved.edge
    · obtain ⟨s, hseam, hmoved⟩ := hmoved
      cases hseam
      have hrow := (hs s rfl).row s.length (Nat.lt_succ_self _)
      have hk : g.edge? ⟨k⟩ = some e := hk
      rw [hmoved, show s.moved.edge = (s.link s.length).edge from rfl, hrow] at hk
      cases hk
      have howner := joined_owner (fun j => h.incident_link (hs s rfl)) (Nat.le_refl s.length)
      exact howner.symm.tail ⟨s.moved, h.incident_moved (hs s rfl), rfl, rfl⟩
    · rw [Seam.hang_of_ne fun s hs heq => hmoved ⟨s, hs, heq⟩] at hends
      exact .single hends

theorem starts_eq (h : Rehung seam? g g') (hs : ∀ s ∈ seam?, s.Of g) : g'.starts = g.starts := by
  have hstart : ∀ n, g'.IsStart n ↔ g.IsStart n := by
    intro n
    constructor
    · rintro ⟨hnode, hne, hfirst⟩
      exact ⟨h.isNode_iff.1 hnode, hne, fun m hm hlt hj =>
        hfirst m (h.isNode_iff.2 hm) hlt ((h.joined_iff hs).2 hj)⟩
    · rintro ⟨hnode, hne, hfirst⟩
      exact ⟨h.isNode_iff.2 hnode, hne, fun m hm hlt hj =>
        hfirst m (h.isNode_iff.1 hm) hlt ((h.joined_iff hs).1 hj)⟩
  have hids : g'.nodeIds = g.nodeIds := by rw [nodeIds, nodeIds, h.nodes]
  rw [starts, starts, hids]
  exact List.filter_congr fun n _ => decide_eq_decide.2 (hstart n)

/-- Both graphs are anchored by the same edges. -/
theorem anchors (h : Rehung seam? g₀ g₀') (hs : ∀ s ∈ seam?, s.Of g₀) (ha : Anchors g₀ g)
    (ha' : Anchors g₀' g') : Rehung seam? g g' := by
  have hedges := ha.edges
  have hedges' := ha'.edges
  rw [h.starts_eq hs] at hedges'
  refine { nodes := by rw [ha.nodes, ha'.nodes, h.nodes], edges := ?_,
           node := by rw [ha.nodes, ha'.nodes]; exact h.node, edge := ?_,
           names := by rw [ha.names, ha'.names, h.names] }
  · rw [hedges, hedges', List.length_append, List.length_append, h.edges]
  · intro k e he
    have he : g.edges[k.index]? = some e := he
    show ∃ place?, g'.edges[k.index]? = _
    rw [hedges] at he
    rw [hedges']
    rcases Nat.lt_or_ge k.index g₀.edges.length with hlt | hge
    · rw [List.getElem?_append_left hlt] at he
      rw [List.getElem?_append_left (by rw [h.edges]; exact hlt)]
      exact h.edge k e he
    · -- links from the anchor come behind the seam
      have hne : ∀ s ∈ seam?, k ≠ s.moved.edge := by
        rintro s hseam rfl
        have hlt := (List.getElem?_eq_some_iff.1 ((hs s hseam).row s.length (Nat.lt_succ_self _))).1
        exact absurd hlt (Nat.not_lt_of_le hge)
      rw [List.getElem?_append_right hge] at he
      rw [List.getElem?_append_right (by rw [h.edges]; exact hge), h.edges, he]
      exact ⟨e.tokenIndex?, by rw [Seam.hang_of_ne hne]⟩

end Rehung

end PatternGraph

end GraphPattern
