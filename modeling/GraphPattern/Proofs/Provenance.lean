import GraphPattern.Proofs.DepthFirstPatterns
import GraphPattern.Proofs.Splices

/-!
# GraphPattern — where nodes and edges come from

The nodes and edges of an anchored graph, traced back to the tokens that make them. Every edge is
one of the model, made by an edge token, or leads to a constraint, made by a constraint token, or is
a link from the anchor to a start. Starts are the nodes of a pattern at which it neither arrives
along an edge nor has been before, provided that the pattern is written depth first.

* `PatternGraph.Drawing.Drawn` — the anchored graph that some tokens draw.
* `PatternGraph.Drawing.Drawn.edge?_cases` — every edge is made by a token or links a start.
* `PatternGraph.Drawing.Drawn.exists_of_isStart`, `PatternGraph.Drawing.Drawn.isStart_node` — where
  components start.
-/

namespace GraphPattern.PatternGraph.Drawing

/-- The graph that some tokens draw, before and after its components are linked to the anchor. -/
structure Drawn (cx : Context) (ts : List Token) (g₀ g : PatternGraph) : Prop where
  rooted : Rooted cx g₀ g
  draws : Draws cx ts ts.length ts.length g₀
  wellFormed : WellFormed cx ts

/-- The edge to the first constraint of a row, as it is followed. -/
def headAt (cx : Context) (ts : List Token) (p : Nat) : Incidence :=
  ⟨⟨edgeIndex cx ts p⟩, currentBefore cx ts p, nodeAt cx ts p, .out⟩

/-- The ends of an edge are those of its incidences. -/
theorem seen_ends {e : PatternEdge} {x : Incidence} {m n : NodeId}
    (hends : (e.alpha = m ∧ e.omega = n) ∨ (e.alpha = n ∧ e.omega = m))
    (hx : x = e.seen x.edge x.direction) :
    (x.this = m ∧ x.that = n) ∨ (x.this = n ∧ x.that = m) := by
  cases hd : x.direction <;> rw [hd] at hx <;> rw [hx]
  · exact hends
  · rcases hends with ⟨ha, ho⟩ | ⟨ha, ho⟩
    · exact .inr ⟨ho, ha⟩
    · exact .inl ⟨ho, ha⟩

/-- An edge is seen from each of its ends. -/
theorem exists_seen {e : PatternEdge} {m n : NodeId} (k : EdgeId)
    (hends : (e.alpha = m ∧ e.omega = n) ∨ (e.alpha = n ∧ e.omega = m)) :
    ∃ d, (e.seen k d).this = m ∧ (e.seen k d).that = n := by
  rcases hends with h | h
  · exact ⟨.out, h⟩
  · exact ⟨.into, h.symm⟩

namespace Drawn

variable {cx : Context} {ts : List Token} {g₀ g : PatternGraph} {p q : Nat} {x : Incidence}
variable (h : Drawn cx ts g₀ g)

/-! ## Nodes -/

include h in
theorem nodes_eq : g.nodes = nodesBefore cx ts ts.length :=
  h.rooted.anchors.nodes.trans h.draws.nodes

include h in
theorem consistent : g.Consistent :=
  h.rooted.regular.consistent

include h in
theorem node?_made {nd : PatternNode} (hmade : madeNode? cx ts p = some nd) (hp : p < ts.length) :
    g.IsNode ⟨nodeIndex cx ts p⟩ ∧ g.node? ⟨nodeIndex cx ts p⟩ = some nd := by
  have hget := nodesBefore_getElem? hp hmade
  rw [← h.nodes_eq] at hget
  exact ⟨⟨_, rfl, lt_length hget⟩, by rw [node?_natCast, ← hget]; rfl⟩

include h in
/-- The node of a node token looks as the first token of its name says. -/
theorem node?_node {t : NodeToken} (ht : ts[p]? = some (.node t)) :
    ∃ first : NodeToken, first.name? = t.name? ∧ g.IsNode (nodeAt cx ts p) ∧
      g.node? (nodeAt cx ts p) = some (placeNode cx first) := by
  obtain ⟨first, hfirst, hname, hmade⟩ := madeNode?_home cx ht
  exact ⟨first, hname, h.node?_made hmade (lt_length hfirst)⟩

include h in
theorem isPlace_node {t : NodeToken} (ht : ts[p]? = some (.node t)) :
    g.IsPlace (nodeAt cx ts p) := by
  obtain ⟨first, -, hnode, hnd⟩ := h.node?_node ht
  refine ⟨hnode, _, hnd, ?_⟩
  rw [placeNode]
  split
  · exact .inr rfl
  · exact .inl rfl

include h in
theorem node?_constraint {t : ConstraintToken} (ht : ts[p]? = some (.constraint t)) :
    g.IsNode (nodeAt cx ts p) ∧ g.node? (nodeAt cx ts p) = some (constraintNode t) := by
  rw [nodeAt_first (home_constraint ht)]
  exact h.node?_made (madeNode?_constraint cx ht) (lt_length ht)

include h in
theorem isConstraint_constraint {t : ConstraintToken} (ht : ts[p]? = some (.constraint t)) :
    g.IsConstraint (nodeAt cx ts p) := by
  obtain ⟨hnode, hnd⟩ := h.node?_constraint ht
  exact ⟨hnode, _, hnd, rfl⟩

include h in
/-- Every node of the model is made by a node token. -/
theorem exists_node {m : NodeId} (hm : g.IsPlace m) :
    ∃ p t, ts[p]? = some (.node t) ∧ home ts p = p ∧ m = nodeAt cx ts p := by
  obtain ⟨⟨k, rfl, -⟩, nd, hnd, hkind⟩ := hm
  rw [node?_natCast, h.nodes_eq] at hnd
  rcases exists_madeNode hnd with rfl | ⟨p, -, hmade, rfl⟩
  · obtain rfl := Option.some.inj hnd
    rcases hkind with hk | hk <;> cases hk
  · rcases madeNode?_cases hmade with ⟨t, ht, hhome, rfl⟩ | ⟨t, -, rfl⟩
    · exact ⟨p, t, ht, hhome, (nodeAt_first hhome).symm⟩
    · rcases hkind with hk | hk <;> cases hk

include h in
theorem ne_of_constraint {m : NodeId} (hm : ¬ g.IsConstraint m) {t : ConstraintToken}
    (ht : ts[p]? = some (.constraint t)) : m ≠ nodeAt cx ts p := by
  rintro rfl
  exact hm (h.isConstraint_constraint ht)

include h in
/-- Where there is an edge or a node, there is a node token before. -/
theorem isPlace_currentBefore (hp : currentBefore cx ts p ≠ ⟨0⟩) :
    g.IsPlace (currentBefore cx ts p) := by
  rcases currentBefore_cases cx ts p with ⟨hcurrent, -⟩ | ⟨q, -, t, ht, hcurrent, -⟩
  · exact absurd hcurrent hp
  · rw [hcurrent]
    exact h.isPlace_node ht

include h in
theorem not_isConstraint_currentBefore : ¬ g.IsConstraint (currentBefore cx ts p) := by
  intro hc
  by_cases hp : currentBefore cx ts p = ⟨0⟩
  · rw [hp] at hc
    exact h.rooted.regular.not_isConstraint_anchor hc
  · exact Regular.not_isPlace_of_isConstraint hc (h.isPlace_currentBefore hp)

include h in
/-- No constraint is on the way. -/
theorem isPlace_of_mem_wayBefore {m : NodeId} (hm : m ∈ wayBefore cx ts p) (hne : m ≠ ⟨0⟩) :
    g.IsPlace m := by
  refine wayBefore_induction (P := fun _ way => ∀ m ∈ way, m ≠ ⟨0⟩ → g.IsPlace m)
    ?_ ?_ ?_ ?_ ?_ p m hm hne
  · intro m hm hne
    exact absurd (List.mem_singleton.1 hm) hne
  · intro i t way ht _ ih m hm hne
    rcases List.mem_cons.1 hm with rfl | hm
    · exact h.isPlace_node ht
    · exact ih m (List.mem_of_mem_erase hm) hne
  · intro i t way _ _ ih m hm hne
    exact ih m ((List.dropWhile_sublist _).subset hm) hne
  · intro i t way ht _ _ m hm hne
    rcases List.mem_cons.1 hm with rfl | hm
    · exact h.isPlace_node ht
    · exact absurd (List.mem_singleton.1 hm) hne
  · intro i way _ ih m hm hne
    exact ih m hm hne

/-! ## Edges -/

include h in
theorem length_edges : g₀.edges.length = edgeIndex cx ts ts.length :=
  congrArg List.length h.draws.edges

include h in
theorem edge?_made {e : PatternEdge} (hmade : madeEdge? cx ts p = some e) :
    g.edge? ⟨edgeIndex cx ts p⟩ = some e := by
  refine h.rooted.anchors.extended.edge? ?_
  obtain ⟨rest, hrest⟩ :=
    edgesBefore_prefix cx ts (Nat.succ_le_of_lt (lt_length_of_madeEdge hmade))
  show g₀.edges[edgeIndex cx ts p]? = some e
  rw [h.draws.edges, ← hrest, Nat.succ_eq_add_one, edgesBefore_succ_some hmade, List.append_assoc,
    edgeIndex, List.getElem?_append_right (Nat.le_refl _)]
  simp

include h in
/-- An edge is made by a token or leads to a start. -/
theorem edge?_cases {k : EdgeId} {e : PatternEdge} (he : g.edge? k = some e) :
    (∃ p, madeEdge? cx ts p = some e ∧ k = ⟨edgeIndex cx ts p⟩) ∨
      ∃ s, g₀.IsStart s ∧ e = startEdge s ∧ edgeIndex cx ts ts.length ≤ k.index := by
  have hget : g.edges[k.index]? = some e := he
  rw [h.rooted.anchors.edges, List.getElem?_append] at hget
  split at hget
  · rw [h.draws.edges] at hget
    obtain ⟨p, -, hmade, hindex⟩ := exists_madeEdge hget
    exact .inl ⟨p, hmade, congrArg EdgeId.mk hindex⟩
  · rename_i hle
    obtain ⟨s, hs, rfl⟩ := List.mem_map.1 (List.mem_of_getElem? hget)
    rw [h.length_edges] at hle
    exact .inr ⟨s, mem_starts.1 hs, rfl, Nat.le_of_not_lt hle⟩

include h in
/-- Edges of the model are made by edge tokens, between the nodes before and after them. -/
theorem exists_edge (hx : g.Incident x) (hs : g.Structural x) :
    ∃ p t, ts[p]? = some (.edge t) ∧ x.edge = ⟨edgeIndex cx ts p⟩ ∧
      ((x.this = currentBefore cx ts p ∧ x.that = nodeAt cx ts (p + 1)) ∨
        (x.this = nodeAt cx ts (p + 1) ∧ x.that = currentBefore cx ts p)) := by
  obtain ⟨e, he, hk⟩ := hs
  have hseen := hx.eq_seen he
  rcases h.edge?_cases he with ⟨p, hmade, hindex⟩ | ⟨s, -, rfl, -⟩
  · rcases madeEdge?_cases hmade with ⟨t, ht, rfl⟩ | ⟨t, -, rfl⟩
    · exact ⟨p, t, ht, hindex, seen_ends (placeEdge_ends cx t _ _) hseen⟩
    · cases hk
  · cases hk

include h in
/-- Edges to constraints are made by constraint tokens. -/
theorem exists_constraint (hx : g.Incident x) (hp : g.Precedes x) :
    ∃ p t, ts[p]? = some (.constraint t) ∧ x.edge = ⟨edgeIndex cx ts p⟩ ∧
      ((x.this = ownerAt cx ts p ∧ x.that = nodeAt cx ts p) ∨
        (x.this = nodeAt cx ts p ∧ x.that = ownerAt cx ts p)) := by
  obtain ⟨e, he, hk⟩ := hp
  have hseen := hx.eq_seen he
  rcases h.edge?_cases he with ⟨p, hmade, hindex⟩ | ⟨s, -, rfl, -⟩
  · rcases madeEdge?_cases hmade with ⟨t, -, rfl⟩ | ⟨t, ht, rfl⟩
    · exact absurd hk (placeEdge_kind_ne cx t _ _ rfl)
    · exact ⟨p, t, ht, hindex, seen_ends (.inl ⟨rfl, rfl⟩) hseen⟩
  · cases hk

include h in
/-- Seen from a node that is no constraint, an edge leads to the first one of a row. -/
theorem exists_head (hx : g.Incident x) (hp : g.Precedes x) (hthis : ¬ g.IsConstraint x.this) :
    ∃ p t, ts[p]? = some (.constraint t) ∧ Heads ts p ∧ x = headAt cx ts p := by
  have hd := Plan.direction_of_precedes h.rooted hx hp hthis
  obtain ⟨p, t, ht, hindex, ⟨howner, hthat⟩ | ⟨hself, -⟩⟩ := h.exists_constraint hx hp
  · rcases ownerAt_cases cx ts p with ⟨q, u, rfl, hu, heq⟩ | ⟨hheads, heq⟩
    · exact absurd (howner.trans heq) (h.ne_of_constraint hthis hu)
    · obtain ⟨edge, this, that, direction⟩ := x
      obtain rfl : edge = _ := hindex
      obtain rfl : this = _ := howner.trans heq
      obtain rfl : that = _ := hthat
      obtain rfl : direction = .out := hd
      exact ⟨p, t, ht, hheads, rfl⟩
  · exact absurd hself (h.ne_of_constraint hthis ht)

include h in
theorem incident_edge {t : EdgeToken} (ht : ts[p]? = some (.edge t)) :
    ∃ x, g.Incident x ∧ g.Structural x ∧ x.edge = ⟨edgeIndex cx ts p⟩ ∧
      x.this = currentBefore cx ts p ∧ x.that = nodeAt cx ts (p + 1) := by
  have he := h.edge?_made (madeEdge?_edge cx ht)
  have hs := placeEdge_structural cx t (currentBefore cx ts p) (nodeAt cx ts (p + 1))
  obtain ⟨d, hthis, hthat⟩ := exists_seen ⟨edgeIndex cx ts p⟩
    (placeEdge_ends cx t (currentBefore cx ts p) (nodeAt cx ts (p + 1)))
  exact ⟨_, .seen he d, ⟨_, by rw [PatternEdge.seen_edge]; exact he, hs⟩, by simp, hthis, hthat⟩

include h in
theorem incident_constraint {t : ConstraintToken} (ht : ts[p]? = some (.constraint t)) :
    g.Incident ⟨⟨edgeIndex cx ts p⟩, ownerAt cx ts p, nodeAt cx ts p, .out⟩ ∧
      g.Precedes ⟨⟨edgeIndex cx ts p⟩, ownerAt cx ts p, nodeAt cx ts p, .out⟩ := by
  have he := h.edge?_made (madeEdge?_constraint cx ht)
  exact ⟨.seen he .out, _, he, rfl⟩

include h in
theorem incident_head {t : ConstraintToken} (ht : ts[p]? = some (.constraint t))
    (hheads : Heads ts p) : g.Incident (headAt cx ts p) ∧ g.Precedes (headAt cx ts p) := by
  rcases ownerAt_cases cx ts p with ⟨q, u, rfl, hu, -⟩ | ⟨-, howner⟩
  · exact absurd hu (hheads q u rfl)
  · rw [headAt, ← howner]
    exact h.incident_constraint ht

include h in
theorem this_of_madeEdge {e : PatternEdge} (hmade : madeEdge? cx ts p = some e)
    (hx : g.Incident x) (hedge : x.edge = ⟨edgeIndex cx ts p⟩) :
    x.this = e.alpha ∨ x.this = e.omega := by
  obtain ⟨e', he, hseen⟩ := hx
  rw [hedge, h.edge?_made hmade] at he
  cases he
  cases hd : x.direction <;> rw [hseen, hd]
  · exact .inl rfl
  · exact .inr rfl

include h in
/-- An edge that is made later only touches the nodes of before that are still on the way. -/
theorem mem_wayBefore (hdf : DepthFirst cx ts) {e : PatternEdge} (hp : Settled ts p)
    (hpq : p ≤ q) (hmade : madeEdge? cx ts q = some e) (hx : g.Incident x)
    (hedge : x.edge = ⟨edgeIndex cx ts q⟩) (hold : x.this.index < nodeIndex cx ts p) :
    x.this ∈ wayBefore cx ts p := by
  exact mem_wayBefore_of_madeEdge hdf h.wellFormed hp hpq hmade
    ((h.this_of_madeEdge hmade hx hedge).imp Eq.symm Eq.symm) hold

/-! ## Starts -/

include h in
/-- A component starts at a node at which no edge arrives. -/
theorem exists_of_isStart {s : NodeId} (hs : g₀.IsStart s) :
    ∃ p t, ts[p]? = some (.node t) ∧ home ts p = p ∧ arrives ts p = false ∧
      s = nodeAt cx ts p := by
  have hplace := h.rooted.anchors.extended.isPlace (h.rooted.before.place_of_isStart hs)
  obtain ⟨p, t, ht, hhome, rfl⟩ := h.exists_node hplace
  refine ⟨p, t, ht, hhome, Bool.eq_false_iff.2 fun harrives => ?_, rfl⟩
  cases p with
  | zero => cases harrives
  | succ p =>
    -- the node before the edge was made earlier
    obtain ⟨u, hu⟩ := arrives_succ.1 harrives
    obtain ⟨x, hx, hxs, -, hthis, hthat⟩ := h.incident_edge hu
    have hadj := h.rooted.adjacent hx (.inl hxs)
    rw [hthis, hthat] at hadj
    refine hs.first _ (h.draws.isNode_currentBefore (Nat.le_of_lt (lt_length hu))) ?_
      (.single hadj.symm)
    have hlt : (currentBefore cx ts p).index < nodeIndex cx ts p := currentBefore_index_lt
    have hle : nodeIndex cx ts p ≤ nodeIndex cx ts (p + 1) := nodeIndex_mono (Nat.le_succ p)
    rw [nodeAt_index, hhome]
    omega

/-- An edge that is made after a node does not touch the anchor. -/
theorem ne_anchor_of_madeEdge {t : NodeToken} {e : PatternEdge} (ht : ts[p]? = some (.node t))
    (hq : p < q) (hmade : madeEdge? cx ts q = some e) : e.alpha ≠ ⟨0⟩ ∧ e.omega ≠ ⟨0⟩ := by
  have hcurrent : currentBefore cx ts q ≠ ⟨0⟩ :=
    fun hanchor => currentBefore_eq_anchor.1 hanchor p hq t ht
  rcases madeEdge?_cases hmade with ⟨u, -, rfl⟩ | ⟨u, -, rfl⟩
  · rcases placeEdge_ends cx u (currentBefore cx ts q) (nodeAt cx ts (q + 1)) with
      ⟨ha, ho⟩ | ⟨ha, ho⟩ <;> rw [ha, ho]
    · exact ⟨hcurrent, nodeAt_ne_anchor⟩
    · exact ⟨nodeAt_ne_anchor, hcurrent⟩
  · refine ⟨?_, nodeAt_ne_anchor⟩
    rcases ownerAt_cases cx ts q with ⟨r, u, rfl, -, howner⟩ | ⟨-, howner⟩
    · exact fun heq => nodeAt_ne_anchor (howner.symm.trans heq)
    · exact fun heq => hcurrent (howner.symm.trans heq)

include h in
theorem this_ne_anchor_of_madeEdge {t : NodeToken} {e : PatternEdge}
    (ht : ts[p]? = some (.node t)) (hq : p < q) (hmade : madeEdge? cx ts q = some e)
    (hx : g.Incident x) (hedge : x.edge = ⟨edgeIndex cx ts q⟩) : x.this ≠ ⟨0⟩ := by
  obtain ⟨ha, ho⟩ := ne_anchor_of_madeEdge ht hq hmade
  rcases h.this_of_madeEdge hmade hx hedge with hthis | hthis <;> rw [hthis]
  · exact ha
  · exact ho

/-- The ends of an edge that is made before a node stands alone were made before it as well. -/
theorem index_lt_of_madeEdge {e : PatternEdge} (hw : WellFormed cx ts) (hq : q < p)
    (halone : arrives ts p = false) (hmade : madeEdge? cx ts q = some e) :
    e.alpha.index < nodeIndex cx ts p ∧ e.omega.index < nodeIndex cx ts p := by
  have hle : nodeIndex cx ts q ≤ nodeIndex cx ts p := nodeIndex_mono (Nat.le_of_lt hq)
  rcases madeEdge?_cases hmade with ⟨t, ht, rfl⟩ | ⟨t, ht, rfl⟩
  · obtain ⟨u, hu⟩ := hw.target q t ht
    have hcurrent : (currentBefore cx ts q).index < nodeIndex cx ts q := currentBefore_index_lt
    have hnext : (nodeAt cx ts (q + 1)).index < nodeIndex cx ts p := by
      refine nodeAt_index_lt_of_node (Nat.lt_of_le_of_ne hq ?_) hu
      rintro rfl
      exact Bool.eq_false_iff.1 halone (arrives_succ.2 ⟨t, ht⟩)
    rcases placeEdge_ends cx t (currentBefore cx ts q) (nodeAt cx ts (q + 1)) with
      ⟨ha, ho⟩ | ⟨ha, ho⟩ <;> rw [ha, ho]
    · exact ⟨by omega, hnext⟩
    · exact ⟨hnext, by omega⟩
  · have howner : (ownerAt cx ts q).index < nodeIndex cx ts q := ownerAt_index_lt
    refine ⟨?_, nodeAt_index_lt_of_constraint hq ht⟩
    show (ownerAt cx ts q).index < nodeIndex cx ts p
    omega

include h in
/-- A new node at which no edge arrives starts a component. -/
theorem isStart_node (hdf : DepthFirst cx ts) {t : NodeToken} (ht : ts[p]? = some (.node t))
    (hhome : home ts p = p) (halone : arrives ts p = false) : g₀.IsStart (nodeAt cx ts p) where
  isNode := h.rooted.anchors.isNode_iff.1 (h.isPlace_node ht).1
  ne_anchor := nodeAt_ne_anchor
  first := by
    intro m hm hlt hjoined
    refine absurd hlt (Int.not_lt.2 ?_)
    clear hm hlt
    have hself : (nodeAt cx ts p).index = nodeIndex cx ts p := by rw [nodeAt_index, hhome]
    induction hjoined with
    | refl => exact Int.le_refl _
    | @tail b c _ hbc ih =>
      refine Int.not_lt.1 fun hlt => ?_
      obtain ⟨e, he, hends⟩ := hbc.exists_edge
      obtain ⟨k, hk⟩ := List.getElem?_of_mem he
      rw [h.draws.edges] at hk
      obtain ⟨q, -, hmade, -⟩ := exists_madeEdge hk
      have hpq : p < q := by
        rcases Nat.lt_trichotomy q p with hlt' | rfl | hlt'
        · obtain ⟨ha, ho⟩ := index_lt_of_madeEdge h.wellFormed hlt' halone hmade
          rcases hends with ⟨rfl, -⟩ | ⟨-, rfl⟩ <;> omega
        · exact absurd rfl (ne_of_madeEdge hmade ht)
        · exact hlt'
      have hend : e.alpha = c ∨ e.omega = c := by
        rcases hends with ⟨-, ho⟩ | ⟨ha, -⟩
        · exact .inr ho
        · exact .inl ha
      have hle : nodeIndex cx ts p ≤ nodeIndex cx ts (p + 1) := nodeIndex_mono (Nat.le_succ p)
      have hmem := mem_wayBefore_of_madeEdge hdf h.wellFormed (settled_succ ht) hpq hmade hend
        (by omega)
      -- the way to the new node leads from the anchor alone
      rw [wayBefore_alone ht hhome halone] at hmem
      rcases List.mem_cons.1 hmem with rfl | hmem
      · omega
      · obtain rfl := List.mem_singleton.1 hmem
        obtain ⟨ha, ho⟩ := ne_anchor_of_madeEdge ht hpq hmade
        exact hend.elim ha ho

include h in
theorem edge?_start {s : NodeId} (hs : g₀.IsStart s) :
    ∃ k, g.edge? k = some (startEdge s) ∧ edgeIndex cx ts ts.length ≤ k.index := by
  obtain ⟨k, hk⟩ := List.getElem?_of_mem (mem_starts.2 hs)
  refine ⟨⟨g₀.edges.length + k⟩, ?_, ?_⟩
  · show g.edges[g₀.edges.length + k]? = some (startEdge s)
    rw [h.rooted.anchors.edges, List.getElem?_append_right (Nat.le_add_right _ _),
      Nat.add_sub_cancel_left, List.getElem?_map, hk]
    rfl
  · rw [h.length_edges]
    exact Nat.le_add_right _ _

include h in
theorem start_index {k : EdgeId} {s : NodeId} (hk : g.edge? k = some (startEdge s)) :
    g₀.IsStart s ∧ edgeIndex cx ts ts.length ≤ k.index := by
  rcases h.edge?_cases hk with ⟨p, hmade, -⟩ | ⟨s', hs, heq, hle⟩
  · exfalso
    rcases madeEdge?_cases hmade with ⟨t, -, heq⟩ | ⟨t, -, heq⟩
    · exact placeEdge_kind_ne cx t _ _ rfl (congrArg PatternEdge.kind heq).symm
    · cases heq
  · obtain rfl : s = s' := congrArg PatternEdge.omega heq
    exact ⟨hs, hle⟩

include h in
/-- No token makes the link to a start. -/
theorem ne_of_start {e : PatternEdge} {k : EdgeId} {s : NodeId}
    (hmade : madeEdge? cx ts p = some e) (hk : g.edge? k = some (startEdge s)) :
    ⟨edgeIndex cx ts p⟩ ≠ k := by
  rintro rfl
  exact Nat.not_le_of_lt (edgeIndex_lt (lt_length_of_madeEdge hmade) hmade) (h.start_index hk).2

include h in
/-- Starts are linked in their order. -/
theorem start_lt {k k' : EdgeId} {s s' : NodeId} (hk : g.edge? k = some (startEdge s))
    (hk' : g.edge? k' = some (startEdge s')) (hlt : k.index < k'.index) :
    s.index < s'.index := by
  have hstart : ∀ {k : EdgeId} {s : NodeId}, g.edge? k = some (startEdge s) →
      ∃ j, k.index = g₀.edges.length + j ∧ g₀.starts[j]? = some s := by
    intro k s hk
    have hget : g.edges[k.index]? = some (startEdge s) := hk
    rw [h.rooted.anchors.edges] at hget
    by_cases hold : k.index < g₀.edges.length
    · rw [List.getElem?_append_left hold] at hget
      exact absurd rfl (h.rooted.unanchored _ (List.mem_of_getElem? hget))
    · rw [List.getElem?_append_right (Nat.le_of_not_lt hold), List.getElem?_map,
        Option.map_eq_some_iff] at hget
      obtain ⟨s', hs', heq⟩ := hget
      obtain rfl : s' = s := congrArg PatternEdge.omega heq
      exact ⟨_, by omega, hs'⟩
  obtain ⟨j, hj, hs⟩ := hstart hk
  obtain ⟨j', hj', hs'⟩ := hstart hk'
  have hsorted : g₀.starts.Pairwise fun m n => m.index < n.index := g₀.nodeIds_pairwise.filter _
  obtain ⟨hjlt, rfl⟩ := List.getElem?_eq_some_iff.1 hs
  obtain ⟨hjlt', rfl⟩ := List.getElem?_eq_some_iff.1 hs'
  exact List.pairwise_iff_getElem.1 hsorted j j' hjlt hjlt' (by omega)

include h in
theorem start_eq_iff {k k' : EdgeId} {s s' : NodeId} (hk : g.edge? k = some (startEdge s))
    (hk' : g.edge? k' = some (startEdge s')) : k = k' ↔ s = s' := by
  constructor
  · rintro rfl
    rw [hk] at hk'
    exact congrArg PatternEdge.omega (Option.some.inj hk')
  · rintro rfl
    rcases Nat.lt_trichotomy k.index k'.index with hlt | heq | hlt
    · exact absurd (h.start_lt hk hk' hlt) (Int.lt_irrefl _)
    · exact congrArg EdgeId.mk heq
    · exact absurd (h.start_lt hk' hk hlt) (Int.lt_irrefl _)

include h in
/-- No edge arrives at the first token of a start. -/
theorem alone_of_start {t : NodeToken} {k : EdgeId} (ht : ts[p]? = some (.node t))
    (hhome : home ts p = p) (hk : g.edge? k = some (startEdge (nodeAt cx ts p))) :
    arrives ts p = false := by
  obtain ⟨q, u, hu, hq, halone, heq⟩ := h.exists_of_isStart (h.start_index hk).1
  have hsame := home_eq_of_nodeAt_eq ht hu heq
  rw [hhome, hq] at hsame
  rwa [hsame]

end Drawn

end GraphPattern.PatternGraph.Drawing
