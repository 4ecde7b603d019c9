import GraphPattern.Proofs.Embeddings
import GraphPattern.Proofs.Juxtaposed

/-!
# GraphPattern — plans of patterns one after the other

The graphs of two patterns without a common name lie beside each other, and anchoring links their
components to the anchor in the order in which they were declared. The walk takes one component after
the other, so that the steps for the second pattern follow those for the first one, with other numbers
for hidden variables.

## Results

* `PatternGraph.Beside.starts_eq` — where the components of both graphs start.
* `PatternGraph.Juxtaposed.embeds_front`, `PatternGraph.Juxtaposed.embeds_back` — both anchored graphs
  are embedded in that of both patterns.
* `Context.compile_append` — the plan of two patterns in a row.
-/

namespace GraphPattern

open PatternGraph

namespace PatternGraph

variable {cx cx' : Context} {p g j : PatternGraph} {d : Nat} {a b n : NodeId}

-- ---------------------------------------------------------------------------
-- Components of graphs beside each other
-- ---------------------------------------------------------------------------

/-- A node behind the first graph is none of its nodes. -/
theorem not_isNode_behind (hp : 0 < p.nodes.length) (hn : g.IsNode n) (hne : n ≠ g.anchor) :
    ¬ p.IsNode (p.behind.node n) := by
  obtain ⟨i, rfl, -⟩ := hn.eq_anchor_or_succ.resolve_left hne
  rw [behind_succ hp]
  rintro ⟨k, hk, hlt⟩
  have := NodeId.mk.inj hk
  omega

namespace Beside

variable (h : Beside d p g j) (hp : p.Consistent) (hg : g.Consistent) (hd : g.Detached)

include h in
theorem mem_edges {e : PatternEdge} :
    e ∈ j.edges ↔ e ∈ p.edges ∨ ∃ e₀ ∈ g.edges, e = e₀.later p.behind d := by
  rw [h.edges, List.mem_append, List.mem_map]
  exact or_congr_right ⟨fun ⟨e₀, he₀, heq⟩ => ⟨e₀, he₀, heq.symm⟩, fun ⟨e₀, he₀, heq⟩ =>
    ⟨e₀, he₀, heq.symm⟩⟩

include h hp hg hd in
/-- Nothing is added to the nodes of the first graph. -/
theorem adjacent_front (ha : p.IsNode a) (hab : j.Adjacent a b) : p.Adjacent a b := by
  obtain ⟨e, he, hends⟩ := hab.exists_edge
  rcases h.mem_edges.1 he with he | ⟨e₀, he₀, rfl⟩
  · rcases hends with ⟨rfl, rfl⟩ | ⟨rfl, rfl⟩
    · exact adjacent_of_mem he
    · exact (adjacent_of_mem he).symm
  · obtain ⟨halpha, homega⟩ := hg.ends e₀ he₀
    obtain ⟨hne, hne'⟩ := hd e₀ he₀
    rcases hends with ⟨rfl, -⟩ | ⟨-, rfl⟩
    · exact absurd ha (not_isNode_behind hp.inhabited halpha hne)
    · exact absurd ha (not_isNode_behind hp.inhabited homega hne')

include h hp hg hd in
/-- Nothing but the second graph is added to the nodes behind the first one. -/
theorem adjacent_behind (hn : g.IsNode n) (hne : n ≠ g.anchor)
    (hab : j.Adjacent (p.behind.node n) b) :
    ∃ m, g.IsNode m ∧ m ≠ g.anchor ∧ b = p.behind.node m ∧ g.Adjacent n m := by
  obtain ⟨e, he, hends⟩ := hab.exists_edge
  have hold := not_isNode_behind hp.inhabited hn hne
  rcases h.mem_edges.1 he with he | ⟨e₀, he₀, rfl⟩
  · obtain ⟨halpha, homega⟩ := hp.ends e he
    rcases hends with ⟨heq, -⟩ | ⟨-, heq⟩
    · exact absurd (heq ▸ halpha) hold
    · exact absurd (heq ▸ homega) hold
  · obtain ⟨halpha, homega⟩ := hg.ends e₀ he₀
    obtain ⟨hne, hne'⟩ := hd e₀ he₀
    rcases hends with ⟨heq, rfl⟩ | ⟨rfl, heq⟩
    · rw [← behind_injective hp.inhabited halpha hn heq]
      exact ⟨_, homega, hne', rfl, adjacent_of_mem he₀⟩
    · rw [← behind_injective hp.inhabited homega hn heq]
      exact ⟨_, halpha, hne, rfl, (adjacent_of_mem he₀).symm⟩

include h hp hg hd in
theorem joined_front (ha : p.IsNode a) (hab : j.Joined a b) : p.IsNode b ∧ p.Joined a b := by
  induction hab with
  | refl => exact ⟨ha, .refl⟩
  | tail _ hbc ih =>
    have hadj := h.adjacent_front hp hg hd ih.1 hbc
    obtain ⟨i, hi, -, rfl⟩ := id hadj
    exact ⟨hp.isNode_that hi, ih.2.tail hadj⟩

include h hp hg hd in
theorem joined_behind (hn : g.IsNode n) (hne : n ≠ g.anchor) (hab : j.Joined (p.behind.node n) b) :
    ∃ m, g.IsNode m ∧ m ≠ g.anchor ∧ b = p.behind.node m ∧ g.Joined n m := by
  induction hab with
  | refl => exact ⟨n, hn, hne, rfl, .refl⟩
  | tail _ hbc ih =>
    obtain ⟨m, hm, hmne, rfl, hjoined⟩ := ih
    obtain ⟨m', hm', hmne', rfl, hadj⟩ := h.adjacent_behind hp hg hd hm hmne hbc
    exact ⟨m', hm', hmne', rfl, hjoined.tail hadj⟩

include h in
theorem joined_of_behind (hnm : g.Joined n a) : j.Joined (p.behind.node n) (p.behind.node a) := by
  induction hnm with
  | refl => exact .refl
  | tail _ hbc ih =>
    obtain ⟨e, he, hends⟩ := hbc.exists_edge
    have hadj := adjacent_of_mem (h.mem_edges.2 (.inr ⟨e, he, rfl⟩))
    rcases hends with ⟨rfl, rfl⟩ | ⟨rfl, rfl⟩
    · exact ih.tail hadj
    · exact ih.tail hadj.symm

/-- Places behind a graph are in the order of the places before. -/
theorem behind_lt_iff (hp : 0 < p.nodes.length) {m n : NodeId} (hm : g.IsNode m)
    (hmne : m ≠ g.anchor) (hn : g.IsNode n) (hne : n ≠ g.anchor) :
    (p.behind.node m).index < (p.behind.node n).index ↔ m.index < n.index := by
  obtain ⟨i, rfl, -⟩ := hm.eq_anchor_or_succ.resolve_left hmne
  obtain ⟨k, rfl, -⟩ := hn.eq_anchor_or_succ.resolve_left hne
  rw [behind_succ hp, behind_succ hp]
  simp only
  omega

include h hp hg hd in
/-- The components of the first graph start where they did. -/
theorem isStart_front (hn : p.IsNode n) : j.IsStart n ↔ p.IsStart n := by
  constructor
  · rintro ⟨-, hne, hfirst⟩
    refine ⟨hn, hne, fun m hm hlt hjoined => hfirst m (h.old.isNode hm) hlt ?_⟩
    exact hjoined.mono fun e he => h.mem_edges.2 (.inl he)
  · rintro ⟨-, hne, hfirst⟩
    refine ⟨h.old.isNode hn, hne, fun m hm hlt hjoined => ?_⟩
    obtain ⟨hm', hjoined'⟩ := h.joined_front hp hg hd hn hjoined
    exact hfirst m hm' hlt hjoined'

include h hp hg hd in
/-- The components of the second graph start behind the first one. -/
theorem isStart_behind (hn : g.IsNode n) (hne : n ≠ g.anchor) :
    j.IsStart (p.behind.node n) ↔ g.IsStart n := by
  constructor
  · rintro ⟨-, -, hfirst⟩
    refine ⟨hn, hne, fun m hm hlt hjoined => ?_⟩
    have hjoint := h.joined_of_behind hjoined
    by_cases hmne : m = g.anchor
    · -- nothing leads from the anchor into a component
      obtain ⟨m', hm', hmne', heq, -⟩ := h.joined_behind hp hg hd hn hne hjoint
      exact hmne' ((behind_injective hp.inhabited hm hm' heq).symm.trans hmne)
    · exact hfirst _ (h.isNode hp.inhabited hg.inhabited hm)
        ((behind_lt_iff hp.inhabited hm hmne hn hne).2 hlt) hjoint
  · rintro ⟨-, -, hfirst⟩
    refine ⟨h.isNode hp.inhabited hg.inhabited hn, ?_, fun m hm hlt hjoined => ?_⟩
    · rw [← behind_anchor p g]
      exact fun heq => hne (behind_injective hp.inhabited hn (isNode_anchor hg.inhabited) heq)
    · obtain ⟨m', hm', hmne', rfl, hjoined'⟩ := h.joined_behind hp hg hd hn hne hjoined
      exact hfirst m' hm' ((behind_lt_iff hp.inhabited hm' hmne' hn hne).1 hlt) hjoined'

include h hp hg in
/-- The nodes of both graphs, but for one of the anchors. -/
theorem nodeIds_eq : j.nodeIds = p.nodeIds ++ g.nodeIds.tail.map p.behind.node := by
  obtain ⟨k, hk⟩ := Nat.exists_eq_succ_of_ne_zero (Nat.pos_iff_ne_zero.1 hg.inhabited)
  rw [nodeIds, nodeIds, nodeIds, h.length_nodes, hk, Nat.succ_sub_one, List.range_add,
    List.map_append, List.range_succ_eq_map, List.map_cons, List.tail_cons, List.map_map,
    List.map_map, List.map_map]
  congr 1
  refine List.map_congr_left fun i _ => ?_
  exact (behind_succ hp.inhabited i).symm

include h hp hg hd in
/-- The components of both graphs start where they did, those of the first graph first. -/
theorem starts_eq : j.starts = p.starts ++ g.starts.map p.behind.node := by
  classical
  obtain ⟨k, hk⟩ := Nat.exists_eq_succ_of_ne_zero (Nat.pos_iff_ne_zero.1 hg.inhabited)
  -- the anchor is the first node and no start, so the starts are among the others
  have hids : g.nodeIds = g.anchor :: g.nodeIds.tail := by
    rw [nodeIds, hk, List.range_succ_eq_map]
    rfl
  have hnodup : g.nodeIds.Nodup := g.nodeIds_pairwise.imp (by rintro m n hlt rfl; omega)
  have hne : ∀ n ∈ g.nodeIds.tail, g.IsNode n ∧ n ≠ g.anchor := by
    intro n hn
    rw [hids] at hnodup
    refine ⟨mem_nodeIds.1 (List.mem_of_mem_tail hn), ?_⟩
    rintro rfl
    exact (List.nodup_cons.1 hnodup).1 hn
  have hstarts : g.starts = g.nodeIds.tail.filter fun n => decide (g.IsStart n) := by
    rw [starts, hids, List.filter_cons_of_neg, List.tail_cons]
    simp only [decide_eq_true_eq]
    exact fun hstart => hstart.ne_anchor rfl
  -- the nodes of the whole are those of the first, then the second's without its anchor
  rw [starts, h.nodeIds_eq hp hg, List.filter_append, starts, hstarts, List.filter_map]
  congr 1
  · exact List.filter_congr fun n hn =>
      decide_eq_decide.2 (h.isStart_front hp hg hd (mem_nodeIds.1 hn))
  · congr 1
    exact List.filter_congr fun n hn =>
      decide_eq_decide.2 (h.isStart_behind hp hg hd (hne n hn).1 (hne n hn).2)

end Beside

-- ---------------------------------------------------------------------------
-- Anchored graphs
-- ---------------------------------------------------------------------------

/-- The place of a member of two lists in a row, of which the first has `a` members, when `b` members
are put between them. -/
def shifted (a b k : Nat) : Nat :=
  if k < a then k else k + b

theorem shifted_lt (a b : Nat) {k l : Nat} (h : k < l) : shifted a b k < shifted a b l := by
  unfold shifted
  split <;> split <;> omega

section

variable {α : Type} {as bs cs ds : List α} {k : Nat} {x : α}

theorem getElem?_shifted (bs ds : List α) (h : (as ++ cs)[k]? = some x) :
    (as ++ bs ++ cs ++ ds)[shifted as.length bs.length k]? = some x := by
  unfold shifted
  split
  · rename_i hlt
    rw [List.getElem?_append_left hlt] at h
    rwa [List.append_assoc, List.append_assoc, List.getElem?_append_left hlt]
  · rename_i hge
    rw [List.getElem?_append_right (by omega)] at h
    rw [List.append_assoc, List.getElem?_append_right (by rw [List.length_append]; omega),
      List.length_append, Nat.add_sub_add_right]
    exact List.getElem?_append_left (List.getElem?_eq_some_iff.1 h).1 ▸ h

/-- Of four lists in a row, what is in none of two lists is in the other two. -/
theorem shifted_of_getElem? (h : (as ++ bs ++ cs ++ ds)[k]? = some x) :
    (∃ i, k = shifted as.length bs.length i ∧ (as ++ cs)[i]? = some x) ∨
      ∃ i, k = as.length + shifted bs.length cs.length i ∧ (bs ++ ds)[i]? = some x := by
  rw [List.append_assoc, List.append_assoc] at h
  -- in which of the four it stands: the first and third are one side, the others the other
  rcases Nat.lt_or_ge k as.length with hlt | hge
  · rw [List.getElem?_append_left hlt] at h
    exact .inl ⟨k, by rw [shifted, if_pos hlt], by rwa [List.getElem?_append_left hlt]⟩
  rw [List.getElem?_append_right hge] at h
  rcases Nat.lt_or_ge (k - as.length) bs.length with hlt | hge'
  · rw [List.getElem?_append_left hlt] at h
    refine .inr ⟨k - as.length, ?_, by rwa [List.getElem?_append_left hlt]⟩
    rw [shifted, if_pos hlt]
    omega
  rw [List.getElem?_append_right hge'] at h
  rcases Nat.lt_or_ge (k - as.length - bs.length) cs.length with hlt | hge''
  · rw [List.getElem?_append_left hlt] at h
    refine .inl ⟨k - bs.length, ?_, ?_⟩
    · rw [shifted, if_neg (by omega)]
      omega
    · rw [List.getElem?_append_right (by omega), Nat.sub_right_comm]
      exact h
  · rw [List.getElem?_append_right hge''] at h
    refine .inr ⟨k - as.length - cs.length, ?_, ?_⟩
    · rw [shifted, if_neg (by omega)]
      omega
    · rw [List.getElem?_append_right (by omega), Nat.sub_right_comm _ cs.length]
      exact h

end

/-- The places of an anchored graph once another graph is put behind it. -/
def front (p g : PatternGraph) : Renumbering where
  node n := n
  edge k := ⟨shifted p.edges.length g.edges.length k.index⟩

/-- The places of an anchored graph once it is put behind another graph. -/
noncomputable def back (p g : PatternGraph) : Renumbering where
  node := p.behind.node
  edge k := ⟨p.edges.length + shifted g.edges.length p.starts.length k.index⟩

theorem startEdge_later (d : Nat) (n : NodeId) :
    (startEdge n).later p.behind d = startEdge (p.behind.node n) := by
  simp [startEdge, PatternEdge.later, behind]

theorem like_back (p g : PatternGraph) (d : Nat) (e : PatternEdge) :
    e.Like (back p g) (e.later p.behind d) :=
  ⟨rfl, rfl, rfl, rfl, rfl⟩

/-- An edge seen from one of its ends, and where it is renumbered to. -/
theorem exists_incident_of_like {q : Renumbering} {i : Incidence} {k : EdgeId}
    {e e' : PatternEdge} (hk : q.edge k = i.edge) (he : g.edge? k = some e) (hlike : e.Like q e')
    (hseen : i = e'.seen i.edge i.direction) : ∃ i₀, g.Incident i₀ ∧ q.incidence i₀ = i := by
  refine ⟨e.seen k i.direction, .seen he _, ?_⟩
  rw [hseen]
  cases i.direction <;>
    simp only [Renumbering.incidence, PatternEdge.seen, hlike.alpha, hlike.omega, hk]

/-- The graphs of two patterns and of both in a row, each with what anchoring makes of it. -/
structure Juxtaposed (d : Nat) (p p₁ g g₁ j j₁ : PatternGraph) : Prop where
  beside : Beside d p g j
  first : p.Consistent
  second : g.Consistent
  root : p.node? p.anchor = g.node? g.anchor
  detached : g.Detached
  anchorsFirst : Anchors p p₁
  anchorsSecond : Anchors g g₁
  anchorsBoth : Anchors j j₁

variable {p₁ g₁ j₁ : PatternGraph}

namespace Juxtaposed

variable (h : Juxtaposed d p p₁ g g₁ j j₁)

include h in
/-- The edges of the anchored graphs, each behind the edges of its kind. -/
theorem edges_anchored : j₁.edges = p.edges ++ g.edges.map (PatternEdge.later p.behind d) ++
    p.starts.map startEdge ++ (g.starts.map startEdge).map (PatternEdge.later p.behind d) := by
  rw [h.anchorsBoth.edges, h.beside.starts_eq h.first h.second h.detached, h.beside.edges,
    List.map_append, List.map_map, List.map_map, ← List.append_assoc]
  exact congrArg _ (List.map_congr_left fun n _ => (startEdge_later d n).symm)

include h in
/-- An edge of the first graph has its place in the joint graph. -/
theorem edge?_front {k : EdgeId} {e : PatternEdge} (he : p₁.edge? k = some e) :
    j₁.edge? ((front p g).edge k) = some e := by
  have he : (p.edges ++ p.starts.map startEdge)[k.index]? = some e := by
    rw [← h.anchorsFirst.edges]
    exact he
  have hjoint := getElem?_shifted (g.edges.map (PatternEdge.later p.behind d))
    ((g.starts.map startEdge).map (PatternEdge.later p.behind d)) he
  rw [← h.edges_anchored, List.length_map] at hjoint
  exact hjoint

include h in
/-- An edge of the second graph has its place in the joint graph. -/
theorem edge?_back {k : EdgeId} {e : PatternEdge} (he : g₁.edge? k = some e) :
    j₁.edge? ((back p g).edge k) = some (e.later p.behind d) := by
  have he : (g.edges.map (PatternEdge.later p.behind d) ++
      (g.starts.map startEdge).map (PatternEdge.later p.behind d))[k.index]? =
        some (e.later p.behind d) := by
    have he : g₁.edges[k.index]? = some e := he
    rw [← List.map_append, ← h.anchorsSecond.edges, List.getElem?_map, he]
    rfl
  have hjoint := getElem?_shifted (p.starts.map startEdge) [] he
  rw [List.length_map, List.length_map, List.append_nil] at hjoint
  show j₁.edges[p.edges.length + _]? = _
  rw [h.edges_anchored, List.append_assoc, List.append_assoc,
    List.getElem?_append_right (Nat.le_add_right _ _), Nat.add_sub_cancel_left, ← List.append_assoc]
  exact hjoint

include h in
/-- An edge of the joint graph is one of the first graph or one of the second graph. -/
theorem edge?_cases {k : EdgeId} {e : PatternEdge} (he : j₁.edge? k = some e) :
    (∃ k₀, (front p g).edge k₀ = k ∧ p₁.edge? k₀ = some e) ∨
      ∃ k₀ e₀, (back p g).edge k₀ = k ∧ g₁.edge? k₀ = some e₀ ∧ e = e₀.later p.behind d := by
  have he : j₁.edges[k.index]? = some e := he
  rw [h.edges_anchored] at he
  rcases shifted_of_getElem? he with ⟨i, hk, hi⟩ | ⟨i, hk, hi⟩
  · refine .inl ⟨⟨i⟩, congrArg EdgeId.mk ?_, ?_⟩
    · rw [hk, List.length_map]
    · rw [← h.anchorsFirst.edges] at hi
      exact hi
  · rw [← List.map_append, ← h.anchorsSecond.edges, List.getElem?_map] at hi
    obtain ⟨e₀, he₀, rfl⟩ := Option.map_eq_some_iff.1 hi
    refine .inr ⟨⟨i⟩, e₀, congrArg EdgeId.mk ?_, he₀, rfl⟩
    rw [hk, List.length_map, List.length_map]

include h in
/-- An incidence of the joint graph is one of the first graph or one of the second graph. -/
theorem incident_cases {i : Incidence} (hi : j₁.Incident i) :
    (∃ i₀, p₁.Incident i₀ ∧ (front p g).incidence i₀ = i) ∨
      ∃ i₀, g₁.Incident i₀ ∧ (back p g).incidence i₀ = i := by
  obtain ⟨e, he, hseen⟩ := hi
  rcases h.edge?_cases he with ⟨k, hk, he₀⟩ | ⟨k, e₀, hk, he₀, rfl⟩
  · exact .inl (exists_incident_of_like hk he₀ ⟨rfl, rfl, rfl, rfl, rfl⟩ hseen)
  · exact .inr (exists_incident_of_like hk he₀ (like_back p g d e₀) hseen)

include h in
/-- The first graph is embedded in the joint graph. -/
theorem embeds_front : Embeds (front p g) p₁ j₁ where
  anchor := rfl
  image := fun n hn =>
    h.anchorsBoth.isNode_iff.2 (h.beside.old.isNode (h.anchorsFirst.isNode_iff.1 hn))
  node := by
    intro n nd hn hnd
    refine ⟨nd, ?_, ⟨rfl, rfl, rfl⟩, rfl⟩
    rw [node?_of_nodes_eq h.anchorsFirst.nodes] at hnd
    rw [node?_of_nodes_eq h.anchorsBoth.nodes]
    exact (h.beside.old.node? (h.anchorsFirst.isNode_iff.1 hn)).trans hnd
  injective := fun _ _ _ _ heq => heq
  edge := fun k e he => ⟨e, h.edge?_front he, rfl, rfl, rfl, rfl, rfl⟩
  edgeOrder := fun _ _ hlt => shifted_lt _ _ hlt
  closed := by
    intro i hi n hn hne hthis
    rcases h.incident_cases hi with hfront | ⟨i₀, hi₀, rfl⟩
    · exact hfront
    -- the second graph only has the anchor in common with the first one
    · have hnode := h.anchorsSecond.isNode_iff.1 (h.anchorsSecond.consistent.isNode_this hi₀)
      have hsame : p.behind.node i₀.this = n := hthis
      by_cases hanchor : i₀.this = g.anchor
      · rw [hanchor, behind_anchor p g p₁] at hsame
        exact absurd hsame.symm hne
      · exact absurd (hsame ▸ h.anchorsFirst.isNode_iff.1 hn)
          (not_isNode_behind h.first.inhabited hnode hanchor)

include h in
/-- The second graph is embedded in the joint graph. -/
theorem embeds_back : Embeds (back p g) g₁ j₁ where
  anchor := behind_anchor p g₁ j₁
  image := fun n hn => h.anchorsBoth.isNode_iff.2
    (h.beside.isNode h.first.inhabited h.second.inhabited (h.anchorsSecond.isNode_iff.1 hn))
  node := by
    intro n nd hn hnd
    rw [node?_of_nodes_eq h.anchorsSecond.nodes] at hnd
    -- the anchor of the second is that of the whole; its other nodes come behind the first's
    by_cases hanchor : n = g.anchor
    · refine ⟨nd, ?_, ⟨rfl, rfl, rfl⟩, rfl⟩
      rw [hanchor] at hnd ⊢
      rw [node?_of_nodes_eq h.anchorsBoth.nodes]
      show j.node? (p.behind.node g.anchor) = _
      rw [behind_anchor p g p]
      exact (h.beside.old.node? (isNode_anchor h.first.inhabited)).trans (h.root.trans hnd)
    · refine ⟨nd.later d, ?_, ⟨rfl, rfl, rfl⟩, rfl⟩
      rw [node?_of_nodes_eq h.anchorsBoth.nodes]
      show j.node? (p.behind.node n) = _
      rw [h.beside.node? h.first.inhabited (h.anchorsSecond.isNode_iff.1 hn) hanchor, hnd]
      rfl
  injective := fun m n hm hn heq =>
    behind_injective h.first.inhabited (h.anchorsSecond.isNode_iff.1 hm)
      (h.anchorsSecond.isNode_iff.1 hn) heq
  edge := fun k e he => ⟨_, h.edge?_back he, like_back p g d e⟩
  edgeOrder := fun _ _ hlt => Nat.add_lt_add_left (shifted_lt _ _ hlt) _
  -- an edge of the first touches nodes of the first only
  closed := by
    intro i hi n hn hne hthis
    rcases h.incident_cases hi with ⟨i₀, hi₀, rfl⟩ | hback
    · have hnode := h.anchorsFirst.isNode_iff.1 (h.anchorsFirst.consistent.isNode_this hi₀)
      exact absurd (hthis ▸ hnode)
        (not_isNode_behind h.first.inhabited (h.anchorsSecond.isNode_iff.1 hn) hne)
    · exact hback

include h in
theorem length_front : p₁.edges.length = p.edges.length + p.starts.length := by
  rw [h.anchorsFirst.edges, List.length_append, List.length_map]

include h in
/-- At the anchor, the second graph only has the links to its starts. -/
theorem le_edge_of_anchor {i : Incidence} (hi : g₁.Incident i) (hthis : i.this = g₁.anchor) :
    g.edges.length ≤ i.edge.index := by
  obtain ⟨e, he, hseen⟩ := hi
  by_contra hlt
  have hmem : e ∈ g.edges := by
    have he : g₁.edges[i.edge.index]? = some e := he
    rw [h.anchorsSecond.edges, List.getElem?_append_left (by omega)] at he
    exact List.mem_of_getElem? he
  obtain ⟨halpha, homega⟩ := h.detached e hmem
  rw [hseen] at hthis
  cases hdir : i.direction <;> rw [hdir] at hthis
  · exact halpha hthis
  · exact homega hthis

include h in
/-- At the anchor, the first graph comes first. -/
theorem incidencesOf_anchor {l l' : List Incidence} (hl : p₁.incidencesOf p₁.anchor = .ok l)
    (hl' : g₁.incidencesOf g₁.anchor = .ok l') : j₁.incidencesOf j₁.anchor =
      .ok (l.map (front p g).incidence ++ l'.map (back p g).incidence) := by
  have hfront := h.embeds_front
  have hback := h.embeds_back
  have hroot : p₁.IsNode p₁.anchor := isNode_anchor h.anchorsFirst.consistent.inhabited
  have hroot' : g₁.IsNode g₁.anchor := isNode_anchor h.anchorsSecond.consistent.inhabited
  have hmem := fun i => h.anchorsFirst.consistent.mem_incidencesOf hl hroot (i := i)
  have hmem' := fun i => h.anchorsSecond.consistent.mem_incidencesOf hl' hroot' (i := i)
  refine h.anchorsBoth.consistent.incidencesOf_eq
    (isNode_anchor h.anchorsBoth.consistent.inhabited) ?_ fun i => ?_
  · -- the first's come before the second's, as they do among the edges of the whole
    rw [List.pairwise_append, List.pairwise_map, List.pairwise_map]
    refine ⟨(h.anchorsFirst.consistent.incidencesOf_pairwise hroot hl).imp hfront.before,
      (h.anchorsSecond.consistent.incidencesOf_pairwise hroot' hl').imp hback.before, ?_⟩
    intro i hi i' hi'
    obtain ⟨a, ha, rfl⟩ := List.mem_map.1 hi
    obtain ⟨b, hb, rfl⟩ := List.mem_map.1 hi'
    obtain ⟨⟨e, he, -⟩, -⟩ := (hmem a).1 ha
    obtain ⟨hinc, hthis⟩ := (hmem' b).1 hb
    have hlt := (List.getElem?_eq_some_iff.1 he).1
    have hge := h.le_edge_of_anchor hinc hthis
    rw [h.length_front] at hlt
    refine .inl ?_
    simp only [Renumbering.incidence, front, back, shifted]
    split <;> split <;> omega
  · -- an edge at the anchor is one of the first's or one of the second's
    rw [List.mem_append, List.mem_map, List.mem_map]
    constructor
    · rintro (⟨i₀, hi₀, rfl⟩ | ⟨i₀, hi₀, rfl⟩)
      · obtain ⟨hinc, hthis⟩ := (hmem i₀).1 hi₀
        exact ⟨hfront.incident hinc, hthis⟩
      · obtain ⟨hinc, hthis⟩ := (hmem' i₀).1 hi₀
        exact ⟨hback.incident hinc, (congrArg _ hthis).trans hback.anchor⟩
    · rintro ⟨hi, hthis⟩
      rcases h.incident_cases hi with ⟨i₀, hi₀, rfl⟩ | ⟨i₀, hi₀, rfl⟩
      · exact .inl ⟨i₀, (hmem i₀).2 ⟨hi₀, hthis⟩, rfl⟩
      · refine .inr ⟨i₀, (hmem' i₀).2 ⟨hi₀, ?_⟩, rfl⟩
        exact hback.injective _ _ (h.anchorsSecond.consistent.isNode_this hi₀) hroot'
          (hthis.trans hback.anchor.symm)

end Juxtaposed

end PatternGraph

-- ---------------------------------------------------------------------------
-- The walk
-- ---------------------------------------------------------------------------

namespace Plan

variable {cx cx' cx₁ : Context} {d : Nat} {p p₁ g g₁ j j₁ : PatternGraph}

theorem pendingEntries_eq {n : NodeId} {visited : List Handle} {es : List Entry} :
    pendingEntries g n visited = .ok es ↔ ∃ l, g.incidencesOf n = .ok l ∧
      es = (l.filter fun i => decide (Handle.edge i.edge ∉ visited)).map .along := by
  simp only [pendingEntries]
  cases g.incidencesOf n with
  | error f => simp [Failure.ofFault, bind, Except.bind]
  | ok l => simp [Failure.ofFault, bind, Except.bind, pure, Except.pure, eq_comm]

/-- From the anchor, the walk takes up the entries of both graphs. -/
theorem pendingEntries_juxtaposed (h : Juxtaposed d p p₁ g g₁ j j₁) {es es' : List Entry}
    (hes : pendingEntries p₁ p₁.anchor [.node p₁.anchor] = .ok es)
    (hes' : pendingEntries g₁ g₁.anchor [.node g₁.anchor] = .ok es') :
    pendingEntries j₁ j₁.anchor [.node j₁.anchor] =
      .ok (es.map (Entry.renumbered (front p g)) ++ es'.map (Entry.renumbered (back p g))) := by
  obtain ⟨l, hl, rfl⟩ := pendingEntries_eq.1 hes
  obtain ⟨l', hl', rfl⟩ := pendingEntries_eq.1 hes'
  refine pendingEntries_eq.2 ⟨_, h.incidencesOf_anchor hl hl', ?_⟩
  simp [Entry.renumbered, Function.comp_def]

/-- The walk begins with the anchor. -/
theorem Explores.entered (hr : Rooted cx g g₁) {steps : List Step} {last lastBinds : List Handle}
    (h : Explores cx g g₁ [] [] [.node g₁.anchor] steps last lastBinds) :
    ∃ es, pendingEntries g₁ g₁.anchor [.node g₁.anchor] = .ok es ∧
      Explores cx g g₁ [.node g₁.anchor] [] es steps last lastBinds := by
  obtain ⟨root, hroot, hanchor⟩ := hr.regular.anchor
  -- the anchor is of its own kind, so its visit takes on what is pending and no step
  cases h with
  | skip seen => cases seen
  | visit _ _ emits more =>
    cases emits with
    | anchor node kind pending =>
      refine ⟨_, pending, ?_⟩
      simpa [Entry.handle] using more
    | place node kind =>
      rw [hroot] at node
      cases node
      rw [hanchor] at kind
      cases kind
    | argument node kind =>
      rw [hroot] at node
      cases node
      rw [hanchor] at kind
      cases kind

/-- The joint graph has the first graph under its own names. -/
theorem calls_front (h : Juxtaposed d p p₁ g g₁ j j₁) : Calls id (front p g) p₁ j₁ where
  var := by
    intro n hn
    have hnode : j₁.node? n = p₁.node? n := by
      rw [node?_of_nodes_eq h.anchorsFirst.nodes, node?_of_nodes_eq h.anchorsBoth.nodes]
      exact h.beside.old.node? (h.anchorsFirst.isNode_iff.1 hn.1)
    show varOf p₁ n = varOf j₁ n
    rw [varOf, varOf, hnode]
  name := fun _ _ => rfl
  constraint := fun _ _ c _ _ _ => Step.renamed_id _

/-- A constraint that binds visible names is the same with other numbers for hidden variables. -/
theorem constraintStep_renamed {r : String → String}
    (hr : ∀ name, isHiddenName name = false → r name = name) {c : Constraint}
    (hc : ∀ name ∈ c.names, isHiddenName name = false) :
    (constraintStep c).renamed r = constraintStep c := by
  cases c with
  | when f | whilst f => rfl
  | bind bs =>
    simp only [constraintStep, Step.renamed, List.map_map]
    refine congrArg Step.assignAll (List.map_congr_left fun b hb => ?_)
    simp only [Function.comp, Expr.renamed, hr b.1 (hc b.1 (List.mem_map_of_mem hb))]

/-- The joint graph has the second graph with other numbers for hidden variables. -/
theorem calls_back (h : Juxtaposed d p p₁ g g₁ j j₁) (hg₁ : g₁.Regular cx)
    (hconstraints : ∀ c ∈ g₁.constraints, ∀ name ∈ c.names, isHiddenName name = false) :
    Calls (raised (p.nodes.length - 1)) (back p g) g₁ j₁ where
  var := by
    intro n hn
    have hne : n ≠ g₁.anchor := fun heq => hg₁.not_isPlace_anchor (heq ▸ hn)
    obtain ⟨nd, hnode⟩ := hn.1.exists_node
    obtain ⟨nd', hnode', hlike, -⟩ := h.embeds_back.node n nd hn.1 hnode
    -- a name is kept, a hidden one is raised by the nodes that came to stand before it
    cases hname : nd.name? with
    | some name =>
      have hhas : g₁.HasName (.node n) name := ⟨hn.1, by rw [hnode]; exact hname⟩
      have hhas' : j₁.HasName (.node ((back p g).node n)) name :=
        ⟨h.embeds_back.image n hn.1, by rw [hnode']; exact hlike.name.trans hname⟩
      rw [varOf_named hhas, varOf_named hhas']
      exact raised_visible _ (hg₁.visible _ _ hhas)
    | none =>
      have hp := h.first.inhabited
      obtain ⟨i, rfl, -⟩ := hn.1.eq_anchor_or_succ.resolve_left hne
      have hback : (back p g).node ⟨(i + 1 : Nat)⟩ = ⟨(p.nodes.length + i : Nat)⟩ :=
        behind_succ hp i
      have hvar : varOf g₁ ⟨(i + 1 : Nat)⟩ = "#" ++ toString (i + 1) := by
        rw [varOf, hnode, Option.bind_some, hname]
        rfl
      have hvar' : varOf j₁ ⟨(p.nodes.length + i : Nat)⟩ = "#" ++ toString (p.nodes.length + i) := by
        rw [varOf, ← hback, hnode', Option.bind_some, hlike.name, hname, hback]
        rfl
      rw [hback, hvar, hvar', raised_hidden]
      -- the first's anchor and the second's are one
      congr 2
      omega
  name := fun _ hname => raised_visible _ hname
  constraint := fun n nd c hn hnode hc =>
    constraintStep_renamed (fun _ hname => raised_visible _ hname)
      (hconstraints c (mem_constraints.2 ⟨n, nd, hn, hnode, hc⟩))

/-- What the first graph has besides the anchor is nothing of the second graph. -/
theorem front_ne_back (h : Juxtaposed d p p₁ g g₁ j j₁) {x y : Handle} (hx : p₁.Has x)
    (hne : x ≠ .node p₁.anchor) (hy : g₁.Has y) : (front p g).handle x ≠ (back p g).handle y := by
  intro heq
  cases x <;> cases y
  case node.node m n =>
    have hsame : m = p.behind.node n := Handle.node.inj heq
    by_cases hanchor : n = g.anchor
    · rw [hanchor, behind_anchor p g p₁] at hsame
      exact hne (congrArg Handle.node hsame)
    · exact not_isNode_behind h.first.inhabited (h.anchorsSecond.isNode_iff.1 hy) hanchor
        (hsame ▸ h.anchorsFirst.isNode_iff.1 hx)
  case edge.edge k l =>
    obtain ⟨e, he⟩ := hx
    obtain ⟨e', he'⟩ := hy
    have hlt := (List.getElem?_eq_some_iff.1 he).1
    rw [h.length_front] at hlt
    have hsame := congrArg EdgeId.index (Handle.edge.inj heq)
    simp only [front, back, shifted] at hsame
    split at hsame <;> split at hsame <;> omega
  all_goals cases heq

/-- The walk takes the first graph and then the second one. -/
theorem explore_juxtaposed (h : Juxtaposed d p p₁ g g₁ j j₁) (hp : Rooted cx p p₁)
    (hg : Rooted cx' g g₁) (hengine : cx₁.engine = cx.engine) (hengine' : cx₁.engine = cx'.engine)
    (hconstraints : ∀ c ∈ g₁.constraints, ∀ name ∈ c.names, isHiddenName name = false)
    (hanchor : ∃ nd, j₁.node? j₁.anchor = some nd ∧ nd.kind = .anchor)
    {steps steps' : List Step} {last last' lastBinds lastBinds' : List Handle}
    (hsteps : Explores cx p p₁ [] [] [.node p₁.anchor] steps last lastBinds)
    (hsteps' : Explores cx' g g₁ [] [] [.node g₁.anchor] steps' last' lastBinds') :
    explore cx₁ j₁ [] [.node j₁.anchor] =
      .ok (steps ++ steps'.map (Step.renamed (raised (p.nodes.length - 1)))) := by
  obtain ⟨root, hroot, hkind⟩ := hanchor
  obtain ⟨es, hes, hwalk⟩ := hsteps.entered hp
  obtain ⟨es', hes', hwalk'⟩ := hsteps'.entered hg
  have hroot₁ : p₁.IsNode p₁.anchor := isNode_anchor h.anchorsFirst.consistent.inhabited
  have hroot₂ : g₁.IsNode g₁.anchor := isNode_anchor h.anchorsSecond.consistent.inhabited
  have honly : ∀ {q : PatternGraph} {y : Handle}, q.IsNode q.anchor → y ∈ [Handle.node q.anchor] →
      q.Has y := by
    intro q y hq hy
    rw [List.mem_singleton.1 hy]
    exact hq
  -- what the first visits besides the anchor is nothing of the second's
  have hback : ∀ seen, (∀ y ∈ [Handle.node j₁.anchor], y ∈ seen) →
      (∀ y ∈ seen, y ∈ [Handle.node j₁.anchor] ∨
        ∃ z, p₁.Has z ∧ z ≠ .node p₁.anchor ∧ y = (front p g).handle z) →
      Walks cx₁ j₁ seen (es'.map (Entry.renumbered (back p g)))
        (steps'.map (Step.renamed (raised (p.nodes.length - 1)))) := by
    intro seen hsub hseen
    have hm : Echoes (back p g) g₁ [.node g₁.anchor] seen := by
      intro x hx
      have hanchor : Handle.node j₁.anchor = (back p g).handle (.node g₁.anchor) :=
        congrArg Handle.node h.embeds_back.anchor.symm
      rw [List.mem_singleton]
      constructor
      · intro hmem
        rcases hseen _ hmem with hroot | ⟨z, hz, hzne, heq⟩
        · exact h.embeds_back.handle_injective hx hroot₂
            ((List.mem_singleton.1 hroot).trans hanchor)
        · -- or a handle of the first, which none of the second's becomes
          exact absurd heq.symm (front_ne_back h hz hzne hx)
      · rintro rfl
        rw [← hanchor]
        exact hsub _ (List.mem_singleton_self _)
    have hdone : Walks cx₁ j₁ seen (es'.map (Entry.renumbered (back p g)) ++ [])
        (steps'.map (Step.renamed (raised (p.nodes.length - 1))) ++ []) :=
      hwalk'.embed h.embeds_back hg h.anchorsBoth.consistent (calls_back h hg.regular hconstraints)
        hengine' (List.mem_singleton_self _) (fun y hy => honly hroot₂ hy) hm fun _ _ _ => .done
    rwa [List.append_nil, List.append_nil] at hdone
  have hm : Echoes (front p g) p₁ [.node p₁.anchor] [.node j₁.anchor] := by
    intro x hx
    cases x <;> simp [Renumbering.handle, front, anchor]
  -- the first is walked as before, and then the second
  have hfront := hwalk.embed h.embeds_front hp h.anchorsBoth.consistent (calls_front h) hengine
    (List.mem_singleton_self _) (fun y hy => honly hroot₁ hy) hm hback
  have hemits : Emits cx₁ j₁ [.node j₁.anchor] (.node j₁.anchor) _ [] :=
    .anchor hroot (.inl hkind) (pendingEntries_juxtaposed h hes hes')
  have hrest : Walks cx₁ j₁ [.node j₁.anchor] (es.map (Entry.renumbered (front p g)) ++
      es'.map (Entry.renumbered (back p g)) ++ [])
      (steps ++ steps'.map (Step.renamed (raised (p.nodes.length - 1)))) := by
    simpa [show Step.renamed id = id from funext Step.renamed_id] using hfront
  exact explore_eq_ok_iff.2 (Walks.node (by simp) hroot (hemits.visitNode_eq hroot) hrest)

end Plan

end GraphPattern
