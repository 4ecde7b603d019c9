import GraphPattern.Proofs.Chains
import GraphPattern.Proofs.World

/-!
# GraphPattern — chains as paths

A chain is compiled into one path. In a world, the path of a chain leads from one element to
another exactly if the nodes that the chain passes can be chosen such that their types match and
the edges of the chain lead from each to the next.

## Results

* `Chain.Walks.choose` — where the path leads, the nodes can be chosen.
* `Chain.Walks.leads` — where the nodes are chosen, the path leads.
-/

namespace GraphPattern

open PatternGraph

variable {cx : Context} {g g₀ : PatternGraph} {s : Setting} {w : World}

namespace Chain

variable {n : NodeId} {visited : List Handle} {c : Chain}

/-- The types of the nodes of a chain match, and its edges lead from each node to the next. -/
structure Chosen (w : World) (g : PatternGraph) (c : Chain) (h : Handle → Value) : Prop where
  node : ∀ m nd, .node m ∈ c.elements → g.node? m = some nd → w.typed (h (.node m)) nd.typeName?
  edge : ∀ i e, g.Incident i → .edge i.edge ∈ c.elements → g.edge? i.edge = some e →
    w.along e.typeName? i.direction (h (.node i.this)) (h (.node i.that))

/-- Only what the chain passes on its way to the terminal is chosen anew. -/
def Keeps (c : Chain) (h h' : Handle → Value) : Prop :=
  ∀ b, (∀ m, b = .node m → .node m ∈ c.elements → m = c.terminal) → h b = h' b

/-- Every step of a chain can be followed by the engine. -/
theorem Walks.followed (h : Walks cx g n visited c) : ∀ q ∈ c.path, q.Followed cx.engine := by
  have hrestriction : ∀ nd : PatternNode, ∀ q ∈ restriction nd, q.Followed cx.engine := by
    intro nd q hq
    unfold restriction at hq
    split at hq
    · split at hq
      · cases hq
      · obtain rfl := List.mem_singleton.1 hq
        exact ⟨_, rfl⟩
    · cases hq
  induction h with
  | stop node known => exact hrestriction _
  | last node fresh pending closed => exact hrestriction _
  | openEnd node fresh pending only named => exact hrestriction _
  | step node fresh pending only anonymous segment_ok rest_walks ih =>
    intro q hq
    simp only [List.mem_append, List.mem_cons] at hq
    obtain ⟨rfl, hd⟩ := edgeSegment_ok segment_ok
    rcases hq with hq | rfl | hq
    · exact hrestriction _ q hq
    · exact ⟨⟨_, rfl⟩, hd⟩
    · exact ih q hq

/-- The restriction at a node is to its type. -/
theorem leads_restriction (hw : Serves s w) (hg : g.Regular cx) (hn : g.IsPlace n)
    {nd : PatternNode} (hnode : g.node? n = some nd) {p : Path} {u v : Value} :
    w.leads (restriction nd ++ p) u v ↔ w.typed u nd.typeName? ∧ w.leads p u v := by
  obtain ⟨hnone, hempty⟩ := hw.typed_void u
  have htrivial : w.typed u nd.typeName? →
      (w.leads p u v ↔ w.typed u nd.typeName? ∧ w.leads p u v) :=
    fun ht => (and_iff_right ht).symm
  unfold restriction
  split
  · rename_i t hkind ht
    split
    · rename_i hemp
      rw [String.isEmpty_iff] at hemp
      exact htrivial (by rw [ht, hemp]; exact hempty)
    · rw [ht]
      exact Iff.rfl
  · rename_i hother
    refine htrivial ?_
    -- a node of the model without a restriction has no type
    have htype : nd.typeName? = none := by
      obtain ⟨hnode', nd', hnd', hkind⟩ := hn
      rw [hnode] at hnd'
      cases hnd'
      rcases hkind with hkind | hkind
      · rw [Option.eq_none_iff_forall_ne_some]
        exact fun t ht => hother t hkind ht
      · have hfits := hg.node n nd hnode' hnode
        rw [PatternGraph.NodeFits, hkind] at hfits
        exact hfits.1
    rw [htype]
    exact hnone

/-- A chain that ends where it starts. -/
theorem chosen_single {h : Handle → Value} {nd : PatternNode} {constraints : List Incidence}
    {path : Path} {openEnd : Bool} (hnode : g.node? n = some nd)
    (ht : w.typed (h (.node n)) nd.typeName?) :
    Chosen w g { path, terminal := n, elements := [.node n], constraints, openEnd } h where
  node := by
    intro m nd' hm hnd'
    obtain rfl : m = n := by simpa using hm
    rw [hnode] at hnd'
    cases hnd'
    exact ht
  edge := by
    intro i e _ hi
    simp at hi

/-- A chain is chosen if its first node matches, its first edge leads on, and the rest of it is
chosen. -/
theorem Chosen.cons {h : Handle → Value} {nd : PatternNode} {i : Incidence} {e : PatternEdge}
    {rest : Chain} {path : Path} {constraints : List Incidence}
    (hnode : g.node? n = some nd) (hi : g.Incident i) (hthis : i.this = n)
    (he : g.edge? i.edge = some e) (ht : w.typed (h (.node n)) nd.typeName?)
    (hum : w.along e.typeName? i.direction (h (.node n)) (h (.node i.that)))
    (hchosen : rest.Chosen w g h) :
    Chosen w g
      { path, terminal := rest.terminal, elements := .node n :: .edge i.edge :: rest.elements
        constraints, openEnd := rest.openEnd } h where
  node := by
    intro k nd' hk hnd'
    simp only [List.mem_cons, Handle.node.injEq, reduceCtorEq, false_or] at hk
    -- the first node, or one of the rest
    rcases hk with rfl | hk
    · rw [hnode] at hnd'
      cases hnd'
      exact ht
    · exact hchosen.node k nd' hk hnd'
  edge := by
    intro j e' hj hjmem he'
    simp only [List.mem_cons, Handle.edge.injEq, reduceCtorEq, false_or] at hjmem
    -- the first edge, seen from either end, or one of the rest
    rcases hjmem with heq | hjmem
    · rw [heq, he] at he'
      cases he'
      rcases hi.eq_or_eq_reverse hj heq with rfl | rfl
      · rw [hthis]
        exact hum
      · show w.along e.typeName? i.direction.reverse (h (.node i.that)) (h (.node i.this))
        rw [hthis]
        cases hdir : i.direction <;> rw [hdir] at hum <;> exact hum
    · exact hchosen.edge j e' hj hjmem he'

/-- A choice for a chain only depends on the nodes of the chain. -/
theorem Chosen.congr {h h₁ : Handle → Value} {seen : List Handle}
    (hc : Consumed g₀ g n seen c) (heq : ∀ {k}, .node k ∈ c.elements → h (.node k) = h₁ (.node k))
    (hchosen : c.Chosen w g h₁) : c.Chosen w g h where
  node := by
    intro k nd hk hnd
    rw [heq hk]
    exact hchosen.node k nd hk hnd
  edge := by
    intro j e hj hjmem he
    have hthis := (hc.edge j hj hjmem).2.2.2
    have hthat : .node j.that ∈ c.elements := (hc.edge j.reverse hj.reverse hjmem).2.2.2
    rw [heq hthis, heq hthat]
    exact hchosen.edge j e hj hjmem he

/-- Where the path leads, the nodes of the chain can be chosen. -/
theorem Walks.choose (hw : Serves s w) (hs : s.engine = cx.engine) (hg : g.Regular cx)
    (hsub : ∀ i, g.Incident i → g.Structural i → g₀.Adjacent i.this i.that) (hn : g.IsPlace n)
    (hwalks : Walks cx g n visited c) {u v : Value} (hu : w.element u)
    (hl : w.leads c.path u v) (h' : Handle → Value) (hv : h' (.node c.terminal) = v) :
    ∃ h, c.Keeps h h' ∧ h (.node n) = u ∧ c.Chosen w g h ∧
      ∀ m, .node m ∈ c.elements → m ≠ n → w.candidate (h (.node m)) := by
  have hsingle : ∀ {n u v} {nd : PatternNode} {constraints : List Incidence} {openEnd : Bool},
      g.IsPlace n → g.node? n = some nd → w.leads (restriction nd) u v → h' (.node n) = v →
      ∃ h, Keeps ⟨restriction nd, n, [.node n], constraints, openEnd⟩ h h' ∧ h (.node n) = u ∧
        Chosen w g ⟨restriction nd, n, [.node n], constraints, openEnd⟩ h ∧
        ∀ m, Handle.node m ∈ [Handle.node n] → m ≠ n → w.candidate (h (.node m)) := by
    intro n u v nd constraints openEnd hn hnode hl hv
    rw [← List.append_nil (restriction nd), leads_restriction hw hg hn hnode] at hl
    obtain ⟨ht, rfl⟩ := hl
    refine ⟨h', fun _ _ => rfl, hv, chosen_single hnode (hv ▸ ht), ?_⟩
    intro m hm hne
    exact absurd (by simpa using hm) hne
  induction hwalks generalizing u with
  | stop node known => exact hsingle hn node hl hv
  | last node fresh pending closed => exact hsingle hn node hl hv
  | openEnd node fresh pending only named => exact hsingle hn node hl hv
  | @step n nd visited left i e segment rest node fresh hleft only anonymous segment_ok
      rest_walks ih =>
    obtain ⟨hi, hthis, hnew, he, hst⟩ := incident_of_only hg.consistent hn.1 hleft only
    obtain ⟨rfl, hd⟩ := edgeSegment_ok segment_ok
    rw [leads_restriction hw hg hn node] at hl
    obtain ⟨ht, m, hum, hmv⟩ := hl
    rw [TypeMark.name?_ofName?] at hum
    have hm : w.candidate m := hw.candidate_of_along _ _ u m (hs ▸ hd) hu hum
    have hthat : g.IsPlace i.that := hg.isPlace_that hi hst
    obtain ⟨h₁, hkeep, hstart, hchosen, hcand⟩ :=
      ih hthat (hw.element_of_candidate m hm) hmv hv
    -- the chain does not come back, so its first node can be chosen last
    have hrest : Consumed g₀ g i.that _ rest := rest_walks.consumed hg hsub hthat
    have hnot : Handle.node n ∉ rest.elements :=
      hrest.not_back hi hst hnew (eq_of_only hg.consistent hn.1 hleft only)
    let h : Handle → Value := fun b => if b = .node n then u else h₁ b
    have hself : h (.node n) = u := if_pos rfl
    have hother : ∀ {k}, .node k ∈ rest.elements → h (.node k) = h₁ (.node k) := by
      intro k hk
      refine if_neg fun heq => hnot ?_
      rw [← heq]
      exact hk
    have hthat' : h (.node i.that) = m := by rw [hother hrest.start, hstart]
    refine ⟨h, ?_, hself, (hchosen.congr hrest hother).cons node hi hthis he
      (by rw [hself]; exact ht) (by rw [hself, hthat']; exact hum), ?_⟩
    · intro b hb
      have hbn : b ≠ .node n := by
        rintro rfl
        have heq : n = rest.terminal := hb n rfl (by simp)
        exact hnot (heq ▸ hrest.terminal)
      rw [show h b = h₁ b from if_neg hbn]
      exact hkeep b fun k hk hmem => hb k hk (by simp [hmem])
    · intro k hk hkn
      simp only [List.mem_cons, Handle.node.injEq, reduceCtorEq, false_or] at hk
      have hk := hk.resolve_left hkn
      rw [hother hk]
      by_cases hthat : k = i.that
      · rw [hthat, hstart]
        exact hm
      · exact hcand k hk hthat

/-- Where the nodes of the chain are chosen, the path leads. -/
theorem Walks.leads (hw : Serves s w) (hg : g.Regular cx) (hn : g.IsPlace n)
    (hwalks : Walks cx g n visited c) {h : Handle → Value} (hc : c.Chosen w g h) :
    w.leads c.path (h (.node n)) (h (.node c.terminal)) := by
  -- a chain of one node leads from it to itself, as far as its type allows
  have hsingle : ∀ {n} {nd : PatternNode}, g.IsPlace n → g.node? n = some nd →
      w.typed (h (.node n)) nd.typeName? →
      w.leads (restriction nd) (h (.node n)) (h (.node n)) := by
    intro n nd hn hnode ht
    rw [← List.append_nil (restriction nd), leads_restriction hw hg hn hnode]
    exact ⟨ht, rfl⟩
  -- along the chain: its path leads over the first edge, then as the rest does
  induction hwalks with
  | stop node known => exact hsingle hn node (hc.node _ _ (by simp) node)
  | last node fresh pending closed => exact hsingle hn node (hc.node _ _ (by simp) node)
  | openEnd node fresh pending only named => exact hsingle hn node (hc.node _ _ (by simp) node)
  | @step n nd visited left i e segment rest node fresh hleft only anonymous segment_ok
      rest_walks ih =>
    obtain ⟨hi, hthis, hnew, he, hst⟩ := incident_of_only hg.consistent hn.1 hleft only
    obtain ⟨rfl, -⟩ := edgeSegment_ok segment_ok
    rw [leads_restriction hw hg hn node]
    refine ⟨hc.node _ _ (by simp) node, h (.node i.that), ?_, ?_⟩
    · rw [TypeMark.name?_ofName?, ← hthis]
      exact hc.edge i e hi (by simp) he
    · refine ih (hg.isPlace_that hi hst) ⟨?_, ?_⟩
      · exact fun m nd' hm => hc.node m nd' (by simp [hm])
      · exact fun j e' hj hjmem => hc.edge j e' hj (by simp [hjmem])

end Chain

end GraphPattern
