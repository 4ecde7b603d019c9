import GraphPattern.Proofs.WalkLegs

/-!
# GraphPattern — the walk keeps pace with the pattern

Where a pattern is written depth first, the walk through its graph follows the text: at any time
there is a position such that exactly what is made before it was visited, up to some rows of
constraints that were passed with a chain and are dealt with next. The stack agrees with the way to
the current node.

## Results

* `Plan.WalkedTo` — the walk has come to a position.
* `Plan.WalkedTo.ahead` — what comes next is what the text goes on with.
* `Plan.KeepsPace.visit` — every visit comes to another position.
-/

namespace GraphPattern

open PatternGraph PatternGraph.Drawing

namespace Plan

/-- Exactly what is made before the position was visited, up to the deferred rows of constraints.
What comes first on the stack are these rows, and then the edges along the way. -/
structure WalkedTo (cx : Context) (ts : List Token) (g : PatternGraph) (i : Nat)
    (deferred : List Nat) (visited : List Handle) (stack : List Entry) : Prop where
  settled : Settled ts i
  edges : ∀ p t, ts[p]? = some (.edge t) → (.edge ⟨edgeIndex cx ts p⟩ ∈ visited ↔ p < i)
  rows : ∀ p t, ts[p]? = some (.constraint t) → Heads ts p →
    (.edge ⟨edgeIndex cx ts p⟩ ∈ visited ↔ p < i ∧ p ∉ deferred)
  nodes : ∀ p t, ts[p]? = some (.node t) → home ts p = p →
    (.node (nodeAt cx ts p) ∈ visited ↔ p < i)
  starts : ∀ p t k, ts[p]? = some (.node t) → home ts p = p →
    g.edge? k = some (startEdge (nodeAt cx ts p)) → (.edge k ∈ visited ↔ p < i)
  waiting : ∀ p ∈ deferred, p < i ∧ Heads ts p ∧ ∃ t, ts[p]? = some (.constraint t)
  sorted : deferred.Pairwise (· < ·)
  queue : Agree visited stack (deferred.map (headEntry cx ts) ++ agenda g (wayBefore cx ts i))

variable {cx : Context} {ts : List Token} {g₀ g : PatternGraph} {visited : List Handle}
  {stack rest : List Entry} {x : Entry} {i : Nat} {deferred : List Nat}

namespace WalkedTo

/-! ## What comes next -/

theorem firstNew? (hw : WalkedTo cx ts g i [] visited (x :: rest)) (hx : x.handle ∉ visited) :
    Plan.firstNew? visited (agenda g (wayBefore cx ts i)) = some x :=
  hw.queue.firstNew? hx

/-- Without deferred rows, what was visited at a node of the model or at the anchor is what is made
before the position. -/
theorem origin (h : Drawn cx ts g₀ g) (hw : WalkedTo cx ts g i [] visited stack) {y : Incidence}
    (hy : g.Incident y) (hthis : ¬ g.IsConstraint y.this) :
    (∃ p e, madeEdge? cx ts p = some e ∧ y.edge = ⟨edgeIndex cx ts p⟩ ∧
      (Handle.edge y.edge ∈ visited ↔ p < i)) ∨
    ∃ p t, ts[p]? = some (.node t) ∧ home ts p = p ∧
      g.edge? y.edge = some (startEdge (nodeAt cx ts p)) ∧
      (Handle.edge y.edge ∈ visited ↔ p < i) := by
  rcases h.rooted.incident_cases hy with hs | hp | ⟨s, hs, he⟩
  · obtain ⟨p, t, ht, hedge, -⟩ := h.exists_edge hy hs
    exact .inl ⟨p, _, madeEdge?_edge cx ht, hedge, hedge ▸ hw.edges p t ht⟩
  · obtain ⟨p, t, ht, hheads, rfl⟩ := h.exists_head hy hp hthis
    refine .inl ⟨p, _, madeEdge?_constraint cx ht, rfl, (hw.rows p t ht hheads).trans ?_⟩
    simp
  · obtain ⟨p, t, ht, hhome, -, rfl⟩ := h.exists_of_isStart hs
    exact .inr ⟨p, t, ht, hhome, he, hw.starts p t y.edge ht hhome he⟩

/-- The edge that is made at the position comes next, seen from the current node. -/
theorem next_edge (h : Drawn cx ts g₀ g) (hw : WalkedTo cx ts g i [] visited (x :: rest))
    (hx : x.handle ∉ visited) {e : PatternEdge} (hmade : madeEdge? cx ts i = some e)
    {y : Incidence} (hy : g.Incident y) (hthis : y.this = currentBefore cx ts i)
    (hedge : y.edge = ⟨edgeIndex cx ts i⟩) (hnew : Handle.edge y.edge ∉ visited) :
    ∃ z, x = .along z ∧ g.Incident z ∧ z.this = currentBefore cx ts i ∧ z.edge = y.edge := by
  have hfirst := hw.firstNew? hx
  obtain ⟨⟨w, hway⟩, -⟩ := wayBefore_ends cx ts i
  have hnode : g.IsNode (currentBefore cx ts i) := hthis ▸ h.consistent.isNode_this hy
  obtain ⟨z, hz, hinc, hzthis, hznew, hle⟩ :=
    firstNew?_entriesAt h.consistent hnode hy hthis hnew
  rw [hway, agenda_cons, firstNew?_append, hz] at hfirst
  refine ⟨z, (Option.some.inj hfirst).symm, hinc, hzthis, ?_⟩
  -- nothing before the edge is left at the node
  rcases hw.origin h hinc (hzthis ▸ h.not_isConstraint_currentBefore) with
    ⟨r, e', hr, hzr, hvisited⟩ | ⟨r, t, -, -, hstart, -⟩
  · rw [hzr, hedge] at hle
    have hri : ¬ r < i := fun hlt => hznew (hvisited.2 hlt)
    have hir := le_of_edgeIndex_le hmade hle
    obtain rfl : r = i := by omega
    rw [hzr, hedge]
  · have hlater := (h.start_index hstart).2
    have hlt := edgeIndex_lt (lt_length_of_madeEdge hmade) hmade
    rw [hedge] at hle
    exact absurd (Nat.le_trans hlater hle) (Nat.not_le_of_lt hlt)

/-- Nothing is left to follow at a node that the next token takes off the way. -/
theorem visited_of_left (h : Drawn cx ts g₀ g) (hdf : DepthFirst cx ts) {t : NodeToken}
    (hw : WalkedTo cx ts g i [] visited stack) (ht : ts[i]? = some (.node t)) {m : NodeId}
    (hm : m ∈ wayBefore cx ts i) (hleft : m ∉ wayBefore cx ts (i + 1)) :
    ∀ x ∈ entriesAt g m, x.handle ∈ visited := by
  have hplace : g.IsPlace m := h.isPlace_of_mem_wayBefore hm fun heq =>
    hleft (heq ▸ anchor_mem_wayBefore)
  have hold : m.index < nodeIndex cx ts i := index_lt_of_mem_wayBefore hm
  intro x hx
  obtain ⟨y, rfl, hy, rfl⟩ := (mem_entriesAt h.consistent hplace.1).1 hx
  rcases hw.origin h hy fun hc => Regular.not_isPlace_of_isConstraint hc hplace with
    ⟨r, e, hmade, hedge, hvisited⟩ | ⟨r, u, hu, hhome, hstart, hvisited⟩
  · -- an edge that is made later would keep the node on the way
    refine hvisited.2 (Nat.lt_of_not_le fun hle => hleft ?_)
    have hne : r ≠ i := ne_of_madeEdge hmade ht
    have hmono : nodeIndex cx ts i ≤ nodeIndex cx ts (i + 1) := nodeIndex_mono (Nat.le_succ i)
    exact h.mem_wayBefore hdf (settled_succ ht) (by omega) hmade hy hedge (by omega)
  · refine hvisited.2 (Nat.lt_of_not_le fun hle => ?_)
    have hself := h.rooted.this_eq_of_startEdge hy hstart hplace
    have hmono : nodeIndex cx ts i ≤ nodeIndex cx ts r := nodeIndex_mono hle
    rw [hself, nodeAt_index, hhome] at hold
    omega

/-- Coming back to a node on the way takes the nodes in front of it off the way. -/
theorem back (h : Drawn cx ts g₀ g) (hdf : DepthFirst cx ts) {t : NodeToken}
    (hw : WalkedTo cx ts g i [] visited stack) (ht : ts[i]? = some (.node t))
    (hhome : home ts i ≠ i) : WalkedTo cx ts g (i + 1) [] visited stack where
  settled := settled_succ ht
  edges := by
    intro p u hu
    have hne : p ≠ i := ne_of_tokens hu ht Token.noConfusion
    rw [hw.edges p u hu]
    omega
  rows := by
    intro p u hu hheads
    have hne : p ≠ i := ne_of_tokens hu ht Token.noConfusion
    rw [hw.rows p u hu hheads]
    simp only [List.not_mem_nil, not_false_eq_true, and_true]
    omega
  nodes := by
    intro p u hu hp
    have hne : p ≠ i := fun heq => hhome (heq ▸ hp)
    rw [hw.nodes p u hu hp]
    omega
  starts := by
    intro p u k hu hp hk
    have hne : p ≠ i := fun heq => hhome (heq ▸ hp)
    rw [hw.starts p u k hu hp hk]
    omega
  waiting := by simp
  sorted := .nil
  queue := by
    have hmem : nodeAt cx ts i ∈ wayBefore cx ts i := hdf i (lt_length ht) hhome
    -- the way is cut before the node that is mentioned
    have hway : wayBefore cx ts (i + 1) =
        (wayBefore cx ts i).dropWhile fun m => decide (m ≠ nodeAt cx ts i) := by
      rw [wayBefore_node ht, hw.settled.alone, if_neg Bool.false_ne_true, if_pos hmem]
    have hsplit := List.takeWhile_append_dropWhile
      (p := fun m => decide (m ≠ nodeAt cx ts i)) (l := wayBefore cx ts i)
    have hnodup := nodup_wayBefore cx ts i
    rw [← hsplit, List.nodup_append] at hnodup
    refine hw.queue.trans ?_
    rw [List.map_nil, List.nil_append, List.nil_append, ← hsplit, ← hway]
    -- what is cut off was left, so nothing is pending there
    refine agree_cut _ fun m hm => ?_
    refine hw.visited_of_left h hdf ht ((List.takeWhile_sublist _).subset hm) fun hin => ?_
    exact hnodup.2.2 m hm m (hway ▸ hin) rfl

/-- Before the first node of a component, its start comes next. -/
theorem next_start (h : Drawn cx ts g₀ g) (hdf : DepthFirst cx ts) {t : NodeToken}
    (hw : WalkedTo cx ts g i [] visited (x :: rest)) (hx : x.handle ∉ visited)
    (ht : ts[i]? = some (.node t)) (hhome : home ts i = i) :
    Agree visited (x :: rest) (agenda g [⟨0⟩]) ∧
      ∃ y, x = .along y ∧ y.that = nodeAt cx ts i ∧
        g.edge? y.edge = some (startEdge (nodeAt cx ts i)) := by
  have halone := hw.settled.alone
  -- of the way, only the anchor stays
  have hagree : Agree visited (x :: rest) (agenda g [⟨0⟩]) := by
    obtain ⟨-, w, hway⟩ := wayBefore_ends cx ts i
    have hnodup := nodup_wayBefore cx ts i
    rw [hway, List.nodup_append] at hnodup
    refine hw.queue.trans ?_
    rw [List.map_nil, List.nil_append, hway]
    refine agree_cut _ fun m hm => ?_
    have hin : m ∈ wayBefore cx ts i := hway ▸ List.mem_append_left _ hm
    refine hw.visited_of_left h hdf ht hin fun hleft => ?_
    rw [wayBefore_alone ht hhome halone] at hleft
    rcases List.mem_cons.1 hleft with rfl | hleft
    · have hlt := index_lt_of_mem_wayBefore hin
      rw [nodeAt_index, hhome] at hlt
      omega
    · exact hnodup.2.2 m hm ⟨0⟩ (by simp) (List.mem_singleton.1 hleft)
  refine ⟨hagree, ?_⟩
  obtain ⟨k, hk, -⟩ := h.edge?_start (h.isStart_node hdf ht hhome halone)
  have hnew : Handle.edge k ∉ visited := fun hv =>
    Nat.lt_irrefl i ((hw.starts i t k ht hhome hk).1 hv)
  have hanchor : g.IsNode ⟨0⟩ := isNode_anchor h.consistent.inhabited
  obtain ⟨y, hfirst, hy, hthis, hynew, hle⟩ := firstNew?_entriesAt (n := ⟨0⟩) h.consistent hanchor
    (.seen hk .out) rfl (by simpa using hnew)
  have hxy : some x = some (.along y) := by
    rw [← hagree.firstNew? hx, agenda_cons, agenda_nil, List.append_nil, hfirst]
  refine ⟨y, Option.some.inj hxy, ?_⟩
  have hyk : y.edge = k := by
    rcases hw.origin h hy (hthis ▸ h.rooted.regular.not_isConstraint_anchor) with
      ⟨r, e, hmade, hedge, hvisited⟩ | ⟨p, u, hu, hp, he, hvisited⟩
    · -- edges that are made later do not touch the anchor
      have hri : ¬ r < i := fun hlt => hynew (hvisited.2 hlt)
      have hne : r ≠ i := ne_of_madeEdge hmade ht
      exact absurd hthis (h.this_ne_anchor_of_madeEdge ht (by omega) hmade hy hedge)
    · refine Classical.byContradiction fun hne => ?_
      have hpi : ¬ p < i := fun hlt => hynew (hvisited.2 hlt)
      have hlt : y.edge.index < k.index :=
        Nat.lt_of_le_of_ne hle fun heq => hne (congrArg EdgeId.mk heq)
      have hindex := h.start_lt he hk hlt
      rw [nodeAt_index, nodeAt_index, hp, hhome] at hindex
      have hmono : nodeIndex cx ts i ≤ nodeIndex cx ts p := nodeIndex_mono (Nat.le_of_not_lt hpi)
      omega
  rw [← hyk] at hk
  obtain ⟨e, he, hseen⟩ := hy
  rw [hk] at he
  cases he
  refine ⟨?_, hk⟩
  rcases seen_ends (.inl ⟨rfl, rfl⟩) hseen with ⟨-, hthat⟩ | ⟨hself, -⟩
  · exact hthat
  · exact absurd (hself.symm.trans hthis) nodeAt_ne_anchor

/-- At the end of the text, nothing comes next. -/
theorem not_done (h : Drawn cx ts g₀ g) (hw : WalkedTo cx ts g i [] visited (x :: rest))
    (hx : x.handle ∉ visited) (hi : i = ts.length) : False := by
  obtain ⟨hin, hnew⟩ := firstNew?_some (hw.firstNew? hx)
  obtain ⟨m, hm, hin⟩ := List.mem_flatMap.1 hin
  have hcases : m = ⟨0⟩ ∨ g.IsPlace m := by
    by_cases heq : m = ⟨0⟩
    · exact .inl heq
    · exact .inr (h.isPlace_of_mem_wayBefore hm heq)
  have hnode : g.IsNode m := by
    rcases hcases with rfl | hp
    · exact isNode_anchor h.consistent.inhabited
    · exact hp.1
  have hcon : ¬ g.IsConstraint m := by
    rcases hcases with rfl | hp
    · exact h.rooted.regular.not_isConstraint_anchor
    · exact fun hc => Regular.not_isPlace_of_isConstraint hc hp
  obtain ⟨y, rfl, hy, rfl⟩ := (mem_entriesAt h.consistent hnode).1 hin
  refine hnew ?_
  rcases hw.origin h hy hcon with ⟨r, e, hmade, -, hvisited⟩ | ⟨r, u, hu, -, -, hvisited⟩
  · exact hvisited.2 (hi ▸ lt_length_of_madeEdge hmade)
  · exact hvisited.2 (hi ▸ lt_length hu)

end WalkedTo

/-- What comes next at a position. -/
inductive Ahead (cx : Context) (ts : List Token) (g : PatternGraph) (visited : List Handle)
    (x : Entry) (rest : List Entry) : Prop
  /-- A row of constraints that was passed. -/
  | deferred {i s : Nat} {more : List Nat}
      (walked : WalkedTo cx ts g i (s :: more) visited (x :: rest)) (le : i ≤ ts.length)
      (entry : x = headEntry cx ts s)
  /-- The row of constraints at the position. -/
  | row {i : Nat} {t : ConstraintToken} (walked : WalkedTo cx ts g i [] visited (x :: rest))
      (token : ts[i]? = some (.constraint t)) (entry : x = headEntry cx ts i)
  /-- The edge at the position. -/
  | edge {i : Nat} {t : EdgeToken} {y : Incidence}
      (walked : WalkedTo cx ts g i [] visited (x :: rest)) (token : ts[i]? = some (.edge t))
      (entry : x = .along y) (structural : g.Structural y)
      (edge : y.edge = ⟨edgeIndex cx ts i⟩) (that : y.that = nodeAt cx ts (i + 1))
  /-- The link to the node at the position. -/
  | start {i : Nat} {t : NodeToken} {y : Incidence}
      (walked : WalkedTo cx ts g i [] visited (x :: rest)) (token : ts[i]? = some (.node t))
      (first : home ts i = i) (entry : x = .along y) (that : y.that = nodeAt cx ts i)
      (link : g.edge? y.edge = some (startEdge (nodeAt cx ts i)))
      (agenda : Agree visited (x :: rest) (agenda g [⟨0⟩]))

namespace WalkedTo

/-- Without deferred rows, what comes next is what the text goes on with. -/
theorem ahead_nil (h : Drawn cx ts g₀ g) (hdf : DepthFirst cx ts)
    (hw : WalkedTo cx ts g i [] visited (x :: rest)) (hle : i ≤ ts.length)
    (hx : x.handle ∉ visited) : Ahead cx ts g visited x rest := by
  induction hleft : ts.length - i generalizing i with
  | zero => exact (hw.not_done h hx (by omega)).elim
  | succ left ih =>
    have hlt : i < ts.length := by omega
    cases ht : ts[i]? with
    | none => exact absurd (List.getElem?_eq_none_iff.1 ht) (Nat.not_le_of_lt hlt)
    | some u =>
      cases u with
      | node t =>
        by_cases hhome : home ts i = i
        · obtain ⟨hagree, y, hxy, hthat, hlink⟩ := hw.next_start h hdf hx ht hhome
          exact .start hw ht hhome hxy hthat hlink hagree
        · exact ih (hw.back h hdf ht hhome) hlt (by omega)
      | edge t =>
        obtain ⟨y, hy, hs, hedge, hthis, hthat⟩ := h.incident_edge ht
        have hnew : Handle.edge y.edge ∉ visited := fun hv =>
          Nat.lt_irrefl i ((hw.edges i t ht).1 (hedge ▸ hv))
        obtain ⟨z, hxz, hz, hzthis, hzedge⟩ :=
          hw.next_edge h hx (madeEdge?_edge cx ht) hy hthis hedge hnew
        have hzs : g.Structural z := by
          obtain ⟨e, he, hk⟩ := hs
          exact ⟨e, hzedge ▸ he, hk⟩
        refine .edge hw ht hxz hzs (hzedge.trans hedge) ?_
        rcases hy.eq_or_eq_reverse hz hzedge with rfl | rfl
        · exact hthat
        · -- a loop leads to the node that it leaves
          have hloop : y.that = currentBefore cx ts i := hzthis
          exact hthis.trans (hloop.symm.trans hthat)
      | constraint t =>
        have hheads := hw.settled.heads t ht
        obtain ⟨hy, hp⟩ := h.incident_head ht hheads
        have hnew : Handle.edge (headAt cx ts i).edge ∉ visited := fun hv =>
          Nat.lt_irrefl i ((hw.rows i t ht hheads).1 hv).1
        obtain ⟨z, hxz, hz, hzthis, hzedge⟩ :=
          hw.next_edge h hx (madeEdge?_constraint cx ht) hy rfl rfl hnew
        refine .row hw ht ?_
        rw [hxz]
        have hzp : g.Precedes z := by
          obtain ⟨e, he, hk⟩ := hp
          exact ⟨e, hzedge ▸ he, hk⟩
        obtain ⟨r, u, hu, -, rfl⟩ := h.exists_head hz hzp
          (hzthis ▸ h.not_isConstraint_currentBefore)
        obtain rfl := eq_of_edgeIndex_eq (madeEdge?_constraint cx hu) (madeEdge?_constraint cx ht)
          (congrArg EdgeId.index hzedge)
        rfl

/-- What comes next is a deferred row, or what the text goes on with. -/
theorem ahead (h : Drawn cx ts g₀ g) (hdf : DepthFirst cx ts)
    (hw : WalkedTo cx ts g i deferred visited (x :: rest)) (hle : i ≤ ts.length)
    (hx : x.handle ∉ visited) : Ahead cx ts g visited x rest := by
  cases deferred with
  | nil => exact hw.ahead_nil h hdf hle hx
  | cons s more =>
    refine .deferred hw hle ?_
    obtain ⟨-, hheads, t, ht⟩ := hw.waiting s (by simp)
    have hnew : (headEntry cx ts s).handle ∉ visited := fun hv =>
      ((hw.rows s t ht hheads).1 hv).2 (by simp)
    have hfirst := hw.queue.firstNew? hx
    rw [List.map_cons, List.cons_append, firstNew?_cons hnew] at hfirst
    exact (Option.some.inj hfirst).symm

end WalkedTo

/-- What is entered leaves its own entries behind. -/
theorem Emits.entered {n : NodeId} {em : Emission} {own : List Handle}
    (h : Emits cx g visited (.node n) em own) :
    em.marks = [] ∧ pendingEntries g n visited = .ok em.entries := by
  cases h with
  | anchor node kind pending => exact ⟨rfl, pending⟩
  | place node kind pending => exact ⟨rfl, pending⟩
  | argument node kind named pending => exact ⟨rfl, pending⟩

/-- The link to a start puts its node on the stack. -/
theorem Emits.enters {y : Incidence} {n : NodeId} {em : Emission} {own : List Handle}
    (hlink : g.edge? y.edge = some (startEdge n)) (h : Emits cx g visited (.along y) em own) :
    em.marks = [] ∧ em.entries = [.node y.that] := by
  have hnot : ∀ {e : PatternEdge} {k : EdgeKind}, g.edge? y.edge = some e → e.kind = k →
      k = .start := by
    intro e k he hk
    rw [hlink] at he
    cases he
    exact hk.symm
  cases h with
  | start edge kind => exact ⟨rfl, rfl⟩
  | constraints edge kind splices => cases hnot edge kind
  | chain edge kind anonymous segment_ok walks emits => cases hnot edge kind
  | argumentEdge edge kind named far => cases hnot edge kind
  | namedEdge edge kind named identity far => cases hnot edge kind

/-! ## Rows of constraints -/

/-- A row of constraints was visited besides, and nothing else but what belongs to it. -/
structure AddsRow (cx : Context) (ts : List Token) (g : PatternGraph) (s : Nat)
    (visited more : List Handle) : Prop where
  sub : visited ⊆ more
  edges : ∀ p t, ts[p]? = some (.edge t) →
    (.edge ⟨edgeIndex cx ts p⟩ ∈ more ↔ .edge ⟨edgeIndex cx ts p⟩ ∈ visited)
  rows : ∀ p t, ts[p]? = some (.constraint t) → Heads ts p →
    (.edge ⟨edgeIndex cx ts p⟩ ∈ more ↔ p = s ∨ .edge ⟨edgeIndex cx ts p⟩ ∈ visited)
  nodes : ∀ n, g.IsPlace n → (.node n ∈ more ↔ .node n ∈ visited)
  starts : ∀ k n, g.edge? k = some (startEdge n) → (.edge k ∈ more ↔ .edge k ∈ visited)

/-- Splicing a row of constraints visits nothing else. -/
theorem Emits.addsRow (h : Drawn cx ts g₀ g) {s : Nat} {t : ConstraintToken} {em : Emission}
    {own binds : List Handle} (ht : ts[s]? = some (.constraint t)) (hheads : Heads ts s)
    (hf : Frontier g₀ g visited binds (headEntry cx ts s :: rest))
    (hem : Emits cx g (.edge ⟨edgeIndex cx ts s⟩ :: visited) (headEntry cx ts s) em own) :
    em.entries = [] ∧
      AddsRow cx ts g s visited (em.marks ++ .edge ⟨edgeIndex cx ts s⟩ :: visited) := by
  obtain ⟨hinc, hprecedes⟩ := h.incident_head ht hheads
  obtain ⟨hentries, hsplices⟩ := Emits.splices_of_precedes hprecedes hem
  obtain ⟨-, hspliced⟩ := hf.followConstraints h.rooted hprecedes hsplices
  have hmade := madeEdge?_constraint cx ht
  refine ⟨hentries, fun k hk => by simp [hk], ?_, ?_, ?_, ?_⟩
  · intro p u hu
    have hedge := madeEdge?_edge cx hu
    have hnot : Handle.edge ⟨edgeIndex cx ts p⟩ ∉ em.marks := fun hin => by
      have hkind := hspliced.kind_eq hin (h.edge?_made hedge)
      exact placeEdge_kind_ne cx u _ _ rfl hkind
    simp [hnot, edgeIndex_eq_iff hedge hmade, ne_of_tokens hu ht Token.noConfusion]
  · intro p u hu hp
    have hnot : Handle.edge ⟨edgeIndex cx ts p⟩ ∉ em.marks := fun hin => by
      obtain ⟨-, hthis⟩ := hspliced.edge _ (h.incident_head hu hp).1 hin
      exact h.not_isConstraint_currentBefore (hspliced.node _ hthis).1
    simp [hnot, edgeIndex_eq_iff (madeEdge?_constraint cx hu) hmade]
  · intro n hn
    have hnot : Handle.node n ∉ em.marks := fun hin =>
      Regular.not_isPlace_of_isConstraint (hspliced.node n hin).1 hn
    simp [hnot]
  · intro k n hk
    have hnot : Handle.edge k ∉ em.marks := fun hin => nomatch hspliced.kind_eq hin hk
    simp [hnot, (h.ne_of_start hmade hk).symm]

/-- Where a row of constraints ends. -/
theorem exists_rowEnd {s : Nat} {t : ConstraintToken} (ht : ts[s]? = some (.constraint t)) :
    ∃ r, s < r ∧ r ≤ ts.length ∧ (∀ j, s ≤ j → j < r → ∃ u, ts[j]? = some (.constraint u)) ∧
      ∀ u, ts[r]? ≠ some (.constraint u) := by
  induction hleft : ts.length - s generalizing s t with
  | zero =>
    have := lt_length ht
    omega
  | succ left ih =>
    have hlt := lt_length ht
    by_cases hnext : ∃ u, ts[s + 1]? = some (.constraint u)
    · obtain ⟨u, hu⟩ := hnext
      obtain ⟨r, hsr, hr, hall, hend⟩ := ih hu (by omega)
      refine ⟨r, by omega, hr, fun j hj hjr => ?_, hend⟩
      rcases Nat.lt_or_eq_of_le hj with hj | rfl
      · exact hall j hj hjr
      · exact ⟨t, ht⟩
    · refine ⟨s + 1, Nat.lt_succ_self s, hlt, fun j hj hjr => ?_, fun u hu => hnext ⟨u, hu⟩⟩
      obtain rfl : j = s := by omega
      exact ⟨t, ht⟩

namespace WalkedTo

/-- A deferred row is dealt with. -/
theorem after_deferred (h : Drawn cx ts g₀ g) {s : Nat} {more : List Nat} {after : List Handle}
    (hw : WalkedTo cx ts g i (s :: more) visited (headEntry cx ts s :: rest))
    (hrow : AddsRow cx ts g s visited after) : WalkedTo cx ts g i more after rest where
  settled := hw.settled
  edges := by
    intro p t ht
    rw [hrow.edges p t ht]
    exact hw.edges p t ht
  rows := by
    intro p t ht hheads
    rw [hrow.rows p t ht hheads, hw.rows p t ht hheads, List.mem_cons, not_or]
    obtain ⟨hsi, -⟩ := hw.waiting s (by simp)
    have hnot : s ∉ more := fun hin =>
      Nat.lt_irrefl s ((List.pairwise_cons.1 hw.sorted).1 s hin)
    constructor
    · rintro (rfl | ⟨hp, -, hp'⟩)
      · exact ⟨hsi, hnot⟩
      · exact ⟨hp, hp'⟩
    · rintro ⟨hp, hp'⟩
      exact (Classical.em (p = s)).imp id fun hne => ⟨hp, hne, hp'⟩
  nodes := by
    intro p t ht hhome
    rw [hrow.nodes _ (h.isPlace_node ht)]
    exact hw.nodes p t ht hhome
  starts := by
    intro p t k ht hhome hk
    rw [hrow.starts k _ hk]
    exact hw.starts p t k ht hhome hk
  waiting := fun p hp => hw.waiting p (List.mem_cons_of_mem _ hp)
  sorted := hw.sorted.of_cons
  queue := by
    -- the row that was put off is the first entry, and is passed
    obtain ⟨-, hheads, t, ht⟩ := hw.waiting s (by simp)
    have hseen : (headEntry cx ts s).handle ∈ after := (hrow.rows s t ht hheads).2 (.inl rfl)
    have hrest := (hw.queue.tail hrow.sub hseen).symm
    rw [List.map_cons, List.cons_append] at hrest
    exact (hrest.tail (List.Subset.refl _) hseen).symm

/-- The row at the position is dealt with, and the walk comes to its end. -/
theorem after_row (h : Drawn cx ts g₀ g) {t : ConstraintToken} {after : List Handle}
    (hw : WalkedTo cx ts g i [] visited (headEntry cx ts i :: rest))
    (ht : ts[i]? = some (.constraint t)) (hrow : AddsRow cx ts g i visited after) :
    ∃ r ≤ ts.length, WalkedTo cx ts g r [] after rest := by
  obtain ⟨r, hir, hr, hall, hend⟩ := exists_rowEnd ht
  -- nothing but the row is made on the way to its end
  have hother : ∀ {p : Nat}, (∀ u, ts[p]? ≠ some (.constraint u)) → (p < i ↔ p < r) := by
    intro p hp
    refine ⟨fun hlt => by omega, fun hlt => Nat.lt_of_not_le fun hle => ?_⟩
    obtain ⟨u, hu⟩ := hall p hle hlt
    exact hp u hu
  refine ⟨r, hr, ?_⟩
  refine { settled := ⟨?_, fun u hu => absurd hu (hend u)⟩, edges := ?_, rows := ?_, nodes := ?_,
           starts := ?_, waiting := by simp, sorted := .nil, queue := ?_ }
  · obtain ⟨u, hu⟩ := hall (r - 1) (by omega) (by omega)
    obtain ⟨j, rfl⟩ : ∃ j, r = j + 1 := ⟨r - 1, by omega⟩
    rw [arrives, show ts[j]? = some (.constraint u) from hu]
  · intro p u hu
    rw [hrow.edges p u hu, hw.edges p u hu]
    exact hother fun v hv => ne_of_tokens hu hv Token.noConfusion rfl
  · intro p u hu hheads
    rw [hrow.rows p u hu hheads, hw.rows p u hu hheads]
    simp only [List.not_mem_nil, not_false_eq_true, and_true]
    constructor
    · omega
    · intro hpr
      refine Classical.byContradiction fun hnot => ?_
      obtain ⟨v, hv⟩ := hall (p - 1) (by omega) (by omega)
      exact hheads (p - 1) v (by omega) hv
  · intro p u hu hhome
    rw [hrow.nodes _ (h.isPlace_node hu), hw.nodes p u hu hhome]
    exact hother fun v hv => ne_of_tokens hu hv Token.noConfusion rfl
  · intro p u k hu hhome hk
    rw [hrow.starts k _ hk, hw.starts p u k hu hhome hk]
    exact hother fun v hv => ne_of_tokens hu hv Token.noConfusion rfl
  · have hseen : (headEntry cx ts i).handle ∈ after :=
      (hrow.rows i t ht (hw.settled.heads t ht)).2 (.inl rfl)
    have hway : wayBefore cx ts r = wayBefore cx ts i := by
      refine wayBefore_eq (Nat.le_of_lt hir) fun k hk hkr v hv => ?_
      obtain ⟨u, hu⟩ := hall k hk hkr
      rw [hv] at hu
      cases hu
    rw [hway]
    exact hw.queue.tail hrow.sub hseen

/-! ## Edges of the model -/

/-- The edge at the position is followed, and the walk comes to the end of a leg. -/
theorem after_edge (h : Drawn cx ts g₀ g) {t : EdgeToken} {y : Incidence} {em : Emission}
    {own : List Handle} (hw : WalkedTo cx ts g i [] visited (.along y :: rest))
    (ht : ts[i]? = some (.edge t)) (hs : g.Structural y)
    (hedge : y.edge = ⟨edgeIndex cx ts i⟩) (hthat : y.that = nodeAt cx ts (i + 1))
    (hem : Emits cx g (.edge y.edge :: visited) (.along y) em own) :
    ∃ i' ≤ ts.length, ∃ deferred', WalkedTo cx ts g i' deferred' (em.marks ++ .edge y.edge :: visited)
      (em.entries ++ rest) := by
  have hmade := madeEdge?_edge cx ht
  obtain ⟨u, hu⟩ := h.wellFormed.target i t ht
  have hrow : ∀ {k v}, ts[k]? = some (.constraint v) →
      edgeIndex cx ts k ≠ edgeIndex cx ts i := fun hv =>
    mt (edgeIndex_eq_iff (madeEdge?_constraint cx hv) hmade).1
      (ne_of_tokens hv ht Token.noConfusion)
  obtain ⟨q, elements, deferred', ⟨constraints, hleg, hagree⟩, hmarks⟩ :=
    hem.reads h hs hu (arrives_succ.2 ⟨t, ht⟩) hthat
      (fun k v hv hk => by
        rcases Nat.lt_or_eq_of_le (Nat.le_of_lt_succ hk) with hk | rfl
        · exact List.mem_cons_of_mem _ ((hw.edges k v hv).2 hk)
        · simp [hedge])
      (fun k v hv hheads hk hin => by
        rcases List.mem_cons.1 hin with heq | hin
        · rw [hedge, Handle.edge.injEq, EdgeId.mk.injEq] at heq
          exact hrow hv heq
        · have := ((hw.rows k v hv hheads).1 hin).1
          omega)
  obtain ⟨v, hv⟩ := hleg.terminal
  have hle := hleg.le
  have hmem : ∀ k, k ∈ em.marks ++ .edge y.edge :: visited ↔
      k ∈ elements ∨ k = .edge y.edge ∨ k ∈ visited := by
    intro k
    rw [hmarks, List.mem_cons]
  refine ⟨q + 1, lt_length hv, deferred', ?_⟩
  refine { settled := settled_succ hv, edges := ?_, rows := ?_, nodes := ?_, starts := ?_,
           waiting := ?_, sorted := hleg.sorted, queue := ?_ }
  · -- edges
    intro p w hp
    have hne : p ≠ q := ne_of_tokens hp hv Token.noConfusion
    rw [hmem, hleg.edges p w hp, hw.edges p w hp, hedge, Handle.edge.injEq, EdgeId.mk.injEq,
      edgeIndex_eq_iff (madeEdge?_edge cx hp) hmade]
    omega
  · -- rows of constraints
    intro p w hp hheads
    have hnot : Handle.edge ⟨edgeIndex cx ts p⟩ ∉ elements := fun hin =>
      absurd (hleg.structural _ _ hin (h.edge?_made (madeEdge?_constraint cx hp)))
        Bool.false_ne_true
    have hne : p ≠ q := ne_of_tokens hp hv Token.noConfusion
    have hne' : p ≠ i := ne_of_tokens hp ht Token.noConfusion
    rw [hmem, hw.rows p w hp hheads, hedge, Handle.edge.injEq, EdgeId.mk.injEq, hleg.rows]
    simp only [hnot, hrow hp, false_or, List.not_mem_nil, not_false_eq_true, and_true]
    constructor
    · intro hlt
      exact ⟨by omega, fun hin => by omega⟩
    · rintro ⟨hlt, hnin⟩
      exact Nat.lt_of_not_le fun hle => hnin ⟨by omega, by omega, hheads, w, hp⟩
  · -- nodes
    intro p w hp hhome
    have hne : p ≠ i := ne_of_tokens hp ht Token.noConfusion
    rw [hmem, hw.nodes p w hp hhome]
    simp only [reduceCtorEq, false_or]
    constructor
    · rintro (hin | hlt)
      · have := hleg.le_of_mem hp hhome hin
        omega
      · omega
    · intro hlt
      by_cases hpi : p < i
      · exact .inr hpi
      · exact .inl (hleg.entered p w (by omega) (by omega) hp)
  · -- starts
    intro p w k hp hhome hk
    have hnot : Handle.edge k ∉ elements := fun hin =>
      absurd (hleg.structural k _ hin hk) Bool.false_ne_true
    have hne : k ≠ ⟨edgeIndex cx ts i⟩ := (h.ne_of_start hmade hk).symm
    rw [hmem, hw.starts p w k hp hhome hk, hedge, Handle.edge.injEq]
    simp only [hnot, hne, false_or]
    refine ⟨fun hlt => by omega, fun hlt => Nat.lt_of_not_le fun hle' => ?_⟩
    -- the nodes of a leg are arrived at
    have halone := h.alone_of_start hp hhome hk
    have hne' : p ≠ i := ne_of_tokens hp ht Token.noConfusion
    rw [hleg.arrive p w (by omega) (by omega) hp] at halone
    cases halone
  · -- what is put off
    intro p hp
    obtain ⟨-, hlt, hheads, hconstraint⟩ := (hleg.rows p).1 hp
    exact ⟨by omega, hheads, hconstraint⟩
  · -- the stack
    have hsub : visited ⊆ em.marks ++ .edge y.edge :: visited := fun k hk => by simp [hk]
    have hrest : Agree (em.marks ++ .edge y.edge :: visited) rest (agenda g (wayBefore cx ts i)) :=
      hw.queue.tail hsub (by simp [Entry.handle])
    have hway : wayBefore cx ts (i + 1) = wayBefore cx ts i :=
      wayBefore_other fun w hw => ne_of_tokens ht hw Token.noConfusion rfl
    rw [← hway] at hrest
    refine (hagree.append hrest).trans ?_
    rw [List.append_assoc]
    exact hleg.queue _ (fun k hk => (hmarks k).2 (.inr hk)) fun k hk => (hmarks k).2 (.inl hk)

/-! ## Starts -/

/-- The start of a component is entered. -/
theorem after_start (h : Drawn cx ts g₀ g) {t : NodeToken} {y : Incidence} {em : Emission}
    {own : List Handle} (hw : WalkedTo cx ts g i [] visited (.along y :: rest))
    (ht : ts[i]? = some (.node t)) (hhome : home ts i = i)
    (hlink : g.edge? y.edge = some (startEdge (nodeAt cx ts i)))
    (hagenda : Agree visited (.along y :: rest) (agenda g [⟨0⟩]))
    (hem : Emits cx g (.node (nodeAt cx ts i) :: .edge y.edge :: visited) (.node (nodeAt cx ts i))
      em own) :
    WalkedTo cx ts g (i + 1) []
      (em.marks ++ .node (nodeAt cx ts i) :: .edge y.edge :: visited) (em.entries ++ rest) := by
  obtain ⟨hmarks, hpending⟩ := hem.entered
  have hself : ∀ {p w}, ts[p]? = some (.node w) → home ts p = p →
      (nodeAt cx ts p = nodeAt cx ts i ↔ p = i) := by
    intro p w hp hhp
    refine ⟨fun heq => ?_, fun heq => by rw [heq]⟩
    rw [← hhp, ← hhome]
    exact home_eq_of_nodeAt_eq hp ht heq
  rw [hmarks, List.nil_append]
  refine { settled := settled_succ ht, edges := ?_, rows := ?_, nodes := ?_, starts := ?_,
           waiting := by simp, sorted := .nil, queue := ?_ }
  · -- edges
    intro p w hp
    have hne : p ≠ i := ne_of_tokens hp ht Token.noConfusion
    simp only [List.mem_cons, reduceCtorEq, false_or, Handle.edge.injEq,
      h.ne_of_start (madeEdge?_edge cx hp) hlink, hw.edges p w hp]
    omega
  · -- rows of constraints
    intro p w hp hheads
    have hne : p ≠ i := ne_of_tokens hp ht Token.noConfusion
    simp only [List.mem_cons, reduceCtorEq, false_or, Handle.edge.injEq,
      h.ne_of_start (madeEdge?_constraint cx hp) hlink, hw.rows p w hp hheads, List.not_mem_nil,
      not_false_eq_true, and_true]
    omega
  · -- nodes
    intro p w hp hhp
    simp only [List.mem_cons, reduceCtorEq, false_or, Handle.node.injEq, hself hp hhp,
      hw.nodes p w hp hhp]
    omega
  · -- starts
    intro p w k hp hhp hk
    have hiff : k = y.edge ↔ p = i := by
      rw [← hself hp hhp, h.start_eq_iff hk hlink]
    simp only [List.mem_cons, reduceCtorEq, false_or, Handle.edge.injEq, hiff,
      hw.starts p w k hp hhp hk]
    omega
  · -- the stack: what is pending at the start, and the components behind it
    have hsub : visited ⊆ .node (nodeAt cx ts i) :: .edge y.edge :: visited :=
      fun k hk => by simp [hk]
    have hrest := hagenda.tail hsub (by simp [Entry.handle])
    rw [List.map_nil, List.nil_append, wayBefore_alone ht hhome hw.settled.alone, agenda_cons]
    exact (agree_pendingEntries (h.isPlace_node ht).1 hpending).append hrest

end WalkedTo

/-! ## The whole walk -/

/-- Where the walk stands: at its beginning, at a position, or in front of the first node of a
component. -/
inductive KeepsPace (cx : Context) (ts : List Token) (g : PatternGraph) :
    List Handle → List Entry → Prop
  | outset : KeepsPace cx ts g [] [.node g.anchor]
  | reached {visited : List Handle} {stack : List Entry} {i : Nat} {deferred : List Nat}
      (le : i ≤ ts.length) (walked : WalkedTo cx ts g i deferred visited stack) :
      KeepsPace cx ts g visited stack
  | entering {visited : List Handle} {rest : List Entry} {i : Nat} {t : NodeToken} {y : Incidence}
      (walked : WalkedTo cx ts g i [] visited (.along y :: rest))
      (token : ts[i]? = some (.node t)) (first : home ts i = i)
      (link : g.edge? y.edge = some (startEdge (nodeAt cx ts i)))
      (agenda : Agree visited (.along y :: rest) (agenda g [⟨0⟩])) :
      KeepsPace cx ts g (.edge y.edge :: visited) (.node (nodeAt cx ts i) :: rest)

/-- The walk has not come anywhere yet. -/
theorem WalkedTo.zero (hr : Rooted cx g₀ g) {es : List Entry}
    (hes : pendingEntries g g.anchor [.node g.anchor] = .ok es) :
    WalkedTo cx ts g 0 [] [.node g.anchor] es where
  settled := ⟨rfl, fun _ _ _ _ hj => absurd hj (Nat.zero_ne_add_one _)⟩
  edges := by simp
  rows := by simp
  nodes := by
    intro p t _ _
    simp only [List.mem_singleton, Handle.node.injEq, Nat.not_lt_zero, iff_false]
    exact nodeAt_ne_anchor
  starts := by simp
  waiting := by simp
  sorted := .nil
  queue := by
    have hagree := agree_pendingEntries (isNode_anchor hr.regular.consistent.inhabited) hes
    rwa [List.map_nil, List.nil_append, wayBefore, agenda_cons, agenda_nil, List.append_nil]

namespace KeepsPace

/-- Entries about something visited are dropped. -/
theorem skip (h : KeepsPace cx ts g visited (x :: rest)) (hx : x.handle ∈ visited) :
    KeepsPace cx ts g visited rest := by
  cases h with
  | outset => cases hx
  | reached le walked =>
    exact .reached le { walked with queue := walked.queue.tail (List.Subset.refl _) hx }
  | @entering visited rest i t y walked token first link agenda =>
    simp only [Entry.handle, List.mem_cons, reduceCtorEq, false_or] at hx
    exact absurd ((walked.nodes i t token first).1 hx) (Nat.lt_irrefl i)

/-- Every visit comes to another position. -/
theorem visit (h : Drawn cx ts g₀ g) (hdf : DepthFirst cx ts) {em : Emission}
    {binds own : List Handle} (hs : KeepsPace cx ts g visited (x :: rest))
    (hf : Frontier g₀ g visited binds (x :: rest)) (hx : x.handle ∉ visited)
    (hem : Emits cx g (x.handle :: visited) x em own) :
    KeepsPace cx ts g (em.marks ++ x.handle :: visited) (em.entries ++ rest) := by
  cases hs with
  | outset =>
    obtain ⟨hmarks, hpending⟩ := hem.entered
    rw [hmarks, List.append_nil]
    exact .reached (Nat.zero_le _) (.zero h.rooted hpending)
  | reached le walked =>
    cases walked.ahead h hdf le hx with
    | @deferred i s more walked le entry =>
      subst entry
      obtain ⟨-, hheads, t, ht⟩ := walked.waiting s (by simp)
      obtain ⟨hentries, hrow⟩ := hem.addsRow h ht hheads hf
      rw [hentries, List.nil_append]
      exact .reached le (walked.after_deferred h hrow)
    | @row i t walked token entry =>
      subst entry
      obtain ⟨hentries, hrow⟩ := hem.addsRow h token (walked.settled.heads t token) hf
      rw [hentries, List.nil_append]
      obtain ⟨r, hr, hreached⟩ := walked.after_row h token hrow
      exact .reached hr hreached
    | @edge i t y walked token entry structural edge that =>
      subst entry
      obtain ⟨q, hq, deferred', hreached⟩ := walked.after_edge h token structural edge that hem
      exact .reached hq hreached
    | @start i t y walked token first entry that link agenda =>
      subst entry
      obtain ⟨hmarks, hentries⟩ := hem.enters link
      rw [hmarks, hentries, that]
      exact .entering walked token first link agenda
  | entering walked token first link agenda =>
    exact .reached (lt_length token) (walked.after_start h token first link agenda hem)

end KeepsPace

end Plan

end GraphPattern
