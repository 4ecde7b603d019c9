import GraphPattern.Proofs.WalkFrontier

/-!
# GraphPattern — spliced constraints

Constraints hang in a row on a node of the pattern. The walk deals with all of them as soon as it
follows the edge to the first one, and no other edges hang on them: nothing is left to follow once
they are spliced.

## Results

* `Plan.Splices.spliced` — what splicing constraints visits and emits.
* `Plan.Frontier.followConstraints` — splicing keeps the invariant of the walk.
-/

namespace GraphPattern

open PatternGraph

namespace Plan

variable {cx : Context} {g g₀ : PatternGraph} {visited binds : List Handle} {rest : List Entry}

-- ---------------------------------------------------------------------------
-- Constraints that are spliced
-- ---------------------------------------------------------------------------

/-- What holds of the constraints that are spliced from one on. -/
structure Spliced (g₀ g : PatternGraph) (n : NodeId) (visited : List Handle) (steps : List Step)
    (marks : List Handle) : Prop where
  start : .node n ∈ marks
  node : ∀ m, .node m ∈ marks → g.IsConstraint m ∧ g₀.Joined n m
  edge : ∀ i, g.Incident i → .edge i.edge ∈ marks → g.Precedes i ∧ .node i.this ∈ marks
  all : ∀ i, g.Incident i → .node i.this ∈ marks →
    .edge i.edge ∈ visited ∨ .edge i.edge ∈ marks
  emitted : ∀ m nd c, .node m ∈ marks → g.node? m = some nd → nd.constraint? = some c →
    constraintStep c ∈ steps

/-- Nothing but edges to constraints is spliced. -/
theorem Spliced.kind_eq {n : NodeId} {steps : List Step} {marks : List Handle} {k : EdgeId}
    {e : PatternEdge} (h : Spliced g₀ g n visited steps marks) (hk : .edge k ∈ marks)
    (he : g.edge? k = some e) : e.kind = .precedes := by
  obtain ⟨⟨e', he', hkind⟩, -⟩ := h.edge (e.seen k .out) (.seen he .out) (by simpa using hk)
  rw [PatternEdge.seen_edge, he] at he'
  cases he'
  exact hkind

/-- Only constraints hang on constraints. -/
theorem precedes_of_isConstraint (hr : Rooted cx g₀ g) {i : Incidence} (hi : g.Incident i)
    (hc : g.IsConstraint i.this) : g.Precedes i := by
  rcases hr.incident_cases hi with hs | hp | ⟨n, hn, he⟩
  · exact absurd (hr.regular.isPlace_this hi hs) (Regular.not_isPlace_of_isConstraint hc)
  · exact hp
  · exfalso
    obtain ⟨e, he', hseen⟩ := hi
    rw [he] at he'
    cases he'
    cases hd : i.direction <;> rw [hseen, hd] at hc
    · exact hr.regular.not_isConstraint_anchor hc
    · refine Regular.not_isPlace_of_isConstraint hc ?_
      exact hr.anchors.extended.isPlace (hr.before.place_of_isStart hn)

/-- The edge to a constraint leads to a constraint. -/
theorem isConstraint_that (hr : Rooted cx g₀ g) {i : Incidence} (hi : g.Incident i)
    (hp : g.Precedes i) (hd : i.direction = .out) : g.IsConstraint i.that := by
  obtain ⟨e, he, hk⟩ := hp
  have hseen := hi.eq_seen he
  have hfits := hr.regular.edgeFits_of_edge? he
  rw [EdgeFits, hk] at hfits
  rw [hseen, hd]
  exact hfits.2

theorem mem_incidencesAt_placeOf? (hg : g.Consistent) {n : NodeId} (hn : g.IsNode n)
    {i : Incidence} :
    i ∈ g.incidencesAt ((g.placeOf? n).getD 0) ↔ g.Incident i ∧ i.this = n := by
  obtain ⟨k, rfl, hk⟩ := hn
  have hplace : (g.placeOf? ⟨k⟩).getD 0 = k := by
    show (if k < g.nodes.length then some k else none).getD 0 = k
    rw [if_pos hk]
    rfl
  rw [hplace]
  exact hg.mem_incidencesAt hk

/-- The edge from a node of the model to its first constraint leads to the constraint. -/
theorem direction_of_precedes (hr : Rooted cx g₀ g) {i : Incidence} (hi : g.Incident i)
    (hp : g.Precedes i) (hthis : ¬ g.IsConstraint i.this) : i.direction = .out := by
  cases hd : i.direction with
  | out => rfl
  | into =>
    refine absurd (isConstraint_that hr hi.reverse hp ?_) hthis
    rw [Incidence.reverse, hd]
    rfl

/-- An edge that leads to the node was visited. -/
def LedTo (g : PatternGraph) (n : NodeId) (visited : List Handle) : Prop :=
  ∃ i, g.Incident i ∧ i.this = n ∧ i.direction = .into ∧ .edge i.edge ∈ visited

theorem ledTo_that {i : Incidence} (hi : g.Incident i) (hd : i.direction = .out)
    (hv : .edge i.edge ∈ visited) : LedTo g i.that visited := by
  refine ⟨i.reverse, hi.reverse, rfl, ?_, hv⟩
  rw [Incidence.reverse, hd]
  rfl

/-- From a constraint that was led to, the next edge leads on to another constraint. -/
theorem leads_on (hr : Rooted cx g₀ g) {n : NodeId} (hn : g.IsConstraint n)
    (hled : LedTo g n visited) {i : Incidence} (next : nextConstraint? g n visited = some i) :
    g.Incident i ∧ i.this = n ∧ g.Precedes i ∧ Handle.edge i.edge ∉ visited ∧
      i.direction = .out := by
  obtain ⟨hmem, hp, hnew⟩ := nextConstraint?_some next
  obtain ⟨hi, hthis⟩ := (mem_incidencesAt_placeOf? hr.regular.consistent hn.1).1 hmem
  obtain ⟨j, hj, hjthis, hjd, hjv⟩ := hled
  refine ⟨hi, hthis, hp, hnew, ?_⟩
  cases hd : i.direction with
  | out => rfl
  | into =>
    -- only one edge leads to a constraint, and that one was visited
    have heq := hr.regular.chained j i hj hi (hjthis ▸ hn) (hthis.trans hjthis.symm)
      (hd.trans hjd.symm)
    rw [heq] at hnew
    exact absurd hjv hnew

theorem Splices.spliced (hr : Rooted cx g₀ g) {n : NodeId} {visited : List Handle}
    {steps : List Step} {marks : List Handle} (h : Splices g n visited steps marks)
    (hn : g.IsConstraint n) (hled : LedTo g n visited) :
    Spliced g₀ g n visited steps marks := by
  induction h with
  | @last n nd c visited node form next =>
    refine ⟨by simp, ?_, by intro i _ hi; simp at hi, ?_, ?_⟩
    · intro m hm
      obtain rfl : m = n := by simpa using hm
      exact ⟨hn, .refl⟩
    · intro i hi hthis
      have hthis : i.this = n := by simpa using hthis
      have hp := precedes_of_isConstraint hr hi (hthis ▸ hn)
      refine .inl (Classical.byContradiction fun hv => ?_)
      obtain ⟨e, he, hk⟩ := hp
      have hmem := (mem_incidencesAt_placeOf? hr.regular.consistent hn.1).2 ⟨hi, hthis⟩
      have hnone := List.find?_eq_none.1 next i hmem
      simp [he, hk, hv] at hnone
    · intro m nd' c' hm hnode hform
      obtain rfl : m = n := by simpa using hm
      rw [node] at hnode
      cases hnode
      rw [form] at hform
      cases hform
      simp
  | @next n nd c visited i steps marks node form next rest ih =>
    obtain ⟨hi, hthis, hp, hnew, hd⟩ := leads_on hr hn hled next
    obtain ⟨j, hj, hjthis, hjd, hjv⟩ := hled
    have hthat : g.IsConstraint i.that := isConstraint_that hr hi hp hd
    have hrest := ih hthat (ledTo_that hi hd (by simp))
    have hadj : g₀.Adjacent n i.that := hthis ▸ hr.adjacent hi (.inr hp)
    refine ⟨by simp, ?_, ?_, ?_, ?_⟩
    · intro m hm
      simp only [List.mem_cons, Handle.node.injEq, reduceCtorEq, false_or] at hm
      rcases hm with rfl | hm
      · exact ⟨hn, .refl⟩
      · obtain ⟨hc, hjoin⟩ := hrest.node m hm
        exact ⟨hc, .head hadj hjoin⟩
    · intro k hk hkmem
      simp only [List.mem_cons, Handle.edge.injEq, reduceCtorEq, false_or] at hkmem
      rcases hkmem with heq | hkmem
      · rcases hi.eq_or_eq_reverse hk heq with rfl | rfl
        · exact ⟨hp, by simp [hthis]⟩
        · exact ⟨hp, by simp [Incidence.reverse, hrest.start]⟩
      · obtain ⟨hkp, hkthis⟩ := hrest.edge k hk hkmem
        exact ⟨hkp, by simp [hkthis]⟩
    · intro k hk hkthis
      simp only [List.mem_cons, Handle.node.injEq, reduceCtorEq, false_or] at hkthis
      rcases hkthis with hkthis | hkthis
      · cases hkd : k.direction with
        | into =>
          have heq := hr.regular.chained j k hj hk (hjthis ▸ hn) (hkthis.trans hjthis.symm)
            (hkd.trans hjd.symm)
          exact .inl (heq ▸ hjv)
        | out =>
          have heq := hr.regular.chained i k hi hk (hthis ▸ hn) (hkthis.trans hthis.symm)
            (hkd.trans hd.symm)
          exact .inr (by simp [heq])
      · rcases hrest.all k hk hkthis with hv | hm
        · simp only [List.mem_cons, Handle.edge.injEq, reduceCtorEq, false_or] at hv
          rcases hv with heq | hv
          · exact .inr (by simp [heq])
          · exact .inl hv
        · exact .inr (by simp [hm])
    · intro m nd' c' hm hnode hform
      simp only [List.mem_cons, Handle.node.injEq, reduceCtorEq, false_or] at hm
      rcases hm with rfl | hm
      · rw [node] at hnode
        cases hnode
        rw [form] at hform
        cases hform
        simp
      · exact List.mem_cons_of_mem _ (hrest.emitted m nd' c' hm hnode hform)

/-- The edge to a row of constraints is followed by splicing them. -/
theorem Emits.splices_of_precedes {i : Incidence} {em : Emission} {more : List Handle}
    (hp : g.Precedes i) (h : Emits cx g visited (.along i) em more) :
    em.entries = [] ∧ Splices g i.that visited em.steps em.marks := by
  obtain ⟨e, he, hk⟩ := hp
  have hnot : ∀ {e' : PatternEdge} {k : EdgeKind}, g.edge? i.edge = some e' → e'.kind = k →
      k = .precedes := by
    intro e' k he' hk'
    rw [he] at he'
    cases he'
    exact hk'.symm.trans hk
  cases h with
  | start edge kind => cases hnot edge kind
  | constraints edge kind splices => exact ⟨rfl, splices⟩
  | chain edge kind anonymous segment_ok walks emits => cases hnot edge kind
  | argumentEdge edge kind named far => cases hnot edge kind
  | namedEdge edge kind named identity far => cases hnot edge kind

namespace Frontier

/-- Constraints are spliced from a node that is visited. -/
theorem followConstraints (hr : Rooted cx g₀ g) {i : Incidence} {steps : List Step}
    {marks : List Handle} (hf : Frontier g₀ g visited binds (.along i :: rest))
    (hp : g.Precedes i) (h : Splices g i.that (.edge i.edge :: visited) steps marks) :
    Frontier g₀ g (marks ++ .edge i.edge :: visited) binds rest ∧
      Spliced g₀ g i.that (.edge i.edge :: visited) steps marks := by
  obtain ⟨hi, hthis, hncon⟩ := hf.along i (by simp)
  have hd := direction_of_precedes hr hi hp hncon
  have hthat : g.IsConstraint i.that := isConstraint_that hr hi hp hd
  have hs : Spliced g₀ g i.that (.edge i.edge :: visited) steps marks :=
    h.spliced hr hthat (ledTo_that hi hd (by simp))
  refine ⟨?_, hs⟩
  have hunnamed : ∀ {k}, g.Precedes k → g.Unnamed (.edge k.edge) := by
    rintro k ⟨e, he, hk⟩
    have hfits := hr.regular.edgeFits_of_edge? he
    rw [EdgeFits, hk] at hfits
    rw [unnamed_edge_iff he, PatternEdge.anonymous, hfits.1]
    rfl
  have hadv : Frontier g₀ g ((marks ++ [.edge i.edge]) ++ visited) ([] ++ binds) ([] ++ rest) := by
    refine hf.advance (marks ++ [.edge i.edge]) [] [] (by simp [Entry.handle])
      ?_ ?_ ?_ ?_ ?_ ?_ ?_ ?_
    · intro m hm
      exact (hs.node m (by simpa using hm)).1.1
    · intro j hj
      cases hj
    · intro m hm
      cases hm
    · intro j hj hjthis hjnew hjv
      exfalso
      rcases hs.all j hj (by simpa using hjthis) with h | h
      · simp only [List.mem_cons, Handle.edge.injEq] at h
        rcases h with h | h
        · exact hjnew (by simp [h])
        · exact hjv h
      · exact hjnew (by simp [h])
    · intro j hj hjmem
      rcases List.mem_append.1 hjmem with hjmem | hjmem
      · exact .inl (by simp [(hs.edge j hj hjmem).2])
      · rcases hi.eq_or_eq_reverse hj (by simpa using hjmem) with rfl | rfl
        · exact .inr (.inl hthis)
        · exact .inl (by simp [Incidence.reverse, hs.start])
    · intro h hh
      cases hh
    · intro h hh hu
      exfalso
      rcases List.mem_append.1 hh with hh | hh
      · cases h with
        | node m =>
          obtain ⟨hm, nd, hnd, hkind⟩ := (hs.node m hh).1
          have hfits := hr.regular.node m nd hm hnd
          rw [NodeFits, hkind] at hfits
          refine hu ((unnamed_node_iff hm hnd).2 ?_)
          rw [PatternNode.anonymous, hfits.1]
          rfl
        | edge k =>
          apply hu
          intro name hname
          obtain ⟨e, he, -⟩ := Option.bind_eq_some_iff.1 hname
          have hk := (hs.edge (e.seen k .out) (.seen he .out) (by simpa using hh)).1
          exact hunnamed hk name (by simpa using hname)
      · obtain rfl := List.mem_singleton.1 hh
        exact hu (hunnamed hp)
    · intro m hm s hstart hj
      have hjoin := (hs.node m (by simpa using hm)).2
      have hback : g₀.Joined m i.this :=
        hjoin.symm.trans (.single (hr.adjacent hi (.inr hp)).symm)
      exact (hf.starts i.this hthis s hstart (hj.trans hback)).mono
  simpa using hadv

end Frontier

end Plan

end GraphPattern
