import GraphPattern.Proofs.Chains
import GraphPattern.Proofs.Reading

/-!
# GraphPattern — edges at unnamed nodes

A node token without a name makes a node that no other token can refer to. So there are at most two
edges of the model at an unnamed node: that of the edge token before it and that of the edge token
after it. A chain that has arrived at such a node along one of them has at most one way to go on.

## Results

* `PatternGraph.Reading.Reads.sparse` — the graphs of patterns are sparse in this sense.
* `Chain.length_pending_le` — where a chain arrives, at most one edge of the model is left.
-/

namespace GraphPattern

open PatternGraph

namespace PatternGraph

variable {cx : Context} {g g' : PatternGraph} {n m : NodeId}

/-- The incidence is one of an edge of the model at a node. -/
def EdgeAt (g : PatternGraph) (n : NodeId) (i : Incidence) : Prop :=
  g.Incident i ∧ i.this = n ∧ g.Structural i

/-- At most two edges of the model are at an unnamed node. -/
def Sparse (g : PatternGraph) : Prop :=
  ∀ n, g.IsNode n → g.Unnamed (.node n) → ∀ i j k, g.EdgeAt n i → g.EdgeAt n j → g.EdgeAt n k →
    i = j ∨ i = k ∨ j = k

/-- If the node is unnamed, at most one edge of the model is at it. -/
def Tip (g : PatternGraph) (n : NodeId) : Prop :=
  g.Unnamed (.node n) → ∀ i j, g.EdgeAt n i → g.EdgeAt n j → i = j

/-- If the node is unnamed, no edge of the model is at it. -/
def Loose (g : PatternGraph) (n : NodeId) : Prop :=
  g.Unnamed (.node n) → ∀ i, ¬ g.EdgeAt n i

theorem Loose.tip (h : g.Loose n) : g.Tip n :=
  fun hn i _ hi => absurd hi (h hn i)

-- ---------------------------------------------------------------------------
-- Growing
-- ---------------------------------------------------------------------------

theorem edgeAt_of_edges_eq (hedges : g'.edges = g.edges) {i : Incidence} :
    g'.EdgeAt n i ↔ g.EdgeAt n i := by
  simp only [EdgeAt, Incident, Structural, edge?, hedges]

theorem Extends.unnamed_iff (h : g.Extends g') (hn : g.IsNode n) :
    g'.Unnamed (.node n) ↔ g.Unnamed (.node n) := by
  simp only [Unnamed, HasName, h.node? hn, hn, h.isNode hn]

/-- Nothing is at a node that is not there yet. -/
theorem Consistent.not_edgeAt (hg : g.Consistent) (hn : ¬ g.IsNode n) (i : Incidence) :
    ¬ g.EdgeAt n i := by
  rintro ⟨hi, rfl, -⟩
  exact hn (hg.isNode_this hi)

/-- A graph is sparse if no edges of the model are added and no names are lost. -/
theorem Sparse.mono (hs : g.Sparse) (hg : g.Consistent)
    (hold : ∀ {n i}, g'.EdgeAt n i → g.EdgeAt n i)
    (hun : ∀ n, g.IsNode n → g'.Unnamed (.node n) → g.Unnamed (.node n)) : g'.Sparse := by
  intro n _ hunnamed i j k hi hj hk
  by_cases hn : g.IsNode n
  · exact hs n hn (hun n hn hunnamed) i j k (hold hi) (hold hj) (hold hk)
  · exact absurd (hold hi) (hg.not_edgeAt hn i)

theorem Sparse.extend (hs : g.Sparse) (hg : g.Consistent) (h : g.Extends g')
    (hedges : g'.edges = g.edges) : g'.Sparse :=
  hs.mono hg (edgeAt_of_edges_eq hedges).1 fun _ hn => (h.unnamed_iff hn).1

theorem Tip.extend (ht : g.Tip n) (hn : g.IsNode n) (h : g.Extends g')
    (hedges : g'.edges = g.edges) : g'.Tip n := by
  intro hun i j hi hj
  rw [edgeAt_of_edges_eq hedges] at hi hj
  exact ht ((h.unnamed_iff hn).1 hun) i j hi hj

theorem structural_append {e : PatternEdge} (hedges : g'.edges = g.edges ++ [e]) {i : Incidence}
    (h : g.Incident i) : g'.Structural i ↔ g.Structural i := by
  obtain ⟨e', he', -⟩ := h
  have : g'.edge? i.edge = some e' := by
    rw [edge?, hedges]
    exact (List.getElem?_append_left (List.getElem?_eq_some_iff.1 he').1).trans he'
  simp only [Structural, this, he']

/-- What is at a node once an edge is added was there before, or is the edge. -/
theorem EdgeAt.cases_append {e : PatternEdge} (hedges : g'.edges = g.edges ++ [e])
    {i : Incidence} (h : g'.EdgeAt n i) : g.EdgeAt n i ∨
      (i = e.seen ⟨g.edges.length⟩ i.direction ∧ i.this = n ∧ e.structural = true) := by
  obtain ⟨hi, hthis, hs⟩ := h
  rcases incident_append hedges hi with hold | hnew
  · exact .inl ⟨hold, hthis, (structural_append hedges hold).1 hs⟩
  · refine .inr ⟨hnew, hthis, ?_⟩
    obtain ⟨e', he', hk⟩ := hs
    rw [hnew, PatternEdge.seen_edge, edge?, hedges] at he'
    simp only [List.getElem?_concat_length, Option.some.injEq] at he'
    rwa [he']

/-- An edge that is none of the model changes nothing. -/
theorem EdgeAt.of_append {e : PatternEdge} (hedges : g'.edges = g.edges ++ [e])
    (hkind : e.kind.structural = false) {i : Incidence} (h : g'.EdgeAt n i) : g.EdgeAt n i := by
  rcases h.cases_append hedges with h | ⟨-, -, hs⟩
  · exact h
  · rw [PatternEdge.structural, hkind] at hs
    cases hs

/-- A new edge is seen from an unnamed node in one way only. -/
theorem eq_of_seen {e : PatternEdge} {k : EdgeId} (hloop : e.alpha = e.omega → n ≠ e.alpha)
    {i j : Incidence} (hi : i = e.seen k i.direction ∧ i.this = n)
    (hj : j = e.seen k j.direction ∧ j.this = n) : i = j := by
  obtain ⟨hi, hin⟩ := hi
  obtain ⟨hj, hjn⟩ := hj
  rw [hi] at hin
  rw [hj] at hjn
  cases hdi : i.direction <;> cases hdj : j.direction <;> rw [hdi] at hi hin <;>
    rw [hdj] at hj hjn
  case out.out | into.into => rw [hi, hj]
  case out.into => exact absurd hin.symm (hloop (hin.trans hjn.symm))
  case into.out => exact absurd hjn.symm (hloop (hjn.trans hin.symm))

/-- An edge of the model between a tip and a node at which nothing is. -/
theorem Sparse.addEdge (hs : g.Sparse) {e : PatternEdge} {current next : NodeId}
    (htip : g.Tip current) (hloose : g.Loose next)
    (hne : g.Unnamed (.node next) → next ≠ current)
    (hends : (e.alpha = current ∧ e.omega = next) ∨ (e.alpha = next ∧ e.omega = current))
    (hnodes : g'.nodes = g.nodes) (hedges : g'.edges = g.edges ++ [e]) :
    g'.Sparse ∧ g'.Tip next := by
  have hun : ∀ m, g'.Unnamed (.node m) → g.Unnamed (.node m) := by
    intro m h
    simpa only [Unnamed, HasName, IsNode, PatternGraph.node?, placeOf?, hnodes] using h
  have hnew : ∀ m, g.Unnamed (.node m) → ∀ i j : Incidence,
      (i = e.seen ⟨g.edges.length⟩ i.direction ∧ i.this = m) →
      (j = e.seen ⟨g.edges.length⟩ j.direction ∧ j.this = m) → i = j := by
    intro m hm i j
    refine eq_of_seen fun hloop hma => ?_
    rcases hends with ⟨ha, ho⟩ | ⟨ha, ho⟩
    · exact hne (by rwa [← ho, ← hloop, ← hma]) (by rw [← ho, ← hloop, ha])
    · exact hne (by rwa [← ha, ← hma]) (by rw [← ha, hloop, ho])
  have htouch : ∀ i : Incidence, i = e.seen ⟨g.edges.length⟩ i.direction →
      i.this = current ∨ i.this = next := by
    intro i hi
    rw [hi]
    rcases hends with ⟨ha, ho⟩ | ⟨ha, ho⟩ <;> cases i.direction <;>
      simp [PatternEdge.seen, ha, ho]
  constructor
  · intro m hm hunnamed i j k hi hj hk
    have hm' : g.IsNode m := (isNode_of_nodes_eq hnodes m).1 hm
    have hold := hs m hm' (hun m hunnamed)
    have hsame := hnew m (hun m hunnamed)
    have hfew : ∀ x y, g.EdgeAt m x → g.EdgeAt m y → (∃ z : Incidence,
        z = e.seen ⟨g.edges.length⟩ z.direction ∧ z.this = m) → x = y := by
      rintro x y hx hy ⟨z, hz, hzm⟩
      rcases htouch z hz with h | h
      · exact htip (h ▸ hzm ▸ hun m hunnamed) x y (h ▸ hzm ▸ hx) (h ▸ hzm ▸ hy)
      · exact absurd (h ▸ hzm ▸ hx) (hloose (h ▸ hzm ▸ hun m hunnamed) x)
    rcases hi.cases_append hedges with hi | ⟨hi, him, -⟩ <;>
      rcases hj.cases_append hedges with hj | ⟨hj, hjm, -⟩ <;>
      rcases hk.cases_append hedges with hk | ⟨hk, hkm, -⟩
    · exact hold i j k hi hj hk
    · exact .inl (hfew i j hi hj ⟨k, hk, hkm⟩)
    · exact .inr (.inl (hfew i k hi hk ⟨j, hj, hjm⟩))
    · exact .inr (.inr (hsame j k ⟨hj, hjm⟩ ⟨hk, hkm⟩))
    · exact .inr (.inr (hfew j k hj hk ⟨i, hi, him⟩))
    · exact .inr (.inl (hsame i k ⟨hi, him⟩ ⟨hk, hkm⟩))
    · exact .inl (hsame i j ⟨hi, him⟩ ⟨hj, hjm⟩)
    · exact .inl (hsame i j ⟨hi, him⟩ ⟨hj, hjm⟩)
  · intro hunnamed i j hi hj
    have hnone := hloose (hun next hunnamed)
    rcases hi.cases_append hedges with hi | ⟨hi, hin, -⟩
    · exact absurd hi (hnone i)
    rcases hj.cases_append hedges with hj | ⟨hj, hjn, -⟩
    · exact absurd hj (hnone j)
    exact hnew next (hun next hunnamed) i j ⟨hi, hin⟩ ⟨hj, hjn⟩

-- ---------------------------------------------------------------------------
-- Reading
-- ---------------------------------------------------------------------------

namespace Reading

variable {r : Reading} {ts : List Token} {hs : List Handle}

/-- A node token stands for a named node or for a new one. -/
theorem loose_of_resolve (hg : g.Regular cx) {t : NodeToken}
    (hres : resolve cx g t = .ok (n, g')) :
    g'.Loose n ∧ (g'.Unnamed (.node n) → ¬ g.IsNode n) := by
  have hedges := edges_of_resolve hres
  rcases resolve_cases hres with ⟨name, -, hnamed, rfl, -⟩ | ⟨hadd, -, -⟩
  · have hname := (hg.names name (.node n)).1 hnamed
    exact ⟨fun hun => absurd hname (hun name), fun hun => absurd hname (hun name)⟩
  · obtain rfl : n = ⟨g.nodes.length⟩ := congrArg Prod.fst hadd
    refine ⟨fun _ i hi => ?_, fun _ => not_isNode_length g⟩
    exact hg.consistent.not_edgeAt (not_isNode_length g) i ((edgeAt_of_edges_eq hedges).1 hi)

/-- What is read stays sparse: only the current node may get another edge. -/
theorem Reads.sparse (h : Reads cx r ts hs g) (hr : Sound cx r) (hts : Token.Visible ts)
    (hsparse : r.graph.Sparse) (htip : r.graph.Tip r.current) : g.Sparse := by
  induction h with
  | done => exact hsparse
  | @constraint r r' t ts hs g step _ ih =>
    obtain ⟨k, hadd, hcur, -⟩ := constrain_ok step
    have hext := extends_addNode r.graph (constraintNode t)
    have hcons := hr.regular.consistent
    have hcurrent : r.graph.IsNode r.current := by
      rcases hr.current with h | h
      · exact h ▸ isNode_anchor hcons.inhabited
      · exact h.1
    have hold : ∀ {m i}, r'.graph.EdgeAt m i →
        (r.graph.addNode (constraintNode t)).2.EdgeAt m i :=
      fun hi => hi.of_append (edges_of_addEdge hadd) rfl
    have hun : ∀ m, r'.graph.Unnamed (.node m) →
        (r.graph.addNode (constraintNode t)).2.Unnamed (.node m) := by
      intro m hm
      simpa only [Unnamed, HasName, IsNode, PatternGraph.node?, placeOf?,
        nodes_of_addEdge hadd] using hm
    refine ih (hr.constrain step).1 (fun t ht => hts t (List.mem_cons_of_mem _ ht)) ?_ ?_
    · exact (hsparse.extend hcons hext rfl).mono (hcons.addNode _) hold fun m _ => hun m
    · rw [hcur]
      intro hunnamed i j hi hj
      exact htip.extend hcurrent hext rfl (hun _ hunnamed) i j (hold hi) (hold hj)
  | @node r t n g₁ g ts hs step _ ih =>
    obtain ⟨hreg, hext, hplace⟩ := hr.regular.resolve (hts (.node t) (by simp)) step
    refine ih ⟨hreg, .inr hplace, by intro c hc; cases hc⟩
      (fun t ht => hts t (List.mem_cons_of_mem _ ht)) ?_ ?_
    · exact hsparse.extend hr.regular.consistent hext (edges_of_resolve step)
    · exact (loose_of_resolve hr.regular step).1.tip
  | @edge r t next n g₁ g₂ g ts hs source target step _ ih =>
    obtain ⟨hreg₁, hext, hplace⟩ := hr.regular.resolve (hts (.node next) (by simp)) target
    have hold := hr.isPlace_current source
    obtain ⟨hreg₂, hext₂⟩ :=
      hreg₁.connect (hext.isPlace hold) hplace (hts (.edge t) (by simp)) step
    obtain ⟨hloose, hnew⟩ := loose_of_resolve hr.regular target
    obtain ⟨-, k, hadd⟩ := connect_ok step
    have hgrown := (hsparse.extend hr.regular.consistent hext (edges_of_resolve target)).addEdge
      (htip.extend hold.1 hext (edges_of_resolve target)) hloose
      (fun hun heq => hnew hun (heq ▸ hold.1))
      (placeEdge_ends cx t _ _)
      (nodes_of_addEdge hadd) (edges_of_addEdge hadd)
    exact ih ⟨hreg₂, .inr (hext₂.isPlace hplace), by intro c hc; cases hc⟩
      (fun t ht => hts t (by simp [ht])) hgrown.1 hgrown.2

/-- The graph of a pattern is sparse. -/
theorem sparse_of_run (h : run cx {} ts = .ok g) (hts : Token.Visible ts) : g.Sparse := by
  obtain ⟨hs, hreads⟩ := reads_of_run h
  have hnone : ∀ {n i}, ¬ PatternGraph.empty.EdgeAt n i := by
    rintro n i ⟨⟨e, he, -⟩, -⟩
    cases he
  exact hreads.sparse (.start cx) hts (fun _ _ _ _ _ _ hi => absurd hi hnone)
    fun _ _ _ hi => absurd hi hnone

end Reading

/-- Anchoring adds no edges of the model. -/
theorem Sparse.anchors (hs : g.Sparse) (hg : g.Consistent) (h : Anchors g g') : g'.Sparse := by
  refine hs.mono hg ?_ fun n _ hun name hname => hun name (h.hasName_iff.2 hname)
  rintro n i ⟨⟨e, he, hseen⟩, hn, e', he', hk⟩
  rw [he] at he'
  cases he'
  rcases h.edge?_cases he with he | ⟨m, -, rfl⟩
  · exact ⟨⟨e, he, hseen⟩, hn, e, he, hk⟩
  · cases hk

end PatternGraph

-- ---------------------------------------------------------------------------
-- Chains
-- ---------------------------------------------------------------------------

namespace Chain

variable {g : PatternGraph} {n : NodeId} {visited : List Handle}

/-- Where an edge of the model arrives at an unnamed node, at most one is left to follow. -/
theorem length_pending_le (hg : g.Consistent) (hs : g.Sparse) (hn : g.IsNode n)
    (hun : g.Unnamed (.node n)) {i : Incidence} (hi : g.EdgeAt n i)
    (hv : Handle.edge i.edge ∈ visited) {left : List (Incidence × PatternEdge)}
    (h : pending g n visited = .ok left) : (left.filter (·.2.kind.structural)).length ≤ 1 := by
  have hat : ∀ x ∈ left.filter (·.2.kind.structural),
      g.EdgeAt n x.1 ∧ Handle.edge x.1.edge ∉ visited := by
    intro x hx
    obtain ⟨hx, hk⟩ := List.mem_filter.1 hx
    obtain ⟨hinc, hthis, hfresh, he⟩ := (mem_pending hg hn h).1 hx
    exact ⟨⟨hinc, hthis, x.2, he, hk⟩, hfresh⟩
  have hpair := (pending_pairwise hg hn h).filter (fun x => x.2.kind.structural)
  match hl : left.filter (·.2.kind.structural) with
  | [] => simp [hl]
  | [x] => simp [hl]
  | x :: y :: rest =>
    exfalso
    rw [hl] at hat hpair
    obtain ⟨hx, hxv⟩ := hat x (by simp)
    obtain ⟨hy, hyv⟩ := hat y (by simp)
    have hbefore := (List.pairwise_cons.1 hpair).1 y (by simp)
    rcases hs n hn hun i x.1 y.1 hi hx hy with h | h | h
    · exact hxv (h ▸ hv)
    · exact hyv (h ▸ hv)
    · rw [h] at hbefore
      exact not_before_of_before hbefore hbefore

end Chain

end GraphPattern
