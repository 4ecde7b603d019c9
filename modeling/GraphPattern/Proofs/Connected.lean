import GraphPattern.Proofs.Arena
import GraphPattern.PatternGraph.OfTokens
import Mathlib.Logic.Relation

/-!
# GraphPattern — components and their starts

Two nodes of a pattern graph are joined if edges lead from one to the other, whatever their
directions. The search from a node finds what it is joined with, and anchoring adds one edge for
each component: from the anchor to the node of it that was made first.

* `PatternGraph.reachableFrom_ok` — the search ends with exactly the joined nodes.
* `PatternGraph.anchored_ok` — anchoring a consistent graph succeeds. It adds start edges to the
  first nodes of the components, in their order, and joins every node with the anchor.
-/

namespace GraphPattern

namespace PatternGraph

/-! ## Joined nodes -/

/-- An edge leads from one node to the other, in one direction or the other. -/
def Adjacent (g : PatternGraph) (a b : NodeId) : Prop :=
  ∃ i, g.Incident i ∧ i.this = a ∧ i.that = b

/-- Edges lead from one node to the other, directions ignored. -/
abbrev Joined (g : PatternGraph) : NodeId → NodeId → Prop :=
  Relation.ReflTransGen g.Adjacent

variable {g g₀ : PatternGraph} {a b : NodeId}

theorem Adjacent.symm (h : g.Adjacent a b) : g.Adjacent b a := by
  obtain ⟨i, hi, rfl, rfl⟩ := h
  exact ⟨i.reverse, hi.reverse, rfl, rfl⟩

theorem Joined.symm (h : g.Joined a b) : g.Joined b a := by
  induction h with
  | refl => exact .refl
  | tail _ hbc ih => exact .head hbc.symm ih

theorem adjacent_ends {k : EdgeId} {e : PatternEdge} (h : g.edge? k = some e) :
    g.Adjacent e.alpha e.omega :=
  ⟨e.seen k .out, .seen h .out, rfl, rfl⟩

/-- Adjacent nodes are the ends of an edge. -/
theorem Adjacent.exists_edge (h : g.Adjacent a b) :
    ∃ e ∈ g.edges, (e.alpha = a ∧ e.omega = b) ∨ (e.alpha = b ∧ e.omega = a) := by
  obtain ⟨i, ⟨e, he, hi⟩, ha, hb⟩ := h
  refine ⟨e, List.mem_of_getElem? he, ?_⟩
  cases hd : i.direction with
  | out =>
    rw [hd] at hi
    exact .inl ⟨by rw [← ha, hi]; rfl, by rw [← hb, hi]; rfl⟩
  | into =>
    rw [hd] at hi
    exact .inr ⟨by rw [← hb, hi]; rfl, by rw [← ha, hi]; rfl⟩

theorem adjacent_of_mem {e : PatternEdge} (h : e ∈ g.edges) : g.Adjacent e.alpha e.omega := by
  obtain ⟨k, hk⟩ := List.getElem?_of_mem h
  exact adjacent_ends (k := ⟨k⟩) hk

/-- What is adjacent only depends on which edges there are. -/
theorem Adjacent.mono (hsub : ∀ e ∈ g₀.edges, e ∈ g.edges) (h : g₀.Adjacent a b) :
    g.Adjacent a b := by
  obtain ⟨e, he, ⟨rfl, rfl⟩ | ⟨rfl, rfl⟩⟩ := h.exists_edge
  · exact adjacent_of_mem (hsub e he)
  · exact (adjacent_of_mem (hsub e he)).symm

theorem Joined.mono (hsub : ∀ e ∈ g₀.edges, e ∈ g.edges) (h : g₀.Joined a b) : g.Joined a b :=
  Relation.ReflTransGen.mono (fun _ _ => Adjacent.mono hsub) _ _ h

/-! ## The search -/

theorem mem_freshEnds_iff {l : List Incidence} {seen : List NodeId} {m : NodeId} :
    m ∈ freshEnds l seen ↔ (∃ i ∈ l, i.that = m) ∧ m ∉ seen := by
  simp [freshEnds, List.mem_eraseDups]

/-- The neighbours of the nodes that are done are seen. -/
def ClosedUpTo (g : PatternGraph) (seen stack : List NodeId) : Prop :=
  ∀ a ∈ seen, a ∉ stack → ∀ b, g.Adjacent a b → b ∈ seen

theorem spread_ok (hg : g.Consistent) (seen stack : List NodeId)
    (hnodes : ∀ n ∈ stack, g.IsNode n) :
    ∃ found, g.spread seen stack = .ok found ∧ (∀ m ∈ seen, m ∈ found) ∧
      (∀ m ∈ found, m ∈ seen ∨ ∃ n ∈ stack, g.Joined n m) ∧
      (g.ClosedUpTo seen stack → g.ClosedUpTo found []) := by
  fun_induction spread g seen stack with
  | case1 seen => exact ⟨seen, rfl, fun _ h => h, fun _ h => .inl h, id⟩
  | case2 seen n rest f hf =>
    obtain ⟨l, hl, -⟩ := hg.incidencesOf_ok (hnodes n (by simp))
    rw [hf] at hl
    cases hl
  | case3 seen n rest l hl fresh ih =>
    have hn : g.IsNode n := hnodes n (by simp)
    have hmem : ∀ i, i ∈ l ↔ g.Incident i ∧ i.this = n := fun i => hg.mem_incidencesOf hl hn
    have hfresh : ∀ m, m ∈ fresh ↔ g.Adjacent n m ∧ m ∉ seen := by
      intro m
      rw [mem_freshEnds_iff]
      constructor
      · rintro ⟨⟨i, hi, rfl⟩, hnew⟩
        exact ⟨⟨i, ((hmem i).1 hi).1, ((hmem i).1 hi).2, rfl⟩, hnew⟩
      · rintro ⟨⟨i, hi, hthis, rfl⟩, hnew⟩
        exact ⟨⟨i, (hmem i).2 ⟨hi, hthis⟩, rfl⟩, hnew⟩
    obtain ⟨found, hfound, hkeep, hsound, hclosed⟩ := ih (by
      intro m hm
      rcases List.mem_append.1 hm with hm | hm
      · obtain ⟨⟨i, hi, -, rfl⟩, -⟩ := (hfresh m).1 (List.mem_reverse.1 hm)
        exact hg.isNode_that hi
      · exact hnodes m (List.mem_cons_of_mem _ hm))
    refine ⟨found, hfound, fun m hm => hkeep m (List.mem_append_left _ hm), ?_, ?_⟩
    · intro m hm
      rcases hsound m hm with hm | ⟨c, hc, hcm⟩
      · rcases List.mem_append.1 hm with hm | hm
        · exact .inl hm
        · exact .inr ⟨n, by simp, .single ((hfresh m).1 hm).1⟩
      · rcases List.mem_append.1 hc with hc | hc
        · have hadj := ((hfresh c).1 (List.mem_reverse.1 hc)).1
          exact .inr ⟨n, by simp, .head hadj hcm⟩
        · exact .inr ⟨c, List.mem_cons_of_mem _ hc, hcm⟩
    · intro hup
      apply hclosed
      intro c hc hnot d hcd
      simp only [List.mem_append, List.mem_reverse, not_or] at hnot
      have hcseen : c ∈ seen := by
        rcases List.mem_append.1 hc with hc | hc
        · exact hc
        · exact absurd hc hnot.1
      by_cases hcn : c = n
      · subst hcn
        by_cases hd : d ∈ seen
        · exact List.mem_append_left _ hd
        · exact List.mem_append_right _ ((hfresh d).2 ⟨hcd, hd⟩)
      · exact List.mem_append_left _ (hup c hcseen (by simp [hcn, hnot.2]) d hcd)

/-- The search from a node finds exactly what the node is joined with. -/
theorem reachableFrom_ok (hg : g.Consistent) {n : NodeId} (hn : g.IsNode n) :
    ∃ found, g.reachableFrom n = .ok found ∧ ∀ m, m ∈ found ↔ g.Joined n m := by
  obtain ⟨found, hfound, hkeep, hsound, hclosed⟩ := spread_ok hg [n] [n] (by simpa using hn)
  refine ⟨found, hfound, fun m => ⟨fun hm => ?_, fun hm => ?_⟩⟩
  · rcases hsound m hm with hm | ⟨c, hc, hcm⟩
    · rw [List.mem_singleton.1 hm]
    · rwa [List.mem_singleton.1 hc] at hcm
  · have hup : g.ClosedUpTo [n] [n] := fun c hc hnot => absurd hc hnot
    induction hm with
    | refl => exact hkeep n (by simp)
    | tail _ hcd ih => exact hclosed hup _ ih (by simp) _ hcd

/-! ## Anchoring -/

/-- The link from the anchor to where the compilation of a component starts. -/
def startEdge (n : NodeId) : PatternEdge :=
  { kind := .start, alpha := ⟨0⟩, omega := n }

/-- The first node of a component without the anchor. -/
structure IsStart (g : PatternGraph) (n : NodeId) : Prop where
  isNode : g.IsNode n
  ne_anchor : n ≠ g.anchor
  first : ∀ m, g.IsNode m → m.index < n.index → ¬ g.Joined n m

open Classical in
/-- The first nodes of the components without the anchor, in their order. -/
noncomputable def starts (g : PatternGraph) : List NodeId :=
  g.nodeIds.filter fun n => decide (g.IsStart n)

theorem mem_starts {n : NodeId} : n ∈ g.starts ↔ g.IsStart n := by
  simp only [starts, List.mem_filter, decide_eq_true_eq, and_iff_right_iff_imp]
  exact fun h => mem_nodeIds.2 h.isNode

/-- Two starts of one component are the same. -/
theorem IsStart.eq_of_joined (ha : g.IsStart a) (hb : g.IsStart b) (h : g.Joined a b) : a = b := by
  have hab : ¬ b.index < a.index := fun hlt => ha.first b hb.isNode hlt h
  have hba : ¬ a.index < b.index := fun hlt => hb.first a ha.isNode hlt h.symm
  have : a.index = b.index := by omega
  cases a
  cases b
  simpa using this

/-- A start is not joined with the anchor. -/
theorem IsStart.apart {n : NodeId} (hn : g.IsStart n) : ¬ g.Joined g.anchor n := by
  obtain ⟨i, rfl, hi⟩ := hn.isNode
  have hne : i ≠ 0 := fun h0 => hn.ne_anchor (by rw [h0]; rfl)
  refine fun hjoined => hn.first g.anchor (isNode_anchor (by omega)) ?_ (Joined.symm hjoined)
  show (0 : Int) < i
  omega

theorem nodeIds_pairwise (g : PatternGraph) :
    g.nodeIds.Pairwise fun m n => m.index < n.index := by
  simp only [nodeIds, List.pairwise_map]
  refine List.pairwise_lt_range.imp ?_
  intro m n h
  show (m : Int) < n
  omega

open Classical in
/-- How far a graph is anchored when the nodes `pre` of `g₀` have had their turn. -/
structure AnchoredUpTo (g₀ : PatternGraph) (pre : List NodeId) (g : PatternGraph) : Prop where
  consistent : g.Consistent
  nodes : g.nodes = g₀.nodes
  names : g.names = g₀.names
  edges : g.edges = g₀.edges ++ (pre.filter fun n => decide (g₀.IsStart n)).map startEdge
  anchored : ∀ n ∈ pre, g.Joined g.anchor n

namespace AnchoredUpTo

variable {pre : List NodeId}

theorem start (hg : g₀.Consistent) : AnchoredUpTo g₀ [] g₀ where
  consistent := hg
  nodes := rfl
  names := rfl
  edges := by simp
  anchored := by simp

/-- Start edges only join the anchor with the components of their nodes. -/
theorem joined_anchor (h : AnchoredUpTo g₀ pre g) {m : NodeId} (hm : g.Joined g.anchor m) :
    g₀.Joined g₀.anchor m ∨ ∃ s ∈ pre, g₀.IsStart s ∧ g₀.Joined s m := by
  induction hm with
  | refl => exact .inl .refl
  | @tail b c _ hbc ih =>
    obtain ⟨e, he, hends⟩ := hbc.exists_edge
    rw [h.edges] at he
    rcases List.mem_append.1 he with he | he
    · have hadj : g₀.Adjacent b c := by
        rcases hends with ⟨rfl, rfl⟩ | ⟨rfl, rfl⟩
        · exact adjacent_of_mem he
        · exact (adjacent_of_mem he).symm
      rcases ih with ih | ⟨s, hs, hstart, ih⟩
      · exact .inl (ih.tail hadj)
      · exact .inr ⟨s, hs, hstart, ih.tail hadj⟩
    · obtain ⟨s, hs, rfl⟩ := List.mem_map.1 he
      simp only [List.mem_filter, decide_eq_true_eq] at hs
      rcases hends with ⟨-, rfl⟩ | ⟨rfl, -⟩
      · exact .inr ⟨s, hs.1, hs.2, .refl⟩
      · exact .inl .refl

/-- When its turn comes, a node is a start exactly if it is not connected with the anchor yet. -/
theorem isStart_iff (h : AnchoredUpTo g₀ pre g) {n : NodeId} {rest : List NodeId}
    (hall : pre ++ n :: rest = g₀.nodeIds) : g₀.IsStart n ↔ ¬ g.Joined g.anchor n := by
  have hsub : ∀ e ∈ g₀.edges, e ∈ g.edges := by
    intro e he
    rw [h.edges]
    exact List.mem_append_left _ he
  have horder := g₀.nodeIds_pairwise
  rw [← hall, List.pairwise_append] at horder
  constructor
  · intro hn hjoined
    rcases h.joined_anchor hjoined with hj | ⟨s, hs, -, hj⟩
    · exact hn.apart hj
    · have hnode : g₀.IsNode s := mem_nodeIds.1 (hall ▸ List.mem_append_left _ hs)
      exact hn.first s hnode (horder.2.2 s hs n (by simp)) (Joined.symm hj)
  · intro hn
    have hnode : g₀.IsNode n := mem_nodeIds.1 (hall ▸ by simp)
    refine ⟨hnode, fun heq => hn (heq ▸ .refl), ?_⟩
    -- an earlier node of the component had its turn, so it is connected with the anchor
    intro m hm hlt hjoined
    have hmem : m ∈ pre ++ n :: rest := hall ▸ mem_nodeIds.2 hm
    rcases List.mem_append.1 hmem with hmem | hmem
    · exact hn ((h.anchored m hmem).trans ((Joined.symm hjoined).mono hsub))
    · rcases List.mem_cons.1 hmem with rfl | hmem
      · omega
      · have := (List.pairwise_cons.1 horder.2.1).1 m hmem
        omega

/-- A node that is no start changes nothing. -/
theorem pass (h : AnchoredUpTo g₀ pre g) {n : NodeId} (hn : ¬ g₀.IsStart n)
    (hjoined : g.Joined g.anchor n) : AnchoredUpTo g₀ (pre ++ [n]) g where
  consistent := h.consistent
  nodes := h.nodes
  names := h.names
  edges := by rw [h.edges]; simp [List.filter_append, hn]
  anchored := by
    intro m hm
    rcases List.mem_append.1 hm with hm | hm
    · exact h.anchored m hm
    · rw [List.mem_singleton.1 hm]
      exact hjoined

/-- A start is linked to the anchor. -/
theorem link (h : AnchoredUpTo g₀ pre g) {n : NodeId} (hn : g₀.IsStart n) :
    ∃ k g', g.addEdge (startEdge n) = (.ok k, g') ∧ AnchoredUpTo g₀ (pre ++ [n]) g' := by
  have hlen : g.nodes.length = g₀.nodes.length := by rw [h.nodes]
  have hnode : g.IsNode n := by
    obtain ⟨i, hi, hlt⟩ := hn.isNode
    exact ⟨i, hi, by omega⟩
  obtain ⟨g', hadd, hg', hnodes, hedges, hnames⟩ :=
    h.consistent.addEdge (startEdge n) (isNode_anchor h.consistent.inhabited) hnode
  have hsub : ∀ e ∈ g.edges, e ∈ g'.edges := by
    intro e he
    rw [hedges]
    exact List.mem_append_left _ he
  refine ⟨_, g', hadd, ?_⟩
  refine { consistent := hg', nodes := hnodes.trans h.nodes, names := ?_, edges := ?_,
           anchored := ?_ }
  · rw [hnames, ← h.names]
    rfl
  · rw [hedges, h.edges]
    simp [List.filter_append, hn]
  · intro m hm
    rcases List.mem_append.1 hm with hm | hm
    · exact (h.anchored m hm).mono hsub
    · obtain rfl := List.mem_singleton.1 hm
      have hmem : startEdge m ∈ g'.edges := by rw [hedges]; simp
      exact .single (adjacent_of_mem hmem)

/-- The turn of a node: a start is linked to the anchor, any other node changes nothing. -/
theorem turn (h : AnchoredUpTo g₀ pre g) {n : NodeId} {rest : List NodeId}
    (hall : pre ++ n :: rest = g₀.nodeIds) :
    (¬ g₀.IsStart n ∧ linkStarts (n :: rest) g = linkStarts rest g ∧
      AnchoredUpTo g₀ (pre ++ [n]) g) ∨
    (g₀.IsStart n ∧ ∃ k g', g.addEdge (startEdge n) = (.ok k, g') ∧
      linkStarts (n :: rest) g = linkStarts rest g' ∧ AnchoredUpTo g₀ (pre ++ [n]) g') := by
  obtain ⟨found, hfound, hmem⟩ :=
    reachableFrom_ok h.consistent (isNode_anchor h.consistent.inhabited)
  have hstart := h.isStart_iff hall
  by_cases hn : g.Joined g.anchor n
  · have hnot : ¬ g₀.IsStart n := fun hs => hstart.1 hs hn
    refine .inl ⟨hnot, ?_, h.pass hnot hn⟩
    simp only [linkStarts, hfound, if_pos ((hmem n).2 hn)]
  · obtain ⟨k, g', hadd, hg'⟩ := h.link (hstart.2 hn)
    refine .inr ⟨hstart.2 hn, k, g', hadd, ?_, hg'⟩
    have hadd' : g.addEdge { kind := .start, alpha := g.anchor, omega := n } = (.ok k, g') := hadd
    simp only [linkStarts, hfound, if_neg fun hf => hn ((hmem n).1 hf), hadd']

theorem linkStarts_ok (rest : List NodeId) (h : AnchoredUpTo g₀ pre g)
    (hall : pre ++ rest = g₀.nodeIds) :
    ∃ g', linkStarts rest g = (.ok (), g') ∧ AnchoredUpTo g₀ (pre ++ rest) g' := by
  induction rest generalizing pre g with
  | nil =>
    obtain ⟨found, hfound, -⟩ :=
      reachableFrom_ok h.consistent (isNode_anchor h.consistent.inhabited)
    exact ⟨g, by simp only [linkStarts, hfound], by simpa using h⟩
  | cons n rest ih =>
    have hall' : (pre ++ [n]) ++ rest = g₀.nodeIds := by simpa using hall
    rcases h.turn hall with ⟨-, hrun, h'⟩ | ⟨-, k, g₁, -, hrun, h'⟩
    · obtain ⟨g', hrest, hg'⟩ := ih h' hall'
      exact ⟨g', hrun.trans hrest, by rwa [List.append_cons]⟩
    · obtain ⟨g', hrest, hg'⟩ := ih h' hall'
      exact ⟨g', hrun.trans hrest, by rwa [List.append_cons]⟩

end AnchoredUpTo

/-- What anchoring makes of a graph. -/
structure Anchors (g₀ g : PatternGraph) : Prop where
  consistent : g.Consistent
  nodes : g.nodes = g₀.nodes
  names : g.names = g₀.names
  edges : g.edges = g₀.edges ++ g₀.starts.map startEdge
  anchored : ∀ n, g.IsNode n → g.Joined g.anchor n

/-- Anchoring a consistent graph succeeds. -/
theorem anchored_ok (hg : g₀.Consistent) : ∃ g, g₀.anchored = (.ok (), g) ∧ Anchors g₀ g := by
  obtain ⟨g, hrun, h⟩ := (AnchoredUpTo.start hg).linkStarts_ok g₀.nodeIds rfl
  refine ⟨g, hrun, ⟨h.consistent, h.nodes, h.names, ?_, ?_⟩⟩
  · rw [h.edges]
    rfl
  · intro n hn
    refine h.anchored n (mem_nodeIds.2 ?_)
    obtain ⟨i, hi, hlt⟩ := hn
    exact ⟨i, hi, by rw [← h.nodes]; exact hlt⟩

end PatternGraph

end GraphPattern
