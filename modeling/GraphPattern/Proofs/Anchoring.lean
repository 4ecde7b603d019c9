import Mathlib
import GraphPattern.Proofs.Connected
import GraphPattern.Proofs.Distinct

/-!
# GraphPattern — anchoring round by round

Anchoring can be read as a loop: as long as some node is not connected with the anchor, the first such
node is linked to it. The sweep over the nodes that anchoring makes comes to the same links. Each
component without the anchor gets one, at its first node, and behind that nothing is left to link.

* `PatternGraph.nodup_reachableFrom` — the search from a node finds no node twice.
* `PatternGraph.Rounds` — the loop, and `PatternGraph.Rounds.unique`: it can only go one way.
* `PatternGraph.anchored_links` — what anchoring makes of a consistent graph.
-/

namespace GraphPattern.PatternGraph

variable {g g₀ g' : PatternGraph}

/-! ## The search finds each node once -/

theorem nodup_spread {seen stack found : List NodeId} (hseen : seen.Nodup)
    (h : g.spread seen stack = .ok found) : found.Nodup := by
  fun_induction spread g seen stack with
  | case1 seen =>
    cases h
    exact hseen
  | case2 seen n rest f hf => cases h
  | case3 seen n rest l hl fresh ih =>
    refine ih ?_ h
    rw [List.nodup_append]
    refine ⟨hseen, nodup_eraseDups _, fun m hm m' hm' heq => ?_⟩
    exact (mem_freshEnds_iff.1 hm').2 (heq ▸ hm)

/-- The search from a node finds no node twice. -/
theorem nodup_reachableFrom {n : NodeId} {found : List NodeId}
    (h : g.reachableFrom n = .ok found) : found.Nodup :=
  nodup_spread (List.nodup_singleton n) h

/-- The search from a node finds its component. -/
theorem reachableFrom_component (hg : g.Consistent) {n : NodeId} (hn : g.IsNode n) :
    ∃ found, g.reachableFrom n = .ok found ∧ found.Nodup ∧ ∀ m, m ∈ found ↔ g.Joined n m := by
  obtain ⟨found, hfound, hmem⟩ := reachableFrom_ok hg hn
  exact ⟨found, hfound, nodup_reachableFrom hfound, hmem⟩

theorem nodup_nodeIds (g : PatternGraph) : g.nodeIds.Nodup :=
  g.nodeIds_pairwise.imp fun hlt heq => by
    rw [heq] at hlt
    omega

/-- What is joined with a node is a node. -/
theorem Joined.isNode (hg : g.Consistent) {a b : NodeId} (h : g.Joined a b) (ha : g.IsNode a) :
    g.IsNode b := by
  induction h with
  | refl => exact ha
  | tail _ hbc _ =>
    obtain ⟨i, hi, -, rfl⟩ := hbc
    exact hg.isNode_that hi

/-! ## The loop -/

/-- The first node that is not connected with the anchor. -/
def firstApart? (g : PatternGraph) : Except Fault (Option NodeId) :=
  (g.reachableFrom g.anchor).map fun reached => g.nodeIds.find? fun n => decide (n ∉ reached)

/-- Round after round, the first node that is not connected with the anchor is linked to it, until
there is none. -/
inductive Rounds : PatternGraph → List NodeId → PatternGraph → Prop
  | done {g : PatternGraph} : g.firstApart? = .ok none → Rounds g [] g
  | link {g g₁ g' : PatternGraph} {n : NodeId} {links : List NodeId} {k : EdgeId} :
      g.firstApart? = .ok (some n) → g.addEdge (startEdge n) = (.ok k, g₁) → Rounds g₁ links g' →
        Rounds g (n :: links) g'

/-- The loop can only go one way. -/
theorem Rounds.unique {links links' : List NodeId} {g₁ g₂ : PatternGraph} (h : Rounds g links g₁)
    (h' : Rounds g links' g₂) : links = links' ∧ g₁ = g₂ := by
  induction h generalizing links' g₂ with
  | done hnone =>
    cases h' with
    | done => exact ⟨rfl, rfl⟩
    | link hsome => rw [hnone] at hsome; cases hsome
  | link hsome hadd _ ih =>
    cases h' with
    | done hnone => rw [hsome] at hnone; cases hnone
    | link hsome' hadd' hrest =>
      rw [hsome] at hsome'
      cases hsome'
      rw [hadd] at hadd'
      cases hadd'
      obtain ⟨rfl, rfl⟩ := ih hrest
      exact ⟨rfl, rfl⟩

/-- The first node apart, where it is known which nodes are joined with the anchor. -/
theorem firstApart?_of_split (hg : g.Consistent) (pre rest : List NodeId)
    (hall : pre ++ rest = g.nodeIds) (hpre : ∀ n ∈ pre, g.Joined g.anchor n)
    (hrest : ∀ n ∈ rest.head?, ¬ g.Joined g.anchor n) : g.firstApart? = .ok rest.head? := by
  obtain ⟨found, hfound, hmem⟩ := reachableFrom_ok hg (isNode_anchor hg.inhabited)
  have hskip : pre.find? (fun n => decide (n ∉ found)) = none :=
    List.find?_eq_none.2 fun n hn => by simpa using (hmem n).2 (hpre n hn)
  simp only [firstApart?, hfound, Except.map, ← hall, List.find?_append, hskip, Option.none_or]
  cases rest with
  | nil => rfl
  | cons n rest =>
    have hn : n ∉ found := fun hf => hrest n rfl ((hmem n).1 hf)
    rw [List.find?_cons_of_pos (by simpa using hn)]
    rfl

namespace AnchoredUpTo

variable {pre : List NodeId}

open Classical in
/-- The sweep over the nodes whose turn is still to come links the same nodes as the loop. -/
theorem rounds (rest : List NodeId) (h : AnchoredUpTo g₀ pre g) (hall : pre ++ rest = g₀.nodeIds) :
    ∃ g', linkStarts rest g = (.ok (), g') ∧ AnchoredUpTo g₀ (pre ++ rest) g' ∧
      Rounds g (rest.filter fun n => decide (g₀.IsStart n)) g' := by
  have hids : g.nodeIds = g₀.nodeIds := by simp only [nodeIds, h.nodes]
  induction rest generalizing pre g with
  | nil =>
    obtain ⟨found, hfound, -⟩ :=
      reachableFrom_ok h.consistent (isNode_anchor h.consistent.inhabited)
    refine ⟨g, by simp only [linkStarts, hfound], by simpa using h, .done ?_⟩
    exact firstApart?_of_split h.consistent pre [] (hall.trans hids.symm) h.anchored (by simp)
  | cons n rest ih =>
    have hall' : (pre ++ [n]) ++ rest = g₀.nodeIds := by simpa using hall
    rcases h.turn hall with ⟨hn, hrun, h'⟩ | ⟨hn, k, g₁, hadd, hrun, h'⟩
    · obtain ⟨g', hrest, hg', hrounds⟩ := ih h' hall' hids
      refine ⟨g', hrun.trans hrest, by rwa [List.append_cons], ?_⟩
      rwa [List.filter_cons_of_neg (by simpa using hn)]
    · obtain ⟨g', hrest, hg', hrounds⟩ := ih h' hall' (by simp only [nodeIds, h'.nodes])
      refine ⟨g', hrun.trans hrest, by rwa [List.append_cons], ?_⟩
      have hfirst : g.firstApart? = .ok (some n) :=
        firstApart?_of_split h.consistent pre (n :: rest) (hall.trans hids.symm) h.anchored
          (by rintro m ⟨⟩; exact (h.isStart_iff hall).1 hn)
      rw [List.filter_cons_of_pos (by simpa using hn)]
      exact .link hfirst hadd hrounds

end AnchoredUpTo

/-! ## The links -/

/-- More edges only add incidences, behind those there were. -/
theorem incidencesAmong_prefix (edges more : List PatternEdge) (n : NodeId) :
    incidencesAmong edges n <+: incidencesAmong (edges ++ more) n := by
  induction more using List.reverseRecOn with
  | nil => rw [List.append_nil]
  | append_singleton more e ih =>
    rw [← List.append_assoc, incidencesAmong_append]
    exact ih.trans (List.prefix_append _ _)

/-- The graph `g` is the graph `g₀` with the anchor linked to the first node of each component that it
was not connected with. -/
structure Links (g₀ : PatternGraph) (links : List NodeId) (g : PatternGraph) : Prop where
  nodes : g.nodes = g₀.nodes
  names : g.names = g₀.names
  /-- The edges there were stay as they are, and the links follow them. -/
  edges : g.edges = g₀.edges ++ links.map startEdge
  incidences : ∀ i, g₀.incidencesAt i <+: g.incidencesAt i
  increasing : links.Pairwise fun m n => m.index < n.index
  apart : ∀ n ∈ links, g₀.IsNode n ∧ ¬ g₀.Joined g₀.anchor n
  least : ∀ n ∈ links, ∀ m, g₀.IsNode m → g₀.Joined n m → n.index ≤ m.index
  /-- Each component without the anchor is linked once. -/
  once : ∀ m, g₀.IsNode m → ¬ g₀.Joined g₀.anchor m → ∃! n, n ∈ links ∧ g₀.Joined n m

theorem AnchoredUpTo.links (hg : g₀.Consistent) (h : AnchoredUpTo g₀ g₀.nodeIds g) :
    Links g₀ g₀.starts g where
  nodes := h.nodes
  names := h.names
  edges := h.edges
  incidences := by
    intro i
    by_cases hi : i < g₀.nodes.length
    · rw [hg.listed i hi, h.consistent.listed i (by rw [h.nodes]; exact hi), h.edges]
      exact incidencesAmong_prefix _ _ _
    · have hnone : g₀.incidences[i]? = none := by
        rw [List.getElem?_eq_none_iff, hg.sized]
        omega
      simp only [incidencesAt, hnone, Option.getD_none]
      exact List.nil_prefix
  increasing := g₀.nodeIds_pairwise.filter _
  apart := fun n hn => ⟨(mem_starts.1 hn).isNode, (mem_starts.1 hn).apart⟩
  least := by
    intro n hn m hm hjoined
    exact Int.not_lt.1 fun hlt => (mem_starts.1 hn).first m hm hlt hjoined
  once := by
    intro m hm hapart
    have hnode : m ∈ g₀.nodeIds := mem_nodeIds.2 hm
    rcases h.joined_anchor (h.anchored m hnode) with hj | ⟨s, -, hs, hj⟩
    · exact absurd hj hapart
    · refine ⟨s, ⟨mem_starts.2 hs, hj⟩, ?_⟩
      rintro s' ⟨hs', hj'⟩
      exact (mem_starts.1 hs').eq_of_joined hs (hj'.trans (Joined.symm hj))

/-! ## Anchored graphs -/

/-- Where everything is connected with the anchor, nothing is linked. -/
theorem linkStarts_of_joined (hg : g.Consistent) (hjoined : ∀ n, g.IsNode n → g.Joined g.anchor n)
    (rest : List NodeId) (hrest : ∀ n ∈ rest, g.IsNode n) : linkStarts rest g = (.ok (), g) := by
  obtain ⟨found, hfound, hmem⟩ := reachableFrom_ok hg (isNode_anchor hg.inhabited)
  induction rest with
  | nil => simp only [linkStarts, hfound]
  | cons n rest ih =>
    have hn : n ∈ found := (hmem n).2 (hjoined n (hrest n (by simp)))
    simp only [linkStarts, hfound, if_pos hn]
    exact ih fun m hm => hrest m (List.mem_cons_of_mem _ hm)

/-- Where everything is connected with the anchor, the search from it finds each node once. -/
theorem reachableFrom_perm (hg : g.Consistent) (hjoined : ∀ n, g.IsNode n → g.Joined g.anchor n) :
    ∃ found, g.reachableFrom g.anchor = .ok found ∧ found.Perm g.nodeIds := by
  have hanchor := isNode_anchor hg.inhabited
  obtain ⟨found, hfound, hnodup, hmem⟩ := reachableFrom_component hg hanchor
  refine ⟨found, hfound, (List.perm_ext_iff_of_nodup hnodup g.nodup_nodeIds).2 fun n => ?_⟩
  rw [hmem, mem_nodeIds]
  exact ⟨fun h => h.isNode hg hanchor, hjoined n⟩

/-- Anchoring a consistent graph comes to an end. It appends a link from the anchor to the first node
of each component that the anchor is not in, in their order, as the loop does. The search from the
anchor then finds every node once, and anchoring once more adds nothing. The search itself finds, from
any node, the component of the node and nothing twice. -/
theorem anchored_links (hg : g₀.Consistent) :
    ∃ g links, g₀.anchored = (.ok (), g) ∧ Rounds g₀ links g ∧ g.Consistent ∧ Links g₀ links g ∧
      (∃ found, g.reachableFrom g.anchor = .ok found ∧ found.Perm g.nodeIds) ∧
      g.anchored = (.ok (), g) ∧ Rounds g [] g ∧
      ∀ n, g₀.IsNode n →
        ∃ found, g₀.reachableFrom n = .ok found ∧ found.Nodup ∧ ∀ m, m ∈ found ↔ g₀.Joined n m := by
  obtain ⟨g, hrun, h, hrounds⟩ := (AnchoredUpTo.start hg).rounds g₀.nodeIds rfl
  have hids : g₀.nodeIds = g.nodeIds := by simp only [nodeIds, h.nodes]
  have hjoined : ∀ n, g.IsNode n → g.Joined g.anchor n := fun n hn =>
    h.anchored n (hids ▸ mem_nodeIds.2 hn)
  have hnone : g.firstApart? = .ok none :=
    firstApart?_of_split h.consistent g.nodeIds [] (by simp)
      (fun n hn => hjoined n (mem_nodeIds.1 hn)) (by simp)
  have hagain : g.anchored = (.ok (), g) :=
    linkStarts_of_joined h.consistent hjoined g.nodeIds fun n hn => mem_nodeIds.1 hn
  exact ⟨g, g₀.starts, hrun, hrounds, h.consistent, h.links hg, reachableFrom_perm h.consistent hjoined,
    hagain, .done hnone, fun n hn => reachableFrom_component hg hn⟩

/-- A graph with a component of two nodes in a circle, one of them with a loop, with a node on its own,
and with a node that the anchor is linked to already. -/
def scattered : PatternGraph where
  nodes := [{ kind := .anchor }, { kind := .pattern }, { kind := .pattern }, { kind := .pattern },
    { kind := .pattern }]
  edges := [{ kind := .pattern, alpha := ⟨3⟩, omega := ⟨1⟩ },
    { kind := .pattern, alpha := ⟨1⟩, omega := ⟨3⟩ },
    { kind := .pattern, alpha := ⟨3⟩, omega := ⟨3⟩ }, startEdge ⟨2⟩]
  incidences := [[⟨⟨3⟩, ⟨0⟩, ⟨2⟩, .out⟩], [⟨⟨0⟩, ⟨1⟩, ⟨3⟩, .into⟩, ⟨⟨1⟩, ⟨1⟩, ⟨3⟩, .out⟩],
    [⟨⟨3⟩, ⟨2⟩, ⟨0⟩, .into⟩], [⟨⟨0⟩, ⟨3⟩, ⟨1⟩, .out⟩, ⟨⟨1⟩, ⟨3⟩, ⟨1⟩, .into⟩,
      ⟨⟨2⟩, ⟨3⟩, ⟨3⟩, .out⟩, ⟨⟨2⟩, ⟨3⟩, ⟨3⟩, .into⟩], []]
  names := []

theorem consistent_scattered : scattered.Consistent where
  inhabited := by decide
  sized := rfl
  ends := by
    intro e he
    have hplaces : ∀ e ∈ scattered.edges, (0 ≤ e.alpha.index ∧ e.alpha.index < 5) ∧
        0 ≤ e.omega.index ∧ e.omega.index < 5 := by decide
    have hnode : ∀ n : NodeId, 0 ≤ n.index ∧ n.index < 5 → scattered.IsNode n := by
      rintro ⟨i⟩ ⟨hlow, hhigh⟩
      have hlow : 0 ≤ i := hlow
      have hhigh : i < 5 := hhigh
      refine ⟨i.toNat, by rw [Int.toNat_of_nonneg hlow], ?_⟩
      show i.toNat < 5
      omega
    exact ⟨hnode _ (hplaces e he).1, hnode _ (hplaces e he).2⟩
  listed := by decide

theorem anchored_links_scattered :
    scattered.Consistent ∧ scattered.anchored.2.edges = scattered.edges ++ [startEdge ⟨1⟩, startEdge ⟨4⟩] ∧
      ∃ g links, scattered.anchored = (.ok (), g) ∧ Rounds scattered links g ∧ g.Consistent ∧
        Links scattered links g ∧
        (∃ found, g.reachableFrom g.anchor = .ok found ∧ found.Perm g.nodeIds) ∧
        g.anchored = (.ok (), g) ∧ Rounds g [] g ∧
        ∀ n, scattered.IsNode n → ∃ found, scattered.reachableFrom n = .ok found ∧ found.Nodup ∧
          ∀ m, m ∈ found ↔ scattered.Joined n m :=
  ⟨consistent_scattered, by cbv, anchored_links consistent_scattered⟩

end GraphPattern.PatternGraph
