import GraphPattern.PatternGraph
import Mathlib.Data.List.Induction

/-!
# GraphPattern — consistent pattern graphs

A pattern graph keeps its edges twice: in the order in which they were made, and at their ends.
It is *consistent* if both agree. Everything later that walks along incidences only speaks of
`PatternGraph.Incident`; where an incidence is listed is settled here.

* `PatternGraph.Consistent.addNode`, `PatternGraph.Consistent.addEdge` — growing a graph between
  existing nodes succeeds and keeps it consistent.
* `PatternGraph.Consistent.mem_incidencesAt` — a node lists exactly the incidences seen from it.
* `PatternGraph.Consistent.incidencesOf_pairwise` — it lists them in order, each once.
-/

namespace GraphPattern

/-- An edge as it is seen when it is followed in a direction. -/
def PatternEdge.seen (e : PatternEdge) (id : EdgeId) : Direction → Incidence
  | .out => ⟨id, e.alpha, e.omega, .out⟩
  | .into => ⟨id, e.omega, e.alpha, .into⟩

/-- The same edge seen from its other end. -/
def Incidence.reverse (i : Incidence) : Incidence :=
  ⟨i.edge, i.that, i.this, i.direction.reverse⟩

theorem Direction.eq_reverse_of_ne {c d : Direction} (h : c ≠ d) : c = d.reverse := by
  cases c <;> cases d <;> first | rfl | exact absurd rfl h

namespace PatternEdge

@[simp] theorem seen_reverse (e : PatternEdge) (id : EdgeId) (d : Direction) :
    e.seen id d.reverse = (e.seen id d).reverse := by
  cases d <;> rfl

@[simp] theorem seen_edge (e : PatternEdge) (id : EdgeId) (d : Direction) :
    (e.seen id d).edge = id := by
  cases d <;> rfl

@[simp] theorem seen_direction (e : PatternEdge) (id : EdgeId) (d : Direction) :
    (e.seen id d).direction = d := by
  cases d <;> rfl

/-- The ways in which an edge is seen from a node: none, one, or both for a loop. -/
def seenFrom (e : PatternEdge) (id : EdgeId) (n : NodeId) : List Incidence :=
  [e.seen id .out, e.seen id .into].filter fun i => decide (i.this = n)

theorem mem_seenFrom {e : PatternEdge} {id : EdgeId} {n : NodeId} {i : Incidence} :
    i ∈ e.seenFrom id n ↔ i = e.seen id i.direction ∧ i.this = n := by
  simp only [seenFrom, List.mem_filter, List.mem_cons, List.not_mem_nil, or_false,
    decide_eq_true_eq]
  constructor
  · rintro ⟨rfl | rfl, h⟩ <;> exact ⟨rfl, h⟩
  · rintro ⟨h, hn⟩
    refine ⟨?_, hn⟩
    cases hd : i.direction with
    | out => exact .inl (by rw [h, hd])
    | into => exact .inr (by rw [h, hd])

/-- A kind tells whether an edge stands for an edge of the model. -/
abbrev structural (e : PatternEdge) : Bool :=
  e.kind.structural

end PatternEdge

namespace PatternGraph

/-! ## Nodes by their places -/

/-- A node of the graph, under its own index. -/
def IsNode (g : PatternGraph) (n : NodeId) : Prop :=
  ∃ i : Nat, n = ⟨i⟩ ∧ i < g.nodes.length

theorem node?_natCast (g : PatternGraph) (i : Nat) : g.node? ⟨i⟩ = g.nodes[i]? := by
  show (if i < g.nodes.length then some i else none).bind (g.nodes[·]?) = g.nodes[i]?
  by_cases h : i < g.nodes.length
  · simp [h]
  · simp [h]

theorem IsNode.exists_node {g : PatternGraph} {n : NodeId} (h : g.IsNode n) :
    ∃ nd, g.node? n = some nd := by
  obtain ⟨i, rfl, hi⟩ := h
  exact ⟨g.nodes[i], by rw [node?_natCast, List.getElem?_eq_getElem hi]⟩

theorem incidencesOf_natCast {g : PatternGraph} {i : Nat} (h : i < g.nodes.length) :
    g.incidencesOf ⟨i⟩ = .ok (g.incidencesAt i) := by
  show (if i < g.nodes.length then Except.ok (g.incidencesAt i) else _) = _
  rw [if_pos h]

theorem isNode_anchor {g : PatternGraph} (h : 0 < g.nodes.length) : g.IsNode g.anchor :=
  ⟨0, rfl, h⟩

theorem mem_nodeIds {g : PatternGraph} {n : NodeId} : n ∈ g.nodeIds ↔ g.IsNode n := by
  simp only [nodeIds, List.mem_map, List.mem_range, IsNode]
  constructor
  · rintro ⟨i, hi, rfl⟩
    exact ⟨i, rfl, hi⟩
  · rintro ⟨i, rfl, hi⟩
    exact ⟨i, hi, rfl⟩

/-- An incidence of an edge of the graph. -/
def Incident (g : PatternGraph) (i : Incidence) : Prop :=
  ∃ e, g.edge? i.edge = some e ∧ i = e.seen i.edge i.direction

/-! ## Consistency -/

/-- The incidences at a node of some edges that are numbered from 0. -/
def incidencesAmong (edges : List PatternEdge) (n : NodeId) : List Incidence :=
  edges.zipIdx.flatMap fun (e, k) => e.seenFrom ⟨k⟩ n

/-- Every edge has its ends in the graph, and every node lists the incidences seen from it. -/
structure Consistent (g : PatternGraph) : Prop where
  inhabited : 0 < g.nodes.length
  sized : g.incidences.length = g.nodes.length
  ends : ∀ e ∈ g.edges, g.IsNode e.alpha ∧ g.IsNode e.omega
  listed : ∀ i < g.nodes.length, g.incidencesAt i = incidencesAmong g.edges ⟨i⟩

theorem incidencesAmong_append (edges : List PatternEdge) (e : PatternEdge) (n : NodeId) :
    incidencesAmong (edges ++ [e]) n =
      incidencesAmong edges n ++ e.seenFrom ⟨edges.length⟩ n := by
  simp [incidencesAmong, List.zipIdx_append]

theorem mem_incidencesAmong {edges : List PatternEdge} {n : NodeId} {i : Incidence} :
    i ∈ incidencesAmong edges n ↔
      (∃ e, edges[i.edge.index]? = some e ∧ i = e.seen i.edge i.direction) ∧ i.this = n := by
  simp only [incidencesAmong, List.mem_flatMap, PatternEdge.mem_seenFrom]
  constructor
  · rintro ⟨⟨e, k⟩, he, hi, hn⟩
    have hk : i.edge = ⟨k⟩ := by rw [hi, PatternEdge.seen_edge]
    rw [hk] at *
    exact ⟨⟨e, List.mem_zipIdx_iff_getElem?.1 he, hi⟩, hn⟩
  · rintro ⟨⟨e, he, hi⟩, hn⟩
    exact ⟨(e, i.edge.index), List.mem_zipIdx_iff_getElem?.2 he, hi, hn⟩

namespace Incident

variable {g : PatternGraph} {i : Incidence}

theorem reverse (h : g.Incident i) : g.Incident i.reverse := by
  obtain ⟨e, he, hi⟩ := h
  exact ⟨e, he, by rw [hi]; simp [Incidence.reverse]⟩

theorem seen {k : EdgeId} {e : PatternEdge} (h : g.edge? k = some e) (d : Direction) :
    g.Incident (e.seen k d) :=
  ⟨e, by simpa using h, by simp⟩

/-- An incidence is its edge, as it is seen in the direction. -/
theorem eq_seen (hi : g.Incident i) {e : PatternEdge} (he : g.edge? i.edge = some e) :
    i = e.seen i.edge i.direction := by
  obtain ⟨e', he', hseen⟩ := hi
  rw [he] at he'
  cases he'
  exact hseen

/-- Two incidences of an edge are the same or see it from opposite ends. -/
theorem eq_or_eq_reverse {j : Incidence} (hi : g.Incident i) (hj : g.Incident j)
    (h : j.edge = i.edge) : j = i ∨ j = i.reverse := by
  obtain ⟨e, he, hie⟩ := hi
  have hje := hj.eq_seen (by rw [h, he])
  rw [h] at hje
  by_cases hd : j.direction = i.direction
  · exact .inl (by rw [hje, hd, ← hie])
  · have hd : j.direction = i.direction.reverse := Direction.eq_reverse_of_ne hd
    exact .inr (by rw [hje, hd, PatternEdge.seen_reverse, ← hie])

theorem ne_reverse (i : Incidence) : i.reverse ≠ i := by
  intro h
  have hd : i.direction.reverse = i.direction := congrArg Incidence.direction h
  cases hi : i.direction <;> rw [hi] at hd <;> cases hd

end Incident

namespace Consistent

variable {g : PatternGraph}

theorem ends_of_edge? (hg : g.Consistent) {k : EdgeId} {e : PatternEdge}
    (h : g.edge? k = some e) : g.IsNode e.alpha ∧ g.IsNode e.omega :=
  hg.ends e (List.mem_of_getElem? h)

theorem isNode_this (hg : g.Consistent) {i : Incidence} (h : g.Incident i) : g.IsNode i.this := by
  obtain ⟨e, he, hi⟩ := h
  obtain ⟨ha, ho⟩ := hg.ends_of_edge? he
  cases hd : i.direction <;> rw [hi, hd]
  · exact ha
  · exact ho

theorem isNode_that (hg : g.Consistent) {i : Incidence} (h : g.Incident i) : g.IsNode i.that :=
  hg.isNode_this h.reverse

theorem mem_incidencesAt (hg : g.Consistent) {n : Nat} (hn : n < g.nodes.length) {i : Incidence} :
    i ∈ g.incidencesAt n ↔ g.Incident i ∧ i.this = ⟨n⟩ := by
  rw [hg.listed n hn, mem_incidencesAmong]
  rfl

/-- Every node can be asked for its incidences. -/
theorem incidencesOf_ok (hg : g.Consistent) {n : NodeId} (hn : g.IsNode n) :
    ∃ l, g.incidencesOf n = .ok l ∧ ∀ i, i ∈ l ↔ g.Incident i ∧ i.this = n := by
  obtain ⟨k, rfl, hk⟩ := hn
  exact ⟨_, incidencesOf_natCast hk, fun i => hg.mem_incidencesAt hk⟩

theorem mem_incidencesOf (hg : g.Consistent) {n : NodeId} {l : List Incidence}
    (h : g.incidencesOf n = .ok l) (hn : g.IsNode n) {i : Incidence} :
    i ∈ l ↔ g.Incident i ∧ i.this = n := by
  obtain ⟨l', hl', hmem⟩ := hg.incidencesOf_ok hn
  rw [h] at hl'
  cases hl'
  exact hmem i

/-! ## Growing -/

theorem empty : PatternGraph.empty.Consistent where
  inhabited := by decide
  sized := rfl
  ends := by intro e he; cases he
  listed := by
    intro i hi
    obtain rfl : i = 0 := by simpa [PatternGraph.empty] using hi
    rfl

/-- A new node has no incidences, and no other node gets any. -/
theorem addNode (hg : g.Consistent) (n : PatternNode) : (g.addNode n).2.Consistent where
  inhabited := by simp [PatternGraph.addNode]
  sized := by simp [PatternGraph.addNode, hg.sized]
  ends := by
    intro e he
    obtain ⟨⟨a, ha, hal⟩, ⟨o, ho, hol⟩⟩ := hg.ends e he
    refine ⟨⟨a, ha, ?_⟩, ⟨o, ho, ?_⟩⟩ <;> simp [PatternGraph.addNode] <;> omega
  listed := by
    intro i hi
    simp only [PatternGraph.addNode, List.length_append, List.length_singleton] at hi
    simp only [PatternGraph.addNode, incidencesAt]
    by_cases hlt : i < g.nodes.length
    · rw [List.getElem?_append_left (by rw [hg.sized]; exact hlt)]
      exact hg.listed i hlt
    · -- the new node: an incidence at it would have an end outside the graph before
      obtain rfl : i = g.nodes.length := by omega
      have hnone : incidencesAmong g.edges ⟨g.nodes.length⟩ = [] := by
        rw [List.eq_nil_iff_forall_not_mem]
        intro i hi
        obtain ⟨hinc, hthis⟩ := mem_incidencesAmong.1 hi
        obtain ⟨j, hj, hjlt⟩ := hg.isNode_this hinc
        rw [hthis] at hj
        have : (g.nodes.length : Int) = j := by simpa using hj
        omega
      rw [hnone, ← hg.sized]
      simp

theorem incidencesAt_addIncidence (g : PatternGraph) (i : Incidence) {n k : Nat}
    (hn : i.this = ⟨n⟩) (hk : k < g.incidences.length) :
    (g.addIncidence i).incidencesAt k =
      g.incidencesAt k ++ if i.this = ⟨k⟩ then [i] else [] := by
  have hiff : (i.this = ⟨k⟩) ↔ n = k := by
    rw [hn, NodeId.mk.injEq]
    omega
  have htoNat : i.this.index.toNat = n := by rw [hn]; rfl
  simp only [addIncidence, incidencesAt, htoNat, hiff, List.getElem?_modify,
    List.getElem?_eq_getElem hk]
  by_cases h : n = k <;> simp [h]

theorem seenFrom_eq (e : PatternEdge) (id : EdgeId) (n : NodeId) :
    e.seenFrom id n = (if e.alpha = n then [e.seen id .out] else []) ++
      if e.omega = n then [e.seen id .into] else [] := by
  by_cases ha : e.alpha = n <;> by_cases ho : e.omega = n <;>
    simp [PatternEdge.seenFrom, PatternEdge.seen, ha, ho]

/-- What the names stand for once an edge is added. -/
def namesWith (g : PatternGraph) (e : PatternEdge) : List (String × Handle) :=
  match e.name? with
  | some name => (name, .edge ⟨g.edges.length⟩) :: g.names
  | none => g.names

end Consistent

/-- An edge between two nodes can always be added, and is listed at both ends. -/
theorem addEdge_of_ends {g : PatternGraph} (hg : g.incidences.length = g.nodes.length)
    {e : PatternEdge} (ha : g.IsNode e.alpha) (ho : g.IsNode e.omega) :
    ∃ g' : PatternGraph, g.addEdge e = (.ok ⟨g.edges.length⟩, g') ∧ g'.nodes = g.nodes ∧
      g'.edges = g.edges ++ [e] ∧ g'.names = Consistent.namesWith g e ∧
      g'.incidences.length = g.incidences.length ∧
      ∀ k < g.nodes.length, g'.incidencesAt k =
        g.incidencesAt k ++ e.seenFrom ⟨g.edges.length⟩ ⟨k⟩ := by
  obtain ⟨a, hae, hal⟩ := ha
  obtain ⟨o, hoe, hol⟩ := ho
  let id : EdgeId := ⟨g.edges.length⟩
  let g₁ : PatternGraph := { g with edges := g.edges ++ [e] }
  let g₂ := g₁.addIncidence (e.seen id .out)
  let g₃ := g₂.addIncidence (e.seen id .into)
  have hlen : g₂.incidences.length = g.nodes.length := by
    simp [g₂, g₁, addIncidence, hg]
  have hdef : g.addEdge e = (.ok id, { g₃ with names := Consistent.namesWith g e }) := by
    have h₁ : g₁.incidencesOf e.alpha = .ok (g₁.incidencesAt a) := by
      rw [hae]
      exact incidencesOf_natCast hal
    have h₂ : g₂.incidencesOf e.omega = .ok (g₂.incidencesAt o) := by
      rw [hoe]
      exact incidencesOf_natCast hol
    simp only [PatternGraph.addEdge]
    rw [show ({ g with edges := g.edges ++ [e] } : PatternGraph) = g₁ from rfl, h₁]
    simp only
    rw [show g₁.addIncidence ⟨⟨g.edges.length⟩, e.alpha, e.omega, .out⟩ = g₂ from rfl, h₂]
    rfl
  refine ⟨_, hdef, rfl, rfl, rfl, by simp [g₃, g₂, g₁, addIncidence], fun k hk => ?_⟩
  show g₃.incidencesAt k = g.incidencesAt k ++ _
  rw [Consistent.seenFrom_eq, ← List.append_assoc,
    Consistent.incidencesAt_addIncidence g₂ (e.seen id .into) hoe (by rw [hlen]; exact hk),
    Consistent.incidencesAt_addIncidence g₁ (e.seen id .out) hae (by rw [← hg] at hk; exact hk)]
  rfl

/-- An edge between two nodes keeps a graph consistent. -/
theorem Consistent.addEdge {g : PatternGraph} (hg : g.Consistent) (e : PatternEdge)
    (ha : g.IsNode e.alpha) (ho : g.IsNode e.omega) :
    ∃ g' : PatternGraph, g.addEdge e = (.ok ⟨g.edges.length⟩, g') ∧ g'.Consistent ∧
      g'.nodes = g.nodes ∧ g'.edges = g.edges ++ [e] ∧ g'.names = namesWith g e := by
  obtain ⟨g', hadd, hnodes, hedges, hnames, hsized, hlists⟩ := addEdge_of_ends hg.sized ha ho
  have hisNode : ∀ {n}, g.IsNode n → g'.IsNode n := by
    rintro n ⟨k, rfl, hk⟩
    exact ⟨k, rfl, by rw [hnodes]; exact hk⟩
  refine ⟨g', hadd, ?_, hnodes, hedges, hnames⟩
  refine { inhabited := ?_, sized := ?_, ends := ?_, listed := ?_ }
  · rw [hnodes]
    exact hg.inhabited
  · rw [hsized, hnodes]
    exact hg.sized
  · intro e' he'
    rw [hedges] at he'
    rcases List.mem_append.1 he' with he' | he'
    · obtain ⟨ha', ho'⟩ := hg.ends e' he'
      exact ⟨hisNode ha', hisNode ho'⟩
    · obtain rfl := List.mem_singleton.1 he'
      exact ⟨hisNode ha, hisNode ho⟩
  · intro k hk
    rw [hnodes] at hk
    rw [hlists k hk, hedges, incidencesAmong_append, hg.listed k hk]

/-- Where an edge is added, it comes last. -/
theorem edges_of_addEdge {g g' : PatternGraph} {e : PatternEdge} {k : EdgeId}
    (h : g.addEdge e = (.ok k, g')) : g'.edges = g.edges ++ [e] := by
  unfold PatternGraph.addEdge at h
  simp only at h
  split at h
  · cases h
  · split at h
    · cases h
    · cases h
      rfl

theorem nodes_of_addEdge {g g' : PatternGraph} {e : PatternEdge} {k : EdgeId}
    (h : g.addEdge e = (.ok k, g')) : g'.nodes = g.nodes := by
  unfold PatternGraph.addEdge at h
  simp only at h
  split at h
  · cases h
  · split at h
    · cases h
    · cases h
      rfl

/-! ## The order of incidences -/

/-- The order in which a node lists its incidences. -/
def Before (i j : Incidence) : Prop :=
  i.edge.index < j.edge.index ∨ (i.edge = j.edge ∧ i.direction = .out ∧ j.direction = .into)

theorem not_before_of_before {i j : Incidence} (h : Before i j) : ¬ Before j i := by
  rintro (h' | ⟨he', -, hd'⟩) <;> rcases h with h | ⟨he, hd, -⟩
  · omega
  · rw [he] at h'
    exact Nat.lt_irrefl _ h'
  · rw [he'] at h
    exact Nat.lt_irrefl _ h
  · rw [hd] at hd'
    cases hd'

theorem seenFrom_pairwise (e : PatternEdge) (k : EdgeId) (n : NodeId) :
    (e.seenFrom k n).Pairwise Before := by
  refine List.Pairwise.filter _ ?_
  rw [List.pairwise_pair]
  exact .inr ⟨rfl, rfl, rfl⟩

theorem incidencesAmong_pairwise (edges : List PatternEdge) (n : NodeId) :
    (incidencesAmong edges n).Pairwise Before := by
  induction edges using List.reverseRecOn with
  | nil => exact .nil
  | append_singleton edges e ih =>
    rw [incidencesAmong_append, List.pairwise_append]
    refine ⟨ih, seenFrom_pairwise _ _ _, fun i hi j hj => .inl ?_⟩
    obtain ⟨⟨e', he', -⟩, -⟩ := mem_incidencesAmong.1 hi
    rw [(PatternEdge.mem_seenFrom.1 hj).1, PatternEdge.seen_edge]
    exact (List.getElem?_eq_some_iff.1 he').1

/-- A node lists its incidences in order. -/
theorem Consistent.incidencesOf_pairwise {g : PatternGraph} (hg : g.Consistent) {n : NodeId}
    (hn : g.IsNode n) {l : List Incidence} (hl : g.incidencesOf n = .ok l) : l.Pairwise Before := by
  obtain ⟨i, rfl, hi⟩ := hn
  rw [incidencesOf_natCast hi, hg.listed i hi] at hl
  cases hl
  exact incidencesAmong_pairwise _ _

theorem nodup_of_pairwise_before {l : List Incidence} (h : l.Pairwise Before) : l.Nodup := by
  refine h.imp ?_
  rintro i j hij rfl
  exact not_before_of_before hij hij

/-- The incidences of a node in their order are what the node lists. -/
theorem Consistent.incidencesOf_eq {g : PatternGraph} (hg : g.Consistent) {n : NodeId}
    (hn : g.IsNode n) {l : List Incidence} (hsorted : l.Pairwise Before)
    (hmem : ∀ i, i ∈ l ↔ g.Incident i ∧ i.this = n) : g.incidencesOf n = .ok l := by
  obtain ⟨l', hl', hmem'⟩ := hg.incidencesOf_ok hn
  have hsorted' := hg.incidencesOf_pairwise hn hl'
  rw [hl']
  congr 1
  refine List.Perm.eq_of_pairwise (fun i j _ _ hij hji => absurd hji (not_before_of_before hij))
    hsorted' hsorted ?_
  refine (List.perm_ext_iff_of_nodup (nodup_of_pairwise_before hsorted')
    (nodup_of_pairwise_before hsorted)).2 fun j => ?_
  rw [hmem', hmem]

end PatternGraph

end GraphPattern
