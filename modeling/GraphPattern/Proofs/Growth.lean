import GraphPattern.Proofs.Regular
import GraphPattern.Proofs.EdgeTallies

/-!
# GraphPattern — growing pattern graphs

A pattern graph grows by one node or one edge at a time. A node can always be added. An edge needs
both of its ends, and if one of them is missing, adding it fails; the edge is among the edges all
the same, and if only its omega is missing, its alpha lists it. Such an edge is a *stray*: nobody
got hold of it, and it has no name. Apart from the strays, edges and incidences agree whatever was
tried.

## Results

* `PatternGraph.grow_turns` — what one step gives and what it leaves, whether it succeeds or fails.
* `PatternGraph.Settled.grow` — every step keeps what is settled.
* `PatternGraph.settled_growAll` — what is settled in every graph that was grown from the empty one.
* `PatternGraph.grow_dangling` — a failed step leaves a trace.
-/

namespace GraphPattern

/-- A step in growing a pattern graph. -/
inductive Growth where
  | node (n : PatternNode)
  | edge (e : PatternEdge)
deriving DecidableEq, Repr

/-- What an end of an edge sees of it in one direction, it sees once. -/
theorem PatternEdge.filter_seenFrom (e : PatternEdge) (k : EdgeId) (d : Direction) :
    (e.seenFrom k (e.near d)).filter (fun i => i.edge = k ∧ i.direction = d) = [e.seen k d] := by
  rw [PatternGraph.Consistent.seenFrom_eq]
  cases d with
  | out => by_cases ho : e.omega = e.alpha <;> simp [near, seen, ho]
  | into => by_cases ha : e.alpha = e.omega <;> simp [near, seen, ha]

namespace PatternGraph

theorem Extends.incident {g g' : PatternGraph} (h : g.Extends g') {i : Incidence}
    (hi : g.Incident i) : g'.Incident i := by
  obtain ⟨e, he, hseen⟩ := hi
  exact ⟨e, h.edge? he, hseen⟩

/-- Nodes and edges keep their names. -/
theorem Extends.hasName {g g' : PatternGraph} (h : g.Extends g') {x : Handle} {name : String}
    (hx : g.HasName x name) : g'.HasName x name := by
  cases x with
  | node n => exact ⟨h.isNode hx.1, by rw [h.node? hx.1]; exact hx.2⟩
  | edge k =>
    obtain ⟨e, he, hname⟩ := Option.bind_eq_some_iff.1 hx
    exact Option.bind_eq_some_iff.2 ⟨e, h.edge? he, hname⟩

/-! ## Steps -/

/-- Performs a step, which gives the handle of what it adds. -/
def grow (g : PatternGraph) : Growth → Except Fault Handle × PatternGraph
  | .node n => (.ok (.node (g.addNode n).1), (g.addNode n).2)
  | .edge e => ((g.addEdge e).1.map .edge, (g.addEdge e).2)

/-- Performs some steps, whether they succeed or fail. -/
def growAll (g : PatternGraph) (steps : List Growth) : PatternGraph :=
  steps.foldl (fun g s => (g.grow s).2) g

/-- The edge that a step leaves behind if it fails. -/
def leftBehind (g : PatternGraph) (s : Growth) : List EdgeId :=
  match (g.grow s).1 with
  | .ok _ => []
  | .error _ => [⟨g.edges.length⟩]

/-- The edges that the failed ones among some steps leave behind. -/
def strays (g : PatternGraph) : List Growth → List EdgeId
  | [] => []
  | s :: steps => g.leftBehind s ++ strays (g.grow s).2 steps

/-- What a step gives, and what becomes of the graph. -/
inductive Turns (g : PatternGraph) : Growth → Except Fault Handle × PatternGraph → Prop
  | node {n : PatternNode} {g' : PatternGraph} (nodes : g'.nodes = g.nodes ++ [n])
      (edges : g'.edges = g.edges) (sized : g'.incidences.length = g.incidences.length + 1)
      (lists : ∀ k, g'.incidencesAt k = g.incidencesAt k)
      (names : g'.names = match n.name? with
        | some name => (name, .node ⟨g.nodes.length⟩) :: g.names
        | none => g.names) :
      Turns g (.node n) (.ok (.node ⟨g.nodes.length⟩), g')
  | edge {e : PatternEdge} {g' : PatternGraph} (ends : ∀ d, g.IsNode (e.near d))
      (nodes : g'.nodes = g.nodes) (edges : g'.edges = g.edges ++ [e])
      (sized : g'.incidences.length = g.incidences.length)
      (lists : ∀ k < g.nodes.length, g'.incidencesAt k =
        g.incidencesAt k ++ e.seenFrom ⟨g.edges.length⟩ ⟨k⟩)
      (names : g'.names = Consistent.namesWith g e) :
      Turns g (.edge e) (.ok (.edge ⟨g.edges.length⟩), g')
  /-- An end is missing, and the alpha is looked at first. -/
  | failed {e : PatternEdge} {d : Direction} {g' : PatternGraph} (missing : ¬ g.IsNode (e.near d))
      (before : d = .into → g.IsNode e.alpha) (nodes : g'.nodes = g.nodes)
      (edges : g'.edges = g.edges ++ [e]) (sized : g'.incidences.length = g.incidences.length)
      (lists : ∀ k < g.nodes.length, g'.incidencesAt k = g.incidencesAt k ++
        if d = .into ∧ e.alpha = ⟨k⟩ then [e.seen ⟨g.edges.length⟩ .out] else [])
      (names : g'.names = g.names) :
      Turns g (.edge e) (.error (.missingNode (e.near d).index), g')

theorem incidencesOf_of_not_isNode {g : PatternGraph} {n : NodeId} (h : ¬ g.IsNode n) :
    g.incidencesOf n = .error (.missingNode n.index) := by
  obtain ⟨index⟩ := n
  cases index with
  | ofNat k =>
    have hk : ¬ k < g.nodes.length := fun hk => h ⟨k, rfl, hk⟩
    simp [incidencesOf, hk]
  | negSucc k => rfl

/-- A node that can be asked for its incidences is one of the graph. -/
theorem incidencesOf_eq_ok_iff {g : PatternGraph} {n : NodeId} {l : List Incidence} :
    g.incidencesOf n = .ok l ↔ ∃ k : Nat, n = ⟨k⟩ ∧ k < g.nodes.length ∧ l = g.incidencesAt k := by
  constructor
  · intro h
    by_cases hn : g.IsNode n
    · obtain ⟨k, rfl, hk⟩ := hn
      rw [incidencesOf_natCast hk] at h
      exact ⟨k, rfl, hk, (Except.ok.inj h).symm⟩
    · rw [incidencesOf_of_not_isNode hn] at h
      cases h
  · rintro ⟨k, rfl, hk, rfl⟩
    exact incidencesOf_natCast hk

theorem incidencesAt_addNode (g : PatternGraph) (n : PatternNode) (k : Nat) :
    (g.addNode n).2.incidencesAt k = g.incidencesAt k := by
  simp only [incidencesAt, addNode, List.getElem?_append]
  split
  · rfl
  · rename_i hk
    rw [List.getElem?_eq_none (Nat.le_of_not_lt hk)]
    cases hj : ([[]] : List (List Incidence))[k - g.incidences.length]? with
    | none => rfl
    | some l =>
      have hmem := List.mem_of_getElem? hj
      rw [List.mem_singleton.1 hmem]
      rfl

/-- Every step has one of the three outcomes. -/
theorem grow_turns {g : PatternGraph} (hg : g.incidences.length = g.nodes.length) (s : Growth) :
    g.Turns s (g.grow s) := by
  cases s with
  | node n =>
    exact .node rfl rfl (by simp [addNode]) (incidencesAt_addNode g n) rfl
  | edge e =>
    let id : EdgeId := ⟨g.edges.length⟩
    let g₁ : PatternGraph := { g with edges := g.edges ++ [e] }
    let g₂ := g₁.addIncidence (e.seen id .out)
    rw [show g.grow (.edge e) = ((g.addEdge e).1.map .edge, (g.addEdge e).2) from rfl]
    by_cases ha : g.IsNode e.alpha
    · by_cases ho : g.IsNode e.omega
      · obtain ⟨g', hadd, hnodes, hedges, hnames, hsized, hlists⟩ := addEdge_of_ends hg ha ho
        rw [hadd]
        refine .edge (fun d => ?_) hnodes hedges hsized hlists hnames
        cases d
        · exact ha
        · exact ho
      · -- the first end exists and the second does not: the incidence at the first stays behind
        obtain ⟨a, hae, hal⟩ := ha
        have h₁ : g₁.incidencesOf e.alpha = .ok (g₁.incidencesAt a) := by
          rw [hae]
          exact incidencesOf_natCast hal
        have h₂ : g₂.incidencesOf e.omega = .error (.missingNode e.omega.index) :=
          incidencesOf_of_not_isNode ho
        have hadd : g.addEdge e = (.error (.missingNode e.omega.index), g₂) := by
          rw [addEdge]
          simp only
          rw [show ({ g with edges := g.edges ++ [e] } : PatternGraph) = g₁ from rfl, h₁]
          simp only
          rw [show g₁.addIncidence ⟨⟨g.edges.length⟩, e.alpha, e.omega, .out⟩ = g₂ from rfl, h₂]
        rw [hadd]
        refine .failed (d := .into) ho (fun _ => ⟨a, hae, hal⟩) rfl rfl
          (by simp [g₂, g₁, addIncidence]) (fun k hk => ?_) rfl
        rw [Consistent.incidencesAt_addIncidence g₁ (e.seen id .out) hae
          (by rw [← hg] at hk; exact hk)]
        simp only [true_and]
        rfl
    · -- the first end does not exist: the edge stays behind with no incidence
      have h₁ : g₁.incidencesOf e.alpha = .error (.missingNode e.alpha.index) :=
        incidencesOf_of_not_isNode ha
      have hadd : g.addEdge e = (.error (.missingNode e.alpha.index), g₁) := by
        rw [addEdge]
        simp only
        rw [show ({ g with edges := g.edges ++ [e] } : PatternGraph) = g₁ from rfl, h₁]
      rw [hadd]
      exact .failed (d := .out) ha (fun h => by cases h) rfl rfl rfl
        (fun k _ => by simp [g₁, incidencesAt]) rfl

/-! ## Adding an edge -/

/-- An edge is added to a graph, and nodes list some of its incidences. -/
structure Takes (g : PatternGraph) (e : PatternEdge) (extra : Nat → List Incidence)
    (g' : PatternGraph) : Prop where
  nodes : g'.nodes = g.nodes
  edges : g'.edges = g.edges ++ [e]
  sized : g'.incidences.length = g.incidences.length
  lists : ∀ k < g.nodes.length, g'.incidencesAt k = g.incidencesAt k ++ extra k
  seen : ∀ k, (extra k).Sublist (e.seenFrom ⟨g.edges.length⟩ ⟨k⟩)

namespace Takes

variable {g g' : PatternGraph} {e : PatternEdge} {extra : Nat → List Incidence}

theorem extended (h : g.Takes e extra g') : g.Extends g' := extends_of_edges h.nodes h.edges

theorem edge?_new (h : g.Takes e extra g') : g'.edge? ⟨g.edges.length⟩ = some e := by
  rw [edge?_append h.edges, if_pos rfl]

theorem edge?_cases (h : g.Takes e extra g') {k : EdgeId} {e' : PatternEdge}
    (he : g'.edge? k = some e') : g.edge? k = some e' ∨ (k = ⟨g.edges.length⟩ ∧ e' = e) := by
  rw [edge?_append h.edges] at he
  split at he
  · rename_i hk
    exact .inr ⟨hk, (Option.some.inj he).symm⟩
  · exact .inl he

theorem seen_of_mem (h : g.Takes e extra g') {k : Nat} {i : Incidence} (hi : i ∈ extra k) :
    i = e.seen ⟨g.edges.length⟩ i.direction ∧ i.this = ⟨k⟩ :=
  PatternEdge.mem_seenFrom.1 ((h.seen k).subset hi)

theorem edge_of_mem (h : g.Takes e extra g') {k : Nat} {i : Incidence} (hi : i ∈ extra k) :
    i.edge = ⟨g.edges.length⟩ := by
  rw [(h.seen_of_mem hi).1, PatternEdge.seen_edge]

theorem exists_list (h : g.Takes e extra g') {n : NodeId} {l : List Incidence}
    (hl : g'.incidencesOf n = .ok l) :
    ∃ (k : Nat) (l₀ : List Incidence), n = ⟨k⟩ ∧ g.incidencesOf n = .ok l₀ ∧ l = l₀ ++ extra k := by
  obtain ⟨k, rfl, hk, rfl⟩ := incidencesOf_eq_ok_iff.1 hl
  rw [h.nodes] at hk
  exact ⟨k, _, rfl, incidencesOf_natCast hk, h.lists k hk⟩

theorem lists_of (h : g.Takes e extra g') {n : NodeId} {l : List Incidence}
    (hl : g.incidencesOf n = .ok l) :
    ∃ k : Nat, n = ⟨k⟩ ∧ g'.incidencesOf n = .ok (l ++ extra k) := by
  obtain ⟨k, rfl, hk, rfl⟩ := incidencesOf_eq_ok_iff.1 hl
  refine ⟨k, rfl, ?_⟩
  rw [← h.lists k hk]
  rw [← h.nodes] at hk
  exact incidencesOf_natCast hk

end Takes

/-! ## What stays settled -/

/-- What can be relied on in a graph that was grown, with the edges that failed steps left behind.
-/
structure Settled (g : PatternGraph) (strays : List EdgeId) : Prop where
  sized : g.incidences.length = g.nodes.length
  /-- Every other edge has both ends in the graph, and each of them lists it once. -/
  whole : ∀ k e, g.edge? k = some e → k ∉ strays → ∀ d, ∃ l, g.incidencesOf (e.near d) = .ok l ∧
    l.filter (fun i => i.edge = k ∧ i.direction = d) = [e.seen k d]
  /-- Nodes list edges of the graph, as they are seen from the node. -/
  real : ∀ n l, g.incidencesOf n = .ok l → ∀ i ∈ l, g.Incident i ∧ i.this = n ∧
    (i.edge ∉ strays → g.IsNode i.that)
  ordered : ∀ n l, g.incidencesOf n = .ok l → l.Pairwise Before
  /-- What a failed step left behind is listed at its alpha at most. -/
  stray : ∀ k ∈ strays, (∃ e, g.edge? k = some e) ∧
    ∀ n l, g.incidencesOf n = .ok l → ∀ i ∈ l, i.edge = k → i.direction = .out
  named : ∀ b ∈ g.names, g.HasName b.2 b.1 ∧ ∀ k, b.2 = .edge k → k ∉ strays

theorem settled_empty : PatternGraph.empty.Settled [] where
  sized := rfl
  whole := fun k e he => by simp [PatternGraph.empty, edge?] at he
  real := by
    intro n l hl i hi
    obtain ⟨k, -, hk, rfl⟩ := incidencesOf_eq_ok_iff.1 hl
    obtain rfl : k = 0 := by simpa [PatternGraph.empty] using hk
    cases hi
  ordered := by
    intro n l hl
    obtain ⟨k, -, hk, rfl⟩ := incidencesOf_eq_ok_iff.1 hl
    obtain rfl : k = 0 := by simpa [PatternGraph.empty] using hk
    exact .nil
  stray := fun k hk => absurd hk List.not_mem_nil
  named := fun b hb => absurd hb List.not_mem_nil

namespace Settled

variable {g g' : PatternGraph} {strays : List EdgeId}

theorem lt_of_edge? {k : EdgeId} {e : PatternEdge} (h : g.edge? k = some e) :
    k.index < g.edges.length :=
  (List.getElem?_eq_some_iff.1 h).1

/-- A listed edge is one of the graph. -/
theorem lt_of_mem (h : g.Settled strays) {n : NodeId} {l : List Incidence}
    (hl : g.incidencesOf n = .ok l) {i : Incidence} (hi : i ∈ l) :
    i.edge.index < g.edges.length := by
  obtain ⟨⟨e, he, -⟩, -⟩ := h.real n l hl i hi
  exact lt_of_edge? he

theorem lt_of_stray (h : g.Settled strays) {k : EdgeId} (hk : k ∈ strays) :
    k.index < g.edges.length := by
  obtain ⟨⟨e, he⟩, -⟩ := h.stray k hk
  exact lt_of_edge? he

/-- A new node lists nothing. -/
theorem appendNode (h : g.Settled strays) {n : PatternNode} (nodes : g'.nodes = g.nodes ++ [n])
    (edges : g'.edges = g.edges) (sized : g'.incidences.length = g.incidences.length + 1)
    (lists : ∀ k, g'.incidencesAt k = g.incidencesAt k)
    (names : g'.names = match n.name? with
      | some name => (name, .node ⟨g.nodes.length⟩) :: g.names
      | none => g.names) : g'.Settled strays := by
  have hext : g.Extends g' :=
    ⟨nodes.symm ▸ List.prefix_append _ _, edges.symm ▸ List.prefix_rfl⟩
  have hold : ∀ {m l}, g.incidencesOf m = .ok l → g'.incidencesOf m = .ok l := by
    intro m l hl
    obtain ⟨k, rfl, hk, rfl⟩ := incidencesOf_eq_ok_iff.1 hl
    exact incidencesOf_eq_ok_iff.2
      ⟨k, rfl, by rw [nodes, List.length_append]; omega, (lists k).symm⟩
  -- what the new graph lists, the old one lists at the same node
  have hlisted : ∀ {m l}, g'.incidencesOf m = .ok l → l = [] ∨ g.incidencesOf m = .ok l := by
    intro m l hl
    obtain ⟨k, rfl, hk, rfl⟩ := incidencesOf_eq_ok_iff.1 hl
    rw [lists]
    by_cases hlt : k < g.nodes.length
    · exact .inr (incidencesOf_natCast hlt)
    · refine .inl ?_
      rw [incidencesAt, List.getElem?_eq_none (by rw [h.sized]; omega), Option.getD_none]
  refine { sized := ?_, whole := ?_, real := ?_, ordered := ?_, stray := ?_, named := ?_ }
  · rw [sized, nodes, List.length_append, h.sized, List.length_singleton]
  · intro k e he hk d
    rw [edge?, edges] at he
    obtain ⟨l, hl, honce⟩ := h.whole k e he hk d
    exact ⟨l, hold hl, honce⟩
  · intro m l hl i hi
    rcases hlisted hl with rfl | hl
    · cases hi
    · obtain ⟨hincident, hthis, hthat⟩ := h.real m l hl i hi
      exact ⟨hext.incident hincident, hthis, fun hk => hext.isNode (hthat hk)⟩
  · intro m l hl
    rcases hlisted hl with rfl | hl
    · exact .nil
    · exact h.ordered m l hl
  · intro k hk
    obtain ⟨⟨e, he⟩, hout⟩ := h.stray k hk
    refine ⟨⟨e, hext.edge? he⟩, fun m l hl i hi => ?_⟩
    rcases hlisted hl with rfl | hl
    · cases hi
    · exact hout m l hl i hi
  · intro b hb
    have hcases : (n.name? = some b.1 ∧ b.2 = .node ⟨g.nodes.length⟩) ∨ b ∈ g.names := by
      rw [names] at hb
      cases hn : n.name? with
      | none =>
        rw [hn] at hb
        exact .inr hb
      | some name =>
        rw [hn] at hb
        rcases List.mem_cons.1 hb with rfl | hb
        · exact .inl ⟨rfl, rfl⟩
        · exact .inr hb
    rcases hcases with ⟨hn, hb⟩ | hb
    · rw [hb]
      refine ⟨⟨⟨g.nodes.length, rfl, by rw [nodes]; simp⟩, ?_⟩, fun k hk => by cases hk⟩
      rw [node?_natCast, nodes]
      simpa using hn
    · exact ⟨hext.hasName (h.named b hb).1, (h.named b hb).2⟩

section appendEdge

variable {e : PatternEdge} {extra : Nat → List Incidence}

/-- The next edge is no stray. -/
theorem next_not_mem (h : g.Settled strays) : (⟨g.edges.length⟩ : EdgeId) ∉ strays := fun hk => by
  have hlt := h.lt_of_stray hk
  exact Nat.lt_irrefl _ hlt

/-- An edge that was whole stays so. -/
theorem whole_old (h : g.Settled strays) (ha : g.Takes e extra g') {k : EdgeId} {e' : PatternEdge}
    (he : g.edge? k = some e') (hk : k ∉ strays) (d : Direction) :
    ∃ l, g'.incidencesOf (e'.near d) = .ok l ∧
      l.filter (fun i => i.edge = k ∧ i.direction = d) = [e'.seen k d] := by
  obtain ⟨l, hl, honce⟩ := h.whole k e' he hk d
  obtain ⟨j, -, hl'⟩ := ha.lists_of hl
  refine ⟨_, hl', ?_⟩
  rw [List.filter_append, honce, List.filter_eq_nil_iff.2, List.append_nil]
  intro i hi hsame
  simp only [decide_eq_true_eq] at hsame
  have hlt := lt_of_edge? he
  rw [← hsame.1, ha.edge_of_mem hi] at hlt
  exact Nat.lt_irrefl _ hlt

/-- An edge is whole if its ends list all that they see of it. -/
theorem whole_new (h : g.Settled strays) (ha : g.Takes e extra g')
    (hends : ∀ d, g.IsNode (e.near d))
    (hall : ∀ k, extra k = e.seenFrom ⟨g.edges.length⟩ ⟨k⟩) (d : Direction) :
    ∃ l, g'.incidencesOf (e.near d) = .ok l ∧
      l.filter (fun i => i.edge = ⟨g.edges.length⟩ ∧ i.direction = d) =
        [e.seen ⟨g.edges.length⟩ d] := by
  obtain ⟨j, hj, hlt⟩ := hends d
  have hl : g.incidencesOf (e.near d) = .ok (g.incidencesAt j) := by
    rw [hj]
    exact incidencesOf_natCast hlt
  obtain ⟨k, hk, hl'⟩ := ha.lists_of hl
  have hnone : (g.incidencesAt j).filter
      (fun i => i.edge = ⟨g.edges.length⟩ ∧ i.direction = d) = [] := by
    refine List.filter_eq_nil_iff.2 fun i hi hsame => ?_
    simp only [decide_eq_true_eq] at hsame
    have hold := h.lt_of_mem hl hi
    rw [hsame.1] at hold
    exact Nat.lt_irrefl _ hold
  refine ⟨_, hl', ?_⟩
  rw [List.filter_append, hnone, List.nil_append, hall, ← hk]
  exact e.filter_seenFrom _ d

/-- What is listed is real, though the omega of a stray need not be. -/
theorem real_append (h : g.Settled strays) (ha : g.Takes e extra g') {more : List EdgeId}
    (hends : ⟨g.edges.length⟩ ∉ more → ∀ d, g.IsNode (e.near d)) {n : NodeId} {l : List Incidence}
    (hl : g'.incidencesOf n = .ok l) {i : Incidence} (hi : i ∈ l) :
    g'.Incident i ∧ i.this = n ∧ (i.edge ∉ strays ++ more → g'.IsNode i.that) := by
  obtain ⟨k, l₀, rfl, hl₀, rfl⟩ := ha.exists_list hl
  rcases List.mem_append.1 hi with hi | hi
  · obtain ⟨hincident, hthis, hthat⟩ := h.real _ l₀ hl₀ i hi
    refine ⟨ha.extended.incident hincident, hthis, fun hk => ha.extended.isNode ?_⟩
    exact hthat fun hin => hk (List.mem_append_left _ hin)
  · obtain ⟨hseen, hthis⟩ := ha.seen_of_mem hi
    have hid := ha.edge_of_mem hi
    refine ⟨⟨e, by rw [hid]; exact ha.edge?_new, by rw [hid]; exact hseen⟩, hthis, fun hk => ?_⟩
    have hnear := hends fun hin => hk (List.mem_append_right _ (hid ▸ hin))
    rw [hseen]
    cases i.direction
    · exact ha.extended.isNode (hnear .into)
    · exact ha.extended.isNode (hnear .out)

theorem ordered_append (h : g.Settled strays) (ha : g.Takes e extra g') {n : NodeId}
    {l : List Incidence} (hl : g'.incidencesOf n = .ok l) : l.Pairwise Before := by
  obtain ⟨k, l₀, rfl, hl₀, rfl⟩ := ha.exists_list hl
  refine List.pairwise_append.2 ⟨h.ordered _ l₀ hl₀,
    (seenFrom_pairwise _ _ _).sublist (ha.seen k), fun i hi j hj => .inl ?_⟩
  rw [ha.edge_of_mem hj]
  exact h.lt_of_mem hl₀ hi

/-- A stray is not listed anew. -/
theorem stray_old (h : g.Settled strays) (ha : g.Takes e extra g') {k : EdgeId} (hk : k ∈ strays) :
    (∃ e', g'.edge? k = some e') ∧
      ∀ n l, g'.incidencesOf n = .ok l → ∀ i ∈ l, i.edge = k → i.direction = .out := by
  obtain ⟨⟨e', he⟩, hout⟩ := h.stray k hk
  refine ⟨⟨e', ha.extended.edge? he⟩, fun n l hl i hi heq => ?_⟩
  obtain ⟨j, l₀, rfl, hl₀, rfl⟩ := ha.exists_list hl
  rcases List.mem_append.1 hi with hi | hi
  · exact hout _ l₀ hl₀ i hi heq
  · rw [← heq, ha.edge_of_mem hi] at hk
    exact absurd hk h.next_not_mem

theorem stray_new (h : g.Settled strays) (ha : g.Takes e extra g')
    (hout : ∀ k, ∀ i ∈ extra k, i.direction = .out) {n : NodeId} {l : List Incidence}
    (hl : g'.incidencesOf n = .ok l) {i : Incidence} (hi : i ∈ l)
    (heq : i.edge = ⟨g.edges.length⟩) : i.direction = .out := by
  obtain ⟨j, l₀, rfl, hl₀, rfl⟩ := ha.exists_list hl
  rcases List.mem_append.1 hi with hi | hi
  · have hold := h.lt_of_mem hl₀ hi
    rw [heq] at hold
    exact absurd hold (Nat.lt_irrefl _)
  · exact hout j i hi

/-- An edge is added with all its incidences. -/
theorem appendEdge (h : g.Settled strays) (ha : g.Takes e extra g')
    (hends : ∀ d, g.IsNode (e.near d))
    (hall : ∀ k, extra k = e.seenFrom ⟨g.edges.length⟩ ⟨k⟩)
    (names : g'.names = Consistent.namesWith g e) : g'.Settled strays where
  sized := by rw [ha.sized, ha.nodes, h.sized]
  whole := by
    intro k e' he hk d
    rcases ha.edge?_cases he with he | ⟨rfl, rfl⟩
    · exact h.whole_old ha he hk d
    · exact h.whole_new ha hends hall d
  real := by
    intro n l hl i hi
    have hreal : g'.Incident i ∧ i.this = n ∧ (i.edge ∉ strays ++ [] → g'.IsNode i.that) :=
      h.real_append ha (fun _ => hends) hl hi
    rwa [List.append_nil] at hreal
  ordered := fun n l hl => h.ordered_append ha hl
  stray := fun k hk => h.stray_old ha hk
  named := by
    intro b hb
    -- the names bound are those of before, and the new edge's in front of them
    have hcases : (e.name? = some b.1 ∧ b.2 = .edge ⟨g.edges.length⟩) ∨ b ∈ g.names := by
      rw [names, Consistent.namesWith] at hb
      split at hb
      · rename_i name hname
        rcases List.mem_cons.1 hb with rfl | hb
        · exact .inl ⟨hname, rfl⟩
        · exact .inr hb
      · exact .inr hb
    rcases hcases with ⟨hname, hb⟩ | hb
    · rw [hb]
      refine ⟨Option.bind_eq_some_iff.2 ⟨e, ha.edge?_new, hname⟩, fun k hk => ?_⟩
      obtain rfl := Handle.edge.inj hk
      exact h.next_not_mem
    · exact ⟨ha.extended.hasName (h.named b hb).1, (h.named b hb).2⟩

/-- An edge is left behind, with what its alpha may list. -/
theorem leaveEdge (h : g.Settled strays) (ha : g.Takes e extra g')
    (hout : ∀ k, ∀ i ∈ extra k, i.direction = .out) (names : g'.names = g.names) :
    g'.Settled (strays ++ [⟨g.edges.length⟩]) where
  sized := by rw [ha.sized, ha.nodes, h.sized]
  whole := by
    intro k e' he hk d
    rw [List.mem_append, not_or] at hk
    rcases ha.edge?_cases he with he | ⟨rfl, -⟩
    · exact h.whole_old ha he hk.1 d
    · exact absurd (List.mem_singleton_self _) hk.2
  real := by
    intro n l hl i hi
    exact h.real_append ha (fun hk => absurd (List.mem_singleton_self _) hk) hl hi
  ordered := fun n l hl => h.ordered_append ha hl
  stray := by
    intro k hk
    rcases List.mem_append.1 hk with hk | hk
    · exact h.stray_old ha hk
    · obtain rfl := List.mem_singleton.1 hk
      exact ⟨⟨e, ha.edge?_new⟩, fun n l hl i hi heq => h.stray_new ha hout hl hi heq⟩
  named := by
    intro b hb
    rw [names] at hb
    obtain ⟨hown, hfree⟩ := h.named b hb
    refine ⟨ha.extended.hasName hown, fun k hk hin => ?_⟩
    rcases List.mem_append.1 hin with hin | hin
    · exact hfree k hk hin
    · -- a name bound before is of an edge before, not of the stray one
      rw [hk] at hown
      obtain ⟨e', he, -⟩ := Option.bind_eq_some_iff.1 hown
      have hlt := lt_of_edge? he
      rw [List.mem_singleton.1 hin] at hlt
      exact Nat.lt_irrefl _ hlt

end appendEdge

/-- Every step keeps what is settled; if it fails, there is one more stray. -/
theorem grow (h : g.Settled strays) (s : Growth) :
    (g.grow s).2.Settled (strays ++ g.leftBehind s) := by
  have hturns := grow_turns h.sized s
  unfold leftBehind
  generalize hr : g.grow s = r at hturns
  -- a node, an edge between nodes, or an edge that is left behind without one of its ends
  cases hturns with
  | node nodes edges sized lists names =>
    rw [List.append_nil]
    exact h.appendNode nodes edges sized lists names
  | edge ends nodes edges sized lists names =>
    rw [List.append_nil]
    exact h.appendEdge ⟨nodes, edges, sized, lists, fun k => List.Sublist.refl _⟩ ends
      (fun k => rfl) names
  | failed missing before nodes edges sized lists names =>
    refine h.leaveEdge ⟨nodes, edges, sized, lists, fun k => ?_⟩ (fun k i hi => ?_) names
    · rw [Consistent.seenFrom_eq]
      split
      · rename_i hd
        rw [if_pos hd.2]
        exact List.sublist_append_left _ _
      · exact List.nil_sublist _
    · split at hi
      · rw [List.mem_singleton.1 hi, PatternEdge.seen_direction]
      · exact nomatch hi

/-- What is settled at first is settled after all steps. -/
theorem growAll (h : g.Settled strays) (steps : List Growth) :
    (g.growAll steps).Settled (strays ++ g.strays steps) := by
  induction steps generalizing g strays with
  | nil =>
    rw [PatternGraph.strays, List.append_nil]
    exact h
  | cons s steps ih =>
    rw [PatternGraph.strays, ← List.append_assoc]
    exact ih (h.grow s)

end Settled

/-- However a graph was grown from the empty one, edges and incidences agree except for what failed
steps left behind, and what the next step does is known. -/
theorem settled_growAll (steps : List Growth) :
    (empty.growAll steps).Settled (empty.strays steps) ∧
      ∀ s, (empty.growAll steps).Turns s ((empty.growAll steps).grow s) := by
  have hsettled := settled_empty.growAll steps
  exact ⟨hsettled, fun s => grow_turns hsettled.sized s⟩

/-- An edge from the anchor to a node that does not exist. -/
def dangling : PatternEdge :=
  { kind := .pattern, alpha := ⟨0⟩, omega := ⟨1⟩ }

/-- The edge cannot be added, but it is in the graph afterwards, and the anchor lists it. -/
theorem grow_dangling :
    (empty.grow (.edge dangling)).1 = .error (.missingNode 1) ∧
      (empty.grow (.edge dangling)).2.edges = [dangling] ∧
      (empty.grow (.edge dangling)).2.incidencesAt 0 = [⟨⟨0⟩, ⟨0⟩, ⟨1⟩, .out⟩] ∧
      ¬ (empty.grow (.edge dangling)).2.IsNode dangling.omega := by
  refine ⟨rfl, rfl, rfl, ?_⟩
  rintro ⟨k, hk, hlt⟩
  have hone : (1 : Int) = k := congrArg NodeId.index hk
  obtain rfl : k = 1 := by omega
  exact absurd hlt (by decide)

end PatternGraph

end GraphPattern
