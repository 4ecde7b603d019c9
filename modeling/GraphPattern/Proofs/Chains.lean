import GraphPattern.Proofs.Walk

/-!
# GraphPattern — what a chain consumes

A chain runs over nodes without binding them, so nothing may be left to follow at the nodes it
passes: all their edges were visited before or belong to the chain. At the terminal either nothing
is left as well, or the terminal is known, has a name, or is needed by a named edge.

## Results

* `Chain.Walks.consumed` — this, and what else holds of the nodes and edges of a chain.
-/

namespace GraphPattern

open PatternGraph

namespace PatternGraph

variable {cx : Context} {g : PatternGraph}

/-- The incidence is one of an edge of the model. -/
def Structural (g : PatternGraph) (i : Incidence) : Prop :=
  ∃ e, g.edge? i.edge = some e ∧ e.kind.structural = true

/-- The incidence is one of an edge to a constraint. -/
def Precedes (g : PatternGraph) (i : Incidence) : Prop :=
  ∃ e, g.edge? i.edge = some e ∧ e.kind = .precedes

theorem structural_of_pattern {i : Incidence} {e : PatternEdge} (he : g.edge? i.edge = some e)
    (hk : e.kind = .pattern) : g.Structural i :=
  ⟨e, he, by rw [hk]; rfl⟩

theorem structural_of_argument {i : Incidence} {e : PatternEdge} (he : g.edge? i.edge = some e)
    (hk : e.kind = .argument) : g.Structural i :=
  ⟨e, he, by rw [hk]; rfl⟩

/-- Nothing has a name here. -/
def Unnamed (g : PatternGraph) (h : Handle) : Prop :=
  ∀ name, ¬ g.HasName h name

theorem unnamed_node_iff {n : NodeId} {nd : PatternNode} (hn : g.IsNode n)
    (hnode : g.node? n = some nd) : g.Unnamed (.node n) ↔ nd.anonymous = true := by
  simp only [Unnamed, HasName, hnode, Option.bind_some, PatternNode.anonymous]
  constructor
  · intro h
    rw [Option.isNone_iff_eq_none, Option.eq_none_iff_forall_ne_some]
    intro name hname
    exact h name ⟨hn, hname⟩
  · rintro h name ⟨-, hname⟩
    rw [hname] at h
    cases h

theorem unnamed_edge_iff {k : EdgeId} {e : PatternEdge} (he : g.edge? k = some e) :
    g.Unnamed (.edge k) ↔ e.anonymous = true := by
  simp only [Unnamed, HasName, he, Option.bind_some, PatternEdge.anonymous]
  rw [Option.isNone_iff_eq_none, Option.eq_none_iff_forall_ne_some]

theorem Structural.reverse {i : Incidence} (h : g.Structural i) : g.Structural i.reverse := h

/-- The ends of an edge of the model are nodes of the model. -/
theorem Regular.isPlace_this (hg : g.Regular cx) {i : Incidence} (hi : g.Incident i)
    (hs : g.Structural i) : g.IsPlace i.this := by
  obtain ⟨e, he, hk⟩ := hs
  have hseen := hi.eq_seen he
  obtain ⟨ha, ho⟩ := hg.isPlace_ends he hk
  cases hd : i.direction <;> rw [hseen, hd]
  · exact ha
  · exact ho

theorem Regular.isPlace_that (hg : g.Regular cx) {i : Incidence} (hi : g.Incident i)
    (hs : g.Structural i) : g.IsPlace i.that :=
  hg.isPlace_this hi.reverse hs.reverse

end PatternGraph

/-- An edge becomes a step in its direction and of its type. -/
theorem edgeSegment_ok {cx : Context} {e : PatternEdge} {d : Direction} {segment : Segment}
    (h : cx.edgeSegment e d = .ok segment) :
    segment = .step d (.ofName? e.typeName?) ∧ (d = .out ∨ cx.engine = .graph) := by
  unfold Context.edgeSegment at h
  split at h
  · rename_i hgraph
    cases h
    exact ⟨rfl, .inr hgraph⟩
  · cases h
    exact ⟨rfl, .inl rfl⟩
  · cases h

namespace Chain

variable {cx : Context} {g g₀ : PatternGraph} {n : NodeId} {visited : List Handle} {c : Chain}

theorem mem_pending (hg : g.Consistent) (hn : g.IsNode n) {left : List (Incidence × PatternEdge)}
    (h : pending g n visited = .ok left) {i : Incidence} {e : PatternEdge} :
    (i, e) ∈ left ↔ g.Incident i ∧ i.this = n ∧ Handle.edge i.edge ∉ visited ∧
      g.edge? i.edge = some e := by
  obtain ⟨l, hl, hmem⟩ := hg.incidencesOf_ok hn
  simp only [pending, hl, bind, Except.bind] at h
  cases h
  simp only [List.mem_filterMap, hmem]
  constructor
  · rintro ⟨j, ⟨hj, hthis⟩, hje⟩
    split at hje
    · cases hje
    · rename_i hnew
      obtain ⟨e', he', hpair⟩ := Option.map_eq_some_iff.1 hje
      cases hpair
      exact ⟨hj, hthis, hnew, he'⟩
  · rintro ⟨hi, hthis, hnew, he⟩
    exact ⟨i, ⟨hi, hthis⟩, by rw [if_neg hnew, he]; rfl⟩

/-- What is left at a node is listed in order. -/
theorem pending_pairwise (hg : g.Consistent) (hn : g.IsNode n)
    {left : List (Incidence × PatternEdge)} (h : pending g n visited = .ok left) :
    left.Pairwise fun x y => Before x.1 y.1 := by
  obtain ⟨l, hl, -⟩ := hg.incidencesOf_ok hn
  simp only [pending, hl, bind, Except.bind, pure, Except.pure, Except.ok.injEq] at h
  subst h
  have hfst : ∀ {i : Incidence} {x : Incidence × PatternEdge},
      (if Handle.edge i.edge ∈ visited then none else (g.edge? i.edge).map (i, ·)) = some x →
      x.1 = i := by
    intro i x hx
    split at hx
    · exact nomatch hx
    · obtain ⟨e, -, rfl⟩ := Option.map_eq_some_iff.1 hx
      rfl
  refine List.Pairwise.filterMap _ ?_ (hg.incidencesOf_pairwise hn hl)
  intro i j hij x hx y hy
  rw [hfst hx, hfst hy]
  exact hij

/-- What holds of the nodes and edges that a chain from a node consumes. -/
structure Consumed (g₀ g : PatternGraph) (n : NodeId) (visited : List Handle) (c : Chain) :
    Prop where
  start : .node n ∈ c.elements
  terminal : .node c.terminal ∈ c.elements
  isPlace : ∀ m, .node m ∈ c.elements → g.IsPlace m
  /-- A node that is passed is unnamed and new, and all its edges are consumed. -/
  interior : ∀ m, .node m ∈ c.elements → m ≠ c.terminal →
    g.Unnamed (.node m) ∧ Handle.node m ∉ visited ∧
      ∀ i, g.Incident i → i.this = m → g.Structural i →
        .edge i.edge ∈ visited ∨ .edge i.edge ∈ c.elements
  edge : ∀ i, g.Incident i → .edge i.edge ∈ c.elements →
    Handle.edge i.edge ∉ visited ∧ g.Structural i ∧ g.Unnamed (.edge i.edge) ∧
      .node i.this ∈ c.elements
  closed : c.openEnd = false → g.Unnamed (.node c.terminal) → Handle.node c.terminal ∉ visited →
    ∀ i, g.Incident i → i.this = c.terminal → g.Structural i →
      .edge i.edge ∈ visited ∨ .edge i.edge ∈ c.elements
  opened : c.openEnd = true → g.Unnamed (.node c.terminal) ∧ Handle.node c.terminal ∉ visited ∧
    ∃ i, g.Incident i ∧ i.this = c.terminal ∧ g.Structural i ∧ ¬ g.Unnamed (.edge i.edge)
  constraint : ∀ i ∈ c.constraints, g.Incident i ∧ g.Precedes i ∧ .node i.this ∈ c.elements
  constrained : ∀ i, g.Incident i → g.Precedes i → .node i.this ∈ c.elements →
    i.this = c.terminal ∨ .edge i.edge ∈ visited ∨ i ∈ c.constraints
  joined : ∀ m, .node m ∈ c.elements → g₀.Joined n m
  /-- Some edge of the chain arrives at the terminal, unless the chain ends where it starts. -/
  arrival : c.terminal = n ∨ ∃ i, g.Incident i ∧ i.this = c.terminal ∧ .edge i.edge ∈ c.elements

theorem mem_constraints (hg : g.Consistent) (hn : g.IsNode n)
    {left : List (Incidence × PatternEdge)} (h : pending g n visited = .ok left) {i : Incidence} :
    i ∈ (left.filter (·.2.kind = .precedes)).map (·.1) ↔
      g.Incident i ∧ i.this = n ∧ Handle.edge i.edge ∉ visited ∧ g.Precedes i := by
  simp only [List.mem_map, List.mem_filter, decide_eq_true_eq]
  constructor
  · rintro ⟨⟨j, e⟩, ⟨hmem, hkind⟩, rfl⟩
    obtain ⟨hi, hthis, hnew, he⟩ := (mem_pending hg hn h).1 hmem
    exact ⟨hi, hthis, hnew, e, he, hkind⟩
  · rintro ⟨hi, hthis, hnew, e, he, hkind⟩
    exact ⟨(i, e), ⟨(mem_pending hg hn h).2 ⟨hi, hthis, hnew, he⟩, hkind⟩, rfl⟩

/-- Only the listed incidences are left to follow at a node. -/
theorem mem_structural (hg : g.Consistent) (hn : g.IsNode n)
    {left : List (Incidence × PatternEdge)} (h : pending g n (.node n :: visited) = .ok left)
    {i : Incidence} (hi : g.Incident i) (hthis : i.this = n) (hs : g.Structural i) :
    .edge i.edge ∈ visited ∨
      ∃ e, g.edge? i.edge = some e ∧ (i, e) ∈ left.filter (·.2.kind.structural) := by
  by_cases hv : Handle.edge i.edge ∈ visited
  · exact .inl hv
  · obtain ⟨e, he, hkind⟩ := hs
    have hnew : Handle.edge i.edge ∉ Handle.node n :: visited := by simpa using hv
    exact .inr ⟨e, he, List.mem_filter.2 ⟨(mem_pending hg hn h).2 ⟨hi, hthis, hnew, he⟩, hkind⟩⟩

/-- The only incidence that is left at a node is one of an edge of the model. -/
theorem incident_of_only (hg : g.Consistent) (hn : g.IsNode n)
    {left : List (Incidence × PatternEdge)} {i : Incidence} {e : PatternEdge}
    (h : pending g n (.node n :: visited) = .ok left)
    (honly : left.filter (·.2.kind.structural) = [(i, e)]) :
    g.Incident i ∧ i.this = n ∧ Handle.edge i.edge ∉ visited ∧ g.edge? i.edge = some e ∧
      g.Structural i := by
  have hmem : (i, e) ∈ left.filter (·.2.kind.structural) := by rw [honly]; simp
  obtain ⟨hpend, hkind⟩ := List.mem_filter.1 hmem
  obtain ⟨hi, hthis, hnew, he⟩ := (mem_pending hg hn h).1 hpend
  exact ⟨hi, hthis, fun hv => hnew (List.mem_cons_of_mem _ hv), he, e, he, hkind⟩

/-- Every other edge of the model at the node was visited. -/
theorem eq_of_only (hg : g.Consistent) (hn : g.IsNode n)
    {left : List (Incidence × PatternEdge)} {i : Incidence} {e : PatternEdge}
    (h : pending g n (.node n :: visited) = .ok left)
    (honly : left.filter (·.2.kind.structural) = [(i, e)]) (j : Incidence) (hj : g.Incident j)
    (hjn : j.this = n) (hjs : g.Structural j) : .edge j.edge ∈ visited ∨ j = i := by
  rcases mem_structural hg hn h hj hjn hjs with hv | ⟨e', -, hmem⟩
  · exact .inl hv
  · rw [honly, List.mem_singleton] at hmem
    exact .inr (congrArg Prod.fst hmem)

/-- A chain that ends where it starts. -/
theorem Consumed.single {constraints : List Incidence} {path : Path} {openEnd : Bool}
    (hn : g.IsPlace n)
    (hclosed : openEnd = false → g.Unnamed (.node n) → Handle.node n ∉ visited →
      ∀ i, g.Incident i → i.this = n → g.Structural i → .edge i.edge ∈ visited)
    (hopened : openEnd = true → g.Unnamed (.node n) ∧ Handle.node n ∉ visited ∧
      ∃ i, g.Incident i ∧ i.this = n ∧ g.Structural i ∧ ¬ g.Unnamed (.edge i.edge))
    (hconstraint : ∀ i ∈ constraints, g.Incident i ∧ g.Precedes i ∧ i.this = n) :
    Consumed g₀ g n visited
      { path, terminal := n, elements := [.node n], constraints, openEnd } where
  start := by simp
  terminal := by simp
  isPlace := by
    intro m hm
    obtain rfl : m = n := by simpa using hm
    exact hn
  interior := by
    intro m hm hne
    exact absurd (by simpa using hm) hne
  edge := by intro i _ hi; simp at hi
  closed := by
    intro ho hu hv i hi hthis hs
    exact .inl (hclosed ho hu hv i hi hthis hs)
  opened := hopened
  constraint := by
    intro i hi
    obtain ⟨hinc, hp, rfl⟩ := hconstraint i hi
    exact ⟨hinc, hp, by simp⟩
  constrained := by
    intro i _ _ hthis
    exact .inl (by simpa using hthis)
  joined := by
    intro m hm
    obtain rfl : m = n := by simpa using hm
    exact .refl
  arrival := .inl rfl

/-- A chain never comes back to a node at which only one edge was left. -/
theorem Consumed.not_back {i : Incidence} {rest : Chain} (hi : g.Incident i) (hs : g.Structural i)
    (hnew : Handle.edge i.edge ∉ visited)
    (honly : ∀ j, g.Incident j → j.this = n → g.Structural j → .edge j.edge ∈ visited ∨ j = i)
    (hrest : Consumed g₀ g i.that (.edge i.edge :: .node n :: visited) rest) :
    Handle.node n ∉ rest.elements := by
  intro hback
  have hterm : rest.terminal = n := by
    refine Classical.byContradiction fun hne => ?_
    exact (hrest.interior n hback (Ne.symm hne)).2.1 (by simp)
  rcases hrest.arrival with harr | ⟨j, hj, hjthis, hjmem⟩
  · -- a loop would be left twice, once in each direction
    rcases honly i.reverse hi.reverse (by rw [← hterm, harr]; rfl) hs with hv | heq
    · exact hnew hv
    · exact Incident.ne_reverse i heq
  · obtain ⟨hjnew, hjs, -, -⟩ := hrest.edge j hj hjmem
    rcases honly j hj (hjthis.trans hterm) hjs with hv | rfl
    · exact hjnew (by simp [hv])
    · exact hjnew (by simp)

/-- With one more step, the node in front of a chain is passed as well. -/
theorem Consumed.interior_step {i : Incidence} {rest : Chain} (hunnamed : g.Unnamed (.node n))
    (hfresh : Handle.node n ∉ visited)
    (honly : ∀ j, g.Incident j → j.this = n → g.Structural j → .edge j.edge ∈ visited ∨ j = i)
    (hrest : Consumed g₀ g i.that (.edge i.edge :: .node n :: visited) rest) {m : NodeId}
    (hm : .node m ∈ Handle.node n :: .edge i.edge :: rest.elements) (hne : m ≠ rest.terminal) :
    g.Unnamed (.node m) ∧ Handle.node m ∉ visited ∧
      ∀ j, g.Incident j → j.this = m → g.Structural j →
        .edge j.edge ∈ visited ∨ .edge j.edge ∈ Handle.node n :: .edge i.edge :: rest.elements := by
  rcases List.mem_cons.1 hm with hm | hm
  · cases hm
    refine ⟨hunnamed, hfresh, ?_⟩
    intro j hj hjn hjs
    rcases honly j hj hjn hjs with hv | rfl
    · exact .inl hv
    · exact .inr (by simp)
  · obtain ⟨hu, hv, hall⟩ := hrest.interior m (by simpa using hm) hne
    refine ⟨hu, fun hin => hv (by simp [hin]), ?_⟩
    intro j hj hjm hjs
    rcases hall j hj hjm hjs with hv | hin
    · rcases List.mem_cons.1 hv with hv | hv
      · exact .inr (by simp [hv])
      · exact .inl (by simpa using hv)
    · exact .inr (by simp [hin])

/-- With one more step, the edge of the step is one of the edges of a chain. -/
theorem Consumed.edge_step {i : Incidence} {e : PatternEdge} {rest : Chain} (hi : g.Incident i)
    (hthis : i.this = n) (hnew : Handle.edge i.edge ∉ visited) (he : g.edge? i.edge = some e)
    (hs : g.Structural i) (hanon : e.anonymous = true)
    (hrest : Consumed g₀ g i.that (.edge i.edge :: .node n :: visited) rest) {j : Incidence}
    (hj : g.Incident j) (hmem : .edge j.edge ∈ Handle.node n :: .edge i.edge :: rest.elements) :
    Handle.edge j.edge ∉ visited ∧ g.Structural j ∧ g.Unnamed (.edge j.edge) ∧
      .node j.this ∈ Handle.node n :: .edge i.edge :: rest.elements := by
  simp only [List.mem_cons, reduceCtorEq, Handle.edge.injEq, false_or] at hmem
  rcases hmem with heq | hmem
  · refine ⟨?_, ?_, ?_, ?_⟩
    · rw [heq]
      exact hnew
    · rcases hi.eq_or_eq_reverse hj heq with rfl | rfl
      · exact hs
      · exact hs.reverse
    · exact (unnamed_edge_iff (by rw [heq]; exact he)).2 hanon
    · rcases hi.eq_or_eq_reverse hj heq with rfl | rfl
      · simp [hthis]
      · simp [Incidence.reverse, hrest.start]
  · obtain ⟨hjnew, hjs, hju, hjthis⟩ := hrest.edge j hj hmem
    exact ⟨fun hin => hjnew (by simp [hin]), hjs, hju, by simp [hjthis]⟩

/-- With one more step, the constraints of the first node are put off as well. -/
theorem Consumed.constrained_step (hg : g.Consistent) {left : List (Incidence × PatternEdge)}
    {i : Incidence} {rest : Chain} (hn : g.IsNode n)
    (hleft : pending g n (.node n :: visited) = .ok left) (hs : g.Structural i)
    (hrest : Consumed g₀ g i.that (.edge i.edge :: .node n :: visited) rest) {j : Incidence}
    (hj : g.Incident j) (hp : g.Precedes j)
    (hmem : .node j.this ∈ Handle.node n :: .edge i.edge :: rest.elements) :
    j.this = rest.terminal ∨ .edge j.edge ∈ visited ∨
      j ∈ (left.filter (·.2.kind = .precedes)).map (·.1) ++ rest.constraints := by
  -- an edge that orders is not the structural one that the step follows
  have hpne : j.edge ≠ i.edge := by
    intro heq
    obtain ⟨e₁, he₁, hk₁⟩ := hs
    obtain ⟨e₂, he₂, hk₂⟩ := hp
    rw [heq, he₁] at he₂
    cases he₂
    rw [hk₂] at hk₁
    cases hk₁
  simp only [List.mem_cons, reduceCtorEq, Handle.node.injEq, false_or] at hmem
  rcases hmem with hjn | hmem
  · -- a constraint of this node is taken along now
    by_cases hv : Handle.edge j.edge ∈ visited
    · exact .inr (.inl hv)
    · exact .inr (.inr (List.mem_append_left _
        ((mem_constraints hg hn hleft).2 ⟨hj, hjn, by simpa using hv, hp⟩)))
  · -- one of a later node, by that part of the chain
    rcases hrest.constrained j hj hp hmem with ht | hv | hin
    · exact .inl ht
    · simp only [List.mem_cons, Handle.edge.injEq, reduceCtorEq, false_or] at hv
      exact .inr (.inl (hv.resolve_left hpne))
    · exact .inr (.inr (List.mem_append_right _ hin))

/-- One more step at the front of a chain. -/
theorem Consumed.step (hg : g.Consistent)
    (hsub : ∀ i, g.Incident i → g.Structural i → g₀.Adjacent i.this i.that)
    {left : List (Incidence × PatternEdge)} {i : Incidence} {e : PatternEdge} {rest : Chain}
    {path : Path} (hn : g.IsPlace n) (hunnamed : g.Unnamed (.node n))
    (hfresh : Handle.node n ∉ visited) (hleft : pending g n (.node n :: visited) = .ok left)
    (honly : left.filter (·.2.kind.structural) = [(i, e)]) (hanon : e.anonymous = true)
    (hrest : Consumed g₀ g i.that (.edge i.edge :: .node n :: visited) rest) :
    Consumed g₀ g n visited
      { path, terminal := rest.terminal
        elements := .node n :: .edge i.edge :: rest.elements
        constraints := (left.filter (·.2.kind = .precedes)).map (·.1) ++ rest.constraints
        openEnd := rest.openEnd } := by
  obtain ⟨hi, hthis, hnew, he, hs⟩ := incident_of_only hg hn.1 hleft honly
  -- the chain goes on along the only edge that is left at its first node
  have hleft' := eq_of_only hg hn.1 hleft honly
  have hnot : Handle.node n ∉ rest.elements := hrest.not_back hi hs hnew hleft'
  have hnet : n ≠ rest.terminal := fun heq => hnot (heq ▸ hrest.terminal)
  refine { start := by simp, terminal := by simp [hrest.terminal], isPlace := ?_,
           interior := fun m => hrest.interior_step hunnamed hfresh hleft'
           edge := fun j => hrest.edge_step hi hthis hnew he hs hanon
           closed := ?_, opened := ?_, constraint := ?_
           constrained := fun j => hrest.constrained_step hg hn.1 hleft hs
           joined := ?_, arrival := .inr ?_ }
  · intro m hm
    rcases List.mem_cons.1 hm with hm | hm
    · cases hm; exact hn
    · exact hrest.isPlace m (by simpa using hm)
  · intro ho hu hv j hj hjt hjs
    have hv' : Handle.node rest.terminal ∉ Handle.edge i.edge :: Handle.node n :: visited := by
      simp only [List.mem_cons, reduceCtorEq, Handle.node.injEq, false_or, not_or]
      exact ⟨Ne.symm hnet, hv⟩
    rcases hrest.closed ho hu hv' j hj hjt hjs with hin | hin
    · rcases List.mem_cons.1 hin with hin | hin
      · exact .inr (by simp [hin])
      · exact .inl (by simpa using hin)
    · exact .inr (by simp [hin])
  · intro ho
    obtain ⟨hu, hv, hnamed⟩ := hrest.opened ho
    exact ⟨hu, fun hin => hv (by simp [hin]), hnamed⟩
  · intro j hj
    rcases List.mem_append.1 hj with hj | hj
    · obtain ⟨hinc, hjn, -, hp⟩ := (mem_constraints hg hn.1 hleft).1 hj
      exact ⟨hinc, hp, by simp [hjn]⟩
    · obtain ⟨hinc, hp, hjthis⟩ := hrest.constraint j hj
      exact ⟨hinc, hp, by simp [hjthis]⟩
  · intro m hm
    simp only [List.mem_cons, reduceCtorEq, Handle.node.injEq, false_or] at hm
    rcases hm with rfl | hm
    · exact .refl
    · have hadj := hsub i hi hs
      rw [hthis] at hadj
      exact .head hadj (hrest.joined m hm)
  · rcases hrest.arrival with harr | ⟨j, hj, hjt, hjmem⟩
    · exact ⟨i.reverse, hi.reverse, harr.symm, by simp [Incidence.reverse]⟩
    · exact ⟨j, hj, hjt, by simp [hjmem]⟩

/-- What a chain consumes. -/
theorem Walks.consumed (hg : g.Regular cx)
    (hsub : ∀ i, g.Incident i → g.Structural i → g₀.Adjacent i.this i.that)
    (hn : g.IsPlace n) (h : Walks cx g n visited c) : Consumed g₀ g n visited c := by
  -- along the chain: what it consumes is its first node and what the rest of it consumes
  induction h with
  | @stop n nd visited node known =>
    -- a stop is at a node known or named, where nothing is asked of the edges left
    refine .single hn ?_ (by intro ho; cases ho) (by intro i hi; cases hi)
    intro _ hu hv
    rcases known with hnamed | hin
    · rw [unnamed_node_iff hn.1 node, hnamed] at hu
      cases hu
    · exact absurd hin hv
  | @last n nd visited left node fresh hleft closed =>
    refine .single hn ?_ (by intro ho; cases ho) ?_
    · -- every other edge was visited before
      intro _ _ _ i hi hthis hs
      rcases mem_structural hg.consistent hn.1 hleft hi hthis hs with hv | ⟨e, -, hmem⟩
      · exact hv
      · rw [closed] at hmem
        cases hmem
    · intro i hi
      obtain ⟨hinc, hthis, -, hp⟩ := (mem_constraints hg.consistent hn.1 hleft).1 hi
      exact ⟨hinc, hp, hthis⟩
  | @openEnd n nd visited left i e node fresh hleft only named =>
    simp only [not_or, Bool.not_eq_false] at fresh
    refine .single hn (by intro ho; cases ho) ?_ ?_
    · -- the one edge left has a name, which is what leaves the end open
      intro _
      obtain ⟨hi, hthis, -, he, hs⟩ := incident_of_only hg.consistent hn.1 hleft only
      refine ⟨(unnamed_node_iff hn.1 node).2 fresh.1, fresh.2, i, hi, hthis, hs, ?_⟩
      rw [unnamed_edge_iff he, named]
      exact Bool.false_ne_true
    · intro j hj
      obtain ⟨hinc, hjthis, -, hp⟩ := (mem_constraints hg.consistent hn.1 hleft).1 hj
      exact ⟨hinc, hp, hjthis⟩
  | @step n nd visited left i e segment rest node fresh hleft only anonymous _ _ ih =>
    simp only [not_or, Bool.not_eq_false] at fresh
    obtain ⟨hi, -, -, -, hs⟩ := incident_of_only hg.consistent hn.1 hleft only
    exact .step hg.consistent hsub hn ((unnamed_node_iff hn.1 node).2 fresh.1) fresh.2 hleft only
      anonymous (ih (hg.isPlace_that hi hs))

end Chain

end GraphPattern
