import GraphPattern.Proofs.Reading

/-!
# GraphPattern — the graph that tokens draw

Which lists of tokens have a graph, and which graph it is, said by the positions of the tokens and
without reading them one after the other. A token makes a node if it is a constraint or the first
node token of its name; a node token under a known name stands for the node that its first
namesake made. Edges and constraints make edges, to which what stands before and after them tells
the ends.

* `PatternGraph.Drawing.WellFormed` — the tokens that have a graph.
* `PatternGraph.Drawing.Draws` — what the graph is like as far as it is read.
* `PatternGraph.Drawing.ofTokens_draws` — tokens have a graph exactly if they are well-formed, and
  it is the one they draw.

Names and types are looked at in one pass, before it is known which names come later. That this
misses nothing is `wellFormed_iff`: the rules only ever look back.
-/

namespace GraphPattern

namespace PatternGraph.Drawing

/-! ## Positions -/

section Positions

variable (cx : Context) (ts : List Token)

/-- The name of the node token at a position. -/
def nodeNameAt (i : Nat) : Option String :=
  ts[i]?.bind Token.nodeName?

/-- The name of the edge token at a position. -/
def edgeNameAt (i : Nat) : Option String :=
  ts[i]?.bind Token.edgeName?

/-- Where the node of the token at a position is made: at the first node token of its name, or at
the token itself if it has none. -/
def home (i : Nat) : Nat :=
  match nodeNameAt ts i with
  | some name => ts.findIdx fun t => decide (t.nodeName? = some name)
  | none => i

/-- The node that the token at a position makes. -/
def madeNode? (i : Nat) : Option PatternNode :=
  match ts[i]? with
  | some (.node t) => if home ts i = i then some (placeNode cx t) else none
  | some (.constraint t) => some (constraintNode t)
  | _ => none

/-- The anchor, and the nodes made before a position. -/
def nodesBefore (i : Nat) : List PatternNode :=
  { kind := .anchor } :: (List.range i).filterMap (madeNode? cx ts)

/-- The node that the token at a position stands for. -/
def nodeAt (i : Nat) : NodeId :=
  ⟨(nodesBefore cx ts (home ts i)).length⟩

/-- The node of the nearest node token before a position, the anchor if there is none. -/
def currentBefore : Nat → NodeId
  | 0 => ⟨0⟩
  | i + 1 =>
    match ts[i]? with
    | some (.node _) => nodeAt cx ts i
    | _ => currentBefore i

/-- What a constraint at a position hangs on: the constraint right before it, or else the node of
the nearest node token. -/
def ownerAt : Nat → NodeId
  | 0 => ⟨0⟩
  | i + 1 =>
    match ts[i]? with
    | some (.constraint _) => nodeAt cx ts i
    | _ => currentBefore cx ts (i + 1)

/-- The edge that the token at a position makes. -/
def madeEdge? (i : Nat) : Option PatternEdge :=
  match ts[i]? with
  | some (.edge t) => some (placeEdge cx t (currentBefore cx ts i) (nodeAt cx ts (i + 1)))
  | some (.constraint _) => some (precedesEdge (ownerAt cx ts i) (nodeAt cx ts i))
  | _ => none

/-- The edges made before a position. -/
def edgesBefore (i : Nat) : List PatternEdge :=
  (List.range i).filterMap (madeEdge? cx ts)

/-! ## The rules and the graph -/

/-- The tokens that have a graph. Constraints have no names, whatever they bind. -/
structure WellFormed : Prop where
  /-- Every edge has a node to leave from. -/
  source : ∀ (i : Nat) (t : EdgeToken), ts[i]? = some (.edge t) →
    ∃ j < i, ∃ u : NodeToken, ts[j]? = some (.node u)
  /-- Every edge is followed by the node it leads to. -/
  target : ∀ (i : Nat) (t : EdgeToken), ts[i]? = some (.edge t) →
    ∃ u : NodeToken, ts[i + 1]? = some (.node u)
  /-- No argument has a type. -/
  plain : ∀ (i : Nat) (t : NodeToken), ts[i]? = some (.node t) →
    ∀ name ∈ cx.arguments, t.name? = some name → t.typeName? = none
  /-- The name of an edge is the name of no other token. -/
  unique : ∀ (i : Nat) (t : EdgeToken), ts[i]? = some (.edge t) → ∀ name, t.name? = some name →
    ∀ (j : Nat) (u : Token), ts[j]? = some u → u.name? = some name → j = i
  /-- Every type that a name is given is the type of its first node token. -/
  typed : ∀ (i : Nat) (t : NodeToken), ts[i]? = some (.node t) → ∀ name, t.name? = some name →
    (∀ k < i, nodeNameAt ts k ≠ some name) →
    ∀ (j : Nat) (u : NodeToken), ts[j]? = some (.node u) → u.name? = some name →
    ∀ type, u.typeName? = some type → t.typeName? = some type

/-- The graph has the nodes that are made by the first `a` tokens and the edges that are made by
the first `b` tokens, in the order of the tokens, and knows their names. -/
structure Draws (a b : Nat) (g : PatternGraph) : Prop where
  nodes : g.nodes = nodesBefore cx ts a
  edges : g.edges = edgesBefore cx ts b
  consistent : g.Consistent
  nodeNamed : ∀ name n, g.named? name = some (.node n) ↔
    ∃ i < a, nodeNameAt ts i = some name ∧ n = nodeAt cx ts i
  edgeNamed : ∀ name k, g.named? name = some (.edge k) ↔
    ∃ i < b, edgeNameAt ts i = some name ∧ k = ⟨(edgesBefore cx ts i).length⟩

end Positions

variable {cx : Context} {ts : List Token} {a b i j : Nat} {g g₁ : PatternGraph}

/-! ## Homes -/

theorem home_of_unnamed (h : nodeNameAt ts i = none) : home ts i = i := by
  rw [home, h]

theorem nodeNameAt_node {t : NodeToken} (h : ts[i]? = some (.node t)) :
    nodeNameAt ts i = t.name? := by
  rw [nodeNameAt, h]
  rfl

theorem edgeNameAt_edge {t : EdgeToken} (h : ts[i]? = some (.edge t)) :
    edgeNameAt ts i = t.name? := by
  rw [edgeNameAt, h]
  rfl

/-- The token at a home is a namesake, and there is none before it. -/
theorem home_spec {name : String} (h : nodeNameAt ts i = some name) :
    home ts i ≤ i ∧ nodeNameAt ts (home ts i) = some name ∧
      ∀ k < home ts i, nodeNameAt ts k ≠ some name := by
  obtain ⟨t, ht, hname⟩ := Option.bind_eq_some_iff.1 h
  obtain ⟨hi, hget⟩ := List.getElem?_eq_some_iff.1 ht
  -- a name's home is the first place that the name stands at
  have hhome : home ts i = ts.findIdx fun t => decide (t.nodeName? = some name) := by
    rw [home, h]
  have hle : home ts i ≤ i := by
    rw [hhome]
    refine Nat.le_of_not_lt fun hlt => ?_
    have := List.not_of_lt_findIdx hlt
    simp only [hget, hname, decide_true, Bool.true_eq_false] at this
  refine ⟨hle, ?_, fun k hk => ?_⟩
  · have hlt : ts.findIdx (fun t => decide (t.nodeName? = some name)) < ts.length := by
      rw [← hhome]
      exact Nat.lt_of_le_of_lt hle hi
    have := List.findIdx_getElem (w := hlt)
    rw [nodeNameAt, hhome, List.getElem?_eq_getElem hlt]
    exact of_decide_eq_true this
  · rw [hhome] at hk
    have hlt : k < ts.length := Nat.lt_of_lt_of_le hk List.findIdx_le_length
    have := List.not_of_lt_findIdx hk
    rw [nodeNameAt, List.getElem?_eq_getElem hlt]
    simpa using this

/-- A named node token is at home where no namesake stands before it. -/
theorem home_eq_self {name : String} (h : nodeNameAt ts i = some name) :
    home ts i = i ↔ ∀ k < i, nodeNameAt ts k ≠ some name := by
  obtain ⟨hle, hname, hfirst⟩ := home_spec h
  constructor
  · intro heq
    rwa [heq] at hfirst
  · intro hnone
    exact Nat.le_antisymm hle (Nat.le_of_not_lt fun hlt => hnone _ hlt hname)

theorem home_le (ts : List Token) (i : Nat) : home ts i ≤ i := by
  cases h : nodeNameAt ts i with
  | none => exact Nat.le_of_eq (home_of_unnamed h)
  | some name => exact (home_spec h).1

/-- Namesakes have one home. -/
theorem home_congr {name : String} (hi : nodeNameAt ts i = some name)
    (hj : nodeNameAt ts j = some name) : home ts i = home ts j := by
  rw [home, home, hi, hj]

theorem node_of_nodeNameAt {name : String} (h : nodeNameAt ts i = some name) :
    ∃ t, ts[i]? = some (.node t) ∧ t.name? = some name := by
  obtain ⟨t, ht, hname⟩ := Option.bind_eq_some_iff.1 h
  cases t with
  | node t => exact ⟨t, ht, hname⟩
  | edge t => cases hname
  | constraint t => cases hname

theorem edge_of_edgeNameAt {name : String} (h : edgeNameAt ts i = some name) :
    ∃ t, ts[i]? = some (.edge t) ∧ t.name? = some name := by
  obtain ⟨t, ht, hname⟩ := Option.bind_eq_some_iff.1 h
  cases t with
  | node t => cases hname
  | edge t => exact ⟨t, ht, hname⟩
  | constraint t => cases hname

/-- A home makes the node of its token. -/
theorem madeNode?_home (cx : Context) {t : NodeToken} (h : ts[i]? = some (.node t)) :
    ∃ first : NodeToken, ts[home ts i]? = some (.node first) ∧ first.name? = t.name? ∧
      madeNode? cx ts (home ts i) = some (placeNode cx first) := by
  cases hname : t.name? with
  | none =>
    have hhome := home_of_unnamed ((nodeNameAt_node h).trans hname)
    refine ⟨t, by rw [hhome, h], hname, ?_⟩
    simp only [madeNode?, hhome, h, if_true]
  | some name =>
    have hi := (nodeNameAt_node h).trans hname
    obtain ⟨-, hown, -⟩ := home_spec hi
    obtain ⟨first, hfirst, hfname⟩ := node_of_nodeNameAt hown
    refine ⟨first, hfirst, hfname, ?_⟩
    simp only [madeNode?, hfirst, home_congr hown hi, if_true]

/-! ## Nodes and edges by position -/

/-- A node is made by the first token of its node, or by a constraint token. -/
theorem madeNode?_cases {nd : PatternNode} (h : madeNode? cx ts i = some nd) :
    (∃ t, ts[i]? = some (.node t) ∧ home ts i = i ∧ nd = placeNode cx t) ∨
      ∃ t, ts[i]? = some (.constraint t) ∧ nd = constraintNode t := by
  rw [madeNode?] at h
  split at h
  · rename_i t ht
    split at h
    · rename_i hhome
      exact .inl ⟨t, ht, hhome, (Option.some.inj h).symm⟩
    · cases h
  · rename_i t ht
    exact .inr ⟨t, ht, (Option.some.inj h).symm⟩
  · cases h

theorem madeNode?_constraint (cx : Context) {t : ConstraintToken}
    (h : ts[i]? = some (.constraint t)) : madeNode? cx ts i = some (constraintNode t) := by
  rw [madeNode?, h]

theorem madeEdge?_edge (cx : Context) {t : EdgeToken} (h : ts[i]? = some (.edge t)) :
    madeEdge? cx ts i = some (placeEdge cx t (currentBefore cx ts i) (nodeAt cx ts (i + 1))) := by
  rw [madeEdge?, h]

theorem madeEdge?_constraint (cx : Context) {t : ConstraintToken}
    (h : ts[i]? = some (.constraint t)) :
    madeEdge? cx ts i = some (precedesEdge (ownerAt cx ts i) (nodeAt cx ts i)) := by
  rw [madeEdge?, h]

/-- An edge is made by an edge token, or by a constraint token. -/
theorem madeEdge?_cases {e : PatternEdge} (h : madeEdge? cx ts i = some e) :
    (∃ t, ts[i]? = some (.edge t) ∧
        e = placeEdge cx t (currentBefore cx ts i) (nodeAt cx ts (i + 1))) ∨
      ∃ t, ts[i]? = some (.constraint t) ∧
        e = precedesEdge (ownerAt cx ts i) (nodeAt cx ts i) := by
  rw [madeEdge?] at h
  split at h
  · rename_i t ht
    exact .inl ⟨t, ht, (Option.some.inj h).symm⟩
  · rename_i t ht
    exact .inr ⟨t, ht, (Option.some.inj h).symm⟩
  · cases h

theorem nodesBefore_succ_some {nd : PatternNode} (h : madeNode? cx ts i = some nd) :
    nodesBefore cx ts (i + 1) = nodesBefore cx ts i ++ [nd] := by
  simp [nodesBefore, List.range_succ, h]

theorem nodesBefore_succ_none (h : madeNode? cx ts i = none) :
    nodesBefore cx ts (i + 1) = nodesBefore cx ts i := by
  simp [nodesBefore, List.range_succ, h]

theorem edgesBefore_succ_some {e : PatternEdge} (h : madeEdge? cx ts i = some e) :
    edgesBefore cx ts (i + 1) = edgesBefore cx ts i ++ [e] := by
  simp [edgesBefore, List.range_succ, h]

theorem edgesBefore_succ_none (h : madeEdge? cx ts i = none) :
    edgesBefore cx ts (i + 1) = edgesBefore cx ts i := by
  simp [edgesBefore, List.range_succ, h]

theorem nodesBefore_prefix (cx : Context) (ts : List Token) (h : i ≤ j) :
    nodesBefore cx ts i <+: nodesBefore cx ts j := by
  induction h with
  | refl => exact List.prefix_rfl
  | @step j _ ih =>
    cases hmade : madeNode? cx ts j with
    | none => rwa [nodesBefore_succ_none hmade]
    | some nd =>
      rw [nodesBefore_succ_some hmade]
      exact ih.trans (List.prefix_append _ _)

/-- The nodes made before a position are numbered. -/
theorem nodesBefore_getElem? {nd : PatternNode} (hij : i < j) (h : madeNode? cx ts i = some nd) :
    (nodesBefore cx ts j)[(nodesBefore cx ts i).length]? = some nd := by
  obtain ⟨rest, hrest⟩ := nodesBefore_prefix cx ts hij
  rw [← hrest, nodesBefore_succ_some h, List.append_assoc,
    List.getElem?_append_right (Nat.le_refl _)]
  simp

/-- No token stands for the anchor. -/
theorem nodeAt_ne_anchor : nodeAt cx ts i ≠ ⟨0⟩ := by
  simp only [nodeAt, nodesBefore, List.length_cons, ne_eq, NodeId.mk.injEq]
  omega

/-- The current node is the anchor until there is a node token. -/
theorem currentBefore_eq_anchor :
    currentBefore cx ts i = ⟨0⟩ ↔ ∀ j < i, ∀ t : NodeToken, ts[j]? ≠ some (.node t) := by
  induction i with
  | zero => exact ⟨fun _ j hj => absurd hj (Nat.not_lt_zero j), fun _ => rfl⟩
  | succ i ih =>
    rw [currentBefore]
    split
    · rename_i t ht
      exact iff_of_false nodeAt_ne_anchor fun h => h i (Nat.lt_succ_self i) t ht
    · rename_i hno
      rw [ih]
      constructor
      · intro h j hj t
        rcases Nat.lt_succ_iff_lt_or_eq.1 hj with hj | rfl
        · exact h j hj t
        · exact hno t
      · intro h j hj
        exact h j (Nat.lt_succ_of_lt hj)

/-! ## Growing -/

/-- A name may be given a meaning before the others. -/
theorem lookup_define (names : List (String × Handle)) (own? : Option String) (h : Handle)
    (name : String) :
    List.lookup name (match own? with
      | some own => (own, h) :: names
      | none => names) = if own? = some name then some h else names.lookup name := by
  cases own? with
  | none => rfl
  | some own =>
    rw [List.lookup_cons]
    by_cases heq : name = own
    · simp [heq]
    · simp [beq_eq_false_iff_ne.2 heq, Ne.symm heq]

theorem named?_addNode (g : PatternGraph) (nd : PatternNode) (name : String) :
    (g.addNode nd).2.named? name =
      if nd.name? = some name then some (.node ⟨g.nodes.length⟩) else g.named? name :=
  lookup_define _ _ _ _

namespace Draws

theorem empty (cx : Context) (ts : List Token) : Draws cx ts 0 0 .empty where
  nodes := rfl
  edges := rfl
  consistent := .empty
  nodeNamed := by simp [named?, PatternGraph.empty]
  edgeNamed := by simp [named?, PatternGraph.empty]

/-- A name is free as long as no token that is read has it. -/
theorem named?_eq_none (h : Draws cx ts a b g) {name : String} :
    g.named? name = none ↔
      (∀ i < a, nodeNameAt ts i ≠ some name) ∧ ∀ i < b, edgeNameAt ts i ≠ some name := by
  constructor
  · intro hnone
    refine ⟨fun i hi hname => ?_, fun i hi hname => ?_⟩
    · rw [(h.nodeNamed name _).2 ⟨i, hi, hname, rfl⟩] at hnone
      cases hnone
    · rw [(h.edgeNamed name _).2 ⟨i, hi, hname, rfl⟩] at hnone
      cases hnone
  · rintro ⟨hnodes, hedges⟩
    cases hnamed : g.named? name with
    | none => rfl
    | some k =>
      cases k with
      | node n =>
        obtain ⟨i, hi, hname, -⟩ := (h.nodeNamed name n).1 hnamed
        exact absurd hname (hnodes i hi)
      | edge k =>
        obtain ⟨i, hi, hname, -⟩ := (h.edgeNamed name k).1 hnamed
        exact absurd hname (hedges i hi)

theorem nodeAt_eq (h : Draws cx ts a b g) (hhome : home ts a = a) :
    nodeAt cx ts a = ⟨g.nodes.length⟩ := by
  rw [nodeAt, hhome, h.nodes]

/-- A token that makes no node and has no new name changes nothing. -/
theorem skipNode (h : Draws cx ts a b g) (hmade : madeNode? cx ts a = none)
    (hknown : ∀ name, nodeNameAt ts a = some name →
      g.named? name = some (.node (nodeAt cx ts a))) : Draws cx ts (a + 1) b g where
  nodes := by rw [nodesBefore_succ_none hmade, h.nodes]
  edges := h.edges
  consistent := h.consistent
  nodeNamed := by
    intro name n
    rw [Nat.exists_lt_succ_right, ← h.nodeNamed]
    refine (or_iff_left_of_imp ?_).symm
    rintro ⟨hname, rfl⟩
    exact hknown name hname
  edgeNamed := h.edgeNamed

/-- A token that makes no edge changes nothing. -/
theorem skipEdge (h : Draws cx ts a b g) (hmade : madeEdge? cx ts b = none)
    (hname : edgeNameAt ts b = none) : Draws cx ts a (b + 1) g where
  nodes := h.nodes
  edges := by rw [edgesBefore_succ_none hmade, h.edges]
  consistent := h.consistent
  nodeNamed := h.nodeNamed
  edgeNamed := by
    intro name k
    rw [Nat.exists_lt_succ_right, ← h.edgeNamed, hname]
    exact (or_iff_left nofun).symm

/-- The node that a token makes is added under a free name. -/
theorem addNode (h : Draws cx ts a b g) {nd : PatternNode} (hmade : madeNode? cx ts a = some nd)
    (hhome : home ts a = a) (hname : nodeNameAt ts a = nd.name?)
    (hfree : ∀ name, nd.name? = some name → g.named? name = none) :
    Draws cx ts (a + 1) b (g.addNode nd).2 where
  nodes := by
    rw [nodesBefore_succ_some hmade, ← h.nodes]
    rfl
  edges := h.edges
  consistent := h.consistent.addNode nd
  nodeNamed := by
    intro name n
    rw [named?_addNode, ← hname, Nat.exists_lt_succ_right, ← h.nodeNamed, h.nodeAt_eq hhome]
    split
    · -- the name of the new node, which nothing had before
      rename_i hown
      simp only [hfree name (hname ▸ hown), hown, true_and, reduceCtorEq, false_or,
        Option.some.injEq, Handle.node.injEq, eq_comm]
    · rename_i hother
      simp only [hother, false_and, or_false]
  edgeNamed := by
    intro name k
    rw [named?_addNode, ← h.edgeNamed]
    split
    · -- a name of the new node was no edge's
      rename_i hown
      simp only [hfree name hown, Option.some.injEq, reduceCtorEq]
    · rfl

/-- The edge that a token makes is added between nodes that exist, under a free name. -/
theorem addEdge (h : Draws cx ts a b g) {e : PatternEdge} (hmade : madeEdge? cx ts b = some e)
    (hname : edgeNameAt ts b = e.name?)
    (hfree : ∀ name, e.name? = some name → g.named? name = none) (ha : g.IsNode e.alpha)
    (ho : g.IsNode e.omega) :
    ∃ g', g.addEdge e = (.ok ⟨g.edges.length⟩, g') ∧ Draws cx ts a (b + 1) g' := by
  obtain ⟨g', hadd, hcons, hnodes, hedges, hnames⟩ := h.consistent.addEdge e ha ho
  have hnamed : ∀ name, g'.named? name =
      if e.name? = some name then some (.edge ⟨g.edges.length⟩) else g.named? name := by
    intro name
    rw [named?, hnames]
    exact lookup_define _ _ _ _
  refine ⟨g', hadd, hnodes.trans h.nodes, ?_, hcons, ?_, ?_⟩
  · rw [edgesBefore_succ_some hmade, ← h.edges, hedges]
  · intro name n
    rw [hnamed, ← h.nodeNamed]
    split
    · -- a name of the new edge was no node's
      rename_i hown
      simp only [hfree name hown, Option.some.injEq, reduceCtorEq]
    · rfl
  · intro name k
    rw [hnamed, Nat.exists_lt_succ_right, ← h.edgeNamed, hname, ← h.edges]
    split
    · -- the name of the new edge, which nothing had before
      rename_i hown
      simp only [hfree name hown, hown, true_and, reduceCtorEq, false_or, Option.some.injEq,
        Handle.edge.injEq, eq_comm]
    · rename_i hother
      simp only [hother, false_and, or_false]

/-- The nodes of tokens that are read are nodes of the graph, and look as their tokens say. -/
theorem node?_nodeAt (h : Draws cx ts a b g) {nd : PatternNode} (hi : i < a)
    (hmade : madeNode? cx ts (home ts i) = some nd) :
    g.IsNode (nodeAt cx ts i) ∧ g.node? (nodeAt cx ts i) = some nd := by
  have hget := nodesBefore_getElem? (Nat.lt_of_le_of_lt (home_le ts i) hi) hmade
  rw [← h.nodes] at hget
  exact ⟨⟨_, rfl, (List.getElem?_eq_some_iff.1 hget).1⟩, by rw [nodeAt, node?_natCast, hget]⟩

/-- The node of a node token looks as the first of its name says. -/
theorem node?_of_node (h : Draws cx ts a b g) {t : NodeToken} (hi : i < a)
    (ht : ts[i]? = some (.node t)) :
    ∃ first : NodeToken, ts[home ts i]? = some (.node first) ∧ first.name? = t.name? ∧
      g.IsNode (nodeAt cx ts i) ∧ g.node? (nodeAt cx ts i) = some (placeNode cx first) := by
  obtain ⟨first, hfirst, hname, hmade⟩ := madeNode?_home cx ht
  exact ⟨first, hfirst, hname, h.node?_nodeAt hi hmade⟩

theorem isNode_of_constraint (h : Draws cx ts a b g) {t : ConstraintToken} (hi : i < a)
    (ht : ts[i]? = some (.constraint t)) : g.IsNode (nodeAt cx ts i) := by
  have hhome : home ts i = i := home_of_unnamed (by rw [nodeNameAt, ht]; rfl)
  have hmade : madeNode? cx ts (home ts i) = some (constraintNode t) := by
    rw [hhome, madeNode?, ht]
  exact (h.node?_nodeAt hi hmade).1

theorem isNode_anchor (h : Draws cx ts a b g) : g.IsNode ⟨0⟩ :=
  ⟨0, rfl, h.consistent.inhabited⟩

theorem isNode_currentBefore (h : Draws cx ts a b g) (hi : i ≤ a) :
    g.IsNode (currentBefore cx ts i) := by
  induction i with
  | zero => exact h.isNode_anchor
  | succ i ih =>
    rw [currentBefore]
    split
    · rename_i t ht
      exact (h.node?_of_node hi ht).choose_spec.2.2.1
    · exact ih (Nat.le_of_succ_le hi)

theorem isNode_ownerAt (h : Draws cx ts a b g) (hi : i ≤ a) : g.IsNode (ownerAt cx ts i) := by
  cases i with
  | zero => exact h.isNode_anchor
  | succ i =>
    rw [ownerAt]
    split
    · rename_i t ht
      exact h.isNode_of_constraint hi ht
    · exact h.isNode_currentBefore hi

end Draws

/-! ## The rules, token by token -/

/-- What a node token may not contradict: that arguments have no types, the names of edges before
`b`, and the type of its first namesake. -/
structure NodeRule (cx : Context) (ts : List Token) (b i : Nat) (t : NodeToken) : Prop where
  plain : namesArgument cx t.name? = true → t.typeName? = none
  noEdge : ∀ name, t.name? = some name → ∀ j < b, edgeNameAt ts j ≠ some name
  typed : ∀ first : NodeToken, ts[home ts i]? = some (.node first) →
    ∀ type, t.typeName? = some type → first.typeName? = some type

theorem NodeRule.mono {c : Nat} {t : NodeToken} (h : NodeRule cx ts c i t) (hb : b ≤ c) :
    NodeRule cx ts b i t where
  plain := h.plain
  noEdge := fun name hname j hj => h.noEdge name hname j (Nat.lt_of_lt_of_le hj hb)
  typed := h.typed

/-- What an edge token needs: a node before it, one right after it, and a name that no token before
it has. -/
structure EdgeRule (ts : List Token) (i : Nat) (t : EdgeToken) : Prop where
  source : ∃ j < i, ∃ u : NodeToken, ts[j]? = some (.node u)
  target : ∃ u : NodeToken, ts[i + 1]? = some (.node u)
  free : ∀ name, t.name? = some name → ∀ j < i,
    nodeNameAt ts j ≠ some name ∧ edgeNameAt ts j ≠ some name

/-- The token at a position fits what stands before it. -/
def Fits (cx : Context) (ts : List Token) (i : Nat) : Prop :=
  (∀ t, ts[i]? = some (.node t) → NodeRule cx ts i i t) ∧
    ∀ t, ts[i]? = some (.edge t) → EdgeRule ts i t

theorem fits_node {t : NodeToken} (h : ts[i]? = some (.node t)) :
    Fits cx ts i ↔ NodeRule cx ts i i t := by
  simp [Fits, h]

theorem fits_edge {t : EdgeToken} (h : ts[i]? = some (.edge t)) :
    Fits cx ts i ↔ EdgeRule ts i t := by
  simp [Fits, h]

theorem fits_constraint {t : ConstraintToken} (h : ts[i]? = some (.constraint t)) :
    Fits cx ts i := by
  simp [Fits, h]

theorem name?_of_nodeNameAt {name : String} {u : Token} (hu : ts[j]? = some u) :
    u.name? = some name ↔ nodeNameAt ts j = some name ∨ edgeNameAt ts j = some name := by
  rw [nodeNameAt, edgeNameAt, hu]
  cases u <;> simp [Token.name?, Token.nodeName?, Token.edgeName?]

/-- Tokens are well-formed if each fits what stands before it. -/
theorem wellFormed_iff : WellFormed cx ts ↔ ∀ i, Fits cx ts i := by
  constructor
  · intro h i
    refine ⟨fun t ht => ?_, fun t ht => ?_⟩
    · refine ⟨fun harg => ?_, fun name hname j hj hedge => ?_, fun first hfirst type htype => ?_⟩
      · obtain ⟨name, hmem, hname⟩ := namesArgument_iff.1 harg
        exact h.plain i t ht name hmem hname
      · obtain ⟨e, he, hown⟩ := edge_of_edgeNameAt hedge
        exact absurd (h.unique j e he name hown i _ ht hname) (Nat.ne_of_gt hj)
      · cases hname : t.name? with
        | none =>
          rw [home_of_unnamed ((nodeNameAt_node ht).trans hname), ht] at hfirst
          cases hfirst
          exact htype
        | some name =>
          obtain ⟨-, hown, hnone⟩ := home_spec ((nodeNameAt_node ht).trans hname)
          exact h.typed _ first hfirst name ((nodeNameAt_node hfirst).symm.trans hown) hnone i t ht
            hname type htype
    · refine ⟨h.source i t ht, h.target i t ht, fun name hname j hj => ?_⟩
      rw [← not_or]
      intro hor
      cases hu : ts[j]? with
      | none => simp [nodeNameAt, edgeNameAt, hu] at hor
      | some u =>
        exact absurd (h.unique i t ht name hname j u hu ((name?_of_nodeNameAt hu).2 hor))
          (Nat.ne_of_lt hj)
  · intro h
    refine ⟨fun i t ht => ((h i).2 t ht).source, fun i t ht => ((h i).2 t ht).target, ?_, ?_, ?_⟩
    · intro i t ht name hmem hname
      exact ((h i).1 t ht).plain (namesArgument_iff.2 ⟨name, hmem, hname⟩)
    · intro i t ht name hname j u hu huname
      rcases Nat.lt_trichotomy j i with hlt | heq | hlt
      · -- the edge is the later of the two
        obtain ⟨hnode, hedge⟩ := ((h i).2 t ht).free name hname j hlt
        exact absurd ((name?_of_nodeNameAt hu).1 huname) (not_or.2 ⟨hnode, hedge⟩)
      · exact heq
      · -- the edge is the earlier of the two
        have hown : edgeNameAt ts i = some name := (edgeNameAt_edge ht).trans hname
        cases u with
        | node u => exact absurd hown (((h j).1 u hu).noEdge name huname i hlt)
        | edge u => exact absurd hown (((h j).2 u hu).free name huname i hlt).2
        | constraint u => cases huname
    · intro i t ht name hname hfirst j u hu huname type htype
      have hi : nodeNameAt ts i = some name := (nodeNameAt_node ht).trans hname
      have hj : nodeNameAt ts j = some name := (nodeNameAt_node hu).trans huname
      refine ((h j).1 u hu).typed t ?_ type htype
      rw [home_congr hj hi, (home_eq_self hi).2 hfirst, ht]

/-! ## Reading one token -/

namespace Draws

theorem isNode_nodeAt (h : Draws cx ts a b g) {t : NodeToken} (hi : i < a)
    (ht : ts[i]? = some (.node t)) : g.IsNode (nodeAt cx ts i) :=
  (h.node?_of_node hi ht).choose_spec.2.2.1

/-- The node of a name has the type of the first node token of the name. -/
theorem typeName?_of_named? (h : Draws cx ts a b g) {t : NodeToken} {name : String} {n : NodeId}
    (ht : ts[a]? = some (.node t)) (hname : t.name? = some name)
    (hnamed : g.named? name = some (.node n)) :
    n = nodeAt cx ts a ∧ ∃ first : NodeToken, ts[home ts a]? = some (.node first) ∧
      home ts a ≠ a ∧ (g.node? n).bind (·.typeName?) = first.typeName? := by
  obtain ⟨i, hi, hown, rfl⟩ := (h.nodeNamed name n).1 hnamed
  have hhome : home ts a = home ts i := home_congr ((nodeNameAt_node ht).trans hname) hown
  obtain ⟨u, hu, -⟩ := node_of_nodeNameAt hown
  obtain ⟨first, hfirst, -, -, hnode⟩ := h.node?_of_node hi hu
  refine ⟨by rw [nodeAt, nodeAt, hhome], first, by rw [hhome, hfirst], ?_, by rw [hnode]; rfl⟩
  rw [hhome]
  exact Nat.ne_of_lt (Nat.lt_of_le_of_lt (home_le ts i) hi)

/-- A node token that is read fits, and stands for its node from then on. -/
theorem resolve (h : Draws cx ts a b g) {t : NodeToken} {n : NodeId}
    (ht : ts[a]? = some (.node t)) (hread : Reading.resolve cx g t = .ok (n, g₁)) :
    n = nodeAt cx ts a ∧ NodeRule cx ts b a t ∧ Draws cx ts (a + 1) b g₁ := by
  have hplain := Reading.plain_of_resolve hread
  rcases Reading.resolve_cases hread with ⟨name, hname, hnamed, rfl, htype⟩ | ⟨hadd, hfree, -⟩
  · -- the name stands before: its node is the one drawn there, and nothing is added
    obtain ⟨rfl, first, hfirst, hne, hdeclared⟩ := h.typeName?_of_named? ht hname hnamed
    refine ⟨rfl, ⟨hplain, fun own hown j hj hedge => ?_, fun u hu type ht' => ?_⟩, ?_⟩
    · cases hname.symm.trans hown
      rw [(h.edgeNamed name _).2 ⟨j, hj, hedge, rfl⟩] at hnamed
      cases hnamed
    · rw [hfirst] at hu
      cases hu
      rw [← hdeclared]
      exact htype type ht'
    · refine h.skipNode ?_ fun own hown => ?_
      · simp only [madeNode?, ht, if_neg hne]
      · rw [nodeNameAt_node ht, hname] at hown
        cases hown
        exact hnamed
  · -- the token is the first of its name, or has none: it draws a node
    obtain rfl : n = ⟨g.nodes.length⟩ := congrArg Prod.fst hadd
    obtain rfl : g₁ = (g.addNode (placeNode cx t)).2 := congrArg Prod.snd hadd
    have hhome : home ts a = a := by
      cases hname : t.name? with
      | none => exact home_of_unnamed ((nodeNameAt_node ht).trans hname)
      | some name =>
        exact (home_eq_self ((nodeNameAt_node ht).trans hname)).2
          (h.named?_eq_none.1 (hfree name hname)).1
    refine ⟨(h.nodeAt_eq hhome).symm, ⟨hplain, fun name hname => ?_, fun u hu type htype => ?_⟩, ?_⟩
    · exact (h.named?_eq_none.1 (hfree name hname)).2
    · rw [hhome, ht] at hu
      cases hu
      exact htype
    · exact h.addNode (by simp only [madeNode?, ht, if_pos hhome]) hhome (nodeNameAt_node ht) hfree

/-- A node token that fits is read. -/
theorem exists_resolve (h : Draws cx ts a b g) {t : NodeToken} (ht : ts[a]? = some (.node t))
    (hrule : NodeRule cx ts b a t) : ∃ n g₁, Reading.resolve cx g t = .ok (n, g₁) := by
  by_cases hnew : ∀ name, t.name? = some name → g.named? name = none
  · exact ⟨_, _, Reading.resolve_new hnew hrule.plain⟩
  · simp only [not_forall] at hnew
    obtain ⟨name, hname, hsome⟩ := hnew
    cases hnamed : g.named? name with
    | none => exact absurd hnamed hsome
    | some k =>
      cases k with
      | edge k =>
        obtain ⟨j, hj, hedge, -⟩ := (h.edgeNamed name k).1 hnamed
        exact absurd hedge (hrule.noEdge name hname j hj)
      | node n =>
        obtain ⟨-, first, hfirst, -, hdeclared⟩ := h.typeName?_of_named? ht hname hnamed
        refine ⟨n, g, Reading.resolve_known hname hnamed hrule.plain fun type htype => ?_⟩
        rw [hdeclared]
        exact hrule.typed first hfirst type htype

theorem isNode_ends (h : Draws cx ts a b g) {t : EdgeToken} {u : NodeToken} (hb : b + 1 < a)
    (hu : ts[b + 1]? = some (.node u)) :
    g.IsNode (placeEdge cx t (currentBefore cx ts b) (nodeAt cx ts (b + 1))).alpha ∧
      g.IsNode (placeEdge cx t (currentBefore cx ts b) (nodeAt cx ts (b + 1))).omega :=
  Reading.isNode_placeEdge cx t (h.isNode_currentBefore (by omega)) (h.isNode_nodeAt hb hu)

/-- An edge token that is read has a free name, and its edge is there from then on. -/
theorem connect (h : Draws cx ts a b g) {t : EdgeToken} {u : NodeToken}
    (ht : ts[b]? = some (.edge t)) (hb : b + 1 < a) (hu : ts[b + 1]? = some (.node u))
    (hread : Reading.connect cx g t (currentBefore cx ts b) (nodeAt cx ts (b + 1)) = .ok g₁) :
    (∀ name, t.name? = some name → g.named? name = none) ∧ Draws cx ts a (b + 1) g₁ := by
  obtain ⟨hfree, k, hadd⟩ := Reading.connect_ok hread
  obtain ⟨ha, ho⟩ := h.isNode_ends (t := t) hb hu
  obtain ⟨g', hadd', hdraws⟩ := h.addEdge (madeEdge?_edge cx ht) (edgeNameAt_edge ht) hfree ha ho
  rw [hadd] at hadd'
  cases hadd'
  exact ⟨hfree, hdraws⟩

/-- An edge token with a free name is read. -/
theorem exists_connect (h : Draws cx ts a b g) {t : EdgeToken} {u : NodeToken}
    (ht : ts[b]? = some (.edge t)) (hb : b + 1 < a) (hu : ts[b + 1]? = some (.node u))
    (hfree : ∀ name, t.name? = some name → g.named? name = none) :
    ∃ g₁, Reading.connect cx g t (currentBefore cx ts b) (nodeAt cx ts (b + 1)) = .ok g₁ := by
  obtain ⟨ha, ho⟩ := h.isNode_ends (t := t) hb hu
  obtain ⟨g', hadd, -⟩ := h.addEdge (madeEdge?_edge cx ht) (edgeNameAt_edge ht) hfree ha ho
  exact ⟨g', by rw [Reading.connect_fresh _ _ hfree, Reading.link, hadd]⟩

end Draws

/-! ## Reading all tokens -/

theorem getElem?_of_drop {α : Type _} {l rest : List α} {x : α} (h : l.drop i = x :: rest) :
    l[i]? = some x ∧ l.drop (i + 1) = rest := by
  refine ⟨by rw [← List.head?_drop, h]; rfl, ?_⟩
  rw [← List.tail_drop, h]
  rfl

/-- What holds at a position and after it holds from the position on. -/
theorem forall_from {P : Nat → Prop} (h : P i) (hall : ∀ j, i + 1 ≤ j → P j) (j : Nat)
    (hj : i ≤ j) : P j := by
  rcases Nat.eq_or_lt_of_le hj with rfl | hj
  · exact h
  · exact hall j hj

/-- Where a reading stands that has come to a position. -/
structure Stands (cx : Context) (ts : List Token) (i : Nat) (r : Reading) : Prop where
  draws : Draws cx ts i i r.graph
  current : r.current = currentBefore cx ts i
  owner : r.lastConstraint?.getD r.current = ownerAt cx ts i

namespace Stands

variable {r r' : Reading}

theorem start (cx : Context) (ts : List Token) : Stands cx ts 0 {} :=
  ⟨.empty cx ts, rfl, rfl⟩

theorem after_node {t : NodeToken} (hdraws : Draws cx ts (i + 1) (i + 1) g)
    (ht : ts[i]? = some (.node t)) :
    Stands cx ts (i + 1) { graph := g, current := nodeAt cx ts i } := by
  have hcurrent : nodeAt cx ts i = currentBefore cx ts (i + 1) := by rw [currentBefore, ht]
  exact ⟨hdraws, hcurrent, by rw [ownerAt, ht]; exact hcurrent⟩

theorem node (h : Stands cx ts i r) {t : NodeToken} {n : NodeId} (ht : ts[i]? = some (.node t))
    (hread : Reading.resolve cx r.graph t = .ok (n, g)) :
    Fits cx ts i ∧ Stands cx ts (i + 1) { graph := g, current := n } := by
  obtain ⟨rfl, hrule, hdraws⟩ := h.draws.resolve ht hread
  have hskip := hdraws.skipEdge (by rw [madeEdge?, ht]) (by rw [edgeNameAt, ht]; rfl)
  exact ⟨(fits_node ht).2 hrule, after_node hskip ht⟩

/-- A constraint is always read. -/
theorem constraint (h : Stands cx ts i r) {t : ConstraintToken}
    (ht : ts[i]? = some (.constraint t)) :
    ∃ r', r.constrain t = .ok r' ∧ Stands cx ts (i + 1) r' := by
  have hunnamed : nodeNameAt ts i = none := by rw [nodeNameAt, ht]; rfl
  have hhome := home_of_unnamed hunnamed
  have hmade := madeNode?_constraint cx ht
  have hnode := h.draws.addNode hmade hhome hunnamed nofun
  have hself : nodeAt cx ts i = ⟨r.graph.nodes.length⟩ := h.draws.nodeAt_eq hhome
  have hends := hnode.isNode_ownerAt (Nat.le_succ i)
  obtain ⟨g', hadd, hdraws⟩ := hnode.addEdge (madeEdge?_constraint cx ht)
    (by rw [edgeNameAt, ht]; rfl) nofun hends (hnode.isNode_of_constraint (Nat.lt_succ_self i) ht)
  have hlink : Reading.link (r.graph.addNode (constraintNode t)).2
      (precedesEdge (r.lastConstraint?.getD r.current) ⟨r.graph.nodes.length⟩) = .ok g' := by
    rw [h.owner, ← hself, Reading.link, hadd]
  refine ⟨_, Reading.constrain_of_link hlink, hdraws, ?_, ?_⟩
  · rw [currentBefore, ht]
    exact h.current
  · rw [ownerAt, ht, hself]
    rfl

theorem source_iff (h : Stands cx ts i r) : r.current ≠ r.graph.anchor ↔
    ∃ j < i, ∃ u : NodeToken, ts[j]? = some (.node u) := by
  rw [h.current, show r.graph.anchor = ⟨0⟩ from rfl, ne_eq, currentBefore_eq_anchor]
  simp only [ne_eq, not_forall, not_not, exists_prop]

/-- The graph before the node that an edge leads to is read. -/
theorem draws_edge (h : Stands cx ts i r) {t : EdgeToken} (ht : ts[i]? = some (.edge t)) :
    Draws cx ts (i + 1) i r.graph :=
  h.draws.skipNode (by rw [madeNode?, ht]) fun name hname => by
    rw [nodeNameAt, ht] at hname
    cases hname

theorem edge (h : Stands cx ts i r) {t : EdgeToken} {u : NodeToken} {n : NodeId}
    (ht : ts[i]? = some (.edge t)) (hu : ts[i + 1]? = some (.node u))
    (hsource : r.current ≠ r.graph.anchor)
    (htarget : Reading.resolve cx r.graph u = .ok (n, g))
    (hread : Reading.connect cx g t r.current n = .ok g₁) :
    Fits cx ts i ∧ Fits cx ts (i + 1) ∧
      Stands cx ts (i + 1 + 1) { graph := g₁, current := n } := by
  obtain ⟨rfl, hrule, hdraws⟩ := (h.draws_edge ht).resolve hu htarget
  rw [h.current] at hread
  obtain ⟨hfree, hdraws'⟩ := hdraws.connect ht (Nat.lt_succ_self _) hu hread
  have hskip := hdraws'.skipEdge (by rw [madeEdge?, hu]) (by rw [edgeNameAt, hu]; rfl)
  -- a name that is free after the target is the name of no token up to it
  have hnone : ∀ name, t.name? = some name →
      (∀ j < i + 1 + 1, nodeNameAt ts j ≠ some name) ∧ ∀ j < i, edgeNameAt ts j ≠ some name :=
    fun name hname => hdraws.named?_eq_none.1 (hfree name hname)
  refine ⟨(fits_edge ht).2 ?_, (fits_node hu).2 ?_, after_node hskip hu⟩
  · refine ⟨h.source_iff.1 hsource, ⟨u, hu⟩, fun name hname j hj => ?_⟩
    exact ⟨(hnone name hname).1 j (by omega), (hnone name hname).2 j hj⟩
  · refine ⟨hrule.plain, fun name hname j hj hedge => ?_, hrule.typed⟩
    rcases Nat.lt_succ_iff_lt_or_eq.1 hj with hj | rfl
    · exact hrule.noEdge name hname j hj hedge
    · rw [edgeNameAt_edge ht] at hedge
      exact (hnone name hedge).1 (j + 1) (by omega) ((nodeNameAt_node hu).trans hname)

/-- Tokens that are read fit, and draw the graph that is read. -/
theorem of_reads {rest : List Token} {hs : List Handle} (hreads : Reading.Reads cx r rest hs g)
    (h : Stands cx ts i r) (hrest : ts.drop i = rest) (hi : i ≤ ts.length) :
    (∀ j, i ≤ j → Fits cx ts j) ∧ Draws cx ts ts.length ts.length g := by
  -- along the reading: what is read fits, and what it draws is what was to be drawn
  induction hreads generalizing i with
  | @done r =>
    obtain rfl : i = ts.length := Nat.le_antisymm hi (List.drop_eq_nil_iff.1 hrest)
    refine ⟨fun j hj => ?_, h.draws⟩
    have hnone : ts[j]? = none := List.getElem?_eq_none hj
    exact ⟨by simp [hnone], by simp [hnone]⟩
  | @constraint r r' t rest hs g step _ ih =>
    obtain ⟨ht, hrest⟩ := getElem?_of_drop hrest
    obtain ⟨r'', hread, hstands⟩ := h.constraint ht
    rw [step] at hread
    cases hread
    obtain ⟨hall, hdraws⟩ := ih hstands hrest (List.getElem?_eq_some_iff.1 ht).1
    exact ⟨forall_from (fits_constraint ht) hall, hdraws⟩
  | @node r t n g₁ g rest hs step _ ih =>
    obtain ⟨ht, hrest⟩ := getElem?_of_drop hrest
    obtain ⟨hfits, hstands⟩ := h.node ht step
    obtain ⟨hall, hdraws⟩ := ih hstands hrest (List.getElem?_eq_some_iff.1 ht).1
    exact ⟨forall_from hfits hall, hdraws⟩
  | @edge r t u n g₁ g₂ g rest hs source target step _ ih =>
    obtain ⟨ht, hrest⟩ := getElem?_of_drop hrest
    obtain ⟨hu, hrest⟩ := getElem?_of_drop hrest
    obtain ⟨hfits, hfits', hstands⟩ := h.edge ht hu source target step
    obtain ⟨hall, hdraws⟩ := ih hstands hrest (List.getElem?_eq_some_iff.1 hu).1
    exact ⟨forall_from hfits (forall_from hfits' hall), hdraws⟩

/-- Tokens that fit are read. -/
theorem exists_run {rest : List Token} (h : Stands cx ts i r) (hrest : ts.drop i = rest)
    (hfits : ∀ j, Fits cx ts j) : ∃ g, Reading.run cx r rest = .ok g := by
  -- along the tokens: one that fits is not refused
  fun_induction Reading.run cx r rest generalizing i with
  | case1 r => exact ⟨_, rfl⟩
  | case2 r t rest ih =>
    obtain ⟨ht, hrest⟩ := getElem?_of_drop hrest
    obtain ⟨r', hread, hstands⟩ := h.constraint ht
    obtain ⟨g, hg⟩ := ih r' hstands hrest
    exact ⟨g, by rw [hread]; exact hg⟩
  | case3 r t rest ih =>
    obtain ⟨ht, hrest⟩ := getElem?_of_drop hrest
    obtain ⟨n, g₁, hread⟩ := h.draws.exists_resolve ht ((fits_node ht).1 (hfits i))
    obtain ⟨g, hg⟩ := ih n g₁ (h.node ht hread).2 hrest
    exact ⟨g, by rw [hread]; exact hg⟩
  | case4 r t rest hanchor =>
    obtain ⟨ht, -⟩ := getElem?_of_drop hrest
    -- an edge that fits does not come first
    exact absurd hanchor (h.source_iff.2 ((fits_edge ht).1 (hfits i)).source)
  | case5 r t hsource u rest ih =>
    obtain ⟨ht, hrest⟩ := getElem?_of_drop hrest
    obtain ⟨hu, hrest⟩ := getElem?_of_drop hrest
    have hdraws := h.draws_edge ht
    have hedge := (fits_edge ht).1 (hfits i)
    have hnode := (fits_node hu).1 (hfits (i + 1))
    obtain ⟨n, g₁, hread⟩ := hdraws.exists_resolve hu (hnode.mono (Nat.le_succ i))
    obtain ⟨rfl, -, hdraws₁⟩ := hdraws.resolve hu hread
    have hfree : ∀ name, t.name? = some name → g₁.named? name = none := by
      intro name hname
      have hbefore := hedge.free name hname
      refine hdraws₁.named?_eq_none.2 ⟨fun j hj hown => ?_, fun j hj => (hbefore j hj).2⟩
      rcases Nat.lt_succ_iff_lt_or_eq.1 hj with hj | rfl
      · rcases Nat.lt_succ_iff_lt_or_eq.1 hj with hj | rfl
        · exact (hbefore j hj).1 hown
        · rw [nodeNameAt, ht] at hown
          cases hown
      · rw [nodeNameAt_node hu] at hown
        exact hnode.noEdge name hown i (Nat.lt_succ_self i) ((edgeNameAt_edge ht).trans hname)
    obtain ⟨g₂, hread₂⟩ := hdraws₁.exists_connect ht (Nat.lt_succ_self _) hu hfree
    rw [← h.current] at hread₂
    obtain ⟨g, hg⟩ := ih _ g₂ (h.edge ht hu hsource hread hread₂).2.2 hrest
    exact ⟨g, by simp only [hread, bind, Except.bind, hread₂]; exact hg⟩
  | case6 r t rest hsource hno =>
    obtain ⟨ht, hrest⟩ := getElem?_of_drop hrest
    obtain ⟨u, hu⟩ := ((fits_edge ht).1 (hfits i)).target
    rw [← List.head?_drop, hrest] at hu
    obtain ⟨rest', rfl⟩ := List.head?_eq_some_iff.1 hu
    exact absurd rfl (hno u rest')

end Stands

/-- Tokens have a graph exactly if they are well-formed, and it is the graph that they draw. -/
theorem ofTokens_draws (cx : Context) (ts : List Token) :
    match ofTokens cx ts with
    | .ok g => WellFormed cx ts ∧ Draws cx ts ts.length ts.length g
    | .error _ => ¬ WellFormed cx ts := by
  cases hg : ofTokens cx ts with
  | ok g =>
    obtain ⟨hs, hreads⟩ := Reading.reads_of_run hg
    obtain ⟨hfits, hdraws⟩ := (Stands.start cx ts).of_reads hreads rfl (Nat.zero_le _)
    exact ⟨wellFormed_iff.2 fun i => hfits i (Nat.zero_le i), hdraws⟩
  | error f =>
    intro hwell
    obtain ⟨g, hrun⟩ := (Stands.start cx ts).exists_run List.drop_zero (wellFormed_iff.1 hwell)
    rw [show ofTokens cx ts = Reading.run cx {} ts from rfl, hrun] at hg
    cases hg

/-- `a --> b <-e- a`: three node tokens, two nodes, and the second edge leads back to `b`. -/
example :
    (edgesBefore { arguments := ["e"], elements := [], engine := .graph }
      [.node ⟨"a", none, 0⟩, .edge ⟨none, none, .out, 1⟩, .node ⟨"b", none, 2⟩,
        .edge ⟨"e", none, .into, 3⟩, .node ⟨"a", none, 4⟩] 5).map
      (fun e => (e.kind, e.alpha, e.omega)) =
      [(.pattern, ⟨1⟩, ⟨2⟩), (.argument, ⟨1⟩, ⟨2⟩)] := by decide

end PatternGraph.Drawing

end GraphPattern
