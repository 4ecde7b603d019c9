import GraphPattern.Token
import GraphPattern.Fault

/-!
# GraphPattern — pattern graphs

A pattern is compiled by way of a small directed multigraph. Its nodes are the nodes and
constraints of the pattern, hung up on an anchor; its edges are the pattern's edges, the order
among constraints, and the links from the anchor to where the compilation starts. Nodes and edges
are kept in the order in which they were made and are named by their place in it.

* `PatternGraph.addNode`, `PatternGraph.addEdge` — the two ways in which a graph grows. Adding an
  edge between nodes that do not exist is a fault, and says what it leaves behind.
* `PatternGraph.reachableFrom` — the nodes connected with a node, directions ignored.

A search over finitely many things ends because every step sees something new. `unseen` counts what
is left; it never grows when more is seen (`unseen_le`) and shrinks with every new thing
(`unseen_lt`).
-/

namespace GraphPattern

/-! ## What a search has not seen yet -/

section Unseen

variable {α : Type _} [DecidableEq α]

/-- How many of the things in `all` are not among `seen`. -/
def unseen (all seen : List α) : Nat :=
  match all with
  | [] => 0
  | a :: rest => (if a ∈ seen then 0 else 1) + unseen rest seen

theorem unseen_le {all seen seen' : List α} (h : ∀ x ∈ seen, x ∈ seen') :
    unseen all seen' ≤ unseen all seen := by
  induction all with
  | nil => simp [unseen]
  | cons a all ih =>
    have := h a
    by_cases ha : a ∈ seen <;> by_cases ha' : a ∈ seen' <;> simp_all [unseen]
    omega

theorem unseen_lt {all seen seen' : List α} {x : α} (hx : x ∈ all) (hnew : x ∉ seen)
    (hx' : x ∈ seen') (h : ∀ y ∈ seen, y ∈ seen') : unseen all seen' < unseen all seen := by
  induction all with
  | nil => simp at hx
  | cons a all ih =>
    have hle : unseen all seen' ≤ unseen all seen := unseen_le h
    rcases List.mem_cons.1 hx with rfl | hx
    · simp [unseen, hnew, hx']
      omega
    · have hlt := ih hx
      have := h a
      by_cases ha : a ∈ seen <;> by_cases ha' : a ∈ seen' <;> simp_all [unseen]
      omega

end Unseen

/-! ## Handles -/

/-- The place in a sequence of some length that an index stands for. A negative index counts from
the end. -/
def position? (length : Nat) : Int → Option Nat
  | .ofNat i => if i < length then some i else none
  | .negSucc i => if i < length then some (length - 1 - i) else none

/-- The member of a list that an index stands for, with its place. -/
def pick? {α : Type _} (xs : List α) (i : Int) : Option (Nat × α) := do
  let place ← position? xs.length i
  return (place, ← xs[place]?)

/-- A node, by its place among the nodes of a graph. -/
structure NodeId where
  index : Int
deriving DecidableEq, Repr

/-- An edge, by its place among the edges of a graph. -/
structure EdgeId where
  index : Nat
deriving DecidableEq, Repr

/-- A node or an edge of a graph. -/
inductive Handle where
  | node (id : NodeId)
  | edge (id : EdgeId)
deriving DecidableEq, Repr

def NodeId.text (n : NodeId) : String := s!"n{n.index}"

def EdgeId.text (e : EdgeId) : String := s!"e{e.index}"

def Handle.text : Handle → String
  | .node n => n.text
  | .edge e => e.text

inductive NodeKind where
  | anchor
  | pattern
  | argument
  | constraint
deriving DecidableEq, Repr

def NodeKind.title : NodeKind → String
  | .anchor => "anchor"
  | .pattern => "pattern-node"
  | .argument => "argument-node"
  | .constraint => "constraint-node"

inductive EdgeKind where
  /-- Leads from a node to its constraints, and from a constraint to the next. -/
  | precedes
  /-- Leads from the anchor to the first node of a component. -/
  | start
  | pattern
  | argument
deriving DecidableEq, Repr

namespace EdgeKind

def title : EdgeKind → String
  | .precedes => "precedes"
  | .start => "has-start"
  | .pattern => "pattern-edge"
  | .argument => "argument-edge"

/-- Edges of these kinds stand for edges of the model. -/
def structural : EdgeKind → Bool
  | .pattern | .argument => true
  | .precedes | .start => false

end EdgeKind

/-- A node of a pattern graph. -/
structure PatternNode where
  kind : NodeKind
  name? : Option String := none
  typeName? : Option String := none
  constraint? : Option Constraint := none
  tokenIndex? : Option Int := none
deriving DecidableEq, Repr

def PatternNode.anonymous (n : PatternNode) : Bool :=
  n.name?.isNone

/-- An edge of a pattern graph, from `alpha` to `omega` as it is declared. -/
structure PatternEdge where
  kind : EdgeKind
  alpha : NodeId
  omega : NodeId
  name? : Option String := none
  typeName? : Option String := none
  tokenIndex? : Option Int := none
deriving DecidableEq, Repr

def PatternEdge.anonymous (e : PatternEdge) : Bool :=
  e.name?.isNone

/-- An edge seen from one of its ends. -/
structure Incidence where
  edge : EdgeId
  this : NodeId
  that : NodeId
  direction : Direction
deriving DecidableEq, Repr

def Incidence.text (i : Incidence) : String :=
  let arrow := match i.direction with
    | .out => "-->"
    | .into => "<--"
  i.this.text ++ " " ++ arrow ++ "[" ++ i.edge.text ++ "] " ++ i.that.text

/-- The nodes and edges of a pattern, in the order in which they were made. -/
structure PatternGraph where
  nodes : List PatternNode
  edges : List PatternEdge
  /-- The incidences of each node, in the order of their edges. -/
  incidences : List (List Incidence)
  /-- What the names stand for, the latest first. -/
  names : List (String × Handle)
deriving DecidableEq, Repr

namespace PatternGraph

/-- The graph of the empty pattern: an anchor. -/
def empty : PatternGraph :=
  { nodes := [{ kind := .anchor }], edges := [], incidences := [[]], names := [] }

def anchor (_ : PatternGraph) : NodeId := ⟨0⟩

/-! ## Looking things up -/

/-- The place of a node. -/
def placeOf? (g : PatternGraph) (n : NodeId) : Option Nat :=
  position? g.nodes.length n.index

def node? (g : PatternGraph) (n : NodeId) : Option PatternNode :=
  (g.placeOf? n).bind (g.nodes[·]?)

def edge? (g : PatternGraph) (e : EdgeId) : Option PatternEdge :=
  g.edges[e.index]?

/-- What a name stands for. -/
def named? (g : PatternGraph) (name : String) : Option Handle :=
  g.names.lookup name

/-- The incidences of the node at a place, in the order of their edges. -/
def incidencesAt (g : PatternGraph) (place : Nat) : List Incidence :=
  (g.incidences[place]?).getD []

/-- The incidences of a node, in the order of their edges. A node has them under its own index
only, not under the index that counts from the end. -/
def incidencesOf (g : PatternGraph) (n : NodeId) : Except Fault (List Incidence) :=
  match n.index with
  | .ofNat i => if i < g.nodes.length then .ok (g.incidencesAt i) else .error (.missingNode i)
  | i => .error (.missingNode i)

def nodeIds (g : PatternGraph) : List NodeId :=
  (List.range g.nodes.length).map fun i => ⟨Int.ofNat i⟩

def edgeIds (g : PatternGraph) : List EdgeId :=
  (List.range g.edges.length).map EdgeId.mk

/-- The nodes of a kind, in the order in which they were made. -/
def nodesOf (g : PatternGraph) (kind : NodeKind) : List NodeId :=
  g.nodeIds.filter fun n => (g.node? n).any (·.kind = kind)

/-- The edges of a kind, in the order in which they were made. -/
def edgesOf (g : PatternGraph) (kind : EdgeKind) : List EdgeId :=
  g.edgeIds.filter fun e => (g.edge? e).any (·.kind = kind)

/-- The nodes by the indices that count from the end. -/
def nodeIdsFromEnd (g : PatternGraph) : List NodeId :=
  (List.range g.nodes.length).map fun i => ⟨.negSucc i⟩

/-- All nodes and edges. -/
def handles (g : PatternGraph) : List Handle :=
  g.nodeIds.map .node ++ g.nodeIdsFromEnd.map .node ++ g.edgeIds.map .edge

theorem mem_handles_of_node? {g : PatternGraph} {n : NodeId} {node : PatternNode}
    (h : g.node? n = some node) : Handle.node n ∈ g.handles := by
  obtain ⟨index⟩ := n
  cases index with
  | ofNat i =>
    by_cases hi : i < g.nodes.length
    · simp only [handles, nodeIds, List.mem_append, List.mem_map, List.mem_range]
      exact .inl (.inl ⟨_, ⟨i, hi, rfl⟩, rfl⟩)
    · simp [node?, placeOf?, position?, hi] at h
  | negSucc i =>
    by_cases hi : i < g.nodes.length
    · simp only [handles, nodeIdsFromEnd, List.mem_append, List.mem_map, List.mem_range]
      exact .inl (.inr ⟨_, ⟨i, hi, rfl⟩, rfl⟩)
    · simp [node?, placeOf?, position?, hi] at h

theorem mem_handles_of_edge? {g : PatternGraph} {e : EdgeId} {edge : PatternEdge}
    (h : g.edge? e = some edge) : Handle.edge e ∈ g.handles := by
  obtain ⟨hlt, -⟩ := List.getElem?_eq_some_iff.1 h
  simp [handles, edgeIds]
  exact ⟨e.index, hlt, rfl⟩

/-! ## Growing -/

/-- Appends a node. -/
def addNode (g : PatternGraph) (n : PatternNode) : NodeId × PatternGraph :=
  let id : NodeId := ⟨g.nodes.length⟩
  (id,
    { nodes := g.nodes ++ [n]
      edges := g.edges
      incidences := g.incidences ++ [[]]
      names := match n.name? with
        | some name => (name, .node id) :: g.names
        | none => g.names })

/-- Notes an incidence at the node it is seen from. -/
def addIncidence (g : PatternGraph) (i : Incidence) : PatternGraph :=
  { g with incidences := g.incidences.modify i.this.index.toNat (· ++ [i]) }

/-- Appends an edge. If one of its ends does not exist, the edge and what was noted of it before
the missing end was met stay in the graph, but not its name. -/
def addEdge (g : PatternGraph) (e : PatternEdge) : Except Fault EdgeId × PatternGraph :=
  let id : EdgeId := ⟨g.edges.length⟩
  let g := { g with edges := g.edges ++ [e] }
  match g.incidencesOf e.alpha with
  | .error f => (.error f, g)
  | .ok _ =>
    let g := g.addIncidence ⟨id, e.alpha, e.omega, .out⟩
    match g.incidencesOf e.omega with
    | .error f => (.error f, g)
    | .ok _ =>
      let g := g.addIncidence ⟨id, e.omega, e.alpha, .into⟩
      let names := match e.name? with
        | some name => (name, .edge id) :: g.names
        | none => g.names
      (.ok id, { g with names })

/-! ## Connectedness -/

/-- Every end of an incidence. -/
def farEnds (g : PatternGraph) : List NodeId :=
  g.incidences.flatten.map (·.that)

/-- The far ends of some incidences that are not among `seen`, each once. -/
def freshEnds (incidences : List Incidence) (seen : List NodeId) : List NodeId :=
  ((incidences.map (·.that)).filter fun m => decide (m ∉ seen)).eraseDups

theorem mem_incidences_of_incidencesOf {g : PatternGraph} {n : NodeId} {l : List Incidence}
    (h : g.incidencesOf n = .ok l) {i : Incidence} (hi : i ∈ l) : i ∈ g.incidences.flatten := by
  obtain ⟨index⟩ := n
  cases index with
  | ofNat k =>
    by_cases hk : k < g.nodes.length
    · simp only [incidencesOf, hk, if_true, Except.ok.injEq, incidencesAt] at h
      subst h
      cases hl : g.incidences[k]? with
      | none => simp [hl] at hi
      | some l =>
        simp only [hl, Option.getD_some] at hi
        exact List.mem_flatten.2 ⟨l, List.mem_of_getElem? hl, hi⟩
    · simp [incidencesOf, hk] at h
  | negSucc k => simp [incidencesOf] at h

theorem mem_freshEnds {g : PatternGraph} {n m : NodeId} {l : List Incidence} {seen : List NodeId}
    (hl : g.incidencesOf n = .ok l) (h : m ∈ freshEnds l seen) : m ∈ g.farEnds ∧ m ∉ seen := by
  simp only [freshEnds, List.mem_eraseDups, List.mem_filter, List.mem_map,
    decide_eq_true_eq] at h
  obtain ⟨⟨i, hi, rfl⟩, hnew⟩ := h
  exact ⟨List.mem_map.2 ⟨i, mem_incidences_of_incidencesOf hl hi, rfl⟩, hnew⟩

/-- Extends `seen` by everything connected with the nodes of `stack`, which were seen last. -/
def spread (g : PatternGraph) (seen stack : List NodeId) : Except Fault (List NodeId) :=
  match stack with
  | [] => .ok seen
  | n :: rest =>
    match _h : g.incidencesOf n with
    | .error f => .error f
    | .ok l =>
      let fresh := freshEnds l seen
      spread g (seen ++ fresh) (fresh.reverse ++ rest)
termination_by (unseen g.farEnds seen, stack.length)
decreasing_by
  cases hf : freshEnds l seen with
  | nil =>
    simp only [List.append_nil, List.reverse_nil, List.nil_append]
    exact Prod.Lex.right _ (by simp)
  | cons m ms =>
    refine Prod.Lex.left _ _ ?_
    have hm : m ∈ g.farEnds ∧ m ∉ seen := mem_freshEnds _h (by simp [hf])
    exact unseen_lt hm.1 hm.2 (by simp) (fun y hy => by simp [hy])

/-- The nodes connected with a node, itself first, in the order in which they are found. -/
def reachableFrom (g : PatternGraph) (start : NodeId) : Except Fault (List NodeId) :=
  g.spread [start] [start]

/-! ## Descriptions -/

/-- A name, or `_`, with the type if there is one. -/
def describeLabel (name? typeName? : Option String) : String :=
  let name := match name? with
    | some s => if s.isEmpty then "_" else s
    | none => "_"
  match typeName? with
  | some t => if t.isEmpty then name else name ++ "<" ++ t ++ ">"
  | none => name

def describe? (g : PatternGraph) (n : NodeId) : Except Fault String :=
  match g.node? n with
  | none => .error .positionOutside
  | some node => .ok (node.kind.title ++ " " ++ describeLabel node.name? node.typeName?)

/-- One line about an edge. -/
def describeEdge? (g : PatternGraph) (e : PatternEdge) : Except Fault String := do
  let alpha ← g.describe? e.alpha
  let omega ← g.describe? e.omega
  return "  " ++ e.kind.title ++ " " ++ describeLabel e.name? e.typeName? ++ ": " ++ alpha ++
    " -> " ++ omega

/-- A line about the graph and one about each edge. -/
def text? (g : PatternGraph) : Except Fault String := do
  let lines ← g.edges.mapM g.describeEdge?
  let head := s!"PatternGraph({g.nodes.length} nodes, {g.edges.length} edges)"
  return "\n".intercalate (head :: lines)

end PatternGraph

end GraphPattern
