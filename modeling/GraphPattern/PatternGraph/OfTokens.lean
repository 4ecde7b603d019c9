import GraphPattern.PatternGraph
import GraphPattern.Problem

/-!
# GraphPattern — the graph of a pattern

The tokens of a pattern are read from left to right. A node token makes the node it names the
current one, an edge token connects the current node with the node token after it, which becomes
current, and a constraint token hangs a constraint on the current node. Constraints in a row are
chained, each to the one before it.

Every component of the graph needs one node at which its compilation starts. Anchoring links the
anchor to the first node of each component that it is not connected with yet, in the order in which
these nodes were made.

* `PatternGraph.ofTokens` — the graph of a pattern, or the first reason why there is none.
* `PatternGraph.anchored` — the graph with one link from the anchor for each component.
-/

namespace GraphPattern.PatternGraph

/-- Where the reading of the tokens stands. -/
structure Reading where
  graph : PatternGraph := .empty
  /-- The current node, the anchor at first. -/
  current : NodeId := ⟨0⟩
  /-- The last constraint, as long as nothing but constraints is read. -/
  lastConstraint? : Option NodeId := none
deriving Repr

namespace Reading

/-- The node a token stands for: the one its name already stands for, or a new one. -/
def resolve (cx : Context) (g : PatternGraph) (t : NodeToken) :
    Except Failure (NodeId × PatternGraph) :=
  match t.name? with
  | none =>
    .ok (g.addNode { kind := .pattern, typeName? := t.typeName?, tokenIndex? := some t.index })
  | some name =>
    if cx.arguments.contains name && t.typeName?.isSome then
      .error (cx.refuse (.typedArgument name) (some t.index))
    else
      match g.named? name with
      | some (.edge _) => .error (cx.refuse (.nodeNamedLikeEdge name) (some t.index))
      | some (.node n) =>
        let declared? := (g.node? n).bind (·.typeName?)
        match t.typeName? with
        | none => .ok (n, g)
        | some typeName =>
          if declared? = some typeName then .ok (n, g)
          else .error (cx.refuse (.conflictingType name typeName declared?) (some t.index))
      | none =>
        let kind := if cx.arguments.contains name then NodeKind.argument else .pattern
        .ok (g.addNode
          { kind, name? := name, typeName? := t.typeName?, tokenIndex? := some t.index })

/-- Adds an edge between nodes of the graph. -/
def link (g : PatternGraph) (e : PatternEdge) : Except Failure PatternGraph :=
  match g.addEdge e with
  | (.error f, _) => .error (.fault f)
  | (.ok _, g) => .ok g

/-- Connects the current node with the next one as an edge token says. -/
def connect (cx : Context) (g : PatternGraph) (t : EdgeToken) (current next : NodeId) :
    Except Failure PatternGraph := do
  let kind ← match t.name? with
    | none => .ok EdgeKind.pattern
    | some name =>
      if (g.named? name).isSome then .error (cx.refuse (.edgeNameTaken name) (some t.index))
      else .ok (if cx.arguments.contains name then EdgeKind.argument else .pattern)
  let (alpha, omega) := match t.direction with
    | .out => (current, next)
    | .into => (next, current)
  link g
    { kind, alpha, omega, name? := t.name?, typeName? := t.typeName?, tokenIndex? := some t.index }

/-- Hangs a constraint on the current node or on the constraint before it. -/
def constrain (r : Reading) (t : ConstraintToken) : Except Failure Reading := do
  let (n, g) := r.graph.addNode
    { kind := .constraint, constraint? := t.constraint, tokenIndex? := some t.index }
  let g ← link g { kind := .precedes, alpha := r.lastConstraint?.getD r.current, omega := n }
  return { r with graph := g, lastConstraint? := n }

/-- Reads the remaining tokens. -/
def run (cx : Context) (r : Reading) : List Token → Except Failure PatternGraph
  | [] => .ok r.graph
  | .constraint t :: rest => do
    let r ← r.constrain t
    run cx r rest
  | .node t :: rest => do
    let (n, g) ← resolve cx r.graph t
    run cx { graph := g, current := n } rest
  | .edge t :: rest =>
    if r.current = r.graph.anchor then .error (cx.refuse .edgeWithoutSource (some t.index))
    else
      match rest with
      | .node next :: rest => do
        let (n, g) ← resolve cx r.graph next
        let g ← connect cx g t r.current n
        run cx { graph := g, current := n } rest
      | _ => .error (cx.refuse .edgeWithoutTarget (some t.index))

end Reading

/-- The graph of a pattern. -/
def ofTokens (cx : Context) (tokens : List Token) : Except Failure PatternGraph :=
  Reading.run cx {} tokens

/-! ## Anchoring -/

/-- Links the anchor to those of the given nodes that it is not connected with when their turn
comes, and makes sure that everything it is then connected with exists. The graph is given back
as far as it was built if a node is missing. -/
def linkStarts : List NodeId → PatternGraph → Except Fault Unit × PatternGraph
  | [], g =>
    match g.reachableFrom g.anchor with
    | .error f => (.error f, g)
    | .ok _ => (.ok (), g)
  | n :: rest, g =>
    match g.reachableFrom g.anchor with
    | .error f => (.error f, g)
    | .ok reached =>
      if n ∈ reached then linkStarts rest g
      else
        match g.addEdge { kind := .start, alpha := g.anchor, omega := n } with
        | (.error f, g) => (.error f, g)
        | (.ok _, g) => linkStarts rest g

/-- Connects every node with the anchor, by one edge per component. -/
def anchored (g : PatternGraph) : Except Fault Unit × PatternGraph :=
  linkStarts g.nodeIds g

end GraphPattern.PatternGraph
