import GraphPattern.Plan
import GraphPattern.PatternGraph
import GraphPattern.Problem

/-!
# GraphPattern — chains

A chain is a walk along anonymous edges through anonymous nodes, as far as it can be continued in
one way only. It is compiled into one path. It ends at the first node that has a name or was
visited before, where nothing is left to follow, or where only a named edge is left, which needs
the node to be bound.

* `Chain.fromEdge` — the chain that starts with an edge at a bound node.
* `Chain.fromNode` — the chain that starts at an anonymous node behind a named edge.
-/

namespace GraphPattern

/-- The part of a path that an edge becomes. References can only be followed forward. -/
def Context.edgeSegment (cx : Context) (e : PatternEdge) (d : Direction) :
    Except Failure Segment :=
  match cx.engine, d with
  | .graph, d => .ok (.step d (.ofName? e.typeName?))
  | .containment, .out => .ok (.step .out (.ofName? e.typeName?))
  | .containment, .into => .error (cx.refuse .backwardEdge e.tokenIndex?)

/-- A walk through a pattern graph that is compiled into one path. -/
structure Chain where
  path : Path
  /-- The node at which the walk ends. -/
  terminal : NodeId
  /-- The nodes and edges of the walk, the terminal last. -/
  elements : List Handle
  /-- The constraints that hang on the anonymous nodes of the walk. -/
  constraints : List Incidence
  /-- The terminal is anonymous, but a named edge leads on from it. -/
  openEnd : Bool
deriving DecidableEq, Repr

namespace Chain

/-- The type test at a node. -/
def restriction (n : PatternNode) : Path :=
  match n.kind, n.typeName? with
  | .pattern, some t => if t.isEmpty then [] else [.restrict (.spec t)]
  | _, _ => []

/-- The incidences of a node whose edge is not among `visited`, each with its edge. -/
def pending (g : PatternGraph) (n : NodeId) (visited : List Handle) :
    Except Fault (List (Incidence × PatternEdge)) := do
  return (← g.incidencesOf n).filterMap fun i =>
    if Handle.edge i.edge ∈ visited then none else (g.edge? i.edge).map (i, ·)

/-- The chain from a node on, with what was visited before. -/
def walk (cx : Context) (g : PatternGraph) (current : NodeId) (visited : List Handle) :
    Except Failure Chain :=
  match h : g.node? current with
  | none => .error (.fault .positionOutside)
  | some node =>
    let stop (constraints : List Incidence) (openEnd : Bool) : Chain :=
      { path := restriction node, terminal := current, elements := [.node current],
        constraints, openEnd }
    if hv : node.anonymous = false ∨ Handle.node current ∈ visited then .ok (stop [] false)
    else do
      let left ← Failure.ofFault (pending g current (.node current :: visited))
      let constraints := (left.filter (·.2.kind = .precedes)).map (·.1)
      match left.filter (·.2.kind.structural) with
      | [] => .ok (stop constraints false)
      | [(next, edge)] =>
        if edge.anonymous then do
          have shrinks : unseen g.handles (.edge next.edge :: .node current :: visited) <
              unseen g.handles visited :=
            unseen_lt (PatternGraph.mem_handles_of_node? h) (fun hm => hv (.inr hm)) (by simp)
              (fun y hy => by simp [hy])
          let segment ← cx.edgeSegment edge next.direction
          let rest ← walk cx g next.that (.edge next.edge :: .node current :: visited)
          return { path := restriction node ++ segment :: rest.path
                   terminal := rest.terminal
                   elements := .node current :: .edge next.edge :: rest.elements
                   constraints := constraints ++ rest.constraints
                   openEnd := rest.openEnd }
        else .ok (stop constraints true)
      | branches => .error (cx.refuse (.forkedChain branches.length) node.tokenIndex?)
termination_by unseen g.handles visited

/-- The chain that starts with an edge at a bound node. -/
def fromEdge (cx : Context) (g : PatternGraph) (i : Incidence) (visited : List Handle) :
    Except Failure Chain :=
  match g.edge? i.edge with
  | none => .error (.fault .positionOutside)
  | some edge => do
    let segment ← cx.edgeSegment edge i.direction
    let rest ← walk cx g i.that (.edge i.edge :: visited)
    return { rest with path := segment :: rest.path, elements := .edge i.edge :: rest.elements }

/-- The chain that starts at a node behind a named edge. -/
def fromNode (cx : Context) (g : PatternGraph) (n : NodeId) (visited : List Handle) :
    Except Failure Chain :=
  walk cx g n visited

end Chain

end GraphPattern
