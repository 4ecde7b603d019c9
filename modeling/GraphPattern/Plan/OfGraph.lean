import GraphPattern.Plan.Chain

/-!
# GraphPattern — the plan of a pattern graph

The graph is walked depth first from the anchor. Reaching a node or following an edge for the
first time emits the steps that bind or test it; a stack holds what is still to be looked at. Each
node and edge is dealt with once, from whichever side it is reached.

* `Plan.visitNode`, `Plan.visitIncidence` — what reaching a node or following an edge emits.
* `Plan.explore` — the steps for everything on the stack. Every visit sees a node or an edge for
  the first time, so the walk ends on every graph.
* `Plan.ofGraph` — the plan of a graph.
-/

namespace GraphPattern

namespace Plan

/-- What is still to be looked at: a node, or an edge from a node that is bound. -/
inductive Entry where
  | node (id : NodeId)
  | along (incidence : Incidence)
deriving DecidableEq, Repr

/-- What a visit adds to the walk: steps, things that need no visit of their own any more, and
entries, the first of which is looked at next. -/
structure Emission where
  steps : List Step := []
  marks : List Handle := []
  entries : List Entry := []
deriving DecidableEq, Repr

/-- The variable that stands for a node: its name, or a hidden name. -/
def varOf (g : PatternGraph) (n : NodeId) : String :=
  match (g.node? n).bind (·.name?) with
  | some name => name
  | none => s!"#{n.index}"

/-- The incidences of a node along edges that were not visited, in the order of their edges. -/
def pendingEntries (g : PatternGraph) (n : NodeId) (visited : List Handle) :
    Except Failure (List Entry) := do
  let incidences ← Failure.ofFault (g.incidencesOf n)
  return (incidences.filter fun i => decide (Handle.edge i.edge ∉ visited)).map .along

/-- What reaching a node from the anchor binds: its candidates are enumerated, or its argument is
bound. An argument without a name is noted all the same; no plan with such a step is given out. -/
def nodeSteps (g : PatternGraph) (n : NodeId) (node : PatternNode) : List Step :=
  match node.kind, node.name? with
  | .pattern, _ => [.generate (varOf g n) (.instances (.ofName? node.typeName?))]
  | .argument, some name => [.assign name (.argument name)]
  | .argument, none => [.assign (varOf g n) .unnamed]
  | .anchor, _ | .constraint, _ => []

/-- Reaching a node from the anchor. -/
def visitNode (g : PatternGraph) (n : NodeId) (node : PatternNode) (visited : List Handle) :
    Except Failure Emission := do
  return { steps := nodeSteps g n node, entries := ← pendingEntries g n visited }

/-- A chain becomes one step: a test if its terminal is known or of no interest, else an
enumeration of its terminal. -/
def emitChain (g : PatternGraph) (start : Expr) (chain : Chain) (visited : List Handle) :
    Except Failure Emission :=
  match g.node? chain.terminal with
  | none => .error (.fault .positionOutside)
  | some terminal =>
    let reach := Expr.reachable start chain.path
    let name := varOf g chain.terminal
    let step :=
      if Handle.node chain.terminal ∈ visited ∨ terminal.kind = .argument then
        Step.guard (.member (.var name) reach)
      else if terminal.anonymous && !chain.openEnd then .guard (.nonEmpty reach)
      else .generate name reach
    do
      let pending ← pendingEntries g chain.terminal (chain.elements ++ visited)
      return { steps := [step], marks := chain.elements
               entries := chain.constraints.map .along ++ pending }

/-- The node at the far end of a named edge: it is compared if it is known, else bound, or it
starts a chain. -/
def bindFarEnd (cx : Context) (g : PatternGraph) (i : Incidence) (edge : Expr)
    (visited : List Handle) : Except Failure Emission :=
  match g.node? i.that with
  | none => .error (.fault .positionOutside)
  | some target =>
    let that := Expr.edgeEnd edge i.direction true
    let bound (steps : List Step) : Except Failure Emission := do
      return { steps, marks := [.node i.that]
               entries := ← pendingEntries g i.that (.node i.that :: visited) }
    if Handle.node i.that ∈ visited ∨ target.kind = .argument then
      bound [.guard (.equal (.var (varOf g i.that)) that)]
    else
      match target.name? with
      | none => do emitChain g that (← Chain.fromNode cx g i.that visited) visited
      | some name =>
        let typeTest := match target.typeName? with
          | some t => if t.isEmpty then [] else [Step.guard (.isInstance (.var name) (.spec t))]
          | none => []
        bound (.assignAll [(name, that)] :: typeTest)

/-- The step of a constraint. -/
def constraintStep : Constraint → Step
  | .when f => .guard (.call f)
  | .whilst f => .whilst (.call f)
  | .bind bs => .assignAll (bs.map fun b => (b.1, .call b.2))

/-- The constraints chained from a constraint node on. -/
def spliceConstraints (g : PatternGraph) (n : NodeId) (visited : List Handle) :
    Except Failure (List Step × List Handle) :=
  match g.node? n with
  | none => .error (.fault .positionOutside)
  | some node =>
    match node.constraint? with
    | none => .error (.fault .formlessConstraint)
    | some c =>
      let place := (g.placeOf? n).getD 0
      let next? := (g.incidencesAt place).find? fun i =>
        (g.edge? i.edge).any (·.kind = .precedes) && decide (Handle.edge i.edge ∉ visited)
      match h : next? with
      | none => .ok ([constraintStep c], [.node n])
      | some i => do
        have shrinks : unseen g.handles (.edge i.edge :: .node n :: visited) <
            unseen g.handles visited := by
          have hi := List.find?_some h
          simp only [Bool.and_eq_true, decide_eq_true_eq, Option.any_eq_true_iff_get] at hi
          obtain ⟨⟨hsome, -⟩, hnew⟩ := hi
          exact unseen_lt
            (PatternGraph.mem_handles_of_edge? (Option.eq_some_of_isSome hsome)) hnew (by simp)
            (fun y hy => by simp [hy])
        let (steps, marks) ← spliceConstraints g i.that (.edge i.edge :: .node n :: visited)
        return (constraintStep c :: steps, .node n :: .edge i.edge :: marks)
termination_by unseen g.handles visited

/-- Following an edge from a bound node. -/
def visitIncidence (cx : Context) (g : PatternGraph) (i : Incidence) (edge : PatternEdge)
    (visited : List Handle) : Except Failure Emission :=
  let source := Expr.var (varOf g i.this)
  match edge.kind, edge.name? with
  | .start, _ => .ok { entries := [.node i.that] }
  | .precedes, _ => do
    let (steps, marks) ← spliceConstraints g i.that visited
    return { steps, marks }
  | .argument, name? => do
    let argument := (name?.map Expr.var).getD .unnamed
    let check := Step.guard (.equal source (.edgeEnd argument i.direction false))
    let rest ← bindFarEnd cx g i argument visited
    return { rest with steps := check :: rest.steps }
  | .pattern, none => do emitChain g source (← Chain.fromEdge cx g i visited) visited
  | .pattern, some name =>
    if cx.engine.edgesHaveIdentity then do
      let enumerate := Step.generate name (.adjacent source (.ofName? edge.typeName?) i.direction)
      let rest ← bindFarEnd cx g i (.var name) visited
      return { rest with steps := enumerate :: rest.steps }
    else .error (.fault .edgesNotEnumerable)

/-- The steps for everything on the stack. -/
def explore (cx : Context) (g : PatternGraph) (visited : List Handle) (stack : List Entry) :
    Except Failure (List Step) :=
  match stack with
  | [] => .ok []
  | .node n :: rest =>
    if hv : Handle.node n ∈ visited then explore cx g visited rest
    else
      match h : g.node? n with
      | none => .error (.fault .positionOutside)
      | some node => do
        let e ← visitNode g n node (.node n :: visited)
        have shrinks : unseen g.handles (e.marks ++ .node n :: visited) <
            unseen g.handles visited :=
          unseen_lt (PatternGraph.mem_handles_of_node? h) hv (by simp) (fun y hy => by simp [hy])
        let steps ← explore cx g (e.marks ++ .node n :: visited) (e.entries ++ rest)
        return e.steps ++ steps
  | .along i :: rest =>
    if hv : Handle.edge i.edge ∈ visited then explore cx g visited rest
    else
      match h : g.edge? i.edge with
      | none => .error (.fault .positionOutside)
      | some edge => do
        let e ← visitIncidence cx g i edge (.edge i.edge :: visited)
        have shrinks : unseen g.handles (e.marks ++ .edge i.edge :: visited) <
            unseen g.handles visited :=
          unseen_lt (PatternGraph.mem_handles_of_edge? h) hv (by simp) (fun y hy => by simp [hy])
        let steps ← explore cx g (e.marks ++ .edge i.edge :: visited) (e.entries ++ rest)
        return e.steps ++ steps
termination_by (unseen g.handles visited, stack.length)

/-- Edges the engine cannot deal with: it has no edges with identity, so none may have a name. -/
def checkEdge (cx : Context) (e : PatternEdge) : Except Failure Unit :=
  match e.kind, e.name? with
  | .argument, name? =>
    .error (cx.refuse (.argumentEdge cx.engine (name?.getD "None")) e.tokenIndex?)
  | .pattern, some name => .error (cx.refuse (.namedEdge cx.engine name) e.tokenIndex?)
  | _, _ => .ok ()

/-- Refuses the first edge the engine cannot deal with. -/
def checkEdges (cx : Context) (g : PatternGraph) : Except Failure Unit :=
  if cx.engine.edgesHaveIdentity then .ok () else g.edges.forM (checkEdge cx)

/-- Binds an argument without a name. -/
def bindsUnnamed : Step → Bool
  | .assign _ .unnamed => true
  | _ => false

/-- The plan of a graph whose components are linked to the anchor. Arguments have to be named. -/
def ofGraph (cx : Context) (g : PatternGraph) : Except Failure Plan := do
  checkEdges cx g
  let steps ← explore cx g [] [.node g.anchor]
  if steps.any bindsUnnamed then throw (.fault .unnamedArgument)
  return { steps, arguments := cx.arguments, engine := cx.engine }

end Plan

end GraphPattern
