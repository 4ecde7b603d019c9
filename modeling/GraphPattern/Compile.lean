import GraphPattern.Token.Classify
import GraphPattern.PatternGraph.OfTokens
import GraphPattern.Plan.OfGraph
import GraphPattern.Plan.Checked
import GraphPattern.Plan.Dump

/-!
# GraphPattern — compilation

From a pattern to its plan: the elements are classified, the tokens make a graph, the graph is
anchored and walked, and the plan is expanded and checked.

* `compile` — the plan of a pattern.
* `compileTo` — what a compilation has made by the end of a stage.
-/

namespace GraphPattern

namespace Context

/-- The graph of the pattern. -/
def graph (cx : Context) : Except Failure PatternGraph := do
  PatternGraph.ofTokens cx (← Token.classify cx.elements)

/-- The graph of the pattern, every component of it linked to the anchor. -/
def anchoredGraph (cx : Context) : Except Failure PatternGraph := do
  match (← cx.graph).anchored with
  | (.error f, _) => .error (.fault f)
  | (.ok _, g) => .ok g

/-- The plan of the pattern as the walk through its graph emits it. -/
def walkedPlan (cx : Context) : Except Failure Plan := do
  Plan.ofGraph cx (← cx.anchoredGraph)

/-- The plan of the pattern. -/
def compile (cx : Context) : Except Failure Plan := do
  let g ← cx.anchoredGraph
  let p := (← Plan.ofGraph cx g).expanded
  p.check cx g
  return p

end Context

/-- The stages of a compilation, in order. -/
inductive Stage where
  | graph
  | anchored
  | walked
  | expanded
  | checked
deriving DecidableEq, Repr

/-- What a compilation makes. -/
inductive Product where
  | graph (g : PatternGraph)
  | plan (p : Plan)
deriving Repr

/-- What a compilation has made by the end of a stage. -/
def Context.compileTo (cx : Context) : Stage → Except Failure Product
  | .graph => return .graph (← cx.graph)
  | .anchored => return .graph (← cx.anchoredGraph)
  | .walked => return .plan (← cx.walkedPlan)
  | .expanded => return .plan (← cx.walkedPlan).expanded
  | .checked => return .plan (← cx.compile)

/-- The engine that an element of a request names. -/
def resolveEngine (e : Element) : Except Failure Engine :=
  let unset := Except.error (.refused ((Problem.engineUnset e.literal).diagnostic none none))
  match e with
  | .text s => (Engine.ofName? s).elim unset .ok
  | _ => unset

/-- The context of a request. The engine is looked at before the pattern. -/
def Context.ofRequest (arguments : List String) (pattern engine : Element) :
    Except Failure Context := do
  let engine ← resolveEngine engine
  let elements ← Pattern.elements? pattern
  return { arguments, elements, engine }

/-- What the compilation of a request has made by the end of a stage. -/
def compileTo (stage : Stage) (arguments : List String) (pattern engine : Element) :
    Except Failure Product := do
  (← Context.ofRequest arguments pattern engine).compileTo stage

/-- The plan of a request. -/
def compile (arguments : List String) (pattern engine : Element) : Except Failure Plan := do
  (← Context.ofRequest arguments pattern engine).compile

/-- The log message about a compiled plan. -/
def Context.announcement (cx : Context) (p : Plan) : String :=
  "Compiled plan for " ++ Text.quoted (Pattern.shown cx.elements) ++ ":\n" ++ p.pretty

end GraphPattern
