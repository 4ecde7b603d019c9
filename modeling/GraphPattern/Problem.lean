import GraphPattern.Fault

/-!
# GraphPattern — reasons to refuse a pattern

Each reason is a cause with the names it is about; `Problem.diagnostic` gives its wording, and the
place and the pattern it is reported at come from where it is found: every step of a compilation may
look at its `Context`, the names of the arguments, the elements of the pattern and the engine that
is compiled for.
-/

namespace GraphPattern

/-- Why a pattern is refused. -/
inductive Problem where
  -- elements
  | unexpectedElement (shown : String)
  | malformedToken (text : String)
  | unknownMarker (marker : String)
  | markerAlone (marker : String)
  | notPredicate (marker : String)
  | notBindings
  -- tokens
  | edgeWithoutSource
  | edgeWithoutTarget
  | typedArgument (name : String)
  | nodeNamedLikeEdge (name : String)
  | conflictingType (name typeName : String) (declared? : Option String)
  | edgeNameTaken (name : String)
  -- the engine
  | engineUnset (shown : String)
  | namedEdge (engine : Engine) (name : String)
  | argumentEdge (engine : Engine) (name : String)
  | backwardEdge
  | forkedChain (branches : Nat)
  -- the plan
  | boundRepeatedly (counts : List (String × Nat))
  | argumentRebound (name : String)
  | unboundFormName (form param : String)
deriving DecidableEq, Repr

namespace Problem

def kind : Problem → DiagnosticKind
  | .unexpectedElement _ | .malformedToken _ | .unknownMarker _ | .markerAlone _
  | .notPredicate _ | .notBindings | .edgeWithoutSource | .edgeWithoutTarget => .malformedToken
  | .typedArgument _ | .nodeNamedLikeEdge _ | .conflictingType _ _ _ | .edgeNameTaken _
  | .boundRepeatedly _ | .argumentRebound _ => .conflictingName
  | .engineUnset _ => .engineUnset
  | .namedEdge _ _ => .namedEdge
  | .argumentEdge _ _ => .argumentEdge
  | .backwardEdge => .edgeDirection
  | .forkedChain _ => .ambiguousChain
  | .unboundFormName _ _ => .unboundFormName

def message : Problem → String
  | .unexpectedElement shown => "unexpected pattern element " ++ shown
  | .malformedToken s => s!"malformed pattern token `{s}`"
  | .unknownMarker m => s!"unknown constraint marker `{m}`"
  | .markerAlone m => s!"constraint marker `{m}` has no form"
  | .notPredicate m => s!"`{m}` expects a predicate"
  | .notBindings => "`:let` expects (name, callable) bindings"
  | .edgeWithoutSource => "edge token has no source node"
  | .edgeWithoutTarget => "edge token is not followed by a node token"
  | .typedArgument n => s!"the pattern declares `{n}` although that's an argument already"
  | .nodeNamedLikeEdge n => s!"`{n}` is already declared as an edge"
  | .conflictingType n t _ => s!"`{n}` is declared again with conflicting type <{t}>"
  | .edgeNameTaken n => s!"a pattern element named `{n}` is already declared"
  | .engineUnset shown => s!"the pattern backend is not set (got {shown})"
  | .namedEdge e n => s!"edges mustn't be named for the {e.name} backend: `{n}`"
  | .argumentEdge e n => s!"there mustn't be argument edges for the {e.name} backend: `{n}`"
  | .backwardEdge => "backward edges are unsupported by the containment backend"
  | .forkedChain n =>
    s!"anonymous chain forks: an anonymous node has {n} unvisited continuations"
  | .boundRepeatedly counts =>
    "these names are declared multiple times:\n" ++
      "\n".intercalate (counts.map fun c => s!"- {c.1} is declared {c.2} times")
  | .argumentRebound n => s!"`{n}` is bound by the pattern although that's an argument already"
  | .unboundFormName form param =>
    s!"form `{form}` refers to `{param}`, which is not bound at this point of the pattern"

def label? : Problem → Option String
  | .unexpectedElement _ => "expected a node token, an edge token or a constraint marker"
  | .malformedToken _ => "not a node or edge token"
  | .unknownMarker _ => "not a constraint keyword"
  | .markerAlone _ => "expected a form after this marker"
  | .notPredicate _ => "not callable"
  | .notBindings => "not a binding list"
  | .edgeWithoutSource => "this edge has no source"
  | .edgeWithoutTarget => "this edge has no target"
  | .typedArgument _ => "arguments cannot be redeclared with a type"
  | .nodeNamedLikeEdge _ => "node and edge names share one namespace"
  | .conflictingType _ _ declared? =>
    match declared? with
    | some t => s!"first declared <{t}>"
    | none => "first declared without a type"
  | .edgeNameTaken _ => "edge names must be unique"
  | .namedEdge _ _ => "named edge"
  | .argumentEdge _ _ => "argument edge"
  | .backwardEdge => "traversed against its direction"
  | .forkedChain _ => "this anonymous node cannot be linearized"
  | .unboundFormName _ param => s!"`{param}` is unbound here"
  | .engineUnset _ | .boundRepeatedly _ | .argumentRebound _ => none

def help? : Problem → Option String
  | .unexpectedElement _ | .malformedToken _ | .unknownMarker _ | .markerAlone _
  | .notPredicate _ | .notBindings =>
    "nodes are written name<Type>, edges -name<Type>-> or <-name<Type>-"
  | .edgeWithoutSource => "start the pattern with the node the edge leaves from"
  | .edgeWithoutTarget => "every edge token must be followed by the node it leads to"
  | .engineUnset _ => "pass backend=BackendKind.GRAPH or backend=BackendKind.CONTAINMENT"
  | .namedEdge _ _ => "drop the name, e.g. -<ref>-> instead of -name<ref>->"
  | .forkedChain _ => "name the node so the pattern can branch from it"
  | .unboundFormName _ param => s!"move the form after the element that binds `{param}`"
  | .typedArgument _ | .nodeNamedLikeEdge _ | .conflictingType _ _ _ | .edgeNameTaken _
  | .argumentEdge _ _ | .backwardEdge | .boundRepeatedly _ | .argumentRebound _ => none

def note? : Problem → Option String
  | .backwardEdge => "references can only be followed from their owner"
  | _ => none

/-- The problem as it is reported. -/
def diagnostic (p : Problem) (location? : Option Location) (patternText? : Option String) :
    Diagnostic :=
  { kind := p.kind, message := p.message, location?, patternText?,
    label? := p.label?, help? := p.help?, note? := p.note? }

end Problem

/-- The surroundings of one compilation. -/
structure Context where
  arguments : List String
  elements : List Element
  engine : Engine
deriving Repr

namespace Context

/-- The place of the element at a position, if the position is known. -/
def locate (cx : Context) (index? : Option Int) : Option Location :=
  index?.map fun i => Pattern.locate cx.elements i

/-- The refusal of the pattern because of the element at a position. -/
def refuse (cx : Context) (p : Problem) (index? : Option Int) : Failure :=
  .refused (p.diagnostic (cx.locate index?) (some (Pattern.shown cx.elements)))

end Context

end GraphPattern
