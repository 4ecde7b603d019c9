import GraphPattern.Diagnostic

/-!
# GraphPattern — engines and faults

There are two kinds of model a pattern can be compiled for. A typed graph has edges with an
identity, which can be bound and followed both ways. An object model has named references between
objects, which have no identity and are followed from their owner only.

What can go wrong outside the refusal of a pattern, while a model is built, a plan is run, or a
part of the library is used against its rules, is a fault. Every fault is a cause; `Fault.message`
words it and `Fault.category` sorts it.
-/

namespace GraphPattern

/-! ## Engines -/

/-- What a pattern is compiled for. -/
inductive Engine where
  | graph
  | containment
deriving DecidableEq, Repr

namespace Engine

/-- The name an engine is chosen by. -/
def name : Engine → String
  | .graph => "graph"
  | .containment => "containment"

def ofName? (s : String) : Option Engine :=
  if s = "graph" then some .graph
  else if s = "containment" then some .containment
  else none

@[simp] theorem ofName?_name (e : Engine) : ofName? e.name = some e := by
  cases e <;> rfl

/-- Edges can be bound, checked and followed against their direction. -/
def edgesHaveIdentity : Engine → Bool
  | .graph => true
  | .containment => false

end Engine

/-! ## Faults -/

/-- The sorts of fault a caller can tell apart. -/
inductive FaultCategory where
  /-- A pattern is defined or called against its definition. -/
  | definition
  /-- A plan is run against its rules. -/
  | misuse
  /-- A model is built against its rules. -/
  | badValue
  /-- Something is looked up that is not there. -/
  | missingKey
  /-- Stages that cannot be put in order. -/
  | order
  /-- A form gave up. -/
  | form
  /-- A value of a type that an operation does not take. -/
  | type
  /-- A thing without the property that is asked of it. -/
  | property
  /-- A position outside a sequence. -/
  | position
deriving DecidableEq, Repr

/-- Causes of failure. -/
inductive Fault where
  -- models
  | classTaken (name : String)
  | unknownClass (name : String)
  | kindsMixed (sub super : String)
  | edgeClassForVertex (name : String)
  | vertexClassForEdge (name : String)
  | alreadyContained (target owner : String)
  | unknownName (name : String)
  | missingAttribute (name : String)
  | missingElement (number : Int)
  | reservedAttribute (name : String)
  -- pattern graphs
  | missingNode (index : Int)
  | positionOutside
  | formlessConstraint
  | unnamedArgument
  | edgesNotEnumerable
  -- patterns and stages
  | notAPattern
  | unorderedStages
  -- values
  | notIterable
  | wrongOperand
  | unknownSegment
  | noSuchProperty
  | callMismatch
  | divisionByZero
  | incompleteConversion
  | incompleteKey
  | unknownConversion (letter : Char) (position : Nat)
  -- runs
  | unboundVariable (name : String)
  | missingArgument (name : String)
  | unboundParameter (form param : String)
  | raised (message : String)
  | foreignExpression (kind : String)
  | foreignStep (kind : String)
  | unexpandedBatch
  | edgesWithoutIdentity (engine : Engine)
  | backwardReference
  | wrongModel (engine : Engine) (model : String)
  | engineMismatch (plan executor : Engine)
  | argumentsMissing (names : List String)
  -- definitions
  | engineElsewhere (given wanted : Engine)
  | arityTwice (pattern : String) (arity : Nat)
  | arityUnknown (pattern : String) (known : List Nat) (given : Nat)
deriving DecidableEq, Repr

namespace Fault

/-- The in-memory engine of a kind, by the name its complaints use. -/
def engineTitle : Engine → String
  | .graph => "GraphBackend"
  | .containment => "ContainmentBackend"

def category : Fault → FaultCategory
  | .classTaken _ | .kindsMixed _ _ | .edgeClassForVertex _ | .vertexClassForEdge _
  | .alreadyContained _ _ | .incompleteConversion | .incompleteKey
  | .unknownConversion _ _ => .badValue
  | .unknownClass _ | .unknownName _ | .missingAttribute _ | .missingElement _ | .missingNode _
  | .missingArgument _ => .missingKey
  | .positionOutside => .position
  | .formlessConstraint | .unnamedArgument | .noSuchProperty => .property
  | .reservedAttribute _ | .notAPattern | .notIterable | .wrongOperand | .unknownSegment
  | .callMismatch => .type
  | .edgesNotEnumerable | .unorderedStages | .divisionByZero => .order
  | .unboundVariable _ | .unboundParameter _ _ | .foreignExpression _ | .foreignStep _
  | .unexpandedBatch | .edgesWithoutIdentity _ | .backwardReference | .wrongModel _ _
  | .engineMismatch _ _ | .argumentsMissing _ => .misuse
  | .raised _ => .form
  | .engineElsewhere _ _ | .arityTwice _ _ | .arityUnknown _ _ _ => .definition

/-- The wording of a fault; faults that are not worded give the empty text. -/
def message : Fault → String
  | .classTaken n => "class " ++ Text.quoted n ++ " is already defined"
  | .unknownClass n => Text.quoted ("schema has no class named " ++ Text.quoted n)
  | .kindsMixed sub super =>
    Text.quoted sub ++ " cannot specialize " ++ Text.quoted super ++ ": vertex/edge mismatch"
  | .edgeClassForVertex n => Text.quoted n ++ " is an edge class"
  | .vertexClassForEdge n => Text.quoted n ++ " is a vertex class"
  | .alreadyContained target owner => target ++ " is already contained by " ++ owner
  | .unknownName n | .missingAttribute n | .missingArgument n => Text.quoted n
  | .missingElement n => toString n
  | .missingNode i => s!"NodeId(index={i})"
  | .unorderedStages => "Circular dependency detected in passes"
  | .edgesNotEnumerable => "containment backend has no edge generators"
  | .divisionByZero => "integer modulo by zero"
  | .incompleteConversion => "incomplete format"
  | .incompleteKey => "incomplete format key"
  | .unknownConversion c i =>
    let shown := if 31 ≤ c.toNat ∧ c.toNat < 126 then c.toString else "?"
    "unsupported format character '" ++ shown ++ "' (0x" ++ String.ofList (Text.hex 1 c.toNat) ++
      s!") at index {i}"
  | .unboundVariable n => s!"variable `{n}` is used before it is bound"
  | .unboundParameter form param =>
    s!"form {form} refers to `{param}`, which is not bound at this point of the pattern"
  | .raised m => m
  | .foreignExpression k => "cannot evaluate " ++ k
  | .foreignStep k => "unknown binding step " ++ k
  | .unexpandedBatch => "plan contains an unexpanded let batch"
  | .edgesWithoutIdentity e => s!"the {e.name} backend has no edges with identity"
  | .backwardReference => "references can only be followed from their owner"
  | .wrongModel e m => s!"{e.name} backend cannot match against {m}"
  | .engineMismatch plan executor =>
    s!"plan compiled for the {plan.name} backend cannot run on the {executor.name} backend"
  | .argumentsMissing names => "missing pattern argument(s): " ++ ", ".intercalate names
  | .engineElsewhere given wanted =>
    "engine " ++ engineTitle given ++ s!" does not implement the {wanted.name} backend"
  | .arityTwice p n => "pattern " ++ Text.quoted p ++ s!" defines arity {n} twice"
  | .arityUnknown p known n =>
    "pattern " ++ Text.quoted p ++ " takes " ++ ", ".intercalate (known.map toString) ++
      s!" argument(s), got {n}"
  | .reservedAttribute _ | .positionOutside | .formlessConstraint | .noSuchProperty
  | .unnamedArgument | .notAPattern | .notIterable | .wrongOperand | .unknownSegment
  | .callMismatch => ""

end Fault

/-- Why an operation has no answer: the pattern is refused, or something else went wrong. -/
inductive Failure where
  | refused (d : Diagnostic)
  | fault (f : Fault)
deriving DecidableEq, Repr

/-- Takes a fault for the failure that it is. -/
def Failure.ofFault {α : Type _} : Except Fault α → Except Failure α
  | .ok a => .ok a
  | .error f => .error (.fault f)

/-- Refuses attributes of some names. The names of the parts that an element of a model is made of
are taken, so no attribute can have one of them. -/
def Bindings.refuse (reserved : List String) (attributes : Bindings) : Except Fault Unit :=
  match reserved.find? fun n => (attributes.get? n).isSome with
  | some n => .error (.reservedAttribute n)
  | none => .ok ()

end GraphPattern
