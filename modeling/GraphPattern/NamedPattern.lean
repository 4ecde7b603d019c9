import GraphPattern.Compile
import GraphPattern.Matches

/-!
# GraphPattern — named patterns

A named pattern is a family of compiled patterns for one engine, told apart by the number of their
arguments. It is called like a function, with a model and the values of the arguments.

* `NamedPattern.define` — compiles the variants, which have to differ in their arity.
* `NamedPattern.call` — the matches of the variant that takes as many arguments as are given.
-/

namespace GraphPattern

/-- A variant as it is written. -/
structure VariantSource where
  arguments : List String
  pattern : Element
  /-- Makes the result of a match. -/
  result? : Option Form := none
deriving Repr

/-- A compiled variant. -/
structure Variant where
  arguments : List String
  plan : Plan
  result? : Option Form := none
deriving Repr

namespace Variant

/-- The number of arguments. -/
def arity (v : Variant) : Nat :=
  v.arguments.length

/-- The values of the arguments by name. A name that is given twice takes its last value. -/
def bind (v : Variant) (values : List Value) : Bindings :=
  (v.arguments.zip values).foldl (fun b a => b.set a.1 a.2) []

end Variant

/-- Compiled variants under one name, of distinct arities, in the order of their definition. -/
structure NamedPattern where
  name : String
  engine : Engine
  variants : List Variant
  doc? : Option String := none
deriving Repr

namespace NamedPattern

/-- Compiles the variants of a definition in turn. -/
def compileVariants (engine : Engine) (sources : List VariantSource) :
    Except Failure (List Variant) :=
  sources.mapM fun s => do
    let cx : Context :=
      { arguments := s.arguments, elements := ← Pattern.elements? s.pattern, engine }
    return { arguments := s.arguments, plan := ← cx.compile, result? := s.result? }

/-- The first arity that occurs among those before it as well. -/
def repeatedArity? (seen : List Nat) : List Variant → Option Nat
  | [] => none
  | v :: rest => if v.arity ∈ seen then some v.arity else repeatedArity? (v.arity :: seen) rest

/-- Defines a named pattern. If an engine is brought along, it has to be of the kind that the
variants are compiled for. -/
def define (name : String) (sources : List VariantSource) (engine : Element)
    (brought? : Option Engine) (doc? : Option String) : Except Failure NamedPattern := do
  let engine ← resolveEngine engine
  match brought? with
  | some brought => if brought ≠ engine then throw (.fault (.engineElsewhere brought engine))
  | none => pure ()
  let variants ← compileVariants engine sources
  match repeatedArity? [] variants with
  | some arity => throw (.fault (.arityTwice name arity))
  | none => return { name, engine, variants, doc? }

/-- The arities in the order of their definition. -/
def arities (p : NamedPattern) : List Nat :=
  p.variants.map Variant.arity

/-- The arities from the smallest on. -/
def sortedArities (p : NamedPattern) : List Nat :=
  p.arities.mergeSort

/-- The variant of an arity. -/
def variant (p : NamedPattern) (arity : Nat) : Except Fault Variant :=
  match p.variants.find? (·.arity == arity) with
  | some v => .ok v
  | none => .error (.arityUnknown p.name p.sortedArities arity)

/-- The matches of a call. -/
def call (p : NamedPattern) (behaviour : Form → Bindings → Except Fault Value) (model : Model)
    (values : List Value) : Except Fault Matches := do
  let v ← p.variant values.length
  Matches.of? { engine := p.engine, model, behaviour } v.plan (v.bind values) v.result?

/-- The pattern as descriptions show it. -/
def text (p : NamedPattern) : String :=
  "<Pattern " ++ p.name ++ " arities=[" ++
    ", ".intercalate (p.sortedArities.map toString) ++ "]>"

end NamedPattern

end GraphPattern
