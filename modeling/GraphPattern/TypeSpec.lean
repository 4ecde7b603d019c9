/-!
# GraphPattern — types

The classes of a model form a hierarchy, and a pattern restricts an element by a type spec:
`Name` matches the class of that name and all classes below it, `Name!` the class alone, and a
leading `!` turns either around.

* `Lineage.supertypes` — the names of the classes above some classes, these included.
* `TypeSpec.parse`, `TypeSpec.admits` — a spec and the classes it matches.
* `typeMatches` — the same with the specs that match everything.
-/

namespace GraphPattern

/-- A class by its name and the classes it specializes directly. -/
inductive Lineage where
  | mk (name : String) (supers : List Lineage)
deriving Repr, Inhabited

namespace Lineage

def name : Lineage → String
  | mk n _ => n

def supers : Lineage → List Lineage
  | mk _ ss => ss

mutual

/-- Adds the names of a class and the classes above it to `seen`, depth first. A name that was
seen before is not looked at again. -/
def climb (seen : List String) : Lineage → List String
  | mk n ss => if n ∈ seen then seen else climbAll (seen ++ [n]) ss

def climbAll (seen : List String) : List Lineage → List String
  | [] => seen
  | s :: ss => climbAll (climb seen s) ss

end

/-- The names of some classes and all classes above them, each once, a class before those above
it. -/
def supertypes (classes : List Lineage) : List String :=
  climbAll [] classes

/-- Whether a name is that of a class or of one above it. -/
def isA (c : Lineage) (name : String) : Bool :=
  name == c.name || (supertypes c.supers).contains name

end Lineage

/-- A restriction to some classes of a hierarchy. -/
structure TypeSpec where
  name : String
  /-- The classes below the named one are left out. -/
  exact : Bool := false
  /-- Matches what it would not match otherwise. -/
  negated : Bool := false
deriving DecidableEq, Repr

namespace TypeSpec

/-- The spec without its leading mark, and whether it had one. -/
def unmarked : List Char → List Char × Bool
  | '!' :: cs => (cs, true)
  | cs => (cs, false)

/-- Reads a spec: one leading mark, then one trailing mark. -/
def parse (s : String) : TypeSpec :=
  let (cs, negated) := unmarked s.toList
  let (rest, exact) := unmarked cs.reverse
  { name := String.ofList rest.reverse, exact, negated }

/-- Whether a class is among those a spec restricts to. -/
def admits (t : TypeSpec) (c : Lineage) : Bool :=
  let hit := if t.exact then c.name == t.name else c.isA t.name
  if t.negated then !hit else hit

end TypeSpec

/-- Whether a class matches a spec as it is written; no spec and the empty spec match all. -/
def typeMatches (c : Lineage) (spec? : Option String) : Bool :=
  match spec? with
  | none => true
  | some s => s.isEmpty || (TypeSpec.parse s).admits c

end GraphPattern
