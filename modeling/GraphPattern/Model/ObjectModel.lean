import GraphPattern.TypeSpec
import GraphPattern.Fault

/-!
# GraphPattern — object models

A model of objects with attributes and named references to one another. A class says which of its
references contain their targets; an object has at most one container. The model proper is what
the roots contain, directly or not.

* `ObjectModel.add` — adds a target to a reference.
* `ObjectModel.contents` — what an object contains directly.
* `ObjectModel.allObjects` — everything below the roots, an object before its contents.
-/

namespace GraphPattern

/-- A class of objects, with the names of its containing references, inherited ones included. -/
structure ObjectClass where
  lineage : Lineage
  containments : List String
deriving Repr, Inhabited

namespace ObjectClass

def name (c : ObjectClass) : String := c.lineage.name

/-- A class under some classes, whose containing references it inherits. -/
def define (name : String) (supers : List ObjectClass) (containments : List String) :
    ObjectClass :=
  { lineage := .mk name (supers.map (·.lineage))
    containments := (containments ++ supers.flatMap (·.containments)).eraseDups }

def text (c : ObjectClass) : String :=
  "ObjectClass(" ++ c.name ++ ")"

end ObjectClass

/-- An object. -/
structure ModelObject where
  cls : ObjectClass
  attributes : Bindings
  container? : Option Nat := none
  /-- The targets of each reference, references in the order of their first target. -/
  references : List (String × List Nat) := []
deriving Repr, Inhabited

namespace ModelObject

/-- The object as messages show it: its class and its name. -/
def text (o : ModelObject) (number : Nat) : String :=
  match o.attributes.get? "name" with
  | none | some .null => o.cls.name ++ s!"@{number}"
  | some v => o.cls.name ++ "(" ++ v.label Value.bareName ++ ")"

/-- The targets of one reference, or of all of them. -/
def targets (o : ModelObject) : Option String → List Nat
  | some name => (o.references.lookup name).getD []
  | none => o.references.flatMap (·.2)

/-- The targets of the containing references. -/
def contents (o : ModelObject) : List Nat :=
  (o.references.filter fun r => o.cls.containments.contains r.1).flatMap (·.2)

/-- Adds a target to a list of references. -/
def addTarget (reference : String) (target : Nat) :
    List (String × List Nat) → List (String × List Nat)
  | [] => [(reference, [target])]
  | (n, ts) :: rest =>
    if n = reference then (n, ts ++ [target]) :: rest
    else (n, ts) :: addTarget reference target rest

end ModelObject

/-- Objects, by their numbers, and the roots of the model. -/
structure ObjectModel where
  objects : List ModelObject := []
  roots : List Nat := []
deriving Repr, Inhabited

namespace ObjectModel

def object? (m : ObjectModel) (n : Nat) : Option ModelObject :=
  m.objects[n]?

def objectText (m : ObjectModel) (n : Nat) : String :=
  ((m.object? n).map (·.text n)).getD ""

/-- Makes an object and gives its number. Its own parts are no attributes. -/
def create (m : ObjectModel) (cls : ObjectClass) (attributes : Bindings) :
    Except Fault (Nat × ObjectModel) := do
  Bindings.refuse ["self", "cls"] attributes
  return (m.objects.length, { m with objects := m.objects ++ [{ cls, attributes }] })

def addRoot (m : ObjectModel) (n : Nat) : ObjectModel :=
  { m with roots := m.roots ++ [n] }

/-- Whether a reference of an object contains its targets. -/
def isContainment (m : ObjectModel) (owner : Nat) (reference : String) : Bool :=
  (m.object? owner).any (·.cls.containments.contains reference)

/-- Adds a target to a reference of an object. What a containing reference takes has to be
uncontained. -/
def add (m : ObjectModel) (owner : Nat) (reference : String) (target : Nat) :
    Except Fault ObjectModel :=
  let refer (objects : List ModelObject) : ObjectModel :=
    { m with
      objects := objects.modify owner fun o =>
        { o with references := ModelObject.addTarget reference target o.references } }
  if m.isContainment owner reference then
    match (m.object? target).bind (·.container?) with
    | some holder => .error (.alreadyContained (m.objectText target) (m.objectText holder))
    | none =>
      .ok (refer (m.objects.modify target fun o => { o with container? := some owner }))
  else .ok (refer m.objects)

/-- What an object contains directly. -/
def contents (m : ObjectModel) (n : Nat) : List Nat :=
  ((m.object? n).map (·.contents)).getD []

/-- Visits the objects on a stack, each before its contents, up to a number of visits. -/
def visit (m : ObjectModel) : Nat → List Nat → List Nat
  | 0, _ => []
  | _, [] => []
  | limit + 1, n :: stack => n :: visit m limit (m.contents n ++ stack)

/-- How far a walk follows a circle of containments below a root. Such a walk has no end; here it is
broken off, and what it has come to by then is given without a sign that there was more. A model
whose containments run in a circle is none that this library describes. -/
def patience : Nat := 10000

/-- Everything below the roots, each object before its contents. Every root has at most all objects
below it, unless the containments run in a circle: in a forest the walk ends before the limit
(`ObjectModel.walk_lt`), and `patience` makes no difference. -/
def walk (m : ObjectModel) : List Nat :=
  m.visit (m.roots.length * m.objects.length + patience) m.roots

/-- Whether an object matches a type. -/
def objectMatches (m : ObjectModel) (n : Nat) (spec? : Option String) : Bool :=
  (m.object? n).any fun o => typeMatches o.cls.lineage spec?

/-- Everything below the roots that matches a type. -/
def allObjects (m : ObjectModel) (spec? : Option String) : List Nat :=
  m.walk.filter fun n => m.objectMatches n spec?

/-- The targets of one reference of an object, or of all of them. -/
def references (m : ObjectModel) (n : Nat) (name? : Option String) : Except Fault (List Nat) :=
  match m.object? n with
  | none => .error .noSuchProperty
  | some o => .ok (o.targets name?)

end ObjectModel

end GraphPattern
