import GraphPattern.Model.TypedGraph
import GraphPattern.Model.ObjectModel
import GraphPattern.Path

/-!
# GraphPattern — models

What a plan is run against, as the two engines see it: where candidates come from, what an
element's type and attributes are, and where a path leads. An operation on a value that is no
element of the right sort is a fault, except for type tests, which such values fail.

The candidates that an engine has for a variable are looked for only when they are read: they are a
`Supply`. What goes wrong in looking for them is a fault of whoever reads them first.
-/

namespace GraphPattern

/-! ## Supplies of candidates -/

/-- Candidates that are still to be read. -/
inductive Supply where
  | values (vs : List Value)
  /-- The first reading meets a fault. -/
  | broken (f : Fault)
deriving DecidableEq, Repr

namespace Supply

/-- The supply of the candidates that a search finds. -/
def ofSearch : Except Fault (List Value) → Supply
  | .ok vs => values vs
  | .error f => broken f

/-- How often a supply can be read, the reading that meets its fault included. -/
def size : Supply → Nat
  | values vs => vs.length
  | broken _ => 1

end Supply

/-! ## Models -/

/-- Something a plan can be run against. -/
inductive Model where
  | nothing
  | graph (g : TypedGraph)
  | objects (m : ObjectModel)
deriving Repr, Inhabited

namespace Model

/-- The sort of a model, as complaints name it. -/
def title : Model → String
  | .nothing => "NoneType"
  | .graph _ => "TypedGraph"
  | .objects _ => "ObjectModel"

/-- The model as descriptions of a match sequence show it. -/
def text : Model → String
  | .nothing => "None"
  | .graph g => g.text
  | .objects _ => "ObjectModel"

/-! ## Elements -/

/-- The element of a number: a vertex or edge by its id, or an object. -/
def elementNumbered (m : Model) (n : Int) : Except Fault Value :=
  match m with
  | .graph g =>
    if 1 ≤ n ∧ n.toNat ≤ g.elements.length then .ok (g.valueOf n.toNat)
    else .error (.missingElement n)
  | .objects m =>
    if 0 ≤ n ∧ n.toNat < m.objects.length then .ok (.object n.toNat)
    else .error (.missingElement n)
  | .nothing => .error (.missingElement n)

/-- The class and the attributes of an element. -/
def element? (m : Model) (v : Value) : Option (Lineage × Bindings) :=
  match m, v with
  | .graph g, .vertex id => (g.vertex? id).map fun x => (x.cls.lineage, x.attributes)
  | .graph g, .edge id => (g.edge? id).map fun x => (x.cls.lineage, x.attributes)
  | .objects m, .object n => (m.object? n).map fun x => (x.cls.lineage, x.attributes)
  | _, _ => none

/-- An element as messages show it. -/
def elementText (m : Model) (v : Value) : String :=
  match m, v with
  | .graph g, .vertex id | .graph g, .edge id => g.elementText id
  | .objects m, .object n => m.objectText n
  | _, _ => v.bareName

/-- The attributes of an element. -/
def attributes (m : Model) (v : Value) : Except Fault Bindings :=
  match m.element? v with
  | some (_, attributes) => .ok attributes
  | none => .error .noSuchProperty

/-- An attribute of an element, which has to exist. -/
def attributeOf (m : Model) (v : Value) (name : String) : Except Fault Value := do
  match (← m.attributes v).get? name with
  | some w => return w
  | none => throw (.missingAttribute name)

/-- The name of an element's class. -/
def className (m : Model) (v : Value) : Except Fault String :=
  match m.element? v with
  | some (c, _) => .ok c.name
  | none => .error .noSuchProperty

/-- The far ends of the edges at a vertex that match a type and leave it in a direction. -/
def adjacentElements (m : Model) (v : Value) (t : TypeMark) (d : Direction) :
    Except Fault (List Value) :=
  match m, v with
  | .graph g, .vertex id => do
    return (← t.select fun spec? => g.neighbours id spec? d).map g.valueOf
  | _, _ => .error .noSuchProperty

/-- The targets of one reference of an object, or of all of them. No reference has the name of a
mark that is no text. -/
def references (m : Model) (v : Value) (name : TypeMark) : Except Fault (List Value) :=
  match m, v with
  | .objects m, .object n => do
    match name with
    | .any => return (← m.references n none).map .object
    | .spec s => return (← m.references n (some s)).map .object
    | _ => return []
  | _, _ => .error .noSuchProperty

end Model

/-! ## What the engines do -/

namespace Engine

/-- The elements of a model that match a type. -/
def instances (e : Engine) (m : Model) (t : TypeMark) : Except Fault Supply :=
  match e, m with
  | .graph, .graph g =>
    .ok (.ofSearch (t.select fun spec? => .ok ((g.vertices spec?).map .vertex)))
  | .containment, .objects m =>
    .ok (.ofSearch (t.select fun spec? => .ok ((m.allObjects spec?).map .object)))
  | e, m => .error (.wrongModel e m.title)

/-- Whether a value is an element of the engine's sort and matches a type. -/
def isInstance (e : Engine) (m : Model) (v : Value) (t : TypeMark) : Except Fault Bool :=
  match e, v with
  | .graph, .vertex _ | .graph, .edge _ | .containment, .object _ =>
    match m.element? v with
    | some (c, _) => do return typeMatches c (← t.spec?)
    | none => .ok false
  | _, _ => .ok false

/-- The edges at a vertex that match a type and leave it in a direction. -/
def adjacent (m : Model) (v : Value) (t : TypeMark) (d : Direction) : Except Fault Supply :=
  match m, v with
  | .graph g, .vertex id =>
    .ok (.ofSearch (t.select fun spec? => do
      return (← g.incident id spec? (some d)).map .edge))
  | _, _ => .error .noSuchProperty

/-- The end of an edge that it leads to (`far`) or comes from, followed in a direction. -/
def edgeEnd (m : Model) (v : Value) (d : Direction) (far : Bool) : Except Fault Value :=
  match m, v with
  | .graph g, .edge id => do
    return g.valueOf (← if far then g.farEnd id d else g.nearEnd id d)
  | _, _ => .error .noSuchProperty

/-- The neighbours of an element along edges or references of a type in a direction. -/
def neighbours (e : Engine) (m : Model) (v : Value) (t : TypeMark) (d : Direction) :
    Except Fault (List Value) :=
  match e, d with
  | .graph, d => m.adjacentElements v t d
  | .containment, .out => m.references v t
  | .containment, .into => .error .backwardReference

/-- The elements that a path leads to, each once, in the order in which they are found. -/
def reachable (e : Engine) (m : Model) (start : Value) (p : Path) : Except Fault (List Value) :=
  p.evaluate (e.neighbours m) (e.isInstance m) start

end Engine

end GraphPattern
