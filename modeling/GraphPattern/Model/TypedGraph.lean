import GraphPattern.TypeSpec
import GraphPattern.Token
import GraphPattern.Fault

/-!
# GraphPattern — typed graphs

A model of vertices and directed edges, each of a class of a schema and with attributes. Elements
are numbered from 1 in the order in which they are made; vertices and edges share one count. A
vertex knows its incident edges in the order in which they were made.

* `Schema.define` — adds a class under classes of its own kind.
* `TypedGraph.createVertex`, `TypedGraph.createEdge` — add an element.
* `TypedGraph.incident` — the edges at a vertex that match a type, in one or both directions.
-/

namespace GraphPattern

/-- A class of vertices or of edges. -/
structure ElementClass where
  lineage : Lineage
  isEdge : Bool
deriving Repr, Inhabited

namespace ElementClass

def name (c : ElementClass) : String := c.lineage.name

def text (c : ElementClass) : String :=
  (if c.isEdge then "EdgeClass(" else "VertexClass(") ++ c.name ++ ")"

end ElementClass

/-- The classes of a model, in the order of their definition. Their names are distinct. -/
structure Schema where
  classes : List ElementClass := []
deriving Repr, Inhabited

namespace Schema

def find? (s : Schema) (name : String) : Option ElementClass :=
  s.classes.find? (·.name == name)

def lookup (s : Schema) (name : String) : Except Fault ElementClass :=
  match s.find? name with
  | some c => .ok c
  | none => .error (.unknownClass name)

/-- Defines a class. The name has to be free, and the classes it specializes have to be defined
and of its own kind. -/
def define (s : Schema) (name : String) (supers : List String) (isEdge : Bool) :
    Except Fault (ElementClass × Schema) := do
  if (s.find? name).isSome then throw (.classTaken name)
  let above ← supers.mapM s.lookup
  match above.find? (·.isEdge != isEdge) with
  | some other => throw (.kindsMixed name other.name)
  | none =>
    let c : ElementClass := ⟨.mk name (above.map (·.lineage)), isEdge⟩
    return (c, ⟨s.classes ++ [c]⟩)

end Schema

structure Vertex where
  cls : ElementClass
  attributes : Bindings
  /-- The incident edges by id, each in the direction in which it leaves the vertex. -/
  incidences : List (Nat × Direction) := []
deriving Repr, Inhabited

structure Edge where
  cls : ElementClass
  alpha : Nat
  omega : Nat
  attributes : Bindings
deriving Repr, Inhabited

/-- An element of a typed graph. -/
inductive GraphElement where
  | vertex (v : Vertex)
  | edge (e : Edge)
deriving Repr, Inhabited

namespace GraphElement

def cls : GraphElement → ElementClass
  | .vertex v => v.cls
  | .edge e => e.cls

def attributes : GraphElement → Bindings
  | .vertex v => v.attributes
  | .edge e => e.attributes

end GraphElement

/-- A model of vertices and edges. The element with id `n` is the `n`-th one: an id is drawn from the
common count exactly when an element is added, so the count is the number of elements. Vertices and
edges need no lists of their own; in the order in which they are made, they are those among the
elements (`TypedGraph.vertices`, `TypedGraph.edges`). -/
structure TypedGraph where
  schema : Schema := {}
  elements : List GraphElement := []
deriving Repr, Inhabited

namespace TypedGraph

/-! ## Looking things up -/

def element? (g : TypedGraph) : Nat → Option GraphElement
  | 0 => none
  | n + 1 => g.elements[n]?

def vertex? (g : TypedGraph) (id : Nat) : Option Vertex :=
  match g.element? id with
  | some (.vertex v) => some v
  | _ => none

def edge? (g : TypedGraph) (id : Nat) : Option Edge :=
  match g.element? id with
  | some (.edge e) => some e
  | _ => none

/-- The element of an id as a value. -/
def valueOf (g : TypedGraph) (id : Nat) : Value :=
  if (g.edge? id).isSome then .edge id else .vertex id

/-- The elements with their ids. -/
def numbered (g : TypedGraph) : List (Nat × GraphElement) :=
  (List.range' 1 g.elements.length).zip g.elements

/-- The ids of the vertices that match a type. -/
def vertices (g : TypedGraph) (spec? : Option String) : List Nat :=
  g.numbered.filterMap fun
    | (id, .vertex v) => if typeMatches v.cls.lineage spec? then some id else none
    | (_, .edge _) => none

/-- The ids of the edges that match a type. -/
def edges (g : TypedGraph) (spec? : Option String) : List Nat :=
  g.numbered.filterMap fun
    | (_, .vertex _) => none
    | (id, .edge e) => if typeMatches e.cls.lineage spec? then some id else none

/-- The edges at a vertex that match a type and leave it in a direction, or in any: a loop occurs
once in each. Only vertices have edges at them. -/
def incident (g : TypedGraph) (id : Nat) (spec? : Option String) (direction? : Option Direction) :
    Except Fault (List Nat) :=
  match g.vertex? id with
  | none => .error .noSuchProperty
  | some v =>
    .ok <| v.incidences.filterMap fun (e, d) =>
      if direction?.all (· = d) && (g.edge? e).any fun edge =>
          typeMatches edge.cls.lineage spec? then some e
      else none

/-- The end of an edge that it leads to when it is followed in a direction. -/
def farEnd (g : TypedGraph) (id : Nat) (d : Direction) : Except Fault Nat :=
  match g.edge? id, d with
  | none, _ => .error .noSuchProperty
  | some e, .out => .ok e.omega
  | some e, .into => .ok e.alpha

/-- The end of an edge that it comes from when it is followed in a direction. -/
def nearEnd (g : TypedGraph) (id : Nat) (d : Direction) : Except Fault Nat :=
  g.farEnd id d.reverse

/-- The neighbours of a vertex, one for each edge that leads to them. -/
def neighbours (g : TypedGraph) (id : Nat) (spec? : Option String) (d : Direction) :
    Except Fault (List Nat) := do
  (← g.incident id spec? (some d)).mapM fun e => g.farEnd e d

/-! ## Growing -/

/-- Adds a vertex of a vertex class. Its own parts are no attributes. -/
def createVertex (g : TypedGraph) (className : String) (attributes : Bindings) :
    Except Fault (Nat × TypedGraph) := do
  Bindings.refuse ["self", "type_name"] attributes
  let cls ← g.schema.lookup className
  if cls.isEdge then throw (.edgeClassForVertex className)
  return (g.elements.length + 1, { g with elements := g.elements ++ [.vertex { cls, attributes }] })

/-- Notes an edge at the vertex that it leaves in a direction. -/
def attach (g : TypedGraph) (vertex edge : Nat) (d : Direction) : TypedGraph :=
  { g with
    elements := g.elements.modify (vertex - 1) fun
      | .vertex v => .vertex { v with incidences := v.incidences ++ [(edge, d)] }
      | .edge e => .edge e }

/-- The class of a new edge with some attributes. Its own parts are no attributes. -/
def classForEdge (g : TypedGraph) (className : String) (attributes : Bindings) :
    Except Fault ElementClass := do
  Bindings.refuse ["self", "type_name", "alpha", "omega"] attributes
  let cls ← g.schema.lookup className
  if cls.isEdge then return cls else throw (.vertexClassForEdge className)

/-- Adds an edge of an edge class between two vertices. An edge whose ends are no vertices is made
all the same, but not noted from the first such end on. -/
def createEdge (g : TypedGraph) (className : String) (alpha omega : Nat) (attributes : Bindings) :
    Except Fault Nat × TypedGraph :=
  match g.classForEdge className attributes with
  | .error f => (.error f, g)
  | .ok cls =>
    let id := g.elements.length + 1
    let g := { g with elements := g.elements ++ [.edge { cls, alpha, omega, attributes }] }
    if (g.vertex? alpha).isNone then (.error .noSuchProperty, g)
    else
      let g := g.attach alpha id .out
      if (g.vertex? omega).isNone then (.error .noSuchProperty, g)
      else (.ok id, g.attach omega id .into)

/-! ## Texts -/

def vertexText (g : TypedGraph) (id : Nat) : String :=
  s!"v{id}:" ++ ((g.element? id).map (·.cls.name)).getD ""

/-- An element with its class, an edge with its ends. -/
def elementText (g : TypedGraph) (id : Nat) : String :=
  match g.edge? id with
  | some e =>
    s!"e{id}:" ++ e.cls.name ++ "(" ++ g.vertexText e.alpha ++ " -> " ++ g.vertexText e.omega ++ ")"
  | none => g.vertexText id

def text (g : TypedGraph) : String :=
  s!"TypedGraph({(g.vertices none).length} vertices, {(g.edges none).length} edges)"

end TypedGraph

end GraphPattern
