import GraphPattern.Model.TypedGraph
import GraphPattern.Model.ObjectModel

/-!
# GraphPattern — building models

A model is built by a sequence of commands: classes are defined, elements are made, objects are
linked. A command that the model does not allow is a fault; the commands after it may go on with
what is there.

* `GraphCommand`, `GraphWork.perform` — one step in building a typed graph. Only elements whose
  making succeeded are handed out and can be named by later steps.
* `ObjectCommand`, `ObjectWork.perform` — one step in building an object model. Classes of objects
  belong to no model; the work keeps them by name, and a name that is defined again stands for the
  later class from then on.
* `GraphWork.build`, `ObjectWork.build` — all steps, up to the first fault.
-/

namespace GraphPattern

/-- A step in building a typed graph. Elements are named by their ids. -/
inductive GraphCommand where
  | defineClass (name : String) (supers : List String) (isEdge : Bool)
  | createVertex (className : String) (attributes : Bindings)
  | createEdge (className : String) (alpha omega : Int) (attributes : Bindings)
deriving Repr

/-- What a step in building a typed graph makes. -/
inductive GraphItem where
  | cls (c : ElementClass)
  | element (id : Nat)
deriving Repr

/-- A typed graph that is being built, and the ids of the elements that were handed out. An edge
whose making failed may be in the graph all the same, but nobody got hold of it. -/
structure GraphWork where
  graph : TypedGraph := {}
  handed : List Nat := []
deriving Repr, Inhabited

namespace GraphWork

/-- An element that was handed out. -/
def find (w : GraphWork) (id : Int) : Except Fault Nat :=
  if 0 ≤ id ∧ id.toNat ∈ w.handed then .ok id.toNat else .error (.missingElement id)

/-- Hands out an element that was made. -/
def hand (w : GraphWork) : Except Fault Nat × TypedGraph → Except Fault GraphItem × GraphWork
  | (.ok id, graph) => (.ok (.element id), { graph, handed := id :: w.handed })
  | (.error f, graph) => (.error f, { w with graph })

/-- Performs a step. -/
def perform (w : GraphWork) : GraphCommand → Except Fault GraphItem × GraphWork
  | .defineClass name supers isEdge =>
    match w.graph.schema.define name supers isEdge with
    | .ok (c, schema) => (.ok (.cls c), { w with graph := { w.graph with schema } })
    | .error f => (.error f, w)
  | .createVertex name attributes =>
    match w.graph.createVertex name attributes with
    | .ok (id, graph) => w.hand (.ok id, graph)
    | .error f => (.error f, w)
  | .createEdge name alpha omega attributes =>
    match w.find alpha, w.find omega with
    | .ok alpha, .ok omega => w.hand (w.graph.createEdge name alpha omega attributes)
    | .error f, _ => (.error f, w)
    | _, .error f => (.error f, w)

/-- Performs steps up to the first fault. -/
def performAll (w : GraphWork) : List GraphCommand → Except Fault GraphWork
  | [] => .ok w
  | c :: rest =>
    match w.perform c with
    | (.ok _, w) => w.performAll rest
    | (.error f, _) => .error f

/-- The graph that some steps build. -/
def build (commands : List GraphCommand) : Except Fault TypedGraph := do
  return (← performAll {} commands).graph

/-- What a step made, as it is shown. -/
def itemText (w : GraphWork) : GraphItem → String
  | .cls c => c.text
  | .element id => w.graph.elementText id

end GraphWork

/-- A step in building an object model. Objects are named by their numbers. -/
inductive ObjectCommand where
  | defineClass (name : String) (supers containments : List String)
  | create (className : String) (attributes : Bindings)
  | add (owner : Int) (reference : String) (target : Int)
  | addRoot (n : Int)
deriving Repr

/-- What a step in building an object model makes or is about. -/
inductive ObjectItem where
  | cls (c : ObjectClass)
  /-- An object that was made. -/
  | created (n : Nat)
  /-- An object that was linked. -/
  | linked (n : Nat)
deriving Repr

/-- An object model that is being built, and its classes by name. -/
structure ObjectWork where
  classes : List (String × ObjectClass) := []
  model : ObjectModel := {}
deriving Repr, Inhabited

namespace ObjectWork

def lookup (w : ObjectWork) (name : String) : Except Fault ObjectClass :=
  match w.classes.lookup name with
  | some c => .ok c
  | none => .error (.unknownName name)

/-- An object that was made. -/
def find (w : ObjectWork) (n : Int) : Except Fault Nat :=
  if 0 ≤ n ∧ n.toNat < w.model.objects.length then .ok n.toNat else .error (.missingElement n)

/-- Performs a step. -/
def perform (w : ObjectWork) : ObjectCommand → Except Fault (ObjectItem × ObjectWork)
  | .defineClass name supers containments => do
    let c := ObjectClass.define name (← supers.mapM w.lookup) containments
    return (.cls c, { w with classes := (name, c) :: w.classes })
  | .create name attributes => do
    let (n, model) ← w.model.create (← w.lookup name) attributes
    return (.created n, { w with model })
  | .add owner reference target => do
    let owner ← w.find owner
    let target ← w.find target
    return (.linked target, { w with model := ← w.model.add owner reference target })
  | .addRoot n => do
    let n ← w.find n
    return (.linked n, { w with model := w.model.addRoot n })

/-- Performs steps up to the first fault. -/
def performAll (w : ObjectWork) : List ObjectCommand → Except Fault ObjectWork
  | [] => .ok w
  | c :: rest => do (← w.perform c).2.performAll rest

/-- The object model that some steps build. -/
def build (commands : List ObjectCommand) : Except Fault ObjectModel := do
  return (← performAll {} commands).model

end ObjectWork

end GraphPattern
