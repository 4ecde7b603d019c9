import GraphPattern.Form

/-!
# GraphPattern — tokens

What the elements of a pattern mean: a node, an edge that leads to the next node, or a constraint
on the part of the pattern read so far. Every token knows the position of its first element.
-/

namespace GraphPattern

/-- The way an edge is followed, seen from the node it is followed from. -/
inductive Direction where
  | out
  | into
deriving DecidableEq, Repr

namespace Direction

/-- The name of a direction in a plan. -/
def name : Direction → String
  | .out => "out"
  | .into => "in"

/-- The same edge followed from its other end. -/
def reverse : Direction → Direction
  | .out => .into
  | .into => .out

@[simp] theorem reverse_reverse (d : Direction) : d.reverse.reverse = d := by
  cases d <;> rfl

end Direction

/-- A node: a name to refer to it and a type to restrict it, both of which may be left out. -/
structure NodeToken where
  name? : Option String
  typeName? : Option String
  index : Nat := 0
deriving DecidableEq, Repr

/-- An edge from the node before it to the node after it, or the other way around. -/
structure EdgeToken where
  name? : Option String
  typeName? : Option String
  direction : Direction
  index : Nat := 0
deriving DecidableEq, Repr

/-- A constraint of a pattern. -/
inductive Constraint where
  /-- The match is dropped unless the form holds. -/
  | when (form : Form)
  /-- Names are bound to the values of forms. -/
  | bind (bindings : List (String × Form))
  /-- The innermost enumeration ends once the form fails. -/
  | whilst (form : Form)
deriving DecidableEq, Repr

namespace Constraint

/-- The forms of a constraint, in order. -/
def forms : Constraint → List Form
  | .when f | .whilst f => [f]
  | .bind bs => bs.map (·.2)

end Constraint

/-- A constraint at its place in the pattern. -/
structure ConstraintToken where
  constraint : Constraint
  index : Nat := 0
deriving DecidableEq, Repr

/-- One unit of a pattern. -/
inductive Token where
  | node (t : NodeToken)
  | edge (t : EdgeToken)
  | constraint (t : ConstraintToken)
deriving DecidableEq, Repr

namespace Token

/-- The position of the token's first element. -/
def index : Token → Nat
  | .node t => t.index
  | .edge t => t.index
  | .constraint t => t.index

/-- The token at another position. -/
def atIndex (i : Nat) : Token → Token
  | .node t => .node { t with index := i }
  | .edge t => .edge { t with index := i }
  | .constraint t => .constraint { t with index := i }

@[simp] theorem index_atIndex (i : Nat) (t : Token) : (t.atIndex i).index = i := by
  cases t <;> rfl

end Token

end GraphPattern
