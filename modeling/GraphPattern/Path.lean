import GraphPattern.Token
import GraphPattern.TypeMark

/-!
# GraphPattern — paths

A path leads from one element of a model to others: along edges or references, and through type
tests. A chain of anonymous nodes is compiled into one path.

A path is followed from an element part by part, with a list of the elements that are reached so
far, each of them once, in the order in which they are first found.
-/

namespace GraphPattern

/-- A part of a path. -/
inductive Segment where
  /-- Goes on with elements that match a type. -/
  | restrict (type : TypeMark)
  /-- Follows edges of a type in a direction. -/
  | step (direction : Direction) (type : TypeMark)
  /-- A part of a kind that nothing here can follow. -/
  | foreign (kind : String)
deriving DecidableEq, Repr

/-- Whether two parts are equal. What is of a foreign kind is equal to nothing. -/
def Segment.same : Segment → Segment → Bool
  | .restrict t, .restrict t' => t.same t'
  | .step d t, .step d' t' => d == d' && t.same t'
  | _, _ => false

def Segment.text : Segment → String
  | .restrict t => "restr<" ++ t.text ++ ">"
  | .step d t =>
    let label := if t.isVoid then "" else "<" ++ t.text ++ ">"
    match d with
    | .out => "-" ++ label ++ "->"
    | .into => "<-" ++ label ++ "-"
  | .foreign k => k ++ "()"

/-- The parts of a path, in the order in which they are followed. -/
abbrev Path := List Segment

/-- Whether two paths are equal, part by part. -/
def Path.same (p q : Path) : Bool :=
  p.length == q.length && (p.zip q).all fun (s, t) => s.same t

def Path.text (p : Path) : String :=
  "[" ++ " ".intercalate (p.map Segment.text) ++ "]"

/-! ## Following paths -/

variable {α : Type _} [BEq α]

/-- Each element once, where it occurs first. -/
def distinct (xs : List α) : List α :=
  xs.eraseDups

/-- Each value once, where it first occurs: what is the same thing as a value before it or equal to
one is left out. Lists have no place among values that are told apart. -/
def Value.distinct (vs : List Value) : Except Fault (List Value) :=
  if vs.any Value.isList then .error .wrongOperand
  else .ok (vs.eraseDupsBy Value.fits)

namespace Path

/-- The elements that one part of a path leads to. `step` gives the neighbours of an element along
edges of a type in a direction, `test` whether an element matches a type. -/
def advance (step : α → TypeMark → Direction → Except Fault (List α))
    (test : α → TypeMark → Except Fault Bool) (current : List α) : Segment → Except Fault (List α)
  | .step d t => do return distinct (← current.mapM fun x => step x t d).flatten
  | .restrict t => current.filterM fun x => test x t
  | .foreign _ => .error .unknownSegment

/-- The elements that a path leads to from some elements. Nothing is followed once there are
none. -/
def evaluateFrom (step : α → TypeMark → Direction → Except Fault (List α))
    (test : α → TypeMark → Except Fault Bool) : List α → Path → Except Fault (List α)
  | current, [] => .ok current
  | [], _ :: _ => .ok []
  | x :: current, s :: rest => do
    evaluateFrom step test (← advance step test (x :: current) s) rest

/-- The elements that a path leads to. -/
def evaluate (step : α → TypeMark → Direction → Except Fault (List α))
    (test : α → TypeMark → Except Fault Bool) (start : α) (p : Path) : Except Fault (List α) :=
  evaluateFrom step test [start] p

end Path

end GraphPattern
