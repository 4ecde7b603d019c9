import GraphPattern.Number.Shortest
import GraphPattern.Fault

/-!
# GraphPattern — type marks

What stands in the type position of a path or a plan. A compiled plan has a type spec there or
nothing; a plan that is put together by hand may have a number or a truth value, which is no type.
It can be carried along, shown and compared; only restricting something by it is a fault.

* `TypeMark.spec?` — the spec that a mark stands for.
* `TypeMark.select` — what matches a mark.
-/

namespace GraphPattern

/-- What stands in the type position of a path or a plan. -/
inductive TypeMark where
  /-- Nothing: every type is meant. -/
  | any
  | spec (s : String)
  | number (n : Int)
  | float (x : Binary64)
  | truth (b : Bool)
deriving DecidableEq, Repr

namespace TypeMark

/-- The mark of a type that may be left out. -/
def ofName? : Option String → TypeMark
  | none => any
  | some s => spec s

def text : TypeMark → String
  | any => "None"
  | spec s => s
  | number n => toString n
  | float x => x.text
  | truth b => if b then "True" else "False"

/-- Marks that leave everything in. -/
def isVoid : TypeMark → Bool
  | any => true
  | spec s => s.isEmpty
  | number n => n == 0
  | float x => x.isZero
  | truth b => !b

/-- What a mark amounts to as a number. -/
def quantity? : TypeMark → Option Quantity
  | any | spec _ => none
  | number n => some (.rational n)
  | float x => some x.quantity
  | truth b => some (.rational (if b then 1 else 0))

/-- Whether two marks are equal, numbers and truth values by what they amount to. -/
def same (a b : TypeMark) : Bool :=
  match a.quantity?, b.quantity? with
  | some x, some y => x.same y
  | _, _ => decide (a = b)

/-- The type spec that a mark stands for. A mark that is no type is a fault where it would have to
restrict something. -/
def spec? : TypeMark → Except Fault (Option String)
  | any => .ok none
  | spec s => .ok (some s)
  | t => if t.isVoid then .ok none else .error .noSuchProperty

/-- What matches a mark, where `matching` gives what matches a spec. A mark that is no type is a
fault as soon as there is anything to compare it with. -/
def select {α : Type _} (t : TypeMark) (matching : Option String → Except Fault (List α)) :
    Except Fault (List α) :=
  match t.spec? with
  | .ok spec? => matching spec?
  | .error f => do if (← matching none).isEmpty then return [] else throw f

end TypeMark

end GraphPattern
