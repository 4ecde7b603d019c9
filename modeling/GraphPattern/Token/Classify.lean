import GraphPattern.Token.Grammar
import GraphPattern.Problem

/-!
# GraphPattern — classification

A pattern splits from left to right into units: a text that is a node or an edge, or a constraint
marker with its payload. `Token.classify` gives one token per unit and refuses the pattern at the
first element that starts no unit.
-/

namespace GraphPattern

namespace Pattern

/-- The elements of a pattern that is given as one value: the words of a text, the members of a
list, the names of named elements. -/
def elements? : Element → Except Failure (List Element)
  | .text s => .ok ((Text.words s).map .text)
  | .list es | .tuple es => .ok es
  | .map entries => .ok (entries.map fun kv => .text kv.1)
  | .null | .bool _ | .int _ | .float _ | .form _ => .error (.fault .notAPattern)

end Pattern

namespace Token

/-- The markers of the three constraints. -/
inductive Marker where
  | when
  | bind
  | whilst
deriving DecidableEq, Repr

def Marker.ofText? (s : String) : Option Marker :=
  if s = ":when" then some .when
  else if s = ":let" then some .bind
  else if s = ":while" then some .whilst
  else none

/-- A marker-like text is read as a marker, never as a token. -/
def startsMarker (s : String) : Bool :=
  s.toList.head? = some ':'

/-- One pair of a name and a form. -/
def binding? : Element → Option (String × Form)
  | .list [.text n, .form f] | .tuple [.text n, .form f] => if isName n then some (n, f) else none
  | _ => none

/-- The bindings of a payload: named forms, or a sequence of pairs. The empty text is a sequence
without members. -/
def bindings? : Element → Option (List (String × Form))
  | .map entries => entries.mapM fun kv => binding? (.tuple [.text kv.1, kv.2])
  | .list es | .tuple es => es.mapM binding?
  | .text "" => some []
  | _ => none

/-- The constraint of a marker and its payload. -/
def constraint? (marker : Marker) (payload : Element) : Except Problem Constraint :=
  match marker, payload with
  | .when, .form f => .ok (.when f)
  | .when, _ => .error (.notPredicate ":when")
  | .whilst, .form f => .ok (.whilst f)
  | .whilst, _ => .error (.notPredicate ":while")
  | .bind, payload =>
    match bindings? payload with
    | some bs => .ok (.bind bs)
    | none => .error .notBindings

/-- The tokens of the elements from position `i` on, or the first problem and its position. -/
def units (i : Nat) : List Element → Except (Problem × Nat) (List Token)
  | [] => .ok []
  | .text s :: rest =>
    if startsMarker s then
      match Marker.ofText? s, rest with
      | none, _ => .error (.unknownMarker s, i)
      | some _, [] => .error (.markerAlone s, i)
      | some m, payload :: rest =>
        match constraint? m payload with
        | .error p => .error (p, i + 1)
        | .ok c => do return .constraint ⟨c, i⟩ :: (← units (i + 2) rest)
    else
      match read? s with
      | none => .error (.malformedToken s, i)
      | some t => do return t.atIndex i :: (← units (i + 1) rest)
  | e :: _ => .error (.unexpectedElement e.literal, i)

/-- The tokens of a pattern. -/
def classify (elements : List Element) : Except Failure (List Token) :=
  match units 0 elements with
  | .ok ts => .ok ts
  | .error (p, i) =>
    let location := Pattern.locate elements i
    .error (.refused (p.diagnostic (some location) (some (Pattern.shown elements))))

end Token

end GraphPattern
