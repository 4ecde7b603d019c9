import GraphPattern.Form

/-!
# GraphPattern — pattern elements

A pattern is given as a sequence of elements. Most are texts, each a token or a constraint marker;
the payload of a marker is a form or a collection of named forms. Anything else that can be
written in an element's place is refused later, but shown in the refusal.

* `Element.literal` — an element inside a collection, as messages show it.
* `Element.shown` — an element of a shown pattern; `Pattern.shown` joins them by single spaces.
* `Pattern.locate` — the place of an element in the shown pattern.
-/

namespace GraphPattern

/-- An element of a pattern. -/
inductive Element where
  | null
  | bool (b : Bool)
  | int (n : Int)
  | float (x : Binary64)
  | text (s : String)
  | form (f : Form)
  | list (es : List Element)
  | tuple (es : List Element)
  /-- Named elements; the names are distinct. -/
  | map (entries : List (String × Element))
deriving Repr, Inhabited

namespace Element

mutual

/-- An element inside a collection. -/
def literal : Element → String
  | .null => "None"
  | .bool b => if b then "True" else "False"
  | .int n => toString n
  | .float x => x.text
  | .text s => Text.quoted s
  | .form f => f.anonymousName
  | .list es => "[" ++ ", ".intercalate (literals es) ++ "]"
  | .tuple es => match literals es with
    | [only] => "(" ++ only ++ ",)"
    | shown => "(" ++ ", ".intercalate shown ++ ")"
  | .map entries => "\x7b" ++ ", ".intercalate (entryLiterals entries) ++ "\x7d"

def literals : List Element → List String
  | [] => []
  | e :: es => literal e :: literals es

def entryLiterals : List (String × Element) → List String
  | [] => []
  | (k, e) :: es => (Text.quoted k ++ ": " ++ literal e) :: entryLiterals es

end

/-- An element of a shown pattern: texts without quotes, forms by their name. -/
def shown : Element → String
  | .text s => s
  | .form f => f.asElement
  | e => e.literal

/-- The named elements of a list of pairs, in which a repeated name keeps its first place and
takes the last element. -/
def mapOf (entries : List (String × Element)) : Element :=
  .map <| entries.foldl (fun acc kv =>
    if acc.any (·.1 == kv.1) then acc.map fun old => if old.1 == kv.1 then kv else old
    else acc ++ [kv]) []

end Element

/-- The place of a pattern element: its position in the sequence, and the column and width of its
shown text, columns counted from 1. -/
structure Location where
  index : Int
  column : Int := 0
  length : Int := 0
deriving DecidableEq, Repr

/-- How messages name a place. -/
def Location.text (l : Location) : String :=
  s!"element {l.index}"

namespace Pattern

/-- A pattern as messages show it. -/
def shown (elements : List Element) : String :=
  " ".intercalate (elements.map Element.shown)

/-- The width of some shown elements, with the space after each. -/
def widthOf : List Element → Nat
  | [] => 0
  | e :: es => e.shown.length + 1 + widthOf es

/-- The column at which the element at `index` starts, or the first column after the pattern. -/
def columnOf (elements : List Element) (index : Nat) : Nat :=
  1 + widthOf (elements.take index)

/-- The place of the element at `index` in the shown pattern. An element that is shown as nothing
is one column wide, and so is a place outside the pattern, which comes after it. -/
def locate (elements : List Element) (index : Int) : Location :=
  if index < 0 then ⟨index, columnOf elements elements.length, 1⟩
  else
    let width := (elements[index.toNat]?.map fun e => max 1 e.shown.length).getD 1
    ⟨index, columnOf elements index.toNat, width⟩

end Pattern

end GraphPattern
