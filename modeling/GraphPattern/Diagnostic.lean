import GraphPattern.Element

/-!
# GraphPattern — diagnostics

A pattern that cannot be compiled is answered with a diagnostic: a code, a message and, where it
is known, the shown pattern with the offending element marked.

* `Diagnostic.summary` — the one-line form.
* `Diagnostic.render` — the block with the marked pattern, a label, and a hint or a note, plain or
  coloured.
-/

namespace GraphPattern

/-- The kinds of refusal. -/
inductive DiagnosticKind where
  | malformedToken
  | conflictingName
  | namedEdge
  | argumentEdge
  | ambiguousChain
  | engineUnset
  | edgeDirection
  | unboundFormName
  /-- A refusal without a code of its own. -/
  | general
deriving DecidableEq, Repr

def DiagnosticKind.code? : DiagnosticKind → Option String
  | .malformedToken => some "P0001"
  | .conflictingName => some "P0002"
  | .namedEdge => some "P0003"
  | .argumentEdge => some "P0004"
  | .ambiguousChain => some "P0005"
  | .engineUnset => some "P0006"
  | .edgeDirection => some "P0007"
  | .unboundFormName => some "P0008"
  | .general => none

/-- A refused pattern. -/
structure Diagnostic where
  kind : DiagnosticKind
  message : String
  location? : Option Location := none
  patternText? : Option String := none
  /-- Stands behind the mark. -/
  label? : Option String := none
  help? : Option String := none
  note? : Option String := none
deriving DecidableEq, Repr

/-- Colours and weights of a coloured diagnostic. -/
inductive Paint where
  | bold
  | red
  | blue
  | cyan
deriving DecidableEq, Repr

/-- The terminal's sequence that turns a paint on. -/
def Paint.code : Paint → String
  | .bold => "\x1b[1m"
  | .red => "\x1b[31m"
  | .blue => "\x1b[34m"
  | .cyan => "\x1b[36m"

/-- A text in some paints, which end with it. -/
def paint (color : Bool) (paints : List Paint) (text : String) : String :=
  if color && !paints.isEmpty then
    String.join (paints.map Paint.code) ++ text ++ "\x1b[0m"
  else text

/-- Whether diagnostics are coloured, from the two settings that decide it: any text in the first
turns colours off, and so does a word of refusal in the second. -/
def colorWanted (noColor? setting? : Option String) : Bool :=
  noColor?.all (·.isEmpty) &&
    !(["0", "false", "no", "never"].contains (setting?.getD "").toLower)

namespace Diagnostic

/-- The name under which a place in the pattern is given. -/
def sourceName : String := "<pattern>"

/-- The one-line form. -/
def summary (d : Diagnostic) : String :=
  let head := "error[" ++ d.kind.code?.getD "None" ++ "]: " ++ d.message
  match d.location? with
  | some l => head ++ " (at " ++ l.text ++ ")"
  | none => head

/-- Spaces up to the place's column, then a caret for every column of it; a place is marked by at
least one caret. -/
def carets (l : Location) : String :=
  String.ofList (List.replicate (l.column - 1).toNat ' ' ++
    List.replicate (max 1 l.length).toNat '^')

/-- A hint or a note that is not empty. -/
def annotation (color : Bool) (word : String) : Option String → List String
  | none => []
  | some text =>
    if text.isEmpty then []
    else [paint color [.bold, .cyan] "  = " ++ paint color [.bold] (word ++ ": ") ++ text]

/-- The margin before a shown line. -/
def gutter (color : Bool) : String :=
  paint color [.bold, .blue] "  |"

/-- The hint and the note, set off by an empty line. -/
def annotations (d : Diagnostic) (color : Bool) : List String :=
  match annotation color "help" d.help? ++ annotation color "note" d.note? with
  | [] => []
  | lines => gutter color :: lines

/-- The place and the shown pattern, as far as they are known. -/
def body (d : Diagnostic) (color : Bool) : List String :=
  let arrow := paint color [.bold, .blue] " --> "
  match d.location?, d.patternText? with
  | some l, some text =>
    let label := match d.label? with
      | some s => if s.isEmpty then "" else " " ++ s
      | none => ""
    [arrow ++ sourceName ++ ":" ++ l.text,
      gutter color,
      gutter color ++ " " ++ text,
      gutter color ++ " " ++ paint color [.bold, .red] (carets l ++ label)]
  | some l, none => [arrow ++ sourceName ++ ":" ++ l.text]
  | none, _ => [arrow ++ "<unknown location>"]

/-- The full form, without a line break at its end. -/
def render (d : Diagnostic) (color : Bool) : String :=
  let code := match d.kind.code? with
    | some c => "[" ++ c ++ "]"
    | none => ""
  let head := paint color [.bold, .red] ("error" ++ code) ++
    paint color [.bold] (": " ++ d.message)
  "\n".intercalate (head :: d.body color ++ d.annotations color)

end Diagnostic

end GraphPattern
