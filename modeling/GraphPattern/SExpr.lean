/-!
# GraphPattern — S-expressions

A text form for trees: a symbol, a text in quotes, a number or truth value, or a list in
parentheses.

* `SExpr.compact` — on one line, with escapes in symbols and texts, so that it can be read back.
* `SExpr.pretty` — over several lines where a list does not fit on one; symbols are not escaped.
-/

namespace GraphPattern

/-- A tree that is written as an S-expression. -/
inductive SExpr where
  | symbol (s : String)
  | text (s : String)
  | number (n : Int)
  | truth (b : Bool)
  /-- No value at all, where one could stand. -/
  | absent
  | list (parts : List SExpr)
deriving Repr, Inhabited

namespace SExpr

/-- Characters that are marked in a compact symbol. -/
def isSpecial (c : Char) : Bool :=
  ['\\', '\'', '\x60', '"', '(', ')', '[', ']', ' ', ',', '?', ';', '#'].contains c

/-- A symbol in which special characters are marked by a backslash. -/
def escapeSymbol (s : String) : String :=
  String.ofList (s.toList.flatMap fun c => if isSpecial c then ['\\', c] else [c])

/-- One character of a compact text. -/
def escapeTextChar (c : Char) : List Char :=
  match c with
  | '\\' => ['\\', '\\']
  | '"' => ['\\', '"']
  | '\x08' => ['\\', 'b']
  | '\x0c' => ['\\', 'f']
  | '\n' => ['\\', 'n']
  | '\r' => ['\\', 'r']
  | '\t' => ['\\', 't']
  | c => [c]

def escapeText (s : String) : String :=
  "\"" ++ String.ofList (s.toList.flatMap escapeTextChar) ++ "\""

mutual

/-- The form on one line. -/
def compact : SExpr → String
  | symbol s => escapeSymbol s
  | text s => escapeText s
  | number n => toString n
  | truth b => if b then "t" else "()"
  | absent => "()"
  | list parts => "(" ++ " ".intercalate (compacts parts) ++ ")"

def compacts : List SExpr → List String
  | [] => []
  | p :: ps => compact p :: compacts ps

end

/-- The longest line a list is written on. -/
def lineWidth : Nat := 100

def indentation (depth : Nat) : String :=
  String.ofList (List.replicate (2 * depth) ' ')

/-- A text in quotes in which only quotes and backslashes are escaped. -/
def quoteText (s : String) : String :=
  "\"" ++ String.ofList (s.toList.flatMap fun c => if c = '"' ∨ c = '\\' then ['\\', c] else [c]) ++
    "\""

/-- A list at some depth, from its written parts: on one line if it fits and no part is broken,
else with a line for every part after the first. -/
def layout (depth : Nat) (parts : List String) : String :=
  let oneLine := "(" ++ " ".intercalate parts ++ ")"
  if oneLine.length ≤ lineWidth && !oneLine.toList.contains '\n' then oneLine
  else
    match parts with
    | [] => "()"
    | first :: rest =>
      let lines := first :: rest.map (indentation (depth + 1) ++ ·)
      "(" ++ "\n".intercalate lines ++ "\n" ++ indentation depth ++ ")"

mutual

/-- The form over several lines. -/
def pretty (depth : Nat) : SExpr → String
  | symbol s => s
  | text s => quoteText s
  | number n => toString n
  | truth b => if b then "True" else "False"
  | absent => "None"
  | list parts => layout depth (pretties (depth + 1) parts)

def pretties (depth : Nat) : List SExpr → List String
  | [] => []
  | p :: ps => pretty depth p :: pretties depth ps

end

end SExpr

end GraphPattern
