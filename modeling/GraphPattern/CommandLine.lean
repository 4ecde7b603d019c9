import GraphPattern.Compile
import GraphPattern.Text.Characters

/-!
# GraphPattern — the command line

The command compiles one pattern and prints its plan. The words of a command line are operands and
switches; a switch is written in full or by any beginning that fits no other switch, and its value
follows it or, after an equals sign, is part of it. A word that looks like a negative number or
holds a space is an operand even if it starts with a dash, and so is everything after a lone `--`.
A `--` that is part of a switch counts for nothing.

* `CommandLine.read` — what a command line asks for.
* `CommandLine.Request.reply` — what the command prints, and its exit code.
-/

namespace GraphPattern.CommandLine

/-- The switches of the command. -/
inductive Switch where
  | help
  /-- Chooses the engine. -/
  | backend
  /-- Names the arguments of the pattern: all operands up to the next switch. -/
  | args
  /-- Asks for the plan on one line. -/
  | compact
deriving DecidableEq, Repr

namespace Switch

/-- A switch in full. -/
def text : Switch → String
  | .help => "--help"
  | .backend => "--backend"
  | .args => "--args"
  | .compact => "--compact"

/-- The switches that start with a text. -/
def startingWith (part : List Char) : List Switch :=
  [Switch.help, .backend, .args, .compact].filter fun s => part.isPrefixOf s.text.toList

end Switch

/-- The role of a word of a command line. -/
inductive Word where
  | operand (s : String)
  /-- A lone `--`: only operands follow. -/
  | separator
  | switch (s : Switch) (value? : Option String)
  /-- A word that is no switch but cannot be an operand either. -/
  | stray
  /-- A switch with a value it does not take. -/
  | overloaded
deriving DecidableEq, Repr

namespace Word

/-- A word that looks like a negative number: a dash, then digits, or digits that may be left out,
a point and digits. One line break may follow. -/
def looksNegative : List Char → Bool
  | '-' :: cs =>
    let number := if cs.getLast? = some '\n' then cs.dropLast else cs
    match number.takeWhile Text.isDigit, number.dropWhile Text.isDigit with
    | whole, [] => !whole.isEmpty
    | _, '.' :: fraction => !fraction.isEmpty && fraction.all Text.isDigit
    | _, _ => false
  | _ => false

/-- What follows the letter of the short help switch, an equals sign set aside: further short
switches, of which there is only this one. Anything else is a value, which it does not take. -/
def bundled (rest : List Char) : Word :=
  if rest.all (· == 'h') then .switch .help none else .overloaded

/-- A word that starts with two dashes and is not the separator: the part before an equals sign
is a switch, or the beginning of one. More than one switch is ambiguous. -/
def long (cs : List Char) : Option Word :=
  let name := cs.takeWhile (· != '=')
  let value? := match cs.dropWhile (· != '=') with
    | _ :: v => some (String.ofList v)
    | [] => none
  match Switch.startingWith name with
  | [] => some (if cs.contains ' ' then .operand (String.ofList cs) else .stray)
  | [s] => some (.switch s value?)
  | _ => none

/-- The role of a word before the separator; `none` if the word is ambiguous. -/
def classify (s : String) : Option Word :=
  match s.toList with
  | ['-', '-'] => some .separator
  | '-' :: '-' :: cs => long ('-' :: '-' :: cs)
  | ['-', 'h', '='] => some .overloaded
  | '-' :: 'h' :: '=' :: rest => some (bundled rest)
  | '-' :: 'h' :: rest => some (bundled rest)
  | '-' :: c :: cs =>
    if looksNegative ('-' :: c :: cs) || (c :: cs).contains ' ' then some (.operand s)
    else some .stray
  | _ => some (.operand s)

/-- The roles of all words; `none` if one of them is ambiguous. -/
def classifyAll : List String → Option (List Word)
  | [] => some []
  | s :: rest => do
    match ← classify s with
    | .separator => return .separator :: rest.map .operand
    | w => return w :: (← classifyAll rest)

end Word

/-- What a command line asks to be compiled. -/
structure Request where
  pattern : String
  /-- The engine, unless `--` stands in its place. -/
  engine? : Option Engine := some .graph
  arguments : List String := []
  compact : Bool := false
deriving DecidableEq, Repr

/-- What a command line asks for. -/
inductive Verdict where
  | help
  /-- It breaks the rules. -/
  | misused
  | request (r : Request)
deriving DecidableEq, Repr

/-- What was read of a command line so far. -/
structure Reading where
  pattern? : Option String := none
  engine? : Option Engine := some .graph
  arguments : List String := []
  compact : Bool := false
  /-- Operands are names of arguments now. -/
  naming : Bool := false
  /-- A word has no place. -/
  excess : Bool := false
deriving DecidableEq, Repr

namespace Reading

/-- Takes in an operand, or a word after the separator. -/
def operand (r : Reading) (s : String) : Reading :=
  if r.naming then { r with arguments := r.arguments ++ [s] }
  else
    match r.pattern? with
    | none => { r with pattern? := some s }
    | some _ => { r with excess := true }

/-- What is asked for once all words are read. -/
def finish (r : Reading) : Verdict :=
  match r.pattern? with
  | some pattern =>
    if r.excess then .misused
    else .request
      { pattern, engine? := r.engine?, arguments := r.arguments, compact := r.compact }
  | none => .misused

/-- Takes in the name of the engine; `none` if there is no engine of that name. -/
def engine (r : Reading) (name : String) : Option Reading :=
  (Engine.ofName? name).map fun e => { r with engine? := some e, naming := false }

/-- Reads the remaining words. Help is given as soon as it is asked for, unless the rules were
broken before. -/
def run (r : Reading) : List Word → Verdict
  | [] => r.finish
  | .operand s :: .separator :: rest =>
    -- the separator may close the pattern as well as open it
    if r.naming || r.pattern?.isSome then
      run { r.operand s with naming := false } (.separator :: rest)
    else run (r.operand s) rest
  | .operand s :: rest => run (r.operand s) rest
  | .separator :: .operand s :: rest =>
    if r.pattern?.isSome then run { r with naming := false, excess := true } (.operand s :: rest)
    else run ({ r with naming := false }.operand s) rest
  | .separator :: rest => run { r with naming := false, excess := true } rest
  | .stray :: rest => run { r with naming := false, excess := true } rest
  | .overloaded :: _ => .misused
  | .switch .help none :: _ => .help
  | .switch .help (some _) :: _ => .misused
  | .switch .compact none :: rest => run { r with compact := true, naming := false } rest
  | .switch .compact (some _) :: _ => .misused
  | .switch .args none :: rest => run { r with arguments := [], naming := true } rest
  | .switch .args (some "--") :: rest => run { r with arguments := [], naming := false } rest
  | .switch .args (some v) :: rest => run { r with arguments := [v], naming := false } rest
  | .switch .backend (some "--") :: rest => run { r with engine? := none, naming := false } rest
  | .switch .backend (some v) :: rest =>
    match r.engine v with
    | some r => run r rest
    | none => .misused
  | .switch .backend none :: .operand v :: rest =>
    match r.engine v with
    | some r => run r rest
    | none => .misused
  | .switch .backend none :: _ => .misused

end Reading

/-- What a command line asks for. -/
def read (words : List String) : Verdict :=
  match Word.classifyAll words with
  | none => .misused
  | some ws => Reading.run {} ws

/-- How the command is called. -/
def usage : String :=
  "usage: graphpattern [-h] [--backend \x7bgraph,containment\x7d] [--args [NAME ...]] " ++
    "[--compact] pattern"

/-- What the command prints, and its exit code. -/
structure Reply where
  exit : Nat
  out : String := ""
  err : String := ""
deriving DecidableEq, Repr

namespace Request

/-- The plan of the request, or why there is none. Without an engine there is none. -/
def compile (r : Request) : Except Failure Plan :=
  GraphPattern.compile r.arguments (.text r.pattern)
    ((r.engine?.map fun e => Element.text e.name).getD (.list []))

/-- Prints the plan, or the diagnostic of a refused pattern. -/
def reply (r : Request) (color : Bool) : Reply :=
  match r.compile with
  | .ok p => { exit := 0, out := (if r.compact then p.compact else p.pretty) ++ "\n" }
  | .error (.refused d) => { exit := 1, err := d.render color ++ "\n" }
  | .error (.fault f) => { exit := 1, err := f.message ++ "\n" }

end Request

end GraphPattern.CommandLine
