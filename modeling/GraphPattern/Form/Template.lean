import GraphPattern.Model
import GraphPattern.Number.Rounded

/-!
# GraphPattern — templates

A text can serve as a template for one value. A template holds conversions, each a `%`, then marks
that say how to lay the value out, then the letter of the conversion; `%%` stands for a percent
sign. The conversions of a template take values in turn, so with one value just one of them can be
filled, and it has to be, unless the value is a list, which may be ignored.

* `Template.read` — the pieces of a template.
* `Value.inserted` — the text that comes of filling a template with a value.
-/

namespace GraphPattern

/-- A conversion of a template. -/
structure Conversion where
  leftAligned : Bool
  /-- A number that is not negative gets a plus sign. -/
  plus : Bool
  /-- A number that is not negative gets a blank where its sign would be. -/
  blank : Bool
  /-- The base of a number is shown, or its point although nothing follows it. -/
  alternate : Bool
  /-- Numbers are padded with zeros. -/
  zeros : Bool
  /-- How often a value is taken to stand for a size. -/
  sizesTaken : Nat
  width : Nat
  precision? : Option Nat
  /-- The letter, unless the template ends before it. -/
  letter? : Option Char
  /-- The position of the letter in the template. -/
  position : Nat
deriving DecidableEq, Repr

/-- A piece of a template. -/
inductive TemplatePiece where
  | plain (c : Char)
  | conversion (c : Conversion)
  /-- A conversion that asks for a member by a key, which may lack its closing parenthesis. -/
  | keyed (closed : Bool)
deriving DecidableEq, Repr

namespace Template

/-- The number that some digits stand for, as large as it may be. -/
def sizeOf (digits : List Char) : Nat :=
  digits.foldl (fun n c => 10 * n + (c.toNat - 48)) 0

/-- Whether a parenthesis that has been opened so often is closed. -/
def closes : Nat → List Char → Bool
  | 0, _ => true
  | _ + 1, [] => false
  | depth + 1, c :: cs =>
    if c = '(' then closes (depth + 2) cs
    else if c = ')' then closes depth cs
    else closes (depth + 1) cs

/-- Reads a size: a star, for which a value is taken, or digits. Gives the number of values taken,
the size, and the number of characters. -/
def readSize : List Char → Nat × Nat × Nat
  | '*' :: _ => (1, 0, 1)
  | cs =>
    let digits := cs.takeWhile Char.isDigit
    (0, sizeOf digits, digits.length)

/-- Reads what stands behind a percent sign at a position: another percent sign, or a conversion
with its marks, its width, its precision behind a point, a letter without meaning, and its own
letter. Gives the number of characters that belong to it. -/
def readConversion (position : Nat) (cs : List Char) : TemplatePiece × Nat :=
  if cs.head? = some '%' then (.plain '%', 1)
  else if cs.head? = some '(' then (.keyed (closes 1 (cs.drop 1)), 1)
  else
    let marks := cs.takeWhile fun c => c ∈ ['-', '+', ' ', '#', '0']
    let afterMarks := cs.drop marks.length
    let (widthTaken, width, widthLength) := readSize afterMarks
    let afterWidth := afterMarks.drop widthLength
    let (precisionTaken, precision?, precisionLength) := match afterWidth with
      | '.' :: rest =>
        let (taken, precision, length) := readSize rest
        (taken, some precision, length + 1)
      | _ => (0, none, 0)
    let afterPrecision := afterWidth.drop precisionLength
    let idle := if afterPrecision.head?.any fun c => c ∈ ['h', 'l', 'L'] then 1 else 0
    let before := marks.length + widthLength + precisionLength + idle
    (.conversion
      { leftAligned := marks.contains '-', plus := marks.contains '+', blank := marks.contains ' '
        alternate := marks.contains '#', zeros := marks.contains '0'
        sizesTaken := widthTaken + precisionTaken, width, precision?
        letter? := (afterPrecision.drop idle).head?, position := position + before + 1 },
      before + 1)

/-- The pieces of what is left of a template from a position on. -/
def read (position : Nat) : List Char → List TemplatePiece
  | [] => []
  | '%' :: cs =>
    let (piece, length) := readConversion position cs
    piece :: read (position + 1 + length) (cs.drop length)
  | c :: cs => .plain c :: read (position + 1) cs
termination_by cs => cs.length

end Template

namespace Conversion

/-- Lays out the text of a number, or any other text, in the width of a conversion. -/
def layOut (c : Conversion) (isNumber : Bool) (cs : List Char) : List Char :=
  let sign := if !isNumber then [] else match cs.head? with
    | some '-' => ['-']
    | _ => if c.plus then ['+'] else if c.blank then [' '] else []
  let unsigned := if sign = ['-'] then cs.drop 1 else cs
  let base := if c.alternate && c.letter?.any (· ∈ ['o', 'x', 'X']) then unsigned.take 2 else []
  let lead := sign ++ base
  let rest := unsigned.drop base.length
  let missing := c.width - (lead.length + rest.length)
  if c.leftAligned then
    lead ++ rest ++ List.replicate missing ' '
  else if isNumber && c.zeros then lead ++ List.replicate missing '0' ++ rest
  else List.replicate missing ' ' ++ lead ++ rest

/-- The digits of an integer in the base of a conversion, at least as many as its precision. -/
def integerText (c : Conversion) (letter : Char) (n : Int) : List Char :=
  let digits := Nat.toDigits (if letter = 'o' then 8 else if letter ∈ ['x', 'X'] then 16 else 10)
    n.natAbs
  let base := if !c.alternate then [] else match letter with
    | 'o' => ['0', 'o']
    | 'x' | 'X' => ['0', 'x']
    | _ => []
  let zeros := List.replicate (c.precision?.getD 0 - digits.length) '0'
  let text := (if n < 0 then ['-'] else []) ++ base ++ zeros ++ digits
  if letter = 'X' then text.map Char.toUpper else text

/-- A floating-point number in the notation of a conversion. -/
def floatText (c : Conversion) (letter : Char) (x : Binary64) : List Char :=
  let precision := c.precision?.getD 6
  let text := match x with
    | .finite negative m q =>
      let (n, d) := Binary64.magnitude m q
      (if negative then ['-'] else []) ++ match letter.toLower with
        | 'e' => Binary64.scientific c.alternate precision n d
        | 'f' => Binary64.positional c.alternate precision n d
        | _ => Binary64.significant c.alternate precision n d
    | x => x.text.toList
  if letter.isUpper then text.map Char.toUpper else text

end Conversion

namespace Value

/-- A value as a message shows it, every character beyond ASCII escaped. -/
def plainLiteral (m : Model) (v : Value) : List Char :=
  (v.literal m.elementText).toList.flatMap fun c =>
    if c.toNat < 0x80 then [c] else Text.escaped c

/-- The integer that a number starts with. -/
def truncated? : Value → Option Int
  | .float (.finite negative m q) _ =>
    let (n, d) := Binary64.magnitude m q
    some (if negative then -(n / d : Nat) else (n / d : Nat))
  | v => v.integer?

/-- The text of a single character, which a value names by itself or by its number. -/
def character? : Value → Option (List Char)
  | .text s _ => if s.length = 1 then some s.toList else none
  | v => v.integer?.bind fun n =>
    if 0 ≤ n ∧ n.toNat.isValidChar then some [Char.ofNat n.toNat] else none

/-- The text of a value in a conversion. -/
def converted (m : Model) (c : Conversion) (letter : Char) (v : Value) :
    Except Fault (List Char) :=
  let cut (cs : List Char) : List Char := c.layOut false (cs.take (c.precision?.getD cs.length))
  let number (cs? : Option (List Char)) : Except Fault (List Char) :=
    match cs? with
    | some cs => .ok (c.layOut true cs)
    | none => .error .wrongOperand
  match letter with
  | 's' => .ok (cut (v.label m.elementText).toList)
  | 'r' => .ok (cut (v.literal m.elementText).toList)
  | 'a' => .ok (cut (v.plainLiteral m))
  | 'c' =>
    match v.character? with
    | some cs => .ok (c.layOut false cs)
    | none => .error .wrongOperand
  | 'd' | 'i' | 'u' => number (v.truncated?.map (c.integerText letter))
  | 'o' | 'x' | 'X' => number (v.integer?.map (c.integerText letter))
  | 'e' | 'E' | 'f' | 'F' | 'g' | 'G' => number (v.float?.map (c.floatText letter))
  | _ => .error (.unknownConversion letter c.position)

/-- Takes the value once more, if it has not been taken. -/
def taken (isTaken : Bool) : Except Fault Unit :=
  if isTaken then .error .wrongOperand else .ok ()

/-- Takes a value for the sizes of a conversion. -/
def takenAsSize (v : Value) : (times : Nat) → (isTaken : Bool) → Except Fault Bool
  | 0, isTaken => .ok isTaken
  | times + 1, isTaken => do
    taken isTaken
    if v.integer?.isNone then throw .wrongOperand
    takenAsSize v times true

/-- Fills the pieces of a template with a value, which may have been taken already. -/
def filled (m : Model) (v : Value) (isTaken : Bool) : List TemplatePiece → Except Fault (List Char)
  | [] => if isTaken || v.isList then .ok [] else .error .wrongOperand
  | .plain c :: pieces => do return c :: (← filled m v isTaken pieces)
  | .keyed closed :: _ =>
    if v.isList && !closed then .error .incompleteKey else .error .wrongOperand
  | .conversion c :: pieces => do
    let isTaken ← v.takenAsSize c.sizesTaken isTaken
    match c.letter? with
    | none => throw .incompleteConversion
    | some letter =>
      taken isTaken
      return (← v.converted m c letter) ++ (← filled m v true pieces)

/-- Fills a template with a value. A text is not made anew if it is all there is in the result. -/
def inserted (m : Model) (o : Origin) (template : String) (p : Origin) (v : Value) :
    Except Fault Value := do
  let pieces := Template.read 0 template.toList
  let cs ← filled m v false pieces
  let whole := String.ofList cs
  match pieces, v with
  | [.conversion c], .text s q =>
    return if c.letter? = some 's' && s = whole && !c.plus && !c.blank then .text s q
      else .ofText o whole
  | _, _ => return if template.toList.contains '%' then .ofText o whole else .text template p

end Value

end GraphPattern
