import GraphPattern.Number.Binary64

/-!
# GraphPattern — written numbers

A floating-point number is written as decimal digits with a fraction, an exponent or both. It is
read as the number nearest to what is written.
-/

namespace GraphPattern.Binary64

/-- The number that some digits stand for. -/
def digitsValue (cs : List Char) : Option Nat :=
  cs.foldlM (fun n c => if c.isDigit then some (10 * n + (c.toNat - 48)) else none) 0

/-- The number that digits with a sign stand for. -/
def signedValue : List Char → Option Int
  | '-' :: cs => (digitsValue cs).map fun n => -n
  | '+' :: cs => (digitsValue cs).map fun n => n
  | cs => (digitsValue cs).map fun n => n

/-- Reads digits, a fraction and an exponent; the fraction and the exponent may be left out. -/
def readUnsigned? (negative : Bool) (cs : List Char) : Option Binary64 := do
  let isMark (c : Char) : Bool := c == 'e' || c == 'E'
  let whole := cs.takeWhile fun c => !isMark c && c != '.'
  let rest := cs.dropWhile fun c => !isMark c && c != '.'
  let fraction := if rest.head? = some '.' then (rest.drop 1).takeWhile (!isMark ·) else []
  let exponent ← match cs.dropWhile (!isMark ·) with
    | [] => some 0
    | _ :: e => signedValue e
  return ofDecimal negative (← digitsValue (whole ++ fraction)) (exponent - fraction.length)

/-- Reads a written number. -/
def read? (s : String) : Option Binary64 :=
  match s.toList with
  | '-' :: cs => readUnsigned? true cs
  | cs => readUnsigned? false cs

end GraphPattern.Binary64
