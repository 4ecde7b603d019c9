/-!
# GraphPattern — blanks and digits

A pattern may be written as one string, its tokens set apart by blanks. This module says which
characters are blank and how they are dropped, and which are decimal digits. Every script with
decimal digits of its own has ten of them in a row, from its zero on.

* `Text.isBlank` — the blank characters, ASCII and Unicode.
* `Text.words` — the maximal runs of characters that are not blank, in order.
* `Text.trim` — a text without the blanks at its two ends.
* `Text.isDigit` — the decimal digits of all scripts.
-/

namespace GraphPattern.Text

/-! ## Blanks -/

/-- A character that separates tokens: the ASCII blanks and information separators, and the
Unicode spaces and line separators. Zero-width characters are not blank. -/
def isBlank (c : Char) : Bool :=
  let n := c.toNat
  (0x09 ≤ n && n ≤ 0x0d) || (0x1c ≤ n && n ≤ 0x20) || n == 0x85 || n == 0xa0 || n == 0x1680 ||
    (0x2000 ≤ n && n ≤ 0x200a) || n == 0x2028 || n == 0x2029 || n == 0x202f || n == 0x205f ||
    n == 0x3000

/-- The maximal runs of characters that are not blank. -/
def wordChars : List Char → List (List Char)
  | [] => []
  | c :: cs =>
    if isBlank c then wordChars cs
    else if cs.head?.all isBlank then [c] :: wordChars cs
    else
      match wordChars cs with
      | [] => [[c]]
      | w :: ws => (c :: w) :: ws

/-- The words of a text, in order. A text of blanks has none. -/
def words (s : String) : List String :=
  (wordChars s.toList).map String.ofList

/-- Drops the blanks at both ends. -/
def trimChars (cs : List Char) : List Char :=
  ((cs.dropWhile isBlank).reverse.dropWhile isBlank).reverse

/-- A text without the blanks at its two ends. -/
def trim (s : String) : String :=
  String.ofList (trimChars s.toList)

/-! ## Digits -/

/-- The zeros of the scripts that have decimal digits. -/
def digitZeros : List Nat :=
  [0x30, 0x660, 0x6f0, 0x7c0, 0x966, 0x9e6, 0xa66, 0xae6, 0xb66, 0xbe6, 0xc66, 0xce6, 0xd66, 0xde6,
    0xe50, 0xed0, 0xf20, 0x1040, 0x1090, 0x17e0, 0x1810, 0x1946, 0x19d0, 0x1a80, 0x1a90, 0x1b50,
    0x1bb0, 0x1c40, 0x1c50, 0xa620, 0xa8d0, 0xa900, 0xa9d0, 0xa9f0, 0xaa50, 0xabf0, 0xff10,
    0x104a0, 0x10d30, 0x11066, 0x110f0, 0x11136, 0x111d0, 0x112f0, 0x11450, 0x114d0, 0x11650,
    0x116c0, 0x11730, 0x118e0, 0x11950, 0x11c50, 0x11d50, 0x11da0, 0x16a60, 0x16ac0, 0x16b50,
    0x1d7ce, 0x1d7d8, 0x1d7e2, 0x1d7ec, 0x1d7f6, 0x1e140, 0x1e2f0, 0x1e950, 0x1fbf0]

/-- A decimal digit of some script. -/
def isDigit (c : Char) : Bool :=
  digitZeros.any fun first => first ≤ c.toNat && c.toNat < first + 10

end GraphPattern.Text
