import GraphPattern.Number.Shortest

/-!
# GraphPattern — rounded decimals

A floating-point number is also written with as many decimal digits as asked for: so many behind
the point, or so many in all. What is written is the decimal nearest to the number, a tie going to
the even neighbour. The functions here write the size of a number, a fraction `n / d`, without a
sign.

* `Binary64.positional` — so many digits behind the point.
* `Binary64.scientific` — one digit before and so many behind the point, and an exponent.
* `Binary64.significant` — so many digits in all, the zeros at the end left out.
-/

namespace GraphPattern.Binary64

/-- Decimal digits of a number, at least `width` of them. -/
def digitsOf (width n : Nat) : List Char :=
  let ds := Nat.toDigits 10 n
  List.replicate (width - ds.length) '0' ++ ds

/-- Decimal digits of a number, the last `places` of them behind a point. A point with nothing
behind it is left out, unless it has to stay. -/
def pointed (keepPoint : Bool) (places n : Nat) : List Char :=
  let ds := digitsOf (places + 1) n
  let whole := ds.take (ds.length - places)
  if places = 0 && !keepPoint then whole else whole ++ '.' :: ds.drop (ds.length - places)

/-- An exponent of at least two digits. -/
def exponentText (e : Int) : List Char :=
  'e' :: (if e < 0 then '-' else '+') :: digitsOf 2 e.natAbs

/-- The digits, one before and `places` behind the point, of the decimal nearest to `n / d`, and
its power of ten. -/
def scientificOf (places n d : Nat) : Nat × Int :=
  if n = 0 then (0, 0)
  else
    let e := pointOf n d - 1
    let (a, b) := inTens n d (e - places)
    let digits := nearestWhole a b
    if digits = Nat.pow 10 (places + 1) then (digits / 10, e + 1) else (digits, e)

def positional (keepPoint : Bool) (places n d : Nat) : List Char :=
  pointed keepPoint places (nearestWhole (n * Nat.pow 10 places) d)

def scientific (keepPoint : Bool) (places n d : Nat) : List Char :=
  let (digits, e) := scientificOf places n d
  pointed keepPoint places digits ++ exponentText e

/-- A decimal without the zeros at the end of its fraction, and without a point that has nothing
behind it. -/
def withoutZeros (cs : List Char) : List Char :=
  if cs.contains '.' then
    let kept := (cs.reverse.dropWhile (· == '0')).reverse
    if kept.getLast? = some '.' then kept.dropLast else kept
  else cs

/-- At least one digit is written. The notation is positional if the power of ten is at least -4
and below the number of digits. With `keepPoint`, the point and the zeros at the end stay. -/
def significant (keepPoint : Bool) (count n d : Nat) : List Char :=
  let places := count - 1
  let (digits, e) := scientificOf places n d
  let finish (cs : List Char) : List Char := if keepPoint then cs else withoutZeros cs
  if -4 ≤ e ∧ e ≤ places then finish (pointed keepPoint (places - e).toNat digits)
  else finish (pointed keepPoint places digits) ++ exponentText e

end GraphPattern.Binary64
