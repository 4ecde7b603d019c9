import GraphPattern.Number.Binary64

/-!
# GraphPattern — shortest decimals

A floating-point number is written with the fewest decimal digits that read back as the number; of
two such decimals the nearer one is taken. Numbers from `10⁻⁴` up to `10¹⁶` are written
positionally, all others with an exponent.

* `Binary64.shortest` — the digits and the power of ten.
* `Binary64.text` — the written number.
-/

namespace GraphPattern.Binary64

/-- The number `digits * 10 ^ exponent`. -/
structure Decimal where
  digits : Nat
  exponent : Int
deriving DecidableEq, Repr

/-- The fraction `n / d` in units of `10 ^ e`, as a fraction. -/
def inTens (n d : Nat) (e : Int) : Nat × Nat :=
  (n * Nat.pow 10 (-e).toNat, d * Nat.pow 10 e.toNat)

/-- The number of digits before the point of the fraction `n / d`: the least `k` for which it is
below `10 ^ k`. The first guess comes from the binary digits and is too low by two at most. -/
def pointOf (n d : Nat) : Int :=
  let guess : Int := (n.log2 - d.log2 - 1) * 30103 / 100000
  let below (k : Int) : Bool := let (a, b) := inTens n d k; decide (a < b)
  if below guess then guess
  else if below (guess + 1) then guess + 1
  else if below (guess + 2) then guess + 2
  else guess + 3

/-- The decimal with `count` digits that is nearest to `n / d` among those that read back as `x`;
only the two neighbours of the fraction can. A tie goes to the even one. -/
def decimalOf? (x : Binary64) (n d : Nat) (point : Int) (count : Nat) : Option Decimal :=
  let e := point - count
  let (a, b) := inTens n d e
  let low := a / b
  let readsBack (digits : Nat) : Bool := decide (ofDecimal false digits e = x)
  match readsBack low, readsBack (low + 1) with
  | true, true => some ⟨nearestWhole a b, e⟩
  | true, false => some ⟨low, e⟩
  | false, true => some ⟨low + 1, e⟩
  | false, false => none

/-- Moves up to `steps` trailing zeros into the exponent. -/
def Decimal.stripped : Nat → Decimal → Decimal
  | 0, d => d
  | steps + 1, d =>
    if d.digits % 10 = 0 then stripped steps ⟨d.digits / 10, d.exponent + 1⟩ else d

/-- The shortest decimal that reads back as the positive number `m * 2 ^ q`. Seventeen digits
always suffice. -/
def shortest (m : Nat) (q : Int) : Decimal :=
  let (n, d) := magnitude m q
  let point := pointOf n d
  let found? := (List.range' 1 17).findSome? (decimalOf? (finite false m q) n d point)
  (found?.getD ⟨m, q⟩).stripped 17

/-- Lays a decimal out: positionally if the point is at most three zeros before or sixteen digits
behind the start of the digits, otherwise with an exponent of at least two digits. -/
def Decimal.layout (d : Decimal) : String :=
  let ds := Nat.toDigits 10 d.digits
  let point : Int := ds.length + d.exponent
  let body : List Char :=
    if point ≤ -4 ∨ 16 < point then
      let e := point - 1
      let fraction := if ds.length ≤ 1 then [] else '.' :: ds.drop 1
      let es := Nat.toDigits 10 e.natAbs
      ds.take 1 ++ fraction ++ ['e', if e < 0 then '-' else '+'] ++
        List.replicate (2 - es.length) '0' ++ es
    else if point ≤ 0 then '0' :: '.' :: List.replicate (-point).toNat '0' ++ ds
    else if point < ds.length then ds.take point.toNat ++ '.' :: ds.drop point.toNat
    else ds ++ List.replicate (point - ds.length).toNat '0' ++ ['.', '0']
  String.ofList body

/-- The written number. -/
def text : Binary64 → String
  | undefined => "nan"
  | infinite negative => if negative then "-inf" else "inf"
  | finite negative m q =>
    (if negative then "-" else "") ++ if m = 0 then "0.0" else (shortest m q).layout

end GraphPattern.Binary64
