/-!
# GraphPattern — binary floating-point numbers

Numbers with a fractional part occur as pattern elements, as attributes and in the bodies of
forms. They have 53 binary digits; the result of an operation is the exact result, rounded once to
the nearest number, a tie going to the even neighbour. There is a zero of either sign, an infinity
of either sign for what is too large, and one undefined number.

* `Binary64.nearest` — the number nearest to a fraction.
* `Binary64.add`, `Binary64.multiply`, `Binary64.remainder` — arithmetic.
* `Quantity` — exact values, by which numbers of all types are compared.
-/

namespace GraphPattern

/-- A floating-point number. -/
inductive Binary64 where
  /-- The number `m * 2 ^ q`, or its negative. Either `m` has 53 binary digits, or it has fewer and
  `q` is the least exponent, -1074. -/
  | finite (negative : Bool) (m : Nat) (q : Int)
  | infinite (negative : Bool)
  | undefined
deriving DecidableEq, Repr, Inhabited

/-- What a number of any type amounts to. -/
inductive Quantity where
  | rational (x : Rat)
  | infinite (negative : Bool)
  /-- In no order with any quantity, not even itself. -/
  | undefined

namespace Quantity

def same : Quantity → Quantity → Bool
  | rational x, rational y => decide (x = y)
  | infinite a, infinite b => a == b
  | _, _ => false

def lt : Quantity → Quantity → Bool
  | rational x, rational y => decide (x < y)
  | rational _, infinite negative => !negative
  | infinite negative, rational _ => negative
  | infinite a, infinite b => a && !b
  | undefined, _ | _, undefined => false

end Quantity

namespace Binary64

def zero (negative : Bool) : Binary64 :=
  finite negative 0 (-1074)

/-! ## Rounding -/

/-- The fraction `n / d` as a whole number, the nearest one; a half goes to the even neighbour. -/
def nearestWhole (n d : Nat) : Nat :=
  match compare (2 * (n % d)) d with
  | .lt => n / d
  | .gt => n / d + 1
  | .eq => n / d + n / d % 2

/-- The fraction `n / d` in units of `2 ^ q`, as a fraction. -/
def inUnits (n d : Nat) (q : Int) : Nat × Nat :=
  (n <<< (-q).toNat, d <<< q.toNat)

/-- The exponent at which the fraction `n / d` is a number of 53 binary digits, or the least one
there is. -/
def exponentFor (n d : Nat) : Int :=
  let q : Int := max (n.log2 - d.log2 - 53) (-1074)
  let (a, b) := inUnits n d q
  if b <<< 53 ≤ a then q + 1 else q

/-- The number `m * 2 ^ q` or its negative, where `m` has at most 53 binary digits or is the first
number that has more. -/
def pack (negative : Bool) (m : Nat) (q : Int) : Binary64 :=
  if m = 0 then zero negative
  else
    let (m, q) := if m = 1 <<< 53 then (1 <<< 52, q + 1) else (m, q)
    if 971 < q then infinite negative else finite negative m q

/-- The number nearest to the fraction `n / d`, or its negative. -/
def nearest (negative : Bool) (n d : Nat) : Binary64 :=
  if n = 0 then zero negative
  else
    let q := exponentFor n d
    let (a, b) := inUnits n d q
    pack negative (nearestWhole a b) q

/-- The number nearest to a rational number; a zero gets a sign. -/
def ofRat (negativeZero : Bool) (x : Rat) : Binary64 :=
  if x.num = 0 then zero negativeZero else nearest (x.num < 0) x.num.natAbs x.den

def ofInt (n : Int) : Binary64 :=
  nearest (n < 0) n.natAbs 1

/-- The number nearest to `digits * 10 ^ e`, or its negative. Exponents far outside the range are
not worked out. -/
def ofDecimal (negative : Bool) (digits : Nat) (e : Int) : Binary64 :=
  if digits = 0 then zero negative
  else if 308 < e then infinite negative
  else if 3 * e + digits.log2 < -1076 then zero negative
  else nearest negative (digits * Nat.pow 10 e.toNat) (Nat.pow 10 (-e).toNat)

/-! ## Values -/

def isNegative : Binary64 → Bool
  | finite negative _ _ | infinite negative => negative
  | undefined => false

def isZero : Binary64 → Bool
  | finite _ m _ => m == 0
  | _ => false

/-- The size of a finite number as a fraction. -/
def magnitude (m : Nat) (q : Int) : Nat × Nat :=
  (m <<< q.toNat, 1 <<< (-q).toNat)

/-- The exact value of a number. -/
def quantity : Binary64 → Quantity
  | finite negative m q =>
    let (n, d) := magnitude m q
    .rational (mkRat (if negative then -n else n) d)
  | infinite negative => .infinite negative
  | undefined => .undefined

/-! ## Arithmetic -/

/-- Sums. The sum of opposite numbers is the positive zero. -/
def add (x y : Binary64) : Binary64 :=
  match x.quantity, y.quantity with
  | .rational a, .rational b =>
    ofRat (x.isZero && y.isZero && x.isNegative && y.isNegative) (a.add b)
  | .infinite a, .infinite b => if a = b then infinite a else undefined
  | .infinite a, .rational _ | .rational _, .infinite a => infinite a
  | .undefined, _ | _, .undefined => undefined

/-- Products. The sign is negative if just one of the factors is. -/
def multiply (x y : Binary64) : Binary64 :=
  let negative := x.isNegative != y.isNegative
  match x.quantity, y.quantity with
  | .rational a, .rational b => let p := a.mul b; nearest negative p.num.natAbs p.den
  | .undefined, _ | _, .undefined => undefined
  | _, _ => if x.isZero || y.isZero then undefined else infinite negative

/-- Remainders with the sign of the divisor, which is not zero. -/
def remainder (x y : Binary64) : Binary64 :=
  match x.quantity, y.quantity with
  | .rational a, .rational b =>
    ofRat y.isNegative (a.sub (b.mul (a.div b).floor))
  | .rational _, .infinite negative =>
    if x.isZero then zero negative else if x.isNegative == negative then x else infinite negative
  | .infinite _, _ | .undefined, _ | _, .undefined => undefined

end Binary64

end GraphPattern
