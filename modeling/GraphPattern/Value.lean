import GraphPattern.Number.Shortest
import GraphPattern.Text.Quoted

/-!
# GraphPattern — values

What a variable of a match can stand for: a scalar, a list, an element of the model, or a stream
of candidates. Elements are named by their identity in the model and streams by their place among
the streams of the run. Numbers, texts and lists carry their origin, so two values are equal as
data exactly when they are the same thing.

* `Value.same` — the equality that patterns test: numbers by value, whatever their type; texts by
  their characters; lists member by member; everything else by identity.
* `Value.truthy` — what a guard accepts.
* `Value.settled` — a value once a step has bound it, told apart from what other steps make.
-/

namespace GraphPattern

/-- Where a number, a text or a list comes from. Equal things of different origins are not the
same thing. -/
inductive Origin where
  /-- Things of which there is only one, whoever comes up with them. -/
  | shared
  /-- Brought along from outside, at some place of what was brought along. -/
  | given (place : Nat)
  /-- Made by the expression that is being evaluated, at some place inside it. -/
  | made (place : List Nat)
  /-- Made by the expression of an earlier step, with so many steps after it. -/
  | bound (stepsLeft : Nat) (place : List Nat)
deriving DecidableEq, Repr, Inhabited

/-- The origin of what an expression made once its step, with so many steps after it, is over. -/
def Origin.settled (stepsLeft : Nat) : Origin → Origin
  | made place => bound stepsLeft place
  | o => o

/-- A value bound in a match. -/
inductive Value where
  | null
  | bool (b : Bool)
  | int (n : Int) (origin : Origin)
  | float (x : Binary64) (origin : Origin)
  | text (s : String) (origin : Origin)
  | list (vs : List Value) (origin : Origin)
  /-- A vertex of a typed graph, by its id. -/
  | vertex (id : Nat)
  /-- An edge of a typed graph, by its id. -/
  | edge (id : Nat)
  /-- An object of a containment model, by its number. -/
  | object (id : Nat)
  /-- A sequence of candidates that is read once, by its number among the streams of a run. -/
  | stream (id : Nat)
deriving Repr, Inhabited

namespace Value

mutual

/-- Equality of values as data. -/
def decEq : (a b : Value) → Decidable (a = b)
  | .null, b => match b with
    | .null => isTrue rfl
    | .bool _ | .int _ _ | .float _ _ | .text _ _ | .list _ _ | .vertex _ | .edge _ | .object _
    | .stream _ => isFalse (by simp)
  | .bool x, b => match b with
    | .bool y => decidable_of_iff (x = y) (by simp)
    | .null | .int _ _ | .float _ _ | .text _ _ | .list _ _ | .vertex _ | .edge _ | .object _
    | .stream _ => isFalse (by simp)
  | .int x o, b => match b with
    | .int y p => decidable_of_iff (x = y ∧ o = p) (by simp)
    | .null | .bool _ | .float _ _ | .text _ _ | .list _ _ | .vertex _ | .edge _ | .object _
    | .stream _ => isFalse (by simp)
  | .float x o, b => match b with
    | .float y p => decidable_of_iff (x = y ∧ o = p) (by simp)
    | .null | .bool _ | .int _ _ | .text _ _ | .list _ _ | .vertex _ | .edge _ | .object _
    | .stream _ => isFalse (by simp)
  | .text x o, b => match b with
    | .text y p => decidable_of_iff (x = y ∧ o = p) (by simp)
    | .null | .bool _ | .int _ _ | .float _ _ | .list _ _ | .vertex _ | .edge _ | .object _
    | .stream _ => isFalse (by simp)
  | .list xs o, b => match b with
    | .list ys p => match decEqs xs ys, (inferInstance : Decidable (o = p)) with
      | isTrue h, isTrue ho => isTrue (by rw [h, ho])
      | isFalse h, _ => isFalse (by simp [h])
      | _, isFalse ho => isFalse (by simp [ho])
    | .null | .bool _ | .int _ _ | .float _ _ | .text _ _ | .vertex _ | .edge _ | .object _
    | .stream _ => isFalse (by simp)
  | .vertex x, b => match b with
    | .vertex y => decidable_of_iff (x = y) (by simp)
    | .null | .bool _ | .int _ _ | .float _ _ | .text _ _ | .list _ _ | .edge _ | .object _
    | .stream _ => isFalse (by simp)
  | .edge x, b => match b with
    | .edge y => decidable_of_iff (x = y) (by simp)
    | .null | .bool _ | .int _ _ | .float _ _ | .text _ _ | .list _ _ | .vertex _ | .object _
    | .stream _ => isFalse (by simp)
  | .object x, b => match b with
    | .object y => decidable_of_iff (x = y) (by simp)
    | .null | .bool _ | .int _ _ | .float _ _ | .text _ _ | .list _ _ | .vertex _ | .edge _
    | .stream _ => isFalse (by simp)
  | .stream x, b => match b with
    | .stream y => decidable_of_iff (x = y) (by simp)
    | .null | .bool _ | .int _ _ | .float _ _ | .text _ _ | .list _ _ | .vertex _ | .edge _
    | .object _ => isFalse (by simp)

/-- Equality of lists of values as data. -/
def decEqs : (xs ys : List Value) → Decidable (xs = ys)
  | [], [] => isTrue rfl
  | [], _ :: _ => isFalse (by simp)
  | _ :: _, [] => isFalse (by simp)
  | x :: xs, y :: ys =>
    match decEq x y, decEqs xs ys with
    | isTrue h, isTrue hs => isTrue (by rw [h, hs])
    | isFalse h, _ => isFalse (by simp [h])
    | _, isFalse hs => isFalse (by simp [hs])

end

instance : DecidableEq Value := decEq

/-! ## Making values -/

/-- An integer. There is only one of each small integer. -/
def ofInt (o : Origin) (n : Int) : Value :=
  .int n (if -5 ≤ n ∧ n ≤ 256 then .shared else o)

/-- A text. There is only one of each text of a single Latin character, and one empty text. -/
def ofText (o : Origin) (s : String) : Value :=
  .text s <| match s.toList with
    | [] => .shared
    | [c] => if c.toNat < 256 then .shared else o
    | _ => o

mutual

/-- A value that a step binds, with so many steps after it. -/
def settled (stepsLeft : Nat) : Value → Value
  | .int n o => .int n (o.settled stepsLeft)
  | .float x o => .float x (o.settled stepsLeft)
  | .text s o => .text s (o.settled stepsLeft)
  | .list vs o => .list (settleds stepsLeft vs) (o.settled stepsLeft)
  | v => v

def settleds (stepsLeft : Nat) : List Value → List Value
  | [] => []
  | v :: vs => settled stepsLeft v :: settleds stepsLeft vs

end

/-! ## Looking at values -/

/-- The integer a value counts as: truth values count as 0 and 1. -/
def integer? : Value → Option Int
  | .bool b => some (if b then 1 else 0)
  | .int n _ => some n
  | _ => none

/-- The floating-point number a value counts as. -/
def float? : Value → Option Binary64
  | .float x _ => some x
  | v => v.integer?.map .ofInt

/-- What a number of any type amounts to. -/
def quantity? : Value → Option Quantity
  | .float x _ => some x.quantity
  | v => v.integer?.map fun n => .rational n

mutual

/-- The equality that patterns test. -/
def same : Value → Value → Bool
  | .list xs _, b => match b with
    | .list ys _ => sameAll xs ys
    | _ => false
  | .text s _, b => match b with
    | .text t _ => s == t
    | _ => false
  | a, b => match a.quantity?, b.quantity? with
    | some x, some y => x.same y
    | none, none => decide (a = b)
    | _, _ => false

/-- Two lists of matching members: the same things or equal values. -/
def sameAll : List Value → List Value → Bool
  | [], [] => true
  | x :: xs, y :: ys => (decide (x = y) || same x y) && sameAll xs ys
  | _, _ => false

end

/-- Whether two members of lists match: they are the same thing or equal. -/
def fits (a b : Value) : Bool :=
  decide (a = b) || a.same b

/-- What a guard accepts: everything but `null`, `false`, zero, and the empty text and list. -/
def truthy : Value → Bool
  | .null => false
  | .bool b => b
  | .int n _ => n != 0
  | .float x _ => !x.isZero
  | .text s _ => s != ""
  | .list vs _ => !vs.isEmpty
  | _ => true

/-- The absent value. -/
def isNull : Value → Bool
  | .null => true
  | _ => false

def isList : Value → Bool
  | .list _ _ => true
  | _ => false

/-- The sort and the number of an element, where its name is not known. -/
def bareName : Value → String
  | .vertex n => s!"v{n}"
  | .edge n => s!"e{n}"
  | .object n => s!"o{n}"
  | _ => ""

mutual

/-- The order of numbers, of texts and, member by member, of lists; `none` for values that have
no order between them. With `orEqual`, equal values are in order as well. -/
def ordered? (orEqual : Bool) : Value → Value → Option Bool
  | .list xs _, b => match b with
    | .list ys _ => orderedAll? orEqual xs ys
    | _ => none
  | .text x _, b => match b with
    | .text y _ => some (decide (x < y) || (orEqual && x == y))
    | _ => none
  | a, b => match a.quantity?, b.quantity? with
    | some x, some y => some (x.lt y || (orEqual && x.same y))
    | _, _ => none

/-- Lists are compared at the first place where they differ, else by length. -/
def orderedAll? (orEqual : Bool) : List Value → List Value → Option Bool
  | [], ys => some (!ys.isEmpty || orEqual)
  | _ :: _, [] => some false
  | x :: xs, y :: ys => if x.fits y then orderedAll? orEqual xs ys else ordered? orEqual x y

end

mutual

/-- A value as it stands inside a list in a message, given the names of elements. -/
def literal (nameOf : Value → String) : Value → String
  | .null => "None"
  | .bool b => if b then "True" else "False"
  | .int n _ => toString n
  | .float x _ => x.text
  | .text s _ => Text.quoted s
  | .list vs _ => "[" ++ ", ".intercalate (literals nameOf vs) ++ "]"
  | v => nameOf v

def literals (nameOf : Value → String) : List Value → List String
  | [] => []
  | v :: vs => literal nameOf v :: literals nameOf vs

end

/-- A value as it stands alone in a message: a text without quotes. -/
def label (nameOf : Value → String) : Value → String
  | .text s _ => s
  | v => v.literal nameOf

end Value

/-- Named values in the order in which the names were first bound. -/
abbrev Bindings := List (String × Value)

namespace Bindings

/-- The value of a name. -/
def get? : Bindings → String → Option Value
  | [], _ => none
  | (n, v) :: rest, name => if n = name then some v else get? rest name

/-- Binds a name, in its old place if it has one. -/
def set : Bindings → String → Value → Bindings
  | [], name, v => [(name, v)]
  | (n, w) :: rest, name, v => if n = name then (n, v) :: rest else (n, w) :: set rest name v

theorem get?_set (b : Bindings) (name other : String) (v : Value) :
    (b.set name v).get? other = if name = other then some v else b.get? other := by
  induction b with
  | nil => simp [set, get?]
  | cons p rest ih =>
    obtain ⟨n, w⟩ := p
    by_cases hn : n = name
    · subst hn
      by_cases h : n = other <;> simp [set, get?, h]
    · by_cases h : n = other
      · subst h
        simp [set, get?, hn, Ne.symm hn]
      · simp [set, get?, hn, h, ih]

end Bindings

end GraphPattern
