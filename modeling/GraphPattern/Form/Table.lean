import GraphPattern.Form.Template

/-!
# GraphPattern — forms that are written out

A small expression language in which forms can be written: it computes with scalars and lists,
looks at the attributes and classes of elements, and follows their edges and references one step.
What a body makes is told apart by the place inside the body where it is made: the steps that lead
there from the whole body, the last one first.

Forms that are written out stand in a table with their bodies, by their ids. Uses of one id are the
same form; a form that is not in the table takes no parameters and holds always.

* `Body.evaluate` — the value of a body, or the fault that ends its evaluation.
* `FormTable.behaviour` — what the forms of a table compute.
-/

namespace GraphPattern

/-- The body of a form. -/
inductive Body where
  | literal (v : Value)
  | var (name : String)
  /-- The names of all variables, sorted. -/
  | names
  /-- Gives up with a message. -/
  | raise (message : String)
  /-- Whether all hold; the first that does not ends the evaluation. -/
  | all (bs : List Body)
  /-- Whether one holds; the first that does ends the evaluation. -/
  | any (bs : List Body)
  | negate (b : Body)
  | choose (condition yes no : Body)
  /-- An attribute, which has to exist. -/
  | attributeOf (element : Body) (name : String)
  /-- An attribute, or the absent value. -/
  | attributeOrNull (element : Body) (name : String)
  /-- The far ends of the outgoing edges of a type. -/
  | outgoing (element : Body) (type : TypeMark)
  /-- The targets of a reference, or of all of them. -/
  | references (element : Body) (name : TypeMark)
  | list (bs : List Body)
  | same (a b : Body)
  | differ (a b : Body)
  /-- Whether two values are the same thing. -/
  | identical (a b : Body)
  | less (a b : Body)
  | lessOrEqual (a b : Body)
  | add (a b : Body)
  | multiply (a b : Body)
  | modulo (a b : Body)
  | length (b : Body)
  | className (b : Body)
deriving Repr, Inhabited

namespace Value

/-- Sums of numbers; texts and lists are joined. A text is not made anew if nothing is added. -/
def add (o : Origin) : Value → Value → Except Fault Value
  | .text x p, .text y q =>
    .ok (if x.isEmpty then .text y q else if y.isEmpty then .text x p else .text (x ++ y) o)
  | .list xs _, .list ys _ => .ok (.list (xs ++ ys) o)
  | a, b =>
    match a.integer?, b.integer?, a.float?, b.float? with
    | some x, some y, _, _ => .ok (.ofInt o (x + y))
    | _, _, some x, some y => .ok (.float (x.add y) o)
    | _, _, _, _ => .error .wrongOperand

/-- A text or list so many times over. A text is not made anew if it is taken once. -/
def repeated (o : Origin) : Value → Int → Except Fault Value
  | .text x p, n =>
    .ok (if n = 1 then .text x p else .ofText o (String.join (List.replicate n.toNat x)))
  | .list xs _, n => .ok (.list (List.replicate n.toNat xs).flatten o)
  | _, _ => .error .wrongOperand

/-- Products of numbers; a text or a list times an integer is repeated. -/
def multiply (o : Origin) (a b : Value) : Except Fault Value :=
  match a.integer?, b.integer?, a.float?, b.float? with
  | some x, some y, _, _ => .ok (.ofInt o (x * y))
  | _, _, some x, some y => .ok (.float (x.multiply y) o)
  | some n, none, _, _ => b.repeated o n
  | none, some n, _, _ => a.repeated o n
  | _, _, _, _ => .error .wrongOperand

/-- Remainders of numbers, with the sign of the divisor; a text is a template, which is filled. -/
def modulo (m : Model) (o : Origin) (a b : Value) : Except Fault Value :=
  if let .text s p := a then b.inserted m o s p
  else match a.integer?, b.integer?, a.float?, b.float? with
  | some x, some y, _, _ => if y = 0 then .error .divisionByZero else .ok (.ofInt o (x.fmod y))
  | _, _, some x, some y =>
    if y.isZero then .error .divisionByZero else .ok (.float (x.remainder y) o)
  | _, _, _, _ => .error .wrongOperand

/-- The number of characters or members. -/
def size (o : Origin) : Value → Except Fault Value
  | .text s _ => .ok (.ofInt o s.length)
  | .list vs _ => .ok (.ofInt o vs.length)
  | _ => .error .wrongOperand

/-- Whether a value comes before another. -/
def precedes (orEqual : Bool) (a b : Value) : Except Fault Value :=
  match ordered? orEqual a b with
  | some r => .ok (.bool r)
  | none => .error .wrongOperand

end Value

namespace Body

mutual

/-- The value of a body at a place. -/
def evaluate (m : Model) (env : Bindings) (here : List Nat) : Body → Except Fault Value
  | .literal v => .ok v
  | .var n =>
    match env.get? n with
    | some v => .ok v
    | none => .error (.missingArgument n)
  | .names =>
    .ok (.list (((env.map (·.1)).mergeSort (· ≤ ·)).map (.text · .shared)) (.made here))
  | .raise message => .error (.raised message)
  | .all bs => do return .bool (← evaluateAll m env here bs)
  | .any bs => do return .bool (← evaluateAny m env here bs)
  | .negate b => do return .bool (!(← evaluate m env (0 :: here) b).truthy)
  | .choose c yes no => do
    if (← evaluate m env (0 :: here) c).truthy then evaluate m env (1 :: here) yes
    else evaluate m env (2 :: here) no
  | .attributeOf e n => do m.attributeOf (← evaluate m env (0 :: here) e) n
  | .attributeOrNull e n => do
    return ((← m.attributes (← evaluate m env (0 :: here) e)).get? n).getD .null
  | .outgoing e t => do
    return .list (← m.adjacentElements (← evaluate m env (0 :: here) e) t .out) (.made here)
  | .references e n => do
    return .list (← m.references (← evaluate m env (0 :: here) e) n) (.made here)
  | .list bs => do return .list (← evaluateEach m env here bs) (.made here)
  | .same a b => do
    return .bool ((← evaluate m env (0 :: here) a).same (← evaluate m env (1 :: here) b))
  | .differ a b => do
    return .bool (!(← evaluate m env (0 :: here) a).same (← evaluate m env (1 :: here) b))
  | .identical a b => do
    return .bool (decide ((← evaluate m env (0 :: here) a) = (← evaluate m env (1 :: here) b)))
  | .less a b => do
    (← evaluate m env (0 :: here) a).precedes false (← evaluate m env (1 :: here) b)
  | .lessOrEqual a b => do
    (← evaluate m env (0 :: here) a).precedes true (← evaluate m env (1 :: here) b)
  | .add a b => do
    Value.add (.made here) (← evaluate m env (0 :: here) a) (← evaluate m env (1 :: here) b)
  | .multiply a b => do
    Value.multiply (.made here) (← evaluate m env (0 :: here) a) (← evaluate m env (1 :: here) b)
  | .modulo a b => do
    Value.modulo m (.made here) (← evaluate m env (0 :: here) a) (← evaluate m env (1 :: here) b)
  | .length b => do Value.size (.made here) (← evaluate m env (0 :: here) b)
  | .className b => do return .text (← m.className (← evaluate m env (0 :: here) b)) .shared

def evaluateAll (m : Model) (env : Bindings) (here : List Nat) : List Body → Except Fault Bool
  | [] => .ok true
  | b :: bs => do
    if (← evaluate m env (bs.length :: here) b).truthy then evaluateAll m env here bs
    else return false

def evaluateAny (m : Model) (env : Bindings) (here : List Nat) : List Body → Except Fault Bool
  | [] => .ok false
  | b :: bs => do
    if (← evaluate m env (bs.length :: here) b).truthy then return true
    else evaluateAny m env here bs

/-- The values of bodies side by side, each at a place of its own. -/
def evaluateEach (m : Model) (env : Bindings) (here : List Nat) :
    List Body → Except Fault (List Value)
  | [] => .ok []
  | b :: bs => do
    return (← evaluate m env (bs.length :: here) b) :: (← evaluateEach m env here bs)

end

end Body

/-- Forms with their bodies. -/
abbrev FormTable := List (Form × Body)

namespace FormTable

/-- The form of an id. -/
def form (t : FormTable) (id : String) : Form :=
  ((t.find? fun f => f.1.id == id).map (·.1)).getD { id }

/-- What a form computes from its variables. -/
def behaviour (t : FormTable) (m : Model) (f : Form) (env : Bindings) : Except Fault Value :=
  match t.find? fun g => g.1.id == f.id with
  | some (_, body) => body.evaluate m env []
  | none => .ok (.bool true)

end FormTable

end GraphPattern
