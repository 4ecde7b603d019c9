import GraphPattern.Value

/-!
# GraphPattern — forms

A form is a function that a pattern carries along: a predicate of a constraint, the value of a
binding, or the result made of a match. Patterns and plans only see its identity, its display name
and its parameters; what it computes is given to the executor separately. Forms are called with
bindings by parameter name.

* `Form.requires` — the parameters a call has to supply.
* `Form.environment?` — the variables a form's body sees when it is called with some keywords, or
  `none` if the keywords do not fit the parameters.
-/

namespace GraphPattern

/-- How a parameter takes its value. -/
inductive ParamKind where
  | named
  | keywordOnly
  /-- Takes its value by its position only, and so only its default here. -/
  | positional
  /-- Takes what is passed by position, which is nothing here. -/
  | rest
  /-- Takes every keyword that no other parameter takes. -/
  | keywords
deriving DecidableEq, Repr

structure Param where
  name : String
  kind : ParamKind := .named
  default? : Option Value := none
deriving DecidableEq, Repr

namespace Param

/-- A parameter that takes one value by its name. -/
def single (p : Param) : Bool :=
  p.kind = .named || p.kind = .keywordOnly

/-- A parameter that takes its value by its name and has no other. -/
def required (p : Param) : Bool :=
  p.single && p.default?.isNone

/-- A parameter that a call has to supply. It is looked for by its name, also if it takes its value by
its position. -/
def demanded (p : Param) : Bool :=
  p.required || (p.kind = .positional && p.default?.isNone)

end Param

/-- A function carried by a pattern. Two forms are the same function when their ids agree. -/
structure Form where
  id : String
  name? : Option String := none
  /-- The parameters; `none` if they cannot be found out. -/
  params? : Option (List Param) := some []
deriving DecidableEq, Repr

namespace Form

/-- What stands for a form without a name. -/
def anonymousName (f : Form) : String :=
  s!"<form {f.id}>"

/-- The form as plans and messages show it. -/
def displayed (f : Form) : String :=
  f.name?.getD f.anonymousName

/-- The form as an element of a shown pattern. -/
def asElement (f : Form) : String :=
  "<" ++ f.name?.getD "Form" ++ ">"

/-- The form as a complaint about its call shows it: the name between quotes, if it has one. -/
def cited (f : Form) : String :=
  match f.name? with
  | some n => Text.quoted n
  | none => f.anonymousName

/-- Takes any keyword. -/
def takesKeywords (params : List Param) : Bool :=
  params.any (·.kind = .keywords)

/-- The parameters a call has to supply. -/
def requires (params : List Param) : List String :=
  (params.filter Param.demanded).map (·.name)

/-- The value that each parameter with one value takes: one that is taken by name from the passed
keywords or the default, one that is taken by position from the default. -/
def fill? (passed : Bindings) : List Param → Option Bindings
  | [] => some []
  | p :: ps =>
    if p.single then
      match (passed.get? p.name).or p.default? with
      | none => none
      | some v => (fill? passed ps).map ((p.name, v) :: ·)
    else if p.kind = .positional then
      match p.default? with
      | none => none
      | some v => (fill? passed ps).map ((p.name, v) :: ·)
    else fill? passed ps

/-- The keywords that no single parameter takes. -/
def leftover (passed : Bindings) (params : List Param) : Bindings :=
  passed.filter fun b => !params.any fun p => p.single && p.name == b.1

/-- The variables the body sees: the parameters with one value, an empty list under the name of a rest
parameter, and the remaining keywords, which only a keywords parameter allows. -/
def environment? (params : List Param) (passed : Bindings) : Option Bindings := do
  let filled ← fill? passed params
  let extra := leftover passed params
  if extra.isEmpty || takesKeywords params then
    let rest := (params.filter (·.kind = .rest)).map fun p => (p.name, Value.list [] (.made []))
    some (extra.foldl (fun b kv => b.set kv.1 kv.2) (filled ++ rest))
  else none

end Form

end GraphPattern
