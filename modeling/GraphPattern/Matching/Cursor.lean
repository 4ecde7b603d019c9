import GraphPattern.Matching.Evaluate

/-!
# GraphPattern — cursors

The matches of a plan are found one at a time. A cursor is a run that has stopped at a match: the
enumerations around it, innermost last, each with the candidates it has left. Going on from a
cursor evaluates no more than what is needed for the next match.

* `Setting.enter` — runs steps up to the first match.
* `Setting.resume` — goes on to the next match.
-/

namespace GraphPattern

/-- A run that has stopped at a match. -/
inductive Cursor where
  /-- All enumerations are behind. -/
  | spent
  /-- Inside an enumeration of `name`: with what is left of the candidates, `rest` is run in
  `ctx`; `inner` is where the run of `rest` for the present candidate has stopped. -/
  | loop (name : String) (rest : List Step) (ctx : Bindings) (source : Source) (inner : Cursor)
deriving Repr

/-- How far a run has come. -/
inductive Progress where
  /-- To a match, with its bindings. -/
  | found (ctx : Bindings) (cursor : Cursor)
  /-- To the end of what was to be run. -/
  | done
  /-- To the failing test that ends the innermost enumeration. -/
  | halted
deriving Repr

namespace Cursor

/-- Runs `body` for each candidate until one leads to a match. `wrap` makes a cursor of the
candidates left and the cursor inside. -/
def searchOwn (body : Value → Action Progress) (wrap : List Value → Cursor → Cursor) :
    List Value → Action Progress
  | [] => return .done
  | v :: vs => do
    match ← body v with
    | .found ctx inner => return .found ctx (wrap vs inner)
    | .done => searchOwn body wrap vs
    | .halted => return .done

/-- Runs `body` for each value of a stream until one leads to a match, at most `limit` times. -/
def searchShared (body : Value → Action Progress) (wrap : Cursor → Cursor) (id : Nat) :
    Nat → Action Progress
  | 0 => return .done
  | limit + 1 => do
    match ← pull id with
    | none => return .done
    | some v =>
      match ← body v with
      | .found ctx inner => return .found ctx (wrap inner)
      | .done => searchShared body wrap id limit
      | .halted => return .done

/-- Runs `rest` for each candidate until one leads to a match. A stream holds at most as many
values as it does when the search starts. -/
def search (name : String) (rest : List Step) (ctx : Bindings) (enter : Bindings → Action Progress)
    (source : Source) : Action Progress := do
  let body (v : Value) := enter (ctx.set name (v.settled rest.length))
  match source with
  | .own vs => searchOwn body (fun left => .loop name rest ctx (.own left)) vs
  | .shared id => do
    let j ← get
    searchShared body (.loop name rest ctx (.shared id)) id (j.left id).size

end Cursor

namespace Setting

/-- Runs steps up to the first match. -/
def enter (s : Setting) : List Step → Bindings → Action Progress
  | [], ctx => return .found ctx .spent
  | .generate n e :: rest, ctx => do
    let source ← s.source ctx e
    Cursor.search n rest ctx (s.enter rest) source
  | .assign n e :: rest, ctx => do
    let v ← s.evaluate ctx e
    s.enter rest (ctx.set n (v.settled rest.length))
  | .guard e :: rest, ctx => do
    if ← s.holds ctx e then s.enter rest ctx else return .done
  | .whilst e :: rest, ctx => do
    if ← s.holds ctx e then s.enter rest ctx else return .halted
  | .assignAll _ :: _, _ => throw .unexpandedBatch
  | .foreign k :: _, _ => throw (.foreignStep k)

/-- Goes on to the next match. -/
def resume (s : Setting) : Cursor → Action Progress
  | .spent => return .done
  | .loop n rest ctx source inner => do
    match ← s.resume inner with
    | .found found inner => return .found found (.loop n rest ctx source inner)
    | .done => Cursor.search n rest ctx (s.enter rest) source
    | .halted => return .done

end Setting

end GraphPattern
