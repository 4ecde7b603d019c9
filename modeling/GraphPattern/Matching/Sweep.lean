import GraphPattern.Matching.Evaluate

/-!
# GraphPattern — sweeps

All matches of a plan at once: the steps are nested loops, and a sweep runs them to the end or up
to the first fault. What the matches before a fault were is not lost.

* `Setting.sweep` — the results of all matches of some steps, and how the run ended.
-/

namespace GraphPattern

/-- How a sweep ends. -/
inductive Ending where
  | done
  /-- At the failing test that ends the innermost enumeration. -/
  | halted
  | failed (f : Fault)
deriving DecidableEq, Repr

/-- The results of the matches found, and how the sweep ended. -/
structure Swept where
  results : List Value
  ending : Ending
deriving DecidableEq, Repr

/-- A sweep in a run. A fault is an ending. -/
abbrev Sweep := StateM Journal Swept

namespace Sweep

/-- Goes on with the value of an action, or ends with its fault. -/
def after {α : Type} (a : Action α) (k : α → Sweep) : Sweep := do
  match ← a.run with
  | .ok x => k x
  | .error f => return ⟨[], .failed f⟩

/-- Goes on after a round of an enumeration, unless it has ended the enumeration. -/
def andThen (round next : Sweep) : Sweep := do
  let first ← round
  match first.ending with
  | .done => do
    let others ← next
    return ⟨first.results ++ others.results, others.ending⟩
  | .halted => return ⟨first.results, .done⟩
  | .failed f => return ⟨first.results, .failed f⟩

/-- A round for each candidate. -/
def eachOwn (body : Value → Sweep) : List Value → Sweep
  | [] => return ⟨[], .done⟩
  | v :: vs => andThen (body v) (eachOwn body vs)

/-- A round for each value of a stream, at most `limit` rounds. -/
def eachShared (body : Value → Sweep) (id : Nat) : Nat → Sweep
  | 0 => return ⟨[], .done⟩
  | limit + 1 =>
    after (pull id) fun
      | none => return ⟨[], .done⟩
      | some v => andThen (body v) (eachShared body id limit)

/-- A round for each candidate of a source. -/
def each (body : Value → Sweep) : Source → Sweep
  | .own vs => eachOwn body vs
  | .shared id => do
    let j ← get
    eachShared body id (j.left id).size

end Sweep

/-- The results of all matches of some steps, where `emit` makes the result of a match. -/
def Setting.sweep (s : Setting) (emit : Bindings → Action Value) : List Step → Bindings → Sweep
  | [], ctx => Sweep.after (emit ctx) fun v => return ⟨[v], .done⟩
  | .generate n e :: rest, ctx =>
    Sweep.after (s.source ctx e) <| Sweep.each fun v =>
      s.sweep emit rest (ctx.set n (v.settled rest.length))
  | .assign n e :: rest, ctx =>
    Sweep.after (s.evaluate ctx e) fun v =>
      s.sweep emit rest (ctx.set n (v.settled rest.length))
  | .guard e :: rest, ctx =>
    Sweep.after (s.holds ctx e) fun
      | true => s.sweep emit rest ctx
      | false => return ⟨[], .done⟩
  | .whilst e :: rest, ctx =>
    Sweep.after (s.holds ctx e) fun
      | true => s.sweep emit rest ctx
      | false => return ⟨[], .halted⟩
  | .assignAll _ :: _, _ => return ⟨[], .failed .unexpandedBatch⟩
  | .foreign k :: _, _ => return ⟨[], .failed (.foreignStep k)⟩

end GraphPattern
