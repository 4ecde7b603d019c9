import GraphPattern.Matching.Cursor
import GraphPattern.Matching.Sweep

/-!
# GraphPattern — match sequences

The matches of a plan against a model are a sequence that is found as far as it is asked for. It
can be gone through any number of times; every iteration runs the plan from scratch. Only what is
given with the arguments is the same in all iterations. Where an argument is, or holds, a sequence
that can be read only once, it is a stream that all iterations share: the streams that were given
have the first numbers in every run, and those that the steps of an iteration make come behind them.

* `Matches.of?` — the match sequence of a plan, if its engine and arguments are right.
* `Matches.iterator`, `Matches.nextOn` — an iteration, one match at a time, on what is shared.
* `Matches.next`, `Matches.take`, `Matches.first`, `Matches.all` — the next match, the first matches,
  the first one, all of them, where no streams were given.
-/

namespace GraphPattern

/-- The sequence of matches of a plan. -/
structure Matches where
  plan : Plan
  setting : Setting
  arguments : Bindings
  /-- Makes the result of a match; without it, the result is the tuple of the bound values. -/
  result? : Option Form := none

/-- Where an iteration stands. -/
inductive IteratorState where
  | fresh
  | stopped (cursor : Cursor)
  | finished
deriving Repr

/-- An iteration of a match sequence. -/
structure Iterator where
  state : IteratorState := .fresh
  /-- What is left of the streams that this iteration has made. -/
  streams : List Supply := []
deriving Repr

/-- What asking for the next match gives. -/
inductive Answer where
  | found (v : Value)
  | stop
  | failed (f : Fault)
deriving DecidableEq, Repr

/-- The results of several matches, the fault that ended them, and the calls they took. -/
structure Harvest where
  results : List Value := []
  fault? : Option Fault := none
  calls : List Call := []
deriving DecidableEq, Repr

namespace Matches

/-- The match sequence of a plan: the plan has to be compiled for the engine of the setting, and
all its arguments have to be given. -/
def of? (setting : Setting) (plan : Plan) (arguments : Bindings) (result? : Option Form) :
    Except Fault Matches :=
  if plan.engine ≠ setting.engine then .error (.engineMismatch plan.engine setting.engine)
  else
    match plan.arguments.filter fun n => (arguments.get? n).isNone with
    | [] => .ok { plan, setting, arguments, result? }
    | missing => .error (.argumentsMissing missing)

/-- The value of a name that a match has to bind. -/
def boundValue (ctx : Bindings) (name : String) : Except Fault Value :=
  match ctx.get? name with
  | some v => .ok v
  | none => .error (.missingArgument name)

/-- The result of a match. -/
def emit (m : Matches) (ctx : Bindings) : Action Value :=
  match m.result? with
  | some f => m.setting.callForm ctx f
  | none => do return .list (← Setting.ask (m.plan.resultNames.mapM (boundValue ctx))) (.made [])

/-- A new iteration. It has made no streams yet, and the streams that were given belong to no
iteration. -/
def iterator (_ : Matches) : Iterator := {}

/-- Makes the next match and its result. -/
def advance (m : Matches) (state : IteratorState) : Action (Option (Value × Cursor)) := do
  let progress ← match state with
    | .fresh => m.setting.enter m.plan.steps m.arguments
    | .stopped cursor => m.setting.resume cursor
    | .finished => pure .done
  match progress with
  | .found ctx cursor => return some (← m.emit ctx, cursor)
  | .done | .halted => return none

/-- The next match of an iteration, and the iteration after it. An iteration is over after its last
match or a fault. What is shared is the calls so far and what is left of the streams that were given;
the run goes on with it, and has the streams of the iteration behind. -/
def nextOn (m : Matches) (shared : Journal) (it : Iterator) : Answer × Journal × Iterator :=
  let given := shared.streams.length
  let (r, j) := (m.advance it.state).run.run { shared with streams := shared.streams ++ it.streams }
  let after : Journal := { j with streams := j.streams.take given }
  match r with
  | .ok (some (v, cursor)) => (.found v, after, ⟨.stopped cursor, j.streams.drop given⟩)
  | .ok none => (.stop, after, ⟨.finished, j.streams.drop given⟩)
  | .error f => (.failed f, after, ⟨.finished, j.streams.drop given⟩)

/-- The next match of an iteration, the calls it took, and the iteration after it, where no streams
were given. -/
def next (m : Matches) (it : Iterator) : Answer × List Call × Iterator :=
  let (answer, shared, it) := m.nextOn {} it
  (answer, shared.calls, it)

theorem next_eq (m : Matches) (it : Iterator) :
    m.next it = match (m.advance it.state).run.run { streams := it.streams } with
      | (.ok (some (v, cursor)), j) => (.found v, j.calls, ⟨.stopped cursor, j.streams⟩)
      | (.ok none, j) => (.stop, j.calls, ⟨.finished, j.streams⟩)
      | (.error f, j) => (.failed f, j.calls, ⟨.finished, j.streams⟩) := by
  simp only [next, nextOn, List.nil_append]
  rcases (m.advance it.state).run.run { streams := it.streams } with ⟨_ | _ | _, j⟩ <;> rfl

/-- Up to `n` further matches of an iteration. -/
def takeFrom (m : Matches) (it : Iterator) : Nat → Harvest
  | 0 => {}
  | n + 1 =>
    match m.next it with
    | (.found v, calls, it) =>
      let rest := m.takeFrom it n
      { rest with results := v :: rest.results, calls := calls ++ rest.calls }
    | (.stop, calls, _) => { calls }
    | (.failed f, calls, _) => { fault? := some f, calls }

/-- The first `n` matches. -/
def take (m : Matches) (n : Nat) : Harvest :=
  m.takeFrom m.iterator n

/-- The first match, or a default if there is none. -/
def first (m : Matches) (default : Value) : Except Fault Value × List Call :=
  match m.next m.iterator with
  | (.found v, calls, _) => (.ok v, calls)
  | (.stop, calls, _) => (.ok default, calls)
  | (.failed f, calls, _) => (.error f, calls)

/-- All matches, up to the first fault. -/
def all (m : Matches) : Harvest :=
  let (swept, j) := (m.setting.sweep m.emit m.plan.steps m.arguments).run {}
  { results := swept.results, calls := j.calls
    fault? := match swept.ending with
      | .failed f => some f
      | .done | .halted => none }

/-- The sequence as descriptions show it. -/
def text (m : Matches) : String :=
  s!"Matches({m.plan.steps.length} step(s), model=" ++ m.setting.model.text ++ ")"

end Matches

end GraphPattern
