import GraphPattern.Plan
import GraphPattern.Model

/-!
# GraphPattern — evaluating expressions

The expressions of a plan are evaluated in a run, which keeps a journal: the calls of forms made so
far, and what is left of each stream of candidates that was bound to a variable. A stream is read
once, whoever reads it; candidates that no variable stands for have a single reader.

* `Setting` — what a run is about: the engine, the model, and what the forms compute.
* `Setting.compute` — the value or the candidates that an expression stands for.
* `Setting.callForm` — calls a form with the bindings that it takes.
-/

namespace GraphPattern

/-- A call of a form: its id and the keywords passed, sorted. -/
structure Call where
  form : String
  keywords : Bindings
deriving DecidableEq, Repr

/-- What a run keeps. -/
structure Journal where
  calls : List Call := []
  /-- What is left of each stream, by the stream's number. -/
  streams : List Supply := []
deriving DecidableEq, Repr

/-- A part of a run. The journal survives a fault. -/
abbrev Action := ExceptT Fault (StateM Journal)

/-- What a run is about. -/
structure Setting where
  engine : Engine
  model : Model
  /-- What a form computes from its variables. -/
  behaviour : Form → Bindings → Except Fault Value

/-- What an expression stands for. -/
inductive Computed where
  | value (v : Value)
  /-- Candidates that are still to be read. -/
  | candidates (s : Supply)
deriving Repr

/-- Where a reader gets its candidates from. -/
inductive Source where
  /-- Candidates with a single reader. -/
  | own (vs : List Value)
  /-- The stream of a number. -/
  | shared (id : Nat)
deriving DecidableEq, Repr

namespace Journal

/-- What is left of a stream. -/
def left (j : Journal) (id : Nat) : Supply :=
  (j.streams[id]?).getD (.values [])

/-- The journal after a stream was read up to some rest. -/
def leave (j : Journal) (id : Nat) (rest : List Value) : Journal :=
  { j with streams := j.streams.set id (.values rest) }

end Journal

namespace Computed

/-- The value of an expression. Candidates become a new stream. -/
def toValue : Computed → Action Value
  | .value v => pure v
  | .candidates s => do
    let j ← get
    set { j with streams := j.streams ++ [s] }
    return .stream j.streams.length

/-- The candidates to be read from an expression: the members of a list, the characters of a
text. -/
def toSource : Computed → Except Fault Source
  | .candidates (.values vs) => .ok (.own vs)
  | .candidates (.broken f) => .error f
  | .value (.list vs _) => .ok (.own vs)
  | .value (.text s _) => .ok (.own (s.toList.map fun c => .ofText (.made []) (String.singleton c)))
  | .value (.stream id) => .ok (.shared id)
  | .value _ => .error .notIterable

end Computed

/-- Reads the next value of a stream. -/
def pull (id : Nat) : Action (Option Value) := do
  let j ← get
  match j.left id with
  | .broken f => throw f
  | .values [] => return none
  | .values (v :: rest) => do
    set (j.leave id rest)
    return some v

/-- Whether a text occurs in another. -/
def occursIn (part : List Char) : List Char → Bool
  | [] => part.isEmpty
  | c :: cs => part.isPrefixOf (c :: cs) || occursIn part cs

/-- Whether a value is among some candidates. A stream is read until it is found. -/
def isMember (v : Value) : Computed → Action Bool
  | .candidates (.values vs) => return vs.any (·.fits v)
  | .candidates (.broken f) => throw f
  | .value (.list vs _) => return vs.any (·.fits v)
  | .value (.text s _) =>
    match v with
    | .text t _ => return occursIn t.toList s.toList
    | _ => throw .wrongOperand
  | .value (.stream id) => do
    let j ← get
    match j.left id with
    | .broken f => throw f
    | .values vs =>
      match vs.dropWhile fun w => !w.fits v with
      | [] => do
        set (j.leave id [])
        return false
      | _ :: rest => do
        set (j.leave id rest)
        return true
  | .value _ => throw .notIterable

/-- Whether there is a candidate. A stream loses the one that is found. -/
def isNonEmpty (c : Computed) : Action Bool := do
  match ← ExceptT.mk (pure c.toSource) with
  | .own vs => return !vs.isEmpty
  | .shared id => return (← pull id).isSome

namespace Form

/-- The keywords that a call takes from the bindings in sight: all that are not hidden, for a
form that takes any keyword, else those its parameters name. -/
def keywordsFor (f : Form) (params : List Param) (ctx : Bindings) : Except Fault Bindings :=
  if takesKeywords params then .ok (ctx.filter fun b => !isHiddenName b.1)
  else gather params
where
  gather : List Param → Except Fault Bindings
    | [] => .ok []
    | p :: ps =>
      match ctx.get? p.name with
      | some v => do return (p.name, v) :: (← gather ps)
      | none =>
        if p.demanded then .error (.unboundParameter f.cited p.name) else gather ps

end Form

namespace Setting

/-- An answer of the model. -/
def ask {α : Type} (e : Except Fault α) : Action α :=
  ExceptT.mk (pure e)

/-- Calls a form. The call is noted once its keywords fit the parameters. -/
def callForm (s : Setting) (ctx : Bindings) (f : Form) : Action Value := do
  match f.params? with
  | none => throw .callMismatch
  | some params => do
    let passed ← ask (f.keywordsFor params ctx)
    match Form.environment? params passed with
    | none => throw .callMismatch
    | some env => do
      let call : Call := ⟨f.id, passed.mergeSort fun a b => decide (a.1 ≤ b.1)⟩
      modify fun j => { j with calls := j.calls ++ [call] }
      ask (s.behaviour f env)

/-- Refuses to deal with edges where they have no identity. -/
def needEdges (s : Setting) : Action Unit :=
  if s.engine.edgesHaveIdentity then pure () else throw (.edgesWithoutIdentity s.engine)

/-- What an expression stands for, with the bindings in sight. -/
def compute (s : Setting) (ctx : Bindings) : Expr → Action Computed
  | .var n =>
    match ctx.get? n with
    | some v => return .value v
    | none => throw (.unboundVariable n)
  | .argument n =>
    match ctx.get? n with
    | some v => return .value v
    | none => throw (.missingArgument n)
  | .unnamed => throw (.unboundVariable "None")
  | .instances t => do return .candidates (← ask (s.engine.instances s.model t))
  | .adjacent e t d => do
    s.needEdges
    let v ← (← s.compute ctx e).toValue
    return .candidates (← ask (Engine.adjacent s.model v t d))
  | .edgeEnd e d far => do
    s.needEdges
    let v ← (← s.compute ctx e).toValue
    return .value (← ask (Engine.edgeEnd s.model v d far))
  | .reachable e p => do
    let v ← (← s.compute ctx e).toValue
    return .value (.list (← ask (s.engine.reachable s.model v p)) (.made []))
  | .equal l r => do
    let a ← (← s.compute ctx l).toValue
    let b ← (← s.compute ctx r).toValue
    return .value (.bool (a.same b))
  | .isInstance e t => do
    let v ← (← s.compute ctx e).toValue
    return .value (.bool (← ask (s.engine.isInstance s.model v t)))
  | .nonEmpty c => do return .value (.bool (← isNonEmpty (← s.compute ctx c)))
  | .member e c => do
    let v ← (← s.compute ctx e).toValue
    return .value (.bool (← isMember v (← s.compute ctx c)))
  | .present e => do
    let v ← (← s.compute ctx e).toValue
    return .value (.bool (!v.isNull))
  | .call f => do return .value (← s.callForm ctx f)
  | .foreign k => throw (.foreignExpression k)

/-- The value of an expression. -/
def evaluate (s : Setting) (ctx : Bindings) (e : Expr) : Action Value := do
  (← s.compute ctx e).toValue

/-- Whether a test holds. -/
def holds (s : Setting) (ctx : Bindings) (e : Expr) : Action Bool := do
  return (← s.evaluate ctx e).truthy

/-- The candidates of an enumeration. -/
def source (s : Setting) (ctx : Bindings) (e : Expr) : Action Source := do
  ask (← s.compute ctx e).toSource

end Setting

end GraphPattern
