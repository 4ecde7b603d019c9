import GraphPattern.Proofs.Laziness

/-!
# GraphPattern — plans as comprehensions

Without tests that end an enumeration, the matches of a plan are a list comprehension: enumerations are
its loops in their order, assignments extend the bindings, guards are its filters. Candidates that a
variable stands for are read once, so the comprehension is one of actions.

## Results

* `Setting.lists_comprehend` — a sweep as a comprehension.
-/

namespace GraphPattern

/-- Whether a step can end an enumeration. -/
def Step.ends : Step → Bool
  | .whilst _ => true
  | _ => false

-- ---------------------------------------------------------------------------
-- Comprehensions
-- ---------------------------------------------------------------------------

namespace Source

variable {α : Type}

/-- What is computed for each value of a stream, for at most `limit` of them. -/
def drain (f : Value → Action α) (id : Nat) : Nat → Action (List α)
  | 0 => return []
  | limit + 1 => do
    match ← pull id with
    | none => return []
    | some v => return (← f v) :: (← drain f id limit)

/-- What is computed for each candidate. -/
def collect (f : Value → Action α) : Source → Action (List α)
  | .own vs => vs.mapM f
  | .shared id => do
    let j ← get
    drain f id (j.left id).size

end Source

/-- The comprehension that steps stand for, with `emit` as what it collects. -/
def Setting.comprehend (s : Setting) (emit : Bindings → Action Value) :
    List Step → Bindings → Action (List Value)
  | [], ctx => return [← emit ctx]
  | .generate n e :: rest, ctx => do
    let source ← s.source ctx e
    return (← source.collect fun v => s.comprehend emit rest (ctx.set n (v.settled rest.length))).flatten
  | .assign n e :: rest, ctx => do
    let v ← s.evaluate ctx e
    s.comprehend emit rest (ctx.set n (v.settled rest.length))
  | .guard e :: rest, ctx | .whilst e :: rest, ctx => do
    if ← s.holds ctx e then s.comprehend emit rest ctx else return []
  | .assignAll _ :: _, _ => throw .unexpandedBatch
  | .foreign k :: _, _ => throw (.foreignStep k)

/-- A sweep finds what an action lists, and leaves the journal as the action does. -/
def Lists (m : Sweep) (a : Action (List Value)) : Prop :=
  ∀ j, match a.run.run j with
    | (.ok vs, j') => m.run j = (⟨vs, .done⟩, j')
    | (.error f, j') => ∃ vs, m.run j = (⟨vs, .failed f⟩, j')

namespace Lists

variable {α : Type}

theorem nothing : Lists (pure ⟨[], .done⟩) (pure []) :=
  fun _ => rfl

theorem throw (f : Fault) : Lists (pure ⟨[], .failed f⟩) (MonadExcept.throw f) :=
  fun _ => ⟨[], rfl⟩

theorem after {a : Action α} {k : α → Sweep} {k' : α → Action (List Value)}
    (h : ∀ x, Lists (k x) (k' x)) : Lists (Sweep.after a k) (a >>= k') := by
  intro j
  rw [Gives.run_bind, Sweep.run_after]
  rcases a.run.run j with ⟨f | x, j'⟩
  · exact ⟨[], rfl⟩
  · exact h x j'

theorem andThen {round next : Sweep} {a b : Action (List Value)} (ha : Lists round a)
    (hb : Lists next b) : Lists (Sweep.andThen round next) (do return (← a) ++ (← b)) := by
  intro j
  have hj := ha j
  rw [Gives.run_bind, Sweep.run_andThen]
  rcases hfirst : a.run.run j with ⟨f | first, j'⟩ <;> simp only [hfirst] at hj
  · obtain ⟨vs, hvs⟩ := hj
    exact ⟨vs, by rw [hvs]⟩
  · have hj' := hb j'
    simp only
    rw [hj, Gives.run_bind]
    rcases hothers : b.run.run j' with ⟨f | others, j''⟩ <;> simp only [hothers] at hj'
    · obtain ⟨vs, hvs⟩ := hj'
      exact ⟨first ++ vs, by simp only [hvs]⟩
    · simp only [hj']
      rfl

variable {body : Value → Sweep} {f : Value → Action (List Value)} (h : ∀ v, Lists (body v) (f v))

include h

theorem eachOwn (vs : List Value) :
    Lists (Sweep.eachOwn body vs) (do return (← vs.mapM f).flatten) := by
  induction vs with
  | nil => exact .nothing
  | cons v vs ih =>
    have hcons : (do return (← (v :: vs).mapM f).flatten : Action (List Value)) =
        do return (← f v) ++ (← (do return (← vs.mapM f).flatten)) := by
      simp [List.mapM_cons]
    rw [hcons]
    exact (h v).andThen ih

theorem eachShared (id limit : Nat) :
    Lists (Sweep.eachShared body id limit) (do return (← Source.drain f id limit).flatten) := by
  induction limit with
  | zero => exact .nothing
  | succ limit ih =>
    have hsucc : (do return (← Source.drain f id (limit + 1)).flatten : Action (List Value)) =
        pull id >>= fun v? => match v? with
          | none => return []
          | some v => do return (← f v) ++ (← (do return (← Source.drain f id limit).flatten)) := by
      rw [Source.drain, bind_assoc]
      refine congrArg _ (funext fun v? => ?_)
      cases v? <;> simp
    rw [hsucc]
    refine .after fun v? => ?_
    cases v? with
    | none => exact .nothing
    | some v => exact (h v).andThen ih

theorem each (source : Source) :
    Lists (Sweep.each body source) (do return (← source.collect f).flatten) := by
  cases source with
  | own vs => exact eachOwn h vs
  | shared id => exact fun j => eachShared h id (j.left id).size j

end Lists

/-- A sweep of steps none of which ends an enumeration is a comprehension. -/
theorem Setting.lists_comprehend {s : Setting} {emit : Bindings → Action Value} {steps : List Step}
    (h : ∀ step ∈ steps, step.ends = false) (ctx : Bindings) :
    Lists (s.sweep emit steps ctx) (s.comprehend emit steps ctx) := by
  induction steps generalizing ctx with
  | nil => exact .after fun v => fun _ => rfl
  | cons step rest ih =>
    have hrest := ih fun st hst => h st (List.mem_cons_of_mem _ hst)
    cases step with
    | generate n e => exact .after fun source => .each (fun v => hrest _) source
    | assign n e => exact .after fun v => hrest _
    | guard e =>
      refine .after fun b => ?_
      cases b with
      | true => exact hrest ctx
      | false => exact .nothing
    | whilst e => exact absurd (h (.whilst e) (List.mem_cons_self ..)) nofun
    | assignAll bs => exact .throw _
    | foreign k => exact .throw _

end GraphPattern
