import GraphPattern.Proofs.Comprehension

/-!
# GraphPattern — enumerations that a test ends

Where a test can end an enumeration, the enumeration is cut before the first candidate with which the
test is reached and fails, and the test is a guard for the others. What the run reads from streams on
the way to the failing test stays read.

## Results

* `Setting.sweep_whilst` — a sweep whose innermost enumeration is ended by a test, as one that is cut.
* `Setting.follows_sweepCut` — the guard is not needed where the test leaves the streams alone.
* `Matches.all_comprehension` — what matches amount to, with and without such tests.
-/

namespace GraphPattern

/-- Whether a step is an enumeration. -/
def Step.enumerates : Step → Bool
  | .generate _ _ => true
  | _ => false

-- ---------------------------------------------------------------------------
-- Sweeps that are cut
-- ---------------------------------------------------------------------------

namespace Sweep

/-- What comes of a sweep in a run of its own. -/
def harvest (m : Sweep) : Harvest :=
  { results := (m.run {}).1.results, calls := (m.run {}).2.calls
    fault? := (m.run {}).1.ending.answer.fault? }

/-- A look at whether something holds. It leaves no trace in the journal unless it does. -/
def peek (a : Action Bool) : StateM Journal Bool := fun j =>
  match a.run.run j with
  | (.ok true, j') => (true, j')
  | _ => (false, j)

theorem run_peek {α : Type} (a : Action Bool) (yes no : StateM Journal α) (j : Journal) :
    (do if ← peek a then yes else no : StateM Journal α).run j = match a.run.run j with
      | (.ok true, j') => yes.run j'
      | _ => no.run j := by
  show ((match (match a.run.run j with
      | (.ok true, j') => (true, j')
      | _ => (false, j) : Bool × Journal) with
    | (b, j') => (if b then yes else no : StateM Journal α).run j') : α × Journal) = _
  rcases a.run.run j with ⟨_ | _ | _, j'⟩ <;> rfl

/-- A round for each candidate before the first that is to stop them. -/
def eachOwnUntil (stop : Value → Action Bool) (body : Value → Sweep) : List Value → Sweep
  | [] => return ⟨[], .done⟩
  | v :: vs => do
    if ← peek (stop v) then return ⟨[], .done⟩ else andThen (body v) (eachOwnUntil stop body vs)

/-- A round for each value of a stream before the first that is to stop them, at most `limit` rounds. -/
def eachSharedUntil (stop : Value → Action Bool) (body : Value → Sweep) (id : Nat) : Nat → Sweep
  | 0 => return ⟨[], .done⟩
  | limit + 1 =>
    after (pull id) fun
      | none => return ⟨[], .done⟩
      | some v => do
        if ← peek (stop v) then return ⟨[], .done⟩
        else andThen (body v) (eachSharedUntil stop body id limit)

/-- A round for each candidate of a source before the first that is to stop them. -/
def eachUntil (stop : Value → Action Bool) (body : Value → Sweep) : Source → Sweep
  | .own vs => eachOwnUntil stop body vs
  | .shared id => do
    let j ← get
    eachSharedUntil stop body id (j.left id).size

/-- A round, unless a look says that it is to halt. -/
def haltIf (stop : Action Bool) (round : Sweep) : Sweep := do
  if ← peek stop then return ⟨[], .halted⟩ else round

theorem run_haltIf (stop : Action Bool) (round : Sweep) (j : Journal) :
    (haltIf stop round).run j = match stop.run.run j with
      | (.ok true, j') => (⟨[], .halted⟩, j')
      | _ => round.run j :=
  run_peek stop _ round j

theorem andThen_haltIf (stop : Action Bool) (round next : Sweep) :
    andThen (haltIf stop round) next =
      (do if ← peek stop then return ⟨[], .done⟩ else andThen round next) := by
  funext j
  refine Eq.trans ?_ (run_peek stop _ _ j).symm
  refine (run_andThen _ next j).trans ?_
  rw [run_haltIf]
  rcases stop.run.run j with ⟨_ | _ | _, j'⟩
  · exact (run_andThen round next j).symm
  · exact (run_andThen round next j).symm
  · rfl

/-- Rounds that are to halt stop the ones after them. -/
theorem each_haltIf (stop : Value → Action Bool) (body : Value → Sweep) (source : Source) :
    each (fun v => haltIf (stop v) (body v)) source = eachUntil stop body source := by
  cases source with
  | own vs =>
    show eachOwn _ vs = eachOwnUntil stop body vs
    induction vs with
    | nil => rfl
    | cons v vs ih => rw [eachOwn, andThen_haltIf, ih, eachOwnUntil]
  | shared id =>
    have hrounds : ∀ limit, eachShared (fun v => haltIf (stop v) (body v)) id limit =
        eachSharedUntil stop body id limit := by
      intro limit
      induction limit with
      | zero => rfl
      | succ limit ih =>
        rw [eachShared, eachSharedUntil]
        refine congrArg _ (funext fun v? => ?_)
        cases v? with
        | none => rfl
        | some v => simp only [andThen_haltIf, ih]
    funext j
    exact congrFun (hrounds (j.left id).size) j

end Sweep

namespace Setting

variable {s : Setting} {emit : Bindings → Action Value}

/-- A sweep of steps that goes on, with their bindings, with a sweep of its own, in which `k` steps
are counted. -/
def sweepThen (s : Setting) (k : Nat) (next : Bindings → Sweep) : List Step → Bindings → Sweep
  | [], ctx => next ctx
  | .generate n e :: rest, ctx =>
    Sweep.after (s.source ctx e) <| Sweep.each fun v =>
      s.sweepThen k next rest (ctx.set n (v.settled (rest.length + k)))
  | .assign n e :: rest, ctx =>
    Sweep.after (s.evaluate ctx e) fun v =>
      s.sweepThen k next rest (ctx.set n (v.settled (rest.length + k)))
  | .guard e :: rest, ctx =>
    Sweep.after (s.holds ctx e) fun
      | true => s.sweepThen k next rest ctx
      | false => return ⟨[], .done⟩
  | .whilst e :: rest, ctx =>
    Sweep.after (s.holds ctx e) fun
      | true => s.sweepThen k next rest ctx
      | false => return ⟨[], .halted⟩
  | .assignAll _ :: _, _ => return ⟨[], .failed .unexpandedBatch⟩
  | .foreign k :: _, _ => return ⟨[], .failed (.foreignStep k)⟩

theorem sweep_append (first second : List Step) (ctx : Bindings) :
    s.sweep emit (first ++ second) ctx =
      s.sweepThen second.length (s.sweep emit second) first ctx := by
  induction first generalizing ctx with
  | nil => rfl
  -- a guard and a test for the end differ in how they end alone
  | cons step rest ih =>
    have hlength : (rest ++ second).length = rest.length + second.length := List.length_append
    have htest : ∀ (e : Expr) (ending : Ending),
        (Sweep.after (s.holds ctx e) fun
          | true => s.sweep emit (rest ++ second) ctx
          | false => return ⟨[], ending⟩) =
        Sweep.after (s.holds ctx e) fun
          | true => s.sweepThen second.length (s.sweep emit second) rest ctx
          | false => return ⟨[], ending⟩ := by
      intro e ending
      rw [ih]
    cases step with
    | generate n e => simp only [List.cons_append, sweep, sweepThen, ih, hlength]
    | assign n e => simp only [List.cons_append, sweep, sweepThen, ih, hlength]
    | guard e => exact htest e .done
    | whilst e => exact htest e .halted
    | assignAll bs => rfl
    | foreign k => rfl

/-- Whether steps are gone through and a test behind them fails. -/
def fails (s : Setting) (k : Nat) (test : Expr) : List Step → Bindings → Action Bool
  | [], ctx => return !(← s.holds ctx test)
  | .assign n e :: rest, ctx => do
    let v ← s.evaluate ctx e
    s.fails k test rest (ctx.set n (v.settled (rest.length + k)))
  | .guard e :: rest, ctx | .whilst e :: rest, ctx => do
    if ← s.holds ctx e then s.fails k test rest ctx else return false
  | .generate _ _ :: _, _ | .assignAll _ :: _, _ | .foreign _ :: _, _ => return false

/-- The sweep of an enumeration of `x` over the candidates of `e`, cut before the first with which the
steps `mid` are gone through and `test` fails. For each of them `mid` is run, and after it `next`, in
which `k` steps are counted. -/
def sweepCut (s : Setting) (k : Nat) (next : Bindings → Sweep) (x : String) (e : Expr)
    (mid : List Step) (test : Expr) (ctx : Bindings) : Sweep :=
  let inner (v : Value) := ctx.set x (v.settled (mid.length + k))
  Sweep.after (s.source ctx e) <|
    Sweep.eachUntil (fun v => s.fails k test mid (inner v)) fun v => s.sweepThen k next mid (inner v)

/-- A test that can end an enumeration drops what it fails for, like a guard, after a look whether it
is reached and fails, which ends the enumeration. -/
theorem sweepThen_whilst (k : Nat) (test : Expr) (next : Bindings → Sweep) {mid : List Step}
    (hmid : ∀ step ∈ mid, step.enumerates = false) (ctx : Bindings) :
    s.sweepThen k (fun c => Sweep.after (s.holds c test) fun
        | true => next c
        | false => return ⟨[], .halted⟩) mid ctx =
      Sweep.haltIf (s.fails k test mid ctx) (s.sweepThen k (fun c =>
        Sweep.after (s.holds c test) fun
          | true => next c
          | false => return ⟨[], .done⟩) mid ctx) := by
  funext j
  refine Eq.trans ?_ (Sweep.run_haltIf _ _ j).symm
  show (s.sweepThen k _ mid ctx).run j = _
  -- along the steps in between, none of which enumerates, so the test is made at most once
  induction mid generalizing ctx j with
  | nil =>
    rw [sweepThen, sweepThen, fails, Gives.run_bind, Sweep.run_after, Sweep.run_after]
    rcases (s.holds ctx test).run.run j with ⟨_ | _ | _, j'⟩ <;> rfl
  | cons step rest ih =>
    have hrest := ih fun st hst => hmid st (List.mem_cons_of_mem _ hst)
    -- either of the two tests stops both sides alike when it fails
    have htest : ∀ (e : Expr) (ending : Ending) {onward onward' : Sweep} {more : Action Bool},
        (∀ j, onward.run j = match more.run.run j with
          | (.ok true, j') => (⟨[], .halted⟩, j')
          | _ => onward'.run j) →
        (Sweep.after (s.holds ctx e) fun
          | true => onward
          | false => return ⟨[], ending⟩).run j =
        match (do if ← s.holds ctx e then more else return false : Action Bool).run.run j with
          | (.ok true, j') => (⟨[], .halted⟩, j')
          | _ => (Sweep.after (s.holds ctx e) fun
            | true => onward'
            | false => return ⟨[], ending⟩).run j := by
      intro e ending onward onward' more h
      rw [Gives.run_bind, Sweep.run_after, Sweep.run_after]
      rcases (s.holds ctx e).run.run j with ⟨_ | _ | _, j'⟩
      · rfl
      · rfl
      · exact h j'
    cases step with
    | generate n e =>
      exact absurd (hmid (.generate n e) (List.mem_cons_self ..)).symm Bool.false_ne_true
    | assign n e =>
      rw [sweepThen, sweepThen, fails, Gives.run_bind, Sweep.run_after, Sweep.run_after]
      rcases (s.evaluate ctx e).run.run j with ⟨_ | v, j'⟩
      · rfl
      · exact hrest _ j'
    | guard e => exact htest e .done (hrest ctx)
    | whilst e => exact htest e .halted (hrest ctx)
    | assignAll bs => rfl
    | foreign k => rfl

/-- An enumeration that a test can end is one that is cut, with a guard in place of the test. -/
theorem sweep_whilst {pre mid post : List Step} {x : String} {e test : Expr}
    (hmid : ∀ step ∈ mid, step.enumerates = false) (ctx : Bindings) :
    s.sweep emit (pre ++ .generate x e :: (mid ++ .whilst test :: post)) ctx =
      s.sweepThen (mid.length + (post.length + 1) + 1)
        (s.sweepCut (post.length + 1) (s.sweep emit (.guard test :: post)) x e mid test) pre ctx := by
  have hlength : (mid ++ Step.whilst test :: post).length = mid.length + (post.length + 1) := by
    simp
  rw [sweep_append, List.length_cons, hlength]
  refine congrFun (congrArg (fun next => s.sweepThen _ next pre) (funext fun c => ?_)) ctx
  rw [sweep, sweepCut]
  refine congrArg _ (funext fun source => ?_)
  rw [← Sweep.each_haltIf]
  refine congrFun (congrArg Sweep.each (funext fun v => ?_)) source
  rw [sweep_append, hlength]
  exact sweepThen_whilst (post.length + 1) test (s.sweep emit post) hmid _

-- ---------------------------------------------------------------------------
-- Tests that leave the streams alone
-- ---------------------------------------------------------------------------

/-- A test that neither reads a stream nor makes one. -/
def Spares (s : Setting) (test : Expr) : Prop :=
  ∀ ctx j, ((s.holds ctx test).run.run j).2.streams = j.streams

end Setting

/-- An outcome has no fault, and another agrees with it in all but the calls. Of an outcome with a
fault, nothing is said. -/
def Follows (a b : Swept × Journal) : Prop :=
  (∀ f, a.1.ending ≠ .failed f) → b.1 = a.1 ∧ b.2.streams = a.2.streams

/-- What is computed depends on the streams alone. -/
theorem Modest.run_streams {α : Type} {m : StateM Journal α} (hm : Modest m) {j j' : Journal}
    (h : j'.streams = j.streams) :
    (m.run j').1 = (m.run j).1 ∧ (m.run j').2.streams = (m.run j).2.streams := by
  have hj := hm.framed j.calls { streams := j.streams }
  have hj' := hm.framed j'.calls { streams := j'.streams }
  rw [← Journal.eq_after] at hj hj'
  rw [hj, hj', h]
  exact ⟨rfl, rfl⟩

namespace Follows

variable {α : Type} {j j' : Journal}

theorem of_modest {m : Sweep} (hm : Modest m) (h : j'.streams = j.streams) :
    Follows (m.run j) (m.run j') :=
  fun _ => hm.run_streams h

theorem after {a : Action α} {k k' : α → Sweep} (ha : Modest a.run) (h : j'.streams = j.streams)
    (hk : ∀ x (j₁ j₁' : Journal), a.run.run j = (.ok x, j₁) → j₁'.streams = j₁.streams →
      Follows ((k x).run j₁) ((k' x).run j₁')) :
    Follows ((Sweep.after a k).run j) ((Sweep.after a k').run j') := by
  obtain ⟨hr, hs⟩ := ha.run_streams h
  rw [Sweep.run_after, Sweep.run_after]
  rcases hrun : a.run.run j with ⟨f | x, j₁⟩ <;> rcases hrun' : a.run.run j' with ⟨f' | x', j₁'⟩ <;>
    rw [hrun, hrun'] at hr hs <;> cases hr
  · exact fun _ => ⟨rfl, hs⟩
  · exact hk x j₁ j₁' hrun hs

theorem andThen {round round' next next' : Sweep} (h : Follows (round.run j) (round'.run j'))
    (hn : ∀ j₁ j₁' : Journal, j₁'.streams = j₁.streams → Follows (next.run j₁) (next'.run j₁')) :
    Follows ((Sweep.andThen round next).run j) ((Sweep.andThen round' next').run j') := by
  intro hsafe
  rw [Sweep.run_andThen] at hsafe ⊢
  rw [Sweep.run_andThen]
  -- as the round ends: it went on, it was halted, or it failed
  rcases hrun : round.run j with ⟨⟨results, _ | _ | f⟩, j₁⟩ <;> rw [hrun] at h hsafe <;>
    simp only at hsafe ⊢
  · obtain ⟨hr, hs⟩ := h nofun
    rcases hrun' : round'.run j' with ⟨r', j₁'⟩
    rw [hrun'] at hr hs
    obtain rfl : r' = ⟨results, .done⟩ := hr
    obtain ⟨hr', hs'⟩ := hn j₁ j₁' hs hsafe
    refine ⟨?_, hs'⟩
    show (⟨results ++ (next'.run j₁').1.results, (next'.run j₁').1.ending⟩ : Swept) = _
    rw [hr']
    rfl
  · obtain ⟨hr, hs⟩ := h nofun
    rcases hrun' : round'.run j' with ⟨r', j₁'⟩
    rw [hrun'] at hr hs
    obtain rfl : r' = ⟨results, .halted⟩ := hr
    exact ⟨rfl, hs⟩
  · -- a fault of the first sweep is excluded by assumption
    exact absurd rfl (hsafe f)

/-- What comes of sweeps of which one has no fault. -/
theorem harvest {m m' : Sweep} (h : Follows (m.run {}) (m'.run {})) (hfault : m.harvest.fault? = none) :
    m.harvest.results = m'.harvest.results ∧ m'.harvest.fault? = none := by
  simp only [Sweep.harvest] at hfault ⊢
  obtain ⟨hr, -⟩ := h fun f hf => by
    rw [hf] at hfault
    cases hfault
  rw [hr]
  exact ⟨rfl, hfault⟩

variable {stop : Value → Action Bool} {body body' : Value → Sweep}

/-- A round, unless a look says that there is to be no more. -/
theorem peek {look : Action Bool} {round round' : Sweep} (hlook : Modest look.run)
    (h : j'.streams = j.streams)
    (hround : (look.run.run j).1 ≠ .ok true → Follows (round.run j) (round'.run j')) :
    Follows ((do if ← Sweep.peek look then return ⟨[], .done⟩ else round : Sweep).run j)
      ((do if ← Sweep.peek look then return ⟨[], .done⟩ else round' : Sweep).run j') := by
  obtain ⟨hr, hs⟩ := hlook.run_streams h
  rw [Sweep.run_peek, Sweep.run_peek]
  rcases hrun : look.run.run j with ⟨f | _ | _, j₁⟩ <;>
    rcases hrun' : look.run.run j' with ⟨f' | _ | _, j₁'⟩ <;> rw [hrun, hrun'] at hr hs <;>
    cases hr
  · exact hround (by rw [hrun]; nofun)
  · exact hround (by rw [hrun]; nofun)
  · exact fun _ => ⟨rfl, hs⟩

theorem eachUntil (hstop : ∀ v, Modest (stop v).run)
    (hbody : ∀ v (j j' : Journal), j'.streams = j.streams → ((stop v).run.run j).1 ≠ .ok true →
      Follows ((body v).run j) ((body' v).run j'))
    (source : Source) (h : j'.streams = j.streams) :
    Follows ((Sweep.eachUntil stop body source).run j)
      ((Sweep.eachUntil stop body' source).run j') := by
  cases source with
  | own vs =>
    show Follows ((Sweep.eachOwnUntil stop body vs).run j) ((Sweep.eachOwnUntil stop body' vs).run j')
    -- along the values at hand, and below along a bound on those the stream still has
    induction vs generalizing j j' with
    | nil => exact fun _ => ⟨rfl, h⟩
    | cons v vs ih =>
      exact .peek (hstop v) h fun hgo => .andThen (hbody v j j' h hgo) fun j₁ j₁' h₁ => ih h₁
  | shared id =>
    have hleft : j'.left id = j.left id := by rw [Journal.left, Journal.left, h]
    show Follows ((Sweep.eachSharedUntil stop body id (j.left id).size).run j)
      ((Sweep.eachSharedUntil stop body' id (j'.left id).size).run j')
    rw [hleft]
    generalize (j.left id).size = limit
    clear hleft
    induction limit generalizing j j' with
    | zero => exact fun _ => ⟨rfl, h⟩
    | succ limit ih =>
      refine .after (Setting.modest_pull id) h fun v? j₁ j₁' _ h₁ => ?_
      cases v? with
      | none => exact fun _ => ⟨rfl, h₁⟩
      | some v =>
        exact .peek (hstop v) h₁ fun hgo => .andThen (hbody v j₁ j₁' h₁ hgo) fun j₂ j₂' h₂ => ih h₂

theorem each (hbody : ∀ v (j j' : Journal), j'.streams = j.streams →
      Follows ((body v).run j) ((body' v).run j'))
    (source : Source) (h : j'.streams = j.streams) :
    Follows ((Sweep.each body source).run j) ((Sweep.each body' source).run j') := by
  cases source with
  | own vs =>
    show Follows ((Sweep.eachOwn body vs).run j) ((Sweep.eachOwn body' vs).run j')
    -- along the values at hand, and below along a bound on those the stream still has
    induction vs generalizing j j' with
    | nil => exact fun _ => ⟨rfl, h⟩
    | cons v vs ih => exact .andThen (hbody v j j' h) fun j₁ j₁' h₁ => ih h₁
  | shared id =>
    have hleft : j'.left id = j.left id := by rw [Journal.left, Journal.left, h]
    show Follows ((Sweep.eachShared body id (j.left id).size).run j)
      ((Sweep.eachShared body' id (j'.left id).size).run j')
    rw [hleft]
    generalize (j.left id).size = limit
    clear hleft
    induction limit generalizing j j' with
    | zero => exact fun _ => ⟨rfl, h⟩
    | succ limit ih =>
      refine .after (Setting.modest_pull id) h fun v? j₁ j₁' _ h₁ => ?_
      cases v? with
      | none => exact fun _ => ⟨rfl, h₁⟩
      | some v => exact .andThen (hbody v j₁ j₁' h₁) fun j₂ j₂' h₂ => ih h₂

end Follows

namespace Setting

variable {s : Setting} {emit : Bindings → Action Value} {test : Expr} {k : Nat}

theorem modest_fails (steps : List Step) (ctx : Bindings) : Modest (s.fails k test steps ctx).run := by
  induction steps generalizing ctx with
  | nil => exact (modest_holds ctx test).next fun _ => .answer _
  | cons step rest ih =>
    have htest : ∀ e, Modest (do
        if ← s.holds ctx e then s.fails k test rest ctx else return false : Action Bool).run := by
      intro e
      refine (modest_holds ctx e).next fun b => ?_
      cases b with
      | true => exact ih ctx
      | false => exact .answer _
    cases step with
    | assign n e => exact (modest_evaluate ctx e).next fun v => ih _
    | guard e => exact htest e
    | whilst e => exact htest e
    | generate n e => exact .answer _
    | assignAll bs => exact .answer _
    | foreign k => exact .answer _

/-- What goes on after steps only matters up to the calls. -/
theorem follows_sweepThen {next next' : Bindings → Sweep}
    (hnext : ∀ c (j j' : Journal), j'.streams = j.streams →
      Follows ((next c).run j) ((next' c).run j'))
    (steps : List Step) (ctx : Bindings) {j j' : Journal} (h : j'.streams = j.streams) :
    Follows ((s.sweepThen k next steps ctx).run j) ((s.sweepThen k next' steps ctx).run j') := by
  induction steps generalizing ctx j j' with
  | nil => exact hnext ctx j j' h
  | cons step rest ih =>
    -- a guard and a test for the end differ in how they end alone
    have htest : ∀ (e : Expr) (ending : Ending), Follows
        ((Sweep.after (s.holds ctx e) fun
          | true => s.sweepThen k next rest ctx
          | false => return ⟨[], ending⟩).run j)
        ((Sweep.after (s.holds ctx e) fun
          | true => s.sweepThen k next' rest ctx
          | false => return ⟨[], ending⟩).run j') := by
      intro e ending
      refine .after (modest_holds ctx e) h fun b j₁ j₁' _ h₁ => ?_
      cases b with
      | true => exact ih ctx h₁
      | false => exact fun _ => ⟨rfl, h₁⟩
    cases step with
    | generate n e =>
      exact .after (modest_source ctx e) h fun source j₁ j₁' _ h₁ =>
        .each (fun v j₂ j₂' h₂ => ih _ h₂) source h₁
    | assign n e => exact .after (modest_evaluate ctx e) h fun v j₁ j₁' _ h₁ => ih _ h₁
    | guard e => exact htest e .done
    | whilst e => exact htest e .halted
    | assignAll bs => exact fun _ => ⟨rfl, h⟩
    | foreign k => exact fun _ => ⟨rfl, h⟩

/-- Where a look has told that a test does not fail, a guard with it can be left out. -/
theorem follows_guard (hspares : s.Spares test) {next : Bindings → Sweep} (hnext : ∀ c, Modest (next c))
    {mid : List Step} (hmid : ∀ step ∈ mid, step.enumerates = false) (ctx : Bindings) {j j' : Journal}
    (h : j'.streams = j.streams) (hgo : ((s.fails k test mid ctx).run.run j).1 ≠ .ok true) :
    Follows
      ((s.sweepThen k (fun c => Sweep.after (s.holds c test) fun
        | true => next c
        | false => return ⟨[], .done⟩) mid ctx).run j)
      ((s.sweepThen k next mid ctx).run j') := by
  -- along the steps in between: at the end of them the test holds, as it did not stop the sweep
  induction mid generalizing ctx j j' with
  | nil =>
    have hsame := hspares ctx j
    rw [fails, Gives.run_bind] at hgo
    rw [sweepThen, sweepThen, Sweep.run_after]
    rcases hrun : (s.holds ctx test).run.run j with ⟨f | _ | _, j₁⟩ <;> rw [hrun] at hgo hsame
    · -- the test raised
      exact fun hsafe => absurd rfl (hsafe f)
    · -- the test failed, which is what stops the sweep
      exact absurd rfl hgo
    · -- the test held, and evaluating it left the streams as they were
      exact .of_modest (hnext ctx) (h.trans hsame.symm)
  | cons step rest ih =>
    have hrest := ih fun st hst => hmid st (List.mem_cons_of_mem _ hst)
    have htest : ∀ (e : Expr) (ending : Ending) {onward onward' : Sweep},
        ((do if ← s.holds ctx e then s.fails k test rest ctx else return false :
          Action Bool).run.run j).1 ≠ .ok true →
        (∀ j₁ j₁' : Journal, j₁'.streams = j₁.streams →
          ((s.fails k test rest ctx).run.run j₁).1 ≠ .ok true →
          Follows (onward.run j₁) (onward'.run j₁')) →
        Follows
          ((Sweep.after (s.holds ctx e) fun
            | true => onward
            | false => return ⟨[], ending⟩).run j)
          ((Sweep.after (s.holds ctx e) fun
            | true => onward'
            | false => return ⟨[], ending⟩).run j') := by
      intro e ending onward onward' hgo honward
      refine .after (modest_holds ctx e) h fun b j₁ j₁' hrun h₁ => ?_
      rw [Gives.run_bind, hrun] at hgo
      cases b with
      | true => exact honward j₁ j₁' h₁ hgo
      | false => exact fun _ => ⟨rfl, h₁⟩
    cases step with
    | generate n e =>
      exact absurd (hmid (.generate n e) (List.mem_cons_self ..)).symm Bool.false_ne_true
    | assign n e =>
      refine .after (modest_evaluate ctx e) h fun v j₁ j₁' hrun h₁ => hrest _ h₁ ?_
      rwa [fails, Gives.run_bind, hrun] at hgo
    | guard e => exact htest e .done hgo fun j₁ j₁' h₁ => hrest ctx h₁
    | whilst e => exact htest e .halted hgo fun j₁ j₁' h₁ => hrest ctx h₁
    | assignAll bs => exact fun _ => ⟨rfl, h⟩
    | foreign k => exact fun _ => ⟨rfl, h⟩

/-- The guard of an enumeration that is cut can be left out where its test leaves the streams alone. -/
theorem follows_sweepCut (hspares : s.Spares test) {next : Bindings → Sweep}
    (hnext : ∀ c, Modest (next c)) {mid : List Step}
    (hmid : ∀ step ∈ mid, step.enumerates = false) (x : String) (e : Expr) (ctx : Bindings)
    {j j' : Journal} (h : j'.streams = j.streams) :
    Follows
      ((s.sweepCut k (fun c => Sweep.after (s.holds c test) fun
        | true => next c
        | false => return ⟨[], .done⟩) x e mid test ctx).run j)
      ((s.sweepCut k next x e mid test ctx).run j') :=
  .after (modest_source ctx e) h fun source _ _ _ h₁ =>
    .eachUntil (fun _ => modest_fails mid _)
      (fun _ _ _ h₂ hgo => follows_guard hspares hnext hmid _ h₂ hgo) source h₁

-- ---------------------------------------------------------------------------
-- Tests outside of all enumerations
-- ---------------------------------------------------------------------------

/-- Outside of all enumerations, a test that could end one is a guard. -/
theorem run_sweep_whilst {pre post : List Step} (hpre : ∀ step ∈ pre, step.enumerates = false)
    (ctx : Bindings) (j : Journal) :
    ∃ results ending ending' j', (s.sweep emit (pre ++ .whilst test :: post) ctx).run j =
      (⟨results, ending⟩, j') ∧ (s.sweep emit (pre ++ .guard test :: post) ctx).run j =
      (⟨results, ending'⟩, j') ∧ ending.answer = ending'.answer := by
  -- along the steps before, none of which enumerates: the test is met once or never
  induction pre generalizing ctx j with
  | nil =>
    rw [List.nil_append, List.nil_append, sweep, sweep, Sweep.run_after, Sweep.run_after]
    rcases (s.holds ctx test).run.run j with ⟨f | _ | _, j'⟩
    · -- it raised, failed or held; only the failure ends the two differently, with no results
      exact ⟨_, _, _, _, rfl, rfl, rfl⟩
    · exact ⟨_, .halted, .done, _, rfl, rfl, rfl⟩
    · exact ⟨_, _, _, _, rfl, rfl, rfl⟩
  | cons step rest ih =>
    have hrest := ih fun st hst => hpre st (List.mem_cons_of_mem _ hst)
    have hlength : (rest ++ Step.whilst test :: post).length =
        (rest ++ Step.guard test :: post).length := by simp
    have htest : ∀ (e : Expr) (ending₀ : Ending), ∃ results ending ending' j',
        (Sweep.after (s.holds ctx e) fun
          | true => s.sweep emit (rest ++ .whilst test :: post) ctx
          | false => return ⟨[], ending₀⟩).run j = (⟨results, ending⟩, j') ∧
        (Sweep.after (s.holds ctx e) fun
          | true => s.sweep emit (rest ++ .guard test :: post) ctx
          | false => return ⟨[], ending₀⟩).run j = (⟨results, ending'⟩, j') ∧
        ending.answer = ending'.answer := by
      intro e ending₀
      rw [Sweep.run_after, Sweep.run_after]
      rcases (s.holds ctx e).run.run j with ⟨f | _ | _, j'⟩
      · exact ⟨_, _, _, _, rfl, rfl, rfl⟩
      · exact ⟨_, _, _, _, rfl, rfl, rfl⟩
      · exact hrest ctx j'
    cases step with
    | generate n e =>
      exact absurd (hpre (.generate n e) (List.mem_cons_self ..)).symm Bool.false_ne_true
    | assign n e =>
      rw [List.cons_append, List.cons_append, sweep, sweep, Sweep.run_after, Sweep.run_after, hlength]
      rcases (s.evaluate ctx e).run.run j with ⟨f | v, j'⟩
      · exact ⟨_, _, _, _, rfl, rfl, rfl⟩
      · exact hrest _ j'
    | guard e => exact htest e .done
    | whilst e => exact htest e .halted
    | assignAll bs => exact ⟨_, _, _, _, rfl, rfl, rfl⟩
    | foreign k => exact ⟨_, _, _, _, rfl, rfl, rfl⟩

/-- So it is, for all that comes of it. -/
theorem harvest_sweep_whilst {pre post : List Step} (hpre : ∀ step ∈ pre, step.enumerates = false)
    (ctx : Bindings) :
    (s.sweep emit (pre ++ .whilst test :: post) ctx).harvest =
      (s.sweep emit (pre ++ .guard test :: post) ctx).harvest := by
  obtain ⟨results, ending, ending', j', hrun, hrun', hanswer⟩ :
      ∃ results ending ending' j', (s.sweep emit (pre ++ .whilst test :: post) ctx).run {} =
        (⟨results, ending⟩, j') ∧ (s.sweep emit (pre ++ .guard test :: post) ctx).run {} =
        (⟨results, ending'⟩, j') ∧ ending.answer = ending'.answer :=
    run_sweep_whilst hpre ctx {}
  simp only [Sweep.harvest, hrun, hrun', hanswer]

end Setting

-- ---------------------------------------------------------------------------
-- Expressions that do not touch streams
-- ---------------------------------------------------------------------------

/-- No part of the expression stands for candidates or reads them. -/
def Expr.sparing : Expr → Bool
  | .var _ | .argument _ | .unnamed | .call _ | .foreign _ => true
  | .edgeEnd e _ _ | .reachable e _ | .isInstance e _ | .present e => e.sparing
  | .equal l r => l.sparing && r.sparing
  | .instances _ | .adjacent _ _ _ | .nonEmpty _ | .member _ _ => false

/-- An action leaves the streams alone, and what it gives is of some sort. -/
def Sparing {α : Type} (P : α → Prop) (a : Action α) : Prop :=
  ∀ j, (a.run.run j).2.streams = j.streams ∧ ∀ x, (a.run.run j).1 = .ok x → P x

namespace Sparing

variable {α β : Type} {P : α → Prop} {Q : β → Prop}

theorem answer {x : α} (h : P x) : Sparing P (pure x) :=
  fun _ => ⟨rfl, fun _ hx => Except.ok.inj hx ▸ h⟩

theorem throw (f : Fault) : Sparing P (MonadExcept.throw f) :=
  fun _ => ⟨rfl, nofun⟩

theorem ask {e : Except Fault α} (h : ∀ x, e = .ok x → P x) : Sparing P (Setting.ask e) :=
  fun _ => ⟨rfl, h⟩

theorem next {a : Action α} {f : α → Action β} (ha : Sparing P a) (hf : ∀ x, P x → Sparing Q (f x)) :
    Sparing Q (a >>= f) := by
  intro j
  obtain ⟨hs, hx⟩ := ha j
  rw [Gives.run_bind]
  rcases hrun : a.run.run j with ⟨e | x, j'⟩ <;> rw [hrun] at hs hx
  · exact ⟨hs, nofun⟩
  · obtain ⟨hs', hx'⟩ := hf x (hx x rfl) j'
    exact ⟨hs'.trans hs, hx'⟩

end Sparing

namespace Setting

variable {s : Setting}

theorem sparing_callForm (ctx : Bindings) (f : Form) : Sparing (fun _ => True) (s.callForm ctx f) := by
  unfold callForm
  split
  · exact .throw _
  · refine .next (.ask fun _ _ => trivial) fun passed _ => ?_
    split
    · exact .throw _
    · refine .next (P := fun _ => True) ?_ fun _ _ => .ask fun _ _ => trivial
      exact fun j => ⟨rfl, fun _ _ => trivial⟩

/-- What such an expression stands for is a value, and it is computed without a look at streams. -/
theorem sparing_compute {e : Expr} (h : e.sparing = true) (ctx : Bindings) :
    Sparing (fun c => ∃ v, c = .value v) (s.compute ctx e) := by
  -- an operand gives a value or raises, and what is done with the value is sparing too
  have hvalue : ∀ {e : Expr} {k : Value → Action Computed},
      Sparing (fun c => ∃ v, c = .value v) (s.compute ctx e) →
      (∀ v, Sparing (fun c => ∃ v, c = .value v) (k v)) →
      Sparing (fun c => ∃ v, c = .value v) (do k (← (← s.compute ctx e).toValue)) := by
    intro e k he hk
    refine he.next fun c hc => ?_
    obtain ⟨v, rfl⟩ := hc
    exact .next (P := fun _ => True) (.answer trivial) fun v _ => hk v
  have hneed : Sparing (fun _ => True) s.needEdges := by
    unfold needEdges
    split
    · exact .answer trivial
    · exact .throw _
  -- on the expression; those that make a source of their own are not sparing
  induction e with
  | var n | argument n =>
    rw [compute]
    split
    · exact .answer ⟨_, rfl⟩
    · exact .throw _
  | unnamed => exact .throw _
  | foreign k => exact .throw _
  | call f => exact (sparing_callForm ctx f).next fun _ _ => .answer ⟨_, rfl⟩
  | edgeEnd e d far ih =>
    exact hneed.next fun _ _ => hvalue (ih h) fun v =>
      .next (P := fun _ => True) (.ask fun _ _ => trivial) fun _ _ => .answer ⟨_, rfl⟩
  | reachable e p ih =>
    exact hvalue (ih h) fun v =>
      .next (P := fun _ => True) (.ask fun _ _ => trivial) fun _ _ => .answer ⟨_, rfl⟩
  | isInstance e t ih =>
    exact hvalue (ih h) fun v =>
      .next (P := fun _ => True) (.ask fun _ _ => trivial) fun _ _ => .answer ⟨_, rfl⟩
  | present e ih => exact hvalue (ih h) fun v => .answer ⟨_, rfl⟩
  | equal l r ihl ihr =>
    obtain ⟨hl, hr⟩ := Bool.and_eq_true_iff.1 h
    exact hvalue (ihl hl) fun a => hvalue (ihr hr) fun b => .answer ⟨_, rfl⟩
  | instances t | adjacent e t d | nonEmpty c | member e c => exact absurd h Bool.false_ne_true

/-- Such tests leave the streams alone. -/
theorem spares_of_sparing {test : Expr} (h : test.sparing = true) : s.Spares test := by
  have hholds : ∀ ctx, Sparing (fun _ => True) (s.holds ctx test) := by
    intro ctx
    refine .next (P := fun _ => True) ((sparing_compute h ctx).next fun c hc => ?_) fun _ _ =>
      .answer trivial
    obtain ⟨v, rfl⟩ := hc
    exact .answer trivial
  exact fun ctx j => (hholds ctx j).1

end Setting

-- ---------------------------------------------------------------------------
-- All matches
-- ---------------------------------------------------------------------------

namespace Matches

theorem all_eq_harvest (m : Matches) :
    m.all = (m.setting.sweep m.emit m.plan.steps m.arguments).harvest := by
  rw [all, Sweep.harvest]
  rcases (m.setting.sweep m.emit m.plan.steps m.arguments).run {} with ⟨⟨results, _ | _ | f⟩, j⟩ <;>
    rfl

/-- All matches, if after `pre` the candidates of `x` are cut before the first with which the steps
`mid` are gone through and `test` fails, and `rest` is run after `mid`. -/
def allCut (m : Matches) (pre : List Step) (x : String) (e : Expr) (mid : List Step) (test : Expr)
    (k : Nat) (rest : List Step) : Harvest :=
  (m.setting.sweepThen (mid.length + k + 1)
    (m.setting.sweepCut k (m.setting.sweep m.emit rest) x e mid test) pre m.arguments).harvest

/-- What all matches of a plan amount to. Without tests that can end an enumeration, they are the
comprehension of the steps. An enumeration that such a test can end is cut before the first candidate
that reaches the test and fails it, and the test is a guard for the others, which is not needed where
the test leaves the streams alone. Outside of all enumerations such a test is a guard. -/
theorem all_comprehension (m : Matches) :
    ((∀ step ∈ m.plan.steps, step.ends = false) → m.all.fault? = none →
      ∃ streams, (m.setting.comprehend m.emit m.plan.steps m.arguments).run.run {} =
        (.ok m.all.results, ⟨m.all.calls, streams⟩)) ∧
    (∀ pre x e mid test post, m.plan.steps = pre ++ .generate x e :: (mid ++ .whilst test :: post) →
      (∀ step ∈ mid, step.enumerates = false) →
      m.all = m.allCut pre x e mid test (post.length + 1) (.guard test :: post) ∧
      (m.all.fault? = none → m.setting.Spares test →
        m.all.results = (m.allCut pre x e mid test (post.length + 1) post).results ∧
        (m.allCut pre x e mid test (post.length + 1) post).fault? = none)) ∧
    ∀ pre test post, m.plan.steps = pre ++ .whilst test :: post →
      (∀ step ∈ pre, step.enumerates = false) →
      m.all = { m with plan := { m.plan with steps := pre ++ Step.guard test :: post } }.all := by
  refine ⟨fun hends hfault => ?_, fun pre x e mid test post hsteps hmid => ?_,
    fun pre test post hsteps hpre => ?_⟩
  · -- a plan without a test for the end lists what the comprehension lists
    have hcomprehend : Lists (m.setting.sweep m.emit m.plan.steps m.arguments)
        (m.setting.comprehend m.emit m.plan.steps m.arguments) :=
      m.setting.lists_comprehend hends m.arguments
    have hlists := hcomprehend {}
    rw [all_eq_harvest, Sweep.harvest] at hfault ⊢
    rcases hrun : (m.setting.comprehend m.emit m.plan.steps m.arguments).run.run {} with ⟨f | vs, j⟩ <;>
      simp only [hrun] at hlists
    · obtain ⟨vs, hvs⟩ := hlists
      rw [hvs] at hfault
      cases hfault
    · rw [hlists]
      exact ⟨j.streams, rfl⟩
  · -- a test after the last generator cuts that generator at the first value that fails
    have hall : m.all = m.allCut pre x e mid test (post.length + 1) (Step.guard test :: post) := by
      rw [all_eq_harvest, hsteps, Setting.sweep_whilst hmid, allCut]
    refine ⟨hall, fun hfault hspares => ?_⟩
    rw [hall] at hfault ⊢
    refine Follows.harvest ?_ hfault
    exact Setting.follows_sweepThen (fun c _ _ h => Setting.follows_sweepCut hspares
      (fun c => Setting.modest_sweep m.modest_emit post c) hmid x e c h) pre m.arguments rfl
  · -- a test before any generator is a guard
    have hemit : ({ m with plan := { m.plan with steps := pre ++ Step.guard test :: post } } :
        Matches).emit = m.emit := by
      funext ctx
      simp [emit, Plan.resultNames, Plan.boundNames, hsteps, Step.boundNames]
    rw [all_eq_harvest, all_eq_harvest, hemit, hsteps]
    exact Setting.harvest_sweep_whilst hpre m.arguments

end Matches

/-- Three elements of a class, and two of another, one of them of a class below. -/
def kin : TypedGraph :=
  let first : ElementClass := ⟨.mk "A" [], false⟩
  let second : ElementClass := ⟨.mk "B" [], false⟩
  let below : ElementClass := ⟨.mk "C" [second.lineage], false⟩
  { schema := ⟨[first, second, below]⟩
    elements := [.vertex ⟨first, [], []⟩, .vertex ⟨first, [], []⟩, .vertex ⟨first, [], []⟩,
      .vertex ⟨below, [], []⟩, .vertex ⟨second, [], []⟩] }

/-- Some steps over this graph. -/
def Matches.overKin (steps : List Step) : Matches where
  plan := { steps, arguments := [], engine := .graph }
  setting := { engine := .graph, model := .graph kin, behaviour := fun _ _ => .ok .null }
  arguments := []

/-- A stream is bound, and what is left of it is enumerated for each element of a class, after some
tests. -/
def streamSteps (type : String) (tests : List Step) : List Step :=
  [.assign "#rest" (.instances (.spec "A")), .generate "x" (.instances (.spec type))] ++ tests ++
    [.generate "y" (.var "#rest")]

/-- Whether there is something left of the stream, which takes it from there. -/
def somethingLeft : Expr :=
  .nonEmpty (.var "#rest")

/-- An enumeration that a test ends is in general not the one over the candidates before without the
test: there are two elements of `B`, with the first of which the test holds and with the second of which
it fails, and the first is the only one of `C`; but the test has taken something from the stream. -/
theorem Matches.all_somethingLeft :
    Engine.graph.instances (.graph kin) (.spec "B") = .ok (.values [.vertex 4, .vertex 5]) ∧
    Engine.graph.instances (.graph kin) (.spec "C") = .ok (.values [.vertex 4]) ∧
    ((overKin []).setting.fails 2 somethingLeft [] [("#rest", .stream 0), ("x", .vertex 4)]).run.run
        { streams := [.values [.vertex 1, .vertex 2, .vertex 3]] } =
      (.ok false, { streams := [.values [.vertex 2, .vertex 3]] }) ∧
    ((overKin []).setting.fails 2 somethingLeft [] [("#rest", .stream 0), ("x", .vertex 5)]).run.run
        { streams := [.values []] } = (.ok true, { streams := [.values []] }) ∧
    (overKin (streamSteps "B" [.whilst somethingLeft])).all =
      { results := [.list [.vertex 4, .vertex 2] (.made []), .list [.vertex 4, .vertex 3] (.made [])] } ∧
    (overKin (streamSteps "C" [])).all =
      { results := [.list [.vertex 4, .vertex 1] (.made []), .list [.vertex 4, .vertex 2] (.made []),
          .list [.vertex 4, .vertex 3] (.made [])] } :=
  ⟨rfl, rfl, rfl, rfl, by decide, by decide⟩

/-- An enumeration inside of another, which ends at the element of `C`. -/
def untilBelow : List Step :=
  [.generate "a" (.instances (.spec "B")), .generate "x" (.instances .any), .assign "b" (.var "x"),
    .whilst (.isInstance (.var "b") (.spec "!C")), .guard (.equal (.var "b") (.var "x"))]

/-- A test outside of all enumerations. -/
def untilNever : List Step :=
  [.assign "a" (.var "n"), .whilst (.isInstance (.var "a") (.spec "C")),
    .generate "x" (.instances (.spec "B"))]

/-- In this graph: a stream is read once; an enumeration that ends does so for each candidate of the one
around it; and a test outside of enumerations drops the match. -/
theorem Matches.all_comprehension_kin :
    (∃ streams, ((overKin (streamSteps "B" [])).setting.comprehend
        (overKin (streamSteps "B" [])).emit (streamSteps "B" []) []).run.run {} =
      (.ok [.list [.vertex 4, .vertex 1] (.made []), .list [.vertex 4, .vertex 2] (.made []),
          .list [.vertex 4, .vertex 3] (.made [])], ⟨[], streams⟩)) ∧
    ((overKin untilBelow).allCut [.generate "a" (.instances (.spec "B"))] "x" (.instances .any)
        [.assign "b" (.var "x")] (.isInstance (.var "b") (.spec "!C")) 2
        [.guard (.equal (.var "b") (.var "x"))]).results =
      [4, 5].flatMap (fun a => [1, 2, 3].map fun x =>
        Value.list [.vertex a, .vertex x, .vertex x] (.made [])) ∧
    ({ overKin untilNever with arguments := [("n", .vertex 5)] } : Matches).all =
      { results := [] } := by
  have hfree := (all_comprehension (overKin (streamSteps "B" []))).1 (by decide) (by decide)
  have hcut := ((all_comprehension (overKin untilBelow)).2.1
    [.generate "a" (.instances (.spec "B"))] "x" (.instances .any) [.assign "b" (.var "x")]
    (.isInstance (.var "b") (.spec "!C")) [.guard (.equal (.var "b") (.var "x"))] rfl (by decide)).2
    (by decide) (Setting.spares_of_sparing rfl)
  have halone := (all_comprehension { overKin untilNever with arguments := [("n", .vertex 5)] }).2.2
    [.assign "a" (.var "n")] (.isInstance (.var "a") (.spec "C"))
    [.generate "x" (.instances (.spec "B"))] rfl (by decide)
  refine ⟨?_, hcut.1.symm.trans (by decide), halone.trans (by decide)⟩
  exact hfree

end GraphPattern
