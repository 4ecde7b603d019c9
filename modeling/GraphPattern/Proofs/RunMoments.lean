import GraphPattern.Proofs.Laziness

/-!
# GraphPattern — the moments of a run

A run comes to one moment after the other. At each of them, it has some steps before it and some names
bound, and it evaluates the first of these steps, or makes the result of a match if there is none. What
a run calls is called at its moments, and its results are made at them, in their order.

## Results

* `Setting.tells_sweep` — the calls and the results of a sweep, as made at its moments.
* `Setting.run_sweep_congr` — nothing else is evaluated in a sweep.
* `Setting.forall_moments` — what a run keeps from moment to moment holds at all its moments.
* `Matches.all_calls`, `Matches.all_results` — the same for all matches of a plan.
* `Matches.take_prefix` — some first matches are found by a first part of this.
-/

namespace GraphPattern

/-- A moment of a run: the steps that are still to be run, what is bound, and the journal. -/
structure Moment where
  rest : List Step
  ctx : Bindings
  journal : Journal
deriving Repr

/-- The calls that are made by a part of a run that starts with a journal. -/
def Journal.callsOf {α : Type} (j : Journal) (m : StateM Journal α) : List Call :=
  (m.run { streams := j.streams }).2.calls

theorem Modest.calls_eq {α : Type} {m : StateM Journal α} (h : Modest m) (j : Journal) :
    (m.run j).2.calls = j.calls ++ j.callsOf m := by
  have hframed := h.framed j.calls { streams := j.streams }
  rw [← j.eq_after] at hframed
  rw [hframed]
  rfl

-- ---------------------------------------------------------------------------
-- Keywords
-- ---------------------------------------------------------------------------

theorem Bindings.get?_of_mem {ctx : Bindings} (h : (ctx.map (·.1)).Nodup) {b : String × Value}
    (hb : b ∈ ctx) : ctx.get? b.1 = some b.2 := by
  induction ctx with
  | nil => exact absurd hb List.not_mem_nil
  | cons c rest ih =>
    obtain ⟨hfresh, hrest⟩ := List.nodup_cons.1 h
    rw [get?]
    rcases List.mem_cons.1 hb with rfl | hb
    · exact if_pos rfl
    · have hne : c.1 ≠ b.1 := fun heq => hfresh (List.mem_map.2 ⟨b, hb, heq.symm⟩)
      rw [if_neg hne, ih hrest hb]

/-- Keywords are passed as they are bound. -/
theorem Form.get?_of_keywordsFor {f : Form} {params : List Param} {ctx passed : Bindings}
    (hctx : (ctx.map (·.1)).Nodup) (h : f.keywordsFor params ctx = .ok passed) :
    ∀ b ∈ passed, ctx.get? b.1 = some b.2 := by
  unfold keywordsFor at h
  split at h
  · cases h
    exact fun b hb => Bindings.get?_of_mem hctx (List.mem_filter.1 hb).1
  · rename_i hnone
    clear hnone
    -- along the parameters: each value gathered is the context's
    induction params generalizing passed with
    | nil =>
      cases h
      exact fun b hb => absurd hb List.not_mem_nil
    | cons p ps ih =>
      rw [keywordsFor.gather] at h
      split at h
      · rename_i v hv
        simp only [bind, Except.bind] at h
        split at h
        · cases h
        · rename_i more hmore
          cases h
          exact List.forall_mem_cons.2 ⟨hv, ih hmore⟩
      · split at h
        · cases h
        · exact ih h

/-- What an action calls has its keywords from some bindings. -/
def Asks (ctx : Bindings) {α : Type} (a : Action α) : Prop :=
  ∀ j, ∃ cs, (a.run.run j).2.calls = j.calls ++ cs ∧
    ∀ call ∈ cs, ∀ b ∈ call.keywords, ctx.get? b.1 = some b.2

namespace Asks

variable {ctx : Bindings} {α β : Type} {a : Action α}

/-- An action that calls nothing. -/
theorem of_calls_eq (h : ∀ j, (a.run.run j).2.calls = j.calls) : Asks ctx a :=
  fun j => ⟨[], by rw [h, List.append_nil], fun _ hc => absurd hc List.not_mem_nil⟩

theorem next {k : α → Action β} (ha : Asks ctx a)
    (hk : ∀ x j j', a.run.run j = (.ok x, j') → Asks ctx (k x)) : Asks ctx (a >>= k) := by
  intro j
  obtain ⟨cs, hcs, hasked⟩ := ha j
  rw [Gives.run_bind]
  rcases hrun : a.run.run j with ⟨f | x, j'⟩ <;> rw [hrun] at hcs
  · exact ⟨cs, hcs, hasked⟩
  · obtain ⟨cs', hcs', hasked'⟩ := hk x j j' hrun j'
    refine ⟨cs ++ cs', ?_, fun call hcall => (List.mem_append.1 hcall).elim (hasked call) (hasked' call)⟩
    rw [hcs', show j'.calls = _ from hcs, List.append_assoc]

theorem member (v : Value) (c : Computed) : Asks ctx (isMember v c) := by
  refine of_calls_eq fun j => ?_
  rcases c with w | ⟨vs | f⟩
  · cases w with
    | text t o => cases v <;> rfl
    | stream id =>
      rw [Setting.run_isMember_stream]
      split
      · rfl
      · split <;> rfl
    | _ => rfl
  · rfl
  · rfl

theorem callForm (s : Setting) (hctx : (ctx.map (·.1)).Nodup) (f : Form) :
    Asks ctx (s.callForm ctx f) := by
  unfold Setting.callForm
  split
  · exact of_calls_eq fun _ => rfl
  · rename_i params hparams
    refine next (.of_calls_eq fun _ => rfl) fun passed j j' hrun => ?_
    have hpassed : f.keywordsFor params ctx = .ok passed := congrArg Prod.fst hrun
    split
    · exact of_calls_eq fun _ => rfl
    · refine next (fun j => ⟨[⟨f.id, passed.mergeSort fun a b => decide (a.1 ≤ b.1)⟩], rfl, ?_⟩)
        fun _ _ _ _ => .of_calls_eq fun _ => rfl
      intro call hcall b hb
      obtain rfl := List.mem_singleton.1 hcall
      exact f.get?_of_keywordsFor hctx hpassed b (List.mem_mergeSort.1 hb)

theorem callsOf (h : Asks ctx a) (j : Journal) :
    ∀ call ∈ j.callsOf a.run, ∀ b ∈ call.keywords, ctx.get? b.1 = some b.2 := by
  obtain ⟨cs, hcs, hasked⟩ := h { streams := j.streams }
  intro call hcall
  exact hasked call (by rwa [Journal.callsOf, hcs] at hcall)

end Asks

namespace Setting

variable {ctx : Bindings}

/-- All that is evaluated takes keywords as they are bound. -/
theorem asks_evaluates (s : Setting) (hctx : (ctx.map (·.1)).Nodup) : s.Evaluates ctx fun a => Asks ctx a where
  answer _ := .of_calls_eq fun _ => rfl
  throw _ := .of_calls_eq fun _ => rfl
  ask _ := .of_calls_eq fun _ => rfl
  next ha hk := ha.next fun x _ _ _ => hk x
  value c := .of_calls_eq fun _ => by cases c <;> rfl
  pull id := .of_calls_eq fun j => by
    rw [run_pull]
    split <;> rfl
  member := .member
  call := .callForm s hctx

end Setting

-- ---------------------------------------------------------------------------
-- Rounds
-- ---------------------------------------------------------------------------

namespace Sweep

/-- The rounds of an enumeration over candidates, each with the journal at its beginning. -/
def roundsOwn (body : Value → Sweep) : List Value → Journal → List (Value × Journal)
  | [], _ => []
  | v :: vs, j => (v, j) :: match (body v).run j with
    | (⟨_, .done⟩, j') => roundsOwn body vs j'
    | _ => []

/-- The rounds of an enumeration over the values of a stream, at most `limit` rounds. -/
def roundsShared (body : Value → Sweep) (id : Nat) : Nat → Journal → List (Value × Journal)
  | 0, _ => []
  | limit + 1, j => match (pull id).run.run j with
    | (.ok (some v), j') => (v, j') :: match (body v).run j' with
      | (⟨_, .done⟩, j'') => roundsShared body id limit j''
      | _ => []
    | _ => []

/-- The rounds of an enumeration. -/
def rounds (body : Value → Sweep) : Source → Journal → List (Value × Journal)
  | .own vs, j => roundsOwn body vs j
  | .shared id, j => roundsShared body id (j.left id).size j

/-- The rounds of an enumeration are about its candidates. -/
theorem mem_of_mem_roundsOwn {body : Value → Sweep} {vs : List Value} {j : Journal}
    {round : Value × Journal} (h : round ∈ roundsOwn body vs j) : round.1 ∈ vs := by
  induction vs generalizing j with
  | nil => exact absurd h List.not_mem_nil
  | cons v vs ih =>
    rw [roundsOwn] at h
    rcases List.mem_cons.1 h with rfl | h
    · exact List.mem_cons_self
    · split at h
      · exact List.mem_cons_of_mem _ (ih h)
      · exact absurd h List.not_mem_nil

section Congruence

variable {body body' : Value → Sweep}

theorem run_eachOwn_congr {vs : List Value} {j : Journal}
    (h : ∀ round ∈ roundsOwn body vs j, (body round.1).run round.2 = (body' round.1).run round.2) :
    (eachOwn body vs).run j = (eachOwn body' vs).run j := by
  induction vs generalizing j with
  | nil => rfl
  | cons v vs ih =>
    rw [roundsOwn] at h
    obtain ⟨hround, hnext⟩ := List.forall_mem_cons.1 h
    rw [eachOwn, eachOwn, run_andThen, run_andThen, ← hround]
    rcases hrun : (body v).run j with ⟨⟨results, _ | _ | f⟩, j'⟩
    · rw [hrun] at hnext
      simp only [ih hnext]
    · rfl
    · rfl

theorem run_eachShared_congr {id limit : Nat} {j : Journal}
    (h : ∀ round ∈ roundsShared body id limit j,
      (body round.1).run round.2 = (body' round.1).run round.2) :
    (eachShared body id limit).run j = (eachShared body' id limit).run j := by
  induction limit generalizing j with
  | zero => rfl
  | succ limit ih =>
    rw [roundsShared, Setting.run_pull] at h
    rw [run_eachShared_succ, run_eachShared_succ]
    rcases hleft : j.left id with (_ | ⟨v, left⟩) | f
    · rfl
    · rw [hleft] at h
      obtain ⟨hround, hnext⟩ := List.forall_mem_cons.1 h
      simp only [run_andThen, ← hround]
      rcases hrun : (body v).run (j.leave id left) with ⟨⟨results, _ | _ | f⟩, j'⟩
      · rw [hrun] at hnext
        simp only [ih hnext]
      · rfl
      · rfl
    · rfl

/-- An enumeration only depends on its rounds. -/
theorem run_each_congr {source : Source} {j : Journal}
    (h : ∀ round ∈ rounds body source j, (body round.1).run round.2 = (body' round.1).run round.2) :
    (each body source).run j = (each body' source).run j := by
  cases source with
  | own vs => exact run_eachOwn_congr h
  | shared id => exact run_eachShared_congr h

end Congruence

/-- The results of a sweep, and the calls that it makes. -/
def Tells (m : Sweep) (j : Journal) (results : List Value) (calls : List Call) : Prop :=
  (m.run j).1.results = results ∧ (m.run j).2.calls = j.calls ++ calls

variable {body : Value → Sweep} {results : Value → Journal → List Value}
  {calls : Value → Journal → List Call}

/-- A round, and what goes on after it. -/
theorem Tells.andThen {round next : Sweep} {j : Journal} {rs rs' : List Value} {cs cs' : List Call}
    (h : Tells round j rs cs)
    (hdone : ∀ r j', round.run j = (⟨r, .done⟩, j') → Tells next j' rs' cs')
    (hover : ∀ r ending j', round.run j = (⟨r, ending⟩, j') → ending ≠ .done → rs' = [] ∧ cs' = []) :
    Tells (andThen round next) j (rs ++ rs') (cs ++ cs') := by
  obtain ⟨hr, hc⟩ := h
  rw [Tells, run_andThen]
  rcases hrun : round.run j with ⟨⟨r, ending⟩, j'⟩
  rw [hrun] at hr hc
  obtain rfl : r = rs := hr
  have hc : j'.calls = j.calls ++ cs := hc
  cases ending with
  | done =>
    obtain ⟨hr', hc'⟩ := hdone r j' hrun
    refine ⟨congrArg (r ++ ·) hr', ?_⟩
    show (next.run j').2.calls = _
    rw [hc', hc, List.append_assoc]
  | halted | failed f =>
    obtain ⟨rfl, rfl⟩ := hover r _ j' hrun nofun
    rw [List.append_nil, List.append_nil]
    exact ⟨rfl, hc⟩

theorem tells_nothing (ending : Ending) (j : Journal) :
    Tells (Pure.pure ⟨[], ending⟩) j [] [] :=
  ⟨rfl, (List.append_nil j.calls).symm⟩

theorem tells_eachOwn (h : ∀ v j, Tells (body v) j (results v j) (calls v j)) (vs : List Value)
    (j : Journal) : Tells (eachOwn body vs) j
      ((roundsOwn body vs j).flatMap fun round => results round.1 round.2)
      ((roundsOwn body vs j).flatMap fun round => calls round.1 round.2) := by
  induction vs generalizing j with
  | nil => exact tells_nothing .done j
  | cons v vs ih =>
    rw [roundsOwn, List.flatMap_cons, List.flatMap_cons]
    refine (h v j).andThen (fun r j' hrun => ?_) (fun r ending j' hrun hover => ?_)
    · rw [hrun]
      exact ih j'
    · rw [hrun]
      cases ending <;> first | exact absurd rfl hover | exact ⟨rfl, rfl⟩

theorem tells_eachShared (h : ∀ v j, Tells (body v) j (results v j) (calls v j)) (id limit : Nat)
    (j : Journal) : Tells (eachShared body id limit) j
      ((roundsShared body id limit j).flatMap fun round => results round.1 round.2)
      ((roundsShared body id limit j).flatMap fun round => calls round.1 round.2) := by
  induction limit generalizing j with
  | zero => exact tells_nothing .done j
  | succ limit ih =>
    rw [Tells, run_eachShared_succ, roundsShared, Setting.run_pull]
    rcases j.left id with (_ | ⟨v, left⟩) | f
    · exact tells_nothing .done j
    · simp only [List.flatMap_cons]
      refine (h v (j.leave id left)).andThen (fun r j' hrun => ?_) (fun r ending j' hrun hover => ?_)
      · rw [hrun]
        exact ih j'
      · rw [hrun]
        cases ending <;> first | exact absurd rfl hover | exact ⟨rfl, rfl⟩
    · exact tells_nothing (.failed f) j

/-- An enumeration tells what its rounds tell. -/
theorem tells_each (h : ∀ v j, Tells (body v) j (results v j) (calls v j)) (source : Source)
    (j : Journal) : Tells (each body source) j
      ((rounds body source j).flatMap fun round => results round.1 round.2)
      ((rounds body source j).flatMap fun round => calls round.1 round.2) := by
  cases source with
  | own vs => exact tells_eachOwn h vs j
  | shared id => exact tells_eachShared h id _ j

end Sweep

-- ---------------------------------------------------------------------------
-- Moments
-- ---------------------------------------------------------------------------

namespace Setting

/-- The moments of a sweep. -/
def moments (s : Setting) (emit : Bindings → Action Value) :
    List Step → Bindings → Journal → List Moment
  | [], ctx, j => [⟨[], ctx, j⟩]
  | .generate n e :: rest, ctx, j =>
    ⟨.generate n e :: rest, ctx, j⟩ :: match (s.source ctx e).run.run j with
      | (.ok source, j') =>
        (Sweep.rounds (fun v => s.sweep emit rest (ctx.set n (v.settled rest.length))) source j').flatMap
          fun round => s.moments emit rest (ctx.set n (round.1.settled rest.length)) round.2
      | (.error _, _) => []
  | .assign n e :: rest, ctx, j =>
    ⟨.assign n e :: rest, ctx, j⟩ :: match (s.evaluate ctx e).run.run j with
      | (.ok v, j') => s.moments emit rest (ctx.set n (v.settled rest.length)) j'
      | (.error _, _) => []
  | .guard e :: rest, ctx, j =>
    ⟨.guard e :: rest, ctx, j⟩ :: match (s.holds ctx e).run.run j with
      | (.ok true, j') => s.moments emit rest ctx j'
      | _ => []
  | .whilst e :: rest, ctx, j =>
    ⟨.whilst e :: rest, ctx, j⟩ :: match (s.holds ctx e).run.run j with
      | (.ok true, j') => s.moments emit rest ctx j'
      | _ => []
  | .assignAll _ :: _, _, _ | .foreign _ :: _, _, _ => []

variable (s : Setting) (emit : Bindings → Action Value)

/-- The calls that are made at a moment. -/
def callsAt (μ : Moment) : List Call :=
  match μ.rest with
  | [] => μ.journal.callsOf (emit μ.ctx).run
  | .generate _ e :: _ => μ.journal.callsOf (s.source μ.ctx e).run
  | .assign _ e :: _ => μ.journal.callsOf (s.evaluate μ.ctx e).run
  | .guard e :: _ | .whilst e :: _ => μ.journal.callsOf (s.holds μ.ctx e).run
  | .assignAll _ :: _ | .foreign _ :: _ => []

/-- The result that is made at a moment. -/
def resultAt? (μ : Moment) : Option Value :=
  match μ.rest, ((emit μ.ctx).run.run μ.journal).1 with
  | [], .ok v => some v
  | _, _ => none

variable {s emit}

theorem tells_after {α : Type} {a : Action α} {k : α → Sweep} {j : Journal} {rs : List Value}
    {cs : List Call} (ha : Modest a.run)
    (hok : ∀ x j', a.run.run j = (.ok x, j') → Sweep.Tells (k x) j' rs cs)
    (herror : ∀ f j', a.run.run j = (.error f, j') → rs = [] ∧ cs = []) :
    Sweep.Tells (Sweep.after a k) j rs (j.callsOf a.run ++ cs) := by
  have hcalls := ha.calls_eq j
  rw [Sweep.Tells, Sweep.run_after]
  rcases hrun : a.run.run j with ⟨f | x, j'⟩ <;> rw [hrun] at hcalls
  · obtain ⟨rfl, rfl⟩ := herror f j' hrun
    exact ⟨rfl, by rw [List.append_nil]; exact hcalls⟩
  · obtain ⟨hr, hc⟩ := hok x j' hrun
    exact ⟨hr, by rw [hc, show j'.calls = _ from hcalls, List.append_assoc]⟩

/-- The calls and the results of a sweep are made at its moments, in their order. -/
theorem tells_sweep (hemit : ∀ c, Modest (emit c).run) (steps : List Step) (ctx : Bindings)
    (j : Journal) : Sweep.Tells (s.sweep emit steps ctx) j
      ((s.moments emit steps ctx j).filterMap (resultAt? emit))
      ((s.moments emit steps ctx j).flatMap (s.callsAt emit)) := by
  -- along the steps: the moments of a run tell its results and its calls in order
  induction steps generalizing ctx j with
  | nil =>
    refine tells_after (hemit ctx) (fun v j' hrun => ?_) (fun f j' hrun => ?_)
    · rw [moments, List.filterMap_cons, resultAt?, hrun]
      exact ⟨rfl, (List.append_nil _).symm⟩
    · rw [moments, List.filterMap_cons, resultAt?, hrun]
      exact ⟨rfl, rfl⟩
  | cons step rest ih =>
    -- a test that holds goes on, one that fails has nothing more to tell
    have htest : ∀ (e : Expr) (ending : Ending), Sweep.Tells (Sweep.after (s.holds ctx e) fun b =>
        bif b then s.sweep emit rest ctx else return ⟨[], ending⟩) j
        ((match (s.holds ctx e).run.run j with
          | (.ok true, j') => s.moments emit rest ctx j'
          | _ => []).filterMap (resultAt? emit))
        (j.callsOf (s.holds ctx e).run ++ (match (s.holds ctx e).run.run j with
          | (.ok true, j') => s.moments emit rest ctx j'
          | _ => []).flatMap (s.callsAt emit)) := by
      intro e ending
      refine tells_after (modest_holds ctx e) (fun b j' hrun => ?_) (fun f j' hrun => ?_)
      · rw [hrun]
        cases b with
        | true => exact ih ctx j'
        | false => exact Sweep.tells_nothing ending j'
      · rw [hrun]
        exact ⟨rfl, rfl⟩
    cases step with
    | generate n e =>
      rw [moments, List.filterMap_cons, List.flatMap_cons]
      refine tells_after (modest_source ctx e) (fun source j' hrun => ?_) (fun f j' hrun => ?_)
      · rw [hrun, List.filterMap_flatMap, List.flatMap_assoc]
        exact Sweep.tells_each (fun v j => ih _ j) source j'
      · rw [hrun]
        exact ⟨rfl, rfl⟩
    | assign n e =>
      rw [moments, List.filterMap_cons, List.flatMap_cons]
      refine tells_after (modest_evaluate ctx e) (fun v j' hrun => ?_) (fun f j' hrun => ?_)
      · rw [hrun]
        exact ih _ j'
      · rw [hrun]
        exact ⟨rfl, rfl⟩
    | guard e => exact htest e .done
    | whilst e => exact htest e .halted
    | assignAll bs => exact Sweep.tells_nothing _ j
    | foreign k => exact Sweep.tells_nothing _ j

/-- The calls of a moment have their keywords from what is bound there. -/
theorem get?_of_callsAt {μ : Moment} (hctx : (μ.ctx.map (·.1)).Nodup)
    (hemit : Asks μ.ctx (emit μ.ctx)) : ∀ call ∈ s.callsAt emit μ,
      ∀ b ∈ call.keywords, μ.ctx.get? b.1 = some b.2 := by
  have hasks := s.asks_evaluates hctx
  unfold callsAt
  split
  · exact hemit.callsOf μ.journal
  · exact (hasks.source _).callsOf μ.journal
  · exact (hasks.evaluate _).callsOf μ.journal
  · exact (hasks.holds _).callsOf μ.journal
  · exact (hasks.holds _).callsOf μ.journal
  · exact fun _ hc => absurd hc List.not_mem_nil
  · exact fun _ hc => absurd hc List.not_mem_nil

/-- Two settings evaluate alike at a moment. -/
def Agrees (s s' : Setting) (emit emit' : Bindings → Action Value) (μ : Moment) : Prop :=
  match μ.rest with
  | [] => (emit μ.ctx).run.run μ.journal = (emit' μ.ctx).run.run μ.journal
  | .generate _ e :: _ =>
    (s.source μ.ctx e).run.run μ.journal = (s'.source μ.ctx e).run.run μ.journal
  | .assign _ e :: _ =>
    (s.evaluate μ.ctx e).run.run μ.journal = (s'.evaluate μ.ctx e).run.run μ.journal
  | .guard e :: _ | .whilst e :: _ =>
    (s.holds μ.ctx e).run.run μ.journal = (s'.holds μ.ctx e).run.run μ.journal
  | .assignAll _ :: _ | .foreign _ :: _ => True

/-- Nothing is evaluated in a sweep but what is evaluated at its moments. -/
theorem run_sweep_congr {s' : Setting} {emit' : Bindings → Action Value} {steps : List Step}
    {ctx : Bindings} {j : Journal}
    (h : ∀ μ ∈ s.moments emit steps ctx j, s.Agrees s' emit emit' μ) :
    (s.sweep emit steps ctx).run j = (s'.sweep emit' steps ctx).run j := by
  -- along the steps: both runs are at the same moments, where they do the same
  induction steps generalizing ctx j with
  | nil =>
    have hemit : (emit ctx).run.run j = (emit' ctx).run.run j := h ⟨[], ctx, j⟩ (by simp [moments])
    rw [sweep, sweep, Sweep.run_after, Sweep.run_after, hemit]
  | cons step rest ih =>
    cases step with
    | generate n e =>
      rw [moments] at h
      obtain ⟨hfirst, hmore⟩ := List.forall_mem_cons.1 h
      have hsource : (s.source ctx e).run.run j = (s'.source ctx e).run.run j := hfirst
      rw [sweep, sweep, Sweep.run_after, Sweep.run_after, ← hsource]
      -- the same outcome: a fault ends both, a source is run through by both
      rcases hrun : (s.source ctx e).run.run j with ⟨f | source, j'⟩
      · rfl
      · rw [hrun] at hmore
        exact Sweep.run_each_congr fun round hround =>
          ih fun μ hμ => hmore μ (List.mem_flatMap.2 ⟨round, hround, hμ⟩)
    | assign n e =>
      rw [moments] at h
      obtain ⟨hfirst, hmore⟩ := List.forall_mem_cons.1 h
      have hvalue : (s.evaluate ctx e).run.run j = (s'.evaluate ctx e).run.run j := hfirst
      rw [sweep, sweep, Sweep.run_after, Sweep.run_after, ← hvalue]
      rcases hrun : (s.evaluate ctx e).run.run j with ⟨f | v, j'⟩
      · rfl
      · rw [hrun] at hmore
        exact ih hmore
    | guard e | whilst e =>
      rw [moments] at h
      obtain ⟨hfirst, hmore⟩ := List.forall_mem_cons.1 h
      have hholds : (s.holds ctx e).run.run j = (s'.holds ctx e).run.run j := hfirst
      rw [sweep, sweep, Sweep.run_after, Sweep.run_after, ← hholds]
      rcases hrun : (s.holds ctx e).run.run j with ⟨f | _ | _, j'⟩
      · rfl
      · rfl
      · rw [hrun] at hmore
        exact ih hmore
    | assignAll bs | foreign k => rfl

-- ---------------------------------------------------------------------------
-- From one moment to the next
-- ---------------------------------------------------------------------------

/-- How a run goes on from a moment at which some steps are left: the steps and the bindings of the next
moment. -/
inductive Turns (s : Setting) : List Step → Bindings → List Step → Bindings → Prop
  | generate {n : String} {e : Expr} {rest : List Step} {ctx : Bindings} {source : Source}
      {v : Value} {j j' : Journal} (run : (s.source ctx e).run.run j = (.ok source, j'))
      (candidate : ∀ vs, source = .own vs → v ∈ vs) :
      Turns s (.generate n e :: rest) ctx rest (ctx.set n (v.settled rest.length))
  | assign {n : String} {e : Expr} {rest : List Step} {ctx : Bindings} {v : Value} {j j' : Journal}
      (run : (s.evaluate ctx e).run.run j = (.ok v, j')) :
      Turns s (.assign n e :: rest) ctx rest (ctx.set n (v.settled rest.length))
  | guard {e : Expr} {rest : List Step} {ctx : Bindings} {j j' : Journal}
      (run : (s.holds ctx e).run.run j = (.ok true, j')) : Turns s (.guard e :: rest) ctx rest ctx
  | whilst {e : Expr} {rest : List Step} {ctx : Bindings} {j j' : Journal}
      (run : (s.holds ctx e).run.run j = (.ok true, j')) : Turns s (.whilst e :: rest) ctx rest ctx

/-- What a run keeps from moment to moment holds at all its moments. -/
theorem forall_moments {I : List Step → Bindings → Prop}
    (hstep : ∀ {rest ctx rest' ctx'}, I rest ctx → s.Turns rest ctx rest' ctx' → I rest' ctx')
    {steps : List Step} {ctx : Bindings} (h : I steps ctx) (j : Journal) :
    ∀ μ ∈ s.moments emit steps ctx j, I μ.rest μ.ctx := by
  -- along the steps: each turn keeps the invariant
  induction steps generalizing ctx j with
  | nil =>
    intro μ hμ
    obtain rfl := List.mem_singleton.1 hμ
    exact h
  | cons step rest ih =>
    intro μ hμ
    cases step with
    | generate n e =>
      rw [moments] at hμ
      rcases List.mem_cons.1 hμ with rfl | hμ
      · exact h
      · split at hμ
        · rename_i source j' hrun
          obtain ⟨round, hround, hμ⟩ := List.mem_flatMap.1 hμ
          refine ih (hstep h (.generate hrun ?_)) _ μ hμ
          rintro vs rfl
          exact Sweep.mem_of_mem_roundsOwn hround
        · exact absurd hμ List.not_mem_nil
    | assign n e | guard e | whilst e =>
      rw [moments] at hμ
      rcases List.mem_cons.1 hμ with rfl | hμ
      · exact h
      · split at hμ
        · rename_i hrun
          refine ih (hstep h ?_) _ μ hμ
          first | exact .assign hrun | exact .guard hrun | exact .whilst hrun
        · exact absurd hμ List.not_mem_nil
    | assignAll bs | foreign k => exact absurd hμ List.not_mem_nil

end Setting

namespace Matches

variable (m : Matches)

/-- The moments of a run through all matches. -/
def moments : List Moment :=
  m.setting.moments m.emit m.plan.steps m.arguments {}

/-- The calls of all matches, as they are made at the moments of the run. -/
theorem all_calls : m.all.calls = m.moments.flatMap (m.setting.callsAt m.emit) :=
  (Setting.tells_sweep m.modest_emit m.plan.steps m.arguments {}).2

/-- The results of all matches, as they are made at the moments of the run. -/
theorem all_results : m.all.results = m.moments.filterMap (Setting.resultAt? m.emit) :=
  (Setting.tells_sweep m.modest_emit m.plan.steps m.arguments {}).1

theorem asks_emit {ctx : Bindings} (hctx : (ctx.map (·.1)).Nodup) : Asks ctx (m.emit ctx) := by
  unfold emit
  split
  · exact .callForm _ hctx _
  · exact Asks.next (.of_calls_eq fun _ => rfl) fun _ _ _ _ => .of_calls_eq fun _ => rfl

/-- Some first matches are a first part of all matches, and are found by a first part of the calls. -/
theorem take_prefix (n : Nat) :
    (m.take n).results <+: m.all.results ∧ (m.take n).calls <+: m.all.calls := by
  obtain ⟨rounds, last, hunfolds, haccounts⟩ := m.exists_unfolds m.iterator
  rw [take, hunfolds.takeFrom_eq, haccounts.all_eq]
  split
  · refine ⟨List.take_prefix .., List.IsPrefix.trans ?_ (List.prefix_append ..)⟩
    exact ⟨((rounds.map (·.2)).drop n).flatten,
      by rw [← List.flatten_append, List.take_append_drop]⟩
  · exact ⟨List.prefix_refl _, List.prefix_refl _⟩

end Matches

end GraphPattern
