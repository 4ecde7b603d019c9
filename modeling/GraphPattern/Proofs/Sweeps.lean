import GraphPattern.Matches

/-!
# GraphPattern — what a sweep comes to

The journal of a run only matters for streams, and compiled plans make none. So an action gives the
same answer whatever the journal is, and a sweep has an outcome that can be described without one:
the list of bindings with which it comes to the end of its steps.

## Results

* `Setting.Ends.append` — outcomes compose like nested loops.
* `Setting.Ends.sweep` — the results of a sweep are those of its final bindings, in their order.
-/

namespace GraphPattern

-- ---------------------------------------------------------------------------
-- Answers
-- ---------------------------------------------------------------------------

/-- The answer of an action, whatever the journal. -/
def Gives {α : Type} (a : Action α) (r : Except Fault α) : Prop :=
  ∀ j, (a.run.run j).1 = r

namespace Gives

variable {α β : Type} {a : Action α} {x : α} {r : Except Fault β}

theorem pure (x : α) : Gives (Pure.pure x) (.ok x) :=
  fun _ => rfl

theorem throw (f : Fault) : Gives (MonadExcept.throw f : Action α) (.error f) :=
  fun _ => rfl

theorem ask (e : Except Fault α) : Gives (Setting.ask e) e :=
  fun _ => rfl

theorem run_bind (a : Action α) (f : α → Action β) (j : Journal) :
    (a >>= f).run.run j = match a.run.run j with
      | (.ok x, j') => (f x).run.run j'
      | (.error e, j') => (.error e, j') := by
  show (StateT.bind a.run (ExceptT.bindCont f)) j = _
  unfold StateT.bind
  show (match a.run.run j with | (x, j') => (ExceptT.bindCont f x).run j') = _
  rcases a.run.run j with ⟨x | x, j'⟩ <;> rfl

theorem bind {f : α → Action β} (ha : Gives a (.ok x)) (hf : Gives (f x) r) :
    Gives (a >>= f) r := by
  intro j
  have hj := ha j
  rw [run_bind]
  rcases h : a.run.run j with ⟨y, j'⟩
  rw [h] at hj
  obtain rfl : y = .ok x := hj
  exact hf j'

theorem bind_error {f : α → Action β} {e : Fault} (ha : Gives a (.error e)) :
    Gives (a >>= f) (.error e) := by
  intro j
  have hj := ha j
  rw [run_bind]
  rcases h : a.run.run j with ⟨y, j'⟩
  rw [h] at hj
  obtain rfl : y = .error e := hj
  rfl

theorem map {f : α → β} (ha : Gives a (.ok x)) : Gives (do return f (← a)) (.ok (f x)) :=
  ha.bind (.pure (f x))

theorem value (v : Value) : Gives (Computed.value v).toValue (.ok v) :=
  fun _ => rfl

end Gives

-- ---------------------------------------------------------------------------
-- What a sweep comes to
-- ---------------------------------------------------------------------------

namespace Sweep

theorem run_after {α : Type} (a : Action α) (k : α → Sweep) (j : Journal) :
    (after a k).run j = match a.run.run j with
      | (.ok x, j') => (k x).run j'
      | (.error f, j') => (⟨[], .failed f⟩, j') := by
  simp only [after, StateT.run_bind]
  rcases a.run.run j with ⟨_ | _, _⟩ <;> rfl

theorem run_andThen (round next : Sweep) (j : Journal) :
    (andThen round next).run j = match round.run j with
      | (⟨results, .done⟩, j') => match next.run j' with
        | (others, j'') => (⟨results ++ others.results, others.ending⟩, j'')
      | (⟨results, .halted⟩, j') => (⟨results, .done⟩, j')
      | (⟨results, .failed f⟩, j') => (⟨results, .failed f⟩, j') := by
  simp only [andThen, StateT.run_bind]
  rcases round.run j with ⟨⟨results, _ | _ | f⟩, j'⟩ <;> rfl

/-- Something about sweeps that is true of an enumeration if it is of each of its rounds. -/
structure Composes (C : Sweep → Prop) : Prop where
  ended : C (Pure.pure ⟨[], .done⟩)
  andThen {round next : Sweep} : C round → C next → C (andThen round next)
  reading {id : Nat} {k : Option Value → Sweep} : (∀ v?, C (k v?)) → C (after (pull id) k)
  sized {m : Nat → Sweep} (id : Nat) : (∀ n, C (m n)) → C (do let j ← get; m (j.left id).size)

theorem Composes.each {C : Sweep → Prop} (h : Composes C) {body : Value → Sweep}
    (hbody : ∀ v, C (body v)) (source : Source) : C (each body source) := by
  cases source with
  | own vs =>
    show C (eachOwn body vs)
    induction vs with
    | nil => exact h.ended
    | cons v vs ih => exact h.andThen (hbody v) ih
  | shared id =>
    refine h.sized id fun limit => ?_
    induction limit with
    | zero => exact h.ended
    | succ limit ih =>
      refine h.reading fun v? => ?_
      cases v? with
      | none => exact h.ended
      | some v => exact h.andThen (hbody v) ih

end Sweep

/-- What a sweep comes to, faults included, whatever the journal. -/
def Comes (m : Sweep) (r : Swept) : Prop :=
  ∀ j, (m.run j).1 = r

/-- A round and what comes after it. -/
def Swept.andThen (first others : Swept) : Swept :=
  match first.ending with
  | .done => ⟨first.results ++ others.results, others.ending⟩
  | .halted => ⟨first.results, .done⟩
  | .failed f => ⟨first.results, .failed f⟩

namespace Comes

theorem pure (r : Swept) : Comes (Pure.pure r) r :=
  fun _ => rfl

theorem after {α : Type} {a : Action α} {x : α} {k : α → Sweep} {r : Swept}
    (ha : Gives a (.ok x)) (hk : Comes (k x) r) : Comes (Sweep.after a k) r := by
  intro j
  have hj := ha j
  rw [Sweep.run_after]
  rcases h : a.run.run j with ⟨y, j'⟩
  rw [h] at hj
  obtain rfl : y = .ok x := hj
  exact hk j'

theorem after_error {α : Type} {a : Action α} {f : Fault} {k : α → Sweep}
    (ha : Gives a (.error f)) : Comes (Sweep.after a k) ⟨[], .failed f⟩ := by
  intro j
  have hj := ha j
  rw [Sweep.run_after]
  rcases h : a.run.run j with ⟨y, j'⟩
  rw [h] at hj
  obtain rfl : y = .error f := hj
  rfl

theorem andThen {round next : Sweep} {first others : Swept} (hr : Comes round first)
    (hn : Comes next others) : Comes (Sweep.andThen round next) (first.andThen others) := by
  intro j
  have hj := hr j
  rw [Sweep.run_andThen]
  rcases h : round.run j with ⟨y, j'⟩
  rw [h] at hj
  obtain rfl : y = first := hj
  obtain ⟨results, ending⟩ := y
  cases ending with
  | halted => rfl
  | failed f => rfl
  | done =>
    have hj' := hn j'
    rcases h' : next.run j' with ⟨z, j''⟩
    rw [h'] at hj'
    obtain rfl : z = others := hj'
    simp only [h']
    rfl

end Comes

namespace Setting

variable {s : Setting} {ctx : Bindings}

/-- The value of an expression is computed without candidates. -/
theorem gives_evaluate {e : Expr} {v : Value} (h : Gives (s.compute ctx e) (.ok (.value v))) :
    Gives (s.evaluate ctx e) (.ok v) :=
  h.bind (.value v)

theorem gives_holds {e : Expr} {b : Bool} (h : Gives (s.compute ctx e) (.ok (.value (.bool b)))) :
    Gives (s.holds ctx e) (.ok b) :=
  (gives_evaluate h).map

-- ---------------------------------------------------------------------------
-- Outcomes of steps
-- ---------------------------------------------------------------------------

/-- The bindings with which some steps are gone through, with `k` steps to follow after them. -/
inductive Ends (s : Setting) (k : Nat) : List Step → Bindings → List Bindings → Prop
  | nil {ctx : Bindings} : Ends s k [] ctx [ctx]
  | generate {n : String} {e : Expr} {rest : List Step} {ctx : Bindings}
      {vs : List Value} {finals : Value → List Bindings}
      (source : Gives (s.source ctx e) (.ok (.own vs)))
      (each : ∀ v ∈ vs, Ends s k rest (ctx.set n (v.settled (rest.length + k))) (finals v)) :
      Ends s k (.generate n e :: rest) ctx (vs.flatMap finals)
  | assign {n : String} {e : Expr} {rest : List Step} {ctx : Bindings} {v : Value}
      {finals : List Bindings} (value : Gives (s.evaluate ctx e) (.ok v))
      (more : Ends s k rest (ctx.set n (v.settled (rest.length + k))) finals) :
      Ends s k (.assign n e :: rest) ctx finals
  | pass {e : Expr} {rest : List Step} {ctx : Bindings} {finals : List Bindings}
      (test : Gives (s.holds ctx e) (.ok true)) (more : Ends s k rest ctx finals) :
      Ends s k (.guard e :: rest) ctx finals
  | drop {e : Expr} {rest : List Step} {ctx : Bindings}
      (test : Gives (s.holds ctx e) (.ok false)) : Ends s k (.guard e :: rest) ctx []

/-- Outcomes compose like nested loops. -/
theorem Ends.append {k : Nat} {first second : List Step} {finals : List Bindings}
    {more : Bindings → List Bindings} (h : Ends s (second.length + k) first ctx finals)
    (hmore : ∀ c ∈ finals, Ends s k second c (more c)) :
    Ends s k (first ++ second) ctx (finals.flatMap more) := by
  induction h with
  | nil => simpa using hmore _ (by simp)
  | @generate n e rest ctx vs finals source each ih =>
    rw [List.flatMap_assoc, List.cons_append]
    refine .generate source fun v hv => ?_
    have hlen : (rest ++ second).length + k = rest.length + (second.length + k) := by
      rw [List.length_append]
      omega
    rw [hlen]
    exact ih v hv fun c hc => hmore c (List.mem_flatMap.2 ⟨v, hv, hc⟩)
  | @assign n e rest ctx v finals value more ih =>
    have hlen : (rest ++ second).length + k = rest.length + (second.length + k) := by
      rw [List.length_append]
      omega
    rw [List.cons_append]
    refine .assign value ?_
    rw [hlen]
    exact ih hmore
  | pass test more ih => exact .pass test (ih hmore)
  | drop test => exact .drop test

-- ---------------------------------------------------------------------------
-- Sweeps
-- ---------------------------------------------------------------------------

/-- A sweep that ends well, with these results. -/
def Yields (m : Sweep) (results : List Value) : Prop :=
  ∀ j, (m.run j).1 = ⟨results, .done⟩

theorem Yields.nothing : Yields (Pure.pure ⟨[], .done⟩) [] :=
  Comes.pure _

theorem Yields.after {α : Type} {a : Action α} {x : α} {f : α → Sweep} {results : List Value}
    (ha : Gives a (.ok x)) (hf : Yields (f x) results) : Yields (Sweep.after a f) results :=
  Comes.after ha hf

theorem Yields.andThen {round next : Sweep} {first others : List Value}
    (hr : Yields round first) (hn : Yields next others) :
    Yields (Sweep.andThen round next) (first ++ others) :=
  Comes.andThen hr hn

theorem Yields.eachOwn {body : Value → Sweep} {vs : List Value} {results : Value → List Value}
    (h : ∀ v ∈ vs, Yields (body v) (results v)) :
    Yields (Sweep.eachOwn body vs) (vs.flatMap results) := by
  induction vs with
  | nil => exact .nothing
  | cons v vs ih =>
    rw [List.flatMap_cons]
    exact .andThen (h v (by simp)) (ih fun w hw => h w (List.mem_cons_of_mem _ hw))

/-- The results of a sweep are those of its final bindings, in their order. -/
theorem Ends.sweep {emit : Bindings → Action Value} {out : Bindings → Value} {steps : List Step}
    {finals : List Bindings} (h : Ends s 0 steps ctx finals)
    (hemit : ∀ c ∈ finals, Gives (emit c) (.ok (out c))) :
    Yields (s.sweep emit steps ctx) (finals.map out) := by
  induction h with
  | @nil ctx => exact .after (hemit ctx (by simp)) fun _ => rfl
  | @generate n e rest ctx vs finals source each ih =>
    rw [List.map_flatMap]
    refine .after source (.eachOwn fun v hv => ?_)
    exact ih v hv fun c hc => hemit c (List.mem_flatMap.2 ⟨v, hv, hc⟩)
  | @assign n e rest ctx v finals value more ih =>
    exact .after value (ih hemit)
  | pass test more ih => exact .after test (ih hemit)
  | drop test => exact .after test fun _ => rfl

end Setting

theorem mapM_ok {α β : Type} {f : α → Except Fault β} {value : α → β} {xs : List α}
    (h : ∀ x ∈ xs, f x = .ok (value x)) : xs.mapM f = .ok (xs.map value) := by
  induction xs with
  | nil => rfl
  | cons x xs ih =>
    rw [List.mapM_cons, h x (by simp), ih fun z hz => h z (List.mem_cons_of_mem _ hz)]
    rfl

theorem Plan.mem_resultNames {p : Plan} {n : String} :
    n ∈ p.resultNames ↔ n ∈ p.boundNames ∧ isHiddenName n = false := by
  rw [resultNames, List.mem_eraseDups, List.mem_filter, Bool.not_eq_true']

/-- The result of a match is the tuple of what is bound. -/
theorem Matches.gives_emit {m : Matches} {ctx : Bindings} {value : String → Value}
    (hnone : m.result? = none)
    (h : ∀ name ∈ m.plan.resultNames, ctx.get? name = some (value name)) :
    Gives (m.emit ctx) (.ok (.list (m.plan.resultNames.map value) (.made []))) := by
  rw [emit, hnone]
  have hmap : m.plan.resultNames.mapM (boundValue ctx) = .ok (m.plan.resultNames.map value) :=
    mapM_ok fun name hname => by rw [boundValue, h name hname]
  rw [hmap]
  exact (Gives.ask _).map

/-- All matches, where the outcome of the steps is known. -/
theorem Matches.all_of_ends {m : Matches} {finals : List Bindings} {out : Bindings → Value}
    (h : m.setting.Ends 0 m.plan.steps m.arguments finals)
    (hemit : ∀ c ∈ finals, Gives (m.emit c) (.ok (out c))) :
    m.all.results = finals.map out ∧ m.all.fault? = none := by
  have hs := h.sweep hemit {}
  simp only [Matches.all]
  rcases hrun : (m.setting.sweep m.emit m.plan.steps m.arguments).run {} with ⟨swept, j⟩
  rw [hrun] at hs
  obtain rfl : swept = ⟨finals.map out, .done⟩ := hs
  exact ⟨rfl, rfl⟩

end GraphPattern
