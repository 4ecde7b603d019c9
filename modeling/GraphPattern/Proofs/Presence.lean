import GraphPattern.Proofs.RunMoments
import GraphPattern.Proofs.Promises
import GraphPattern.Proofs.ConstraintRows

/-!
# GraphPattern — absent values

What a step of a compiled plan computes for a name is tested before anything else is done, and what a
step enumerates are elements of the model. So at every moment of a run, the names that were computed so
far stand for something. There is one exception: the moment right behind the computation, at which
nothing is evaluated but the test, and the run goes no further if the test fails.

## Results

* `Context.guarded_of_compile` — every computation of a compiled plan is followed by its test.
* `Plan.Guarded.placed` — what is bound at the moments of a run of such steps.
* `Matches.stopsAtAbsent_of_compile` — no run goes on with an absent value.
-/

namespace GraphPattern

open PatternGraph PatternGraph.Drawing

-- ---------------------------------------------------------------------------
-- Candidates
-- ---------------------------------------------------------------------------

/-- An expression whose candidates are elements of the model: a path leads to elements if it follows an
edge or starts from the end of one. -/
inductive Expr.Concrete : Expr → Prop
  | instances {t : TypeMark} : Concrete (.instances t)
  | adjacent {e : Expr} {t : TypeMark} {d : Direction} : Concrete (.adjacent e t d)
  | along {e : Expr} {d : Direction} {t : TypeMark} {p : Path} :
      Concrete (.reachable e (.step d t :: p))
  | fromEnd {e : Expr} {d : Direction} {far : Bool} {p : Path} :
      Concrete (.reachable (.edgeEnd e d far) p)

theorem Supply.OfElements.ensures_toSource {supply : Supply} (h : supply.OfElements) :
    Ensures (Computed.candidates supply).toSource (Source.Of Value.IsElement) := by
  cases supply with
  | values vs => exact .ok ⟨vs, rfl, h vs rfl⟩
  | broken f => exact .error f

namespace Setting

variable {s : Setting} {ctx : Bindings} {e : Expr}

theorem promises_edgeEnd (d : Direction) (far : Bool) :
    Promises (s.compute ctx (.edgeEnd e d far)) fun c => ∃ v, c = .value v ∧ v.IsElement := by
  refine .bind (.any _) fun _ _ => .bind (.any _) fun _ _ => .bind (.any _) fun v _ => ?_
  exact .bind (.ask (Engine.ensures_edgeEnd v d far)) fun w hw => .pure ⟨w, rfl, hw⟩

/-- The candidates are elements. -/
theorem promises_elements (h : e.Concrete) :
    Promises (s.source ctx e) (Source.Of Value.IsElement) := by
  refine promises_source_of ?_
  cases h with
  | instances =>
    exact .bind (.ask (Engine.ensures_instances _)) fun supply hs => .pure hs.ensures_toSource
  | adjacent =>
    refine .bind (.any _) fun _ _ => .bind (.any _) fun _ _ => .bind (.any _) fun v _ => ?_
    exact .bind (.ask (Engine.ensures_adjacent v _ _)) fun supply hs => .pure hs.ensures_toSource
  | @along e d t p =>
    refine .bind (.any _) fun _ _ => .bind (.any _) fun v _ => ?_
    have hreached : Ensures (s.engine.reachable s.model v (.step d t :: p)) fun vs =>
        ∀ v ∈ vs, v.IsElement :=
      Ensures.bind (Engine.ensures_step [v] d t) fun next hnext =>
        Engine.ensures_evaluateFrom (fun _ h => h) p hnext
    exact .bind (.ask hreached) fun vs hvs => .pure (.ok ⟨vs, rfl, hvs⟩)
  | @fromEnd e d far p =>
    refine .bind (promises_edgeEnd d far) ?_
    rintro _ ⟨v, rfl, hv⟩
    refine .bind (P := fun w => w = v) (.pure rfl) ?_
    rintro _ rfl
    exact .bind (.ask (Engine.ensures_reachable (fun _ h => h) hv))
      fun vs hvs => .pure (.ok ⟨vs, rfl, hvs⟩)

end Setting

-- ---------------------------------------------------------------------------
-- Steps with their tests
-- ---------------------------------------------------------------------------

namespace Plan

/-- Every value that some steps compute is tested at once, unless it is a given one, and every
enumeration is one of elements. -/
inductive Guarded : List Step → Prop
  | nil : Guarded []
  | generate {n : String} {e : Expr} {rest : List Step} (source : e.Concrete)
      (more : Guarded rest) : Guarded (.generate n e :: rest)
  | given {n : String} {rest : List Step} (more : Guarded rest) :
      Guarded (.assign n (.argument n) :: rest)
  | computed {n : String} {e : Expr} {rest : List Step} (more : Guarded rest) :
      Guarded (.assign n e :: .guard (.present (.var n)) :: rest)
  | guard {e : Expr} {rest : List Step} (more : Guarded rest) : Guarded (.guard e :: rest)
  | whilst {e : Expr} {rest : List Step} (more : Guarded rest) : Guarded (.whilst e :: rest)

variable {cx : Context} {g₀ g : PatternGraph} {visited : List Handle}

theorem Guarded.append {first second : List Step} (h : Guarded first) (h' : Guarded second) :
    Guarded (first ++ second) := by
  induction h with
  | nil => exact h'
  | generate source _ ih => exact .generate source ih
  | given _ ih => exact .given ih
  | computed _ ih => exact .computed ih
  | guard _ ih => exact .guard ih
  | whilst _ ih => exact .whilst ih

theorem guarded_assignAll (bs : List (String × Expr)) : Guarded (Step.assignAll bs).expanded := by
  induction bs with
  | nil => exact .nil
  | cons b bs ih => exact .computed ih

theorem guarded_constraintStep (c : Constraint) : Guarded (constraintStep c).expanded := by
  cases c with
  | when f => exact .guard .nil
  | whilst f => exact .whilst .nil
  | bind bs => exact guarded_assignAll _

theorem Splices.guarded {n : NodeId} {steps : List Step} {marks : List Handle}
    (h : Splices g n visited steps marks) : Guarded (expandAll steps) := by
  induction h with
  | last => exact (guarded_constraintStep _).append .nil
  | next _ _ _ _ ih => exact (guarded_constraintStep _).append ih

theorem guarded_typeTest (name : String) (t? : Option String) :
    Guarded (expandAll (typeTest name t?)) := by
  unfold typeTest
  split
  · split
    · exact .nil
    · exact .guard .nil
  · exact .nil

theorem ChainEmits.guarded {start : Expr} {c : Chain} {em : Emission} {own : List Handle}
    (h : ChainEmits g start c visited em own) (hpath : (Expr.reachable start c.path).Concrete) :
    Guarded (expandAll em.steps) := by
  cases h with
  | known | closed => exact .guard .nil
  | bound => exact .generate hpath .nil

theorem FarEmits.guarded {i : Incidence} {edge : Expr} {em : Emission} {own : List Handle}
    (h : FarEmits cx g i edge visited em own) : Guarded (expandAll em.steps) := by
  cases h with
  | known => exact .guard .nil
  | @named nd es name => exact (guarded_assignAll _).append (guarded_typeTest name nd.typeName?)
  | chain _ _ _ _ emits => exact ChainEmits.guarded emits .fromEnd

theorem Emits.guarded {x : Entry} {em : Emission} {own : List Handle}
    (h : Emits cx g visited x em own) : Guarded (expandAll em.steps) := by
  cases h with
  | anchor | start => exact .nil
  | place => exact .generate .instances .nil
  | argument => exact .given .nil
  | constraints _ _ splices => exact splices.guarded
  | chain _ _ _ segment_ok _ emits =>
    rw [(edgeSegment_ok segment_ok).1] at emits
    exact ChainEmits.guarded emits .along
  | argumentEdge _ _ _ far => exact .guard (FarEmits.guarded far)
  | namedEdge _ _ _ _ far => exact .generate .adjacent (FarEmits.guarded far)

theorem Tour.guarded {binds final : List Handle} {stack : List Entry} {us : List Visit}
    (h : Tour cx g₀ g visited binds stack us final) : Guarded (stepsOf us) := by
  induction h with
  | done => exact .nil
  | skip _ _ ih => exact ih
  | visit made _ ih => exact (Emits.guarded made.emits).append ih

end Plan

/-- Every computation of a compiled plan is followed by its test. -/
theorem Context.guarded_of_compile {cx : Context} {plan : Plan} (h : cx.compile = .ok plan) :
    Plan.Guarded plan.steps := by
  obtain ⟨ts, g₀, g, us, final, -, -, -, -, htour, -, hsteps⟩ := exists_tour h
  rw [hsteps]
  exact htour.guarded

-- ---------------------------------------------------------------------------
-- What is bound at the moments of a run
-- ---------------------------------------------------------------------------

/-- A value for the name is computed by a step, or enumerated by it. -/
def Plan.Computes (steps : List Step) (name : String) : Prop :=
  ∃ step ∈ steps, name ∈ step.boundNames ∧ step ≠ .assign name (.argument name)

/-- What was computed is there, and it is not the absent value. -/
def Bindings.Present (ctx : Bindings) (steps : List Step) : Prop :=
  ∀ name, Plan.Computes steps name → ∃ v, ctx.get? name = some v ∧ v.isNull = false

/-- What is bound between two parts of a plan: if the first part ends with a computation, the test of its
value comes next, and what was computed before is present in any case. -/
inductive Bindings.Placed (ctx : Bindings) (behind rest : List Step) : Prop
  | settled (present : ctx.Present behind)
  | computed {before after : List Step} {name : String} {e : Expr} {v : Value}
      (split : behind = before ++ [.assign name e])
      (next : rest = .guard (.present (.var name)) :: after)
      (value : ctx.get? name = some v) (present : ctx.Present before)

namespace Plan

variable {behind rest : List Step} {step : Step} {name : String}

theorem computes_append_singleton : Computes (behind ++ [step]) name ↔
    Computes behind name ∨ name ∈ step.boundNames ∧ step ≠ .assign name (.argument name) := by
  simp only [Computes, List.mem_append, List.mem_singleton, or_and_right, exists_or,
    exists_eq_left]

theorem Computes.mem_boundNames (h : Computes behind name) :
    name ∈ behind.flatMap Step.boundNames := by
  obtain ⟨step, hstep, hname, -⟩ := h
  exact List.mem_flatMap.2 ⟨step, hstep, hname⟩

/-- A step binds what no step before it has bound. -/
theorem not_mem_of_nodup (h : ((behind ++ step :: rest).flatMap Step.boundNames).Nodup)
    (hname : name ∈ step.boundNames) : name ∉ behind.flatMap Step.boundNames := by
  rw [List.flatMap_append, List.flatMap_cons] at h
  exact fun hin =>
    (List.nodup_append.1 h).2.2 name hin name (List.mem_append_left _ hname) rfl

end Plan

namespace Bindings.Present

variable {ctx : Bindings} {behind : List Step} {name : String}

theorem set (h : ctx.Present behind) (hname : name ∉ behind.flatMap Step.boundNames) (v : Value) :
    (ctx.set name v).Present behind := by
  intro m hm
  obtain ⟨w, hw, hnull⟩ := h m hm
  have hne : name ≠ m := by
    rintro rfl
    exact hname hm.mem_boundNames
  exact ⟨w, by rw [get?_set, if_neg hne, hw], hnull⟩

/-- A step that binds nothing, or a given value. -/
theorem skip {step : Step} (h : ctx.Present behind)
    (hstep : ∀ name ∈ step.boundNames, step = .assign name (.argument name)) :
    ctx.Present (behind ++ [step]) := by
  intro m hm
  rcases Plan.computes_append_singleton.1 hm with hm | ⟨hm, hne⟩
  · exact h m hm
  · exact absurd (hstep m hm) hne

/-- A step after which its name stands for something. -/
theorem bind {step : Step} {v : Value} (h : ctx.Present behind) (hstep : step.boundNames = [name])
    (hv : ctx.get? name = some v) (hnull : v.isNull = false) : ctx.Present (behind ++ [step]) := by
  intro m hm
  rcases Plan.computes_append_singleton.1 hm with hm | ⟨hm, -⟩
  · exact h m hm
  · rw [hstep, List.mem_singleton] at hm
    exact ⟨v, hm ▸ hv, hnull⟩

end Bindings.Present

/-- The test of a value calls nothing. -/
theorem Setting.run_holds_present {s : Setting} {ctx : Bindings} {name : String} {v : Value}
    (h : ctx.get? name = some v) (j : Journal) :
    (s.holds ctx (.present (.var name))).run.run j = (.ok (!v.isNull), j) := by
  have hvar : s.compute ctx (.var name) = pure (.value v) := by
    rw [compute, h]
  rw [holds, evaluate, compute, hvar]
  simp only [pure_bind, Computed.toValue]
  rfl

/-- Where a run stands in the steps of a plan, and what is bound there. -/
structure Bindings.Stands (ctx : Bindings) (steps behind rest : List Step) : Prop where
  split : steps = behind ++ rest
  guarded : Plan.Guarded rest
  placed : ctx.Placed behind rest
  keys : (ctx.map (·.1)).Nodup

theorem Bindings.keys_set (ctx : Bindings) (name : String) (v : Value) :
    (ctx.set name v).map (·.1) =
      if name ∈ ctx.map (·.1) then ctx.map (·.1) else ctx.map (·.1) ++ [name] := by
  induction ctx with
  | nil => rfl
  | cons b rest ih =>
    rw [set]
    by_cases hb : b.1 = name
    · simp [hb]
    · simp only [if_neg hb, List.map_cons, ih, List.mem_cons, Ne.symm hb, false_or]
      split <;> rfl

theorem Bindings.nodup_set {ctx : Bindings} (h : (ctx.map (·.1)).Nodup) (name : String) (v : Value) :
    ((ctx.set name v).map (·.1)).Nodup := by
  rw [keys_set]
  split
  · exact h
  · rename_i hname
    exact List.nodup_append.2 ⟨h, List.nodup_singleton name, by
      rintro a ha _ hb rfl
      exact hname (List.mem_singleton.1 hb ▸ ha)⟩

/-- A step of a run keeps it. -/
theorem Bindings.Stands.turn {s : Setting} {steps behind rest rest' : List Step}
    {ctx ctx' : Bindings} (hnodup : (steps.flatMap Step.boundNames).Nodup)
    (h : ctx.Stands steps behind rest) (hturn : s.Turns rest ctx rest' ctx') :
    ∃ behind', ctx'.Stands steps behind' rest' := by
  obtain ⟨rfl, hguarded, hplaced, hkeys⟩ := h
  cases hturn with
  | @generate n e rest ctx source v j j' run candidate =>
    cases hplaced with
    | computed _ next => cases next
    | settled hpresent =>
      cases hguarded with
      | generate hsource more =>
        have hfresh : n ∉ behind.flatMap Step.boundNames :=
          Plan.not_mem_of_nodup hnodup (by simp [Step.boundNames])
        obtain ⟨vs, rfl, hvs⟩ := Setting.promises_elements hsource j source (by rw [run])
        have hv : (v.settled rest'.length).isNull = false := by
          rw [Value.isNull_settled]
          exact (hvs v (candidate vs rfl)).isNull
        refine ⟨behind ++ [.generate n e], by simp, more, .settled ?_, Bindings.nodup_set hkeys _ _⟩
        exact (hpresent.set hfresh _).bind rfl (by rw [Bindings.get?_set, if_pos rfl]) hv
  | @assign n e rest ctx v j j' run =>
    cases hplaced with
    | computed _ next => cases next
    | settled hpresent =>
      have hfresh : n ∉ behind.flatMap Step.boundNames :=
        Plan.not_mem_of_nodup hnodup (by simp [Step.boundNames])
      have hset := hpresent.set hfresh (v.settled rest'.length)
      cases hguarded with
      | given more =>
        refine ⟨behind ++ [.assign n (.argument n)], by simp, more, .settled ?_, Bindings.nodup_set hkeys _ _⟩
        exact hset.skip fun m hm => by
          obtain rfl := List.mem_singleton.1 hm
          rfl
      | computed more =>
        refine ⟨behind ++ [.assign n e], by simp, .guard more, ?_, Bindings.nodup_set hkeys _ _⟩
        exact .computed rfl rfl (by rw [Bindings.get?_set, if_pos rfl]) hset
  | @guard e rest ctx j j' run =>
    have hmore : Plan.Guarded rest' := by
      cases hguarded with
      | guard more => exact more
    refine ⟨behind ++ [.guard e], by simp, hmore, .settled ?_, hkeys⟩
    cases hplaced with
    | settled hpresent => exact hpresent.skip fun m hm => absurd hm List.not_mem_nil
    | @computed before after name e v split next value present =>
      cases next
      rw [Setting.run_holds_present value] at run
      have hnull : v.isNull = false := by
        cases hv : v.isNull with
        | false => rfl
        | true => rw [hv] at run; cases run
      rw [split]
      exact (present.bind rfl value hnull).skip fun m hm => absurd hm List.not_mem_nil
  | @whilst e rest ctx j j' run =>
    have hmore : Plan.Guarded rest' := by
      cases hguarded with
      | whilst more => exact more
    refine ⟨behind ++ [.whilst e], by simp, hmore, .settled ?_, hkeys⟩
    cases hplaced with
    | settled hpresent => exact hpresent.skip fun m hm => absurd hm List.not_mem_nil
    | computed _ next => cases next

-- ---------------------------------------------------------------------------
-- Runs of compiled plans
-- ---------------------------------------------------------------------------

theorem Bindings.Placed.bound {ctx : Bindings} {behind rest : List Step} (h : ctx.Placed behind rest)
    {name : String} (hname : Plan.Computes behind name) : ∃ v, ctx.get? name = some v := by
  cases h with
  | settled present =>
    obtain ⟨v, hv, -⟩ := present name hname
    exact ⟨v, hv⟩
  | computed split next value present =>
    rw [split] at hname
    rcases Plan.computes_append_singleton.1 hname with hname | ⟨hname, -⟩
    · obtain ⟨v, hv, -⟩ := present name hname
      exact ⟨v, hv⟩
    · obtain rfl := List.mem_singleton.1 hname
      exact ⟨_, value⟩

/-- What is absent was computed right before. -/
theorem Bindings.Placed.exists_test {ctx : Bindings} {behind rest : List Step}
    (h : ctx.Placed behind rest) {name : String} (hname : Plan.Computes behind name)
    (hnull : ctx.get? name = some .null) :
    ∃ before e after, behind = before ++ [.assign name e] ∧
      rest = .guard (.present (.var name)) :: after := by
  have hpresent : ∀ {steps}, ctx.Present steps → ¬ Plan.Computes steps name := by
    intro steps hpresent hname
    obtain ⟨v, hv, hnonnull⟩ := hpresent name hname
    rw [hnull] at hv
    cases hv
    exact nomatch hnonnull
  cases h with
  | settled present => exact absurd hname (hpresent present)
  | computed split next value present =>
    have hlast := hname
    rw [split] at hlast
    rcases Plan.computes_append_singleton.1 hlast with hname | ⟨hname, -⟩
    · exact absurd hname (hpresent present)
    · obtain rfl := List.mem_singleton.1 hname
      exact ⟨_, _, _, split, next⟩

/-- The values that were found, each for its own. -/
theorem forall₂_of_mapM {α β : Type} {f : α → Except Fault β} {xs : List α} {ys : List β}
    (h : xs.mapM f = .ok ys) : List.Forall₂ (fun x y => f x = .ok y) xs ys := by
  induction xs generalizing ys with
  | nil =>
    cases h
    exact .nil
  | cons x xs ih =>
    rw [List.mapM_cons] at h
    cases hx : f x with
    | error e =>
      rw [hx] at h
      cases h
    | ok y =>
      cases hxs : xs.mapM f with
      | error e =>
        rw [hx, hxs] at h
        cases h
      | ok ys =>
        rw [hx, hxs] at h
        cases h
        exact .cons hx (ih hxs)

namespace Matches

/-- What happens at a moment of a run, with some steps of the plan behind it. -/
structure Prompt (m : Matches) (behind : List Step) (μ : Moment) : Prop where
  /-- What was computed is bound. -/
  bound : ∀ name, Plan.Computes behind name → ∃ v, μ.ctx.get? name = some v
  /-- If it is absent, then it was computed by the last step, its test comes next, and with the test
  the attempt is over: nothing is called any more, and nothing comes of it. -/
  stops : ∀ name, Plan.Computes behind name → μ.ctx.get? name = some .null →
    (∃ before e after, behind = before ++ [.assign name e] ∧
      μ.rest = .guard (.present (.var name)) :: after) ∧
    (m.setting.sweep m.emit μ.rest μ.ctx).run μ.journal = (⟨[], .done⟩, μ.journal) ∧
    m.setting.moments m.emit μ.rest μ.ctx μ.journal = [μ]
  /-- Forms are called with what is bound, and never with an absent value that was computed. -/
  asked : ∀ call ∈ m.setting.callsAt m.emit μ, ∀ b ∈ call.keywords,
    μ.ctx.get? b.1 = some b.2 ∧ (Plan.Computes behind b.1 → b.2 ≠ .null)

/-- The runs of a plan stop at once at an absent value. -/
structure StopsAtAbsent (m : Matches) : Prop where
  moments : ∀ μ ∈ m.moments, ∃ behind, m.plan.steps = behind ++ μ.rest ∧ m.Prompt behind μ
  /-- At these moments all forms are called, and nothing is evaluated elsewhere: a setting that
  evaluates alike at each of them makes the same run. -/
  calls : m.all.calls = m.moments.flatMap (m.setting.callsAt m.emit)
  others : ∀ s' emit', (∀ μ ∈ m.moments, m.setting.Agrees s' m.emit emit' μ) →
    (m.setting.sweep m.emit m.plan.steps m.arguments).run {} =
      (s'.sweep emit' m.plan.steps m.arguments).run {}
  /-- No match has an absent value that was computed. -/
  results : m.result? = none → ∀ r ∈ m.all.results, ∃ vs, r = .list vs (.made []) ∧
    List.Forall₂ (fun name v => Plan.Computes m.plan.steps name → v ≠ .null) m.plan.resultNames vs
  /-- Some first matches take a first part of this. -/
  taken : ∀ n, (m.take n).results <+: m.all.results ∧ (m.take n).calls <+: m.all.calls

variable {m : Matches} {behind : List Step} {μ : Moment}

theorem prompt_of_stands (h : μ.ctx.Stands m.plan.steps behind μ.rest) : m.Prompt behind μ := by
  obtain ⟨rest, ctx, j⟩ := μ
  have htest : ∀ {name}, Plan.Computes behind name → ctx.get? name = some .null →
      ∃ before e after, behind = before ++ [.assign name e] ∧
        rest = .guard (.present (.var name)) :: after := h.placed.exists_test
  refine { bound := fun name hname => h.placed.bound hname, stops := ?_, asked := ?_ }
  · intro name hname hnull
    obtain ⟨before, e, after, hsplit, rfl⟩ := htest hname hnull
    have hholds := Setting.run_holds_present (s := m.setting) hnull j
    refine ⟨⟨before, e, after, hsplit, rfl⟩, ?_, ?_⟩
    · rw [Setting.sweep, Sweep.run_after, hholds]
      rfl
    · rw [Setting.moments, hholds]
      rfl
  · intro call hcall b hb
    have hbound := Setting.get?_of_callsAt h.keys (m.asks_emit h.keys) call hcall b hb
    refine ⟨hbound, fun hname hnull => ?_⟩
    -- the test of an absent value calls nothing
    rw [hnull] at hbound
    obtain ⟨before, e, after, hsplit, rfl⟩ := htest hname hbound
    have hcall : call ∈ j.callsOf (m.setting.holds ctx (.present (.var b.1))).run := hcall
    rw [Journal.callsOf, Setting.run_holds_present hbound] at hcall
    exact absurd hcall List.not_mem_nil

/-- The tuple of a match has no absent value that was computed. -/
theorem exists_tuple (hnone : m.result? = none) {ctx : Bindings} {j : Journal} {r : Value}
    (hresult : ((m.emit ctx).run.run j).1 = .ok r) (hpresent : ctx.Present m.plan.steps) :
    ∃ vs, r = .list vs (.made []) ∧
      List.Forall₂ (fun name v => Plan.Computes m.plan.steps name → v ≠ .null)
        m.plan.resultNames vs := by
  rw [emit, hnone] at hresult
  cases hvalues : m.plan.resultNames.mapM (boundValue ctx) with
  | error f =>
    simp only [hvalues] at hresult
    cases hresult
  | ok vs =>
    simp only [hvalues] at hresult
    cases hresult
    refine ⟨vs, rfl, (forall₂_of_mapM hvalues).imp fun {name v} hvalue hname hnull => ?_⟩
    obtain ⟨w, hw, hnonnull⟩ := hpresent name hname
    rw [boundValue, hw] at hvalue
    cases hvalue
    rw [hnull] at hnonnull
    cases hnonnull

/-- No run of a compiled plan goes on with an absent value. Bindings that are declared together are
computed and tested one after the other. -/
theorem stopsAtAbsent_of_compile {cx : Context} {plan : Plan} (h : cx.compile = .ok plan)
    (hplan : m.plan = plan) (hargs : (m.arguments.map (·.1)).Nodup) :
    m.StopsAtAbsent ∧ ∀ ts bs, Token.classify cx.elements = .ok ts →
      .bind bs ∈ Token.constraints ts → ∃ before after, plan.steps = before ++
        (bs.flatMap fun b => [.assign b.1 (.call b.2), .guard (.present (.var b.1))]) ++ after := by
  subst hplan
  obtain ⟨ts, g₀, g, us, final, -, -, -, hsurveyed, -⟩ := Context.exists_tour h
  have hstart : m.arguments.Stands m.plan.steps [] m.plan.steps := by
    refine ⟨rfl, Context.guarded_of_compile h, .settled ?_, hargs⟩
    rintro name ⟨step, hstep, -⟩
    exact absurd hstep List.not_mem_nil
  have hstands : ∀ μ ∈ m.moments, ∃ behind, μ.ctx.Stands m.plan.steps behind μ.rest :=
    Setting.forall_moments
      (I := fun rest ctx => ∃ behind, ctx.Stands m.plan.steps behind rest)
      (fun ⟨_, hstands⟩ hturn => hstands.turn hsurveyed.distinct hturn) ⟨[], hstart⟩ {}
  refine ⟨{ moments := ?_, calls := m.all_calls, others := fun _ _ => Setting.run_sweep_congr,
            results := ?_, taken := m.take_prefix }, ?_⟩
  · intro μ hμ
    obtain ⟨behind, hbehind⟩ := hstands μ hμ
    exact ⟨behind, hbehind.split, prompt_of_stands hbehind⟩
  · intro hnone r hr
    rw [m.all_results] at hr
    obtain ⟨⟨rest, ctx, j⟩, hμ, hresult⟩ := List.mem_filterMap.1 hr
    obtain ⟨behind, hbehind⟩ := hstands _ hμ
    cases rest with
    | cons step rest => cases hresult
    | nil =>
      have hpresent : ctx.Present m.plan.steps := by
        have hsplit := hbehind.split
        rw [List.append_nil] at hsplit
        cases hbehind.placed with
        | settled present => exact hsplit ▸ present
        | computed _ next => cases next
      have hok : ((m.emit ctx).run.run j).1 = .ok r := by
        rw [Setting.resultAt?] at hresult
        split at hresult
        · rename_i hrun
          cases hresult
          exact hrun
        · cases hresult
      exact exists_tuple hnone hok hpresent
  · intro ts bs hts hbs
    obtain ⟨before, after, hsteps⟩ := Context.exists_constraint h hts hbs
    rw [Plan.constraintStep, Step.expanded, List.flatMap_map] at hsteps
    exact ⟨before, after, hsteps⟩

end Matches

/-- Two values for every node, the second of which asks for the first. -/
def twoValues : Context :=
  { arguments := []
    elements := [.text "x", .text ":let", .list [.list [.text "y", .form (inquiry "x")],
      .list [.text "z", .form (inquiry "y")]]]
    engine := .graph }

def twoValuesPlan : Plan :=
  { steps := [.generate "x" (.instances .any), .assign "y" (.call (inquiry "x")),
      .guard (.present (.var "y")), .assign "z" (.call (inquiry "y")),
      .guard (.present (.var "z"))]
    arguments := [], engine := .graph }

/-- In the linked pair, the first node has no first value. -/
def twoValuesRun : Matches where
  plan := twoValuesPlan
  setting := { engine := .graph, model := .graph TypedGraph.linked
               behaviour := fun _ env =>
                 .ok (if env.get? "x" = some (.vertex 1) then .null else .bool true) }
  arguments := []

/-- The second form is called for the second node only. -/
theorem Matches.stopsAtAbsent_twoValues :
    twoValues.compile = .ok twoValuesPlan ∧ twoValuesRun.StopsAtAbsent ∧
      twoValuesRun.all.calls.map (·.form) = ["x", "x", "y"] := by
  have hcompile : twoValues.compile = .ok twoValuesPlan := by cbv
  have hargs : (twoValuesRun.arguments.map (·.1)).Nodup := List.nodup_nil
  exact ⟨hcompile, (stopsAtAbsent_of_compile hcompile rfl hargs).1, by decide⟩

end GraphPattern
