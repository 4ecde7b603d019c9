import GraphPattern.Proofs.Steady
import GraphPattern.Proofs.TypedGraphs
import GraphPattern.Proofs.ObjectModels
import GraphPattern.Proofs.Vouching

/-!
# GraphPattern — what a run promises

A run may end in a fault at any place, and what the forms and the streams of a plan come up with is
open. Some things can be relied on all the same: if there is a result, then it has come past every step.
So whatever a step tests of a variable holds of it in every result, as long as nothing binds the
variable again.

## Results

* `Setting.bears_append` — what steps keep is there for the steps after them.
* `Plan.Vouched.bears` — what a step vouches for is of the type in every result.
-/

namespace GraphPattern

-- ---------------------------------------------------------------------------
-- Actions and sweeps
-- ---------------------------------------------------------------------------

/-- Whatever the journal, an action that gives a value gives one as described. -/
def Promises {α : Type} (a : Action α) (post : α → Prop) : Prop :=
  ∀ j, Ensures (a.run.run j).1 post

namespace Promises

variable {α β : Type} {a : Action α} {P : α → Prop} {Q : β → Prop}

theorem any (a : Action α) : Promises a fun _ => True :=
  fun _ _ _ => trivial

theorem pure {x : α} (h : P x) : Promises (Pure.pure x) P :=
  fun _ => .ok h

theorem throw (f : Fault) : Promises (MonadExcept.throw f : Action α) P :=
  fun _ => .error f

theorem ask {e : Except Fault α} (h : Ensures e P) : Promises (Setting.ask e) P :=
  fun _ => h

theorem bind {k : α → Action β} (ha : Promises a P) (hk : ∀ x, P x → Promises (k x) Q) :
    Promises (a >>= k) Q := by
  intro j
  have hj := ha j
  rw [Gives.run_bind]
  rcases h : a.run.run j with ⟨_ | x, j'⟩ <;> rw [h] at hj
  · exact .error _
  · exact hk x (hj x rfl) j'

end Promises

/-- Whatever the journal, all results of a sweep are as described. -/
def Bears (m : Sweep) (P : Value → Prop) : Prop :=
  ∀ j, ∀ r ∈ (m.run j).1.results, P r

namespace Bears

variable {P : Value → Prop} {body : Value → Sweep}

theorem nothing (ending : Ending) : Bears (Pure.pure ⟨[], ending⟩) P :=
  fun _ _ hr => absurd hr List.not_mem_nil

theorem after {α : Type} {a : Action α} {Q : α → Prop} {k : α → Sweep} (ha : Promises a Q)
    (hk : ∀ x, Q x → Bears (k x) P) : Bears (Sweep.after a k) P := by
  intro j
  have hj := ha j
  rw [Sweep.run_after]
  rcases h : a.run.run j with ⟨f | x, j'⟩ <;> rw [h] at hj
  · exact fun r hr => absurd hr List.not_mem_nil
  · exact hk x (hj x rfl) j'

theorem andThen {round next : Sweep} (hround : Bears round P) (hnext : Bears next P) :
    Bears (Sweep.andThen round next) P := by
  intro j
  have hj := hround j
  rw [Sweep.run_andThen]
  rcases h : round.run j with ⟨⟨results, _ | _ | f⟩, j'⟩ <;> rw [h] at hj
  · intro r hr
    rcases List.mem_append.1 hr with hr | hr
    · exact hj r hr
    · exact hnext j' r hr
  · exact hj
  · exact hj

theorem eachOwn {vs : List Value} (h : ∀ v ∈ vs, Bears (body v) P) :
    Bears (Sweep.eachOwn body vs) P := by
  induction vs with
  | nil => exact nothing _
  | cons v vs ih =>
    obtain ⟨hv, hvs⟩ := List.forall_mem_cons.1 h
    exact andThen hv (ih hvs)

theorem composes (P : Value → Prop) : Sweep.Composes (Bears · P) where
  ended := nothing _
  andThen := andThen
  reading hk := after (.any _) fun v? _ => hk v?
  sized id hm := fun j => hm (j.left id).size j

end Bears

namespace Setting

variable {s : Setting} {emit : Bindings → Action Value} {P : Value → Prop}

/-- What steps keep, whatever they bind, is there for the steps after them. -/
theorem bears_append {I : Bindings → Prop} {first second : List Step}
    (hset : ∀ n ∈ first.flatMap Step.boundNames, ∀ c v, I c → I (c.set n v))
    (hsecond : ∀ c, I c → Bears (s.sweep emit second c) P) {ctx : Bindings} (hctx : I ctx) :
    Bears (s.sweep emit (first ++ second) ctx) P := by
  induction first generalizing ctx with
  | nil => exact hsecond ctx hctx
  | cons step rest ih =>
    rw [List.flatMap_cons] at hset
    have hrest : ∀ {c}, I c → Bears (s.sweep emit (rest ++ second) c) P :=
      ih fun n hn => hset n (List.mem_append_right _ hn)
    cases step with
    | generate n e =>
      have hn := hset n (by simp [Step.boundNames])
      exact .after (.any _) fun source _ =>
        (Bears.composes P).each (fun v => hrest (hn _ _ hctx)) source
    | assign n e =>
      have hn := hset n (by simp [Step.boundNames])
      exact .after (.any _) fun v _ => hrest (hn _ _ hctx)
    | guard e =>
      refine .after (.any _) fun b _ => ?_
      cases b with
      | true => exact hrest hctx
      | false => exact .nothing _
    | whilst e =>
      refine .after (.any _) fun b _ => ?_
      cases b with
      | true => exact hrest hctx
      | false => exact .nothing _
    | assignAll bs => exact .nothing _
    | foreign k => exact .nothing _

end Setting

-- ---------------------------------------------------------------------------
-- Elements of a type
-- ---------------------------------------------------------------------------

/-- An element of a model whose class matches a type. -/
def Model.IsOf (m : Model) (v : Value) (type : String) : Prop :=
  ∃ c attributes, m.element? v = some (c, attributes) ∧ typeMatches c (some type) = true

/-- Elements are bound as they are. -/
theorem Model.IsOf.lasting {m : Model} {v : Value} {type : String} (h : m.IsOf v type) :
    v.Lasting := by
  obtain ⟨c, attributes, helement, -⟩ := h
  unfold Model.element? at helement
  split at helement
  · exact fun _ => rfl
  · exact fun _ => rfl
  · exact fun _ => rfl
  · cases helement

/-- All candidates of a source are as described, and nobody else reads them. -/
def Source.Of (P : Value → Prop) (source : Source) : Prop :=
  ∃ vs, source = .own vs ∧ ∀ v ∈ vs, P v

/-- What a search finds is there to be read. -/
theorem ensures_candidates {P : Value → Prop} {search : Except Fault (List Value)}
    (h : Ensures search fun vs => ∀ v ∈ vs, P v) :
    Ensures (Computed.candidates (.ofSearch search)).toSource (Source.Of P) := by
  cases search with
  | error f => exact .error f
  | ok vs => exact .ok ⟨vs, rfl, h vs rfl⟩

namespace Engine

variable {e : Engine} {m : Model} {type : String}

theorem ensures_isInstance (v : Value) :
    Ensures (e.isInstance m v (.spec type)) fun b => b = true → m.IsOf v type := by
  have hnone : Ensures (.ok false) fun b => b = true → m.IsOf v type :=
    .ok fun h => absurd h Bool.false_ne_true
  unfold isInstance
  cases helement : m.element? v with
  | none => split <;> exact hnone
  | some found =>
    have hfound : Ensures (.ok (typeMatches found.1 (.some type))) fun b =>
        b = true → m.IsOf v type := .ok fun hc => ⟨found.1, found.2, helement, hc⟩
    split
    · exact hfound
    · exact hfound
    · exact hfound
    · exact hnone

theorem ensures_instances_of : Ensures (e.instances m (.spec type)) fun supply =>
    Ensures (Computed.candidates supply).toSource (Source.Of (m.IsOf · type)) := by
  unfold instances
  split
  · refine .ok (ensures_candidates (.ok fun v hv => ?_))
    obtain ⟨n, hn, rfl⟩ := List.mem_map.1 hv
    obtain ⟨x, hx, htype⟩ := TypedGraph.mem_vertices.1 hn
    exact ⟨_, _, by rw [Model.element?, hx]; rfl, htype⟩
  · refine .ok (ensures_candidates (.ok fun v hv => ?_))
    obtain ⟨n, hn, rfl⟩ := List.mem_map.1 hv
    obtain ⟨-, x, hx, htype⟩ := ObjectModel.mem_allObjects.1 hn
    exact ⟨_, _, by rw [Model.element?, hx]; rfl, htype⟩
  · exact .error _

theorem ensures_adjacent_of (u : Value) (d : Direction) :
    Ensures (adjacent m u (.spec type) d) fun supply =>
      Ensures (Computed.candidates supply).toSource (Source.Of (m.IsOf · type)) := by
  unfold adjacent
  split
  · rename_i g id
    have hmatch : Ensures (g.incident id (some type) (some d)) fun ks =>
        ∀ k ∈ ks, ∃ x, g.edge? k = some x ∧ typeMatches x.cls.lineage (some type) = true := by
      unfold TypedGraph.incident
      split
      · exact .error _
      · refine .ok fun k hk => ?_
        obtain ⟨⟨k', d'⟩, -, hk⟩ := List.mem_filterMap.1 hk
        simp only [Bool.and_eq_true, Option.ite_none_right_eq_some, Option.some.injEq] at hk
        obtain ⟨⟨-, hany⟩, rfl⟩ := hk
        exact Option.any_eq_true _ _ |>.1 hany
    refine .ok (ensures_candidates (hmatch.map fun ks hks v hv => ?_))
    obtain ⟨k, hk, rfl⟩ := List.mem_map.1 hv
    obtain ⟨x, hx, htype⟩ := hks k hk
    exact ⟨_, _, by rw [Model.element?, hx]; rfl, htype⟩
  · exact .error _

/-- A path that ends with a test leads to what passes the test. -/
theorem ensures_reachable_of (path : Path) (u : Value) :
    Ensures (e.reachable m u (path ++ [.restrict (.spec type)])) fun vs =>
      ∀ v ∈ vs, m.IsOf v type := by
  unfold reachable Path.evaluate
  generalize [u] = current
  induction path generalizing current with
  | nil =>
    cases current with
    | nil => exact .ok fun v hv => absurd hv List.not_mem_nil
    | cons v vs =>
      refine Ensures.bind (.filterM fun w _ hw => ensures_isInstance w true hw rfl) fun ws hws => ?_
      rw [Path.evaluateFrom]
      exact .ok hws
  | cons segment rest ih =>
    cases current with
    | nil => exact .ok fun v hv => absurd hv List.not_mem_nil
    | cons v vs => exact Ensures.bind (P := fun _ => True) (fun _ _ => trivial) fun ws _ => ih ws

end Engine

-- ---------------------------------------------------------------------------
-- Steps that vouch
-- ---------------------------------------------------------------------------

namespace Setting

variable {s : Setting} {ctx : Bindings} {name type : String}

/-- A variable stands for an element of a type. -/
def Shows (s : Setting) (name type : String) (ctx : Bindings) : Prop :=
  ∃ v, ctx.get? name = some v ∧ s.model.IsOf v type

theorem Shows.of_set {v : Value} (hv : s.model.IsOf v type) (k : Nat) :
    s.Shows name type (ctx.set name (v.settled k)) := by
  refine ⟨v, ?_, hv⟩
  rw [hv.lasting k, Bindings.get?_set, if_pos rfl]

theorem Shows.set {n : String} (h : s.Shows name type ctx) (hn : name ≠ n) (v : Value) :
    s.Shows name type (ctx.set n v) := by
  obtain ⟨w, hw, htype⟩ := h
  exact ⟨w, by rw [Bindings.get?_set, if_neg (Ne.symm hn), hw], htype⟩

/-- An enumeration reads what its expression stands for. -/
theorem promises_source_of {e : Expr} {P : Source → Prop}
    (h : Promises (s.compute ctx e) fun c => Ensures c.toSource P) :
    Promises (s.source ctx e) P :=
  h.bind fun _ hc => .ask hc

/-- What a step enumerates is of the type for which it vouches. -/
theorem promises_source {e : Expr} (h : (Step.generate name e).Vouches name type) :
    Promises (s.source ctx e) (Source.Of (s.model.IsOf · type)) := by
  refine promises_source_of ?_
  cases h with
  | instances => exact .bind (.ask Engine.ensures_instances_of) fun supply h => .pure h
  | adjacent u d =>
    refine .bind (.any _) fun _ _ => .bind (.any _) fun _ _ => .bind (.any _) fun v _ => ?_
    exact .bind (.ask (Engine.ensures_adjacent_of v d)) fun supply h => .pure h
  | reachable start path =>
    refine .bind (.any _) fun _ _ => .bind (.any _) fun v _ => ?_
    exact .bind (.ask (Engine.ensures_reachable_of path v)) fun vs hvs => .pure (.ok ⟨vs, rfl, hvs⟩)

/-- A variable that passes a type test stands for an element of the type. -/
theorem promises_holds : Promises (s.holds ctx (.isInstance (.var name) (.spec type))) fun b =>
    b = true → s.Shows name type ctx := by
  have hvar : Promises (s.compute ctx (.var name)) fun c =>
      ∃ v, c = .value v ∧ ctx.get? name = some v := by
    rw [compute]
    split
    · rename_i v hv
      exact .pure ⟨v, rfl, hv⟩
    · exact .throw _
  have hvalue : Promises (s.evaluate ctx (.isInstance (.var name) (.spec type))) fun v =>
      v.truthy = true → s.Shows name type ctx := by
    refine .bind (P := fun c => ∃ b, c = .value (.bool b) ∧ (b = true → s.Shows name type ctx)) ?_ ?_
    · refine .bind hvar ?_
      rintro _ ⟨v, rfl, hv⟩
      refine .bind (P := fun w => w = v) (.pure rfl) ?_
      rintro _ rfl
      exact .bind (.ask (Engine.ensures_isInstance _)) fun b hb =>
        .pure ⟨b, rfl, fun htrue => ⟨_, hv, hb htrue⟩⟩
    · rintro _ ⟨b, rfl, hb⟩
      exact .pure hb
  exact .bind hvalue fun v hv => .pure hv

end Setting

open Setting in
/-- After a step that vouches for a variable, the variable stands for an element of the type. -/
theorem Step.Vouches.bears {s : Setting} {name type : String} {step : Step}
    (h : step.Vouches name type) {emit : Bindings → Action Value} {P : Value → Prop}
    {rest : List Step} (hrest : ∀ c, s.Shows name type c → Bears (s.sweep emit rest c) P)
    (ctx : Bindings) : Bears (s.sweep emit (step :: rest) ctx) P := by
  have hgenerate : ∀ {e : Expr}, (Step.generate name e).Vouches name type →
      Bears (s.sweep emit (.generate name e :: rest) ctx) P := by
    intro e he
    refine .after (promises_source he) ?_
    rintro _ ⟨vs, rfl, hvs⟩
    exact .eachOwn fun v hv => hrest _ (.of_set (hvs v hv) _)
  cases h with
  | instances => exact hgenerate .instances
  | adjacent u d => exact hgenerate (.adjacent u d)
  | reachable start path => exact hgenerate (.reachable start path)
  | test =>
    refine .after promises_holds fun b hb => ?_
    cases b with
    | true => exact hrest ctx (hb rfl)
    | false => exact .nothing _

/-- What a step vouches for is of the type in every result, if nothing is bound twice. -/
theorem Plan.Vouched.bears {s : Setting} {name type : String} {steps : List Step}
    (h : Plan.Vouched name type steps) (hnodup : (steps.flatMap Step.boundNames).Nodup)
    {emit : Bindings → Action Value} {P : Value → Prop}
    (hemit : ∀ c, s.Shows name type c → Promises (emit c) P) (ctx : Bindings) :
    Bears (s.sweep emit steps ctx) P := by
  obtain ⟨pre, step, post, rfl, hvouches, hbound⟩ := h
  have hlater : name ∉ post.flatMap Step.boundNames := by
    rw [List.append_cons, List.flatMap_append] at hnodup
    exact fun hmem => (List.nodup_append.1 hnodup).2.2 name hbound name hmem rfl
  have hpost : ∀ c, s.Shows name type c → Bears (s.sweep emit post c) P := by
    intro c hc
    rw [← List.append_nil post]
    refine Setting.bears_append (I := s.Shows name type) (fun n hn c v hc => ?_) (fun c hc => ?_) hc
    · exact hc.set (fun heq => hlater (heq ▸ hn)) v
    · exact .after (hemit c hc) fun v hv j r hr => by
        rw [List.mem_singleton.1 hr]
        exact hv
  exact Setting.bears_append (I := fun _ => True) (fun _ _ _ _ _ => trivial)
    (fun c _ => hvouches.bears hpost c) trivial

end GraphPattern
