import GraphPattern.Proofs.Expressions
import GraphPattern.Plan.OfGraph

/-!
# GraphPattern — steps as the solving of conditions

A stage of a plan says what is bound and what is still to be solved: conditions on an assignment of
values to the nodes and edges of a pattern. Steps *realize* the way from one stage to the next if
they lead to exactly the bindings that can be extended to a solution, each once. What was solved
without being bound may be chosen anew on the way back; it is never bound later on.

## Results

* `Realizes.trans` — steps one after the other realize the whole way.
* `Realizes.guard`, `Realizes.generate`, `Realizes.assign` — single steps.
-/

namespace GraphPattern

/-- The variable of a node or of a named edge. -/
def Handle.variable (g : PatternGraph) : Handle → String
  | .node n => Plan.varOf g n
  | .edge k => ((g.edge? k).bind (·.name?)).getD ""

/-- What is bound, what was dealt with, and what is still to be solved. -/
structure Standing where
  known : Handle → Prop
  covered : Handle → Prop
  solves : (Handle → Value) → Prop

variable {g : PatternGraph} {fits : Handle → Value → Prop} {s : Setting} {S S' S'' : Standing}
  {ctx : Bindings}

/-- The variables of what is known have the values of an assignment. -/
def Agrees (g : PatternGraph) (known : Handle → Prop) (h : Handle → Value) (ctx : Bindings) :
    Prop :=
  ∀ b, known b → ctx.get? (b.variable g) = some (h b)

/-- The variables of what is known have values that fit. -/
def Holds (g : PatternGraph) (fits : Handle → Value → Prop) (known : Handle → Prop)
    (ctx : Bindings) : Prop :=
  ∀ b, known b → ∃ v, ctx.get? (b.variable g) = some v ∧ fits b v

theorem Agrees.fit {known : Handle → Prop} {h : Handle → Value} (ha : Agrees g known h ctx)
    (hh : Holds g fits known ctx) {b : Handle} (hb : known b) : fits b (h b) := by
  obtain ⟨v, hv, hf⟩ := hh b hb
  rw [ha b hb] at hv
  rwa [Option.some.inj hv]

/-- What is bound can be read as an assignment. -/
theorem Holds.exists_agrees {known : Handle → Prop} (hh : Holds g fits known ctx) :
    ∃ h, Agrees g known h ctx := by
  refine ⟨fun b => (ctx.get? (b.variable g)).getD .null, fun b hb => ?_⟩
  obtain ⟨v, hv, -⟩ := hh b hb
  show _ = some ((ctx.get? (b.variable g)).getD .null)
  rw [hv]
  rfl

/-- The bindings that some steps lead to, on the way from one stage to another. -/
structure Outcome (g : PatternGraph) (fits : Handle → Value → Prop) (S S' : Standing)
    (ctx : Bindings) (finals : List Bindings) : Prop where
  kept : ∀ c ∈ finals, ∀ b, S.known b → c.get? (b.variable g) = ctx.get? (b.variable g)
  holds : ∀ c ∈ finals, Holds g fits S'.known c
  sound : ∀ c ∈ finals, ∀ h', S'.solves h' → Agrees g S'.known h' c →
    ∃ h, S.solves h ∧ ∀ b, S'.known b ∨ ¬ S'.covered b → h b = h' b
  complete : ∀ h, S.solves h → Agrees g S.known h ctx →
    ∃ c ∈ finals, Agrees g S'.known h c ∧ S'.solves h
  distinct : finals.Pairwise fun c c' =>
    ∃ b, S'.known b ∧ c.get? (b.variable g) ≠ c'.get? (b.variable g)

/-- The steps realize the way from one stage to another. -/
structure Realizes (g : PatternGraph) (fits : Handle → Value → Prop) (s : Setting) (S : Standing)
    (steps : List Step) (S' : Standing) : Prop where
  known : ∀ b, S.known b → S'.known b
  fresh : ∀ b, S'.known b → S.known b ∨ ¬ S.covered b
  covered : ∀ b, S.covered b → S'.covered b
  runs : ∀ k ctx, Holds g fits S.known ctx →
    ∃ finals, s.Ends k (steps.flatMap Step.expanded) ctx finals ∧ Outcome g fits S S' ctx finals

/-- The outcomes of a second part, put together for every outcome of the first. -/
theorem Outcome.bind {finals : List Bindings} {more : Bindings → List Bindings}
    (hknown : ∀ b, S'.known b → S''.known b)
    (hfresh : ∀ b, S''.known b → S'.known b ∨ ¬ S'.covered b)
    (hcovered : ∀ b, S'.covered b → S''.covered b) (hfirst : ∀ b, S.known b → S'.known b)
    (h : Outcome g fits S S' ctx finals)
    (hmore : ∀ c ∈ finals, Outcome g fits S' S'' c (more c)) :
    Outcome g fits S S'' ctx (finals.flatMap more) where
  kept := by
    intro c' hc' b hb
    obtain ⟨c, hc, hin⟩ := List.mem_flatMap.1 hc'
    rw [(hmore c hc).kept c' hin b (hfirst b hb), h.kept c hc b hb]
  holds := by
    intro c' hc'
    obtain ⟨c, hc, hin⟩ := List.mem_flatMap.1 hc'
    exact (hmore c hc).holds c' hin
  sound := by
    intro c'' hc'' h'' hsol hag
    obtain ⟨c, hc, hin⟩ := List.mem_flatMap.1 hc''
    obtain ⟨h', hsol', heq'⟩ := (hmore c hc).sound c'' hin h'' hsol hag
    have hag' : Agrees g S'.known h' c := by
      intro b hb
      rw [← (hmore c hc).kept c'' hin b hb, hag b (hknown b hb), heq' b (.inl (hknown b hb))]
    obtain ⟨h₀, hsol₀, heq₀⟩ := h.sound c hc h' hsol' hag'
    refine ⟨h₀, hsol₀, fun b hb => ?_⟩
    -- what the second part may have chosen anew, the first part has not bound
    have hb' : S'.known b ∨ ¬ S'.covered b := by
      rcases hb with hb | hb
      · exact hfresh b hb
      · exact .inr fun hc => hb (hcovered b hc)
    rw [heq₀ b hb', heq' b hb]
  complete := by
    intro h₀ hsol hag
    obtain ⟨c, hc, hag', hsol'⟩ := h.complete h₀ hsol hag
    obtain ⟨c', hc', hag'', hsol''⟩ := (hmore c hc).complete h₀ hsol' hag'
    exact ⟨c', List.mem_flatMap.2 ⟨c, hc, hc'⟩, hag'', hsol''⟩
  distinct := by
    rw [List.pairwise_flatMap]
    refine ⟨fun c hc => (hmore c hc).distinct, ?_⟩
    refine h.distinct.imp_of_mem ?_
    rintro c₁ c₂ hc₁ hc₂ ⟨b, hb, hne⟩ d₁ hd₁ d₂ hd₂
    refine ⟨b, hknown b hb, ?_⟩
    rwa [(hmore c₁ hc₁).kept d₁ hd₁ b hb, (hmore c₂ hc₂).kept d₂ hd₂ b hb]

/-- Steps one after the other realize the whole way. -/
theorem Realizes.trans {first second : List Step} (h₁ : Realizes g fits s S first S')
    (h₂ : Realizes g fits s S' second S'') : Realizes g fits s S (first ++ second) S'' where
  known := fun b hb => h₂.known b (h₁.known b hb)
  fresh := by
    intro b hb
    rcases h₂.fresh b hb with hb | hb
    · exact h₁.fresh b hb
    · exact .inr fun hc => hb (h₁.covered b hc)
  covered := fun b hb => h₂.covered b (h₁.covered b hb)
  runs := by
    intro k ctx hctx
    -- the first part ends in bindings from each of which the second is run
    obtain ⟨finals, hends, hout⟩ :=
      h₁.runs ((second.flatMap Step.expanded).length + k) ctx hctx
    have hmore : ∀ c, ∃ more, c ∈ finals →
        s.Ends k (second.flatMap Step.expanded) c more ∧ Outcome g fits S' S'' c more := by
      intro c
      by_cases hc : c ∈ finals
      · obtain ⟨more, hm⟩ := h₂.runs k c (hout.holds c hc)
        exact ⟨more, fun _ => hm⟩
      · exact ⟨[], fun h => absurd h hc⟩
    -- one list of ends for each of them
    obtain ⟨more, hmore⟩ := Classical.axiomOfChoice hmore
    refine ⟨finals.flatMap more, ?_, ?_⟩
    · rw [List.flatMap_append]
      exact hends.append fun c hc => (hmore c hc).1
    · exact hout.bind h₂.known h₂.fresh h₂.covered h₁.known fun c hc => (hmore c hc).2

-- ---------------------------------------------------------------------------
-- Single steps
-- ---------------------------------------------------------------------------

/-- The variables are left as they are, and nothing new is known. -/
theorem Outcome.keep {final : Bindings}
    (hsame : ∀ b : Handle, final.get? (b.variable g) = ctx.get? (b.variable g))
    (hknown : ∀ b, S'.known b ↔ S.known b) (hctx : Holds g fits S.known ctx)
    (hsound : ∀ h', S'.solves h' → Agrees g S.known h' ctx →
      ∃ h, S.solves h ∧ ∀ b, S.known b ∨ ¬ S'.covered b → h b = h' b)
    (hcomplete : ∀ h, S.solves h → Agrees g S.known h ctx → S'.solves h) :
    Outcome g fits S S' ctx [final] where
  kept := by
    intro c hc b _
    -- the binding kept has the same values as the context, so all carries over
    rw [List.mem_singleton.1 hc, hsame]
  holds := by
    intro c hc b hb
    rw [List.mem_singleton.1 hc, hsame]
    exact hctx b ((hknown b).1 hb)
  sound := by
    intro c hc h' hsol hag
    rw [List.mem_singleton.1 hc] at hag
    obtain ⟨h, hs, heq⟩ := hsound h' hsol fun b hb => by
      rw [← hsame]
      exact hag b ((hknown b).2 hb)
    exact ⟨h, hs, fun b hb => heq b (hb.imp (hknown b).1 id)⟩
  complete := by
    intro h hsol hag
    refine ⟨final, by simp, fun b hb => ?_, hcomplete h hsol hag⟩
    rw [hsame]
    exact hag b ((hknown b).1 hb)
  distinct := by simp

/-- The bindings are dropped, for no solution goes on. -/
theorem Outcome.drop (hcomplete : ∀ h, S.solves h → ¬ Agrees g S.known h ctx) :
    Outcome g fits S S' ctx [] where
  kept := nofun
  holds := nofun
  sound := nofun
  complete := fun h hsol hag => absurd hag (hcomplete h hsol)
  distinct := .nil

/-- Nothing is done, and nothing new is known. -/
theorem Realizes.silent (hknown : ∀ b, S'.known b ↔ S.known b)
    (hcovered : ∀ b, S.covered b → S'.covered b)
    (hsound : ∀ ctx, Holds g fits S.known ctx → ∀ h', S'.solves h' → Agrees g S.known h' ctx →
      ∃ h, S.solves h ∧ ∀ b, S.known b ∨ ¬ S'.covered b → h b = h' b)
    (hcomplete : ∀ h, S.solves h → S'.solves h) : Realizes g fits s S [] S' where
  known := fun b hb => (hknown b).2 hb
  fresh := fun b hb => .inl ((hknown b).1 hb)
  covered := hcovered
  runs := by
    intro k ctx hctx
    exact ⟨[ctx], .nil, .keep (fun _ => rfl) hknown hctx (hsound ctx hctx)
      fun h hsol _ => hcomplete h hsol⟩

/-- A test drops what cannot be extended. -/
theorem Realizes.guard {e : Expr} (P : Bindings → Prop) (hknown : ∀ b, S'.known b ↔ S.known b)
    (hcovered : ∀ b, S.covered b → S'.covered b)
    (htest : ∀ ctx, Holds g fits S.known ctx → ∃ b, Gives (s.holds ctx e) (.ok b) ∧
      (b = true ↔ P ctx))
    (hsound : ∀ ctx, Holds g fits S.known ctx → P ctx → ∀ h', S'.solves h' →
      Agrees g S.known h' ctx → ∃ h, S.solves h ∧ ∀ b, S.known b ∨ ¬ S'.covered b → h b = h' b)
    (hcomplete : ∀ ctx, Holds g fits S.known ctx → ∀ h, S.solves h → Agrees g S.known h ctx →
      P ctx ∧ S'.solves h) : Realizes g fits s S [.guard e] S' where
  known := fun b hb => (hknown b).2 hb
  fresh := fun b hb => .inl ((hknown b).1 hb)
  covered := hcovered
  runs := by
    intro k ctx hctx
    obtain ⟨b, hb, hiff⟩ := htest ctx hctx
    cases b with
    | true =>
      exact ⟨[ctx], .pass hb .nil, .keep (fun _ => rfl) hknown hctx (hsound ctx hctx (hiff.1 rfl))
        fun h hsol hag => (hcomplete ctx hctx h hsol hag).2⟩
    | false =>
      exact ⟨[], .drop hb, .drop fun h hsol hag =>
        absurd (hiff.2 (hcomplete ctx hctx h hsol hag).1) Bool.false_ne_true⟩

/-- What a binding of one more variable makes of the bindings before. -/
theorem get?_set_variable {x b : Handle} {v : Value} :
    (ctx.set (x.variable g) v).get? (b.variable g) =
      if x.variable g = b.variable g then some v else ctx.get? (b.variable g) :=
  Bindings.get?_set ctx _ _ v

/-- The outcome of binding a variable to each of some values. -/
theorem Outcome.ofValues {x : Handle} (vs : List Value) (P : Value → Prop)
    (hknown : ∀ b, S'.known b ↔ S.known b ∨ b = x)
    (hnew : ∀ b, S.known b → b.variable g ≠ x.variable g) (hctx : Holds g fits S.known ctx)
    (hnd : vs.Nodup) (hmem : ∀ v, v ∈ vs ↔ P v) (hfits : ∀ v, P v → fits x v)
    (hsound : ∀ v, P v → ∀ h', S'.solves h' → Agrees g S.known h' ctx → h' x = v →
      ∃ h, S.solves h ∧ ∀ b, S'.known b ∨ ¬ S'.covered b → h b = h' b)
    (hcomplete : ∀ h, S.solves h → Agrees g S.known h ctx → P (h x) ∧ S'.solves h) :
    Outcome g fits S S' ctx (vs.flatMap fun v => [ctx.set (x.variable g) v]) := by
  -- each end keeps what was bound and has one of the values for the handle
  have hold : ∀ v b, S.known b →
      (ctx.set (x.variable g) v).get? (b.variable g) = ctx.get? (b.variable g) := by
    intro v b hb
    rw [get?_set_variable, if_neg fun h => hnew b hb h.symm]
  have hown : ∀ v, (ctx.set (x.variable g) v).get? (x.variable g) = some v := by
    intro v
    rw [get?_set_variable, if_pos rfl]
  have hfinal : ∀ c, c ∈ vs.flatMap (fun v => [ctx.set (x.variable g) v]) ↔
      ∃ v ∈ vs, c = ctx.set (x.variable g) v := by
    intro c
    simp only [List.mem_flatMap, List.mem_singleton]
  refine { kept := ?_, holds := ?_, sound := ?_, complete := ?_, distinct := ?_ }
  · -- kept
    intro c hc b hb
    obtain ⟨v, -, rfl⟩ := (hfinal c).1 hc
    exact hold v b hb
  · -- holds
    intro c hc b hb
    obtain ⟨v, hv, rfl⟩ := (hfinal c).1 hc
    rcases (hknown b).1 hb with hb | rfl
    · rw [hold v b hb]
      exact hctx b hb
    · exact ⟨v, hown v, hfits v ((hmem v).1 hv)⟩
  · -- sound: the handle's value there is the one that was generated
    intro c hc h' hsol hag
    obtain ⟨v, hv, rfl⟩ := (hfinal c).1 hc
    refine hsound v ((hmem v).1 hv) h' hsol ?_ ?_
    · intro b hb
      rw [← hold v b hb]
      exact hag b ((hknown b).2 (.inl hb))
    · have := hag x ((hknown x).2 (.inr rfl))
      rw [hown] at this
      exact (Option.some.inj this).symm
  · -- complete: the value of a solution is among those generated
    intro h hsol hag
    obtain ⟨hP, hsol'⟩ := hcomplete h hsol hag
    refine ⟨_, (hfinal _).2 ⟨h x, (hmem _).2 hP, rfl⟩, ?_, hsol'⟩
    intro b hb
    rcases (hknown b).1 hb with hb | rfl
    · rw [hold _ b hb]
      exact hag b hb
    · exact hown _
  · -- distinct: two ends differ at the handle
    rw [List.pairwise_flatMap]
    refine ⟨fun v _ => by simp, hnd.imp ?_⟩
    intro u v hne c hc d hd
    obtain rfl := List.mem_singleton.1 hc
    obtain rfl := List.mem_singleton.1 hd
    refine ⟨x, (hknown x).2 (.inr rfl), ?_⟩
    rw [hown, hown]
    exact fun h => hne (Option.some.inj h)

/-- An enumeration binds what can be extended, each candidate once. -/
theorem Realizes.generate {n : String} {e : Expr} {x : Handle} (P : Bindings → Value → Prop)
    (hn : n = x.variable g) (hknown : ∀ b, S'.known b ↔ S.known b ∨ b = x)
    (hx : ¬ S.covered x) (hcovered : ∀ b, S.covered b → S'.covered b)
    (hnew : ∀ b, S.known b → b.variable g ≠ x.variable g)
    (hsource : ∀ ctx, Holds g fits S.known ctx → ∃ vs, Gives (s.source ctx e) (.ok (.own vs)) ∧
      vs.Nodup ∧ ∀ v, v ∈ vs ↔ P ctx v)
    (hfits : ∀ ctx, Holds g fits S.known ctx → ∀ v, P ctx v → fits x v)
    (hsettled : ∀ v k, fits x v → v.settled k = v)
    (hsound : ∀ ctx, Holds g fits S.known ctx → ∀ v, P ctx v → ∀ h', S'.solves h' →
      Agrees g S.known h' ctx → h' x = v →
      ∃ h, S.solves h ∧ ∀ b, S'.known b ∨ ¬ S'.covered b → h b = h' b)
    (hcomplete : ∀ ctx, Holds g fits S.known ctx → ∀ h, S.solves h → Agrees g S.known h ctx →
      P ctx (h x) ∧ S'.solves h) : Realizes g fits s S [.generate n e] S' where
  known := fun b hb => (hknown b).2 (.inl hb)
  fresh := by
    intro b hb
    rcases (hknown b).1 hb with hb | rfl
    · exact .inl hb
    · exact .inr hx
  covered := hcovered
  runs := by
    intro k ctx hctx
    obtain ⟨vs, hvs, hnd, hmem⟩ := hsource ctx hctx
    have hout := Outcome.ofValues vs (P ctx) hknown hnew hctx hnd hmem (hfits ctx hctx)
      (hsound ctx hctx) (hcomplete ctx hctx)
    refine ⟨_, .generate hvs fun v hv => ?_, hout⟩
    rw [hsettled v _ (hfits ctx hctx v ((hmem v).1 hv)), hn]
    exact .nil

/-- A binding to a value that is determined, followed by tests. -/
theorem Realizes.assign {n : String} {e : Expr} {x : Handle} {steps tests : List Step}
    (value : Bindings → Value) (P : Bindings → Prop)
    (hsteps : steps.flatMap Step.expanded = .assign n e :: tests)
    (hn : n = x.variable g) (hknown : ∀ b, S'.known b ↔ S.known b ∨ b = x)
    (hx : ¬ S.covered x) (hcovered : ∀ b, S.covered b → S'.covered b)
    (hnew : ∀ b, S.known b → b.variable g ≠ x.variable g)
    (hvalue : ∀ ctx, Holds g fits S.known ctx → Gives (s.evaluate ctx e) (.ok (value ctx)) ∧
      ∀ k, (value ctx).settled k = value ctx)
    (htests : ∀ ctx k, Holds g fits S.known ctx →
      let c := ctx.set (x.variable g) (value ctx)
      (P ctx ∧ s.Ends k tests c [c]) ∨ (¬ P ctx ∧ s.Ends k tests c []))
    (hfits : ∀ ctx, Holds g fits S.known ctx → P ctx → fits x (value ctx))
    (hsound : ∀ ctx, Holds g fits S.known ctx → P ctx → ∀ h', S'.solves h' →
      Agrees g S.known h' ctx → h' x = value ctx →
      ∃ h, S.solves h ∧ ∀ b, S'.known b ∨ ¬ S'.covered b → h b = h' b)
    (hcomplete : ∀ ctx, Holds g fits S.known ctx → ∀ h, S.solves h → Agrees g S.known h ctx →
      P ctx ∧ h x = value ctx ∧ S'.solves h) : Realizes g fits s S steps S' where
  known := fun b hb => (hknown b).2 (.inl hb)
  fresh := by
    intro b hb
    rcases (hknown b).1 hb with hb | rfl
    · exact .inl hb
    · exact .inr hx
  covered := hcovered
  runs := by
    intro k ctx hctx
    obtain ⟨hval, hset⟩ := hvalue ctx hctx
    rw [hsteps, hn]
    -- a value is taken if the tests hold, else none
    have hout : ∀ vs : List Value, vs.Nodup → (∀ v, v ∈ vs ↔ v = value ctx ∧ P ctx) →
        Outcome g fits S S' ctx (vs.flatMap fun v => [ctx.set (x.variable g) v]) := by
      intro vs hnd hmem
      refine .ofValues vs _ hknown hnew hctx hnd hmem ?_ ?_ ?_
      · rintro v ⟨rfl, hP⟩
        exact hfits ctx hctx hP
      · rintro v ⟨rfl, hP⟩
        exact hsound ctx hctx hP
      · intro h hsol hag
        obtain ⟨hP, heq, hsol'⟩ := hcomplete ctx hctx h hsol hag
        exact ⟨⟨heq, hP⟩, hsol'⟩
    rcases htests ctx k hctx with ⟨hP, hends⟩ | ⟨hP, hends⟩
    · refine ⟨_, .assign hval ?_, hout [value ctx] (by simp) (by simp [hP])⟩
      rw [hset]
      exact hends
    · refine ⟨_, .assign hval ?_, hout [] (by simp) (by simp [hP])⟩
      rw [hset]
      exact hends

/-- What is known already may be bound again to its value. -/
theorem Realizes.again {e : Expr} {x : Handle} (hx : S.known x)
    (hknown : ∀ b, S'.known b ↔ S.known b) (hcovered : ∀ b, S.covered b → S'.covered b)
    (hvalue : ∀ ctx v, ctx.get? (x.variable g) = some v → Gives (s.evaluate ctx e) (.ok v))
    (hsettled : ∀ v k, fits x v → v.settled k = v)
    (hsound : ∀ ctx, Holds g fits S.known ctx → ∀ h', S'.solves h' → Agrees g S.known h' ctx →
      ∃ h, S.solves h ∧ ∀ b, S.known b ∨ ¬ S'.covered b → h b = h' b)
    (hcomplete : ∀ h, S.solves h → S'.solves h) :
    Realizes g fits s S [.assign (x.variable g) e] S' where
  known := fun b hb => (hknown b).2 hb
  fresh := fun b hb => .inl ((hknown b).1 hb)
  covered := hcovered
  runs := by
    intro k ctx hctx
    obtain ⟨v, hv, hfit⟩ := hctx x hx
    -- assigning a handle the value it has changes nothing
    have hsame : ∀ b : Handle,
        (ctx.set (x.variable g) v).get? (b.variable g) = ctx.get? (b.variable g) := by
      intro b
      rw [get?_set_variable]
      split
      · rename_i heq
        rw [← heq, hv]
      · rfl
    refine ⟨_, .assign (hvalue ctx v hv) .nil, ?_⟩
    rw [hsettled v _ hfit]
    exact .keep hsame hknown hctx (hsound ctx hctx) fun h hsol _ => hcomplete h hsol

end GraphPattern
