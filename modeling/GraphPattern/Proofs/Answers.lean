import GraphPattern.Proofs.CourseSteps
import GraphPattern.Proofs.Reading

/-!
# GraphPattern — the final bindings of a plan

When the walk is over, everything was visited and nothing is left to be solved. What tells two final
bindings apart is what has a name and what components start at: the values of these determine all
that is bound. So the steps of a plan end with exactly one binding for every choice of them that
extends to a solution of the pattern.

## Results

* `Plan.ends_of_ofGraph` — the final bindings of a plan are the choices that extend to solutions.
* `Plan.hasName_of_mem_resultNames` — a plan without constraints only gives out names of the pattern.
* `Plan.mem_resultNames_of_hasName` — it gives out all of them but those of arguments.
* `Matches.of?_ok` — a compiled plan is taken by its engine once all arguments are given.
-/

namespace GraphPattern

open PatternGraph

variable {cx : Context} {g g₀ : PatternGraph} {s : Setting} {w : World} {args : Bindings}

/-- What tells matches apart: what has a name, and the nodes at which components start. -/
def Key (g₀ g : PatternGraph) (b : Handle) : Prop :=
  ¬ g.Unnamed b ∨ ∃ n, b = .node n ∧ g₀.IsStart n

namespace Plan

-- ---------------------------------------------------------------------------
-- Edges that need identity
-- ---------------------------------------------------------------------------

theorem forM_ok {α : Type} {f : α → Except Failure Unit} {xs : List α}
    (h : xs.forM f = .ok ()) : ∀ x ∈ xs, f x = .ok () := by
  induction xs with
  | nil => intro x hx; cases hx
  | cons x xs ih =>
    simp only [List.forM, bind, Except.bind] at h
    split at h
    · cases h
    · rename_i u hx
      intro y hy
      rcases List.mem_cons.1 hy with rfl | hy
      · exact hx
      · exact ih h y hy

theorem forM_of_forall {α : Type} {f : α → Except Failure Unit} {xs : List α}
    (h : ∀ x ∈ xs, f x = .ok ()) : xs.forM f = .ok () := by
  induction xs with
  | nil => rfl
  | cons x xs ih =>
    simp only [List.forM, bind, Except.bind, h x (by simp)]
    exact ih fun y hy => h y (List.mem_cons_of_mem _ hy)

/-- What was checked can be told apart where it has to be. -/
theorem identified_of_checkEdges (h : checkEdges cx g = .ok ()) : Identified cx g := by
  intro e he hk hanon
  unfold checkEdges at h
  split at h
  · assumption
  · exfalso
    have hedge := forM_ok h e he
    unfold checkEdge at hedge
    rw [PatternEdge.anonymous] at hanon
    split at hedge
    · cases hedge
    · cases hedge
    · rename_i hna hnp
      cases hkind : e.kind <;> rw [hkind] at hk
      case argument => exact hna hkind
      case pattern =>
        cases hname : e.name? with
        | none => rw [hname] at hanon; cases hanon
        | some name => exact hnp name hkind hname
      all_goals cases hk

-- ---------------------------------------------------------------------------
-- Keys
-- ---------------------------------------------------------------------------

/-- Solutions that agree on the keys agree on everything that is bound. -/
theorem eq_of_keys {h h' : Handle → Value}
    (hs : Solves w args g [] h) (hs' : Solves w args g [] h')
    (heq : ∀ b, Key g₀ g b → h b = h' b) {b : Handle} (hd : Determined g₀ g b) :
    h b = h' b := by
  rcases hd with hu | ⟨n, rfl, hn⟩ | ⟨i, rfl, hi, ⟨e, he, hk⟩, hu⟩
  · exact heq b (.inl hu)
  · exact heq _ (.inr ⟨n, rfl, hn⟩)
  · -- the end of a named edge is the end of what stands for the edge
    have hanon : e.anonymous = false := by
      rw [unnamed_edge_iff he] at hu
      exact Bool.eq_false_iff.2 hu
    have hnear := (arrives_of_matched hi he hanon (hs.edge i.edge e he hk (by simp))).2.1
    have hnear' := (arrives_of_matched hi he hanon (hs'.edge i.edge e he hk (by simp))).2.1
    rw [← hnear, ← hnear', heq _ (.inl hu)]

/-- What is known is determined by the keys. -/
theorem determined_of_known {visited binds : List Handle} {stack : List Entry}
    (hg : g.Regular cx) (hf : Frontier g₀ g visited binds stack) {b : Handle}
    (hb : Known g binds b) : Determined g₀ g b := by
  rcases hb with hb | hb
  · exact (hf.bound b hb).2.2
  · exact .inl (hg.not_unnamed_of_isArgument hb)

/-- In the end, all keys are known. -/
theorem known_of_key {visited binds : List Handle} (hr : Rooted cx g₀ g)
    (hf : Frontier g₀ g visited binds []) {b : Handle} (hb : Key g₀ g b) : Known g binds b := by
  rcases hb with hu | ⟨n, rfl, hn⟩
  · obtain ⟨name, hname⟩ := exists_name hu
    exact hf.named b (hf.mem_of_hasName hr hname) hu
  · have hnode : g.IsNode n := hr.anchors.extended.isNode hn.isNode
    exact hf.starts n ((hf.complete hr).1 n hnode) n hn .refl

/-- A solution assigns to every argument what is supplied for it. -/
theorem agrees_argument (hr : Rooted cx g₀ g) {h : Handle → Value} (hs : Solves w args g [] h)
    {b : Handle} (hb : g.IsArgument b) : args.get? (b.variable g) = some (h b) := by
  cases b with
  | node n =>
    obtain ⟨hn, nd, hnd, hk⟩ := hb
    obtain ⟨nd', hnd', hsuits⟩ := hs.node n ⟨hn, nd, hnd, .inr hk⟩ (by simp)
    rw [hnd] at hnd'
    cases hnd'
    rw [NodeSuits, hk] at hsuits
    obtain ⟨-, name, hname, hget⟩ := hsuits
    have hvar : (Handle.node n).variable g = name := by
      refine varOf_named ⟨hn, ?_⟩
      rw [hnd]
      exact hname
    rw [hvar]
    exact hget
  | edge k =>
    obtain ⟨e, he, hk⟩ := hb
    have hmatched := hs.edge k e he (by rw [hk]; rfl) (by simp)
    have hfits := hr.regular.edgeFits_of_edge? he
    rw [PatternGraph.EdgeFits, hk] at hfits
    obtain ⟨-, -, own, -, hown⟩ := hfits
    rw [EdgeMatched, if_neg (by rw [PatternEdge.anonymous, hown]; exact Bool.false_ne_true),
      EdgeSuits, hk] at hmatched
    obtain ⟨⟨-, name, hname, hget⟩, -⟩ := hmatched
    have hvar : (Handle.edge k).variable g = name :=
      variable_edge ((hasName_edge_iff he).2 hname)
    rw [hvar]
    exact hget

/-- The final bindings of a plan are the choices of values for its keys that extend to solutions,
each once. -/
theorem ends_of_ofGraph (hw : Serves s w) (hs : s.engine = cx.engine) (hr : Rooted cx g₀ g)
    (hplain : ∀ e ∈ g.edges, e.kind ≠ .precedes)
    (hargs : ∀ b, g.IsArgument b → ∃ v, args.get? (b.variable g) = some v ∧ Fits w args g b v)
    {p : Plan} (h : ofGraph cx g = .ok p) :
    ∃ finals, s.Ends 0 p.expanded.steps args finals ∧
      (∀ c ∈ finals, ∃ h, Solves w args g [] h ∧ Agrees g (Key g₀ g) h c) ∧
      (∀ h, Solves w args g [] h → ∃ c ∈ finals, Agrees g (Key g₀ g) h c) ∧
      finals.Pairwise fun c c' =>
        ∃ b, Key g₀ g b ∧ c.get? (b.variable g) ≠ c'.get? (b.variable g) := by
  obtain ⟨-, -, hcheck, visited, binds, hexplores, hf⟩ := explores_of_ofGraph hr h
  have hid := identified_of_checkEdges hcheck
  have hrealizes : Realizes g (Fits w args g) s (Reached w args g [] []) p.steps
      (Reached w args g visited binds) := hexplores.realizes hw hs hr hplain hid
  have hstart : Holds g (Fits w args g) (Known g []) args := by
    rintro b (hb | hb)
    · cases hb
    · exact hargs b hb
  obtain ⟨finals, hends, hout⟩ := hrealizes.runs 0 args hstart
  -- nothing is left to be solved in the end
  have hleft : ∀ h, Solves w args g visited h := by
    obtain ⟨hnodes, hedges⟩ := hf.complete hr
    exact fun h => ⟨fun n hn hv => absurd (hnodes n hn.1) hv,
      fun k e he _ hv => absurd (hedges k e he) hv⟩
  have hchoice : ∀ c ∈ finals, ∃ h, Solves w args g [] h ∧ Agrees g (Known g binds) h c := by
    intro c hc
    obtain ⟨h', hag⟩ := (hout.holds c hc).exists_agrees
    obtain ⟨h, hsol, heq⟩ := hout.sound c hc h' (hleft h') hag
    refine ⟨h, hsol, fun b hb => ?_⟩
    rw [hag b hb, heq b (.inl hb)]
  have hkeys : ∀ {h c}, Agrees g (Known g binds) h c → Agrees g (Key g₀ g) h c :=
    fun hag b hb => hag b (known_of_key hr hf hb)
  refine ⟨finals, hends, ?_, ?_, ?_⟩
  · intro c hc
    obtain ⟨h, hsol, hag⟩ := hchoice c hc
    exact ⟨h, hsol, hkeys hag⟩
  · intro h hsol
    have hag₀ : Agrees g (Known g []) h args := by
      rintro b (hb | hb)
      · cases hb
      · exact agrees_argument hr hsol hb
    obtain ⟨c, hc, hag, -⟩ := hout.complete h hsol hag₀
    exact ⟨c, hc, hkeys hag⟩
  · refine hout.distinct.imp_of_mem ?_
    rintro c c' hc hc' ⟨b, hb, hne⟩
    refine Classical.byContradiction fun hsame => hne ?_
    obtain ⟨h, hsol, hag⟩ := hchoice c hc
    obtain ⟨h', hsol', hag'⟩ := hchoice c' hc'
    rw [hag b hb, hag' b hb]
    congr 1
    refine eq_of_keys hsol hsol' (fun k hk => ?_)
      (determined_of_known hr.regular hf hb)
    refine Classical.byContradiction fun hkne => hsame ⟨k, hk, ?_⟩
    rw [hkeys hag k hk, hkeys hag' k hk]
    exact fun heq => hkne (Option.some.inj heq)

-- ---------------------------------------------------------------------------
-- Names of results
-- ---------------------------------------------------------------------------

theorem ChainEmits.boundNames {start : Expr} {c : Chain} {visited more : List Handle}
    {em : Emission} (h : ChainEmits g start c visited em more) :
    em.steps.flatMap Step.boundNames = more.map (Handle.variable g) := by
  cases h <;> rfl

theorem FarEmits.boundNames {i : Incidence} {edge : Expr} {visited more : List Handle}
    {em : Emission} (h : FarEmits cx g i edge visited em more) :
    em.steps.flatMap Step.boundNames = more.map (Handle.variable g) := by
  cases h with
  | known node pending known => rfl
  | @named nd es name node pending fresh named =>
    have hvar : (Handle.node i.that).variable g = name := by
      show varOf g i.that = name
      rw [varOf, node, Option.bind_some, named]
    have htest : (typeTest name nd.typeName?).flatMap Step.boundNames = [] := by
      unfold typeTest
      split
      · split <;> rfl
      · rfl
    rw [List.flatMap_cons, htest, List.map_singleton, hvar]
    rfl
  | chain node fresh anonymous walks emits => exact ChainEmits.boundNames emits

/-- The names that the steps of a visit bind: those of what is bound, the name of an argument, or
the names that constraints bind. -/
theorem Emits.boundNames {x : Entry} {visited more : List Handle} {em : Emission}
    (h : Emits cx g visited x em more) :
    em.steps.flatMap Step.boundNames = more.map (Handle.variable g) ∨
      (∃ n nd name, x = .node n ∧ g.node? n = some nd ∧ nd.kind = .argument ∧
        nd.name? = some name ∧ em.steps.flatMap Step.boundNames = [name] ∧ more = []) ∨
      ∃ i, x = .along i ∧ g.Precedes i ∧ more = [] := by
  cases h with
  | anchor node kind pending => exact .inl rfl
  | place node kind pending => exact .inl rfl
  | @argument n nd name es node kind named pending =>
    exact .inr (.inl ⟨n, nd, name, rfl, node, kind, named, rfl, rfl⟩)
  | start edge kind => exact .inl rfl
  | @constraints i e steps marks edge kind splices =>
    exact .inr (.inr ⟨i, rfl, ⟨e, edge, kind⟩, rfl⟩)
  | chain edge kind anonymous segment_ok walks emits => exact .inl (ChainEmits.boundNames emits)
  | argumentEdge edge kind named far =>
    have hfar := FarEmits.boundNames far
    exact .inl hfar
  | @namedEdge i e name em bs edge kind named identity far =>
    have hvar : (Handle.edge i.edge).variable g = name :=
      variable_edge ((hasName_edge_iff edge).2 named)
    left
    rw [List.map_cons, hvar, ← FarEmits.boundNames far]
    rfl

theorem Emits.mem_boundNames {x : Entry} {visited more : List Handle} {em : Emission}
    (h : Emits cx g visited x em more) {b : Handle} (hb : b ∈ more) :
    b.variable g ∈ em.steps.flatMap Step.boundNames := by
  rcases h.boundNames with heq | ⟨_, _, _, _, _, _, _, _, rfl⟩ | ⟨_, _, _, rfl⟩
  · rw [heq]
    exact List.mem_map_of_mem hb
  · cases hb
  · cases hb

/-- What is bound is bound by a step. -/
theorem Explores.mem_boundNames {visited binds visited' binds' : List Handle} {stack : List Entry}
    {steps : List Step} (h : Explores cx g₀ g visited binds stack steps visited' binds')
    {b : Handle} (hb : b ∈ binds') :
    b ∈ binds ∨ b.variable g ∈ steps.flatMap Step.boundNames := by
  induction h with
  | done => exact .inl hb
  | skip seen _ ih => exact ih hb
  | @visit visited binds visited' binds' more x em rest steps frontier fresh emits _ ih =>
    rw [List.flatMap_append, List.mem_append]
    rcases ih hb with hmem | hmem
    · rcases List.mem_append.1 hmem with hmore | hold
      · exact .inr (.inl (Emits.mem_boundNames emits hmore))
      · exact .inl hold
    · exact .inr (.inr hmem)

theorem Explores.hasVariable (hr : Rooted cx g₀ g) (hplain : ∀ e ∈ g.edges, e.kind ≠ .precedes)
    {visited binds visited' binds' : List Handle} {stack : List Entry} {steps : List Step}
    (h : Explores cx g₀ g visited binds stack steps visited' binds') {name : String}
    (hn : name ∈ steps.flatMap Step.boundNames) :
    ∃ b, g.HasVariable b ∧ b.variable g = name := by
  induction h with
  | done => cases hn
  | skip seen _ ih => exact ih hn
  | @visit visited binds visited' binds' more x em rest steps frontier fresh emits _ ih =>
    rw [List.flatMap_append, List.mem_append] at hn
    rcases hn with hn | hn
    · rcases Emits.boundNames emits with heq | ⟨n, nd, own, rfl, hnode, hkind, hname, heq, -⟩ |
        ⟨i, -, ⟨e, he, hk⟩, -⟩
      · rw [heq, List.mem_map] at hn
        obtain ⟨b, hb, rfl⟩ := hn
        have hbound := (frontier.visit hr fresh emits).bound b (List.mem_append_left _ hb)
        exact ⟨b, hasVariable_of_bindable hbound.2.1, rfl⟩
      · rw [heq, List.mem_singleton] at hn
        subst hn
        have hplace : g.IsNode n := by
          rcases frontier.enter n (by simp) with rfl | hs
          · exact isNode_anchor hr.regular.consistent.inhabited
          · exact hr.anchors.extended.isNode hs.isNode
        refine ⟨.node n, ⟨hplace, nd, hnode, .inr hkind⟩, ?_⟩
        show varOf g n = name
        rw [varOf, hnode, Option.bind_some, hname]
      · exact absurd hk (hplain e (List.mem_of_getElem? he))
    · exact ih hn

/-- A plan without constraints only gives out names of the pattern. -/
theorem hasName_of_mem_resultNames (hr : Rooted cx g₀ g)
    (hplain : ∀ e ∈ g.edges, e.kind ≠ .precedes) {p : Plan} (h : ofGraph cx g = .ok p)
    {name : String} (hn : name ∈ p.expanded.resultNames) : ∃ b, g.HasName b name := by
  obtain ⟨-, -, -, visited, binds, hexplores, -⟩ := explores_of_ofGraph hr h
  rw [mem_resultNames, boundNames_expanded] at hn
  obtain ⟨hmem, hvisible⟩ := hn
  obtain ⟨b, hb, rfl⟩ := hexplores.hasVariable hr hplain hmem
  rcases variable_cases hb with hname | ⟨n, rfl, hu, hn, -⟩
  · exact ⟨b, hname⟩
  · have hhidden := isHiddenName_varOf hn hu
    rw [show varOf g n = (Handle.node n).variable g from rfl] at hhidden
    exact absurd (hhidden.symm.trans hvisible) Bool.noConfusion

/-- Everything that has a name and is no argument is part of the result. -/
theorem mem_resultNames_of_hasName (hr : Rooted cx g₀ g) {p : Plan} (h : ofGraph cx g = .ok p)
    {b : Handle} {name : String} (hname : g.HasName b name) (harg : ¬ g.IsArgument b) :
    name ∈ p.expanded.resultNames := by
  obtain ⟨-, -, -, visited, binds, hexplores, hf⟩ := explores_of_ofGraph hr h
  have hknown : Known g binds b := known_of_key hr hf (.inl fun hu => hu name hname)
  have hmem := (hexplores.mem_boundNames (hknown.resolve_right harg)).resolve_left (by simp)
  rw [variable_named hname] at hmem
  rw [mem_resultNames, boundNames_expanded]
  exact ⟨hmem, hr.regular.visible b name hname⟩

end Plan

-- ---------------------------------------------------------------------------
-- Compiled plans
-- ---------------------------------------------------------------------------

variable {plan : Plan}

theorem Context.plan_of_compile (h : cx.compile = .ok plan) :
    plan.arguments = cx.arguments ∧ plan.engine = cx.engine := by
  obtain ⟨g, p, hg, hp, -, rfl⟩ := Context.compile_ok h
  obtain ⟨_, g₀, -, -, hr⟩ := Context.rooted_of_anchoredGraph hg
  obtain ⟨hargs, hengine, -⟩ := Plan.explores_of_ofGraph hr hp
  exact ⟨hargs, hengine⟩

theorem Matches.of?_ok (h : cx.compile = .ok plan) (hs : s.engine = cx.engine)
    (hgiven : ∀ name ∈ cx.arguments, ∃ v, args.get? name = some v) (result? : Option Form) :
    Matches.of? s plan args result? = .ok { plan, setting := s, arguments := args, result? } := by
  obtain ⟨hargs, hengine⟩ := Context.plan_of_compile h
  have hmissing : plan.arguments.filter (fun n => (args.get? n).isNone) = [] := by
    rw [List.filter_eq_nil_iff, hargs]
    intro name hname
    obtain ⟨v, hv⟩ := hgiven name hname
    rw [hv]
    exact Bool.false_ne_true
  rw [of?, if_neg (not_not_intro (hengine.trans hs.symm)), hmissing]

end GraphPattern
