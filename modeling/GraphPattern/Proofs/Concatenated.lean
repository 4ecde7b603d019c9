import GraphPattern.Proofs.Composed

/-!
# GraphPattern — the plan of patterns one after the other

Compilation is compositional: where two patterns compile and have no name in common, both in a row
compile, to the steps of the first pattern and then those of the second one, whose hidden variables
have higher numbers by as many nodes as the first pattern has.

## Results

* `Context.juxtaposed_of_rooted` — the graph of two patterns in a row.
* `Context.compile_append` — the plan of two patterns in a row.
-/

namespace GraphPattern

open PatternGraph Plan

-- ---------------------------------------------------------------------------
-- Graphs
-- ---------------------------------------------------------------------------

/-- The two lists of tokens have no name in common. -/
def Token.Disjoint (ts ts' : List Token) : Prop :=
  ∀ t ∈ ts, ∀ t' ∈ ts', ∀ name ∈ t.names, name ∉ t'.names

theorem Token.mem_names {t : Token} {name : String} (h : t.name? = some name) : name ∈ t.names := by
  cases t with
  | node t | edge t => exact Option.mem_toList.2 h
  | constraint t => cases h

/-- The context with another pattern. -/
def Context.withElements (cx : Context) (es : List Element) : Context :=
  { cx with elements := es }

/-- The graph of two patterns in a row. -/
theorem Context.juxtaposed_of_rooted {cx : Context} {es es' : List Element}
    {ts ts' : List Token} {p p₁ g g₁ : PatternGraph}
    (hts : Token.classify es = .ok ts) (hts' : Token.classify es' = .ok ts')
    (hp : ofTokens (cx.withElements es) ts = .ok p) (hrp : Rooted (cx.withElements es) p p₁)
    (hg : ofTokens (cx.withElements es') ts' = .ok g) (hrg : Rooted (cx.withElements es') g g₁)
    (hnode : ∀ t ∈ ts'.head?, ∃ u, t = .node u) (hdisjoint : Token.Disjoint ts ts') :
    ∃ j j₁, (cx.withElements (es ++ es')).anchoredGraph = .ok j₁ ∧
      Rooted (cx.withElements (es ++ es')) j j₁ ∧ Juxtaposed es.length p p₁ g g₁ j j₁ := by
  obtain ⟨_, hreads⟩ := Reading.reads_of_run hp
  obtain ⟨_, hreads'⟩ := Reading.reads_of_run hg
  have hvisible := Token.visible_of_classify hts'
  have hpos := hrp.before.consistent.inhabited
  -- the second pattern's names are new to the first: the two share none
  have hnew : ∀ t ∈ ts', ∀ name, t.name? = some name → p.named? name = none := by
    intro t ht name hname
    cases hnamed : p.named? name with
    | none => rfl
    | some x =>
      have huses := uses_of_hasName ((hrp.before.names name x).1 hnamed)
      rcases hreads.uses huses with (⟨nd, hnd, hown⟩ | ⟨e, he, -⟩) | ⟨u, hu, hmem⟩
      · rw [List.mem_singleton.1 hnd] at hown
        cases hown
      · cases he
      · exact absurd (Token.mem_names hname) (hdisjoint u hu t ht name hmem)
  have hargs : (cx.withElements (es ++ es')).arguments = (cx.withElements es).arguments := rfl
  have hargs' : (cx.withElements (es ++ es')).arguments = (cx.withElements es').arguments := rfl
  -- the second is read on top of the first as it would be read on its own
  have hstart : Beside es.length p ({} : Reading).graph ({ graph := p } : Reading).graph :=
    beside_empty p _
  obtain ⟨j, hrun, hbeside⟩ := hreads'.beside (.start _) hvisible hargs' hpos hnew hstart
    hrp.before.consistent (behind_anchor p g p).symm rfl
  have hclassify : Token.classify (cx.withElements (es ++ es')).elements =
      .ok (ts ++ ts'.map (Token.later es.length)) :=
    Token.classify_append hts hts'
  -- reading the whole is reading the first, then the second from where it stopped
  have hj : ofTokens (cx.withElements (es ++ es')) (ts ++ ts'.map (Token.later es.length)) =
      .ok j := by
    refine ((hreads.congr hargs).run_append fun t ht => ?_).trans hrun
    rw [List.head?_map] at ht
    obtain ⟨u, hu, rfl⟩ := Option.map_eq_some_iff.1 ht
    obtain ⟨v, rfl⟩ := hnode u hu
    exact ⟨_, rfl⟩
  obtain ⟨hreg, hunanchored⟩ :=
    Reading.regular_of_run hj (Token.visible_of_classify hclassify)
  obtain ⟨j₁, hanchored, hanchors⟩ := anchored_ok hreg.consistent
  refine ⟨j, j₁, ?_, ⟨hreg, hunanchored, hanchors, hreg.anchors hanchors⟩, ?_⟩
  · simp only [anchoredGraph, graph, hclassify, bind, Except.bind, hj, hanchored]
  · -- the anchor of both is the same first node, which every reading leaves alone
    refine ⟨hbeside, hrp.before.consistent, hrg.before.consistent, ?_, ?_, hrp.anchors,
      hrg.anchors, hanchors⟩
    · obtain ⟨l, hl⟩ := hreads.nodes_prefix
      obtain ⟨l', hl'⟩ := hreads'.nodes_prefix
      show p.node? ⟨(0 : Nat)⟩ = g.node? ⟨(0 : Nat)⟩
      rw [node?_natCast, node?_natCast, ← hl, ← hl']
      rfl
    · exact hreads'.detached (.start _) hvisible (.inr hnode) fun e he =>
        absurd he List.not_mem_nil

namespace Plan

variable {cx cx' cx₁ : Context} {d : Nat} {p p₁ g g₁ j j₁ : PatternGraph} {ts : List Token}
  {plan : Plan} {name : String}

-- ---------------------------------------------------------------------------
-- Edges
-- ---------------------------------------------------------------------------

/-- Where an edge passes, an edge of its kind and name passes. -/
theorem checkEdge_congr {e e' : PatternEdge} (hk : e'.kind = e.kind) (hn : e'.name? = e.name?)
    (h : checkEdge cx e = .ok ()) : checkEdge cx' e' = .ok () := by
  unfold checkEdge at h ⊢
  rw [hk, hn]
  split at h <;> simp_all

/-- The edges of both graphs suit the engine. -/
theorem checkEdges_juxtaposed (h : Juxtaposed d p p₁ g g₁ j j₁) (hengine : cx₁.engine = cx.engine)
    (hengine' : cx₁.engine = cx'.engine) (hp : checkEdges cx p₁ = .ok ())
    (hg : checkEdges cx' g₁ = .ok ()) : checkEdges cx₁ j₁ = .ok () := by
  unfold checkEdges at hp hg ⊢
  rw [← hengine] at hp
  rw [← hengine'] at hg
  by_cases hid : cx₁.engine.edgesHaveIdentity = true
  · rw [if_pos hid]
  rw [if_neg hid] at hp hg ⊢
  refine forM_of_forall fun e he => ?_
  obtain ⟨k, hk⟩ := List.getElem?_of_mem he
  have he : j₁.edge? ⟨k⟩ = some e := hk
  rcases h.edge?_cases he with ⟨k₀, -, he₀⟩ | ⟨k₀, e₀, -, he₀, rfl⟩
  · exact checkEdge_congr rfl rfl (forM_ok hp e (List.mem_of_getElem? he₀))
  · exact checkEdge_congr (e := e₀) rfl rfl (forM_ok hg e₀ (List.mem_of_getElem? he₀))

-- ---------------------------------------------------------------------------
-- Names
-- ---------------------------------------------------------------------------

/-- A name of the graph of a pattern is one of its tokens. -/
theorem mem_names_of_hasName (hg : ofTokens cx ts = .ok g) (hr : Rooted cx g g₁) {x : Handle}
    (hx : g₁.HasName x name) : ∃ t ∈ ts, name ∈ t.names := by
  obtain ⟨_, hreads⟩ := Reading.reads_of_run hg
  rcases hreads.uses (uses_of_hasName (hr.anchors.hasName_iff.1 hx)) with
    (⟨nd, hnd, hown⟩ | ⟨e, he, -⟩) | ht
  · rw [List.mem_singleton.1 hnd] at hown
    cases hown
  · cases he
  · exact ht

/-- What a plan binds is a name of a token, or the hidden variable of a node of the pattern. -/
theorem Surveyed.boundName_cases (h : Surveyed cx ts g g₁ plan) (hg : ofTokens cx ts = .ok g)
    (hts : Token.classify cx.elements = .ok ts) (hn : name ∈ plan.boundNames) :
    (isHiddenName name = false ∧ ∃ t ∈ ts, name ∈ t.names) ∨
      ∃ k, name = "#" ++ toString k ∧ 0 < k ∧ k < g.nodes.length := by
  have hnamed : ∀ {x : Handle}, g₁.HasName x name →
      isHiddenName name = false ∧ ∃ t ∈ ts, name ∈ t.names := fun hx =>
    ⟨h.rooted.regular.visible _ _ hx, mem_names_of_hasName hg h.rooted hx⟩
  -- the name is bound by a step, and each step of a plan has its origin in the pattern
  obtain ⟨s, hs, hbinds⟩ := List.mem_flatMap.1 hn
  cases h.origin s hs with
  | test binds =>
    rw [binds] at hbinds
    cases hbinds
  | form calls =>
    obtain ⟨c, hc, hsc⟩ := h.exists_constraint hs calls
    obtain ⟨hmem, -⟩ := binds_of_mem_steps hsc hbinds
    refine .inl ⟨Token.visible_of_constraints hts c hc name hmem, ?_⟩
    obtain ⟨t, ht, heq⟩ := List.mem_filterMap.1 hc
    refine ⟨t, ht, ?_⟩
    cases t <;> cases heq
    exact hmem
  | @found s x fillable binds =>
    rw [binds] at hbinds
    cases List.mem_singleton.1 hbinds
    have hvar : g₁.HasVariable x := by
      cases x with
      | node n => exact fillable.1
      | edge k =>
        obtain ⟨e, he, -, hsome⟩ := fillable
        obtain ⟨own, hown⟩ := Option.isSome_iff_exists.1 hsome
        exact ⟨own, (hasName_edge_iff he).2 hown⟩
    -- a found handle has its own name, or the hidden one that its node's number gives
    rcases variable_cases hvar with hx | ⟨n, rfl, -, hnode, heq⟩
    · exact .inl (hnamed hx)
    · obtain ⟨k, rfl, hk⟩ := hnode
      -- not number 0, which is the anchor's
      refine .inr ⟨k, heq, Nat.pos_of_ne_zero ?_, by rw [← h.rooted.anchors.nodes]; exact hk⟩
      rintro rfl
      exact h.rooted.regular.not_isPlace_anchor fillable.1
  | @supplied n nd own start node kind named =>
    cases List.mem_singleton.1 hbinds
    have hnode := h.rooted.anchors.extended.isNode start.isNode
    exact .inl (hnamed (x := .node n) ⟨hnode, by rw [node]; exact named⟩)

/-- What a plan assigns has a visible name. -/
theorem Surveyed.visible_of_assign (h : Surveyed cx ts g g₁ plan)
    (hts : Token.classify cx.elements = .ok ts) {e : Expr}
    (hs : .assign name e ∈ plan.steps) : isHiddenName name = false := by
  have hbinds : name ∈ (Step.assign name e).boundNames := List.mem_singleton_self _
  generalize hstep : Step.assign name e = s at hs hbinds
  cases h.origin s hs with
  -- only a handle that was found may be assigned, and then under its own name
  | test binds =>
    rw [binds] at hbinds
    cases hbinds
  | form calls =>
    obtain ⟨c, hc, hsc⟩ := h.exists_constraint hs calls
    exact Token.visible_of_constraints hts c hc name (binds_of_mem_steps hsc hbinds).1
  | @found s x fillable binds assigned =>
    obtain ⟨own, hown⟩ := not_forall_not.1 (assigned name e hstep.symm).2
    rw [binds, variable_named hown] at hbinds
    cases List.mem_singleton.1 hbinds
    exact h.rooted.regular.visible x name hown
  | @supplied n nd own start node kind named =>
    cases List.mem_singleton.1 hbinds
    have hnode := h.rooted.anchors.extended.isNode start.isNode
    exact h.rooted.regular.visible (.node n) name ⟨hnode, by rw [node]; exact named⟩

theorem isHiddenName_number (k : Nat) : isHiddenName ("#" ++ toString k) = true := by
  simp [isHiddenName]

theorem number_injective {k l : Nat} (h : "#" ++ toString k = "#" ++ toString l) : k = l :=
  natRepr_injective (by simpa using h)

/-- No name is bound by both plans, and none is bound twice. -/
theorem nodup_juxtaposed {ts' : List Token} {plan' : Plan} (h : Surveyed cx ts p p₁ plan)
    (h' : Surveyed cx' ts' g g₁ plan') (hp : ofTokens cx ts = .ok p)
    (hts : Token.classify cx.elements = .ok ts) (hg : ofTokens cx' ts' = .ok g)
    (hts' : Token.classify cx'.elements = .ok ts') (hdisjoint : Token.Disjoint ts ts') :
    (plan.boundNames ++ plan'.boundNames.map (raised (p.nodes.length - 1))).Nodup := by
  have hcases := fun (x : String) (hx : x ∈ plan.boundNames) => h.boundName_cases hp hts hx
  have hcases' := fun (x : String) (hx : x ∈ plan'.boundNames) => h'.boundName_cases hg hts' hx
  -- within the second: raising keeps visible names and moves the numbers of hidden ones apart
  refine List.nodup_append.2 ⟨h.distinct, h'.distinct.map_on fun x hx y hy heq => ?_, ?_⟩
  · rcases hcases' x hx with ⟨hv, -⟩ | ⟨k, rfl, -⟩ <;>
      rcases hcases' y hy with ⟨hv', -⟩ | ⟨l, rfl, -⟩
    · rwa [raised_visible _ hv, raised_visible _ hv'] at heq
    · rw [raised_visible _ hv, raised_hidden] at heq
      rw [heq, isHiddenName_number] at hv
      cases hv
    · rw [raised_visible _ hv', raised_hidden] at heq
      rw [← heq, isHiddenName_number] at hv'
      cases hv'
    · rw [raised_hidden, raised_hidden] at heq
      rw [Nat.add_right_cancel (number_injective heq)]
  · -- between the two: visible names are not shared, and raised numbers pass the first's
    rintro x hx _ hmem rfl
    obtain ⟨y, hy, heq⟩ := List.mem_map.1 hmem
    rcases hcases x hx with ⟨hv, t, ht, hname⟩ | ⟨k, rfl, hpos, hlt⟩ <;>
      rcases hcases' y hy with ⟨hv', t', ht', hname'⟩ | ⟨l, rfl, hpos', -⟩
    · rw [raised_visible _ hv'] at heq
      exact hdisjoint t ht t' ht' x hname (heq ▸ hname')
    · rw [raised_hidden] at heq
      rw [← heq, isHiddenName_number] at hv
      cases hv
    · rw [raised_visible _ hv'] at heq
      rw [heq, isHiddenName_number] at hv'
      cases hv'
    · -- the first's numbers stay below the raised ones
      rw [raised_hidden] at heq
      have := number_injective heq
      omega

-- ---------------------------------------------------------------------------
-- Checks
-- ---------------------------------------------------------------------------

/-- What has passed its checks in parts passes them as a whole. -/
theorem check_eq_ok {g? : Option PatternGraph} {plan : Plan}
    (hnodup : plan.boundNames.Nodup)
    (hkept : plan.steps.findSome? (reboundArgument? cx.arguments) = none)
    (hsteps : ∃ after, plan.steps.foldlM (checkStep cx g?) cx.arguments = .ok after) :
    plan.check cx g? = .ok () := by
  obtain ⟨after, hsteps⟩ := hsteps
  simp only [check, repeated_eq_nil_iff.2 hnodup, hkept, hsteps, bind, Except.bind]
  rfl

/-- The forms that the steps of a plan call are those of the constraints. -/
theorem Surveyed.mem_forms (h : Surveyed cx ts g g₁ plan) {s : Step} {f : Form}
    (hs : s ∈ plan.steps) (hf : f ∈ s.forms) : ∃ c ∈ Token.constraints ts, f ∈ c.forms := by
  have hcalls : s.callsForm = true := by
    rw [Step.callsForm, Bool.not_eq_true', List.isEmpty_eq_false_iff]
    exact List.ne_nil_of_mem hf
  obtain ⟨c, hc, hsc⟩ := h.exists_constraint hs hcalls
  refine ⟨c, hc, ?_⟩
  cases c with
  | when f' | whilst f' =>
    rw [List.mem_singleton.1 hsc] at hf
    exact hf
  | bind bs =>
    obtain ⟨b, hb, rfl⟩ := List.mem_map.1 hsc
    rw [List.mem_singleton.1 hf]
    exact List.mem_map_of_mem hb

/-- The plan of both patterns passes the checks that both plans pass. -/
theorem check_juxtaposed {ts' : List Token} {plan' : Plan} {g? g'? g₁? : Option PatternGraph}
    (h : Surveyed cx ts p p₁ plan) (h' : Surveyed cx' ts' g g₁ plan')
    (hp : ofTokens cx ts = .ok p) (hts : Token.classify cx.elements = .ok ts)
    (hg : ofTokens cx' ts' = .ok g) (hts' : Token.classify cx'.elements = .ok ts')
    (hdisjoint : Token.Disjoint ts ts') (hargs : cx₁.arguments = cx.arguments)
    (hargs' : cx₁.arguments = cx'.arguments)
    (hlegible : ∀ c ∈ Token.constraints ts', ∀ f ∈ c.forms, f.Legible)
    (hcheck : plan.check cx g? = .ok ()) (hcheck' : plan'.check cx' g'? = .ok ()) :
    Plan.check cx₁ g₁?
      { plan with
        steps := plan.steps ++ plan'.steps.map (Step.renamed (raised (p.nodes.length - 1))) } =
      .ok () := by
  obtain ⟨-, hkept, after, hsteps⟩ := check_ok hcheck
  obtain ⟨-, hkept', after', hsteps'⟩ := check_ok hcheck'
  rw [← hargs] at hkept hsteps
  rw [← hargs'] at hkept' hsteps'
  have hall : Covers (fun _ => True) cx₁.arguments cx₁.arguments := fun _ hname _ => hname
  -- the first plan passes as it did, the second after it with what the first has bound
  have hfirst : ∃ mid, (plan.steps.map (Step.renamed id)).foldlM (checkStep cx₁ g₁?)
      cx₁.arguments = .ok mid ∧ cx₁.arguments ⊆ mid :=
    checkSteps_renamed (fun _ _ => rfl) hall h.single (fun _ _ _ _ _ _ _ _ => trivial) hsteps
  obtain ⟨mid, hmid, hsub⟩ := hfirst
  have hsecond : ∃ last, (plan'.steps.map (Step.renamed (raised (p.nodes.length - 1)))).foldlM
      (checkStep cx₁ g₁?) mid = .ok last ∧ mid ⊆ last := by
    refine checkSteps_renamed (fun name hv => raised_visible _ hv) (fun x hx _ => hsub hx)
      h'.single (fun s hs f hf => ?_) hsteps'
    obtain ⟨c, hc, hfc⟩ := h'.mem_forms hs hf
    exact hlegible c hc f hfc
  obtain ⟨last, hlast, -⟩ := hsecond
  rw [show Step.renamed id = id from funext Step.renamed_id, List.map_id] at hmid
  refine check_eq_ok ?_ ?_ ⟨last, ?_⟩
  · -- no name is bound twice
    rw [boundNames, List.flatMap_append, boundNames_renamed]
    exact nodup_juxtaposed h h' hp hts hg hts' hdisjoint
  · -- no step rebinds an argument
    rw [List.findSome?_append, hkept, Option.none_or, List.findSome?_eq_none_iff]
    intro s hmem
    obtain ⟨s', hs', rfl⟩ := List.mem_map.1 hmem
    rw [reboundArgument?_renamed (fun _ hv => raised_visible _ hv)]
    · exact List.findSome?_eq_none_iff.1 hkept' s' hs'
    · rintro name e rfl
      exact h'.visible_of_assign hts' hs'
  · -- every step finds its names bound
    rw [List.foldlM_append, hmid]
    exact hlast

end Plan

-- ---------------------------------------------------------------------------
-- Compilation
-- ---------------------------------------------------------------------------

/-- The nodes of the graph but for the anchor. -/
def PatternGraph.size (g : PatternGraph) : Nat :=
  g.nodes.countP fun nd => nd.kind ≠ .anchor

/-- All nodes but the first one are counted. -/
theorem PatternGraph.Regular.size_eq {cx : Context} {g : PatternGraph} (hg : g.Regular cx) :
    g.size = g.nodes.length - 1 := by
  obtain ⟨root, hroot, hkind⟩ := hg.anchor
  have hfirst : g.nodes[0]? = some root := by
    rw [← node?_natCast]
    exact hroot
  cases hnodes : g.nodes with
  | nil =>
    rw [hnodes] at hfirst
    cases hfirst
  | cons nd rest =>
    rw [hnodes] at hfirst
    cases hfirst
    rw [size, hnodes, List.countP_cons_of_neg (by simp [hkind]), List.length_cons,
      Nat.add_sub_cancel, List.countP_eq_length]
    -- every other node than the first is counted, since no node but the anchor is of its kind
    intro nd hnd
    obtain ⟨i, hi⟩ := List.getElem?_of_mem hnd
    have hnode : g.node? ⟨(i + 1 : Nat)⟩ = some nd := by
      rw [node?_natCast, hnodes, List.getElem?_cons_succ, hi]
    have hlt : i + 1 < g.nodes.length := by
      rw [hnodes, List.length_cons]
      exact Nat.succ_lt_succ (List.getElem?_eq_some_iff.1 hi).1
    simp only [decide_eq_true_eq]
    intro hanchor
    have hzero := hg.eq_anchor_of_kind ⟨_, rfl, hlt⟩ hnode hanchor
    have := NodeId.mk.inj hzero
    omega

/-- Where two patterns compile and have no name in common, and the second one starts with a node
unless it is empty, both in a row compile. The plan has the steps of the first pattern and then those
of the second one, whose hidden variables are numbered by as many nodes more as the first pattern has.
-/
theorem Context.compile_append {cx : Context} {es es' : List Element} {ts ts' : List Token}
    {g : PatternGraph} {plan plan' : Plan} (hts : Token.classify es = .ok ts)
    (hts' : Token.classify es' = .ok ts')
    (hg : PatternGraph.ofTokens (cx.withElements es) ts = .ok g)
    (h : (cx.withElements es).compile = .ok plan) (h' : (cx.withElements es').compile = .ok plan')
    (hnode : ts' = [] ∨ ∃ t rest, ts' = .node t :: rest) (hdisjoint : Token.Disjoint ts ts')
    (hlegible : ∀ c ∈ Token.constraints ts', ∀ f ∈ c.forms, f.Legible) :
    (cx.withElements (es ++ es')).compile =
      .ok { plan with steps := plan.steps ++ plan'.steps.map (Step.renamed (raised g.size)) } := by
  have hhead : ∀ t ∈ ts'.head?, ∃ u, t = .node u := by
    rcases hnode with rfl | ⟨u, rest, rfl⟩
    · exact fun t ht => nomatch ht
    · rintro t ht
      exact ⟨u, (Option.some.inj ht).symm⟩
  obtain ⟨p₁, q, hp₁, hq, hcheck, rfl⟩ := compile_ok h
  obtain ⟨g₁, q', hg₁, hq', hcheck', rfl⟩ := compile_ok h'
  -- both patterns compiled, each over a graph of its own
  obtain ⟨_, _, hcl, hof, hrp⟩ := rooted_of_anchoredGraph hp₁
  cases hts.symm.trans hcl
  cases hg.symm.trans hof
  obtain ⟨_, g', hcl, hg', hrg⟩ := rooted_of_anchoredGraph hg₁
  cases hts'.symm.trans hcl
  -- the graph of the whole is the two side by side, sharing the anchor
  obtain ⟨j, j₁, hj₁, hrj, hjoint⟩ :=
    juxtaposed_of_rooted hts hts' hg hrp hg' hrg hhead hdisjoint
  obtain ⟨hargs, hengine, hedges, _, _, hwalk, -⟩ := explores_of_ofGraph hrp hq
  obtain ⟨-, -, hedges', _, _, hwalk', -⟩ := explores_of_ofGraph hrg hq'
  have hvisible : ∀ c ∈ g₁.constraints, ∀ name ∈ c.names, isHiddenName name = false := by
    rw [constraints_of_anchoredGraph hg₁ hts']
    exact Token.visible_of_constraints hts'
  have hargs₁ : (cx.withElements (es ++ es')).arguments = (cx.withElements es).arguments := rfl
  have hargs₂ : (cx.withElements (es ++ es')).arguments = (cx.withElements es').arguments := rfl
  have hengine₁ : (cx.withElements (es ++ es')).engine = (cx.withElements es).engine := rfl
  have hengine₂ : (cx.withElements (es ++ es')).engine = (cx.withElements es').engine := rfl
  let whole : Plan :=
    { q with steps := q.steps ++ q'.steps.map (Step.renamed (raised (g.nodes.length - 1))) }
  -- so its plan is the first's steps, then the second's with their numbers raised
  have hof : ofGraph (cx.withElements (es ++ es')) j₁ = .ok whole := by
    refine ofGraph_eq_ok_iff.2
      ⟨checkEdges_juxtaposed hjoint hengine₁ hengine₂ hedges hedges',
        explore_juxtaposed hjoint hrp hrg hengine₁ hengine₂ hvisible hrj.regular.anchor hwalk hwalk',
        ?_, hargs, hengine⟩
    have hunnamed := (ofGraph_eq_ok_iff.1 hq).2.2.1
    have hunnamed' := (ofGraph_eq_ok_iff.1 hq').2.2.1
    rw [List.any_append, List.any_map, hunnamed, Bool.false_or, ← hunnamed']
    exact congrArg _ (funext fun s => bindsUnnamed_renamed s)
  -- expanding goes step by step, so it keeps this form
  have hexpanded : whole.expanded = { q.expanded with
      steps := q.expanded.steps ++
        q'.expanded.steps.map (Step.renamed (raised (g.nodes.length - 1))) } := by
    have hsteps := expandAll_append q.steps
      (q'.steps.map (Step.renamed (raised (g.nodes.length - 1))))
    rw [expandAll_renamed] at hsteps
    exact congrArg (fun steps => { q with steps := steps : Plan }) hsteps
  have hpasses : whole.expanded.check (cx.withElements (es ++ es')) j₁ = .ok () := by
    rw [hexpanded]
    exact check_juxtaposed (surveyed_of_check hrp hp₁ hts hq hcheck)
      (surveyed_of_check hrg hg₁ hts' hq' hcheck') hg hts hg' hts' hdisjoint hargs₁ hargs₂ hlegible
      hcheck hcheck'
  rw [hrp.before.size_eq, ← hexpanded]
  simp only [compile, hj₁, hof, hpasses, bind, Except.bind]
  rfl

/-- A named edge from a node without a name. -/
def departure : List Element :=
  [.text "<>", .text "-x->", .text "b"]

/-- A named edge from a node without a name to a node that is tested. -/
def approach : List Element :=
  [.text "<>", .text "-y->", .text "c", .text ":when", .form arrival]

/-- Nothing is supplied. -/
def unsupplied : Context :=
  { arguments := [], elements := [], engine := .graph }

/-- The graph of the named edge. -/
def departureGraph : PatternGraph :=
  { nodes := [{ kind := .anchor }, { kind := .pattern, tokenIndex? := some 0 },
      { kind := .pattern, name? := "b", tokenIndex? := some 2 }]
    edges := [{ kind := .pattern, alpha := ⟨1⟩, omega := ⟨2⟩, name? := "x", tokenIndex? := some 1 }]
    incidences := [[], [⟨⟨0⟩, ⟨1⟩, ⟨2⟩, .out⟩], [⟨⟨0⟩, ⟨2⟩, ⟨1⟩, .into⟩]]
    names := [("x", .edge ⟨0⟩), ("b", .node ⟨2⟩)] }

/-- The plan for a named edge from a node without a name. -/
def edgePlan (edge node : String) (tests : List Step) : Plan :=
  { steps := [.generate "#1" (.instances .any),
      .generate edge (.adjacent (.var "#1") .any .out),
      .assign node (.edgeEnd (.var edge) .out true), .guard (.present (.var node))] ++ tests
    arguments := [], engine := .graph }

def departureTokens : List Token :=
  [.node { name? := none, typeName? := none, index := 0 },
    .edge { name? := "x", typeName? := none, direction := .out, index := 1 },
    .node { name? := "b", typeName? := none, index := 2 }]

def approachTokens : List Token :=
  [.node { name? := none, typeName? := none, index := 0 },
    .edge { name? := "y", typeName? := none, direction := .out, index := 1 },
    .node { name? := "c", typeName? := none, index := 2 },
    .constraint { constraint := .when arrival, index := 3 }]

/-- Both edges in a row are compiled. Two nodes come before the one at which the second edge starts. -/
theorem Context.compile_append_departure :
    (unsupplied.withElements departure).compile = .ok (edgePlan "x" "b" []) ∧
      (unsupplied.withElements approach).compile =
        .ok (edgePlan "y" "c" [.guard (.call arrival)]) ∧
      (unsupplied.withElements (departure ++ approach)).compile = .ok
        { edgePlan "x" "b" [] with
          steps := (edgePlan "x" "b" []).steps ++
            (edgePlan "y" "c" [.guard (.call arrival)]).steps.map (Step.renamed (raised 2)) } := by
  have hts : Token.classify departure = .ok departureTokens := by cbv
  have hts' : Token.classify approach = .ok approachTokens := by cbv
  have hgraph : ofTokens (unsupplied.withElements departure) departureTokens =
      .ok departureGraph := by cbv
  have hcompile : (unsupplied.withElements departure).compile = .ok (edgePlan "x" "b" []) := by cbv
  have hcompile' : (unsupplied.withElements approach).compile =
      .ok (edgePlan "y" "c" [.guard (.call arrival)]) := by cbv
  have hdisjoint : Token.Disjoint departureTokens approachTokens := by
    simp [Token.Disjoint, departureTokens, approachTokens, Token.names, Constraint.names]
  have hlegible : ∀ c ∈ Token.constraints approachTokens, ∀ f ∈ c.forms, f.Legible := by
    simp [approachTokens, Token.constraints, Token.held?, Constraint.forms, Form.Legible,
      Form.Asks, arrival, Form.requires, isHiddenName]
  have hsize : departureGraph.size = 2 := by decide
  have hwhole := compile_append hts hts' hgraph hcompile hcompile' (.inr ⟨_, _, rfl⟩) hdisjoint
    hlegible
  rw [hsize] at hwhole
  exact ⟨hcompile, hcompile', hwhole⟩

end GraphPattern
