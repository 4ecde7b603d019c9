import GraphPattern.Proofs.BareWalks

/-!
# GraphPattern — plans without constraints

Both graphs are walked alongside each other: what stays is visited in both, and an edge to a
constraint is followed in the one graph alone, where it emits the steps of constraints. Everything is
visited in the end, so the steps of all constraints are among those that are woven in.

## Results

* `Plan.Explores.bare` — the walks through both graphs.
* `Context.bare_compile` — a bare pattern compiles, to the steps of the pattern without those of its
  constraints.
-/

namespace GraphPattern

open PatternGraph

namespace Plan

variable {cx cx' : Context} {q : Renumbering} {g b g₀ : PatternGraph}
  {visited visited' binds : List Handle}

-- ---------------------------------------------------------------------------
-- Constraints
-- ---------------------------------------------------------------------------

/-- What is spliced are the steps of the constraints at the nodes that are marked. -/
theorem Splices.constraints {n : NodeId} {steps : List Step} {marks : List Handle}
    (h : Splices g n visited steps marks) :
    ∃ cs : List Constraint, steps = cs.map constraintStep ∧ ∀ c, c ∈ cs ↔
      ∃ m nd, .node m ∈ marks ∧ g.node? m = some nd ∧ nd.constraint? = some c := by
  -- along the splice: a constraint for each node marked, and no other handle is marked
  induction h with
  | @last n nd c visited node form next =>
    refine ⟨[c], rfl, fun d => ?_⟩
    rw [List.mem_singleton]
    constructor
    · rintro rfl
      exact ⟨n, nd, by simp, node, form⟩
    · rintro ⟨m, nd', hm, hnode, hform⟩
      rw [Handle.node.inj (List.mem_singleton.1 hm), node] at hnode
      cases hnode
      rw [form] at hform
      cases hform
      rfl
  | @next n nd c visited i steps marks node form next rest ih =>
    obtain ⟨cs, rfl, hcs⟩ := ih
    refine ⟨c :: cs, rfl, fun d => ?_⟩
    rw [List.mem_cons, hcs]
    constructor
    · rintro (rfl | ⟨m, nd', hm, hrest⟩)
      · exact ⟨n, nd, by simp, node, form⟩
      · exact ⟨m, nd', by simp [hm], hrest⟩
    · rintro ⟨m, nd', hm, hnode, hform⟩
      simp only [List.mem_cons, Handle.node.injEq, reduceCtorEq, false_or] at hm
      rcases hm with rfl | hm
      · rw [node] at hnode
        cases hnode
        rw [form] at hform
        cases hform
        exact .inl rfl
      · exact .inr ⟨m, nd', hm, hnode, hform⟩

/-- Nothing that is spliced stays. -/
theorem Spliced.not_kept {n : NodeId} {steps : List Step} {marks : List Handle}
    (h : Spliced g₀ g n visited steps marks) : ∀ x ∈ marks, ¬ g.Kept x := by
  rintro (m | k) hx hk
  · exact hk.2 (h.node m hx).1
  · obtain ⟨e, he, hp⟩ := hk
    exact hp (h.kind_eq hx he)

-- ---------------------------------------------------------------------------
-- The walk
-- ---------------------------------------------------------------------------

/-- An entry about a constraint only emits the steps of constraints. -/
theorem Emits.splices {i : Incidence} {em : Emission} {more : List Handle}
    (hi : g.Incident i) (hk : g.keeps i = false) (h : Emits cx g visited (.along i) em more) :
    g.Precedes i ∧ em.entries = [] ∧ Splices g i.that visited em.steps em.marks := by
  obtain ⟨e, he, -⟩ := hi
  have hp : g.Precedes i := ⟨e, he, by simpa [keeps, he] using hk⟩
  exact ⟨hp, h.splices_of_precedes hp⟩

/-- What is visited in both graphs. -/
theorem Walks.visit {x : Entry} {em : Emission} {more : List Handle} {rest : List Entry}
    {steps : List Step} (hnode : ∀ n, x = .node n → ∃ nd, b.node? n = some nd)
    (hedge : ∀ i, x = .along i → ∃ e, b.edge? i.edge = some e) (hfresh : x.handle ∉ visited)
    (h : Emits cx b (x.handle :: visited) x em more)
    (hrest : Walks cx b (em.marks ++ x.handle :: visited) (em.entries ++ rest) steps) :
    Walks cx b visited (x :: rest) (em.steps ++ steps) := by
  cases x with
  | node n =>
    obtain ⟨nd, hnd⟩ := hnode n rfl
    exact .node hfresh hnd (h.visitNode_eq hnd) hrest
  | along i =>
    obtain ⟨e, he⟩ := hedge i rfl
    exact .edge hfresh he (h.visitIncidence_eq he) hrest

theorem Walks.skip {x : Entry} {rest : List Entry} {steps : List Step}
    (hseen : x.handle ∈ visited) (hrest : Walks cx b visited rest steps) :
    Walks cx b visited (x :: rest) steps := by
  cases x with
  | node n => exact .seenNode hseen hrest
  | along i => exact .seenEdge hseen hrest

/-- A walk through the bare graph, and the constraints that the walk through the graph deals with
besides. -/
structure Companion (cx cx' : Context) (q : Renumbering) (g b : PatternGraph)
    (visited visited' : List Handle) (stack : List Entry) (steps : List Step)
    (visitedEnd : List Handle) (steps' : List Step) (cs : List Constraint) : Prop where
  walks : Walks cx' b visited' (bareStack q g stack) steps'
  woven : Woven cx.arguments (Alike q g b) steps steps' cs
  sound : ∀ c ∈ cs, c ∈ g.constraints
  all : ∀ n nd c, .node n ∈ visitedEnd → .node n ∉ visited → g.IsConstraint n →
    g.node? n = some nd → nd.constraint? = some c → c ∈ cs

namespace Companion

variable {visitedEnd own : List Handle} {rest : List Entry} {x : Entry} {em : Emission}
  {steps steps' : List Step} {cs : List Constraint}

/-- What was visited before is passed over in both graphs. -/
theorem skip (hm : Mirrors q g visited visited') (hkept : ∀ n, x = .node n → g.Kept (.node n))
    (hseen : x.handle ∈ visited)
    (hc : Companion cx cx' q g b visited visited' rest steps visitedEnd steps' cs) :
    Companion cx cx' q g b visited visited' (x :: rest) steps visitedEnd steps' cs := by
  refine { hc with walks := ?_ }
  cases x with
  | node n =>
    exact hc.walks.skip (x := .node (q.node n)) ((hm _ (hkept n rfl)).2 hseen)
  | along i =>
    cases hk : g.keeps i with
    | false =>
      rw [bareStack_dropped hk]
      exact hc.walks
    | true =>
      rw [bareStack_kept hk]
      exact hc.walks.skip (x := .along (q.incidence i)) ((hm _ (keeps_iff.1 hk)).2 hseen)

/-- What stays is visited in both graphs. -/
theorem visit (h : Bare q g b) (hr : Rooted cx g₀ g) (hb : b.Consistent)
    (hengine : cx'.engine = cx.engine) (hm : Mirrors q g visited visited')
    (hx : x.stays g = true) (hkept : g.Kept x.handle) (hinc : ∀ i, x = .along i → g.Incident i)
    (hfresh : x.handle ∉ visited) (hemits : Emits cx g (x.handle :: visited) x em own)
    (hrest : ∀ n, .node n ∈ rest → g.Kept (.node n))
    (ih : ∀ {visited'}, (∀ n, .node n ∈ em.entries ++ rest → g.Kept (.node n)) →
      Mirrors q g (em.marks ++ x.handle :: visited) visited' →
      ∃ steps' cs, Companion cx cx' q g b (em.marks ++ x.handle :: visited) visited'
        (em.entries ++ rest) steps visitedEnd steps' cs) :
    ∃ steps' cs, Companion cx cx' q g b visited visited' (x :: rest) (em.steps ++ steps) visitedEnd
      steps' cs := by
  have hseen := hm.cons h hkept
  obtain ⟨em', more', hem, halong⟩ := hemits.bare h hr hb hengine hx
    (by rintro n rfl; exact hkept) hinc hseen
  obtain ⟨steps', cs, hc⟩ := ih (fun n hn =>
    (List.mem_append.1 hn).elim (halong.enter n) (hrest n)) (hseen.append h halong.kept)
  have hwalks := hc.walks
  rw [bareStack_append, ← halong.entries, ← halong.marks] at hwalks
  have hstack : bareStack q g (x :: rest) = x.renumbered q :: bareStack q g rest := by
    cases x with
    | node n => rfl
    | along i => exact bareStack_kept hx rest
  refine ⟨em'.steps ++ steps', cs, ?_, halong.steps.append hc.woven, hc.sound, ?_⟩
  · -- the same entry is visited on the other side, where it is new and its end exists
    rw [← Entry.renumbered_handle] at hem hwalks
    rw [hstack]
    refine Walks.visit ?_ ?_ ?_ hem hwalks
    · intro n hn
      cases x with
      | along i => cases hn
      | node m =>
        cases hn
        exact (h.image m hkept.1).exists_node
    · intro i hi
      cases x with
      | node m => cases hi
      | along j =>
        cases hi
        obtain ⟨e, he, hp⟩ := hkept
        obtain ⟨e', he', -⟩ := h.edge _ e he hp
        exact ⟨e', he'⟩
    · rw [Entry.renumbered_handle]
      exact fun hv => hfresh ((hm _ hkept).1 hv)
  · -- no constraint is left behind by what this visit marks, since all of it is kept
    intro n nd c hin hout hcon
    refine hc.all n nd c hin ?_ hcon
    rw [List.mem_append, List.mem_cons]
    rintro (hmark | hself | hold)
    · exact (halong.kept _ hmark).2 hcon
    · rw [← hself] at hkept
      exact hkept.2 hcon
    · exact hout hold

/-- The constraints behind an edge are dealt with where the bare graph has nothing to visit. -/
theorem splice (hr : Rooted cx g₀ g) {i : Incidence} (hm : Mirrors q g visited visited')
    (hf : Frontier g₀ g visited binds (.along i :: rest)) (hk : g.keeps i = false)
    (hemits : Emits cx g (.edge i.edge :: visited) (.along i) em own)
    (ih : ∀ {visited'}, Mirrors q g (em.marks ++ .edge i.edge :: visited) visited' →
      ∃ steps' cs, Companion cx cx' q g b (em.marks ++ .edge i.edge :: visited) visited'
        rest steps visitedEnd steps' cs) :
    ∃ steps' cs, Companion cx cx' q g b visited visited' (.along i :: rest) (em.steps ++ steps)
      visitedEnd steps' cs := by
  obtain ⟨hp, -, hsplices⟩ := hemits.splices (hf.along i (by simp)).1 hk
  obtain ⟨-, hspliced⟩ := hf.followConstraints hr hp hsplices
  obtain ⟨cs', hcs', hmem⟩ := hsplices.constraints
  -- the edge into the constraints is dropped, so following it is no step on the other side
  have hedge : ∀ y ∈ [Handle.edge i.edge], ¬ g.Kept y := by
    intro y hy
    rw [List.mem_singleton.1 hy]
    exact fun hkept => Bool.false_ne_true (hk.symm.trans (keeps_iff.2 hkept))
  obtain ⟨steps', cs, hc⟩ := ih ((hm.skip hedge).skip hspliced.not_kept)
  refine ⟨steps', cs' ++ cs, ?_, ?_, ?_, ?_⟩
  · rw [bareStack_dropped hk]
    exact hc.walks
  · rw [hcs']
    exact (Woven.constraints cs').append hc.woven
  · -- sound: a spliced constraint sits at a node of the graph
    intro c hmemc
    rcases List.mem_append.1 hmemc with hmemc | hmemc
    · obtain ⟨m, nd, hm, hnode, hform⟩ := (hmem c).1 hmemc
      exact mem_constraints.2 ⟨m, nd, (hspliced.node m hm).1, hnode, hform⟩
    · exact hc.sound c hmemc
  · -- all: a constraint's node is marked by this splice or by what remains
    intro n nd c hin hout hcon hnode hform
    by_cases hmark : .node n ∈ em.marks
    · exact List.mem_append_left _ ((hmem c).2 ⟨n, nd, hmark, hnode, hform⟩)
    · refine List.mem_append_right _ (hc.all n nd c hin ?_ hcon hnode hform)
      simp only [List.mem_append, List.mem_cons, reduceCtorEq, false_or]
      exact fun h => h.elim hmark hout

end Companion

/-- Both graphs are walked alongside each other. -/
theorem Explores.bare (h : Bare q g b) (hr : Rooted cx g₀ g) (hb : b.Consistent)
    (hengine : cx'.engine = cx.engine) {stack : List Entry} {steps : List Step}
    {visitedEnd bindsEnd : List Handle}
    (he : Explores cx g₀ g visited binds stack steps visitedEnd bindsEnd)
    (hstack : ∀ n, .node n ∈ stack → g.Kept (.node n)) (hm : Mirrors q g visited visited') :
    ∃ steps' cs, Companion cx cx' q g b visited visited' stack steps visitedEnd steps' cs := by
  -- along the exploration: a visit is made on both sides, or it only splices constraints in
  induction he generalizing visited' with
  | done =>
    exact ⟨[], [], .done, .done, by simp, fun n nd c hin hout => absurd hin hout⟩
  | @skip visited binds visitedEnd bindsEnd x rest steps seen more ih =>
    obtain ⟨steps', cs, hc⟩ := ih (fun n hn => hstack n (List.mem_cons_of_mem _ hn)) hm
    exact ⟨steps', cs, hc.skip hm (fun n hn => hstack n (by simp [hn])) seen⟩
  | @visit visited binds visitedEnd bindsEnd own x em rest steps frontier fresh emits more ih =>
    have hrest : ∀ n, .node n ∈ rest → g.Kept (.node n) :=
      fun n hn => hstack n (List.mem_cons_of_mem _ hn)
    cases hx : x.stays g with
    | true =>
      have hkept : g.Kept x.handle := by
        cases x with
        | node n => exact hstack n (by simp)
        | along i => exact keeps_iff.1 hx
      have hinc : ∀ i, x = .along i → g.Incident i := by
        rintro i rfl
        exact (frontier.along i (by simp)).1
      exact Companion.visit h hr hb hengine hm hx hkept hinc fresh emits hrest ih
    | false =>
      cases x with
      | node n => cases hx
      | along i =>
        have hentries := (emits.splices (frontier.along i (by simp)).1 hx).2.1
        rw [hentries, List.nil_append] at ih
        exact Companion.splice hr hm frontier hx emits (ih hrest)

-- ---------------------------------------------------------------------------
-- Plans
-- ---------------------------------------------------------------------------

/-- What the plan of a pattern has to do with that of the bare pattern. Neither is expanded. -/
structure Interwoven (cx : Context) (V : String → String → Prop) (p p₀ : Plan)
    (cs : List Constraint) : Prop where
  naming : Naming V
  woven : Woven cx.arguments V p.steps p₀.steps cs
  nodup : p.boundNames.Nodup
  kept : p.expanded.steps.findSome? (reboundArgument? cx.arguments) = none
  reads : Scoped cx.engine cx.arguments p.expanded.steps
  /-- The bare plan does not even read hidden names that are given as arguments. -/
  bareReads : Scoped cx.engine (cx.arguments.filter fun n => !isHiddenName n) p₀.expanded.steps

end Plan

open Plan

/-- A bare pattern compiles, to the steps of the pattern without those of its constraints. -/
theorem Context.bare_compile {cx : Context} {plan : Plan} {ts : List Token}
    (h : cx.compile = .ok plan) (hengine : cx.engine = .graph)
    (hts : Token.classify cx.elements = .ok ts) :
    ∃ V p p₀ cs, plan = Plan.expanded p ∧ cx.bare.compile = .ok (Plan.expanded p₀) ∧
      Interwoven cx V p p₀ cs ∧ ∀ c, c ∈ cs ↔ c ∈ Token.constraints ts := by
  have hscoped := scoped_of_compile h
  obtain ⟨hplan, -⟩ := plan_of_compile h
  obtain ⟨g, p, hg, hp, hcheck, rfl⟩ := compile_ok h
  obtain ⟨_, g₀, -, -, hr⟩ := rooted_of_anchoredGraph hg
  obtain ⟨q, b, b₀, hb, hrb, hbare⟩ := bare_anchoredGraph hg
  obtain ⟨-, -, -, visited, binds, hexplores, hend⟩ := explores_of_ofGraph hr hp
  have hfirst : Mirrors q g [] [] := fun x _ => by simp
  have hsame : cx.bare.engine = cx.engine := rfl
  obtain ⟨steps', cs, ⟨hwalks, hwoven, hsound, hall⟩⟩ :=
    hexplores.bare hbare hr hrb.regular.consistent hsame
      (fun n hn => by
        rw [Entry.node.inj (List.mem_singleton.1 hn)]
        exact hr.regular.kept_anchor)
      hfirst
  rw [bareStack_node, bareStack_nil, hbare.anchor] at hwalks
  have hV := hbare.naming hr.regular hrb.regular
  let p₀ : Plan := { steps := steps', arguments := cx.bare.arguments, engine := cx.bare.engine }
  -- the engine has identity of edges, so no edge is refused on either side
  have hedges : checkEdges cx.bare b = .ok () := by
    rw [checkEdges, if_pos]
    show cx.engine.edgesHaveIdentity = true
    rw [hengine]
    rfl
  have hof : ofGraph cx.bare b = .ok p₀ := by
    simp only [ofGraph, hedges, hwalks.explore_eq, bind, Except.bind, hwoven.bindsUnnamed_eq]
    rfl
  obtain ⟨hrepeated, hkept, -⟩ := check_ok hcheck
  have hnodup : p.boundNames.Nodup := by
    rwa [repeated_eq_nil_iff, boundNames_expanded] at hrepeated
  have hcheck₀ : p₀.expanded.check cx.bare b = .ok () :=
    Woven.check_eq (q := p₀) hV hwoven hnodup
  refine ⟨_, p, p₀, cs, rfl, ?_, ⟨hV, hwoven, hnodup, hkept, hplan ▸ hscoped, ?_⟩, fun c => ?_⟩
  · -- the bare pattern compiles, to the plan found on the walk over its own graph
    simp only [compile, hb, hof, hcheck₀, bind, Except.bind]
    rfl
  · -- its steps use only what is bound: the arguments before it, then what it binds
    obtain ⟨v, bs, hexplores₀, -⟩ := hwalks.explores hrb (.start b₀ b)
    have hknown : ∀ x, Known b [] x →
        x.variable b ∈ cx.arguments.filter fun n => !isHiddenName n := by
      rintro x (hx | hx)
      · cases hx
      · obtain ⟨name, hmem, hname⟩ := hrb.regular.name_of_isArgument hx
        rw [variable_named hname, List.mem_filter, hrb.regular.visible x name hname]
        exact ⟨hmem, rfl⟩
    have hwalked := hexplores₀.walked hrb (identified_of_checkEdges hedges) hknown
    obtain ⟨after, hafter⟩ := hwoven.checkSteps_ok cx b
      (cx.arguments.filter fun n => !isHiddenName n)
    exact hwalked.scoped hafter
  · -- the constraints put in are those of the pattern
    rw [← constraints_of_anchoredGraph hg hts]
    refine ⟨hsound c, fun hc => ?_⟩
    obtain ⟨n, nd, hcon, hnode, hform⟩ := mem_constraints.1 hc
    exact hall n nd c ((hend.complete hr).1 n hcon.1) (by simp) hcon hnode hform

end GraphPattern
