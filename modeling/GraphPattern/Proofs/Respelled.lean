import GraphPattern.Proofs.Exhaustive
import GraphPattern.Proofs.Respellings
import GraphPattern.Proofs.WovenSteps

/-!
# GraphPattern — plans of respelled patterns

The walk through a graph looks at kinds, types and places, and at a name only to write it down. So the
plan of a respelled pattern is the plan of the pattern with other names, and what is refused of the one
is refused of the other.

## Results

* `Chain.walk_respelled`, `Plan.explore_respelled` — the walk through a graph with other names.
* `Plan.check_respelled` — what is checked of a plan with other names.
* `Context.Respelled.compile` — the compilation under a spelling of all texts.
-/

namespace GraphPattern

open PatternGraph

variable {ρ : String → String} {cx cx' : Context} (g : PatternGraph)

-- ---------------------------------------------------------------------------
-- Chains
-- ---------------------------------------------------------------------------

namespace Chain

theorem edgeSegment_respelled (hcx : Context.Respelled ρ cx cx') (e : PatternEdge)
    (d : Direction) :
    Corresponds id (cx.edgeSegment e d) (cx'.edgeSegment (e.respelled ρ) d) := by
  unfold Context.edgeSegment
  rw [hcx.engine]
  cases cx.engine <;> cases d
  case containment.into => exact .refuse cx cx' _
  all_goals exact .ok rfl

theorem pending_respelled (n : NodeId) (visited : List Handle) :
    Corresponds (List.map fun x => (x.1, x.2.respelled ρ))
      (Failure.ofFault (pending g n visited))
      (Failure.ofFault (pending (g.respelled ρ) n visited)) := by
  simp only [pending, incidencesOf_respelled]
  cases g.incidencesOf n with
  | error f => exact .fault f
  | ok l =>
    refine .ok ?_
    rw [List.map_filterMap]
    refine List.filterMap_congr fun i _ => ?_
    by_cases hseen : Handle.edge i.edge ∈ visited
    · simp [hseen]
    · simp [hseen, Function.comp_def]

/-- A chain goes on in the same way, if it does so from the next node. -/
theorem onward_respelled (hcx : Context.Respelled ρ cx cx') (n : NodeId) (nd : PatternNode)
    (visited : List Handle) (left : List (Incidence × PatternEdge))
    (hwalk : ∀ i : Incidence,
      Corresponds id (walk cx g i.that (.edge i.edge :: .node n :: visited))
        (walk cx' (g.respelled ρ) i.that (.edge i.edge :: .node n :: visited))) :
    Corresponds id (onward cx g n nd visited left)
      (onward cx' (g.respelled ρ) n (nd.respelled ρ) visited
        (left.map fun x => (x.1, x.2.respelled ρ))) := by
  -- respelling leaves the kinds of the edges, and so which of them go on
  have hfilter : ∀ f : EdgeKind → Bool,
      (left.map fun x => (x.1, x.2.respelled ρ)).filter (fun x => f x.2.kind) =
        (left.filter fun x => f x.2.kind).map fun x => (x.1, x.2.respelled ρ) :=
    fun f => List.filter_map
  have hstructural := hfilter EdgeKind.structural
  have hprecedes : ((left.map fun x => (x.1, x.2.respelled ρ)).filter
        (fun x => decide (x.2.kind = .precedes))).map (·.1) =
      (left.filter fun x => decide (x.2.kind = .precedes)).map (·.1) := by
    rw [hfilter fun k => decide (k = .precedes), List.map_map]
    rfl
  unfold onward
  simp only [hstructural, hprecedes]
  -- how many edges go on decides what the chain does
  cases left.filter (·.2.kind.structural) with
  | nil => exact .ok rfl
  | cons x more =>
    obtain ⟨i, e⟩ := x
    cases more with
    | nil =>
      simp only [List.map_cons, List.map_nil, PatternEdge.anonymous_respelled]
      cases e.anonymous with
      | false => exact .ok rfl
      | true =>
        refine (edgeSegment_respelled hcx e i.direction).bind fun segment _ => ?_
        exact (hwalk i).bind fun rest _ => .ok rfl
    | cons y more => exact .refuse cx cx' _

/-- A chain in a graph with other names takes the same way. -/
theorem walk_respelled (hcx : Context.Respelled ρ cx cx') (n : NodeId) (visited : List Handle) :
    Corresponds id (walk cx g n visited) (walk cx' (g.respelled ρ) n visited) := by
  induction hm : unseen g.handles visited using Nat.strongRecOn generalizing n visited with
  | ind m ih =>
    cases hnode : g.node? n with
    | none =>
      rw [walk_missing hnode, walk_missing (by rw [node?_respelled, hnode]; rfl)]
      exact .fault _
    | some nd =>
      have hnode' : (g.respelled ρ).node? n = some (nd.respelled ρ) := node?_respelled_of_eq hnode
      by_cases hknown : nd.anonymous = false ∨ .node n ∈ visited
      · rw [walk_known hnode hknown,
          walk_known hnode' (by rwa [PatternNode.anonymous_respelled])]
        exact .ok rfl
      · rw [walk_fresh hnode hknown, walk_fresh hnode' (by rwa [PatternNode.anonymous_respelled])]
        refine (pending_respelled g n _).bind fun left _ => onward_respelled g hcx n nd visited left
          fun i => ih _ ?_ _ _ rfl
        rw [← hm]
        exact unseen_lt (mem_handles_of_node? hnode) (fun hmem => hknown (.inr hmem)) (by simp)
          (fun y hy => by simp [hy])

theorem fromEdge_respelled (hcx : Context.Respelled ρ cx cx') (i : Incidence)
    (visited : List Handle) :
    Corresponds id (fromEdge cx g i visited) (fromEdge cx' (g.respelled ρ) i visited) := by
  unfold fromEdge
  rw [edge?_respelled]
  cases g.edge? i.edge with
  | none => exact .fault _
  | some e =>
    refine (edgeSegment_respelled hcx e i.direction).bind fun segment _ => ?_
    exact (walk_respelled g hcx i.that _).bind fun rest _ => .ok rfl

end Chain

-- ---------------------------------------------------------------------------
-- Visits
-- ---------------------------------------------------------------------------

namespace Plan

/-- The emission with other names in its steps. -/
def Emission.respelled (ρ : String → String) (em : Emission) : Emission :=
  { em with steps := em.steps.map (Step.respelled ρ) }

theorem varOf_respelled (hρ : Faithful ρ) (n : NodeId) :
    varOf (g.respelled ρ) n = ρ (varOf g n) := by
  have hname : ((g.respelled ρ).node? n).bind (·.name?) = ((g.node? n).bind (·.name?)).map ρ := by
    rw [node?_respelled, Option.bind_map, Option.map_bind]
    rfl
  have hhidden : isHiddenName s!"#{n.index}" = true := by
    simp only [isHiddenName, String.toList_append]
    rfl
  unfold varOf
  rw [hname]
  -- what has no name has a hidden variable, which no spelling changes
  cases (g.node? n).bind (·.name?) with
  | none => exact (hρ.hidden _ hhidden).symm
  | some name => rfl

@[simp] theorem pendingEntries_respelled (n : NodeId) (visited : List Handle) :
    pendingEntries (g.respelled ρ) n visited = pendingEntries g n visited := by
  simp only [pendingEntries, incidencesOf_respelled]

theorem emitChain_respelled (hρ : Faithful ρ) (start : Expr) (c : Chain)
    (visited : List Handle) :
    Corresponds (Emission.respelled ρ) (emitChain g start c visited)
      (emitChain (g.respelled ρ) (start.respelled ρ) c visited) := by
  unfold emitChain
  rw [node?_respelled]
  cases g.node? c.terminal with
  | none => exact .fault _
  | some nd =>
    simp only [Option.map_some, pendingEntries_respelled, varOf_respelled g hρ,
      PatternNode.kind_respelled, PatternNode.anonymous_respelled]
    refine (Corresponds.refl _).bind fun es _ => ?_
    by_cases hknown : Handle.node c.terminal ∈ visited ∨ nd.kind = .argument
    · simp only [if_pos hknown]
      exact .ok rfl
    · simp only [if_neg hknown]
      cases nd.anonymous && !c.openEnd <;> exact .ok rfl

/-- The far end of a named edge with another name. -/
theorem bindFarEnd_respelled (hcx : Context.Respelled ρ cx cx') (hρ : Faithful ρ) (i : Incidence)
    (edge : Expr) (visited : List Handle) :
    Corresponds (Emission.respelled ρ) (bindFarEnd cx g i edge visited)
      (bindFarEnd cx' (g.respelled ρ) i (edge.respelled ρ) visited) := by
  unfold bindFarEnd
  rw [node?_respelled]
  cases g.node? i.that with
  | none => exact .fault _
  | some nd =>
    simp only [Option.map_some, pendingEntries_respelled, varOf_respelled g hρ,
      PatternNode.kind_respelled, PatternNode.typeName?_respelled]
    -- the far end is known on both sides or on neither
    by_cases hknown : Handle.node i.that ∈ visited ∨ nd.kind = .argument
    · simp only [if_pos hknown]
      exact (Corresponds.refl _).bind fun es _ => .ok rfl
    · simp only [if_neg hknown]
      cases hname : nd.name? with
      | none =>
        simp only [PatternNode.respelled, hname, Option.map_none]
        exact (Chain.walk_respelled g hcx i.that visited).bind fun c _ =>
          emitChain_respelled g hρ (.edgeEnd edge i.direction true) c visited
      | some name =>
        simp only [PatternNode.respelled, hname, Option.map_some]
        refine (Corresponds.refl _).bind fun es _ => ?_
        cases nd.typeName? with
        | none => exact .ok rfl
        | some type => cases htest : type.isEmpty <;> simp only [htest] <;> exact .ok rfl

theorem constraintStep_respelled (c : Constraint) :
    constraintStep (c.respelled ρ) = (constraintStep c).respelled ρ := by
  cases c with
  | when f | whilst f => rfl
  | bind bs => simp [Constraint.respelled, constraintStep, Step.respelled, Expr.respelled]

theorem nextConstraint?_respelled (n : NodeId) (visited : List Handle) :
    nextConstraint? (g.respelled ρ) n visited = nextConstraint? g n visited := by
  simp only [nextConstraint?, placeOf?, nodes_respelled, List.length_map, incidencesAt_respelled,
    edge?_respelled, Option.any_map]
  rfl

theorem spliceConstraints_respelled (n : NodeId) (visited : List Handle) :
    Corresponds (fun spliced => (spliced.1.map (Step.respelled ρ), spliced.2))
      (spliceConstraints g n visited) (spliceConstraints (g.respelled ρ) n visited) := by
  -- on how much is unseen, which the respelling does not change
  induction hm : unseen g.handles visited using Nat.strongRecOn generalizing n visited with
  | ind m ih =>
    cases hnode : g.node? n with
    | none =>
      unfold spliceConstraints
      simp only [node?_respelled, hnode, Option.map_none]
      exact .fault _
    | some nd =>
      cases hform : nd.constraint? with
      | none =>
        unfold spliceConstraints
        simp only [node?_respelled, hnode, Option.map_some, PatternNode.respelled, hform,
          Option.map_none]
        exact .fault _
      | some c =>
        have hform' : (nd.respelled ρ).constraint? = some (c.respelled ρ) := by
          simp only [PatternNode.respelled, hform, Option.map_some]
        rw [spliceConstraints_of_form visited hnode hform,
          spliceConstraints_of_form visited (node?_respelled_of_eq hnode) hform',
          nextConstraint?_respelled, constraintStep_respelled]
        cases hnext : nextConstraint? g n visited with
        | none => exact .ok rfl
        | some i =>
          obtain ⟨-, ⟨e, he, -⟩, hnew⟩ := nextConstraint?_some hnext
          refine (ih _ ?_ i.that _ rfl).bind fun spliced _ => .ok rfl
          rw [← hm]
          exact unseen_lt (mem_handles_of_edge? he) hnew (by simp) (fun y hy => by simp [hy])

/-- Following an edge in a graph with other names. -/
theorem visitIncidence_respelled (hcx : Context.Respelled ρ cx cx') (hρ : Faithful ρ)
    (i : Incidence) (e : PatternEdge) (visited : List Handle) :
    Corresponds (Emission.respelled ρ) (visitIncidence cx g i e visited)
      (visitIncidence cx' (g.respelled ρ) i (e.respelled ρ) visited) := by
  have hkind : (e.respelled ρ).kind = e.kind := rfl
  have hname : (e.respelled ρ).name? = e.name?.map ρ := rfl
  have htype : (e.respelled ρ).typeName? = e.typeName? := rfl
  unfold visitIncidence
  simp only [hkind, hname, htype, varOf_respelled g hρ, hcx.engine]
  -- the edge's kind and whether it has a name decide what is done, and both are unchanged
  cases e.kind with
  | start => exact .ok rfl
  | precedes =>
    exact (spliceConstraints_respelled g i.that visited).bind fun spliced _ => .ok rfl
  | argument =>
    cases e.name? with
    | none =>
      exact (bindFarEnd_respelled g hcx hρ i .unnamed visited).bind fun em _ => .ok rfl
    | some name =>
      exact (bindFarEnd_respelled g hcx hρ i (.var name) visited).bind fun em _ => .ok rfl
  | pattern =>
    cases e.name? with
    | none =>
      exact (Chain.fromEdge_respelled g hcx i visited).bind fun c _ =>
        emitChain_respelled g hρ (.var (varOf g i.this)) c visited
    | some name =>
      simp only [Option.map_some]
      split
      · exact (bindFarEnd_respelled g hcx hρ i (.var name) visited).bind fun em _ => .ok rfl
      · exact .fault _

theorem visitNode_respelled (hρ : Faithful ρ) (n : NodeId) (nd : PatternNode)
    (visited : List Handle) :
    Corresponds (Emission.respelled ρ) (visitNode g n nd visited)
      (visitNode (g.respelled ρ) n (nd.respelled ρ) visited) := by
  have hsteps : nodeSteps (g.respelled ρ) n (nd.respelled ρ) =
      (nodeSteps g n nd).map (Step.respelled ρ) := by
    obtain ⟨kind, name?, typeName?, constraint?, index?⟩ := nd
    cases kind <;> cases name? <;>
      simp [nodeSteps, PatternNode.respelled, varOf_respelled g hρ, Step.respelled, Expr.respelled]
  simp only [visitNode, hsteps, pendingEntries_respelled]
  exact (Corresponds.refl _).bind fun es _ => .ok rfl

/-- The walk through a graph with other names emits the same steps with other names. -/
theorem explore_respelled (hcx : Context.Respelled ρ cx cx') (hρ : Faithful ρ)
    (visited : List Handle) (stack : List Entry) :
    Corresponds (List.map (Step.respelled ρ)) (explore cx g visited stack)
      (explore cx' (g.respelled ρ) visited stack) := by
  -- along the exploration; what is missing on one side is missing on the other
  fun_induction explore cx g visited stack with
  | case1 visited =>
    rw [explore]
    exact .ok rfl
  | case2 visited n rest hv ih =>
    rw [explore, dif_pos hv]
    exact ih
  | case3 visited n rest hv hnode =>
    rw [explore_missingNode hv (by rw [node?_respelled, hnode]; rfl)]
    exact .fault _
  | case4 visited n rest hv nd hnode ih =>
    rw [explore_node hv (node?_respelled_of_eq hnode)]
    refine (visitNode_respelled g hρ n nd _).bind fun em _ => ?_
    refine (ih em).bind fun steps _ => ?_
    exact .ok List.map_append.symm
  | case5 visited i rest hv ih =>
    rw [explore, dif_pos hv]
    exact ih
  | case6 visited i rest hv hedge =>
    rw [explore_missingEdge hv (by rw [edge?_respelled, hedge]; rfl)]
    exact .fault _
  | case7 visited i rest hv e hedge ih =>
    rw [explore_along hv (edge?_respelled_of_eq hedge)]
    refine (visitIncidence_respelled g hcx hρ i e _).bind fun em _ => ?_
    refine (ih em).bind fun steps _ => ?_
    exact .ok List.map_append.symm

-- ---------------------------------------------------------------------------
-- Plans
-- ---------------------------------------------------------------------------

theorem checkEdges_respelled (hcx : Context.Respelled ρ cx cx') :
    Corresponds id (checkEdges cx g) (checkEdges cx' (g.respelled ρ)) := by
  have hedge : ∀ e : PatternEdge,
      Corresponds id (checkEdge cx e) (checkEdge cx' (e.respelled ρ)) := by
    intro e
    obtain ⟨kind, alpha, omega, name?, typeName?, index?⟩ := e
    cases kind <;> cases name?
    case argument.none | argument.some | pattern.some => exact .refuse cx cx' _
    all_goals exact .ok rfl
  unfold checkEdges
  rw [hcx.engine, edges_respelled]
  split
  · exact .ok rfl
  · induction g.edges with
    | nil => exact .ok rfl
    | cons e es ih => exact (hedge e).bind fun _ _ => ih

theorem bindsUnnamed_respelled (s : Step) : bindsUnnamed (s.respelled ρ) = bindsUnnamed s := by
  cases s with
  | assign name e => cases e <;> rfl
  | generate | assignAll | guard | whilst | foreign => rfl

/-- What has other names in a graph has them in its plan. -/
theorem ofGraph_respelled (hcx : Context.Respelled ρ cx cx') (hρ : Faithful ρ) :
    Corresponds (Plan.respelled ρ) (ofGraph cx g) (ofGraph cx' (g.respelled ρ)) := by
  refine (checkEdges_respelled g hcx).bind fun _ _ => ?_
  refine (explore_respelled g hcx hρ [] [.node g.anchor]).bind fun steps _ => ?_
  have hunnamed : (steps.map (Step.respelled ρ)).any bindsUnnamed = steps.any bindsUnnamed := by
    rw [List.any_map]
    exact congrArg steps.any (funext bindsUnnamed_respelled)
  simp only [hunnamed, hcx.arguments, hcx.engine]
  cases steps.any bindsUnnamed with
  | true => exact .fault _
  | false => exact .ok rfl

end Plan

-- ---------------------------------------------------------------------------
-- Steps
-- ---------------------------------------------------------------------------

theorem Expr.forms_respelled (e : Expr) : (e.respelled ρ).forms = e.forms := by
  induction e <;> simp_all [Expr.respelled, Expr.forms]

namespace Step

theorem forms_respelled (s : Step) : (s.respelled ρ).forms = s.forms := by
  cases s <;> simp [respelled, forms, Expr.forms_respelled, List.flatMap_map]

theorem boundNames_respelled (s : Step) : (s.respelled ρ).boundNames = s.boundNames.map ρ := by
  cases s <;> simp [respelled, boundNames, Function.comp_def]

theorem expanded_respelled (s : Step) :
    (s.respelled ρ).expanded = s.expanded.map (Step.respelled ρ) := by
  cases s with
  | assignAll bs =>
    simp only [respelled, expanded, List.flatMap_map, List.map_flatMap]
    rfl
  | generate | assign | guard | whilst | foreign => rfl

end Step

-- ---------------------------------------------------------------------------
-- Checks
-- ---------------------------------------------------------------------------

namespace Plan

theorem boundNames_respelled (p : Plan) : (p.respelled ρ).boundNames = p.boundNames.map ρ := by
  simp only [boundNames, respelled, List.flatMap_map, List.map_flatMap, Step.boundNames_respelled]

theorem expanded_respelled (p : Plan) : (p.respelled ρ).expanded = p.expanded.respelled ρ := by
  simp only [expanded, respelled, List.flatMap_map, List.map_flatMap, Step.expanded_respelled]

theorem reboundArgument?_respelled (hcx : Context.Respelled ρ cx cx')
    (hρ : Function.Injective ρ) (s : Step) :
    reboundArgument? cx'.arguments (s.respelled ρ) =
      (reboundArgument? cx.arguments s).map ρ := by
  cases s with
  | assign name e =>
    cases e
    case argument => rfl
    all_goals
      simp only [Step.respelled, Expr.respelled, reboundArgument?, hcx.contains hρ]
      split <;> rfl
  | generate | assignAll | guard | whilst | foreign => rfl

section NoForms

variable (cx : Context) (g? : Option PatternGraph)

theorem checkForm_of_forms {e : Expr} (h : e.forms = []) (bound : List String) :
    checkForm cx g? bound e = .ok () := by
  refine checkForm_of_ne fun f hf => ?_
  rw [hf] at h
  cases h

theorem checkBindings_of_forms {bs : List (String × Expr)} (h : ∀ b ∈ bs, b.2.forms = [])
    (bound : List String) : ∃ after, checkBindings cx g? bound bs = .ok after := by
  induction bs generalizing bound with
  | nil => exact ⟨bound, rfl⟩
  | cons b bs ih =>
    obtain ⟨after, hafter⟩ := ih (fun c hc => h c (List.mem_cons_of_mem _ hc)) (b.1 :: bound)
    refine ⟨after, ?_⟩
    rw [checkBindings, checkForm_of_forms cx g? (h b List.mem_cons_self)]
    exact hafter

/-- Steps that call no form pass the check of forms. -/
theorem checkSteps_of_forms {steps : List Step} (h : ∀ s ∈ steps, s.forms = [])
    (bound : List String) : ∃ after, steps.foldlM (checkStep cx g?) bound = .ok after := by
  refine foldlM_ok (fun s hs bound => ?_) bound
  have hs := h s hs
  cases s with
  | generate name e => exact ⟨_, rfl⟩
  | assign name e => exact ⟨name :: bound, by rw [checkStep, checkForm_of_forms cx g? hs]; rfl⟩
  | assignAll bs => exact checkBindings_of_forms cx g? (List.flatMap_eq_nil_iff.1 hs) bound
  | guard e | whilst e => exact ⟨bound, by rw [checkStep, checkForm_of_forms cx g? hs]; rfl⟩
  | foreign kind => exact ⟨_, rfl⟩

end NoForms

/-- A plan that calls no form passes the check with other names, or fails it in the same way. -/
theorem check_respelled (hcx : Context.Respelled ρ cx cx') (hρ : Function.Injective ρ)
    (g? g'? : Option PatternGraph) {p : Plan} (hforms : ∀ s ∈ p.steps, s.forms = []) :
    Corresponds id (p.check cx g?) ((p.respelled ρ).check cx' g'?) := by
  -- distinct names stay distinct, so one is repeated where one was
  have hrepeated : repeated (p.respelled ρ).boundNames = [] ↔ repeated p.boundNames = [] := by
    rw [repeated_eq_nil_iff, repeated_eq_nil_iff, boundNames_respelled, List.nodup_map_iff hρ]
  have hrebound : (p.respelled ρ).steps.findSome? (reboundArgument? cx'.arguments) =
      (p.steps.findSome? (reboundArgument? cx.arguments)).map ρ := by
    rw [respelled, List.findSome?_map, List.map_findSome?]
    exact congrArg (List.findSome? · p.steps) (funext (reboundArgument?_respelled hcx hρ))
  have hforms' : ∀ s ∈ (p.respelled ρ).steps, s.forms = [] := by
    intro s hs
    obtain ⟨t, ht, rfl⟩ := List.mem_map.1 hs
    rw [Step.forms_respelled, hforms t ht]
  -- without forms no step can miss a name, so all pass
  obtain ⟨after, hafter⟩ := checkSteps_of_forms cx g? hforms cx.arguments
  obtain ⟨after', hafter'⟩ := checkSteps_of_forms cx' g'? hforms' cx'.arguments
  unfold check
  rw [hafter, hafter', hrebound]
  cases hr : repeated p.boundNames with
  | cons c cs =>
    cases hr' : repeated (p.respelled ρ).boundNames with
    | nil =>
      rw [hrepeated.1 hr'] at hr
      cases hr
    | cons c' cs' => exact .refuse cx cx' none
  | nil =>
    rw [hrepeated.2 hr]
    cases p.steps.findSome? (reboundArgument? cx.arguments) with
    | some name => exact .refuse cx cx' none
    | none => exact .ok rfl

end Plan

-- ---------------------------------------------------------------------------
-- Compilation
-- ---------------------------------------------------------------------------

namespace Context

open Plan

variable {g} in
/-- The plan of a graph of a pattern without constraints calls no form. -/
theorem forms_of_ofGraph {ts : List Token} {p : Plan} (hg : cx.anchoredGraph = .ok g)
    (hts : Token.classify cx.elements = .ok ts) (hnone : Token.constraints ts = [])
    (hp : ofGraph cx g = .ok p) : ∀ s ∈ p.expanded.steps, s.forms = [] := by
  obtain ⟨ts', g₀, hts', hg₀, hr⟩ := rooted_of_anchoredGraph hg
  have hcalls := calls_of_ofGraph hr hg hts hp
  rw [hnone, List.flatMap_nil, List.perm_nil, List.filter_eq_nil_iff] at hcalls
  intro s hs
  simpa [Step.callsForm] using hcalls s hs

/-- The compilation does not notice how names are spelled. -/
theorem Respelled.compile (hcx : Context.Respelled ρ cx cx') (hρ : Faithful ρ) :
    Corresponds (Plan.respelled ρ) cx.compile cx'.compile := by
  obtain ⟨ts, hts, -, hnone⟩ := Token.classify_respelled hcx.elements
  refine (hcx.anchoredGraph hρ.injective).bind fun g hg => ?_
  refine (ofGraph_respelled g hcx hρ).bind fun p hp => ?_
  rw [expanded_respelled]
  exact (check_respelled hcx hρ.injective g _ (forms_of_ofGraph hg hts hnone hp)).bind
    fun _ _ => .ok rfl

end Context

end GraphPattern
