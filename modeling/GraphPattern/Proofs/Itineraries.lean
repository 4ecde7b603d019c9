import GraphPattern.Proofs.ConstraintRows

/-!
# GraphPattern — sources of steps

Nothing in a step says what it was emitted for. Here the walk keeps a record: every visit, with what
it looks at and what it emits. A visit that comes to a row of constraints marks the node of each
constraint as it emits the step of the constraint, so every step that calls a form can be traced to
the constraint that it was spliced from.

## Results

* `Plan.explore_eq_itinerary` — without its record, the walk is the one that makes the plan.
* `Plan.Tour.itinerary_eq` — the record of the walk is the list of its visits.
* `Plan.Tour.fst_sourced` — sources are given to the steps of the plan, one by one.
* `Plan.Tour.source_of_call` — a step that calls a form has a constraint token as its source.
-/

namespace GraphPattern

open PatternGraph PatternGraph.Drawing

/-- Every constraint node is made by a constraint token. -/
theorem PatternGraph.Drawing.Drawn.exists_constraintNode {cx : Context} {ts : List Token}
    {g₀ g : PatternGraph} (h : Drawn cx ts g₀ g) {m : NodeId} (hm : g.IsConstraint m) :
    ∃ p t, ts[p]? = some (.constraint t) ∧ m = nodeAt cx ts p := by
  obtain ⟨⟨k, rfl, -⟩, nd, hnd, hkind⟩ := hm
  rw [node?_natCast, h.nodes_eq] at hnd
  rcases exists_madeNode hnd with rfl | ⟨p, -, hmade, rfl⟩
  · obtain rfl := Option.some.inj hnd
    cases hkind
  · rcases madeNode?_cases hmade with ⟨t, -, -, rfl⟩ | ⟨t, ht, -⟩
    · rw [placeNode] at hkind
      split at hkind <;> cases hkind
    · exact ⟨p, t, ht, (nodeAt_first (home_constraint ht)).symm⟩

namespace Plan

/-! ## The record of the walk -/

/-- The walk through everything on the stack: what its visits look at, and what they emit. -/
def itinerary (cx : Context) (g : PatternGraph) (visited : List Handle) (stack : List Entry) :
    Except Failure (List (Entry × Emission)) :=
  match stack with
  | [] => .ok []
  | .node n :: rest =>
    if hv : Handle.node n ∈ visited then itinerary cx g visited rest
    else
      match h : g.node? n with
      | none => .error (.fault .positionOutside)
      | some node => do
        let e ← visitNode g n node (.node n :: visited)
        have shrinks : unseen g.handles (e.marks ++ .node n :: visited) <
            unseen g.handles visited :=
          unseen_lt (PatternGraph.mem_handles_of_node? h) hv (by simp) (fun y hy => by simp [hy])
        let visits ← itinerary cx g (e.marks ++ .node n :: visited) (e.entries ++ rest)
        return (.node n, e) :: visits
  | .along i :: rest =>
    if hv : Handle.edge i.edge ∈ visited then itinerary cx g visited rest
    else
      match h : g.edge? i.edge with
      | none => .error (.fault .positionOutside)
      | some edge => do
        let e ← visitIncidence cx g i edge (.edge i.edge :: visited)
        have shrinks : unseen g.handles (e.marks ++ .edge i.edge :: visited) <
            unseen g.handles visited :=
          unseen_lt (PatternGraph.mem_handles_of_edge? h) hv (by simp) (fun y hy => by simp [hy])
        let visits ← itinerary cx g (e.marks ++ .edge i.edge :: visited) (e.entries ++ rest)
        return (.along i, e) :: visits
termination_by (unseen g.handles visited, stack.length)

/-- The steps of some visits. -/
def stepsAlong (visits : List (Entry × Emission)) : List Step :=
  visits.flatMap (·.2.steps)

variable {cx : Context} {ts : List Token} {g₀ g : PatternGraph} {visited binds final : List Handle}
  {stack rest : List Entry} {us : List Visit}

theorem itinerary_seen {x : Entry} (seen : x.handle ∈ visited) :
    itinerary cx g visited (x :: rest) = itinerary cx g visited rest := by
  cases x with
  | node n => rw [itinerary]; exact dif_pos seen
  | along i => rw [itinerary]; exact dif_pos seen

theorem itinerary_node {n : NodeId} {nd : PatternNode} {e : Emission}
    (fresh : .node n ∉ visited) (node : g.node? n = some nd)
    (visit : visitNode g n nd (.node n :: visited) = .ok e) :
    itinerary cx g visited (.node n :: rest) =
      (itinerary cx g (e.marks ++ .node n :: visited) (e.entries ++ rest)).map
        ((.node n, e) :: ·) := by
  rw [itinerary, dif_neg fresh]
  split
  · rename_i missing
    rw [node] at missing
    cases missing
  · rename_i nd' hnode
    rw [node] at hnode
    cases hnode
    simp only [visit, bind, Except.bind]
    cases itinerary cx g (e.marks ++ .node n :: visited) (e.entries ++ rest) <;> rfl

theorem itinerary_along {i : Incidence} {edge : PatternEdge} {e : Emission}
    (fresh : .edge i.edge ∉ visited) (hedge : g.edge? i.edge = some edge)
    (visit : visitIncidence cx g i edge (.edge i.edge :: visited) = .ok e) :
    itinerary cx g visited (.along i :: rest) =
      (itinerary cx g (e.marks ++ .edge i.edge :: visited) (e.entries ++ rest)).map
        ((.along i, e) :: ·) := by
  rw [itinerary, dif_neg fresh]
  split
  · rename_i missing
    rw [hedge] at missing
    cases missing
  · rename_i edge' hedge'
    rw [hedge] at hedge'
    cases hedge'
    simp only [visit, bind, Except.bind]
    cases itinerary cx g (e.marks ++ .edge i.edge :: visited) (e.entries ++ rest) <;> rfl

/-- The walk emits the steps of the visits that it records. -/
theorem explore_eq_itinerary (cx : Context) (g : PatternGraph) (visited : List Handle)
    (stack : List Entry) :
    explore cx g visited stack = (itinerary cx g visited stack).map stepsAlong := by
  fun_induction itinerary cx g visited stack with
  | case1 visited => rw [explore]; rfl
  | case2 visited n rest seen ih => rw [explore, dif_pos seen, ih]
  | case3 visited n rest fresh missing => rw [explore_missingNode fresh missing]; rfl
  | case4 visited n rest fresh nd hnode ih =>
    rw [explore_node fresh hnode]
    simp only [bind, Except.bind]
    cases visitNode g n nd (.node n :: visited) with
    | error f => rfl
    | ok e =>
      simp only [ih e]
      cases itinerary cx g (e.marks ++ .node n :: visited) (e.entries ++ rest) <;> rfl
  | case5 visited i rest seen ih => rw [explore, dif_pos seen, ih]
  | case6 visited i rest fresh missing => rw [explore_missingEdge fresh missing]; rfl
  | case7 visited i rest fresh edge hedge ih =>
    rw [explore_along fresh hedge]
    simp only [bind, Except.bind]
    cases visitIncidence cx g i edge (.edge i.edge :: visited) with
    | error f => rfl
    | ok e =>
      simp only [ih e]
      cases itinerary cx g (e.marks ++ .edge i.edge :: visited) (e.entries ++ rest) <;> rfl

/-- The record of the walk is the list of its visits. -/
theorem Tour.itinerary_eq (hr : Rooted cx g₀ g)
    (h : Tour cx g₀ g visited binds stack us final) :
    itinerary cx g visited stack = .ok (us.map fun u => (u.entry, u.emission)) := by
  induction h with
  | done => rw [itinerary]; rfl
  | skip seen _ ih => rw [itinerary_seen seen, ih]
  | @visit u rest us final made _ ih =>
    obtain ⟨visited, binds, x, em, own⟩ := u
    cases x with
    | node n =>
      obtain ⟨nd, hnode⟩ := (made.frontier.isNode_of_mem hr (List.mem_cons_self)).exists_node
      rw [itinerary_node made.fresh hnode (made.emits.visitNode_eq hnode)]
      exact congrArg (Except.map _) ih
    | along i =>
      obtain ⟨⟨edge, hedge, -⟩, -⟩ := made.frontier.along i (List.mem_cons_self)
      rw [itinerary_along made.fresh hedge (made.emits.visitIncidence_eq hedge)]
      exact congrArg (Except.map _) ih

/-! ## Sources -/

/-- The nodes among what a visit marks, in the order in which they are marked. -/
def markedNodes (marks : List Handle) : List NodeId :=
  marks.filterMap fun
    | .node n => some n
    | .edge _ => none

/-- The steps that a visit emits. If it comes to a row of constraints, each step has the node of the
constraint that it is spliced from. -/
def sources (g : PatternGraph) : Entry × Emission → List (Step × Option NodeId)
  | (.node _, em) => em.steps.map (·, none)
  | (.along i, em) =>
    if (g.edge? i.edge).any (·.kind = .precedes) then
      em.steps.zip ((markedNodes em.marks).map some)
    else em.steps.map (·, none)

/-- The expanded steps of some visits, each with the node of its constraint, if it has one. -/
def sourced (g : PatternGraph) (visits : List (Entry × Emission)) : List (Step × Option NodeId) :=
  (visits.flatMap (sources g)).flatMap fun x => x.1.expanded.map (·, x.2)

/-- Every spliced step is that of a constraint, whose node is marked along with it. -/
theorem Splices.sources {n : NodeId} {steps : List Step} {marks : List Handle}
    (h : Splices g n visited steps marks) :
    List.Forall₂ (fun s m => ∃ nd c, g.node? m = some nd ∧ nd.constraint? = some c ∧
      s = constraintStep c) steps (markedNodes marks) := by
  induction h with
  | last node form next => exact .cons ⟨_, _, node, form, rfl⟩ .nil
  | next node form next _ ih => exact .cons ⟨_, _, node, form, rfl⟩ ih

theorem sources_of_precedes {i : Incidence} (hp : g.Precedes i) (em : Emission) :
    sources g (.along i, em) = em.steps.zip ((markedNodes em.marks).map some) := by
  obtain ⟨e, he, hk⟩ := hp
  rw [sources, he, Option.any_some, if_pos (decide_eq_true hk)]

theorem sources_of_not_precedes {x : Entry} (hx : ∀ i, x = .along i → ¬ g.Precedes i)
    (em : Emission) : sources g (x, em) = em.steps.map (·, none) := by
  cases x with
  | node n => rfl
  | along i =>
    refine if_neg fun hany => hx i rfl ?_
    obtain ⟨e, he, hk⟩ := (Option.any_eq_true _ _).1 hany
    exact ⟨e, he, of_decide_eq_true hk⟩

/-- Every visit comes to a row of constraints or not. -/
theorem precedes_cases (g : PatternGraph) (x : Entry) :
    (∃ i, x = .along i ∧ g.Precedes i) ∨ ∀ i, x = .along i → ¬ g.Precedes i := by
  by_cases hrow : ∃ i, x = .along i ∧ g.Precedes i
  · exact .inl hrow
  · exact .inr fun i hi hp => hrow ⟨i, hi, hp⟩

/-- Every step of a visit gets one source. -/
theorem Visit.Made.fst_sources {u : Visit} (hmade : u.Made cx g₀ g rest) :
    (sources g (u.entry, u.emission)).map Prod.fst = u.emission.steps := by
  rcases precedes_cases g u.entry with ⟨i, hi, hp⟩ | hnone
  · have hemits := hmade.emits
    rw [hi] at hemits
    have hlength := (Emits.splices_of_precedes hp hemits).2.sources.length_eq
    rw [hi, sources_of_precedes hp, List.map_fst_zip]
    rw [List.length_map]
    exact Nat.le_of_eq hlength
  · rw [sources_of_not_precedes hnone, List.map_map]
    exact List.map_id _

/-- A step that calls a form has a constraint as its source. -/
theorem Visit.Made.source_of_call (h : Drawn cx ts g₀ g) {u : Visit}
    (hmade : u.Made cx g₀ g rest) {s₀ s : Step} {source : Option NodeId}
    (hsource : (s₀, source) ∈ sources g (u.entry, u.emission)) (hs : s ∈ s₀.expanded)
    (hcalls : s.callsForm = true) :
    ∃ n nd c, source = some n ∧ g.IsConstraint n ∧ g.node? n = some nd ∧
      nd.constraint? = some c ∧ s₀ = constraintStep c := by
  rcases precedes_cases g u.entry with ⟨i, hi, hp⟩ | hnone
  · have hmade' : Frontier g₀ g u.visited u.binds (.along i :: rest) ∧
        Emits cx g (.edge i.edge :: u.visited) (.along i) u.emission u.own := by
      have hfrontier := hmade.frontier
      have hemits := hmade.emits
      rw [hi] at hfrontier hemits
      exact ⟨hfrontier, hemits⟩
    obtain ⟨-, hsplices⟩ := Emits.splices_of_precedes hp hmade'.2
    obtain ⟨-, hspliced⟩ := hmade'.1.followConstraints h.rooted hp hsplices
    rw [hi, sources_of_precedes hp, List.zip_map_right] at hsource
    obtain ⟨⟨s₁, n⟩, hzip, heq⟩ := List.mem_map.1 hsource
    obtain ⟨rfl, rfl⟩ := Prod.mk.inj heq
    obtain ⟨nd, c, hnode, hform, rfl⟩ := (List.forall₂_iff_zip.1 hsplices.sources).2 hzip
    have hmarked : Handle.node n ∈ u.emission.marks := by
      obtain ⟨k, hk, hkn⟩ := List.mem_filterMap.1 (List.of_mem_zip hzip).2
      cases k with
      | node m => exact Option.some.inj hkn ▸ hk
      | edge m => exact nomatch hkn
    exact ⟨n, nd, c, rfl, (hspliced.node n hmarked).1, hnode, hform, rfl⟩
  · exfalso
    rw [sources_of_not_precedes hnone] at hsource
    obtain ⟨s₁, hs₁, heq⟩ := List.mem_map.1 hsource
    obtain ⟨rfl, -⟩ := Prod.mk.inj heq
    have hfalse := hmade.emits.not_callsForm h.rooted hmade.frontier hmade.fresh hnone s
      (List.mem_flatMap.2 ⟨s₁, hs₁, hs⟩)
    rw [hcalls] at hfalse
    exact nomatch hfalse

namespace Tour

/-- Sources are given to the steps of the visits, one by one. -/
theorem fst_sourced (h : Tour cx g₀ g visited binds stack us final) :
    (sourced g (us.map fun u => (u.entry, u.emission))).map Prod.fst = stepsOf us := by
  rw [sourced, List.flatMap_map, List.map_flatMap, List.flatMap_assoc, stepsOf]
  refine List.flatMap_congr fun u hu => ?_
  obtain ⟨rest, hmade⟩ := h.made hu
  rw [expandAll, ← hmade.fst_sources, List.flatMap_map]
  refine List.flatMap_congr fun x _ => ?_
  rw [List.map_map]
  exact List.map_id _

/-- A step of the visits that calls a form was spliced from the node of a constraint token. -/
theorem source_of_call (h : Drawn cx ts g₀ g) (htour : Tour cx g₀ g visited binds stack us final)
    {s : Step} {source : Option NodeId}
    (hs : (s, source) ∈ sourced g (us.map fun u => (u.entry, u.emission)))
    (hcalls : s.callsForm = true) :
    ∃ n t, source = some n ∧ .constraint t ∈ ts ∧ g.node? n = some (constraintNode t) ∧
      s ∈ (constraintStep t.constraint).expanded := by
  obtain ⟨⟨s₀, source'⟩, hx, hsx⟩ := List.mem_flatMap.1 hs
  obtain ⟨s', hs', heq⟩ := List.mem_map.1 hsx
  obtain ⟨rfl, rfl⟩ := Prod.mk.inj heq
  obtain ⟨v, hv, hsource⟩ := List.mem_flatMap.1 hx
  obtain ⟨u, hu, rfl⟩ := List.mem_map.1 hv
  obtain ⟨rest, hmade⟩ := htour.made hu
  obtain ⟨n, nd, c, hsome, hcon, hnode, hform, rfl⟩ :=
    hmade.source_of_call h hsource hs' hcalls
  obtain ⟨p, t, ht, rfl⟩ := h.exists_constraintNode hcon
  have hnd := (h.node?_constraint ht).2
  rw [hnode] at hnd
  obtain rfl := Option.some.inj hnd
  obtain rfl : t.constraint = c := Option.some.inj hform
  exact ⟨_, t, hsome, List.mem_of_getElem? ht, hnode, hs'⟩

end Tour

end Plan

end GraphPattern
