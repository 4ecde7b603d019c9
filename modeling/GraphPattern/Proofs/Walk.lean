import GraphPattern.Proofs.Regular
import GraphPattern.Plan.OfGraph

/-!
# GraphPattern — the walk as a relation

Chains, constraints and the walk itself are computed by recursions that end for their own reasons.
Here each of them is a relation with one rule per way of going on, and holds exactly where the
recursion succeeds. Everything that is proved about plans goes by induction on these rules.

## Results

* `Chain.walk_eq_ok_iff`, `Plan.spliceConstraints_eq_ok_iff`, `Plan.explore_eq_ok_iff` — the
  recursions and the relations agree.
* `Plan.visitIncidence_emits`, `Plan.visitNode_emits` — the few shapes that an emission can have,
  with what it binds.
-/

namespace GraphPattern

variable {cx : Context} {g : PatternGraph}

theorem Failure.ofFault_eq_ok_iff {α : Type _} {r : Except Fault α} {a : α} :
    Failure.ofFault r = .ok a ↔ r = .ok a := by
  cases r <;> simp [Failure.ofFault]

-- ---------------------------------------------------------------------------
-- Chains
-- ---------------------------------------------------------------------------

namespace Chain

/-- A chain from a node on. -/
inductive Walks (cx : Context) (g : PatternGraph) : NodeId → List Handle → Chain → Prop
  | stop {n : NodeId} {nd : PatternNode} {visited : List Handle} (node : g.node? n = some nd)
      (known : nd.anonymous = false ∨ .node n ∈ visited) :
      Walks cx g n visited
        { path := restriction nd, terminal := n, elements := [.node n], constraints := [],
          openEnd := false }
  | last {n : NodeId} {nd : PatternNode} {visited : List Handle}
      {left : List (Incidence × PatternEdge)} (node : g.node? n = some nd)
      (fresh : ¬(nd.anonymous = false ∨ .node n ∈ visited))
      (pending : pending g n (.node n :: visited) = .ok left)
      (closed : left.filter (·.2.kind.structural) = []) :
      Walks cx g n visited
        { path := restriction nd, terminal := n, elements := [.node n],
          constraints := (left.filter (·.2.kind = .precedes)).map (·.1), openEnd := false }
  | openEnd {n : NodeId} {nd : PatternNode} {visited : List Handle}
      {left : List (Incidence × PatternEdge)} {i : Incidence} {e : PatternEdge}
      (node : g.node? n = some nd) (fresh : ¬(nd.anonymous = false ∨ .node n ∈ visited))
      (pending : pending g n (.node n :: visited) = .ok left)
      (only : left.filter (·.2.kind.structural) = [(i, e)]) (named : e.anonymous = false) :
      Walks cx g n visited
        { path := restriction nd, terminal := n, elements := [.node n],
          constraints := (left.filter (·.2.kind = .precedes)).map (·.1), openEnd := true }
  | step {n : NodeId} {nd : PatternNode} {visited : List Handle}
      {left : List (Incidence × PatternEdge)} {i : Incidence} {e : PatternEdge}
      {segment : Segment} {rest : Chain} (node : g.node? n = some nd)
      (fresh : ¬(nd.anonymous = false ∨ .node n ∈ visited))
      (pending : pending g n (.node n :: visited) = .ok left)
      (only : left.filter (·.2.kind.structural) = [(i, e)]) (anonymous : e.anonymous = true)
      (segment_ok : cx.edgeSegment e i.direction = .ok segment)
      (rest_walks : Walks cx g i.that (.edge i.edge :: .node n :: visited) rest) :
      Walks cx g n visited
        { path := restriction nd ++ segment :: rest.path, terminal := rest.terminal
          elements := .node n :: .edge i.edge :: rest.elements
          constraints := (left.filter (·.2.kind = .precedes)).map (·.1) ++ rest.constraints
          openEnd := rest.openEnd }

theorem walk_missing {n : NodeId} {visited : List Handle} (node : g.node? n = none) :
    walk cx g n visited = .error (.fault .positionOutside) := by
  unfold walk
  split
  · rfl
  · rename_i nd hnode
    rw [node] at hnode
    cases hnode

theorem walk_known {n : NodeId} {nd : PatternNode} {visited : List Handle}
    (node : g.node? n = some nd) (known : nd.anonymous = false ∨ .node n ∈ visited) :
    walk cx g n visited = .ok
      { path := restriction nd, terminal := n, elements := [.node n], constraints := [],
        openEnd := false } := by
  unfold walk
  split
  · rename_i hnone
    rw [node] at hnone
    cases hnone
  · rename_i nd' hnode
    rw [node] at hnode
    cases hnode
    simp only [dif_pos known]

/-- How a chain goes on from a node that is unnamed and new, with what is left there. -/
def onward (cx : Context) (g : PatternGraph) (n : NodeId) (nd : PatternNode)
    (visited : List Handle) (left : List (Incidence × PatternEdge)) : Except Failure Chain :=
  let stop (openEnd : Bool) : Chain :=
    { path := restriction nd, terminal := n, elements := [.node n]
      constraints := (left.filter (·.2.kind = .precedes)).map (·.1), openEnd }
  match left.filter (·.2.kind.structural) with
  | [] => .ok (stop false)
  | [(i, e)] =>
    if e.anonymous then do
      let segment ← cx.edgeSegment e i.direction
      let rest ← walk cx g i.that (.edge i.edge :: .node n :: visited)
      return { path := restriction nd ++ segment :: rest.path
               terminal := rest.terminal
               elements := .node n :: .edge i.edge :: rest.elements
               constraints := (left.filter (·.2.kind = .precedes)).map (·.1) ++ rest.constraints
               openEnd := rest.openEnd }
    else .ok (stop true)
  | branches => .error (cx.refuse (.forkedChain branches.length) nd.tokenIndex?)

theorem walk_fresh {n : NodeId} {nd : PatternNode} {visited : List Handle}
    (node : g.node? n = some nd) (fresh : ¬(nd.anonymous = false ∨ .node n ∈ visited)) :
    walk cx g n visited =
      (Failure.ofFault (pending g n (.node n :: visited)) >>= onward cx g n nd visited) := by
  rw [walk]
  split
  · rename_i hnone
    rw [node] at hnone
    cases hnone
  · rename_i nd' hnode
    rw [node] at hnode
    cases hnode
    simp only [dif_neg fresh]
    rfl

/-- A chain goes on along its rules where the rest of it does. -/
theorem walks_of_onward {n : NodeId} {nd : PatternNode} {visited : List Handle}
    {left : List (Incidence × PatternEdge)} {c : Chain} (node : g.node? n = some nd)
    (fresh : ¬(nd.anonymous = false ∨ .node n ∈ visited))
    (hleft : pending g n (.node n :: visited) = .ok left)
    (hrest : ∀ {i : Incidence} {rest : Chain},
      walk cx g i.that (.edge i.edge :: .node n :: visited) = .ok rest →
      Walks cx g i.that (.edge i.edge :: .node n :: visited) rest)
    (h : onward cx g n nd visited left = .ok c) : Walks cx g n visited c := by
  unfold onward at h
  simp only at h
  -- no edge goes on
  split at h
  · rename_i hclosed
    cases h
    exact .last node fresh hleft hclosed
  · -- one does: over it the walk goes on, or with a name it leaves the end open
    rename_i i e honly
    split at h
    · rename_i hanon
      simp only [bind, Except.bind] at h
      split at h
      · cases h
      · rename_i segment hsegment
        split at h
        · cases h
        · rename_i rest hwalk
          cases h
          exact .step node fresh hleft honly hanon hsegment (hrest hwalk)
    · rename_i hnamed
      cases h
      exact .openEnd node fresh hleft honly (by simpa using hnamed)
  · -- with several the walk was refused
    cases h

theorem walks_of_walk {n : NodeId} {visited : List Handle} {c : Chain}
    (h : walk cx g n visited = .ok c) : Walks cx g n visited c := by
  induction hm : unseen g.handles visited using Nat.strongRecOn generalizing n visited c with
  | ind m ih =>
    cases hnode : g.node? n with
    | none =>
      rw [walk_missing hnode] at h
      cases h
    | some nd =>
      by_cases hknown : nd.anonymous = false ∨ .node n ∈ visited
      · rw [walk_known hnode hknown] at h
        cases h
        exact .stop hnode hknown
      · rw [walk_fresh hnode hknown] at h
        simp only [bind, Except.bind] at h
        split at h
        · cases h
        · rename_i left hleft
          refine walks_of_onward hnode hknown ((Failure.ofFault_eq_ok_iff).1 hleft)
            (fun hwalk => ih _ ?_ hwalk rfl) h
          rw [← hm]
          exact unseen_lt (PatternGraph.mem_handles_of_node? hnode)
            (fun hmem => hknown (.inr hmem)) (by simp) (fun y hy => by simp [hy])

theorem Walks.walk_eq {n : NodeId} {visited : List Handle} {c : Chain}
    (h : Walks cx g n visited c) : walk cx g n visited = .ok c := by
  induction h with
  | stop node known => exact walk_known node known
  | last node fresh pending closed =>
    rw [walk_fresh node fresh, pending]
    simp only [onward, Failure.ofFault, bind, Except.bind, closed]
  | openEnd node fresh pending only named =>
    rw [walk_fresh node fresh, pending]
    simp only [onward, Failure.ofFault, bind, Except.bind, only, named, Bool.false_eq_true, if_false]
  | step node fresh pending only anonymous segment_ok rest_walks ih =>
    rw [walk_fresh node fresh, pending]
    simp only [onward, Failure.ofFault, bind, Except.bind, only, anonymous, if_true, segment_ok, ih,
      pure, Except.pure]

/-- What is left at a node is left with its edge. -/
theorem edge?_of_pending {n : NodeId} {visited : List Handle}
    {left : List (Incidence × PatternEdge)} (h : pending g n visited = .ok left)
    {x : Incidence × PatternEdge} (hx : x ∈ left) : g.edge? x.1.edge = some x.2 := by
  unfold pending at h
  cases hl : g.incidencesOf n with
  | error f => rw [hl] at h; cases h
  | ok l =>
    rw [hl] at h
    cases h
    obtain ⟨i, -, hi⟩ := List.mem_filterMap.1 hx
    split at hi
    · cases hi
    · obtain ⟨e, he, rfl⟩ := Option.map_eq_some_iff.1 hi
      exact he

/-- A chain is found exactly along its rules. -/
theorem walk_eq_ok_iff {n : NodeId} {visited : List Handle} {c : Chain} :
    walk cx g n visited = .ok c ↔ Walks cx g n visited c :=
  ⟨walks_of_walk, Walks.walk_eq⟩

end Chain

namespace Plan

-- ---------------------------------------------------------------------------
-- Constraints
-- ---------------------------------------------------------------------------

/-- Where the constraints go on from a constraint. -/
def nextConstraint? (g : PatternGraph) (n : NodeId) (visited : List Handle) : Option Incidence :=
  (g.incidencesAt ((g.placeOf? n).getD 0)).find? fun i =>
    (g.edge? i.edge).any (·.kind = .precedes) && decide (Handle.edge i.edge ∉ visited)

theorem nextConstraint?_some {n : NodeId} {visited : List Handle} {i : Incidence}
    (h : nextConstraint? g n visited = some i) :
    i ∈ g.incidencesAt ((g.placeOf? n).getD 0) ∧
      (∃ e, g.edge? i.edge = some e ∧ e.kind = .precedes) ∧ Handle.edge i.edge ∉ visited := by
  have hi := List.find?_some h
  rw [Bool.and_eq_true, decide_eq_true_eq, Option.any_eq_true] at hi
  obtain ⟨⟨e, he, hkind⟩, hnew⟩ := hi
  exact ⟨List.mem_of_find?_eq_some h, ⟨e, he, by simpa using hkind⟩, hnew⟩

/-- The constraints chained from a constraint node on. -/
inductive Splices (g : PatternGraph) :
    NodeId → List Handle → List Step → List Handle → Prop
  | last {n : NodeId} {nd : PatternNode} {c : Constraint} {visited : List Handle}
      (node : g.node? n = some nd) (form : nd.constraint? = some c)
      (next : nextConstraint? g n visited = none) :
      Splices g n visited [constraintStep c] [.node n]
  | next {n : NodeId} {nd : PatternNode} {c : Constraint} {visited : List Handle} {i : Incidence}
      {steps : List Step} {marks : List Handle} (node : g.node? n = some nd)
      (form : nd.constraint? = some c) (next : nextConstraint? g n visited = some i)
      (rest : Splices g i.that (.edge i.edge :: .node n :: visited) steps marks) :
      Splices g n visited (constraintStep c :: steps) (.node n :: .edge i.edge :: marks)

theorem spliceConstraints_missing {n : NodeId} (visited : List Handle) (node : g.node? n = none) :
    spliceConstraints g n visited = .error (.fault .positionOutside) := by
  rw [spliceConstraints]
  simp only [node]

theorem spliceConstraints_formless {n : NodeId} {nd : PatternNode} (visited : List Handle)
    (node : g.node? n = some nd) (form : nd.constraint? = none) :
    spliceConstraints g n visited = .error (.fault .formlessConstraint) := by
  rw [spliceConstraints]
  simp only [node, form]

/-- The constraints from a node that holds one. -/
theorem spliceConstraints_of_form {n : NodeId} {nd : PatternNode} {c : Constraint}
    (visited : List Handle) (node : g.node? n = some nd) (form : nd.constraint? = some c) :
    spliceConstraints g n visited =
      match nextConstraint? g n visited with
      | none => .ok ([constraintStep c], [.node n])
      | some i => do
        let (steps, marks) ← spliceConstraints g i.that (.edge i.edge :: .node n :: visited)
        return (constraintStep c :: steps, .node n :: .edge i.edge :: marks) := by
  rw [spliceConstraints]
  simp only [node, form]
  split
  · rename_i hnone
    have hnone : nextConstraint? g n visited = none := hnone
    rw [hnone]
  · rename_i i hi
    have hi : nextConstraint? g n visited = some i := hi
    rw [hi]

theorem splices_of_spliceConstraints {n : NodeId} {visited : List Handle} {steps : List Step}
    {marks : List Handle} (h : spliceConstraints g n visited = .ok (steps, marks)) :
    Splices g n visited steps marks := by
  -- on how much is unseen: each constraint's edge was new
  induction hm : unseen g.handles visited using Nat.strongRecOn
    generalizing n visited steps marks with
  | ind m ih =>
    cases hnode : g.node? n with
    | none =>
      rw [spliceConstraints_missing visited hnode] at h
      cases h
    | some nd =>
      cases hform : nd.constraint? with
      | none =>
        rw [spliceConstraints_formless visited hnode hform] at h
        cases h
      | some c =>
        rw [spliceConstraints_of_form visited hnode hform] at h
        split at h
        · rename_i hnext
          cases h
          exact .last hnode hform hnext
        · rename_i i hnext
          obtain ⟨-, ⟨e, he, -⟩, hnew⟩ := nextConstraint?_some hnext
          simp only [bind, Except.bind] at h
          split at h
          · cases h
          · rename_i r hrest
            cases h
            refine .next hnode hform hnext (ih _ ?_ hrest rfl)
            rw [← hm]
            exact unseen_lt (PatternGraph.mem_handles_of_edge? he) hnew (by simp)
              (fun y hy => by simp [hy])

theorem Splices.spliceConstraints_eq {n : NodeId} {visited : List Handle} {steps : List Step}
    {marks : List Handle} (h : Splices g n visited steps marks) :
    spliceConstraints g n visited = .ok (steps, marks) := by
  induction h with
  | @last n nd c visited node form next => rw [spliceConstraints_of_form visited node form, next]
  | @next n nd c visited i steps marks node form next rest ih =>
    rw [spliceConstraints_of_form visited node form, next]
    simp only [ih, bind, Except.bind, pure, Except.pure]

/-- Constraints are spliced exactly along these rules. -/
theorem spliceConstraints_eq_ok_iff {n : NodeId} {visited : List Handle} {steps : List Step}
    {marks : List Handle} : spliceConstraints g n visited = .ok (steps, marks) ↔
      Splices g n visited steps marks :=
  ⟨splices_of_spliceConstraints, Splices.spliceConstraints_eq⟩

-- ---------------------------------------------------------------------------
-- The walk
-- ---------------------------------------------------------------------------

/-- The walk through what is on a stack. -/
inductive Walks (cx : Context) (g : PatternGraph) : List Handle → List Entry → List Step → Prop
  | done {visited : List Handle} : Walks cx g visited [] []
  | seenNode {visited : List Handle} {n : NodeId} {rest : List Entry} {steps : List Step}
      (seen : .node n ∈ visited) (rest_walks : Walks cx g visited rest steps) :
      Walks cx g visited (.node n :: rest) steps
  | seenEdge {visited : List Handle} {i : Incidence} {rest : List Entry} {steps : List Step}
      (seen : .edge i.edge ∈ visited) (rest_walks : Walks cx g visited rest steps) :
      Walks cx g visited (.along i :: rest) steps
  | node {visited : List Handle} {n : NodeId} {nd : PatternNode} {e : Emission}
      {rest : List Entry} {steps : List Step} (fresh : .node n ∉ visited)
      (node : g.node? n = some nd) (visit : visitNode g n nd (.node n :: visited) = .ok e)
      (rest_walks : Walks cx g (e.marks ++ .node n :: visited) (e.entries ++ rest) steps) :
      Walks cx g visited (.node n :: rest) (e.steps ++ steps)
  | edge {visited : List Handle} {i : Incidence} {edge : PatternEdge} {e : Emission}
      {rest : List Entry} {steps : List Step} (fresh : .edge i.edge ∉ visited)
      (edge_ok : g.edge? i.edge = some edge)
      (visit : visitIncidence cx g i edge (.edge i.edge :: visited) = .ok e)
      (rest_walks : Walks cx g (e.marks ++ .edge i.edge :: visited) (e.entries ++ rest) steps) :
      Walks cx g visited (.along i :: rest) (e.steps ++ steps)

theorem walks_of_explore {visited : List Handle} {stack : List Entry} {steps : List Step}
    (h : explore cx g visited stack = .ok steps) : Walks cx g visited stack steps := by
  -- along the exploration, whose failing cases give no steps
  fun_induction explore cx g visited stack generalizing steps with
  | case1 visited => cases h; exact .done
  | case2 visited n rest hv ih => exact .seenNode hv (ih h)
  | case3 visited n rest hv hnode => cases h
  | case4 visited n rest hv nd hnode ih =>
    simp only [bind, Except.bind] at h
    split at h
    · cases h
    · rename_i e hvisit
      split at h
      · cases h
      · rename_i more hmore
        cases h
        exact .node hv hnode hvisit (ih e hmore)
  | case5 visited i rest hv ih => exact .seenEdge hv (ih h)
  | case6 visited i rest hv hedge => cases h
  | case7 visited i rest hv edge hedge ih =>
    simp only [bind, Except.bind] at h
    split at h
    · cases h
    · rename_i e hvisit
      split at h
      · cases h
      · rename_i more hmore
        cases h
        exact .edge hv hedge hvisit (ih e hmore)

theorem explore_node {visited : List Handle} {n : NodeId} {nd : PatternNode} {rest : List Entry}
    (fresh : .node n ∉ visited) (node : g.node? n = some nd) :
    explore cx g visited (.node n :: rest) = do
      let e ← visitNode g n nd (.node n :: visited)
      let steps ← explore cx g (e.marks ++ .node n :: visited) (e.entries ++ rest)
      return e.steps ++ steps := by
  rw [explore, dif_neg fresh]
  split
  · rename_i hnone
    rw [node] at hnone
    cases hnone
  · rename_i nd' hnode
    rw [node] at hnode
    cases hnode
    rfl

theorem explore_along {visited : List Handle} {i : Incidence} {e : PatternEdge}
    {rest : List Entry} (fresh : .edge i.edge ∉ visited) (edge : g.edge? i.edge = some e) :
    explore cx g visited (.along i :: rest) = do
      let em ← visitIncidence cx g i e (.edge i.edge :: visited)
      let steps ← explore cx g (em.marks ++ .edge i.edge :: visited) (em.entries ++ rest)
      return em.steps ++ steps := by
  rw [explore, dif_neg fresh]
  split
  · rename_i hnone
    rw [edge] at hnone
    cases hnone
  · rename_i e' hedge
    rw [edge] at hedge
    cases hedge
    rfl

theorem explore_missingNode {visited : List Handle} {n : NodeId} {rest : List Entry}
    (fresh : .node n ∉ visited) (missing : g.node? n = none) :
    explore cx g visited (.node n :: rest) = .error (.fault .positionOutside) := by
  rw [explore, dif_neg fresh]
  split
  · rfl
  · rename_i nd hnode
    rw [missing] at hnode
    cases hnode

theorem explore_missingEdge {visited : List Handle} {i : Incidence} {rest : List Entry}
    (fresh : .edge i.edge ∉ visited) (missing : g.edge? i.edge = none) :
    explore cx g visited (.along i :: rest) = .error (.fault .positionOutside) := by
  rw [explore, dif_neg fresh]
  split
  · rfl
  · rename_i e hedge
    rw [missing] at hedge
    cases hedge

theorem Walks.explore_eq {visited : List Handle} {stack : List Entry} {steps : List Step}
    (h : Walks cx g visited stack steps) : explore cx g visited stack = .ok steps := by
  induction h with
  | done => rw [explore]
  | seenNode seen _ ih =>
    rw [explore, dif_pos seen]
    exact ih
  | seenEdge seen _ ih =>
    rw [explore, dif_pos seen]
    exact ih
  | node fresh node visit _ ih =>
    rw [explore_node fresh node]
    simp only [visit, bind, Except.bind, ih, pure, Except.pure]
  | edge fresh edge_ok visit _ ih =>
    rw [explore_along fresh edge_ok]
    simp only [visit, bind, Except.bind, ih, pure, Except.pure]

/-- The walk succeeds exactly along its rules. -/
theorem explore_eq_ok_iff {visited : List Handle} {stack : List Entry} {steps : List Step} :
    explore cx g visited stack = .ok steps ↔ Walks cx g visited stack steps :=
  ⟨walks_of_explore, Walks.explore_eq⟩

/-- The plan of a graph is the walk through it, if its edges suit the engine. -/
theorem ofGraph_eq_ok_iff {p : Plan} : ofGraph cx g = .ok p ↔
    checkEdges cx g = .ok () ∧ explore cx g [] [.node g.anchor] = .ok p.steps ∧
      p.steps.any bindsUnnamed = false ∧ p.arguments = cx.arguments ∧ p.engine = cx.engine := by
  unfold ofGraph
  constructor
  · intro h
    cases hc : checkEdges cx g with
    | error f => rw [hc] at h; cases h
    | ok u =>
      cases he : explore cx g [] [.node g.anchor] with
      | error f => rw [hc, he] at h; cases h
      | ok steps =>
        simp only [hc, he, bind, Except.bind] at h
        cases hu : steps.any bindsUnnamed with
        | true => rw [hu] at h; cases h
        | false =>
          rw [hu] at h
          cases h
          exact ⟨rfl, rfl, hu, rfl, rfl⟩
  · obtain ⟨steps, arguments, engine⟩ := p
    rintro ⟨hc, he, hu, rfl, rfl⟩
    simp only [hc, he, bind, Except.bind, hu]
    rfl

end Plan

end GraphPattern
