import Mathlib
import GraphPattern.Proofs.Chains

/-!
# GraphPattern — chains as trails

A chain runs along a trail: edges one after the other, each followed from the node to which the one
before it leads. From an unnamed node that is new, it goes on as long as there is one way to do so,
along an unnamed edge, and nowhere else does it end. Where there are several ways there is no chain.
This holds of every consistent graph, whatever its nodes and edges are.

## Results

* `PatternGraph.Leads` — how far the edges that are left at a node force a chain to go.
* `Chain.Walks.exists_follows`, `Chain.Follows` — what a chain is, by the edges it follows.
* `Chain.walk_eq_error_iff` — a chain fails exactly where it is led to a fork.
* `Chain.outcome_of_consistent` — both, for chains that start with an edge or at a node.
-/

namespace GraphPattern

namespace PatternGraph

-- ---------------------------------------------------------------------------
-- Trails
-- ---------------------------------------------------------------------------

section Trails

variable (g : PatternGraph)

/-- The edges of the model that are left to follow at a node, each from every end it has there. -/
def leftAt (n : NodeId) (seen : List Handle) : List Incidence :=
  (incidencesAmong g.edges n).filter fun i =>
    (g.edge? i.edge).any (·.kind.structural) && decide (Handle.edge i.edge ∉ seen)

/-- Each incidence is seen from the node to which the one before it leads, the first from `n`. -/
def IsTrail : NodeId → List Incidence → Prop
  | _, [] => True
  | n, i :: links => g.Incident i ∧ i.this = n ∧ IsTrail i.that links

/-- The node to which a trail leads. -/
def trailEnd : NodeId → List Incidence → NodeId
  | n, [] => n
  | _, i :: links => trailEnd i.that links

/-- The part of a path that follows an edge. -/
def segmentOf (i : Incidence) : Segment :=
  .step i.direction (.ofName? ((g.edge? i.edge).bind (·.typeName?)))

/-- The part of a path that tests a node, if there is a type written at a node of the pattern. -/
def testAt (n : NodeId) : Path :=
  match g.node? n with
  | some ⟨.pattern, _, some type, _, _⟩ => if type = "" then [] else [.restrict (.spec type)]
  | _ => []

/-- A chain that comes to a node is led along some links to another node, with what was seen before
and what was seen by then. Wherever it goes on, its node is unnamed and new, only one edge is left
there, and this edge is unnamed. -/
inductive Leads : NodeId → List Handle → List Incidence → NodeId → List Handle → Prop
  | here {n : NodeId} {seen : List Handle} : Leads n seen [] n seen
  | on {n m : NodeId} {seen seen' : List Handle} {i : Incidence} {links : List Incidence}
      (unnamed : g.Unnamed (.node n)) (fresh : Handle.node n ∉ seen) (only : g.leftAt n seen = [i])
      (anonymous : g.Unnamed (.edge i.edge))
      (more : Leads i.that (.edge i.edge :: .node n :: seen) links m seen') :
      Leads n seen (i :: links) m seen'

/-- There are several ways to go on from an unnamed node that is new. -/
def ForksAt (n : NodeId) (seen : List Handle) : Prop :=
  g.Unnamed (.node n) ∧ Handle.node n ∉ seen ∧ 2 ≤ (g.leftAt n seen).length

end Trails

/-- What was seen once some links were followed. -/
def passedBy (links : List Incidence) (seen : List Handle) : List Handle :=
  links.flatMap (fun i => [.node i.this, .edge i.edge]) ++ seen

variable {g : PatternGraph} {n m : NodeId} {seen seen' : List Handle} {links : List Incidence}

theorem mem_leftAt {i : Incidence} :
    i ∈ g.leftAt n seen ↔
      g.Incident i ∧ i.this = n ∧ g.Structural i ∧ Handle.edge i.edge ∉ seen := by
  simp only [leftAt, List.mem_filter, mem_incidencesAmong, Bool.and_eq_true, decide_eq_true_eq,
    Option.any_eq_true, Structural]
  constructor
  · rintro ⟨⟨hi, hthis⟩, hs, hnew⟩
    exact ⟨hi, hthis, hs, hnew⟩
  · rintro ⟨hi, hthis, hs, hnew⟩
    exact ⟨⟨hi, hthis⟩, hs, hnew⟩

theorem leftAt_congr (h : ∀ k, Handle.edge k ∈ seen ↔ Handle.edge k ∈ seen') :
    g.leftAt n seen = g.leftAt n seen' := by
  simp only [leftAt, h]

/-- An edge to a constraint is none of the model. -/
theorem Precedes.edge_ne {i j : Incidence} (hj : g.Precedes j) (hi : g.Structural i) :
    j.edge ≠ i.edge := by
  obtain ⟨e, he, hk⟩ := hj
  obtain ⟨e', he', hk'⟩ := hi
  intro heq
  rw [heq, he'] at he
  cases he
  rw [hk] at hk'
  cases hk'

@[simp] theorem mem_passedBy {h : Handle} :
    h ∈ passedBy links seen ↔
      (∃ i ∈ links, h = .node i.this ∨ h = .edge i.edge) ∨ h ∈ seen := by
  simp [passedBy]

end PatternGraph

open PatternGraph

namespace Chain

variable {cx : Context} {g : PatternGraph} {n : NodeId} {visited : List Handle} {c : Chain}

-- ---------------------------------------------------------------------------
-- What is left at a node
-- ---------------------------------------------------------------------------

theorem restriction_eq {nd : PatternNode} (h : g.node? n = some nd) :
    restriction nd = g.testAt n := by
  obtain ⟨kind, name?, type?, constraint?, index?⟩ := nd
  simp only [testAt, h, restriction]
  cases kind <;> cases type? <;> simp

theorem edgeSegment_eq (hcx : cx.engine = .graph) {i : Incidence} {e : PatternEdge}
    (h : g.edge? i.edge = some e) : cx.edgeSegment e i.direction = .ok (g.segmentOf i) := by
  simp only [Context.edgeSegment, hcx, segmentOf, h, Option.bind_some]

/-- The edges of the model that a chain finds pending are those that are left. -/
theorem leftAt_eq (hg : g.Consistent) (hn : g.IsNode n) {left : List (Incidence × PatternEdge)}
    (h : pending g n (.node n :: visited) = .ok left) :
    (left.filter (·.2.kind.structural)).map (·.1) = g.leftAt n visited := by
  obtain ⟨k, rfl, hk⟩ := hn
  simp only [pending, incidencesOf_natCast hk, hg.listed k hk, bind, Except.bind] at h
  cases h
  rw [leftAt]
  induction incidencesAmong g.edges ⟨k⟩ with
  | nil => rfl
  | cons i is ih =>
    by_cases hv : Handle.edge i.edge ∈ visited
    · simpa [hv] using ih
    · cases he : g.edge? i.edge with
      | none => simpa [hv, he] using ih
      | some e => cases hs : e.kind.structural <;> simpa [hv, he, hs] using ih

/-- What a chain is that follows some links from a node to which `stem` has led, with what was
visited before. -/
structure Follows (g : PatternGraph) (visited : List Handle) (n : NodeId)
    (stem links : List Incidence) (c : Chain) : Prop where
  trail : g.IsTrail n links
  terminal : c.terminal = trailEnd n links
  elements : c.elements = stem.map (.edge ·.edge) ++
    .node n :: links.flatMap fun i => [.edge i.edge, .node i.that]
  path : c.path = stem.map g.segmentOf ++
    (g.testAt n ++ links.flatMap fun i => g.segmentOf i :: g.testAt i.that)
  /-- Every node before the terminal is unnamed and new. -/
  passed : ∀ i ∈ links, g.Unnamed (.node i.this) ∧ Handle.node i.this ∉ visited
  /-- Every edge is an unnamed edge of the model and new. -/
  followed : ∀ i ∈ links, g.Structural i ∧ g.Unnamed (.edge i.edge) ∧
    Handle.edge i.edge ∉ visited
  once : ((stem ++ links).map (·.edge)).Nodup
  /-- The terminal has a name, or was seen, or nothing is left there, or only a named edge. -/
  stop : ¬ g.Unnamed (.node c.terminal) ∨
    .node c.terminal ∈ passedBy links (stem.map (.edge ·.edge) ++ visited) ∨
    g.leftAt c.terminal (passedBy links (stem.map (.edge ·.edge) ++ visited)) = [] ∨
    c.openEnd = true
  openEnd : c.openEnd = true ↔ g.Unnamed (.node c.terminal) ∧
    Handle.node c.terminal ∉ passedBy links (stem.map (.edge ·.edge) ++ visited) ∧
    ∃ i, g.leftAt c.terminal (passedBy links (stem.map (.edge ·.edge) ++ visited)) = [i] ∧
      ¬ g.Unnamed (.edge i.edge)
  /-- The constraints are those at the unnamed nodes that are new. -/
  hung : ∀ i, i ∈ c.constraints ↔ g.Incident i ∧ g.Precedes i ∧ Handle.edge i.edge ∉ visited ∧
    g.Unnamed (.node i.this) ∧ Handle.node i.this ∉ visited ∧ .node i.this ∈ c.elements

-- ---------------------------------------------------------------------------
-- Chains that are found
-- ---------------------------------------------------------------------------

/-- A chain that ends where it starts. -/
theorem Follows.single {nd : PatternNode} {constraints : List Incidence} {openEnd : Bool}
    (node : g.node? n = some nd)
    (hstop : ¬ g.Unnamed (.node n) ∨ .node n ∈ visited ∨ g.leftAt n visited = [] ∨
      openEnd = true)
    (hopen : openEnd = true ↔ g.Unnamed (.node n) ∧ Handle.node n ∉ visited ∧
      ∃ i, g.leftAt n visited = [i] ∧ ¬ g.Unnamed (.edge i.edge))
    (hhung : ∀ i, i ∈ constraints ↔ (g.Incident i ∧ i.this = n ∧ Handle.edge i.edge ∉ visited ∧
      g.Precedes i) ∧ g.Unnamed (.node n) ∧ Handle.node n ∉ visited) :
    Follows g visited n [] []
      { path := restriction nd, terminal := n, elements := [.node n], constraints, openEnd } where
  trail := trivial
  terminal := rfl
  elements := rfl
  path := by simp [restriction_eq node]
  passed := by simp
  followed := by simp
  once := .nil
  stop := hstop
  openEnd := hopen
  hung := by
    intro i
    rw [hhung]
    constructor
    · rintro ⟨⟨hi, rfl, hnew, hp⟩, hu, hv⟩
      exact ⟨hi, hp, hnew, hu, hv, by simp⟩
    · rintro ⟨hi, hp, hnew, hu, hv, hmem⟩
      obtain rfl : i.this = n := by simpa using hmem
      exact ⟨⟨hi, rfl, hnew, hp⟩, hu, hv⟩

/-- What is seen along a trail, with its first link before it or a part of it. -/
theorem mem_passedBy_cons {i : Incidence} {links : List Incidence} {h : Handle} :
    h ∈ passedBy links (.edge i.edge :: .node i.this :: visited) ↔
      h ∈ passedBy (i :: links) visited := by
  simp only [mem_passedBy, List.mem_cons, exists_eq_or_imp]
  grind

/-- One more link at the front of a chain. -/
theorem Follows.cons (hg : g.Consistent) {left : List (Incidence × PatternEdge)} {i : Incidence}
    {nd : PatternNode} {links : List Incidence} {rest : Chain} (hn : g.IsNode n)
    (node : g.node? n = some nd) (hunnamed : g.Unnamed (.node n))
    (hfresh : Handle.node n ∉ visited) (hleft : pending g n (.node n :: visited) = .ok left)
    (honly : g.leftAt n visited = [i]) (hanon : g.Unnamed (.edge i.edge))
    (hrest : Follows g (.edge i.edge :: .node n :: visited) i.that [] links rest) :
    Follows g visited n [] (i :: links)
      { path := restriction nd ++ g.segmentOf i :: rest.path, terminal := rest.terminal
        elements := .node n :: .edge i.edge :: rest.elements
        constraints := (left.filter (·.2.kind = .precedes)).map (·.1) ++ rest.constraints
        openEnd := rest.openEnd } := by
  obtain ⟨hi, rfl, hs, hnew⟩ := mem_leftAt.1 (honly ▸ List.mem_singleton.2 rfl)
  have hseen : ∀ h, h ∈ passedBy links (.edge i.edge :: .node i.this :: visited) ↔
      h ∈ passedBy (i :: links) visited := fun h => mem_passedBy_cons
  have hleftAt : ∀ m, g.leftAt m (passedBy links (.edge i.edge :: .node i.this :: visited)) =
      g.leftAt m (passedBy (i :: links) visited) := fun m => leftAt_congr fun k => hseen _
  have hstop := hrest.stop
  have hopen := hrest.openEnd
  simp only [List.map_nil, List.nil_append, hseen, hleftAt] at hstop hopen
  -- each part of the description: of the first link here, of the others by that of the rest
  refine { trail := ⟨hi, rfl, hrest.trail⟩, terminal := hrest.terminal, elements := ?_, path := ?_,
           passed := ?_, followed := ?_, once := ?_, stop := hstop, openEnd := hopen, hung := ?_ }
  · simp [hrest.elements]
  · simp [hrest.path, restriction_eq node]
  · intro j hj
    rcases List.mem_cons.1 hj with rfl | hj
    · exact ⟨hunnamed, hfresh⟩
    · obtain ⟨hu, hv⟩ := hrest.passed j hj
      exact ⟨hu, fun hin => hv (by simp [hin])⟩
  · intro j hj
    rcases List.mem_cons.1 hj with rfl | hj
    · exact ⟨hs, hanon, hnew⟩
    · obtain ⟨hjs, hju, hv⟩ := hrest.followed j hj
      exact ⟨hjs, hju, fun hin => hv (by simp [hin])⟩
  · simp only [List.nil_append, List.map_cons, List.nodup_cons]
    refine ⟨fun hin => ?_, by simpa using hrest.once⟩
    obtain ⟨j, hj, heq⟩ := List.mem_map.1 hin
    exact (hrest.followed j hj).2.2 (by simp [heq])
  · -- hung: the constraints of the first node, or those of a later one
    intro j
    rw [List.mem_append, mem_constraints hg hn hleft, hrest.hung]
    simp only [List.mem_cons, reduceCtorEq, Handle.node.injEq, Handle.edge.injEq, false_or]
    constructor
    · rintro (⟨hj, hthis, hjnew, hp⟩ | ⟨hj, hp, hjnew, hu, hv, hmem⟩)
      · rw [hthis]
        exact ⟨hj, hp, hjnew, hunnamed, hfresh, .inl rfl⟩
      · exact ⟨hj, hp, fun h => hjnew (.inr h), hu, fun h => hv (.inr h), .inr hmem⟩
    · rintro ⟨hj, hp, hjnew, hu, hv, hmem⟩
      by_cases hthis : j.this = i.this
      · exact .inl ⟨hj, hthis, hjnew, hp⟩
      · refine .inr ⟨hj, hp, ?_, hu, ?_, hmem.resolve_left hthis⟩
        · simp [hp.edge_ne hs, hjnew]
        · simp [hthis, hv]

/-- Every chain follows some links as far as they go. -/
theorem Walks.exists_follows (hg : g.Consistent) (hn : g.IsNode n)
    (h : Walks cx g n visited c) : ∃ links, Follows g visited n [] links c := by
  -- along the chain: it ends where it stops, or begins with one more link
  induction h with
  | @stop n nd visited node known =>
    have hknown : ¬ g.Unnamed (.node n) ∨ .node n ∈ visited := by
      rw [unnamed_node_iff hn node, Bool.not_eq_true]
      exact known
    refine ⟨[], .single node ?_ ?_ ?_⟩
    · -- a known node or one with a name ends the trail
      exact hknown.imp_right .inl
    · simp only [Bool.false_eq_true, false_iff, not_and]
      intro hu hv
      exact absurd hknown (not_or.2 ⟨not_not.2 hu, hv⟩)
    · intro i
      simp only [List.not_mem_nil, false_iff, not_and]
      intro _ hu hv
      exact hknown.elim (fun h => h hu) hv
  | @last n nd visited left node fresh hleft closed =>
    simp only [not_or, Bool.not_eq_false] at fresh
    have hu : g.Unnamed (.node n) := (unnamed_node_iff hn node).2 fresh.1
    -- so does a node with no edge left
    have hnone : g.leftAt n visited = [] := by
      rw [← leftAt_eq hg hn hleft, closed, List.map_nil]
    refine ⟨[], .single node (.inr (.inr (.inl hnone))) ?_ fun i => ?_⟩
    · simp [hnone]
    · rw [mem_constraints hg hn hleft]
      simp [hu, fresh.2]
  | @openEnd n nd visited left i e node fresh hleft only named =>
    simp only [not_or, Bool.not_eq_false] at fresh
    have hu : g.Unnamed (.node n) := (unnamed_node_iff hn node).2 fresh.1
    have hone : g.leftAt n visited = [i] := by
      rw [← leftAt_eq hg hn hleft, only, List.map_singleton]
    obtain ⟨-, -, -, he, -⟩ := incident_of_only hg hn hleft only
    -- or with one that has a name, which leaves the end open
    have hnamed : ¬ g.Unnamed (.edge i.edge) := by
      rw [unnamed_edge_iff he, named]
      exact Bool.false_ne_true
    refine ⟨[], .single node (.inr (.inr (.inr rfl))) ?_ fun j => ?_⟩
    · simp [hu, fresh.2, hone, hnamed]
    · rw [mem_constraints hg hn hleft]
      simp [hu, fresh.2]
  | @step n nd visited left i e segment rest node fresh hleft only anonymous segment_ok _ ih =>
    simp only [not_or, Bool.not_eq_false] at fresh
    obtain ⟨hi, -, -, he, -⟩ := incident_of_only hg hn hleft only
    have hsegment : segment = g.segmentOf i := by
      rw [(edgeSegment_ok segment_ok).1, segmentOf, he, Option.bind_some]
    subst hsegment
    obtain ⟨links, hlinks⟩ := ih (hg.isNode_that hi)
    refine ⟨i :: links, .cons hg hn node ((unnamed_node_iff hn node).2 fresh.1) fresh.2 hleft ?_
      ((unnamed_edge_iff he).2 anonymous) hlinks⟩
    rw [← leftAt_eq hg hn hleft, only, List.map_singleton]

-- ---------------------------------------------------------------------------
-- Chains that fork
-- ---------------------------------------------------------------------------

/-- A chain from a node fails, as it is led to a fork. -/
def IsLedToFork (cx : Context) (g : PatternGraph) (n : NodeId) (visited : List Handle)
    (f : Failure) : Prop :=
  ∃ links m seen nd, g.Leads n visited links m seen ∧ g.ForksAt m seen ∧ g.node? m = some nd ∧
    f = cx.refuse (.forkedChain (g.leftAt m seen).length) nd.tokenIndex?

theorem exists_pending (hg : g.Consistent) (hn : g.IsNode n) (visited : List Handle) :
    ∃ left, pending g n visited = .ok left := by
  obtain ⟨l, hl, -⟩ := hg.incidencesOf_ok hn
  simp only [pending, hl]
  exact ⟨_, rfl⟩

/-- At an unnamed node that is new, a chain goes on along the only edge that is left. -/
theorem walk_only (hg : g.Consistent) (hcx : cx.engine = .graph) (hn : g.IsNode n)
    (hu : g.Unnamed (.node n)) (hfresh : Handle.node n ∉ visited) {i : Incidence}
    (honly : g.leftAt n visited = [i]) (hanon : g.Unnamed (.edge i.edge)) :
    ∃ extend : Chain → Chain, walk cx g n visited =
      (walk cx g i.that (.edge i.edge :: .node n :: visited)).map extend := by
  obtain ⟨nd, node⟩ := hn.exists_node
  obtain ⟨left, hleft⟩ := exists_pending hg hn (.node n :: visited)
  have hfresh' : ¬ (nd.anonymous = false ∨ .node n ∈ visited) := by
    rw [(unnamed_node_iff hn node).1 hu]
    simpa using hfresh
  rw [← leftAt_eq hg hn hleft] at honly
  obtain ⟨⟨j, e⟩, hpair, rfl⟩ := List.map_eq_singleton_iff.1 honly
  obtain ⟨-, -, -, he, -⟩ := incident_of_only hg hn hleft hpair
  refine ⟨fun rest => { path := restriction nd ++ g.segmentOf j :: rest.path
                        terminal := rest.terminal
                        elements := .node n :: .edge j.edge :: rest.elements
                        constraints := (left.filter (·.2.kind = .precedes)).map (·.1) ++
                          rest.constraints
                        openEnd := rest.openEnd }, ?_⟩
  rw [walk_fresh node hfresh', hleft]
  simp only [Failure.ofFault, bind, Except.bind, onward, hpair, (unnamed_edge_iff he).1 hanon,
    if_true, edgeSegment_eq hcx he]
  cases walk cx g j.that (.edge j.edge :: .node n :: visited) <;> rfl

/-- Where several edges are left, there is no chain. -/
theorem walk_of_forksAt (hg : g.Consistent) (hn : g.IsNode n) {nd : PatternNode}
    (node : g.node? n = some nd) (h : g.ForksAt n visited) :
    walk cx g n visited =
      .error (cx.refuse (.forkedChain (g.leftAt n visited).length) nd.tokenIndex?) := by
  obtain ⟨hu, hfresh, htwo⟩ := h
  obtain ⟨left, hleft⟩ := exists_pending hg hn (.node n :: visited)
  have hfresh' : ¬ (nd.anonymous = false ∨ .node n ∈ visited) := by
    rw [(unnamed_node_iff hn node).1 hu]
    simpa using hfresh
  rw [← leftAt_eq hg hn hleft, List.length_map] at htwo ⊢
  rw [walk_fresh node hfresh', hleft]
  simp only [Failure.ofFault, bind, Except.bind, onward]
  cases hl : left.filter (·.2.kind.structural) with
  | nil => simp [hl] at htwo
  | cons p ps =>
    cases ps with
    | nil => simp [hl] at htwo
    | cons q qs => rfl

/-- A chain that is led to a fork fails. -/
theorem IsLedToFork.walk_eq (hg : g.Consistent) (hcx : cx.engine = .graph) (hn : g.IsNode n)
    {f : Failure} (h : IsLedToFork cx g n visited f) : walk cx g n visited = .error f := by
  obtain ⟨links, m, seen, nd, hleads, hforks, node, rfl⟩ := h
  induction hleads with
  | here => exact walk_of_forksAt hg hn node hforks
  | on unnamed fresh only anonymous more ih =>
    obtain ⟨hi, -, -, -⟩ := mem_leftAt.1 (only ▸ List.mem_singleton.2 rfl)
    obtain ⟨extend, hwalk⟩ := walk_only hg hcx hn unnamed fresh only anonymous
    rw [hwalk, ih (hg.isNode_that hi) hforks node]
    rfl

/-- A chain that fails was led to a fork. -/
theorem isLedToFork_of_walk (hg : g.Consistent) (hcx : cx.engine = .graph) (hn : g.IsNode n)
    {f : Failure} (h : walk cx g n visited = .error f) : IsLedToFork cx g n visited f := by
  -- every link is new, so there are fewer handles left to see after it
  induction hm : unseen g.handles visited using Nat.strongRecOn generalizing n visited with
  | ind k ih =>
    obtain ⟨nd, node⟩ := hn.exists_node
    obtain ⟨left, hleft⟩ := exists_pending hg hn (.node n :: visited)
    have heq := leftAt_eq hg hn hleft
    by_cases hknown : nd.anonymous = false ∨ .node n ∈ visited
    · rw [(Walks.stop node hknown).walk_eq] at h
      cases h
    have hu : g.Unnamed (.node n) := by
      rw [unnamed_node_iff hn node]
      simpa using fun h => hknown (.inl h)
    have hfresh : Handle.node n ∉ visited := fun h => hknown (.inr h)
    cases hl : left.filter (·.2.kind.structural) with
    | nil =>
      rw [(Walks.last node hknown hleft hl).walk_eq] at h
      cases h
    | cons p ps =>
      cases ps with
      | cons q qs =>
        have hforks : g.ForksAt n visited := ⟨hu, hfresh, by simp [← heq, hl]⟩
        rw [walk_of_forksAt hg hn node hforks] at h
        cases h
        exact ⟨[], n, visited, nd, .here, hforks, node, rfl⟩
      | nil =>
        obtain ⟨i, e⟩ := p
        obtain ⟨hi, -, -, he, -⟩ := incident_of_only hg hn hleft hl
        have honly : g.leftAt n visited = [i] := by rw [← heq, hl, List.map_singleton]
        cases hanon : e.anonymous with
        | false =>
          rw [(Walks.openEnd node hknown hleft hl hanon).walk_eq] at h
          cases h
        | true =>
          have hanon := (unnamed_edge_iff he).2 hanon
          obtain ⟨extend, hwalk⟩ := walk_only hg hcx hn hu hfresh honly hanon
          rw [hwalk] at h
          cases hrest : walk cx g i.that (.edge i.edge :: .node n :: visited) with
          | ok rest =>
            rw [hrest] at h
            cases h
          | error f' =>
            rw [hrest] at h
            cases h
            have hless : unseen g.handles (.edge i.edge :: .node n :: visited) < k := by
              rw [← hm]
              exact unseen_lt (PatternGraph.mem_handles_of_node? node) hfresh (by simp)
                (fun y hy => by simp [hy])
            obtain ⟨links, m, seen, nd', hleads, hfork⟩ :=
              ih _ hless (hg.isNode_that hi) hrest rfl
            exact ⟨i :: links, m, seen, nd', .on hu hfresh honly hanon hleads, hfork⟩

/-- A chain fails exactly where it is led to a fork. -/
theorem walk_eq_error_iff (hg : g.Consistent) (hcx : cx.engine = .graph) (hn : g.IsNode n)
    {f : Failure} : walk cx g n visited = .error f ↔ IsLedToFork cx g n visited f :=
  ⟨isLedToFork_of_walk hg hcx hn, IsLedToFork.walk_eq hg hcx hn⟩

-- ---------------------------------------------------------------------------
-- Both ways to start
-- ---------------------------------------------------------------------------

/-- What comes of a chain that `stem` has led to a node: it follows some links as far as they go,
and there is no chain exactly if it is led to a fork. -/
structure Outcome (cx : Context) (g : PatternGraph) (visited : List Handle) (n : NodeId)
    (stem : List Incidence) (r : Except Failure Chain) : Prop where
  follows : ∀ c, r = .ok c → ∃ links, Follows g visited n stem links c
  forks : ∀ f, r = .error f ↔ IsLedToFork cx g n (stem.map (.edge ·.edge) ++ visited) f

/-- An edge in front of a chain. -/
theorem Follows.withEdge {i : Incidence} {links : List Incidence} (hs : g.Structural i)
    (h : Follows g (.edge i.edge :: visited) n [] links c) :
    Follows g visited n [i] links
      { c with path := g.segmentOf i :: c.path, elements := .edge i.edge :: c.elements } where
  trail := h.trail
  terminal := h.terminal
  elements := by simp [h.elements]
  path := by simp [h.path]
  passed := by
    intro j hj
    obtain ⟨hu, hv⟩ := h.passed j hj
    exact ⟨hu, fun hin => hv (by simp [hin])⟩
  followed := by
    intro j hj
    obtain ⟨hs, hu, hv⟩ := h.followed j hj
    exact ⟨hs, hu, fun hin => hv (by simp [hin])⟩
  once := by
    simp only [List.singleton_append, List.map_cons, List.nodup_cons]
    refine ⟨fun hin => ?_, by simpa using h.once⟩
    obtain ⟨j, hj, heq⟩ := List.mem_map.1 hin
    exact (h.followed j hj).2.2 (by simp [heq])
  stop := h.stop
  openEnd := h.openEnd
  hung := by
    intro j
    rw [h.hung]
    simp only [List.mem_cons, reduceCtorEq, Handle.edge.injEq, false_or]
    constructor
    · rintro ⟨hj, hp, hnew, hu, hv, hmem⟩
      exact ⟨hj, hp, fun h => hnew (.inr h), hu, hv, hmem⟩
    · rintro ⟨hj, hp, hnew, hu, hv, hmem⟩
      exact ⟨hj, hp, by simp [hp.edge_ne hs, hnew], hu, hv, hmem⟩

/-- In a consistent graph, chains of the graph engine run as far as they can. -/
theorem outcome_of_consistent (hg : g.Consistent) (hcx : cx.engine = .graph)
    (visited : List Handle) :
    (∀ i, g.Incident i → g.Structural i → g.Unnamed (.edge i.edge) →
        Handle.edge i.edge ∉ visited →
        Outcome cx g visited i.that [i] (fromEdge cx g i visited)) ∧
      ∀ n, g.IsNode n → Outcome cx g visited n [] (fromNode cx g n visited) := by
  refine ⟨fun i hi hs _ _ => ?_, fun n hn => ?_⟩
  · obtain ⟨e, he, -⟩ := id hi
    have hn := hg.isNode_that hi
    have hiff : ∀ f, fromEdge cx g i visited = .error f ↔
        walk cx g i.that (.edge i.edge :: visited) = .error f := by
      intro f
      simp only [fromEdge, he, edgeSegment_eq hcx he, bind, Except.bind, pure, Except.pure]
      split <;> simp_all
    refine ⟨fun c hc => ?_, fun f => (hiff f).trans (walk_eq_error_iff hg hcx hn)⟩
    simp only [fromEdge, he, edgeSegment_eq hcx he, bind, Except.bind, pure, Except.pure] at hc
    split at hc
    · cases hc
    · rename_i rest hrest
      cases hc
      obtain ⟨links, hlinks⟩ := (walks_of_walk hrest).exists_follows hg hn
      exact ⟨links, hlinks.withEdge hs⟩
  · exact ⟨fun c hc => (walks_of_walk hc).exists_follows hg hn,
      fun f => walk_eq_error_iff hg hcx hn⟩

/-- A named node with two unnamed ones behind it, from the second of which a named edge leads back,
and an unnamed node with a loop. -/
def turning : PatternGraph :=
  { nodes := [{ kind := .anchor }, { kind := .pattern, name? := "a" },
      { kind := .pattern, typeName? := "Town" }, { kind := .pattern }, { kind := .pattern }]
    edges := [{ kind := .pattern, alpha := ⟨1⟩, omega := ⟨2⟩ },
      { kind := .pattern, alpha := ⟨3⟩, omega := ⟨2⟩, typeName? := "Road" },
      { kind := .pattern, alpha := ⟨3⟩, omega := ⟨1⟩, name? := "x" },
      { kind := .pattern, alpha := ⟨4⟩, omega := ⟨4⟩ }]
    incidences := [[], [⟨⟨0⟩, ⟨1⟩, ⟨2⟩, .out⟩, ⟨⟨2⟩, ⟨1⟩, ⟨3⟩, .into⟩],
      [⟨⟨0⟩, ⟨2⟩, ⟨1⟩, .into⟩, ⟨⟨1⟩, ⟨2⟩, ⟨3⟩, .into⟩],
      [⟨⟨1⟩, ⟨3⟩, ⟨2⟩, .out⟩, ⟨⟨2⟩, ⟨3⟩, ⟨1⟩, .out⟩],
      [⟨⟨3⟩, ⟨4⟩, ⟨4⟩, .out⟩, ⟨⟨3⟩, ⟨4⟩, ⟨4⟩, .into⟩]]
    names := [("x", .edge ⟨2⟩), ("a", .node ⟨1⟩)] }

/-- The surroundings of a graph made by hand. -/
def byHand : Context :=
  { arguments := [], elements := [], engine := .graph }

theorem consistent_turning : turning.Consistent where
  inhabited := by decide
  sized := rfl
  ends := by
    intro e he
    simp only [turning, List.mem_cons, List.not_mem_nil, or_false] at he
    rcases he with rfl | rfl | rfl | rfl <;>
      exact ⟨⟨_, rfl, by decide⟩, ⟨_, rfl, by decide⟩⟩
  listed := by decide

/-- The chain from the named node ends where only a named edge is left. At the loop there is none. -/
theorem outcome_turning :
    (∃ links, Follows turning [.node ⟨1⟩] ⟨2⟩ [⟨⟨0⟩, ⟨1⟩, ⟨2⟩, .out⟩] links
      { path := [.step .out .any, .restrict (.spec "Town"), .step .into (.spec "Road")]
        terminal := ⟨3⟩, elements := [.edge ⟨0⟩, .node ⟨2⟩, .edge ⟨1⟩, .node ⟨3⟩]
        constraints := [], openEnd := true }) ∧
      IsLedToFork byHand turning ⟨4⟩ [] (byHand.refuse (.forkedChain 2) none) := by
  have hchain : fromEdge byHand turning ⟨⟨0⟩, ⟨1⟩, ⟨2⟩, .out⟩ [.node ⟨1⟩] = .ok
      { path := [.step .out .any, .restrict (.spec "Town"), .step .into (.spec "Road")]
        terminal := ⟨3⟩, elements := [.edge ⟨0⟩, .node ⟨2⟩, .edge ⟨1⟩, .node ⟨3⟩]
        constraints := [], openEnd := true } := by cbv
  have hloop : turning.IsNode ⟨4⟩ := ⟨4, rfl, by decide⟩
  have hforks : turning.ForksAt ⟨4⟩ [] :=
    ⟨(unnamed_node_iff hloop rfl).2 rfl, by decide, by decide⟩
  have hfork : fromNode byHand turning ⟨4⟩ [] = .error (byHand.refuse (.forkedChain 2) none) :=
    walk_of_forksAt consistent_turning hloop rfl hforks
  have hunnamed : turning.Unnamed (.edge ⟨0⟩) := (unnamed_edge_iff rfl).2 rfl
  have hengine : byHand.engine = .graph := rfl
  have hmax := outcome_of_consistent consistent_turning hengine
  exact ⟨((hmax [.node ⟨1⟩]).1 _ ⟨_, rfl, rfl⟩ ⟨_, rfl, rfl⟩ hunnamed (by decide)).follows _ hchain,
    (((hmax []).2 _ hloop).forks _).1 hfork⟩

end Chain

end GraphPattern
