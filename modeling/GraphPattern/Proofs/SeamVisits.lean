import GraphPattern.Proofs.Refusals
import GraphPattern.Proofs.SeamWalks

/-!
# GraphPattern — visits along rows that come apart

Visit by visit the walks through both graphs emit the same. Only the visit of the row that comes
apart is two visits in the second graph: one up to the seam, and directly after it one of what is
behind.

## Results

* `Parted.splices_parted` — the two parts of a row are the row.
* `Parted.explore` — the walks through both graphs emit the same steps.
* `Parted.ofGraph` — the plans of both graphs.
-/

namespace GraphPattern

open PatternGraph

namespace Parted

variable {cx cx' : Context} {seam? : Option Seam} {s : Seam} {g₀ g g₀' g' : PatternGraph}
  {n : NodeId} {i : Incidence} {visited visited' marks : List Handle} {steps : List Step}

-- ---------------------------------------------------------------------------
-- Constraints
-- ---------------------------------------------------------------------------

section Constraints

variable (h : Parted cx cx' seam? g₀ g g₀' g')

include h

theorem isConstraint (hn : g.IsConstraint n) : g'.IsConstraint n := by
  obtain ⟨hnode, nd, hnd, hkind⟩ := hn
  obtain ⟨place?, hnd'⟩ := h.rehung.node? hnd
  exact ⟨h.rehung.isNode_iff.2 hnode, _, hnd', hkind⟩

theorem precedes_iff : g'.Precedes i ↔ g.Precedes i := by
  constructor
  · rintro ⟨e', he', hkind⟩
    obtain ⟨e, place?, he, rfl⟩ := h.rehung.edge?_back he'
    exact ⟨e, he, hkind⟩
  · rintro ⟨e, he, hkind⟩
    obtain ⟨place?, he'⟩ := h.rehung.edge i.edge e he
    exact ⟨_, he', hkind⟩

/-- Followed forward, an edge of the row is seen as in the row. -/
theorem eq_link_of_edge (hs : s ∈ seam?) {j : Nat} (hj : j < s.length + 1) (hi : g.Incident i)
    (hd : i.direction = .out) (hedge : i.edge = (s.link j).edge) : i = s.link j := by
  rcases ((h.seam s hs).incident hj).eq_or_eq_reverse hi hedge with heq | hback
  · exact heq
  · rw [hback] at hd
    cases hd

/-- What leads on to a constraint of the row is the edge of the row. -/
theorem eq_link (hs : s ∈ seam?) {j : Nat} (hj : j < s.length + 1) (hi : g.Incident i)
    (hd : i.direction = .out) (hthat : i.that = (s.link j).that) : i = s.link j := by
  have hrow := h.seam s hs
  have hcon : g.IsConstraint (s.link j).that :=
    Plan.isConstraint_that h.rooted (hrow.incident hj) ⟨_, hrow.row j hj, rfl⟩ rfl
  have hback : i.reverse = (s.link j).reverse :=
    h.rooted.regular.chained _ _ (hrow.incident hj).reverse hi.reverse hcon hthat
      (congrArg Direction.reverse hd)
  have hedge : i.reverse.edge = (s.link j).reverse.edge := congrArg Incidence.edge hback
  exact h.eq_link_of_edge hs hj hi hd hedge

theorem not_moved_of_out (hs : s ∈ seam?) (hn : g.IsConstraint n) (hi : g'.Incident i)
    (hthis : i.this = n) (hd : i.direction = .out) : i.edge ≠ s.moved.edge := by
  cases hs
  intro hedge
  rcases (h.rehung.incident_moved h.row).eq_or_eq_reverse hi hedge with rfl | rfl
  · subst hthis
    exact h.not_isConstraint_owner hn
  · cases hd

theorem ledTo (hv : ∀ x, x ∈ visited' ↔ x ∈ visited) (hled : Plan.LedTo g n visited) :
    Plan.LedTo g' n visited' := by
  obtain ⟨i, hi, hthis, hd, hold⟩ := hled
  by_cases hmoved : ∃ s ∈ seam?, i.edge = s.moved.edge
  · obtain ⟨s, hs, hedge⟩ := hmoved
    cases hs
    refine ⟨s.moved.reverse, (h.rehung.incident_moved h.row).reverse, ?_, rfl,
      (hv _).2 (hedge ▸ hold)⟩
    rcases (h.row.incident (Nat.lt_succ_self s.length)).eq_or_eq_reverse hi hedge with rfl | rfl
    · cases hd
    · exact hthis
  · exact ⟨i, (h.incident_iff fun s hs heq => hmoved ⟨s, hs, heq⟩).2 hi, hthis, hd, (hv _).2 hold⟩

/-- Nothing leads on from the last constraint before the seam. -/
theorem nextConstraint?_before (hs : s ∈ seam?) (hv : ∀ x, x ∈ visited' ↔ x ∈ visited)
    (hn : g.IsConstraint (s.before s.length)) (hled : Plan.LedTo g (s.before s.length) visited) :
    Plan.nextConstraint? g' (s.before s.length) visited' = none := by
  refine Option.eq_none_iff_forall_not_mem.2 fun i hi => ?_
  obtain ⟨hinc', hthis, -, -, hd⟩ :=
    Plan.leads_on h.rooted' (h.isConstraint hn) (h.ledTo hv hled) hi
  have hmoved : i.edge ≠ s.moved.edge := h.not_moved_of_out hs hn hinc' hthis hd
  have hinc : g.Incident i := (h.incident_iff (by cases hs; rintro _ ⟨⟩; exact hmoved)).1 hinc'
  have hlink := (h.seam s hs).incident (Nat.lt_succ_self s.length)
  -- in the row, the edge behind the seam leads on from there
  have heq : i = s.link s.length := h.rooted.regular.chained _ _ hlink hinc hn hthis hd
  have hedge : i.edge = (s.link s.length).edge := congrArg Incidence.edge heq
  exact hmoved hedge

/-- Elsewhere the same edge leads on. -/
theorem nextConstraint?_eq (hv : ∀ x, x ∈ visited' ↔ x ∈ visited) (hn : g.IsConstraint n)
    (hled : Plan.LedTo g n visited) (hne : ∀ s ∈ seam?, n ≠ s.before s.length) :
    Plan.nextConstraint? g' n visited' = Plan.nextConstraint? g n visited := by
  have hn' := h.isConstraint hn
  have hled' := h.ledTo hv hled
  cases hnext : Plan.nextConstraint? g n visited with
  | some i =>
    obtain ⟨hi, hthis, hp, hnew, hd⟩ := Plan.leads_on h.rooted hn hled hnext
    have hi' : g'.Incident i := (h.incident_iff fun s hs hedge =>
      hne s hs (hthis.symm.trans (congrArg Incidence.this
        (h.eq_link_of_edge hs (Nat.lt_succ_self s.length) hi hd hedge)))).2 hi
    cases hnext' : Plan.nextConstraint? g' n visited' with
    | none =>
      obtain ⟨e, he, hkind⟩ := h.precedes_iff.2 hp
      have hmem :=
        (Plan.mem_incidencesAt_placeOf? h.rooted'.regular.consistent hn'.1).2 ⟨hi', hthis⟩
      have hnone := List.find?_eq_none.1 hnext' i hmem
      simp [he, hkind, hv, hnew] at hnone
    | some j =>
      -- only one edge leads on from a constraint
      obtain ⟨hj, hjthis, -, -, hjd⟩ := Plan.leads_on h.rooted' hn' hled' hnext'
      rw [h.rooted'.regular.chained _ _ hi' hj (hthis ▸ hn') (hjthis.trans hthis.symm)
        (hjd.trans hd.symm)]
  | none =>
    refine Option.eq_none_iff_forall_not_mem.2 fun i hi => ?_
    obtain ⟨hinc', hthis, hp, hnew, hd⟩ := Plan.leads_on h.rooted' hn' hled' hi
    have hinc := (h.incident_iff fun s hs => h.not_moved_of_out hs hn hinc' hthis hd).1 hinc'
    obtain ⟨e, he, hkind⟩ := h.precedes_iff.1 hp
    have hmem := (Plan.mem_incidencesAt_placeOf? h.rooted.regular.consistent hn.1).2 ⟨hinc, hthis⟩
    have hnone := List.find?_eq_none.1 hnext i hmem
    rw [hv] at hnew
    simp [he, hkind, hnew] at hnone

/-- Away from the seam the same constraints are spliced, none of them of the row. -/
theorem splices_apart (hs : Plan.Splices g n visited steps marks)
    (hv : ∀ x, x ∈ visited' ↔ x ∈ visited) (hn : g.IsConstraint n)
    (hled : Plan.LedTo g n visited)
    (hapart : ∀ s ∈ seam?, ∀ j < s.length, n ≠ (s.link j).that) :
    Plan.Splices g' n visited' steps marks ∧ ∀ s ∈ seam?, s.Fresh marks := by
  have hbefore : ∀ {n}, (∀ s ∈ seam?, ∀ j < s.length, n ≠ (s.link j).that) →
      ∀ s ∈ seam?, n ≠ s.before s.length := by
    intro n hapart s hs
    obtain ⟨m, hm⟩ := Nat.exists_eq_add_one_of_ne_zero (Nat.ne_of_gt (h.seam s hs).pos)
    rw [hm]
    exact hapart s hs m (by omega)
  induction hs generalizing visited' with
  | @last n nd c visited node form next =>
    obtain ⟨place?, node'⟩ := h.rehung.node? node
    refine ⟨.last node' form ?_, fun s _ j _ hin => ?_⟩
    · rw [h.nextConstraint?_eq hv hn hled (hbefore hapart), next]
    · cases List.mem_singleton.1 hin
  | @next n nd c visited i steps marks node form next rest ih =>
    obtain ⟨place?, node'⟩ := h.rehung.node? node
    obtain ⟨hi, hthis, hp, -, hd⟩ := Plan.leads_on h.rooted hn hled next
    -- no edge of the row leads on from here
    have hlink : ∀ s ∈ seam?, ∀ j < s.length + 1, i ≠ s.link j := by
      rintro s hseam j hj rfl
      cases j with
      | zero =>
        cases hseam
        subst hthis
        exact h.not_isConstraint_owner hn
      | succ j => exact hapart s hseam j (by omega) hthis.symm
    obtain ⟨hrest, hfresh⟩ := ih (Handle.congr_append hv [_, _])
      (Plan.isConstraint_that h.rooted hi hp hd) (Plan.ledTo_that hi hd (by simp))
      fun s hseam j hj heq => hlink s hseam j (by omega) (h.eq_link hseam (by omega) hi hd heq)
    refine ⟨.next node' form ?_ hrest, fun s hseam j hj hin => ?_⟩
    · rw [h.nextConstraint?_eq hv hn hled (hbefore hapart), next]
    · simp only [List.mem_cons, reduceCtorEq, Handle.edge.injEq, false_or] at hin
      rcases hin with heq | hin
      · exact hlink s hseam j hj (h.eq_link_of_edge hseam hj hi hd heq.symm)
      · exact hfresh s hseam j hj hin

end Constraints

section Row

/-- From a constraint of the row on, a part up to the seam is spliced, and apart from it what is
behind. -/
structure Splits (s : Seam) (g' : PatternGraph) (j : Nat) (visited visited' : List Handle)
    (steps₁ steps₂ : List Step) (marks₁ marks₂ : List Handle) : Prop where
  front : Plan.Splices g' (s.link j).that visited' steps₁ marks₁
  fresh : Handle.edge s.moved.edge ∉ marks₁
  row : ∀ m, j < m → m < s.length → .edge (s.link m).edge ∈ marks₁
  back : ∀ seen, (∀ x, x ∈ seen ↔ x = .edge s.moved.edge ∨ x ∈ marks₁ ∨ x ∈ visited) →
    Plan.Splices g' s.moved.that seen steps₂ marks₂

variable (h : Parted cx cx' (some s) g₀ g g₀' g') {j : Nat} {nd : PatternNode} {c : Constraint}

include h

/-- In the first graph the row goes on, up to the constraint behind the seam. -/
theorem nextConstraint?_row (hj : j < s.length) (hled : Plan.LedTo g (s.link j).that visited)
    (hnew : Handle.edge (s.link (j + 1)).edge ∉ visited) :
    Plan.nextConstraint? g (s.link j).that visited = some (s.link (j + 1)) := by
  have hcon := h.isConstraint_link (Nat.lt_succ_of_lt hj)
  have hlink := h.row.incident (Nat.succ_lt_succ hj)
  cases hnext : Plan.nextConstraint? g (s.link j).that visited with
  | none =>
    have hmem :=
      (Plan.mem_incidencesAt_placeOf? h.rooted.regular.consistent hcon.1).2 ⟨hlink, rfl⟩
    have hnone := List.find?_eq_none.1 hnext _ hmem
    simp [h.row.row (j + 1) (Nat.succ_lt_succ hj), hnew, precedesEdge] at hnone
  | some i =>
    obtain ⟨hi, hthis, -, -, hd⟩ := Plan.leads_on h.rooted hcon hled hnext
    rw [h.rooted.regular.chained _ _ hlink hi hcon hthis hd]

/-- Here the row comes apart. -/
theorem splits_here (hj : j + 1 = s.length) (node : g.node? (s.link j).that = some nd)
    (form : nd.constraint? = some c) (hv : ∀ x, x ∈ visited' ↔ x ∈ visited)
    (hled : Plan.LedTo g (s.link j).that visited)
    (rest : Plan.Splices g s.moved.that
      (.edge s.moved.edge :: .node (s.link j).that :: visited) steps marks) :
    Splits s g' j visited visited' [Plan.constraintStep c] steps [.node (s.link j).that]
      marks where
  front := by
    -- the last constraint before the seam: nothing follows it in the graph that was cut
    obtain ⟨place?, node'⟩ := h.rehung.node? node
    have hcon := h.isConstraint_link (j := j) (by omega)
    have hhere : (s.link j).that = s.before s.length := by rw [← hj]; rfl
    refine .last node' form ?_
    rw [hhere] at hcon hled ⊢
    exact h.nextConstraint?_before rfl hv hcon hled
  fresh := fun hin => by cases List.mem_singleton.1 hin
  row := fun m hm hm' => by omega
  back := by
    -- what comes after the seam hangs on as before, from the node it was moved to
    intro seen hseen
    have hmoved := h.row.incident (Nat.lt_succ_self s.length)
    have hled' : Plan.LedTo g s.moved.that
        (.edge s.moved.edge :: .node (s.link j).that :: visited) :=
      Plan.ledTo_that (i := s.link s.length) hmoved rfl List.mem_cons_self
    refine (h.splices_apart rest (fun x => ?_) (h.isConstraint_link (Nat.lt_succ_self s.length))
      hled' ?_).1
    · simp only [hseen, List.mem_cons, List.not_mem_nil, or_false]
    · rintro _ ⟨⟩ m hm heq
      exact absurd (s.link_that_inj (j := s.length) heq) (Nat.ne_of_gt hm)

/-- Before the seam both graphs go on in the row. -/
theorem Splits.cons {steps₁ steps₂ : List Step} {marks₁ marks₂ : List Handle}
    (hsplits : Splits s g' (j + 1)
      (.edge (s.link (j + 1)).edge :: .node (s.link j).that :: visited)
      (.edge (s.link (j + 1)).edge :: .node (s.link j).that :: visited')
      steps₁ steps₂ marks₁ marks₂)
    (hj : j + 1 < s.length) (node : g.node? (s.link j).that = some nd)
    (form : nd.constraint? = some c) (hv : ∀ x, x ∈ visited' ↔ x ∈ visited)
    (hled : Plan.LedTo g (s.link j).that visited)
    (next : Plan.nextConstraint? g (s.link j).that visited = some (s.link (j + 1))) :
    Splits s g' j visited visited' (Plan.constraintStep c :: steps₁) steps₂
      (.node (s.link j).that :: .edge (s.link (j + 1)).edge :: marks₁) marks₂ where
  front := by
    obtain ⟨place?, node'⟩ := h.rehung.node? node
    refine .next node' form ?_ hsplits.front
    rw [h.nextConstraint?_eq hv (h.isConstraint_link (by omega)) hled ?_, next]
    rintro _ ⟨⟩ heq
    -- the edge that is moved stands last, and the row has not come to its end
    obtain ⟨m, hm⟩ := Nat.exists_eq_add_one_of_ne_zero (Nat.ne_of_gt h.row.pos)
    rw [hm] at heq
    have hsame := s.link_that_inj (k := m) heq
    omega
  fresh := by
    simp only [List.mem_cons, Handle.edge.injEq, reduceCtorEq, false_or, not_or]
    exact ⟨fun heq => absurd (s.link_edge_inj (j := s.length) heq) (Nat.ne_of_gt hj), hsplits.fresh⟩
  row := by
    intro m hm hm'
    simp only [List.mem_cons, Handle.edge.injEq, reduceCtorEq, false_or]
    rcases Nat.lt_or_eq_of_le (Nat.succ_le_of_lt hm) with hlt | rfl
    · exact .inr (hsplits.row m hlt hm')
    · exact .inl rfl
  back := by
    intro seen hseen
    refine hsplits.back seen fun x => ?_
    rw [hseen]
    simp only [List.mem_cons]
    tauto

/-- The row as it is spliced in the first graph is spliced in two parts in the second one. -/
theorem splices_parted (hs : Plan.Splices g n visited steps marks) (hj : j < s.length)
    (hn : n = (s.link j).that) (hv : ∀ x, x ∈ visited' ↔ x ∈ visited)
    (hled : Plan.LedTo g n visited)
    (hnew : ∀ m, j < m → m < s.length + 1 → Handle.edge (s.link m).edge ∉ visited) :
    ∃ steps₁ steps₂ marks₁ marks₂, steps = steps₁ ++ steps₂ ∧
      marks = marks₁ ++ .edge s.moved.edge :: marks₂ ∧
      Splits s g' j visited visited' steps₁ steps₂ marks₁ marks₂ := by
  induction hs generalizing j visited' with
  | @last n nd c visited node form next =>
    -- the row reaches the seam, so a constraint follows
    subst hn
    rw [h.nextConstraint?_row hj hled (hnew (j + 1) (by omega) (by omega))] at next
    cases next
  | @next n nd c visited i steps marks node form next rest ih =>
    subst hn
    obtain rfl : s.link (j + 1) = i := Option.some.inj <|
      (h.nextConstraint?_row hj hled (hnew (j + 1) (by omega) (by omega))).symm.trans next
    rcases Nat.lt_or_eq_of_le (Nat.succ_le_of_lt hj) with hlt | hlast
    · -- the seam is further on
      obtain ⟨steps₁, steps₂, marks₁, marks₂, rfl, rfl, hsplits⟩ :=
        ih hlt rfl (Handle.congr_append hv [.edge (s.link (j + 1)).edge, .node (s.link j).that])
          (Plan.ledTo_that (h.row.incident (Nat.lt_succ_of_lt hlt)) rfl List.mem_cons_self)
          fun m hm hm' => by
            simp only [List.mem_cons, Handle.edge.injEq, reduceCtorEq, false_or, not_or]
            exact ⟨fun heq => absurd (s.link_edge_inj heq) (Nat.ne_of_gt hm),
              hnew m (by omega) hm'⟩
      exact ⟨_, steps₂, _, marks₂, rfl, rfl, hsplits.cons h hlt node form hv hled next⟩
    · -- the next edge is the one that is moved
      have hlast : j + 1 = s.length := hlast
      have hmoved : s.link (j + 1) = { s.moved with this := s.before s.length } := by
        rw [hlast]
        rfl
      rw [hmoved] at rest ⊢
      exact ⟨_, steps, _, marks, rfl, rfl, h.splits_here hlast node form hv hled rest⟩

end Row

-- ---------------------------------------------------------------------------
-- Visits
-- ---------------------------------------------------------------------------

section Visits

variable (h : Parted cx cx' seam? g₀ g g₀' g')

include h

theorem varOf_eq (n : NodeId) : Plan.varOf g' n = Plan.varOf g n := by
  unfold Plan.varOf
  rw [h.rehung.name?_eq]

theorem fresh_node (n : NodeId) : ∀ s ∈ seam?, s.Fresh [.node n] := by
  refine fun s hs => (h.seam s hs).fresh fun k e hin _ => ?_
  cases List.mem_singleton.1 hin

theorem fresh_edge {e : PatternEdge} (he : g.edge? i.edge = some e) (hkind : e.kind ≠ .precedes) :
    ∀ s ∈ seam?, s.Fresh [.edge i.edge] := by
  refine fun s hs => (h.seam s hs).fresh fun k e' hin he' => ?_
  obtain rfl : k = i.edge := Handle.edge.inj (List.mem_singleton.1 hin)
  rw [he] at he'
  cases he'
  exact hkind

/-- A chain consumes no edge to a constraint. -/
theorem walked (hn : g.IsPlace n) {c : Chain} (hc : Chain.walk cx g n visited = .ok c) :
    g.IsPlace c.terminal ∧ ∀ s ∈ seam?, s.Fresh c.elements := by
  have hconsumed : Chain.Consumed g₀ g n visited c := (Chain.walks_of_walk hc).consumed
    h.rooted.regular (fun i hi hs => h.rooted.adjacent hi (.inl hs)) hn
  refine ⟨hconsumed.isPlace _ hconsumed.terminal, fun s hs =>
    (h.seam s hs).fresh fun k e hin he hkind => ?_⟩
  obtain ⟨-, ⟨e', he', hstructural⟩, -⟩ :=
    hconsumed.edge (e.seen k .out) (.seen he .out) (by simpa using hin)
  rw [PatternEdge.seen_edge, he] at he'
  cases he'
  rw [hkind] at hstructural
  cases hstructural

variable (hv : ∀ x, x ∈ visited' ↔ x ∈ visited)

include hv

theorem emitChain {c : Chain} (hspares : Seam.Spares seam? c)
    (heven : Seam.Even seam? (c.elements ++ visited)) (hterm : g.IsPlace c.terminal)
    (start : Expr) :
    Concurs (fun em em' => em' = Seam.thread seam? em) (Plan.emitChain g start c visited)
      (Plan.emitChain g' start c visited') := by
  obtain ⟨nd, hnode⟩ := hterm.1.exists_node
  obtain ⟨place?, hnode'⟩ := h.rehung.node? hnode
  have hcon : ¬ g.IsConstraint c.terminal := fun hc => Regular.not_isPlace_of_isConstraint hc hterm
  have hconstraints : (c.constraints.map Plan.Entry.along).flatMap (Seam.threads seam?) =
      c.constraints.map .along := by
    rw [List.flatMap_map]
    show c.constraints.flatMap (fun i => (Seam.strands seam? i).map Plan.Entry.along) = _
    rw [← List.map_flatMap, Seam.flatMap_strands_of_ne hspares]
  unfold Plan.emitChain
  simp only [hnode, hnode', h.varOf_eq, hv]
  refine (h.pendingEntries (Handle.congr_append hv _) heven hterm.1 hcon).bind
    fun es es' _ _ hes => .ok ?_
  rw [hes, Seam.thread, List.flatMap_append, hconstraints]
  rfl

theorem fromEdge {e : PatternEdge} (he : g.edge? i.edge = some e) (hs : g.Structural i)
    (hplace : g.IsPlace i.that) :
    Concurs (fun c c' => c' = c ∧ Seam.Spares seam? c ∧ g.IsPlace c.terminal ∧
        ∀ s ∈ seam?, s.Fresh c.elements)
      (Chain.fromEdge cx g i visited) (Chain.fromEdge cx' g' i visited') := by
  obtain ⟨place?, he'⟩ := h.rehung.edge i.edge e he
  unfold Chain.fromEdge
  simp only [he, he']
  have hlabel : ({ e with alpha := Seam.hang seam? i.edge e.alpha, tokenIndex? := place? } :
      PatternEdge).label = e.label := rfl
  refine (h.akin.edgeSegment hlabel i.direction).bind fun segment segment' _ _ hsegment => ?_
  refine (h.walk (Handle.congr_cons hv (.edge i.edge)) hplace).bind
    fun c c' hc _ hsame => ?_
  obtain ⟨rfl, hspares⟩ := hsame
  obtain ⟨hterm, hfresh⟩ := h.walked hplace hc
  rw [hsegment]
  refine .ok ⟨rfl, hspares, hterm, fun s hseam j hj hin => ?_⟩
  rcases List.mem_cons.1 hin with heq | hin
  · obtain ⟨e', he', hstructural⟩ := hs
    have hrow := (h.seam s hseam).row j hj
    rw [Handle.edge.inj heq, he'] at hrow
    cases hrow
    cases hstructural
  · exact hfresh s hseam j hj hin

theorem bindFarEnd (heven : Seam.Even seam? visited) (hplace : g.IsPlace i.that) (edge : Expr) :
    Concurs (fun em em' => em' = Seam.thread seam? em) (Plan.bindFarEnd cx g i edge visited)
      (Plan.bindFarEnd cx' g' i edge visited') := by
  obtain ⟨nd, hnode⟩ := hplace.1.exists_node
  obtain ⟨place?, hnode'⟩ := h.rehung.node? hnode
  have hcon : ¬ g.IsConstraint i.that := fun hc => Regular.not_isPlace_of_isConstraint hc hplace
  have hpending := h.pendingEntries (Handle.congr_cons hv (.node i.that))
    (heven.append (h.fresh_node i.that)) hplace.1 hcon
  unfold Plan.bindFarEnd
  simp only [hnode, hnode', h.varOf_eq, hv]
  -- the far end is known on both sides or on neither
  by_cases hknown : Handle.node i.that ∈ visited ∨ nd.kind = .argument
  · simp only [if_pos hknown]
    refine hpending.bind fun es es' _ _ hes => .ok ?_
    rw [hes]
    rfl
  · simp only [if_neg hknown]
    cases nd.name? with
    | none =>
      refine (h.walk hv hplace).bind fun c c' hc _ hsame => ?_
      obtain ⟨rfl, hspares⟩ := hsame
      obtain ⟨hterm, hfresh⟩ := h.walked hplace hc
      exact h.emitChain hv hspares (heven.append hfresh) hterm _
    | some name =>
      refine hpending.bind fun es es' _ _ hes => .ok ?_
      rw [hes]
      rfl

/-- Reaching a node that is no constraint. -/
theorem visitNode (heven : Seam.Even seam? visited) (hn : g.IsNode n) (hcon : ¬ g.IsConstraint n)
    (nd : PatternNode) (place? : Option Int) :
    Concurs (fun em em' => em' = Seam.thread seam? em) (Plan.visitNode g n nd visited)
      (Plan.visitNode g' n { nd with tokenIndex? := place? } visited') := by
  have hsteps : Plan.nodeSteps g' n { nd with tokenIndex? := place? } = Plan.nodeSteps g n nd := by
    simp only [Plan.nodeSteps, h.varOf_eq]
  unfold Plan.visitNode
  rw [hsteps]
  refine (h.pendingEntries hv heven hn hcon).bind fun es es' _ _ hes => .ok ?_
  rw [hes]
  rfl

/-- Following an edge that leads to no constraint. -/
theorem visitIncidence (heven : Seam.Even seam? visited) (hi : g.Incident i) {e e' : PatternEdge}
    (he : g.edge? i.edge = some e) (hlabel : e'.label = e.label) (hkind : e.kind ≠ .precedes) :
    Concurs (fun em em' => em' = Seam.thread seam? em) (Plan.visitIncidence cx g i e visited)
      (Plan.visitIncidence cx' g' i e' visited') := by
  have hfar : ∀ edge, e.kind.structural = true →
      Concurs (fun em em' => em' = Seam.thread seam? em) (Plan.bindFarEnd cx g i edge visited)
        (Plan.bindFarEnd cx' g' i edge visited') := fun edge hs =>
    h.bindFarEnd hv heven (h.rooted.regular.isPlace_that hi ⟨e, he, hs⟩) edge
  unfold Plan.visitIncidence
  simp only [PatternEdge.kind_of_label hlabel, PatternEdge.name?_of_label hlabel,
    PatternEdge.typeName?_of_label hlabel, h.varOf_eq, h.akin.engine]
  cases hk : e.kind with
  | start => exact .ok rfl
  | precedes => exact absurd hk hkind
  | argument =>
    refine (hfar _ (by rw [hk]; rfl)).bind fun em em' _ _ hem => .ok ?_
    rw [hem]
    rfl
  | pattern =>
    have hs : g.Structural i := ⟨e, he, by rw [hk]; rfl⟩
    cases e.name? with
    | none =>
      refine (h.fromEdge hv he hs (h.rooted.regular.isPlace_that hi hs)).bind
        fun c c' _ _ hsame => ?_
      obtain ⟨rfl, hspares, hterm, hfresh⟩ := hsame
      exact h.emitChain hv hspares (heven.append hfresh) hterm _
    | some name =>
      simp only
      -- both engines can bind the edge, or neither can
      split
      · refine (hfar _ (by rw [hk]; rfl)).bind fun em em' _ _ hem => .ok ?_
        rw [hem]
        rfl
      · exact .fault _

end Visits

end Parted

-- ---------------------------------------------------------------------------
-- The walk
-- ---------------------------------------------------------------------------

namespace Plan

variable {cx : Context} {g : PatternGraph} {visited marks : List Handle} {steps : List Step}
  {i : Incidence}

/-- Entries about what was visited are dropped. -/
theorem explore_seen {es : List Entry} (h : ∀ x ∈ es, x.handle ∈ visited) (rest : List Entry) :
    explore cx g visited (es ++ rest) = explore cx g visited rest := by
  induction es with
  | nil => rfl
  | cons x es ih =>
    have hx := h x List.mem_cons_self
    have hes := ih fun y hy => h y (List.mem_cons_of_mem _ hy)
    cases x with
    | node n =>
      rw [List.cons_append, explore, dif_pos (show .node n ∈ visited from hx)]
      exact hes
    | along i =>
      rw [List.cons_append, explore, dif_pos (show .edge i.edge ∈ visited from hx)]
      exact hes

/-- Where the edge to a row is followed, its constraints are spliced. -/
theorem explore_splices (hp : g.Precedes i) (hnew : Handle.edge i.edge ∉ visited)
    (hs : Splices g i.that (.edge i.edge :: visited) steps marks) (rest : List Entry) :
    explore cx g visited (.along i :: rest) =
      (explore cx g (marks ++ .edge i.edge :: visited) rest).map (steps ++ ·) := by
  obtain ⟨e, he, hkind⟩ := hp
  have hemits : Emits cx g (.edge i.edge :: visited) (.along i) { steps, marks } [] :=
    .constraints he hkind hs
  rw [explore_along hnew he, hemits.visitIncidence_eq he]
  rfl

end Plan

namespace Parted

variable {cx cx' : Context} {seam? : Option Seam} {s : Seam} {g₀ g g₀' g' : PatternGraph}
  {visited visited' binds : List Handle} {stack rest : List Plan.Entry}

variable (h : Parted cx cx' seam? g₀ g g₀' g')

include h

/-- What is entered is no constraint. -/
theorem isNode_of_enter {n : NodeId}
    (hf : Plan.Frontier g₀ g visited binds (.node n :: rest)) :
    g.IsNode n ∧ ¬ g.IsConstraint n := by
  rcases hf.enter n (by simp) with rfl | hstart
  · exact ⟨isNode_anchor h.rooted.regular.consistent.inhabited,
      h.rooted.regular.not_isConstraint_anchor⟩
  · have hplace := h.rooted.anchors.extended.isPlace (h.rooted.before.place_of_isStart hstart)
    exact ⟨hplace.1, fun hc => Regular.not_isPlace_of_isConstraint hc hplace⟩

/-- A visit that follows no edge to a row leaves the row as it is. -/
theorem even_after {x : Plan.Entry} {em : Plan.Emission} {own : List Handle}
    (hf : Plan.Frontier g₀ g visited binds (x :: rest)) (heven : Seam.Even seam? visited)
    (hem : Plan.Emits cx g (x.handle :: visited) x em own)
    (hx : ∀ y, x = .along y → ¬ g.Precedes y) :
    Seam.Even seam? (em.marks ++ x.handle :: visited) := by
  rw [List.append_cons]
  refine heven.append fun s hs => (h.seam s hs).fresh fun k e hin he hkind => ?_
  rcases List.mem_append.1 hin with hin | hin
  · obtain ⟨y, hxy, hp⟩ := hem.precedes_of_mem h.rooted hf he hkind hin
    exact hx y hxy hp
  · have heq := List.mem_singleton.1 hin
    cases x with
    | node n => cases heq
    | along y =>
      obtain rfl : k = y.edge := Handle.edge.inj heq
      exact hx y rfl ⟨e, he, hkind⟩

/-- The edge to a row that does not come apart is followed in both graphs. -/
theorem explore_apart {i : Incidence} {steps : List Step} {marks : List Handle}
    (hv : ∀ x, x ∈ visited' ↔ x ∈ visited) (heven : Seam.Even seam? visited) (hi : g.Incident i)
    (hthis : ¬ g.IsConstraint i.this) (hp : g.Precedes i) (hrow : ∀ s ∈ seam?, i ≠ s.link 0)
    (hnew : Handle.edge i.edge ∉ visited)
    (hs : Plan.Splices g i.that (.edge i.edge :: visited) steps marks) (rest' : List Plan.Entry) :
    Plan.explore cx' g' visited' (.along i :: rest') =
        (Plan.explore cx' g' (marks ++ .edge i.edge :: visited') rest').map (steps ++ ·) ∧
      Seam.Even seam? (marks ++ .edge i.edge :: visited) := by
  have hd := Plan.direction_of_precedes h.rooted hi hp hthis
  -- an edge that leaves no constraint is a link of the row only as its first, excluded here
  have hlink : ∀ s ∈ seam?, ∀ j < s.length + 1, i ≠ s.link j := by
    rintro s hseam j hj rfl
    cases j with
    | zero => exact hrow s hseam rfl
    | succ j =>
      cases hseam
      exact hthis (h.isConstraint_link (Nat.lt_of_succ_lt hj))
  obtain ⟨hs', hfresh⟩ := h.splices_apart hs
    (Handle.congr_cons hv (.edge i.edge)) (Plan.isConstraint_that h.rooted hi hp hd)
    (Plan.ledTo_that hi hd List.mem_cons_self)
    fun s hseam j hj heq => hlink s hseam j (by omega) (h.eq_link hseam (by omega) hi hd heq)
  -- what is marked touches no link: neither what was spliced nor the edge itself
  refine ⟨Plan.explore_splices (h.precedes_iff.2 hp) (by rwa [hv]) hs' rest', ?_⟩
  rw [List.append_cons]
  refine heven.append fun s hseam j hj hin => ?_
  rcases List.mem_append.1 hin with hin | hin
  · exact hfresh s hseam j hj hin
  · have hedge := Handle.edge.inj (List.mem_singleton.1 hin)
    exact hlink s hseam j hj (h.eq_link_of_edge hseam hj hi hd hedge.symm)

omit h in
/-- The row that comes apart is visited at once in the first graph, and in two visits in the second
one. -/
theorem explore_row (h : Parted cx cx' (some s) g₀ g g₀' g') {steps : List Step}
    {marks : List Handle} (hv : ∀ x, x ∈ visited' ↔ x ∈ visited) (hnew : s.Fresh visited)
    (hs : Plan.Splices g (s.link 0).that (.edge (s.link 0).edge :: visited) steps marks)
    (rest' : List Plan.Entry) :
    ∃ seen, (∀ x, x ∈ seen ↔ x ∈ marks ++ .edge (s.link 0).edge :: visited) ∧
      Plan.explore cx' g' visited' (.along (s.link 0) :: .along s.moved :: rest') =
        (Plan.explore cx' g' seen rest').map (steps ++ ·) ∧
      ∀ j < s.length + 1, .edge (s.link j).edge ∈ marks ++ .edge (s.link 0).edge :: visited := by
  have hpos := h.row.pos
  have hother : ∀ m, 0 < m → (s.link m).edge ≠ (s.link 0).edge := fun m hm heq =>
    absurd (s.link_edge_inj heq) (Nat.ne_of_gt hm)
  have hmoved : s.moved.edge ≠ (s.link 0).edge := hother s.length hpos
  obtain ⟨steps₁, steps₂, marks₁, marks₂, rfl, rfl, hs₁, hfresh₁, hall, hs₂⟩ :=
    h.splices_parted hs hpos rfl (Handle.congr_cons hv (.edge (s.link 0).edge))
      (Plan.ledTo_that (h.row.incident (Nat.succ_pos _)) rfl List.mem_cons_self) fun m hm hm' => by
        simp only [List.mem_cons, Handle.edge.injEq, not_or]
        exact ⟨hother m hm, hnew m hm'⟩
  have hhead : g'.Precedes (s.link 0) :=
    h.precedes_iff.2 ⟨_, h.row.row 0 (Nat.succ_pos _), rfl⟩
  have hbehind : g'.Precedes s.moved :=
    h.precedes_iff.2 ⟨_, h.row.row s.length (Nat.lt_succ_self _), rfl⟩
  have hnew₂ : Handle.edge s.moved.edge ∉ marks₁ ++ .edge (s.link 0).edge :: visited' := by
    simp only [List.mem_append, List.mem_cons, Handle.edge.injEq, hv, not_or]
    exact ⟨hfresh₁, hmoved, hnew s.length (Nat.lt_succ_self _)⟩
  refine ⟨marks₂ ++ .edge s.moved.edge :: (marks₁ ++ .edge (s.link 0).edge :: visited'), ?_, ?_, ?_⟩
  · -- the two halves mark what the row marks
    intro x
    simp only [List.mem_append, List.mem_cons, hv]
    tauto
  · -- the halves are followed one behind the other
    have hnew₁ : Handle.edge (s.link 0).edge ∉ visited' := by
      rw [hv]
      exact hnew 0 (Nat.succ_pos _)
    have hsecond := hs₂ (.edge s.moved.edge :: (marks₁ ++ .edge (s.link 0).edge :: visited'))
      fun x => by simp [hv]
    rw [Plan.explore_splices hhead hnew₁ hs₁, Plan.explore_splices hbehind hnew₂ hsecond]
    cases Plan.explore cx' g' _ rest' with
    | error f => rfl
    | ok more => exact congrArg Except.ok (List.append_assoc steps₁ steps₂ more).symm
  · -- every link of the row is marked
    intro j hj
    simp only [List.mem_append, List.mem_cons, Handle.edge.injEq]
    rcases Nat.eq_zero_or_pos j with rfl | hjpos
    · exact .inr (.inl rfl)
    · rcases Nat.lt_or_eq_of_le (Nat.le_of_lt_succ hj) with hlt | rfl
      · exact .inl (.inl (hall j hjpos hlt))
      · exact .inl (.inr (.inl rfl))

/-- Following the edge to a row is followed by what follows it. -/
theorem concurs_constraints {i : Incidence} {e : PatternEdge}
    (hv : ∀ x, x ∈ visited' ↔ x ∈ visited) (heven : Seam.Even seam? visited)
    (hf : Plan.Frontier g₀ g visited binds (.along i :: rest))
    (hnew : Handle.edge i.edge ∉ visited) (he : g.edge? i.edge = some e)
    (hkind : e.kind = .precedes)
    (hrest : ∀ (marks seen : List Handle),
      (∀ x, x ∈ seen ↔ x ∈ marks ++ .edge i.edge :: visited) →
      Seam.Even seam? (marks ++ .edge i.edge :: visited) →
      Plan.Frontier g₀ g (marks ++ .edge i.edge :: visited) binds rest →
      Concurs Eq (Plan.explore cx g (marks ++ .edge i.edge :: visited) rest)
        (Plan.explore cx' g' seen (rest.flatMap (Seam.threads seam?)))) :
    Concurs Eq (Plan.explore cx g visited (.along i :: rest))
      (Plan.explore cx' g' visited' ((.along i :: rest).flatMap (Seam.threads seam?))) := by
  obtain ⟨hi, -, hthis⟩ := hf.along i (by simp)
  have hp : g.Precedes i := ⟨e, he, hkind⟩
  have hd := Plan.direction_of_precedes h.rooted hi hp hthis
  obtain ⟨steps, marks, hs⟩ := Plan.spliceConstraints_answers h.rooted i.that
    (.edge i.edge :: visited) (Plan.isConstraint_that h.rooted hi hp hd)
    (Plan.ledTo_that hi hd List.mem_cons_self)
  have hf' := (hf.followConstraints h.rooted hp hs).1
  rw [Plan.explore_splices hp hnew hs]
  by_cases hrow : ∃ s ∈ seam?, i = s.link 0
  · obtain ⟨s, hseam, rfl⟩ := hrow
    cases hseam
    -- the first edge of the row is new, so the row is
    have hfresh : s.Fresh visited :=
      (heven s rfl).resolve_right fun hold => hnew (hold 0 (Nat.succ_pos _))
    obtain ⟨seen, hseen, hsame, hall⟩ := explore_row h hv hfresh hs
      (rest.flatMap (Seam.threads (some s)))
    have heven' : Seam.Even (some s) (marks ++ .edge (s.link 0).edge :: visited) := by
      rintro _ ⟨⟩
      exact .inr hall
    rw [Seam.flatMap_threads_head, hsame]
    exact (hrest marks seen hseen heven' hf').map _
  · have hne : ∀ s ∈ seam?, i ≠ s.link 0 := fun s hs heq => hrow ⟨s, hs, heq⟩
    obtain ⟨hsame, heven'⟩ := h.explore_apart hv heven hi hthis hp hne hnew hs
      (rest.flatMap (Seam.threads seam?))
    rw [Seam.flatMap_threads_of_ne hne, hsame]
    exact (hrest marks _ (Handle.congr_append (Handle.congr_cons hv _) marks) heven' hf').map _

omit h in
/-- Any other visit is followed by what follows it. -/
theorem concurs_visit {k : Handle} {x x' : Except Failure Plan.Emission}
    (hvisit : Concurs (fun em em' => em' = Seam.thread seam? em) x x')
    (hrest : ∀ em, x = .ok em →
      Concurs Eq (Plan.explore cx g (em.marks ++ k :: visited) (em.entries ++ rest))
        (Plan.explore cx' g' (em.marks ++ k :: visited')
          ((em.entries ++ rest).flatMap (Seam.threads seam?)))) :
    Concurs Eq
      (do let em ← x
          let steps ← Plan.explore cx g (em.marks ++ k :: visited) (em.entries ++ rest)
          return em.steps ++ steps)
      (do let em ← x'
          let steps ← Plan.explore cx' g' (em.marks ++ k :: visited')
            (em.entries ++ rest.flatMap (Seam.threads seam?))
          return em.steps ++ steps) := by
  refine hvisit.bind fun em em' hem _ hsame => ?_
  have hstep := hrest em hem
  rw [List.flatMap_append] at hstep
  rw [hsame]
  exact hstep.bind fun steps steps' _ _ hsteps => .ok (by rw [hsteps]; rfl)

/-- The walks through both graphs emit the same steps, or fail alike. -/
theorem explore (hv : ∀ x, x ∈ visited' ↔ x ∈ visited) (heven : Seam.Even seam? visited)
    (hf : Plan.Frontier g₀ g visited binds stack) :
    Concurs Eq (Plan.explore cx g visited stack)
      (Plan.explore cx' g' visited' (stack.flatMap (Seam.threads seam?))) := by
  -- along the first walk; the other one has two entries where the row comes apart
  fun_induction Plan.explore cx g visited stack generalizing binds visited' with
  | case1 visited =>
    rw [List.flatMap_nil, Plan.explore]
    exact .ok rfl
  | case2 visited n rest seen ih =>
    have hseen := fun y => heven.seen (x := .node n) (y := y) seen
    rw [List.flatMap_cons, Plan.explore_seen fun y hy => (hv _).2 (hseen y hy)]
    exact ih hv heven (hf.skip seen)
  | case3 visited n rest fresh hnode =>
    show Concurs Eq _ (Plan.explore cx' g' visited' (.node n :: _))
    rw [Plan.explore_missingNode (by rwa [hv]) (h.rehung.node?_none hnode)]
    exact .fault _
  | case4 visited n rest fresh nd hnode ih =>
    obtain ⟨place?, hnode'⟩ := h.rehung.node? hnode
    have hvisited := Handle.congr_cons hv (.node n)
    obtain ⟨hn, hcon⟩ := h.isNode_of_enter hf
    show Concurs Eq _ (Plan.explore cx' g' visited' (.node n :: rest.flatMap _))
    rw [Plan.explore_node (by rwa [hv]) hnode']
    refine concurs_visit (h.visitNode hvisited (heven.append (h.fresh_node n)) hn hcon nd place?)
      fun em hem => ?_
    obtain ⟨own, hemits⟩ := Plan.visitNode_emits h.rooted.regular hn hnode hem
    exact ih em (Handle.congr_append hvisited em.marks)
      (h.even_after hf heven hemits fun y hy => by cases hy) (hf.visit h.rooted fresh hemits)
  | case5 visited i rest seen ih =>
    have hseen := fun y => heven.seen (x := .along i) (y := y) seen
    rw [List.flatMap_cons, Plan.explore_seen fun y hy => (hv _).2 (hseen y hy)]
    exact ih hv heven (hf.skip seen)
  | case6 visited i rest fresh hedge =>
    -- entries on the stack have edges
    obtain ⟨e, he, -⟩ := (hf.along i (by simp)).1
    rw [hedge] at he
    cases he
  | case7 visited i rest fresh e he ih =>
    by_cases hkind : e.kind = .precedes
    · -- the head of a row, which the other walk may have in two parts
      have hwhole := h.concurs_constraints hv heven hf fresh he hkind
        fun marks seen hseen heven' hf' => ih { marks } hseen heven' hf'
      rwa [Plan.explore_along fresh he] at hwhole
    · -- any other edge is followed alike
      have hp : ¬ g.Precedes i := by
        rintro ⟨e', he', hkind'⟩
        rw [he] at he'
        cases he'
        exact hkind hkind'
      have hne : ∀ s ∈ seam?, i ≠ s.link 0 := by
        rintro s hs rfl
        exact hp ⟨_, (h.seam s hs).row 0 (Nat.succ_pos _), rfl⟩
      obtain ⟨place?, he'⟩ := h.rehung.edge i.edge e he
      have hvisited := Handle.congr_cons hv (.edge i.edge)
      rw [Seam.flatMap_threads_of_ne hne, Plan.explore_along (by rwa [hv]) he']
      refine concurs_visit (h.visitIncidence hvisited (heven.append (h.fresh_edge he hkind))
        (hf.along i (by simp)).1 he rfl hkind) fun em hem => ?_
      obtain ⟨own, hemits⟩ := Plan.visitIncidence_emits h.rooted.regular he hem
      exact ih em (Handle.congr_append hvisited em.marks)
        (h.even_after hf heven hemits fun y hy => by cases hy; exact hp)
        (hf.visit h.rooted fresh hemits)

-- ---------------------------------------------------------------------------
-- Plans
-- ---------------------------------------------------------------------------

theorem edges_label : List.Forall₂ (fun e e' => e'.label = e.label) g.edges g'.edges := by
  refine List.forall₂_iff_get.2 ⟨h.rehung.edges.symm, fun k hk hk' => ?_⟩
  obtain ⟨place?, hsame⟩ := h.rehung.edge ⟨k⟩ _ (List.getElem?_eq_getElem hk)
  have hget : g'.edges[k]? = some g'.edges[k] := List.getElem?_eq_getElem hk'
  rw [List.get_eq_getElem, List.get_eq_getElem, ← Option.some.inj (hsame.symm.trans hget)]
  rfl

theorem checkEdges : Concurs Eq (Plan.checkEdges cx g) (Plan.checkEdges cx' g') := by
  have hedge : ∀ e e' : PatternEdge, e'.label = e.label →
      Concurs Eq (Plan.checkEdge cx e) (Plan.checkEdge cx' e') := by
    intro e e' hlabel
    unfold Plan.checkEdge
    rw [PatternEdge.kind_of_label hlabel, PatternEdge.name?_of_label hlabel]
    cases e.kind <;> cases e.name?
    case argument.none | argument.some | pattern.some => exact .refuse cx cx' _ _
    all_goals exact .ok rfl
  unfold Plan.checkEdges
  rw [h.akin.engine]
  split
  · exact .ok rfl
  · have hedges := h.edges_label
    generalize g.edges = es at hedges ⊢
    generalize g'.edges = es' at hedges ⊢
    induction hedges with
    | nil => exact .ok rfl
    | cons hlabel _ ih => exact (hedge _ _ hlabel).bind fun _ _ _ _ _ => ih

/-- The plans of both graphs are the same, or both graphs have none for the same reason. -/
theorem ofGraph : Concurs Eq (Plan.ofGraph cx g) (Plan.ofGraph cx' g') := by
  refine h.checkEdges.bind fun _ _ _ _ _ => ?_
  have hexplore := h.explore (fun x => Iff.rfl) (fun s _ => .inl fun j _ => List.not_mem_nil)
    (Plan.Frontier.start g₀ g)
  refine hexplore.bind fun steps steps' _ _ hsteps => ?_
  rw [hsteps, h.akin.arguments, h.akin.engine]
  cases steps'.any Plan.bindsUnnamed with
  | true => exact .fault _
  | false => exact .ok rfl

end Parted

end GraphPattern
