import GraphPattern.Proofs.WalkCourse
import GraphPattern.Proofs.ConstraintRows
import GraphPattern.Proofs.Seams

/-!
# GraphPattern — walks along rows that come apart

The graph of a pattern and the graph in which a row of it has come apart are walked side by side.
The walk through the second graph follows two edges where the walk through the first one follows the
edge to the row: what is behind the seam hangs on the same node, directly behind what is before it.
So the same is left to follow at both, next to what has come apart, and the same chains lead on.

## Results

* `Parted.incidencesOf` — the two edges stand next to each other at the node.
* `Parted.pendingEntries` — what is left at a node, in both graphs.
* `Parted.walk` — the chains through both graphs are the same.
-/

namespace GraphPattern

open PatternGraph

-- What is visited is compared as a set: the second walk lists it in another order.

namespace Handle

variable {visited visited' : List Handle}

theorem congr_append (hv : ∀ x, x ∈ visited' ↔ x ∈ visited) (new : List Handle) (x : Handle) :
    x ∈ new ++ visited' ↔ x ∈ new ++ visited := by
  rw [List.mem_append, List.mem_append, hv]

theorem congr_cons (hv : ∀ x, x ∈ visited' ↔ x ∈ visited) (k x : Handle) :
    x ∈ k :: visited' ↔ x ∈ k :: visited :=
  congr_append hv [k] x

end Handle

namespace Seam

/-- The edges that are followed where an edge is followed: behind the edge to the row comes the edge
to what has come apart from it. -/
def strands (seam? : Option Seam) (i : Incidence) : List Incidence :=
  match seam? with
  | none => [i]
  | some s => if i = s.link 0 then [i, s.moved] else [i]

theorem strands_of_ne {seam? : Option Seam} {i : Incidence} (h : ∀ s ∈ seam?, i ≠ s.link 0) :
    strands seam? i = [i] := by
  cases seam? with
  | none => rfl
  | some s => exact if_neg (h s rfl)

theorem strands_head (s : Seam) : strands (some s) (s.link 0) = [s.link 0, s.moved] :=
  if_pos rfl

theorem mem_strands_self (seam? : Option Seam) (i : Incidence) : i ∈ strands seam? i := by
  unfold strands
  split
  · exact List.mem_singleton.2 rfl
  · split <;> simp

theorem flatMap_strands_of_ne {seam? : Option Seam} {l : List Incidence}
    (h : ∀ i ∈ l, ∀ s ∈ seam?, i ≠ s.link 0) : l.flatMap (strands seam?) = l := by
  rw [List.flatMap_congr fun i hi => strands_of_ne (h i hi)]
  exact List.flatMap_singleton' l

/-- Of the edges of the row up to the one behind the seam, none was visited. -/
def Fresh (s : Seam) (visited : List Handle) : Prop :=
  ∀ j < s.length + 1, Handle.edge (s.link j).edge ∉ visited

/-- The edges of the row up to the one behind the seam were all visited, or none of them was. -/
def Even (seam? : Option Seam) (visited : List Handle) : Prop :=
  ∀ s ∈ seam?, s.Fresh visited ∨ ∀ j < s.length + 1, .edge (s.link j).edge ∈ visited

theorem Even.append {seam? : Option Seam} {new visited : List Handle} (h : Even seam? visited)
    (hnew : ∀ s ∈ seam?, s.Fresh new) : Even seam? (new ++ visited) := by
  intro s hs
  refine (h s hs).imp (fun hold j hj hin => ?_) fun hold j hj =>
    List.mem_append_right _ (hold j hj)
  rcases List.mem_append.1 hin with hin | hin
  · exact hnew s hs j hj hin
  · exact hold j hj hin

/-- The edge to the row and the edge behind the seam are visited together. -/
theorem Even.moved_iff {s : Seam} {visited : List Handle} (h : Even (some s) visited) :
    .edge s.moved.edge ∈ visited ↔ .edge (s.link 0).edge ∈ visited := by
  rcases h s rfl with hnew | hold
  · exact iff_of_false (hnew s.length (Nat.lt_succ_self _)) (hnew 0 (Nat.succ_pos _))
  · exact iff_of_true (hold s.length (Nat.lt_succ_self _)) (hold 0 (Nat.succ_pos _))

/-- What is looked at where an entry is looked at. -/
def threads (seam? : Option Seam) : Plan.Entry → List Plan.Entry
  | .node n => [.node n]
  | .along i => (strands seam? i).map .along

theorem flatMap_threads_head (s : Seam) (rest : List Plan.Entry) :
    (.along (s.link 0) :: rest).flatMap (threads (some s)) =
      .along (s.link 0) :: .along s.moved :: rest.flatMap (threads (some s)) := by
  rw [List.flatMap_cons, threads, strands_head]
  rfl

theorem flatMap_threads_of_ne {seam? : Option Seam} {i : Incidence}
    (h : ∀ s ∈ seam?, i ≠ s.link 0) (rest : List Plan.Entry) :
    (.along i :: rest).flatMap (threads seam?) = .along i :: rest.flatMap (threads seam?) := by
  rw [List.flatMap_cons, threads, strands_of_ne h]
  rfl

/-- Where an entry is dropped, so is what has come apart from it. -/
theorem Even.seen {seam? : Option Seam} {visited : List Handle} (h : Even seam? visited)
    {x y : Plan.Entry} (hx : x.handle ∈ visited) (hy : y ∈ threads seam? x) :
    y.handle ∈ visited := by
  cases x with
  | node n =>
    rw [List.mem_singleton.1 hy]
    exact hx
  | along i =>
    obtain ⟨j, hj, rfl⟩ := List.mem_map.1 hy
    by_cases hhead : ∃ s ∈ seam?, i = s.link 0
    · obtain ⟨s, hs, rfl⟩ := hhead
      cases hs
      rw [strands_head, List.mem_cons, List.mem_singleton] at hj
      rcases hj with rfl | rfl
      · exact hx
      · exact h.moved_iff.2 hx
    · rw [strands_of_ne fun s hs heq => hhead ⟨s, hs, heq⟩] at hj
      rw [List.mem_singleton.1 hj]
      exact hx

/-- What a visit emits, next to what has come apart. -/
def thread (seam? : Option Seam) (em : Plan.Emission) : Plan.Emission :=
  { em with entries := em.entries.flatMap (threads seam?) }

/-- Nothing but edges to constraints is in the row. -/
theorem Of.fresh {s : Seam} {g : PatternGraph} (hs : s.Of g) {new : List Handle}
    (hnew : ∀ k e, .edge k ∈ new → g.edge? k = some e → e.kind ≠ .precedes) : s.Fresh new :=
  fun j hj hin => hnew _ _ hin (hs.row j hj) rfl

end Seam

/-- What the walk sees of an edge that is followed. -/
def PatternEdge.label (e : PatternEdge) : EdgeKind × Option String × Option String :=
  (e.kind, e.name?, e.typeName?)

namespace PatternEdge

variable {e e' : PatternEdge} (h : e'.label = e.label)

include h

theorem kind_of_label : e'.kind = e.kind :=
  congrArg (·.1) h

theorem name?_of_label : e'.name? = e.name? :=
  congrArg (·.2.1) h

theorem typeName?_of_label : e'.typeName? = e.typeName? :=
  congrArg (·.2.2) h

end PatternEdge

/-- The second graph is the first one with its row taken apart; both come from patterns. -/
structure Parted (cx cx' : Context) (seam? : Option Seam) (g₀ g g₀' g' : PatternGraph) : Prop where
  akin : cx.Akin cx'
  rooted : Rooted cx g₀ g
  rooted' : Rooted cx' g₀' g'
  rehung : Rehung seam? g g'
  seam : ∀ s ∈ seam?, s.Of g

namespace Parted

variable {cx cx' : Context} {seam? : Option Seam} {s : Seam} {g₀ g g₀' g' : PatternGraph}
  {n : NodeId} {i : Incidence} {l : List Incidence}

section Rows

variable (h : Parted cx cx' (some s) g₀ g g₀' g')

include h

theorem row : s.Of g :=
  h.seam s rfl

/-- The owner of the row has a name, so it is no constraint. -/
theorem not_isConstraint_owner : ¬ g.IsConstraint s.owner := by
  obtain ⟨name, hname⟩ := h.row.named
  have hnamed := (h.rooted.regular.names name _).2 hname
  have hplace := (h.rooted.regular.isPlace_of_named? hnamed).1
  exact fun hc => Regular.not_isPlace_of_isConstraint hc hplace

theorem isConstraint_link {j : Nat} (hj : j < s.length + 1) : g.IsConstraint (s.link j).that :=
  Plan.isConstraint_that h.rooted (h.row.incident hj) ⟨_, h.row.row j hj, rfl⟩ rfl

/-- From anywhere but its constraints, a row is seen along its first edge. -/
theorem eq_head {j : Nat} (hj : j < s.length + 1) (hi : g.Incident i)
    (hthis : ¬ g.IsConstraint i.this) (hedge : i.edge = (s.link j).edge) : i = s.link 0 := by
  rcases (h.row.incident hj).eq_or_eq_reverse hi hedge with rfl | rfl
  · cases j with
    | zero => rfl
    | succ j => exact absurd (h.isConstraint_link (Nat.lt_of_succ_lt hj)) hthis
  · exact absurd (h.isConstraint_link hj) hthis

/-- Where a row comes apart, its edge behind the seam is seen from the owner or from behind. -/
theorem eq_moved (hi : g'.Incident i) (hthis : ¬ g.IsConstraint i.this)
    (hedge : i.edge = s.moved.edge) : i = s.moved := by
  rcases (h.rehung.incident_moved h.row).eq_or_eq_reverse hi hedge with rfl | rfl
  · rfl
  · exact absurd (h.isConstraint_link (Nat.lt_succ_self s.length)) hthis

end Rows

variable (h : Parted cx cx' seam? g₀ g g₀' g')

include h

-- ---------------------------------------------------------------------------
-- Incidences
-- ---------------------------------------------------------------------------

/-- Edges that do not hang on other nodes lead where they led. -/
theorem incident_iff (hne : ∀ s ∈ seam?, i.edge ≠ s.moved.edge) : g'.Incident i ↔ g.Incident i := by
  constructor
  · rintro ⟨e', he', hi⟩
    obtain ⟨e, place?, he, rfl⟩ := h.rehung.edge?_back he'
    refine ⟨e, he, hi.trans ?_⟩
    rw [Seam.hang_of_ne hne]
    cases i.direction <;> rfl
  · rintro ⟨e, he, hi⟩
    obtain ⟨place?, he'⟩ := h.rehung.edge i.edge e he
    refine ⟨_, he', hi.trans ?_⟩
    rw [Seam.hang_of_ne hne]
    cases i.direction <;> rfl

theorem mem_flatMap_strands (hn : ¬ g.IsConstraint n)
    (hl : ∀ i, i ∈ l ↔ g.Incident i ∧ i.this = n) :
    i ∈ l.flatMap (Seam.strands seam?) ↔ g'.Incident i ∧ i.this = n := by
  cases seam? with
  | none =>
    rw [Seam.flatMap_strands_of_ne (fun _ _ s hs => absurd hs (Option.not_mem_none s)), hl,
      h.incident_iff (fun s hs => absurd hs (Option.not_mem_none s))]
  | some s =>
    have hrow := h.row
    -- an edge of the row that is seen from the node is its first one
    have hmoved : ∀ j ∈ l, j.edge ≠ s.moved.edge := by
      intro j hj hedge
      obtain ⟨hinc, hthis⟩ := (hl j).1 hj
      have heq := h.eq_head (Nat.lt_succ_self s.length) hinc (hthis ▸ hn) hedge
      rw [heq] at hedge
      exact absurd (s.link_edge_inj (k := s.length) hedge) (Nat.ne_of_lt hrow.pos)
    constructor
    · intro hi
      obtain ⟨j, hj, hij⟩ := List.mem_flatMap.1 hi
      obtain ⟨hinc, hthis⟩ := (hl j).1 hj
      have hinc' := (h.incident_iff (by rintro _ ⟨⟩; exact hmoved j hj)).2 hinc
      unfold Seam.strands at hij
      simp only at hij
      split at hij
      · rename_i hhead
        rcases List.mem_cons.1 hij with rfl | hij
        · exact ⟨hinc', hthis⟩
        · obtain rfl := List.mem_singleton.1 hij
          exact ⟨h.rehung.incident_moved hrow, by rw [← hthis, hhead]; rfl⟩
      · obtain rfl := List.mem_singleton.1 hij
        exact ⟨hinc', hthis⟩
    · rintro ⟨hinc, hthis⟩
      by_cases hedge : i.edge = s.moved.edge
      · obtain rfl := h.eq_moved hinc (hthis ▸ hn) hedge
        refine List.mem_flatMap.2 ⟨s.link 0, (hl _).2 ⟨hrow.incident (Nat.succ_pos _), hthis⟩, ?_⟩
        rw [Seam.strands_head]
        simp
      · have hinc := (h.incident_iff (by rintro _ ⟨⟩; exact hedge)).1 hinc
        exact List.mem_flatMap.2 ⟨i, (hl i).2 ⟨hinc, hthis⟩, Seam.mem_strands_self _ i⟩

/-- The edge that has come apart stands directly behind the first edge of the row. -/
theorem pairwise_flatMap_strands (hn : ¬ g.IsConstraint n)
    (hl : ∀ i ∈ l, g.Incident i ∧ i.this = n) (hsorted : l.Pairwise Before) :
    (l.flatMap (Seam.strands seam?)).Pairwise Before := by
  cases seam? with
  | none => rwa [Seam.flatMap_strands_of_ne (fun _ _ s hs => absurd hs (Option.not_mem_none s))]
  | some s =>
    have hpos := h.row.pos
    have hbehind : Before (s.link 0) s.moved := .inl (by
      show s.edge + 0 < s.edge + s.length
      omega)
    have hfirst : ∀ {i x}, x ∈ Seam.strands (some s) i → x = i ∨ i = s.link 0 ∧ x = s.moved := by
      intro i x hx
      by_cases hi : i = s.link 0
      · rw [hi, Seam.strands_head] at hx
        simp only [List.mem_cons, List.not_mem_nil, or_false] at hx
        exact hx.imp (·.trans hi.symm) fun hx => ⟨hi, hx⟩
      · rw [Seam.strands_of_ne (by rintro _ ⟨⟩; exact hi)] at hx
        exact .inl (List.mem_singleton.1 hx)
    rw [List.pairwise_flatMap]
    refine ⟨fun i hi => ?_, hsorted.imp_of_mem fun {i j} hi hj hij => ?_⟩
    · by_cases hhead : i = s.link 0
      · rw [hhead, Seam.strands_head]
        exact List.pairwise_pair.2 hbehind
      · rw [Seam.strands_of_ne (by rintro _ ⟨⟩; exact hhead)]
        exact List.pairwise_singleton _ _
    · intro x hx y hy
      -- nothing that is seen from the node lies between the two edges
      have hafter : i = s.link 0 → s.moved.edge.index < j.edge.index := by
        rintro rfl
        refine Nat.lt_of_not_le fun hle => ?_
        have hge : s.edge ≤ j.edge.index := by
          rcases hij with hlt | ⟨heq, -⟩
          · exact Nat.le_of_lt hlt
          · rw [← heq]
            exact Nat.le_refl _
        have hle : j.edge.index ≤ s.edge + s.length := hle
        obtain ⟨m, hm⟩ := Nat.exists_eq_add_of_le hge
        have hedge : j.edge = (s.link m).edge := by
          rw [show j.edge = ⟨j.edge.index⟩ from rfl, hm]
          rfl
        obtain rfl := h.eq_head (j := m) (by omega) (hl j hj).1 ((hl j hj).2 ▸ hn) hedge
        exact not_before_of_before hij hij
      have hlead : j = s.link 0 → i.edge.index < s.edge := by
        rintro rfl
        rcases hij with hlt | ⟨-, -, hd⟩
        · exact hlt
        · cases hd
      rcases hfirst hx with rfl | ⟨hi', rfl⟩ <;> rcases hfirst hy with rfl | ⟨hj', rfl⟩
      · exact hij
      · exact .inl (Nat.lt_of_lt_of_le (hlead hj') (Nat.le_add_right _ _))
      · exact .inl (hafter hi')
      · rw [hi', hj'] at hij
        exact absurd hij (not_before_of_before hij)

/-- At a node that is no constraint, the edge that has come apart is listed behind the edge to the
row. -/
theorem incidencesOf (hn : g.IsNode n) (hcon : ¬ g.IsConstraint n)
    (hl : g.incidencesOf n = .ok l) :
    g'.incidencesOf n = .ok (l.flatMap (Seam.strands seam?)) := by
  have hmem := fun i => h.rooted.regular.consistent.mem_incidencesOf hl hn (i := i)
  refine h.rooted'.regular.consistent.incidencesOf_eq (h.rehung.isNode_iff.2 hn) ?_ ?_
  · exact h.pairwise_flatMap_strands hcon (fun i hi => (hmem i).1 hi)
      (h.rooted.regular.consistent.incidencesOf_pairwise hn hl)
  · exact fun i => h.mem_flatMap_strands hcon hmem

-- ---------------------------------------------------------------------------
-- What is left at a node
-- ---------------------------------------------------------------------------

section Left

variable {visited visited' : List Handle} (hv : ∀ x, x ∈ visited' ↔ x ∈ visited)

include hv

omit h in
theorem left_strands (heven : Seam.Even seam? visited) (i : Incidence) :
    ((Seam.strands seam? i).filter fun i => decide (Handle.edge i.edge ∉ visited')).map
        Plan.Entry.along =
      (([i].filter fun i => decide (Handle.edge i.edge ∉ visited)).map Plan.Entry.along).flatMap
        (Seam.threads seam?) := by
  by_cases hhead : ∃ s ∈ seam?, i = s.link 0
  · obtain ⟨s, hs, rfl⟩ := hhead
    cases hs
    have hmoved := heven.moved_iff
    by_cases hold : Handle.edge (s.link 0).edge ∈ visited
    · simp [Seam.strands_head, hv, hold, hmoved.2 hold]
    · have hnew : Handle.edge s.moved.edge ∉ visited := fun hin => hold (hmoved.1 hin)
      simp [Seam.strands_head, Seam.threads, hv, hold, hnew]
  · have hne : ∀ s ∈ seam?, i ≠ s.link 0 := fun s hs heq => hhead ⟨s, hs, heq⟩
    by_cases hold : Handle.edge i.edge ∈ visited <;>
      simp [Seam.strands_of_ne hne, Seam.threads, hv, hold]

/-- The same is left at a node, next to what has come apart. -/
theorem pendingEntries (heven : Seam.Even seam? visited) (hn : g.IsNode n)
    (hcon : ¬ g.IsConstraint n) :
    Concurs (fun es es' => es' = es.flatMap (Seam.threads seam?)) (Plan.pendingEntries g n visited)
      (Plan.pendingEntries g' n visited') := by
  obtain ⟨l, hl, -⟩ := h.rooted.regular.consistent.incidencesOf_ok hn
  simp only [Plan.pendingEntries, hl, h.incidencesOf hn hcon hl]
  refine .ok ?_
  rw [List.filter_flatMap, List.map_flatMap]
  clear hl
  induction l with
  | nil => rfl
  | cons i l ih =>
    rw [List.flatMap_cons, ih, left_strands hv heven, ← List.flatMap_append, ← List.map_append,
      ← List.filter_append]
    rfl

/-- At an unnamed node no row comes apart. -/
theorem pending_unnamed (hn : g.IsPlace n) (hunnamed : g.Unnamed (.node n)) :
    Concurs (List.Forall₂ fun x y => y.1 = x.1 ∧ y.2.label = x.2.label)
      (Failure.ofFault (Chain.pending g n visited))
      (Failure.ofFault (Chain.pending g' n visited')) := by
  obtain ⟨l, hl, hmem⟩ := h.rooted.regular.consistent.incidencesOf_ok hn.1
  have hcon : ¬ g.IsConstraint n := fun hc => Regular.not_isPlace_of_isConstraint hc hn
  have hl' := h.incidencesOf hn.1 hcon hl
  -- a seam is at a node with a name, so nothing is moved here
  have hplain : l.flatMap (Seam.strands seam?) = l := by
    refine Seam.flatMap_strands_of_ne fun i hi s hs heq => ?_
    obtain ⟨name, hname⟩ := (h.seam s hs).named
    refine hunnamed name ?_
    rw [← ((hmem i).1 hi).2, heq]
    exact hname
  rw [hplain] at hl'
  simp only [Chain.pending, hl, hl', hv]
  refine .ok ?_
  clear hl hl' hmem hplain
  -- along the incidences: the same edges remain, up to where they were written
  induction l with
  | nil => exact .nil
  | cons i l ih =>
    by_cases hold : Handle.edge i.edge ∈ visited
    · simpa [hold] using ih
    · cases he : g.edge? i.edge with
      | none => simpa [hold, he, h.rehung.edge?_none he] using ih
      | some e =>
        obtain ⟨place?, he'⟩ := h.rehung.edge i.edge e he
        simpa [hold, he, he'] using ⟨rfl, ih⟩

end Left

end Parted

-- ---------------------------------------------------------------------------
-- Chains
-- ---------------------------------------------------------------------------

/-- The chain collects constraints at unnamed nodes only, so no row comes apart there. -/
def Seam.Spares (seam? : Option Seam) (c : Chain) : Prop :=
  ∀ i ∈ c.constraints, ∀ s ∈ seam?, i ≠ s.link 0

theorem Context.Akin.edgeSegment {cx cx' : Context} (hcx : cx.Akin cx') {e e' : PatternEdge}
    (hlabel : e'.label = e.label) (d : Direction) :
    Concurs Eq (cx.edgeSegment e d) (cx'.edgeSegment e' d) := by
  unfold Context.edgeSegment
  rw [hcx.engine, PatternEdge.typeName?_of_label hlabel]
  cases cx.engine <;> cases d
  case containment.into => exact .refuse cx cx' _ _
  all_goals exact .ok rfl

theorem map_fst_eq_of_forall₂ {left left' : List (Incidence × PatternEdge)}
    (h : List.Forall₂ (fun x y => y.1 = x.1 ∧ y.2.label = x.2.label) left left') :
    left'.map (·.1) = left.map (·.1) := by
  induction h with
  | nil => rfl
  | cons hxy _ ih => rw [List.map_cons, List.map_cons, hxy.1, ih]

namespace Parted

variable {cx cx' : Context} {seam? : Option Seam} {g₀ g g₀' g' : PatternGraph} {n : NodeId}
  {visited visited' : List Handle}

/-- A chain goes on in the same way, if it does so from the next node. -/
theorem onward (hcx : cx.Akin cx') (nd : PatternNode) (place? : Option Int)
    {left left' : List (Incidence × PatternEdge)}
    (hleft : List.Forall₂ (fun x y => y.1 = x.1 ∧ y.2.label = x.2.label) left left')
    (hspare : ∀ x ∈ left, ∀ s ∈ seam?, x.1 ≠ s.link 0)
    (hwalk : ∀ i e, left.filter (·.2.kind.structural) = [(i, e)] →
      Concurs (fun c c' => c' = c ∧ Seam.Spares seam? c)
        (Chain.walk cx g i.that (.edge i.edge :: .node n :: visited))
        (Chain.walk cx' g' i.that (.edge i.edge :: .node n :: visited'))) :
    Concurs (fun c c' => c' = c ∧ Seam.Spares seam? c) (Chain.onward cx g n nd visited left)
      (Chain.onward cx' g' n { nd with tokenIndex? := place? } visited' left') := by
  -- filtering by kind keeps the two alike, since kinds are part of the labels
  have hfilter : ∀ f : EdgeKind → Bool,
      List.Forall₂ (fun x y => y.1 = x.1 ∧ y.2.label = x.2.label)
        (left.filter fun x => f x.2.kind) (left'.filter fun x => f x.2.kind) := by
    intro f
    refine List.rel_filter (fun x y hxy => ?_) hleft
    show f x.2.kind = true ↔ f y.2.kind = true
    rw [PatternEdge.kind_of_label hxy.2]
  have hconstraints := map_fst_eq_of_forall₂ (hfilter fun k => decide (k = .precedes))
  have hspared : ∀ i ∈ (left.filter fun x => decide (x.2.kind = .precedes)).map (·.1),
      ∀ s ∈ seam?, i ≠ s.link 0 := by
    intro i hi
    obtain ⟨x, hx, rfl⟩ := List.mem_map.1 hi
    exact hspare x (List.mem_filter.1 hx).1
  have hstructural := hfilter EdgeKind.structural
  unfold Chain.onward
  -- the constraints are the same; how many edges go on decides what the chain does
  rw [hconstraints]
  generalize left.filter (fun x => x.2.kind.structural) = branches at hstructural hwalk
  generalize left'.filter (fun x => x.2.kind.structural) = branches' at hstructural
  cases hstructural with
  | nil => exact .ok ⟨rfl, hspared⟩
  | @cons x y xs ys hxy hrest =>
    obtain ⟨i, e⟩ := x
    obtain ⟨i', e'⟩ := y
    obtain ⟨hi, hlabel⟩ := hxy
    obtain rfl : i' = i := hi
    have hname : e'.anonymous = e.anonymous := by
      rw [PatternEdge.anonymous, PatternEdge.anonymous, PatternEdge.name?_of_label hlabel]
    cases hrest with
    | nil =>
      simp only [hname]
      split
      · refine (hcx.edgeSegment hlabel i'.direction).bind fun segment segment' _ _ hsegment => ?_
        refine (hwalk i' e rfl).bind fun c c' _ _ hc => ?_
        obtain ⟨rfl, hspares⟩ := hc
        rw [hsegment]
        refine .ok ⟨rfl, fun j hj => ?_⟩
        rcases List.mem_append.1 hj with hj | hj
        · exact hspared j hj
        · exact hspares j hj
      · exact .ok ⟨rfl, hspared⟩
    | cons => exact .refuse cx cx' _ _

variable (h : Parted cx cx' seam? g₀ g g₀' g')

include h

theorem walk (hv : ∀ x, x ∈ visited' ↔ x ∈ visited) (hn : g.IsPlace n) :
    Concurs (fun c c' => c' = c ∧ Seam.Spares seam? c) (Chain.walk cx g n visited)
      (Chain.walk cx' g' n visited') := by
  -- on how much is unseen, which is as much on both sides
  induction hm : unseen g.handles visited using Nat.strongRecOn generalizing n visited visited' with
  | ind m ih =>
    obtain ⟨nd, hnode⟩ := hn.1.exists_node
    obtain ⟨place?, hnode'⟩ := h.rehung.node? hnode
    by_cases hknown : nd.anonymous = false ∨ .node n ∈ visited
    · rw [Chain.walk_known hnode hknown,
        Chain.walk_known hnode' (hknown.imp id (hv _).2)]
      exact .ok ⟨rfl, fun _ hi => absurd hi List.not_mem_nil⟩
    · have hfresh' : ¬ (({ nd with tokenIndex? := place? } : PatternNode).anonymous = false ∨
          .node n ∈ visited') := fun hk => hknown (hk.imp id (hv _).1)
      have hunnamed : g.Unnamed (.node n) := (unnamed_node_iff hn.1 hnode).2 (by
        simpa using fun hk => hknown (.inl hk))
      rw [Chain.walk_fresh hnode hknown, Chain.walk_fresh hnode' hfresh']
      refine (h.pending_unnamed (Handle.congr_cons hv _) hn hunnamed).bind
        fun left left' hleft _ hsame => ?_
      rw [Failure.ofFault_eq_ok_iff] at hleft
      refine onward h.akin nd place? hsame (fun x hx s hs heq => ?_) fun i e honly => ?_
      · -- no incidence of this node is a seam's: the seam's node has a name
        obtain ⟨name, hname⟩ := (h.seam s hs).named
        obtain ⟨-, hthis, -⟩ := (Chain.mem_pending h.rooted.regular.consistent hn.1 hleft).1 hx
        refine hunnamed name ?_
        rw [← hthis, heq]
        exact hname
      · -- the edge goes on to a place again
        obtain ⟨hi, -, -, -, hs⟩ :=
          Chain.incident_of_only h.rooted.regular.consistent hn.1 hleft honly
        refine ih _ ?_ (Handle.congr_append hv [_, _]) (h.rooted.regular.isPlace_that hi hs) rfl
        rw [← hm]
        exact unseen_lt (mem_handles_of_node? hnode) (fun hmem => hknown (.inr hmem)) (by simp)
          (fun y hy => by simp [hy])

end Parted

end GraphPattern
