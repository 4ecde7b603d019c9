import GraphPattern.Proofs.StackAgendas
import GraphPattern.Proofs.WalkCourse
import GraphPattern.Proofs.Provenance

/-!
# GraphPattern — the legs of a walk

An edge is followed to its far end, or as a chain to the end of the chain. Either way the walk
reads on in the pattern, from the edge token to a later node token, and does not skip anything but
the constraints of the nodes that it passes. These are put in front of what else is on the stack.

* `Plan.Leg` — a stretch of the pattern that is read with one edge.
* `Plan.leg_of_walks` — a chain is a leg.
* `Plan.Emits.reads` — what is emitted for an edge of the model reads a leg.
-/

namespace GraphPattern

open PatternGraph PatternGraph.Drawing

namespace Plan

/-- The entry of the first constraint of a row. -/
def headEntry (cx : Context) (ts : List Token) (p : Nat) : Entry :=
  .along (headAt cx ts p)

/-- A stretch of the pattern, from one node token behind an edge to another, that is read at once:
its nodes and edges of the model, and the rows of constraints in it that are left for later. -/
structure Leg (cx : Context) (ts : List Token) (g : PatternGraph) (visited : List Handle)
    (p q : Nat) (elements : List Handle) (constraints : List Incidence) (deferred : List Nat) :
    Prop where
  le : p ≤ q
  terminal : ∃ t, ts[q]? = some (.node t)
  arrive : ∀ k t, p ≤ k → k ≤ q → ts[k]? = some (.node t) → arrives ts k = true
  edges : ∀ k t, ts[k]? = some (.edge t) →
    (.edge ⟨edgeIndex cx ts k⟩ ∈ elements ↔ p ≤ k ∧ k < q)
  structural : ∀ k e, .edge k ∈ elements → g.edge? k = some e → e.kind.structural = true
  entered : ∀ k t, p ≤ k → k ≤ q → ts[k]? = some (.node t) → .node (nodeAt cx ts k) ∈ elements
  nodes : ∀ n, .node n ∈ elements → ∃ k t, k ≤ q ∧ ts[k]? = some (.node t) ∧ n = nodeAt cx ts k
  rows : ∀ k, k ∈ deferred ↔
    p ≤ k ∧ k < q ∧ Heads ts k ∧ ∃ t, ts[k]? = some (.constraint t)
  sorted : deferred.Pairwise (· < ·)
  /-- The entries of the terminal come before those of the way so far, and the deferred rows before
  all of them. -/
  queue : ∀ more, visited ⊆ more → elements ⊆ more →
    Agree more
      (constraints.map .along ++ (entriesAt g (nodeAt cx ts q) ++ agenda g (wayBefore cx ts p)))
      (deferred.map (headEntry cx ts) ++ agenda g (wayBefore cx ts (q + 1)))

variable {cx : Context} {ts : List Token} {g₀ g : PatternGraph} {visited : List Handle} {p q : Nat}

/-- The nodes of a leg are met up to its end. -/
theorem Leg.le_of_mem {elements : List Handle} {constraints : List Incidence} {deferred : List Nat}
    (hleg : Leg cx ts g visited p q elements constraints deferred) {k : Nat} {t : NodeToken}
    (ht : ts[k]? = some (.node t)) (hhome : home ts k = k)
    (hk : .node (nodeAt cx ts k) ∈ elements) : k ≤ q := by
  obtain ⟨j, u, hj, hu, heq⟩ := hleg.nodes _ hk
  rw [← hhome, home_eq_of_nodeAt_eq ht hu heq]
  exact Nat.le_trans (home_le ts j) hj

/-! ## Nodes without names -/

/-- Nothing but constraints stands between a node without a name and the edge that leaves it. -/
theorem constraints_between (h : Drawn cx ts g₀ g) {t : NodeToken} (ht : ts[p]? = some (.node t))
    (hname : t.name? = none) (hq : ∀ u : NodeToken, ts[q]? ≠ some (.node u)) (hlen : q ≤ ts.length)
    (hcurrent : currentBefore cx ts q = nodeAt cx ts p) :
    p < q ∧ ∀ k, p < k → k < q → ∃ u, ts[k]? = some (.constraint u) := by
  rcases currentBefore_cases cx ts q with ⟨hanchor, -⟩ | ⟨j, hj, u, hu, heq, hnone⟩
  · exact absurd (hcurrent.symm.trans hanchor) nodeAt_ne_anchor
  · obtain rfl : j = p := eq_of_nodeAt_eq ht hname hu (heq.symm.trans hcurrent)
    refine ⟨hj, fun k hk hkq => ?_⟩
    cases hv : ts[k]? with
    | none =>
      have := List.getElem?_eq_none_iff.1 hv
      omega
    | some v =>
      cases v with
      | node v => exact absurd hv (hnone k hk hkq v)
      | constraint v => exact ⟨v, rfl⟩
      | edge v =>
        -- an edge token would be followed by a node token
        obtain ⟨w, hw⟩ := h.wellFormed.target k v hv
        rcases Nat.lt_or_eq_of_le (Nat.succ_le_of_lt hkq) with hlt | heq
        · exact absurd hw (hnone (k + 1) (by omega) hlt w)
        · exact absurd (heq ▸ hw) (hq w)

/-- A row of constraints at a node without a name stands right behind the node. -/
theorem eq_succ_of_head (h : Drawn cx ts g₀ g) {t : NodeToken} {u : ConstraintToken}
    (ht : ts[p]? = some (.node t)) (hname : t.name? = none) (hu : ts[q]? = some (.constraint u))
    (hheads : Heads ts q) (hcurrent : currentBefore cx ts q = nodeAt cx ts p) : q = p + 1 := by
  obtain ⟨hlt, hall⟩ := constraints_between h ht hname
    (fun v hv => ne_of_tokens hu hv Token.noConfusion rfl) (Nat.le_of_lt (lt_length hu)) hcurrent
  refine Classical.byContradiction fun hne => ?_
  obtain ⟨v, hv⟩ := hall (q - 1) (by omega) (by omega)
  exact hheads (q - 1) v (by omega) hv

/-- An edge of the model that is new at a node without a name leads on from it. -/
theorem leads_from_unnamed (h : Drawn cx ts g₀ g) {t : NodeToken} {x : Incidence}
    (ht : ts[p]? = some (.node t)) (hname : t.name? = none) (hx : g.Incident x)
    (hs : g.Structural x) (hthis : x.this = nodeAt cx ts p)
    (hbelow : ∀ k u, ts[k]? = some (.edge u) → k < p → .edge ⟨edgeIndex cx ts k⟩ ∈ visited)
    (hnew : Handle.edge x.edge ∉ visited) :
    ∃ r u, p < r ∧ ts[r]? = some (.edge u) ∧ x.edge = ⟨edgeIndex cx ts r⟩ ∧
      x.that = nodeAt cx ts (r + 1) ∧
      ∀ k, p < k → k < r → ∃ u, ts[k]? = some (.constraint u) := by
  obtain ⟨r, u, hu, hedge, hends⟩ := h.exists_edge hx hs
  -- the edge is new, so it is drawn after the node, whose earlier edges are all seen
  have hpr : p ≤ r := Nat.le_of_not_lt fun hlt => hnew (hedge ▸ hbelow r u hu hlt)
  obtain ⟨v, hv⟩ := h.wellFormed.target r u hu
  rcases hends with ⟨hcurrent, hthat⟩ | ⟨hnext, -⟩
  · -- a nameless node is left by the first edge after it, past the constraints in between
    obtain ⟨hlt, hall⟩ := constraints_between h ht hname
      (fun v hv => ne_of_tokens hu hv Token.noConfusion rfl) (Nat.le_of_lt (lt_length hu))
      (hcurrent.symm.trans hthis)
    exact ⟨r, u, hlt, hu, hedge, hthat, hall⟩
  · -- it is also entered only where it stands, so no later edge ends there
    have := eq_of_nodeAt_eq ht hname hv (hnext.symm.trans hthis)
    omega

/-- Nothing starts at a node at which an edge arrives. -/
theorem not_start_of_arrives (h : Drawn cx ts g₀ g) {t : NodeToken} {x : Incidence}
    (ht : ts[p]? = some (.node t)) (hname : t.name? = none) (harr : arrives ts p = true)
    (hx : g.Incident x) (hthis : x.this = nodeAt cx ts p) :
    g.Structural x ∨ g.Precedes x := by
  rcases h.rooted.incident_cases hx with hs | hp | ⟨s, hs, he⟩
  · exact .inl hs
  · exact .inr hp
  · obtain ⟨j, u, hu, -, halone, rfl⟩ := h.exists_of_isStart hs
    have heq := h.rooted.this_eq_of_startEdge hx he (hthis ▸ h.isPlace_node ht)
    obtain rfl := eq_of_nodeAt_eq ht hname hu (heq.symm.trans hthis)
    rw [harr] at halone
    cases halone

/-! ## Legs from chains -/

/-- Repetitions of an entry are no loss. -/
theorem Agree.of_forall_eq {x : Entry} {l : List Entry} (hne : l ≠ []) (h : ∀ y ∈ l, y = x) :
    Agree visited l [x] := by
  obtain ⟨y, l, rfl⟩ := List.exists_cons_of_ne_nil hne
  obtain rfl := h y (by simp)
  simpa using Agree.absorb [y] [] (a := l) fun z hz => .inr (by simp [h z (by simp [hz])])

/-- A leg that ends where it begins. -/
theorem Leg.single {t : NodeToken} {constraints : List Incidence} (ht : ts[p]? = some (.node t))
    (harr : arrives ts p = true)
    (hextra : ∀ more, visited ⊆ more →
      Agree more (constraints.map .along ++ entriesAt g (nodeAt cx ts p))
        (entriesAt g (nodeAt cx ts p))) :
    Leg cx ts g visited p p [.node (nodeAt cx ts p)] constraints [] where
  le := Nat.le_refl p
  terminal := ⟨t, ht⟩
  arrive := by
    intro k _ hk hk' _
    obtain rfl := Nat.le_antisymm hk hk'
    exact harr
  edges := by
    intro k u _
    simp only [List.mem_singleton, reduceCtorEq, false_iff, not_and, Nat.not_lt]
    exact id
  structural := by simp
  entered := by
    intro k u hk hk' _
    obtain rfl := Nat.le_antisymm hk hk'
    simp
  nodes := by
    intro n hn
    exact ⟨p, t, Nat.le_refl p, ht, by simpa using hn⟩
  rows := by
    intro k
    simp only [List.not_mem_nil, false_iff]
    rintro ⟨hk, hk', -⟩
    omega
  sorted := .nil
  queue := by
    intro more hvisited _
    rw [← List.append_assoc, wayBefore_arrives ht harr]
    exact ((hextra more hvisited).append (.refl _ _)).trans (agree_erase _ _ _)

/-- Only one row of constraints hangs on a node without a name. -/
theorem eq_headAt (h : Drawn cx ts g₀ g) {t : NodeToken} {y : Incidence}
    (ht : ts[p]? = some (.node t)) (hname : t.name? = none) (hy : g.Incident y)
    (hthis : y.this = nodeAt cx ts p) (hp : g.Precedes y) :
    y = headAt cx ts (p + 1) ∧ ∃ u, ts[p + 1]? = some (.constraint u) := by
  obtain ⟨q, u, hu, hheads, rfl⟩ := h.exists_head hy hp
    (hthis ▸ fun hc => Regular.not_isPlace_of_isConstraint hc (h.isPlace_node ht))
  obtain rfl := eq_succ_of_head h ht hname hu hheads hthis
  exact ⟨rfl, u, hu⟩

/-- At a node without a name, the constraints come first anyway. -/
theorem agree_constraints (h : Drawn cx ts g₀ g) {t : NodeToken} {constraints : List Incidence}
    (ht : ts[p]? = some (.node t)) (hname : t.name? = none) (harr : arrives ts p = true)
    (hconstraints : ∀ y ∈ constraints, g.Incident y ∧ y.this = nodeAt cx ts p ∧ g.Precedes y)
    (hbelow : ∀ k u, ts[k]? = some (.edge u) → k < p → .edge ⟨edgeIndex cx ts k⟩ ∈ visited) :
    Agree visited (constraints.map .along ++ entriesAt g (nodeAt cx ts p))
      (entriesAt g (nodeAt cx ts p)) := by
  have hplace := h.isPlace_node ht
  intro more hsub
  rw [firstNew?_append]
  cases hfirst : firstNew? more (constraints.map Entry.along) with
  | none => rfl
  | some x =>
    obtain ⟨hx, hnew⟩ := firstNew?_some hfirst
    obtain ⟨y, hy, rfl⟩ := List.mem_map.1 hx
    obtain ⟨hinc, hthis, hp⟩ := hconstraints y hy
    obtain ⟨i, hi, hiinc, hithis, hinew, hle⟩ :=
      firstNew?_entriesAt h.consistent hplace.1 hinc hthis hnew
    obtain ⟨rfl, u, hu⟩ := eq_headAt h ht hname hinc hthis hp
    refine Option.some_or.trans (.symm ?_)
    rw [hi]
    rcases not_start_of_arrives h ht hname harr hiinc hithis with hs | hp'
    · obtain ⟨r, v, hpr, hv, hedge, -⟩ :=
        leads_from_unnamed h ht hname hiinc hs hithis (fun k w hw hk => hsub (hbelow k w hw hk)) hinew
      -- the edge that leads on is made later than the constraint
      rw [hedge] at hle
      have hrp := le_of_edgeIndex_le (madeEdge?_constraint cx hu) hle
      obtain rfl : r = p + 1 := by omega
      rw [hu] at hv
      cases hv
    · rw [(eq_headAt h ht hname hiinc hithis hp').1]

/-- The row of constraints that is left behind at a node without a name, if there is one. -/
theorem exists_own (h : Drawn cx ts g₀ g) {t : NodeToken} {own : List Incidence}
    (ht : ts[p]? = some (.node t)) (hname : t.name? = none)
    (hown : ∀ y, y ∈ own ↔ g.Incident y ∧ y.this = nodeAt cx ts p ∧
      Handle.edge y.edge ∉ visited ∧ g.Precedes y)
    (habove : ∀ k u, ts[k]? = some (.constraint u) → Heads ts k → p ≤ k →
      Handle.edge ⟨edgeIndex cx ts k⟩ ∉ visited) :
    ∃ front : List Nat, (∀ k, k ∈ front ↔ k = p + 1 ∧ ∃ u, ts[p + 1]? = some (.constraint u)) ∧
      front.Pairwise (· < ·) ∧
      ∀ more, Agree more (own.map .along) (front.map (headEntry cx ts)) := by
  -- the own constraints of a nameless node are at most one, the head right after it
  by_cases hc : ∃ u, ts[p + 1]? = some (.constraint u)
  · obtain ⟨u, hu⟩ := hc
    refine ⟨[p + 1], by simp [hu], by simp, fun more => Agree.of_forall_eq ?_ ?_⟩
    · -- a constraint follows: the queue gains its entry as the walk gives it
      have hheads : Heads ts (p + 1) := (settled_succ ht).heads u hu
      obtain ⟨hinc, hp⟩ := h.incident_head hu hheads
      have hthis : (headAt cx ts (p + 1)).this = nodeAt cx ts p := by
        show currentBefore cx ts (p + 1) = nodeAt cx ts p
        rw [currentBefore, ht]
      exact List.ne_nil_of_mem (List.mem_map_of_mem
        ((hown _).2 ⟨hinc, hthis, habove (p + 1) u hu hheads (Nat.le_succ p), hp⟩))
    · intro x hx
      obtain ⟨y, hy, rfl⟩ := List.mem_map.1 hx
      obtain ⟨hinc, hthis, -, hp⟩ := (hown y).1 hy
      rw [(eq_headAt h ht hname hinc hthis hp).1]
      rfl
  · -- none follows: the node has no constraint of its own
    have hnil : own = [] := by
      refine List.eq_nil_iff_forall_not_mem.2 fun y hy => hc ?_
      obtain ⟨hinc, hthis, -, hp⟩ := (hown y).1 hy
      exact (eq_headAt h ht hname hinc hthis hp).2
    refine ⟨[], by simp [hc], .nil, fun more => ?_⟩
    rw [hnil]
    exact .refl _ _

section

variable {t : NodeToken} {u : EdgeToken} {r : Nat} {i : Incidence} {elements : List Handle}
  {constraints own : List Incidence} {deferred front : List Nat}

/-- Where only constraints stand in front of an edge token, no node token does. -/
theorem no_node_between (hu : ts[r]? = some (.edge u))
    (hbetween : ∀ k, p < k → k < r → ∃ u, ts[k]? = some (.constraint u)) {k : Nat} (hk : p < k)
    (hkr : k ≤ r) (v : NodeToken) : ts[k]? ≠ some (.node v) := by
  intro hv
  rcases Nat.lt_or_eq_of_le hkr with hkr | rfl
  · obtain ⟨w, hw⟩ := hbetween k hk hkr
    exact ne_of_tokens hv hw Token.noConfusion rfl
  · exact ne_of_tokens hv hu Token.noConfusion rfl

/-- With one more node in front, a leg has the row behind that node as well. -/
theorem Leg.rows_cons (ht : ts[p]? = some (.node t)) (hpr : p < r) (hu : ts[r]? = some (.edge u))
    (hbetween : ∀ k, p < k → k < r → ∃ u, ts[k]? = some (.constraint u))
    (hfront : ∀ k, k ∈ front ↔ k = p + 1 ∧ ∃ u, ts[p + 1]? = some (.constraint u))
    {seen : List Handle} (hleg : Leg cx ts g seen (r + 1) q elements constraints deferred)
    (k : Nat) : k ∈ front ++ deferred ↔
      p ≤ k ∧ k < q ∧ Heads ts k ∧ ∃ v, ts[k]? = some (.constraint v) := by
  have hle := hleg.le
  rw [List.mem_append, hfront, hleg.rows]
  constructor
  · rintro (⟨rfl, v, hv⟩ | ⟨hk, hkq, hrest⟩)
    · refine ⟨Nat.le_succ p, ?_, (settled_succ ht).heads v hv, v, hv⟩
      omega
    · exact ⟨by omega, hkq, hrest⟩
  · rintro ⟨hk, hkq, hheads, v, hv⟩
    have hkp : k ≠ p := ne_of_tokens hv ht Token.noConfusion
    have hkr : k ≠ r := ne_of_tokens hv hu Token.noConfusion
    by_cases hlt : r < k
    · exact .inr ⟨hlt, hkq, hheads, v, hv⟩
    · -- a row that does not start right behind the node is none
      have hfirst : k = p + 1 := by
        refine Classical.byContradiction fun hne => ?_
        obtain ⟨w, hw⟩ := hbetween (k - 1) (by omega) (by omega)
        exact hheads (k - 1) w (by omega) hw
      exact .inl ⟨hfirst, v, hfirst ▸ hv⟩

/-- Whatever is left at the first node of a leg is one of the constraints of the node. -/
theorem handle_mem_or_own (h : Drawn cx ts g₀ g) (ht : ts[p]? = some (.node t))
    (hname : t.name? = none) (harr : arrives ts p = true)
    (hown : ∀ y, y ∈ own ↔ g.Incident y ∧ y.this = nodeAt cx ts p ∧
      Handle.edge y.edge ∉ visited ∧ g.Precedes y)
    (hfollowed : ∀ y, g.Incident y → y.this = nodeAt cx ts p → g.Structural y →
      .edge y.edge ∈ visited ∨ y = i)
    {more : List Handle} (hvisited : visited ⊆ more) (hi : .edge i.edge ∈ more) {x : Entry}
    (hx : x ∈ entriesAt g (nodeAt cx ts p)) : x.handle ∈ more ∨ x ∈ own.map Entry.along := by
  obtain ⟨y, rfl, hy, hthis⟩ := (mem_entriesAt h.consistent (h.isPlace_node ht).1).1 hx
  rcases not_start_of_arrives h ht hname harr hy hthis with hys | hyp
  · rcases hfollowed y hy hthis hys with hv | rfl
    · exact .inl (hvisited hv)
    · exact .inl hi
  · by_cases hv : Handle.edge y.edge ∈ visited
    · exact .inl (hvisited hv)
    · exact .inr (List.mem_map_of_mem ((hown y).2 ⟨hy, hthis, hv, hyp⟩))

/-- One more node in front of a leg. -/
theorem Leg.cons (h : Drawn cx ts g₀ g) (ht : ts[p]? = some (.node t)) (hname : t.name? = none)
    (harr : arrives ts p = true) (hpr : p < r) (hu : ts[r]? = some (.edge u))
    (hi : i.edge = ⟨edgeIndex cx ts r⟩) (hs : g.Structural i)
    (hbetween : ∀ k, p < k → k < r → ∃ u, ts[k]? = some (.constraint u))
    (hown : ∀ y, y ∈ own ↔ g.Incident y ∧ y.this = nodeAt cx ts p ∧
      Handle.edge y.edge ∉ visited ∧ g.Precedes y)
    (hfollowed : ∀ y, g.Incident y → y.this = nodeAt cx ts p → g.Structural y →
      .edge y.edge ∈ visited ∨ y = i)
    (habove : ∀ k u, ts[k]? = some (.constraint u) → Heads ts k → p ≤ k →
      Handle.edge ⟨edgeIndex cx ts k⟩ ∉ visited)
    (hleg : Leg cx ts g (.edge i.edge :: .node (nodeAt cx ts p) :: visited) (r + 1) q elements
      constraints deferred) :
    ∃ deferred', Leg cx ts g visited p q
      (.node (nodeAt cx ts p) :: .edge i.edge :: elements) (own ++ constraints) deferred' := by
  obtain ⟨front, hfront, hsorted, hagree⟩ := exists_own h ht hname hown habove
  have hle := hleg.le
  -- no node stands strictly between the two, so the leg grows by one place only
  have hnode : ∀ k, p < k → k ≤ r → ∀ v : NodeToken, ts[k]? ≠ some (.node v) :=
    fun k hk hkr => no_node_between hu hbetween hk hkr
  refine ⟨front ++ deferred, ?_⟩
  refine { le := by omega, terminal := hleg.terminal, arrive := ?_, edges := ?_, structural := ?_,
           entered := ?_, nodes := ?_, rows := hleg.rows_cons ht hpr hu hbetween hfront
           sorted := ?_, queue := ?_ }
  · -- arrive: the new place or one of the rest
    intro k v hk hkq hv
    rcases Nat.lt_or_eq_of_le hk with hk | rfl
    · refine hleg.arrive k v (Nat.lt_of_not_le fun hkr => hnode k hk hkr v hv) hkq hv
    · exact harr
  · -- edges: the new edge is the one at the row where the rest begins
    intro k v hv
    have hkp : k ≠ p := ne_of_tokens hv ht Token.noConfusion
    have hout : ¬ (p < k ∧ k < r) := by
      rintro ⟨hk, hkr⟩
      obtain ⟨w, hw⟩ := hbetween k hk hkr
      exact ne_of_tokens hv hw Token.noConfusion rfl
    simp only [List.mem_cons, reduceCtorEq, false_or, Handle.edge.injEq, hi, EdgeId.mk.injEq,
      hleg.edges k v hv, edgeIndex_eq_iff (madeEdge?_edge cx hv) (madeEdge?_edge cx hu)]
    omega
  · -- structural
    intro k e hk he
    simp only [List.mem_cons, reduceCtorEq, false_or, Handle.edge.injEq] at hk
    rcases hk with rfl | hk
    · obtain ⟨e', he', hkind⟩ := hs
      rw [he] at he'
      cases he'
      exact hkind
    · exact hleg.structural k e hk he
  · -- entered
    intro k v hk hkq hv
    rcases Nat.lt_or_eq_of_le hk with hk | rfl
    · have hkr : r < k := Nat.lt_of_not_le fun hkr => hnode k hk hkr v hv
      simp [hleg.entered k v hkr hkq hv]
    · simp
  · -- nodes
    intro n hn
    simp only [List.mem_cons, reduceCtorEq, false_or, Handle.node.injEq] at hn
    rcases hn with rfl | hn
    · exact ⟨p, t, by omega, ht, rfl⟩
    · exact hleg.nodes n hn
  · -- sorted: the new row stands before all the others
    rw [List.pairwise_append]
    refine ⟨hsorted, hleg.sorted, fun a ha b hb => ?_⟩
    obtain ⟨rfl, -⟩ := (hfront a).1 ha
    have := ((hleg.rows b).1 hb).1
    omega
  · -- queue: what the node adds to it is its own constraints, then the rest's
    intro more hvisited helements
    have hway : wayBefore cx ts (r + 1) = wayBefore cx ts (p + 1) :=
      wayBefore_eq (by omega) fun k hk hkr => hnode k (by omega) (by omega)
    have hrest := hleg.queue more (by grind) (by grind)
    rw [hway, wayBefore_arrives ht harr] at hrest
    -- its other entries are elements already, or among the constraints just queued
    have habsorbed : ∀ x ∈ entriesAt g (nodeAt cx ts p), x.handle ∈ more ∨
        x ∈ own.map Entry.along ++ (constraints.map .along ++ entriesAt g (nodeAt cx ts q)) :=
      fun x hx => (handle_mem_or_own h ht hname harr hown hfollowed hvisited
        (helements (by simp)) hx).imp id (List.mem_append_left _)
    have hback := (Agree.absorb _ (agenda g (wayBefore cx ts p)) habsorbed).symm
    have herase := agree_erase (g := g) more (nodeAt cx ts p) (wayBefore cx ts p)
    rw [List.map_append, List.map_append, List.append_assoc, List.append_assoc]
    rw [List.append_assoc, List.append_assoc, List.append_assoc, List.append_assoc] at hback
    refine hback.trans ((hagree more).append (.trans ?_ hrest))
    exact (Agree.refl _ _).append ((Agree.refl _ _).append herase)

end

/-- Where a chain may go on, the token has no name. -/
theorem name?_of_fresh (h : Drawn cx ts g₀ g) {t : NodeToken} {nd : PatternNode}
    (ht : ts[p]? = some (.node t)) (hnode : g.node? (nodeAt cx ts p) = some nd)
    (hfresh : ¬(nd.anonymous = false ∨ .node (nodeAt cx ts p) ∈ visited)) : t.name? = none := by
  obtain ⟨first, hname, -, hnd⟩ := h.node?_node ht
  rw [hnode] at hnd
  cases hnd
  rw [← hname]
  simp only [not_or, Bool.not_eq_false] at hfresh
  exact Option.isNone_iff_eq_none.1 hfresh.1

/-- A chain that stops at a node without a name, with the constraints of this node. -/
theorem Leg.last (h : Drawn cx ts g₀ g) {t : NodeToken} {left : List (Incidence × PatternEdge)}
    (ht : ts[p]? = some (.node t)) (hname : t.name? = none) (harr : arrives ts p = true)
    (hbelow : ∀ k u, ts[k]? = some (.edge u) → k < p → .edge ⟨edgeIndex cx ts k⟩ ∈ visited)
    (hleft : Chain.pending g (nodeAt cx ts p) (.node (nodeAt cx ts p) :: visited) = .ok left) :
    Leg cx ts g visited p p [.node (nodeAt cx ts p)]
      ((left.filter (·.2.kind = .precedes)).map (·.1)) [] := by
  refine Leg.single ht harr fun more hsub => ?_
  refine (agree_constraints h ht hname harr (fun y hy => ?_) hbelow).mono hsub
  obtain ⟨hinc, hthis, -, hp⟩ :=
    (Chain.mem_constraints h.consistent (h.isPlace_node ht).1 hleft).1 hy
  exact ⟨hinc, hthis, hp⟩

/-- A chain is a leg. -/
theorem leg_of_walks (h : Drawn cx ts g₀ g) {n : NodeId} {c : Chain} {t : NodeToken}
    (hc : Chain.Walks cx g n visited c) (ht : ts[p]? = some (.node t))
    (harr : arrives ts p = true) (hn : n = nodeAt cx ts p)
    (hbelow : ∀ k u, ts[k]? = some (.edge u) → k < p → .edge ⟨edgeIndex cx ts k⟩ ∈ visited)
    (habove : ∀ k u, ts[k]? = some (.constraint u) → Heads ts k → p ≤ k →
      Handle.edge ⟨edgeIndex cx ts k⟩ ∉ visited) :
    ∃ q deferred, Leg cx ts g visited p q c.elements c.constraints deferred ∧
      c.terminal = nodeAt cx ts q := by
  have hg := h.consistent
  -- along the chain; only a step goes on, from the node that its edge leads to
  induction hc generalizing p t with
  | @stop n nd visited node known =>
    subst hn
    exact ⟨p, [], .single ht harr fun more _ => .refl _ _, rfl⟩
  | @last n nd visited left node fresh hleft closed =>
    subst hn
    exact ⟨p, [], .last h ht (name?_of_fresh h ht node fresh) harr hbelow hleft, rfl⟩
  | @openEnd n nd visited left i e node fresh hleft only named =>
    subst hn
    exact ⟨p, [], .last h ht (name?_of_fresh h ht node fresh) harr hbelow hleft, rfl⟩
  | @step n nd visited left i e segment rest node fresh hleft only anonymous _ rest_walks ih =>
    subst hn
    have hname := name?_of_fresh h ht node fresh
    have hnode := (h.isPlace_node ht).1
    obtain ⟨hi, hthis, hnew, -, hs⟩ := Chain.incident_of_only hg hnode hleft only
    obtain ⟨r, u, hpr, hu, hedge, hthat, hbetween⟩ :=
      leads_from_unnamed h ht hname hi hs hthis hbelow hnew
    obtain ⟨v, hv⟩ := h.wellFormed.target r u hu
    -- the edges drawn before the next node are the ones before this, and the one between
    have hbelow' : ∀ k w, ts[k]? = some (.edge w) → k < r + 1 → Handle.edge ⟨edgeIndex cx ts k⟩ ∈
        Handle.edge i.edge :: .node (nodeAt cx ts p) :: visited := by
      intro k w hw hk
      rcases Nat.lt_trichotomy k p with hkp | rfl | hkp
      · simp [hbelow k w hw hkp]
      · rw [hw] at ht
        cases ht
      · rcases Nat.lt_or_eq_of_le (Nat.le_of_lt_succ hk) with hkr | rfl
        · obtain ⟨w', hw'⟩ := hbetween k hkp hkr
          rw [hw] at hw'
          cases hw'
        · simp [hedge]
    -- the constraints that head later rows are new still: the edge between is not one of them
    have habove' : ∀ k w, ts[k]? = some (.constraint w) → Heads ts k → r + 1 ≤ k →
        Handle.edge ⟨edgeIndex cx ts k⟩ ∉
          Handle.edge i.edge :: .node (nodeAt cx ts p) :: visited := by
      intro k w hw hheads hk
      have hne : edgeIndex cx ts k ≠ edgeIndex cx ts r := by
        intro heq
        have := eq_of_edgeIndex_eq (madeEdge?_constraint cx hw) (madeEdge?_edge cx hu) heq
        omega
      simp [hedge, hne, habove k w hw hheads (by omega)]
    obtain ⟨q, deferred, hleg, hterminal⟩ := ih hv (arrives_succ.2 ⟨u, hu⟩) hthat hbelow' habove'
    have hown : ∀ y, y ∈ (left.filter (·.2.kind = .precedes)).map (·.1) ↔ g.Incident y ∧
        y.this = nodeAt cx ts p ∧ Handle.edge y.edge ∉ visited ∧ g.Precedes y := by
      intro y
      rw [Chain.mem_constraints hg hnode hleft]
      simp
    obtain ⟨deferred', hleg'⟩ := Leg.cons h ht hname harr hpr hu hedge hs hbetween hown
      (Chain.eq_of_only hg hnode hleft only) habove hleg
    exact ⟨q, deferred', hleg', hterminal⟩

/-! ## Legs from emissions -/

theorem Leg.mono {more elements : List Handle} {constraints : List Incidence} {deferred : List Nat}
    (h : Leg cx ts g visited p q elements constraints deferred) (hsub : visited ⊆ more) :
    Leg cx ts g more p q elements constraints deferred :=
  { h with queue := fun more' hmore => h.queue more' (List.Subset.trans hsub hmore) }

/-- What is visited and left behind by an emission is that of a leg. -/
structure Reads (cx : Context) (ts : List Token) (g : PatternGraph) (visited : List Handle)
    (p q : Nat) (em : Emission) (elements : List Handle) (deferred : List Nat) : Prop where
  leg : ∃ constraints, Leg cx ts g visited p q elements constraints deferred ∧
    Agree (em.marks ++ visited) em.entries
      (constraints.map .along ++ entriesAt g (nodeAt cx ts q))
  marks : ∀ k, k ∈ em.marks ++ visited ↔ k ∈ elements ∨ k ∈ visited

theorem ChainEmits.reads (h : Drawn cx ts g₀ g) {start : Expr} {c c' : Chain} {em : Emission}
    {more : List Handle} {deferred : List Nat}
    (hleg : Leg cx ts g visited p q c.elements c.constraints deferred)
    (hterminal : c.terminal = nodeAt cx ts q) (hc' : c'.terminal = c.terminal)
    (hconstraints : c'.constraints = c.constraints)
    (helements : ∀ k, k ∈ c'.elements ++ visited ↔ k ∈ c.elements ∨ k ∈ visited)
    (hem : ChainEmits g start c' visited em more) :
    Reads cx ts g visited p q em c.elements deferred := by
  obtain ⟨hmarks, es, hes, hentries⟩ := Frontier.ChainEmits.parts hem
  obtain ⟨t, ht⟩ := hleg.terminal
  refine ⟨⟨_, hleg, ?_⟩, ?_⟩
  · rw [hc', hterminal] at hes
    rw [hentries, hmarks, hconstraints]
    exact (Agree.refl _ _).append (agree_pendingEntries (h.isPlace_node ht).1 hes)
  · rw [hmarks]
    exact helements

theorem FarEmits.reads (h : Drawn cx ts g₀ g) {i : Incidence} {edge : Expr} {em : Emission}
    {more : List Handle} {t : NodeToken} (ht : ts[p]? = some (.node t))
    (harr : arrives ts p = true) (hthat : i.that = nodeAt cx ts p)
    (hbelow : ∀ k u, ts[k]? = some (.edge u) → k < p → .edge ⟨edgeIndex cx ts k⟩ ∈ visited)
    (habove : ∀ k u, ts[k]? = some (.constraint u) → Heads ts k → p ≤ k →
      Handle.edge ⟨edgeIndex cx ts k⟩ ∉ visited)
    (hem : FarEmits cx g i edge visited em more) :
    ∃ q elements deferred, Reads cx ts g visited p q em elements deferred := by
  -- a place already known, or one with a name, is a leg of its own
  have hsingle : Leg cx ts g visited p p [.node (nodeAt cx ts p)] [] [] :=
    .single ht harr fun more _ => .refl _ _
  have hplace := h.isPlace_node ht
  cases hem with
  | known node pending known =>
    rw [hthat] at pending ⊢
    exact ⟨p, _, [], ⟨_, hsingle, agree_pendingEntries hplace.1 pending⟩, by simp⟩
  | named node pending fresh named =>
    rw [hthat] at pending ⊢
    exact ⟨p, _, [], ⟨_, hsingle, agree_pendingEntries hplace.1 pending⟩, by simp⟩
  | chain node fresh anonymous walks emits =>
    obtain ⟨q, deferred, hleg, hterminal⟩ := leg_of_walks h walks ht harr hthat hbelow habove
    exact ⟨q, _, deferred, emits.reads h hleg hterminal rfl rfl (by simp)⟩

/-- What is emitted for an edge of the model reads a leg behind the edge. -/
theorem Emits.reads (h : Drawn cx ts g₀ g) {i : Incidence} {em : Emission} {more : List Handle}
    {t : NodeToken} (hs : g.Structural i) (ht : ts[p]? = some (.node t))
    (harr : arrives ts p = true) (hthat : i.that = nodeAt cx ts p)
    (hbelow : ∀ k u, ts[k]? = some (.edge u) → k < p →
      .edge ⟨edgeIndex cx ts k⟩ ∈ Handle.edge i.edge :: visited)
    (habove : ∀ k u, ts[k]? = some (.constraint u) → Heads ts k → p ≤ k →
      Handle.edge ⟨edgeIndex cx ts k⟩ ∉ Handle.edge i.edge :: visited)
    (hem : Emits cx g (.edge i.edge :: visited) (.along i) em more) :
    ∃ q elements deferred, Reads cx ts g (.edge i.edge :: visited) p q em elements deferred := by
  obtain ⟨e, he, hk⟩ := hs
  cases hem with
  -- an edge to a start or one that orders is not structural, so neither is drawn between nodes
  | start edge kind =>
    rw [he] at edge
    cases edge
    rw [kind] at hk
    cases hk
  | constraints edge kind splices =>
    rw [he] at edge
    cases edge
    rw [kind] at hk
    cases hk
  | @chain i e segment c em bs edge kind anonymous segment_ok walks emits =>
    obtain ⟨q, deferred, hleg, hterminal⟩ := leg_of_walks h walks ht harr hthat
      (fun k u hu hk => List.mem_cons_of_mem _ (hbelow k u hu hk))
      (fun k u hu hheads hk hmem => habove k u hu hheads hk (by simpa using hmem))
    have hsame : ∀ k, k ∈ (Handle.edge i.edge :: c.elements) ++ Handle.edge i.edge :: visited ↔
        k ∈ c.elements ∨ k ∈ Handle.edge i.edge :: visited := by
      intro k
      simp only [List.cons_append, List.mem_cons, List.mem_append]
      tauto
    exact ⟨q, _, deferred, emits.reads h (hleg.mono (by simp)) hterminal (by rfl) (by rfl) hsame⟩
  | argumentEdge edge kind named far =>
    obtain ⟨q, elements, deferred, hleg, hmarks⟩ := far.reads h ht harr hthat hbelow habove
    exact ⟨q, elements, deferred, hleg, hmarks⟩
  | namedEdge edge kind named identity far =>
    obtain ⟨q, elements, deferred, hleg, hmarks⟩ := far.reads h ht harr hthat hbelow habove
    exact ⟨q, elements, deferred, hleg, hmarks⟩

end Plan

end GraphPattern
