import GraphPattern.Proofs.Declared
import GraphPattern.Proofs.Visits

/-!
# GraphPattern — where constraints stand in a plan

Constraint tokens that stand in a row become one part of the plan, in their order. The walk comes to
this part by the edge to the first constraint of the row, so the node on which the row hangs was
visited before: it was bound and tested, or it was passed on a path. Rows that hang on one node come in
their order, whatever else the walk does in between.

## Results

* `Plan.Splices.row` — what is spliced from the first constraint of a row is the row.
* `Plan.Emits.eq_head_of_mem` — a row is visited from its first constraint on, and at once.
* `Plan.Tour.not_bound_later` — what has a name is bound before the rows that hang on it.
* `Context.arranged_of_compile` — the parts of a plan, and the order in which they stand.
-/

namespace GraphPattern

open PatternGraph PatternGraph.Drawing

/-! ## Rows -/

/-- The constraints that stand in a row at the beginning of some tokens. -/
def Token.row : List Token → List Constraint
  | .constraint t :: ts => t.constraint :: row ts
  | _ => []

namespace PatternGraph.Drawing

variable {ts : List Token} {p q j : Nat}

/-- A row of constraints starts at the position. -/
def StartsRow (ts : List Token) (p : Nat) : Prop :=
  Heads ts p ∧ ∃ t, ts[p]? = some (.constraint t)

/-- Nothing but constraints stands from one position to another. -/
def InRow (ts : List Token) (p j : Nat) : Prop :=
  p ≤ j ∧ ∀ i, p ≤ i → i ≤ j → ∃ t, ts[i]? = some (.constraint t)

theorem StartsRow.inRow (h : StartsRow ts p) : InRow ts p p := by
  refine ⟨Nat.le_refl p, fun i hpi hip => ?_⟩
  obtain rfl : i = p := by omega
  exact h.2

theorem InRow.cons (h : InRow ts (p + 1) j) {t : ConstraintToken}
    (ht : ts[p]? = some (.constraint t)) : InRow ts p j := by
  refine ⟨by have := h.1; omega, fun i hpi hij => ?_⟩
  rcases Nat.lt_or_eq_of_le hpi with hlt | rfl
  · exact h.2 i hlt hij
  · exact ⟨t, ht⟩

/-- A constraint belongs to one row. -/
theorem StartsRow.eq (hp : StartsRow ts p) (hq : StartsRow ts q) (hpj : InRow ts p j)
    (hqj : InRow ts q j) : p = q := by
  have hle : ∀ {p q}, StartsRow ts q → InRow ts p j → InRow ts q j → q ≤ p := by
    intro p q hq hpj hqj
    refine Nat.le_of_not_lt fun hlt => ?_
    have hqle := hqj.1
    obtain ⟨t, ht⟩ := hpj.2 (q - 1) (by omega) (by omega)
    exact hq.1 (q - 1) t (by omega) ht
  have hqp := hle hq hpj hqj
  have hpq := hle hp hqj hpj
  omega

theorem row_drop {t : ConstraintToken} (h : ts[p]? = some (.constraint t)) :
    Token.row (ts.drop p) = t.constraint :: Token.row (ts.drop (p + 1)) := by
  obtain ⟨hlt, hget⟩ := List.getElem?_eq_some_iff.1 h
  rw [List.drop_eq_getElem_cons hlt, hget, Token.row]

theorem row_drop_eq_nil (h : ∀ t, ts[p]? ≠ some (.constraint t)) :
    Token.row (ts.drop p) = [] := by
  unfold Token.row
  split
  · rename_i t rest heq
    exact absurd (getElem?_of_drop heq).1 (h t)
  · rfl

/-- Every constraint stands in a row. -/
theorem exists_startsRow {t : ConstraintToken} (h : ts[p]? = some (.constraint t)) :
    ∃ q, StartsRow ts q ∧ InRow ts q p := by
  induction p generalizing t with
  | zero =>
    have hstarts : StartsRow ts 0 := ⟨fun _ _ heq => by omega, t, h⟩
    exact ⟨0, hstarts, hstarts.inRow⟩
  | succ p ih =>
    by_cases hbefore : ∃ u, ts[p]? = some (.constraint u)
    · obtain ⟨u, hu⟩ := hbefore
      obtain ⟨q, hq, hle, hrow⟩ := ih hu
      refine ⟨q, hq, by omega, fun i hqi hip => ?_⟩
      rcases Nat.lt_or_eq_of_le hip with hlt | rfl
      · exact hrow i hqi (by omega)
      · exact ⟨t, h⟩
    · have hstarts : StartsRow ts (p + 1) := by
        refine ⟨fun i u heq hu => hbefore ⟨u, ?_⟩, t, h⟩
        obtain rfl : p = i := by omega
        exact hu
      exact ⟨p + 1, hstarts, hstarts.inRow⟩

theorem InRow.mem_row (h : InRow ts q p) {t : ConstraintToken}
    (ht : ts[p]? = some (.constraint t)) : t.constraint ∈ Token.row (ts.drop q) := by
  obtain ⟨hle, hrow⟩ := h
  induction hle using Nat.decreasingInduction with
  | self =>
    rw [row_drop ht]
    exact List.mem_cons_self
  | of_succ k hk ih =>
    obtain ⟨u, hu⟩ := hrow k (Nat.le_refl k) (Nat.le_of_lt hk)
    rw [row_drop hu]
    exact List.mem_cons_of_mem _ (ih fun i hki => hrow i (Nat.le_of_lt hki))

end PatternGraph.Drawing

namespace Plan

variable {cx : Context} {ts : List Token} {g₀ g : PatternGraph} {visited binds final : List Handle}
  {stack rest : List Entry} {us : List Visit} {p j : Nat}

/-- From a constraint on, only those behind it in its row are spliced. -/
theorem Splices.inRow (h : Drawn cx ts g₀ g) {n : NodeId} {steps : List Step}
    {marks : List Handle} (hs : Splices g n visited steps marks) {t : ConstraintToken}
    (ht : ts[p]? = some (.constraint t)) (hn : n = nodeAt cx ts p) (hled : LedTo g n visited)
    (hj : ∃ u, ts[j]? = some (.constraint u)) (hin : .edge ⟨edgeIndex cx ts j⟩ ∈ marks) :
    InRow ts p j := by
  -- along the row: the next constraint is drawn by the token right after this one's
  induction hs generalizing p t with
  | last => simp at hin
  | @next n nd c visited i steps marks node form next rest ih =>
    subst hn
    obtain ⟨hi, -, -, -, hd⟩ := leads_on h.rooted (h.isConstraint_constraint ht) hled next
    obtain ⟨hedge, hthat, u, hu⟩ := eq_succ_of_nextConstraint? h ht hled next
    refine InRow.cons ?_ ht
    simp only [List.mem_cons, reduceCtorEq, Handle.edge.injEq, false_or] at hin
    -- the edge to it, or one further on
    rcases hin with heq | hin
    · obtain ⟨v, hv⟩ := hj
      rw [hedge, EdgeId.mk.injEq, edgeIndex_eq_iff (madeEdge?_constraint cx hv)
        (madeEdge?_constraint cx hu)] at heq
      subst heq
      refine ⟨Nat.le_refl _, fun i hpi hip => ?_⟩
      obtain rfl : i = p + 1 := by omega
      exact ⟨u, hu⟩
    · exact ih hu hthat (ledTo_that hi hd (by simp)) hin

/-- As long as the edges in a row are new, the whole row is spliced from its first constraint. -/
theorem Splices.row (h : Drawn cx ts g₀ g) {n : NodeId} {steps : List Step} {marks : List Handle}
    (hs : Splices g n visited steps marks) {t : ConstraintToken}
    (ht : ts[p]? = some (.constraint t)) (hn : n = nodeAt cx ts p) (hled : LedTo g n visited)
    (hnew : ∀ j, p < j → InRow ts p j → Handle.edge ⟨edgeIndex cx ts j⟩ ∉ visited) :
    steps = (Token.row (ts.drop p)).map constraintStep := by
  induction hs generalizing p t with
  | @last n nd c visited node form next =>
    subst hn
    obtain rfl := constraint_eq h ht node form
    have hend : ∀ u, ts[p + 1]? ≠ some (.constraint u) := by
      intro u hu
      -- there would be a new edge to the next constraint
      obtain ⟨hi, e, he, hk⟩ := h.incident_constraint hu
      have howner : ownerAt cx ts (p + 1) = nodeAt cx ts p := by rw [ownerAt, ht]
      have hrow : InRow ts p (p + 1) := by
        refine ⟨by omega, fun i hpi hip => ?_⟩
        rcases Nat.lt_or_eq_of_le hip with hlt | rfl
        · obtain rfl : i = p := by omega
          exact ⟨t, ht⟩
        · exact ⟨u, hu⟩
      have hmem := (mem_incidencesAt_placeOf? h.consistent (h.node?_constraint ht).1).2
        ⟨hi, howner⟩
      have hnone := List.find?_eq_none.1 next _ hmem
      simp [he, hk, hnew (p + 1) (by omega) hrow] at hnone
    rw [row_drop ht, row_drop_eq_nil hend]
    rfl
  | @next n nd c visited i steps marks node form next rest ih =>
    subst hn
    obtain rfl := constraint_eq h ht node form
    obtain ⟨hi, -, -, -, hd⟩ := leads_on h.rooted (h.isConstraint_constraint ht) hled next
    obtain ⟨hedge, hthat, u, hu⟩ := eq_succ_of_nextConstraint? h ht hled next
    rw [row_drop ht, List.map_cons]
    congr 1
    refine ih hu hthat (ledTo_that hi hd (by simp)) fun j hj hrow => ?_
    obtain ⟨v, hv⟩ := hrow.2 j hrow.1 (Nat.le_refl j)
    simp only [List.mem_cons, reduceCtorEq, Handle.edge.injEq, false_or, not_or]
    refine ⟨fun heq => ?_, hnew j (by omega) (hrow.cons ht)⟩
    rw [hedge, EdgeId.mk.injEq, edgeIndex_eq_iff (madeEdge?_constraint cx hv)
      (madeEdge?_constraint cx hu)] at heq
    omega

/-- Edges to constraints are visited by splicing only. -/
theorem Emits.precedes_of_mem (hr : Rooted cx g₀ g) {x : Entry} {em : Emission}
    {own : List Handle} (hf : Frontier g₀ g visited binds (x :: rest))
    (h : Emits cx g (x.handle :: visited) x em own) {k : EdgeId} {e : PatternEdge}
    (he : g.edge? k = some e) (hk : e.kind = .precedes) (hin : .edge k ∈ em.marks) :
    ∃ y, x = .along y ∧ g.Precedes y := by
  -- a chain consumes structural edges only
  have hchain : ∀ {n : NodeId} {seen : List Handle} {c : Chain}, g.IsPlace n →
      Chain.Walks cx g n seen c → Handle.edge k ∉ c.elements := by
    intro n seen c hn hwalks hmem
    have hconsumed := hr.consumed hwalks hn
    obtain ⟨-, ⟨e', he', hk'⟩, -⟩ := hconsumed.edge (e.seen k .out) (.seen he .out) (by simpa)
    rw [PatternEdge.seen_edge, he] at he'
    rw [← Option.some.inj he', hk] at hk'
    exact nomatch hk'
  -- so what is done at the far end of an edge marks no edge that orders
  have hfar : ∀ {i : Incidence} {edge : Expr} {em : Emission} {bs seen : List Handle},
      g.IsPlace i.that → FarEmits cx g i edge seen em bs → Handle.edge k ∉ em.marks := by
    intro i edge em bs seen hthat hfar
    cases hfar with
    | known | named => simp
    | chain node fresh anonymous walks emits =>
      rw [(Frontier.ChainEmits.parts emits).1]
      exact hchain hthat walks
  -- hence a visit that marks one follows the constraints
  cases h with
  | anchor | place | argument | start => exact nomatch hin
  | constraints edge kind splices => exact ⟨_, rfl, _, edge, kind⟩
  | @chain i e' segment c em bs edge kind anonymous segment_ok walks emits =>
    rw [(Frontier.ChainEmits.parts emits).1] at hin
    have hs : g.Structural i := structural_of_pattern edge kind
    rcases List.mem_cons.1 hin with heq | hin
    · rw [Handle.edge.injEq] at heq
      rw [← heq, he] at edge
      rw [← Option.some.inj edge, hk] at kind
      exact nomatch kind
    · exact absurd hin (hchain (hf.isPlace_that hr (by simp) hs) walks)
  | @argumentEdge i e' name em bs edge kind named far =>
    have hs : g.Structural i := structural_of_argument edge kind
    have hnot := hfar (hf.isPlace_that hr (by simp) hs) far
    exact absurd hin hnot
  | @namedEdge i e' name em bs edge kind named identity far =>
    have hs : g.Structural i := structural_of_pattern edge kind
    have hnot := hfar (hf.isPlace_that hr (by simp) hs) far
    exact absurd hin hnot

/-- The edge to a constraint is visited where the edge to the first one of its row is followed. -/
theorem Emits.eq_head_of_mem (h : Drawn cx ts g₀ g) {x : Entry} {em : Emission}
    {own : List Handle} (hf : Frontier g₀ g visited binds (x :: rest))
    (hem : Emits cx g (x.handle :: visited) x em own) (hj : ∃ u, ts[j]? = some (.constraint u))
    (hin : .edge ⟨edgeIndex cx ts j⟩ ∈ em.marks ++ [x.handle]) :
    ∃ p, StartsRow ts p ∧ x = headEntry cx ts p ∧ InRow ts p j := by
  obtain ⟨u, hu⟩ := hj
  have hmade := h.edge?_made (madeEdge?_constraint cx hu)
  rw [List.mem_append, List.mem_singleton] at hin
  -- the edge is the one followed, or among those the visit marked
  have hprecedes : ∃ y, x = .along y ∧ g.Precedes y := by
    rcases hin with hin | heq
    · exact hem.precedes_of_mem h.rooted hf hmade rfl hin
    · cases x with
      | node n => exact nomatch heq
      | along y =>
        rw [Entry.handle, Handle.edge.injEq] at heq
        exact ⟨y, rfl, _, by rw [← heq]; exact hmade, rfl⟩
  obtain ⟨y, rfl, hp⟩ := hprecedes
  obtain ⟨hi, -, hthis⟩ := hf.along y (by simp)
  obtain ⟨p, t, ht, hheads, rfl⟩ := h.exists_head hi hp hthis
  refine ⟨p, ⟨hheads, t, ht⟩, rfl, ?_⟩
  -- within the row, or its head itself
  rcases hin with hin | heq
  · have hled := ledTo_that hi (direction_of_precedes h.rooted hi hp hthis)
      (List.mem_cons_self (l := visited))
    exact (Emits.splices_of_precedes hp hem).2.inRow h ht rfl hled ⟨u, hu⟩ hin
  · rw [Entry.handle, Handle.edge.injEq, headAt, EdgeId.mk.injEq,
      edgeIndex_eq_iff (madeEdge?_constraint cx hu) (madeEdge?_constraint cx ht)] at heq
    rw [heq]
    exact StartsRow.inRow ⟨hheads, t, ht⟩

/-- A row is new as a whole until its first constraint is visited. -/
def RowsWhole (cx : Context) (ts : List Token) (visited : List Handle) : Prop :=
  ∀ p j, StartsRow ts p → InRow ts p j → Handle.edge ⟨edgeIndex cx ts p⟩ ∉ visited →
    Handle.edge ⟨edgeIndex cx ts j⟩ ∉ visited

theorem RowsWhole.visit (h : Drawn cx ts g₀ g) {u : Visit} (hmade : u.Made cx g₀ g rest)
    (hrows : RowsWhole cx ts u.visited) : RowsWhole cx ts u.after := by
  intro p j hp hrow hnew hin
  have hold : Handle.edge ⟨edgeIndex cx ts j⟩ ∉ u.visited :=
    hrows p j hp hrow fun hv => hnew (Visit.visited_subset_after hv)
  have hmem : .edge ⟨edgeIndex cx ts j⟩ ∈ u.emission.marks ++ [u.entry.handle] := by
    rw [Visit.mem_after] at hin
    rw [List.mem_append, List.mem_singleton]
    tauto
  obtain ⟨q, hq, hentry, hrow'⟩ := hmade.emits.eq_head_of_mem h hmade.frontier
    (hrow.2 j hrow.1 (Nat.le_refl j)) hmem
  obtain rfl := hp.eq hq hrow hrow'
  refine hnew (Visit.mem_after.2 (.inr (.inl ?_)))
  rw [hentry]
  rfl

/-! ## The visits of rows -/

namespace Tour

/-- The visit of a row emits the row. -/
theorem steps_of_row (h : Drawn cx ts g₀ g) (htour : Tour cx g₀ g [] [] stack us final)
    {u : Visit} (hu : u ∈ us) (hp : StartsRow ts p) (hentry : u.entry = headEntry cx ts p) :
    u.emission.steps = (Token.row (ts.drop p)).map constraintStep := by
  have hall := htour.invariant (P := fun visited _ => RowsWhole cx ts visited)
    (fun _ hrows => hrows) (fun hmade hrows => hrows.visit h hmade)
    (fun _ _ _ _ _ => List.not_mem_nil)
  obtain ⟨rest, hmade, hrows⟩ := hall u hu
  obtain ⟨-, t, ht⟩ := id hp
  obtain ⟨hi, hprec⟩ := h.incident_head ht hp.1
  have hfresh : Handle.edge ⟨edgeIndex cx ts p⟩ ∉ u.visited := by
    have hfresh := hmade.fresh
    rwa [hentry] at hfresh
  have hemits := hmade.emits
  rw [hentry] at hemits
  have hled := ledTo_that hi rfl (List.mem_cons_self (l := u.visited))
  refine (Emits.splices_of_precedes hprec hemits).2.row h ht rfl hled fun j hj hrow => ?_
  obtain ⟨v, hv⟩ := hrow.2 j hrow.1 (Nat.le_refl j)
  show Handle.edge _ ∉ Handle.edge ⟨edgeIndex cx ts p⟩ :: u.visited
  simp only [List.mem_cons, Handle.edge.injEq, EdgeId.mk.injEq, not_or,
    edgeIndex_eq_iff (madeEdge?_constraint cx hv) (madeEdge?_constraint cx ht)]
  exact ⟨by omega, hrows p j hp hrow hfresh⟩

/-- Every row is visited. -/
theorem exists_row (h : Drawn cx ts g₀ g) (htour : Tour cx g₀ g [] [] stack us final)
    (hfinal : ∀ k e, g.edge? k = some e → .edge k ∈ final) (hp : StartsRow ts p) :
    ∃ u ∈ us, u.entry = headEntry cx ts p := by
  obtain ⟨-, t, ht⟩ := id hp
  have hin := hfinal _ _ (h.edge?_made (madeEdge?_constraint cx ht))
  obtain ⟨u, hu, hnew, hmet⟩ := (htour.exists_meets hin).resolve_left List.not_mem_nil
  obtain ⟨rest, hmade⟩ := htour.made hu
  have hmem : .edge ⟨edgeIndex cx ts p⟩ ∈ u.emission.marks ++ [u.entry.handle] := by
    rw [Visit.mem_after] at hmet
    rw [List.mem_append, List.mem_singleton]
    tauto
  obtain ⟨q, hq, hentry, hrow⟩ := hmade.emits.eq_head_of_mem h hmade.frontier ⟨t, ht⟩ hmem
  exact ⟨u, hu, by rw [hp.eq hq hp.inRow hrow]; exact hentry⟩

/-- Every visit looks at something else. -/
theorem entries_ne (h : Tour cx g₀ g visited binds stack us final) :
    us.Pairwise fun u w => u.entry ≠ w.entry := by
  refine h.pairwise.imp_of_mem fun {u w} _ hw hsub heq => ?_
  obtain ⟨rest, hmade⟩ := h.made hw
  exact hmade.fresh (hsub (Visit.mem_after.2 (.inr (.inl (by rw [heq])))))

end Tour

/-! ## What is bound before a row -/

end Plan

/-- The step binds the name, or tests that its value is present or of a type. -/
def Step.settles (name : String) : Step → Bool
  | .generate n _ | .assign n _ | .guard (.present (.var n)) | .guard (.isInstance (.var n) _) =>
    n == name
  | _ => false

namespace Plan

variable {cx : Context} {ts : List Token} {g₀ g : PatternGraph} {visited binds final : List Handle}
  {stack rest : List Entry} {us : List Visit} {p j : Nat} {name : String}

/-- Only rows call forms. -/
theorem Emits.not_callsForm (hr : Rooted cx g₀ g) {x : Entry} {em : Emission} {own : List Handle}
    (hf : Frontier g₀ g visited binds (x :: rest)) (hfresh : x.handle ∉ visited)
    (h : Emits cx g (x.handle :: visited) x em own) (hx : ∀ y, x = .along y → ¬ g.Precedes y) :
    ∀ s ∈ expandAll em.steps, s.callsForm = false := by
  obtain ⟨ps, hpasses, htraced⟩ := h.passes hr hf hfresh
  have hnone : (ps.filterMap fun p => g.hung? p.edge) = [] := by
    refine List.filterMap_eq_nil_iff.2 fun p hp => if_neg fun hk => ?_
    have hedge := hpasses.edge p hp
    have hin := (hpasses.marked p.id).2 (List.mem_map_of_mem hp)
    rcases List.mem_append.1 hin with hin | hin
    · obtain ⟨y, hy, hprec⟩ := h.precedes_of_mem hr hf hedge hk hin
      exact hx y hy hprec
    · cases x with
      | node n => simp [Entry.handle] at hin
      | along y =>
        rw [Entry.handle, List.mem_singleton, Handle.edge.injEq] at hin
        exact hx y rfl ⟨p.edge, hin ▸ hedge, hk⟩
  have hforms := htraced.forms
  rw [hnone, List.flatMap_nil, List.perm_nil, List.filter_eq_nil_iff] at hforms
  intro s hs
  exact Bool.eq_false_iff.2 (hforms s hs)

/-- A guard that settles a name tests a value that is bound in the same visit. -/
theorem FarEmits.binds_of_guard {i : Incidence} {edge : Expr} {em : Emission} {bs : List Handle}
    (h : FarEmits cx g i edge visited em bs) {e : Expr} (he : .guard e ∈ em.steps)
    (hsettles : (Step.guard e).settles name = true) :
    name ∈ em.steps.flatMap Step.boundNames := by
  cases h with
  | known =>
    obtain rfl := Step.guard.inj (List.mem_singleton.1 he)
    exact nomatch hsettles
  -- of the steps at a named place only the type test is a guard, after the name is bound
  | @named nd es own node pending fresh named =>
    simp only [List.mem_cons, reduceCtorEq, false_or] at he
    unfold typeTest at he
    split at he
    · split at he
      · exact nomatch he
      · obtain rfl := Step.guard.inj (List.mem_singleton.1 he)
        have hname : own = name := eq_of_beq hsettles
        rw [List.flatMap_cons, hname]
        exact List.mem_append_left _ (List.mem_singleton.2 rfl)
    · exact nomatch he
  -- a chain's step is no test of a name's type
  | chain node fresh anonymous walks emits =>
    cases emits <;> simp only [List.mem_singleton, Step.guard.injEq, reduceCtorEq] at he <;>
      subst he <;> exact nomatch hsettles

theorem Emits.binds_of_guard {x : Entry} {em : Emission} {own : List Handle}
    (h : Emits cx g visited x em own) {e : Expr} (he : .guard e ∈ em.steps)
    (hsettles : (Step.guard e).settles name = true) :
    name ∈ em.steps.flatMap Step.boundNames := by
  -- only the far end of an edge tests a type, and it binds the name first
  cases h with
  | anchor | place | argument | start => simp at he
  | constraints edge kind splices =>
    obtain ⟨cs, rfl, -⟩ := splices.constraints
    obtain ⟨c, -, heq⟩ := List.mem_map.1 he
    cases c <;> simp only [constraintStep, Step.guard.injEq, reduceCtorEq] at heq
    subst heq
    cases hsettles
  | chain edge kind anonymous segment_ok walks emits =>
    cases emits <;> simp only [List.mem_singleton, Step.guard.injEq, reduceCtorEq] at he <;>
      subst he <;> cases hsettles
  | argumentEdge edge kind named far =>
    rcases List.mem_cons.1 he with heq | he
    · obtain rfl := Step.guard.inj heq
      cases hsettles
    · exact far.binds_of_guard he hsettles
  | namedEdge edge kind named identity far =>
    simp only [List.mem_cons, reduceCtorEq, false_or] at he
    exact List.mem_append_right _ (far.binds_of_guard he hsettles)

/-- A visit that settles a name binds it. -/
theorem Emits.mem_boundNames_of_settles {x : Entry} {em : Emission} {own : List Handle}
    (h : Emits cx g visited x em own) {s : Step} (hs : s ∈ expandAll em.steps)
    (hsettles : s.settles name = true) : name ∈ em.steps.flatMap Step.boundNames := by
  obtain ⟨t, ht, hs⟩ := List.mem_flatMap.1 hs
  have hbound : name ∈ t.boundNames → name ∈ em.steps.flatMap Step.boundNames :=
    fun hname => List.mem_flatMap.2 ⟨t, ht, hname⟩
  cases t with
  | guard e =>
    obtain rfl := List.mem_singleton.1 hs
    exact h.binds_of_guard ht hsettles
  | assignAll bs =>
    obtain ⟨b, hb, hs⟩ := List.mem_flatMap.1 hs
    refine hbound (List.mem_map.2 ⟨b, hb, ?_⟩)
    rcases List.mem_pair.1 hs with rfl | rfl <;> exact eq_of_beq hsettles
  | generate n e | assign n e =>
    obtain rfl := List.mem_singleton.1 hs
    exact hbound (List.mem_singleton.2 (eq_of_beq hsettles).symm)
  | whilst | foreign =>
    obtain rfl := List.mem_singleton.1 hs
    exact nomatch hsettles

theorem ChainEmits.own_new {start : Expr} {c : Chain} {em : Emission} {bs : List Handle}
    (h : ChainEmits g start c visited em bs) : ∀ k ∈ bs, k ∉ visited := by
  intro k hk
  cases h with
  | known | closed => exact nomatch hk
  | bound node pending fresh needed =>
    obtain rfl := List.mem_singleton.1 hk
    exact fun hv => fresh (.inl hv)

theorem FarEmits.own_new {i : Incidence} {edge : Expr} {em : Emission} {bs : List Handle}
    (h : FarEmits cx g i edge visited em bs) : ∀ k ∈ bs, k ∉ visited := by
  intro k hk
  cases h with
  | known => exact nomatch hk
  | named node pending fresh named =>
    obtain rfl := List.mem_singleton.1 hk
    exact fun hv => fresh (.inl hv)
  | chain node fresh anonymous walks emits => exact emits.own_new k hk

/-- What a visit binds is new. -/
theorem Visit.Made.own_new {u : Visit} (h : u.Made cx g₀ g rest) : ∀ k ∈ u.own, k ∉ u.visited := by
  obtain ⟨visited, binds, x, em, own⟩ := u
  obtain ⟨-, hfresh, hemits⟩ := h
  intro k hk
  cases hemits with
  | anchor | argument | start | constraints => exact nomatch hk
  | place =>
    obtain rfl := List.mem_singleton.1 hk
    exact hfresh
  | chain edge kind anonymous segment_ok walks emits =>
    exact fun hv => emits.own_new k hk (List.mem_cons_of_mem _ hv)
  | argumentEdge edge kind named far =>
    exact fun hv => far.own_new k hk (List.mem_cons_of_mem _ hv)
  | namedEdge edge kind named identity far =>
    rcases List.mem_cons.1 hk with rfl | hk
    · exact hfresh
    · exact fun hv => far.own_new k hk (List.mem_cons_of_mem _ hv)

/-- What some visits emit. -/
def stepsOf (us : List Visit) : List Step :=
  us.flatMap fun u => expandAll u.emission.steps

theorem boundNames_stepsOf (us : List Visit) : (stepsOf us).flatMap Step.boundNames =
    us.flatMap fun u => u.emission.steps.flatMap Step.boundNames := by
  unfold stepsOf expandAll
  rw [List.flatMap_assoc]
  simp only [boundNames_expanded_steps]

/-- Once a node with a name was visited, nothing binds the name any more. -/
theorem Tour.not_bound_later {plan : Plan} (h : Surveyed cx ts g₀ g plan)
    (htour : Tour cx g₀ g [] [] stack us final) (hsteps : plan.steps = stepsOf us)
    {a b : List Visit} {u : Visit} (hsplit : us = a ++ u :: b) {n : NodeId}
    (hname : g.HasName (.node n) name) (hv : .node n ∈ u.visited) :
    ∀ w ∈ u :: b, name ∉ w.emission.steps.flatMap Step.boundNames := by
  intro w hw hbound
  have hmem : ∀ {w}, w ∈ u :: b → w ∈ us := fun hw => hsplit ▸ List.mem_append_right _ hw
  obtain ⟨urest, humade⟩ := htour.made (hmem (List.mem_cons_self ..))
  obtain ⟨wrest, hmade⟩ := htour.made (hmem hw)
  have hwv : .node n ∈ w.visited := by
    rcases List.mem_cons.1 hw with rfl | hw
    · exact hv
    · have hpairs := htour.pairwise
      rw [hsplit, List.pairwise_append] at hpairs
      exact (List.pairwise_cons.1 hpairs.2.1).1 w hw (Visit.visited_subset_after hv)
  rcases humade.frontier.named _ hv (fun hu => hu name hname) with hin | harg
  · -- the name was bound when the node was visited, and no name is bound twice
    obtain ⟨w', hw', hown⟩ := (htour.bound_before hsplit hin).resolve_left List.not_mem_nil
    have hmade' := htour.made (hsplit ▸ List.mem_append_left _ hw')
    obtain ⟨rest', hmade'⟩ := hmade'
    have hearlier := Emits.mem_boundNames hmade'.emits hown
    rw [variable_named hname] at hearlier
    have hdistinct : (plan.steps.flatMap Step.boundNames).Nodup := h.distinct
    rw [hsteps, boundNames_stepsOf, hsplit, List.flatMap_append, List.nodup_append] at hdistinct
    exact hdistinct.2.2 name (List.mem_flatMap.2 ⟨w', hw', hearlier⟩) name
      (List.mem_flatMap.2 ⟨w, hw, hbound⟩) rfl
  · rcases Emits.boundNames hmade.emits with heq | ⟨m, nd, own, hentry, hnode, -, hown, heq, -⟩ |
      ⟨y, hentry, hp, -⟩
    · rw [heq] at hbound
      obtain ⟨k, hk, hvar⟩ := List.mem_map.1 hbound
      have hbindable := (hmade.frontier.visit h.rooted hmade.fresh hmade.emits).bound k
        (List.mem_append_left _ hk)
      obtain rfl : k = .node n := h.rooted.regular.eq_of_variable_eq
        (hasVariable_of_bindable hbindable.2.1) (h.rooted.regular.hasVariable_of_isArgument harg)
        (hvar.trans (variable_named hname).symm)
      exact hmade.own_new _ hk hwv
    · rw [heq, List.mem_singleton] at hbound
      subst hbound
      have hm : g.IsNode m := hmade.frontier.isNode_of_mem h.rooted (by rw [hentry]; simp)
      have hsame : Handle.node m = .node n := h.rooted.regular.eq_of_hasName
        ⟨hm, by rw [hnode]; exact hown⟩ hname
      refine hmade.fresh ?_
      rw [hentry, Entry.handle, hsame]
      exact hwv
    · -- a constraint may not bind an argument
      have hemits := hmade.emits
      rw [hentry] at hemits
      obtain ⟨cs, hcs, -⟩ := (Emits.splices_of_precedes hp hemits).2.constraints
      rw [hcs, List.flatMap_map] at hbound
      obtain ⟨c, hc, hbound⟩ := List.mem_flatMap.1 hbound
      rw [boundNames_constraintStep] at hbound
      obtain ⟨f, hstep⟩ := exists_step_of_mem_names hbound
      have hin : .assign name (.call f) ∈ plan.steps := by
        rw [hsteps]
        refine List.mem_flatMap.2 ⟨w, hmem hw, ?_⟩
        rw [hcs, expandAll, List.flatMap_map]
        refine List.mem_flatMap.2 ⟨c, hc, ?_⟩
        rw [← callsForm_constraintStep] at hstep
        exact (List.mem_filter.1 hstep).1
      obtain ⟨own, hmem, hown⟩ := h.rooted.regular.name_of_isArgument harg
      rw [← variable_named hown, variable_named hname] at hmem
      exact not_mem_of_reboundArgument? h.checked hin hmem

/-! ## A row at the beginning -/

/-- Until a row at the beginning of the pattern was visited, the walk has not come beyond the
anchor. -/
def Outset (cx : Context) (ts : List Token) (g : PatternGraph) (visited : List Handle)
    (stack : List Entry) : Prop :=
  .edge ⟨edgeIndex cx ts 0⟩ ∈ visited ∨ (visited = [] ∧ stack = [.node g.anchor]) ∨
    ∃ rest, stack = headEntry cx ts 0 :: rest

/-- The first edge of all is the first one at the anchor. -/
theorem Outset.enter (h : Drawn cx ts g₀ g) (hp : StartsRow ts 0) {es : List Entry}
    (hes : pendingEntries g g.anchor visited = .ok es)
    (hnew : Handle.edge ⟨edgeIndex cx ts 0⟩ ∉ visited) :
    ∃ rest, es = headEntry cx ts 0 :: rest := by
  obtain ⟨hheads, t, ht⟩ := hp
  have hanchor : g.IsNode g.anchor := isNode_anchor h.consistent.inhabited
  obtain ⟨hi, -⟩ := h.incident_head ht hheads
  obtain ⟨i, hfirst, hinc, hthis, -, hle⟩ :=
    firstNew?_entriesAt h.consistent hanchor hi rfl hnew
  -- the first incidence at the anchor is that of the first edge, which heads the row
  have hzero : i.edge = ⟨edgeIndex cx ts 0⟩ := by
    have hindex : i.edge.index ≤ 0 := hle
    exact congrArg EdgeId.mk (Nat.le_zero.1 hindex)
  have hhead : i = headAt cx ts 0 := by
    rcases hi.eq_or_eq_reverse hinc hzero with rfl | rfl
    · rfl
    · -- its other end is a place, not the anchor
      exact absurd hthis nodeAt_ne_anchor
  rw [← agree_pendingEntries hanchor hes visited (List.Subset.refl _), hhead] at hfirst
  cases es with
  | nil => exact nomatch hfirst
  | cons x rest =>
    obtain ⟨j, rfl, -, -, hjnew⟩ :=
      (mem_pendingEntries h.consistent hanchor hes (x := x)).1 (by simp)
    rw [firstNew?_cons hjnew] at hfirst
    exact ⟨rest, by rw [Option.some.inj hfirst]; rfl⟩

theorem Outset.visit (h : Drawn cx ts g₀ g) (hp : StartsRow ts 0) {u : Visit}
    (hmade : u.Made cx g₀ g rest) (ho : Outset cx ts g u.visited (u.entry :: rest)) :
    Outset cx ts g u.after (u.emission.entries ++ rest) := by
  by_cases hnew : .edge ⟨edgeIndex cx ts 0⟩ ∈ u.after
  · -- the row is not entered yet: it is on top of the stack, or the anchor is about to be visited
    exact .inl hnew
  rcases ho with hv | ⟨-, hstack⟩ | ⟨rest', hstack⟩
  · exact absurd (Visit.visited_subset_after hv) hnew
  · obtain ⟨hentry, rfl⟩ := List.cons.inj hstack
    have hemits := hmade.emits
    rw [hentry] at hemits
    obtain ⟨hmarks, hpending⟩ := hemits.entered
    have hafter : u.after = .node g.anchor :: u.visited := by
      unfold Visit.after
      rw [hmarks, hentry]
      rfl
    rw [hafter] at hnew
    obtain ⟨rest', heq⟩ := Outset.enter h hp hpending hnew
    exact .inr (.inr ⟨rest', by rw [heq, List.append_nil]⟩)
  · obtain ⟨hentry, -⟩ := List.cons.inj hstack
    refine absurd (Visit.mem_after.2 (.inr (.inl ?_))) hnew
    rw [hentry]
    rfl

/-- Before a row at the beginning of the pattern, nothing is emitted. -/
theorem Tour.nothing_before (h : Drawn cx ts g₀ g)
    (htour : Tour cx g₀ g [] [] [.node g.anchor] us final) (hp : StartsRow ts 0)
    {a b : List Visit} {u : Visit} (hsplit : us = a ++ u :: b)
    (hentry : u.entry = headEntry cx ts 0) : ∀ w ∈ a, w.emission.steps = [] := by
  intro w hw
  -- every visit before the row's is made while the row is still to be entered
  have hall := htour.invariant (P := Outset cx ts g)
    (fun {visited x rest} hx ho => ?_) (fun hmade ho => ho.visit h hp hmade)
    (.inr (.inl ⟨rfl, rfl⟩))
  · obtain ⟨wrest, hmade, ho⟩ := hall w (hsplit ▸ List.mem_append_left _ hw)
    obtain ⟨urest, humade⟩ := htour.made (u := u) (by rw [hsplit]; simp)
    have hnew : Handle.edge ⟨edgeIndex cx ts 0⟩ ∉ w.after := by
      have hpairs := htour.pairwise
      rw [hsplit, List.pairwise_append] at hpairs
      have hfresh := humade.fresh
      rw [hentry] at hfresh
      exact fun hin => hfresh (hpairs.2.2 w hw u (List.mem_cons_self ..) hin)
    rcases ho with hv | ⟨-, hstack⟩ | ⟨rest', hstack⟩
    · -- the row was visited already, before this visit
      exact absurd (Visit.visited_subset_after hv) hnew
    · -- the anchor's own visit, which has no steps
      obtain ⟨hanchor, -⟩ := List.cons.inj hstack
      obtain ⟨nd, hnode, hk⟩ := h.rooted.regular.anchor
      obtain ⟨visited, binds, x, em, own⟩ := w
      obtain rfl : x = .node g.anchor := hanchor
      cases hmade.emits with
      | anchor => rfl
      | place node kind | argument node kind =>
        rw [hnode] at node
        rw [← Option.some.inj node, hk] at kind
        exact nomatch kind
    · -- the row's visit itself, which is not before it
      obtain ⟨hhead, -⟩ := List.cons.inj hstack
      refine absurd (Visit.mem_after.2 (.inr (.inl ?_))) hnew
      rw [hhead]
      rfl
  · -- a skipped entry was visited, so it is not the anchor's
    rcases ho with hv | ⟨rfl, -⟩ | ⟨rest', hstack⟩
    · exact .inl hv
    · exact nomatch hx
    · obtain ⟨rfl, -⟩ := List.cons.inj hstack
      exact .inl hx

/-! ## The parts of a plan -/

/-- A part of a plan. If it is a row of constraints, it has the position of the first of them, and if
it follows a path, it has the edges along the path. -/
structure Part where
  steps : List Step
  row? : Option Nat
  trail : List Incidence
deriving Inhabited

/-- The parts of a plan, and the order in which they stand. -/
structure Arranged (cx : Context) (ts : List Token) (g : PatternGraph) (parts : List Part) :
    Prop where
  /-- Every row of constraints is one part. -/
  rows : ∀ p, StartsRow ts p ↔ ∃ part ∈ parts, part.row? = some p
  once : (parts.filterMap (·.row?)).Nodup
  /-- It has the steps of its constraints, one after the other and in their order. -/
  row : ∀ part ∈ parts, ∀ p, part.row? = some p →
    part.steps = expandAll ((Token.row (ts.drop p)).map constraintStep)
  /-- No other part calls forms. -/
  others : ∀ part ∈ parts, part.row? = none → ∀ s ∈ part.steps, s.callsForm = false
  /-- A part looks for what its trail leads to, and for nothing else at the end of a path. -/
  trails : ∀ part ∈ parts, (∀ i ∈ part.trail.head?, g.IsTrail i.this part.trail) ∧
    part.steps.filterMap Step.reach? = (g.reach? part.trail).toList
  /-- No edge is followed by two parts. -/
  apart : (parts.flatMap fun part => part.trail.map (·.edge)).Nodup
  /-- A row at the beginning of the pattern comes before everything else. -/
  opening : ∀ a part b, parts = a ++ part :: b → part.row? = some 0 → ∀ other ∈ a, other.steps = []
  /-- Behind a node with a name, a row comes after all that binds the name or tests its value. -/
  named : ∀ a part b, parts = a ++ part :: b → ∀ k, part.row? = some (k + 1) →
    ∀ (t : NodeToken) name, ts[k]? = some (.node t) → t.name? = some name →
    ∀ other ∈ part :: b, ∀ s ∈ other.steps, s.settles name = false
  /-- Behind a node without a name, it comes after a part that passes the node on its trail, or
  enumerates its hidden variable. -/
  unnamed : ∀ a part b, parts = a ++ part :: b → ∀ k, part.row? = some (k + 1) →
    ∀ t : NodeToken, ts[k]? = some (.node t) → t.name? = none →
    ∃ other ∈ a, nodeAt cx ts k ∈ other.trail.map (·.that) ∨
      ∃ e, .generate (varOf g (nodeAt cx ts k)) e ∈ other.steps
  /-- Rows that hang on one node keep their order. -/
  ordered : ∀ a part b other c, parts = a ++ part :: (b ++ other :: c) →
    ∀ j k, part.row? = some j → other.row? = some k →
    currentBefore cx ts j = currentBefore cx ts k → j < k

/-- What a part has to do with the visit that emits it. -/
structure Part.Of (cx : Context) (ts : List Token) (g : PatternGraph) (u : Visit) (part : Part) :
    Prop where
  steps : part.steps = expandAll u.emission.steps
  row : ∀ p, part.row? = some p ↔ StartsRow ts p ∧ u.entry = headEntry cx ts p
  tracks : Tracks g u.visited u.entry u.emission part.trail

theorem Visit.Made.exists_part (h : Drawn cx ts g₀ g) {u : Visit} (hmade : u.Made cx g₀ g rest) :
    ∃ part, Part.Of cx ts g u part := by
  obtain ⟨trail, htrail⟩ := hmade.emits.exists_tracks h.rooted hmade.frontier hmade.fresh
  by_cases hrow : ∃ p, StartsRow ts p ∧ u.entry = headEntry cx ts p
  · obtain ⟨p, hp, hentry⟩ := hrow
    refine ⟨⟨expandAll u.emission.steps, some p, trail⟩, rfl, fun q => ?_, htrail⟩
    rw [Option.some.injEq]
    refine ⟨by rintro rfl; exact ⟨hp, hentry⟩, ?_⟩
    rintro ⟨hq, hentry'⟩
    obtain ⟨-, t, ht⟩ := hp
    obtain ⟨-, u, hu⟩ := hq
    have hedge := congrArg Entry.handle (hentry.symm.trans hentry')
    simpa only [headEntry, headAt, Entry.handle, Handle.edge.injEq, EdgeId.mk.injEq,
      edgeIndex_eq_iff (madeEdge?_constraint cx ht) (madeEdge?_constraint cx hu)] using hedge
  · refine ⟨⟨expandAll u.emission.steps, none, trail⟩, rfl, fun q => ?_, htrail⟩
    exact iff_of_false (Option.some_ne_none q).symm fun hq => hrow ⟨q, hq⟩

/-- Parts that stand in a list of parts come from visits that stand so in a list of visits. -/
theorem split_of_parts {f : Visit → Part} {a b : List Part} {part : Part}
    (h : us.map f = a ++ part :: b) : ∃ a' u b', us = a' ++ u :: b' ∧ a = a'.map f ∧ part = f u ∧
      b = b'.map f := by
  obtain ⟨a', rest, rfl, rfl, hrest⟩ := List.map_eq_append_iff.1 h
  obtain ⟨u, b', rfl, rfl, rfl⟩ := List.map_eq_cons_iff.1 hrest
  exact ⟨a', u, b', rfl, rfl, rfl, rfl⟩

/-- The node in front of a row was visited before the row. -/
theorem Tour.mem_visited_of_row
    (htour : Tour cx g₀ g visited binds stack us final) {u : Visit} (hu : u ∈ us) {k : Nat}
    {t : NodeToken} (ht : ts[k]? = some (.node t)) (hentry : u.entry = headEntry cx ts (k + 1)) :
    .node (nodeAt cx ts k) ∈ u.visited := by
  obtain ⟨rest, hmade⟩ := htour.made hu
  obtain ⟨-, hthis, -⟩ := hmade.frontier.along (headAt cx ts (k + 1)) (by rw [hentry]; simp [headEntry])
  have hcurrent : currentBefore cx ts (k + 1) = nodeAt cx ts k := by rw [currentBefore, ht]
  rwa [headAt, hcurrent] at hthis

/-- Rows that hang on one node are visited in their order. -/
theorem Tour.row_lt (h : Drawn cx ts g₀ g) (htour : Tour cx g₀ g [] [] [.node g.anchor] us final)
    {a b c : List Visit} {u w : Visit} (hsplit : us = a ++ u :: (b ++ w :: c)) {j k : Nat}
    (hj : StartsRow ts j) (hk : StartsRow ts k) (hu : u.entry = headEntry cx ts j)
    (hw : w.entry = headEntry cx ts k) (hsame : currentBefore cx ts j = currentBefore cx ts k) :
    j < k := by
  have humem : u ∈ us := by rw [hsplit]; simp
  have hlater : u.after ⊆ w.visited := by
    have hpairs := htour.pairwise
    rw [hsplit, List.pairwise_append] at hpairs
    exact (List.pairwise_cons.1 hpairs.2.1).1 w (by simp)
  obtain ⟨rest, hmade⟩ := htour.made (u := w) (by rw [hsplit]; simp)
  have hfresh := hmade.fresh
  rw [hw] at hfresh
  -- a later row queued first would have been visited before this one
  refine Nat.lt_of_not_le fun hle => hfresh (hlater ?_)
  rcases Nat.lt_or_eq_of_le hle with hlt | rfl
  · obtain ⟨-, t, ht⟩ := id hk
    obtain ⟨hi, hprec⟩ := h.incident_head ht hk.1
    have hbefore : Before (headAt cx ts k) (headAt cx ts j) :=
      .inl (edgeIndex_lt hlt (madeEdge?_constraint cx ht))
    -- at the outset nothing is queued, so nothing is out of order
    have hqueued : Queued g [] [.node g.anchor] := by
      intro _ _ _ _ _ _ _ front back hstack
      rcases List.cons_eq_append_iff.1 hstack with ⟨rfl, hcons⟩ | ⟨front', rfl, hcons⟩
      · exact nomatch hcons
      · simp at hcons
    exact Visit.visited_subset_after
      (htour.queued h.rooted hqueued u humem _ _ hu hi hprec hsame.symm hbefore)
  · -- or it is the same row, visited twice
    exact Visit.mem_after.2 (.inr (.inl (by rw [hu])))

/-- A part that is no row calls no form. -/
theorem Part.Of.not_callsForm (h : Drawn cx ts g₀ g) {u : Visit} (hmade : u.Made cx g₀ g rest)
    {part : Part} (hpart : Part.Of cx ts g u part) (hrow : part.row? = none) :
    ∀ s ∈ part.steps, s.callsForm = false := by
  rw [hpart.steps]
  refine hmade.emits.not_callsForm h.rooted hmade.frontier hmade.fresh fun y hy hprec => ?_
  obtain ⟨hi, -, hthis⟩ := hmade.frontier.along y (by rw [hy]; simp)
  obtain ⟨p, t, ht, hheads, rfl⟩ := h.exists_head hi hprec hthis
  have hsome := (hpart.row p).2 ⟨⟨hheads, t, ht⟩, hy⟩
  rw [hrow] at hsome
  exact nomatch hsome

/-- The trails of two visits have no edge in common. -/
theorem Tracks.disjoint {u w : Visit} {is js : List Incidence}
    (hu : Tracks g u.visited u.entry u.emission is) (hw : Tracks g w.visited w.entry w.emission js)
    (hlater : u.after ⊆ w.visited) : (is.map (·.edge)).Disjoint (js.map (·.edge)) := by
  intro k hku hkw
  obtain ⟨i, hi, rfl⟩ := List.mem_map.1 hku
  obtain ⟨j, hj, heq⟩ := List.mem_map.1 hkw
  refine (hw.new j hj).1 (hlater ?_)
  have hmet := (hu.new i hi).2
  rw [heq, Visit.mem_after]
  rw [List.mem_append, List.mem_singleton] at hmet
  exact hmet.imp id .inl

section

variable {a b : List Visit} {u : Visit} {k : Nat} {t : NodeToken}

/-- From a row on, the name of the node in front of it is settled. -/
theorem Tour.settled_before_row (h : Drawn cx ts g₀ g) {plan : Plan}
    (hplan : Surveyed cx ts g₀ g plan) (htour : Tour cx g₀ g [] [] [.node g.anchor] us final)
    (hsteps : plan.steps = stepsOf us) (hsplit : us = a ++ u :: b)
    (hentry : u.entry = headEntry cx ts (k + 1)) (ht : ts[k]? = some (.node t)) {name : String}
    (hname : t.name? = some name) {w : Visit} (hw : w ∈ u :: b) {s : Step}
    (hs : s ∈ expandAll w.emission.steps) : s.settles name = false := by
  obtain ⟨first, hfirst, hnode, hnd⟩ := h.node?_node ht
  have hhas : g.HasName (.node (nodeAt cx ts k)) name := by
    refine ⟨hnode, ?_⟩
    rw [hnd]
    exact hfirst.trans hname
  have hvisited := htour.mem_visited_of_row (by rw [hsplit]; simp) ht hentry
  obtain ⟨rest, hmade⟩ := htour.made (u := w) (hsplit ▸ List.mem_append_right _ hw)
  refine Bool.eq_false_iff.2 fun hsettles => ?_
  exact htour.not_bound_later hplan hsteps hsplit hhas hvisited w hw
    (hmade.emits.mem_boundNames_of_settles hs hsettles)

/-- Before a row, some visit has met the node in front of it: if the node has no name, the visit
passes it or enumerates its hidden variable. -/
theorem Tour.met_before_row (h : Drawn cx ts g₀ g)
    (htour : Tour cx g₀ g [] [] [.node g.anchor] us final) (hsplit : us = a ++ u :: b)
    (hentry : u.entry = headEntry cx ts (k + 1)) (ht : ts[k]? = some (.node t))
    (hname : t.name? = none) :
    ∃ w ∈ a, ∀ trail, Tracks g w.visited w.entry w.emission trail →
      nodeAt cx ts k ∈ trail.map (·.that) ∨
        ∃ e, .generate (varOf g (nodeAt cx ts k)) e ∈ expandAll w.emission.steps := by
  obtain ⟨first, hfirst, hnode, hnd⟩ := h.node?_node ht
  have hunnamed : g.Unnamed (.node (nodeAt cx ts k)) := by
    rw [unnamed_node_iff hnode hnd, PatternNode.anonymous]
    exact Option.isNone_iff_eq_none.2 (hfirst.trans hname)
  have hvisited := htour.mem_visited_of_row (by rw [hsplit]; simp) ht hentry
  obtain ⟨w, hw, hnew, hmet⟩ := (htour.met_before hsplit hvisited).resolve_left List.not_mem_nil
  refine ⟨w, hw, fun trail htracks => ?_⟩
  have hmarked : .node (nodeAt cx ts k) ∈ w.emission.marks ++ [w.entry.handle] := by
    rw [Visit.mem_after] at hmet
    rw [List.mem_append, List.mem_singleton]
    tauto
  refine (htracks.passed _ (h.isPlace_node ht) hunnamed hnew hmarked).imp id ?_
  rintro ⟨e, he⟩
  exact ⟨e, List.mem_flatMap.2 ⟨_, he, List.mem_singleton.2 rfl⟩⟩

end

/-- The visits of a walk through the whole graph are the parts of its plan. -/
theorem Tour.arranged (h : Drawn cx ts g₀ g) {plan : Plan} (hplan : Surveyed cx ts g₀ g plan)
    (htour : Tour cx g₀ g [] [] [.node g.anchor] us final)
    (hfinal : ∀ k e, g.edge? k = some e → .edge k ∈ final) (hsteps : plan.steps = stepsOf us) :
    ∃ parts, plan.steps = parts.flatMap (·.steps) ∧ Arranged cx ts g parts := by
  -- each visit is a part of the plan: its steps, the row it enters, the trails it follows
  have hparts : ∀ u ∈ us, ∃ part, Part.Of cx ts g u part := fun u hu =>
    let ⟨_, hmade⟩ := htour.made hu
    hmade.exists_part h
  choose! f hf using hparts
  have hmem : ∀ {a b u}, us = a ++ u :: b → u ∈ us := fun hsplit => by rw [hsplit]; simp
  refine ⟨us.map f, ?_, ?_⟩
  · rw [hsteps, List.flatMap_map]
    exact List.flatMap_congr fun u hu => (hf u hu).steps.symm
  refine { rows := ?_, once := ?_, row := ?_, others := ?_, trails := ?_, apart := ?_,
           opening := ?_, named := ?_, unnamed := ?_, ordered := ?_ }
  · -- rows
    intro p
    constructor
    · intro hp
      obtain ⟨u, hu, hentry⟩ := htour.exists_row h hfinal hp
      exact ⟨f u, List.mem_map_of_mem hu, ((hf u hu).row p).2 ⟨hp, hentry⟩⟩
    · rintro ⟨part, hpart, hrow⟩
      obtain ⟨u, hu, rfl⟩ := List.mem_map.1 hpart
      exact (((hf u hu).row p).1 hrow).1
  · -- once: no two visits have the same entry
    rw [List.filterMap_map]
    refine List.Pairwise.filterMap _ ?_ (List.Pairwise.and_mem.1 htour.entries_ne)
    rintro u w ⟨hu, hw, hne⟩ p hp q hq rfl
    exact hne ((((hf u hu).row p).1 hp).2.trans (((hf w hw).row p).1 hq).2.symm)
  · -- row
    intro part hpart p hrow
    obtain ⟨u, hu, rfl⟩ := List.mem_map.1 hpart
    obtain ⟨hp, hentry⟩ := ((hf u hu).row p).1 hrow
    rw [(hf u hu).steps, htour.steps_of_row h hu hp hentry]
  · -- others
    intro part hpart hrow
    obtain ⟨u, hu, rfl⟩ := List.mem_map.1 hpart
    obtain ⟨rest, hmade⟩ := htour.made hu
    exact (hf u hu).not_callsForm h hmade hrow
  · -- trails
    intro part hpart
    obtain ⟨u, hu, rfl⟩ := List.mem_map.1 hpart
    rw [(hf u hu).steps]
    exact ⟨(hf u hu).tracks.connected, (hf u hu).tracks.reach⟩
  · -- apart: a later visit follows none of the edges of an earlier one
    rw [List.flatMap_map, List.nodup_flatMap]
    refine ⟨fun u hu => (hf u hu).tracks.once, ?_⟩
    exact htour.pairwise.imp_of_mem fun {u w} hu hw hlater =>
      (hf u hu).tracks.disjoint (hf w hw).tracks hlater
  · -- opening
    intro a part b hsplit hrow
    obtain ⟨a', u, b', husplit, rfl, rfl, rfl⟩ := split_of_parts hsplit
    obtain ⟨hp, hentry⟩ := ((hf u (hmem husplit)).row 0).1 hrow
    intro other hother
    obtain ⟨w, hw, rfl⟩ := List.mem_map.1 hother
    rw [(hf w (husplit ▸ List.mem_append_left _ hw)).steps,
      htour.nothing_before h hp husplit hentry w hw]
    rfl
  · -- named: the steps of the row and after it find the name settled
    intro a part b hsplit k hrow t name ht hname other hother s hs
    obtain ⟨a', u, b', husplit, rfl, rfl, rfl⟩ := split_of_parts hsplit
    obtain ⟨-, hentry⟩ := ((hf u (hmem husplit)).row _).1 hrow
    rw [← List.map_cons] at hother
    obtain ⟨w, hw, rfl⟩ := List.mem_map.1 hother
    rw [(hf w (husplit ▸ List.mem_append_right _ hw)).steps] at hs
    exact htour.settled_before_row h hplan hsteps husplit hentry ht hname hw hs
  · -- unnamed
    intro a part b hsplit k hrow t ht hname
    obtain ⟨a', u, b', husplit, rfl, rfl, rfl⟩ := split_of_parts hsplit
    obtain ⟨-, hentry⟩ := ((hf u (hmem husplit)).row _).1 hrow
    obtain ⟨w, hw, hmet⟩ := htour.met_before_row h husplit hentry ht hname
    have hpart := hf w (husplit ▸ List.mem_append_left _ hw)
    refine ⟨f w, List.mem_map_of_mem hw, ?_⟩
    rw [hpart.steps]
    exact hmet _ hpart.tracks
  · -- ordered
    intro a part b other c hsplit j k hj hk hsame
    obtain ⟨a', u, b', husplit, rfl, rfl, hrest⟩ := split_of_parts hsplit
    obtain ⟨b'', w, c', hwsplit, rfl, rfl, rfl⟩ := split_of_parts hrest.symm
    subst hwsplit
    have hw : w ∈ us := by rw [husplit]; simp
    obtain ⟨hj, hu⟩ := ((hf u (hmem husplit)).row j).1 hj
    obtain ⟨hk, hw⟩ := ((hf w hw).row k).1 hk
    exact htour.row_lt h husplit hj hk hu hw hsame

end Plan

/-- A compiled plan has the steps of the visits of a walk through the whole graph. -/
theorem Context.exists_tour {cx : Context} {plan : Plan} (h : cx.compile = .ok plan) :
    ∃ ts g₀ g us final, Token.classify cx.elements = .ok ts ∧ cx.anchoredGraph = .ok g ∧
      Drawn cx ts g₀ g ∧ Plan.Surveyed cx ts g₀ g plan ∧
      Plan.Tour cx g₀ g [] [] [.node g.anchor] us final ∧
      (∀ k e, g.edge? k = some e → .edge k ∈ final) ∧ plan.steps = Plan.stepsOf us := by
  obtain ⟨g, p, hg, hp, hcheck, rfl⟩ := compile_ok h
  obtain ⟨ts, g₀, hts, hdrawn⟩ := drawn_of_anchoredGraph hg
  have hplan := Plan.surveyed_of_check hdrawn.rooted hg hts hp hcheck
  obtain ⟨-, -, -, visited, binds, hexplores, hf⟩ := Plan.explores_of_ofGraph hdrawn.rooted hp
  obtain ⟨us, htour, hsteps⟩ := hexplores.tour
  refine ⟨ts, g₀, g, us, _, hts, hg, hdrawn, hplan, htour, (hf.complete hdrawn.rooted).2, ?_⟩
  show Plan.expandAll p.steps = _
  rw [hsteps, Plan.expandAll, List.flatMap_assoc]
  rfl

/-- The steps of a constraint stand one after the other. -/
theorem Context.exists_constraint {cx : Context} {plan : Plan} (h : cx.compile = .ok plan)
    {ts : List Token} (hts : Token.classify cx.elements = .ok ts) {c : Constraint}
    (hc : c ∈ Token.constraints ts) :
    ∃ before after, plan.steps = before ++ (Plan.constraintStep c).expanded ++ after := by
  obtain ⟨ts', g₀, g, us, final, hts', -, hdrawn, -, htour, hfinal, hsteps⟩ := exists_tour h
  obtain rfl := Except.ok.inj (hts.symm.trans hts')
  obtain ⟨token, htoken, hheld⟩ := List.mem_filterMap.1 hc
  obtain ⟨p, hp⟩ := List.mem_iff_getElem?.1 htoken
  cases token with
  | node | edge => cases hheld
  | constraint t =>
    cases hheld
    obtain ⟨q, hq, hrow⟩ := exists_startsRow hp
    obtain ⟨u, hu, hentry⟩ := htour.exists_row hdrawn hfinal hq
    obtain ⟨us₁, us₂, rfl⟩ := List.append_of_mem hu
    obtain ⟨cs₁, cs₂, hsplit⟩ := List.append_of_mem (hrow.mem_row hp)
    rw [hsteps, Plan.stepsOf, List.flatMap_append, List.flatMap_cons,
      htour.steps_of_row hdrawn hu hq hentry, hsplit, List.map_append, List.map_cons,
      Plan.expandAll, List.flatMap_append, List.flatMap_cons]
    simp only [← List.append_assoc]
    exact ⟨_, _, by rw [List.append_assoc _ _ (List.flatMap _ us₂)]⟩

/-- A compiled plan keeps constraints in their place and order. -/
theorem Context.arranged_of_compile {cx : Context} {plan : Plan} (h : cx.compile = .ok plan) :
    ∃ ts g parts, Token.classify cx.elements = .ok ts ∧ cx.anchoredGraph = .ok g ∧
      plan.steps = parts.flatMap (·.steps) ∧ Plan.Arranged cx ts g parts := by
  obtain ⟨ts, g₀, g, us, final, hts, hg, hdrawn, hplan, htour, hfinal, hsteps⟩ := exists_tour h
  obtain ⟨parts, hsame, harranged⟩ := htour.arranged hdrawn hplan hfinal hsteps
  exact ⟨ts, g, parts, hts, hg, hsame, harranged⟩

/-- A form that asks for a value. -/
def inquiry (name : String) : Form :=
  { id := name, params? := some [{ name }] }

/-- Two links in a row, with constraints in front of them, between them and behind them. -/
def twoLinks : Context :=
  { arguments := []
    elements := [.text ":when", .form { id := "open", params? := some [] }, .text "x", .text "-->",
      .text "<>", .text ":when", .form (inquiry "x"), .text "-->", .text "y<Town>", .text ":let",
      .list [.list [.text "z", .form (inquiry "y")]], .text ":when", .form (inquiry "z")]
    engine := .graph }

def twoLinksTokens : List Token :=
  [.constraint { constraint := .when { id := "open", params? := some [] }, index := 0 },
    .node { name? := some "x", typeName? := none, index := 2 },
    .edge { name? := none, typeName? := none, direction := .out, index := 3 },
    .node { name? := none, typeName? := none, index := 4 },
    .constraint { constraint := .when (inquiry "x"), index := 5 },
    .edge { name? := none, typeName? := none, direction := .out, index := 7 },
    .node { name? := some "y", typeName? := some "Town", index := 8 },
    .constraint { constraint := .bind [("z", inquiry "y")], index := 9 },
    .constraint { constraint := .when (inquiry "z"), index := 11 }]

def twoLinksPlan : Plan :=
  { steps := [.guard (.call { id := "open", params? := some [] }), .generate "x" (.instances .any),
      .generate "y" (.reachable (.var "x")
        [.step .out .any, .step .out .any, .restrict (.spec "Town")]),
      .guard (.call (inquiry "x")), .assign "z" (.call (inquiry "y")), .guard (.present (.var "z")),
      .guard (.call (inquiry "z"))]
    arguments := [], engine := .graph }

theorem classify_twoLinks : Token.classify twoLinks.elements = .ok twoLinksTokens := by cbv

/-- The last two constraints are one row. -/
theorem Context.arranged_of_compile_twoLinks :
    twoLinks.compile = .ok twoLinksPlan ∧ ∃ ts g parts, Token.classify twoLinks.elements = .ok ts ∧
      twoLinks.anchoredGraph = .ok g ∧ twoLinksPlan.steps = parts.flatMap (·.steps) ∧
      Plan.Arranged twoLinks ts g parts ∧ ∃ part ∈ parts, part.row? = some 7 ∧ part.steps =
        [.assign "z" (.call (inquiry "y")), .guard (.present (.var "z")),
          .guard (.call (inquiry "z"))] := by
  have hcompile : twoLinks.compile = .ok twoLinksPlan := by cbv
  refine ⟨hcompile, ?_⟩
  obtain ⟨ts, g, parts, hts, hg, hsteps, harranged⟩ := arranged_of_compile hcompile
  obtain rfl := Except.ok.inj (classify_twoLinks.symm.trans hts)
  have hstarts : StartsRow twoLinksTokens 7 := by
    refine ⟨fun i t hi ht => ?_, _, rfl⟩
    obtain rfl : i = 6 := by omega
    cases ht
  obtain ⟨part, hpart, hrow⟩ := (harranged.rows 7).1 hstarts
  exact ⟨_, g, parts, hts, hg, hsteps, harranged, part, hpart, hrow, harranged.row part hpart 7 hrow⟩

end GraphPattern
