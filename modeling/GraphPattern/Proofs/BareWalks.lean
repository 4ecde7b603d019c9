import GraphPattern.Proofs.BareReadings
import GraphPattern.Proofs.WovenSteps

/-!
# GraphPattern — walks without constraints

The walk through the graph of a pattern visits what stays of it without its constraints in the same
order as the walk through the graph of the bare pattern. What hangs on the way is dealt with in
between: a constraint only ever marks itself, and the constraints at the nodes of a chain are put off
until the chain is over. So the steps of the pattern are those of the bare pattern, with the steps of
the constraints woven in.

## Results

* `PatternGraph.Bare.naming` — both plans have the same names up to the hidden ones.
* `Chain.Walks.bare` — chains through what stays.
* `Plan.Emits.bare` — visits of what stays.
-/

namespace GraphPattern

open PatternGraph

namespace PatternGraph

variable {cx cx' : Context} {q : Renumbering} {g b : PatternGraph}

-- ---------------------------------------------------------------------------
-- Names
-- ---------------------------------------------------------------------------

/-- The variables of something that stays, in both graphs. -/
def Alike (q : Renumbering) (g b : PatternGraph) (a a' : String) : Prop :=
  ∃ x, g.Kept x ∧ g.HasVariable x ∧ a = x.variable g ∧ a' = (q.handle x).variable b

namespace Bare

theorem isPlace (h : Bare q g b) {n : NodeId} (hn : g.IsPlace n) : b.IsPlace (q.node n) := by
  obtain ⟨-, nd, hnd, hk⟩ := id hn
  obtain ⟨nd', hnd', hlike⟩ := h.node n nd hn.kept hnd
  exact ⟨h.image n hn.1, nd', hnd', by rwa [hlike.kind]⟩

theorem hasVariable (h : Bare q g b) {x : Handle} (hk : g.Kept x) (hx : g.HasVariable x) :
    b.HasVariable (q.handle x) := by
  cases x with
  | node n => exact h.isPlace hx
  | edge k =>
    obtain ⟨name, hname⟩ := hx
    exact ⟨name, (h.hasName_iff hk).2 hname⟩

theorem alike_of_hasName (h : Bare q g b) (hg : g.Regular cx) {x : Handle} {name : String}
    (hx : g.HasName x name) (hv : g.HasVariable x) : Alike q g b name name := by
  have hk := hg.kept_of_hasName hx
  exact ⟨x, hk, hv, (variable_named hx).symm, (variable_named ((h.hasName_iff hk).2 hx)).symm⟩

theorem alike_varOf {n : NodeId} (hn : g.IsPlace n) :
    Alike q g b (Plan.varOf g n) (Plan.varOf b (q.node n)) :=
  ⟨.node n, hn.kept, hn, rfl, rfl⟩

/-- Both plans have the same names up to the hidden ones. -/
theorem naming (h : Bare q g b) (hg : g.Regular cx) (hb : b.Regular cx') :
    Naming (Alike q g b) where
  injective := by
    rintro _ _ _ _ ⟨x, hx, hvx, rfl, rfl⟩ ⟨y, hy, hvy, rfl, rfl⟩
    -- distinct handles have distinct variables in a regular graph, on both sides
    constructor
    · intro heq
      rw [hg.eq_of_variable_eq hvx hvy heq]
    · intro heq
      have := hb.eq_of_variable_eq (h.hasVariable hx hvx) (h.hasVariable hy hvy) heq
      rw [h.handle_injective hx hy this]
  visible := by
    rintro _ _ ⟨x, hx, hvx, rfl, rfl⟩ hvisible
    rcases variable_cases hvx with hname | ⟨n, rfl, hu, hn, -⟩
    · exact variable_named ((h.hasName_iff hx).2 hname)
    · rw [show (Handle.node n).variable g = Plan.varOf g n from rfl,
        isHiddenName_varOf hn hu] at hvisible
      cases hvisible
  -- a hidden name belongs to a node without a name, and its image has none either
  hidden := by
    rintro _ _ ⟨x, hx, hvx, rfl, rfl⟩ hhidden
    rcases variable_cases hvx with hname | ⟨n, rfl, hu, hn, -⟩
    · rw [hg.visible x _ hname] at hhidden
      cases hhidden
    · refine isHiddenName_varOf (h.image n hn) fun name hname => ?_
      exact hu name ((h.hasName_iff hx).1 hname)

end Bare

theorem Structural.kind_ne {i : Incidence} {e : PatternEdge} (hs : g.Structural i)
    (he : g.edge? i.edge = some e) : e.kind ≠ .precedes := by
  obtain ⟨e', he', hk⟩ := hs
  rw [he] at he'
  cases he'
  intro hp
  rw [hp] at hk
  cases hk

/-- What can be bound is no argument of the pattern. -/
theorem Regular.own_of_bindable (hg : g.Regular cx) {x : Handle} (hx : g.Bindable x)
    (hnot : ¬ g.IsArgument x) :
    isHiddenName (x.variable g) = true ∨ x.variable g ∉ cx.arguments := by
  rcases variable_cases (hasVariable_of_bindable hx) with hname | ⟨n, rfl, hu, hn, -⟩
  · -- a name of the writer's is an argument exactly on a place of an argument, excluded here
    right
    cases x with
    | node n =>
      obtain ⟨hn, nd, hnd, hk⟩ := hx
      have hfits := hg.node n nd hn hnd
      rcases hk with hk | hk
      · rw [NodeFits, hk] at hfits
        have hown := hname.2
        rw [hnd, Option.bind_some] at hown
        exact hfits _ hown
      · exact absurd ⟨hn, nd, hnd, hk⟩ hnot
    | edge k =>
      obtain ⟨e, he, hk, -⟩ := hx
      have hfits := hg.edgeFits_of_edge? he
      rw [EdgeFits, hk] at hfits
      exact hfits.2.2 _ ((hasName_edge_iff he).1 hname)
  · exact .inl (isHiddenName_varOf hn hu)

-- ---------------------------------------------------------------------------
-- What was visited
-- ---------------------------------------------------------------------------

/-- Of what stays, the same was visited in both graphs. -/
def Mirrors (q : Renumbering) (g : PatternGraph) (visited visited' : List Handle) : Prop :=
  ∀ x, g.Kept x → (q.handle x ∈ visited' ↔ x ∈ visited)

namespace Mirrors

variable {visited visited' : List Handle}

theorem cons (h : Mirrors q g visited visited') (hb : Bare q g b) {y : Handle} (hy : g.Kept y) :
    Mirrors q g (y :: visited) (q.handle y :: visited') := by
  intro x hx
  rw [List.mem_cons, List.mem_cons, h x hx]
  refine or_congr_left ⟨fun heq => hb.handle_injective hx hy heq, fun heq => by rw [heq]⟩

theorem append (h : Mirrors q g visited visited') (hb : Bare q g b) {xs : List Handle}
    (hxs : ∀ x ∈ xs, g.Kept x) : Mirrors q g (xs ++ visited) (xs.map q.handle ++ visited') := by
  induction xs with
  | nil => exact h
  | cons x xs ih =>
    exact (ih fun y hy => hxs y (List.mem_cons_of_mem _ hy)).cons hb (hxs x (by simp))

theorem skip (h : Mirrors q g visited visited') {xs : List Handle}
    (hxs : ∀ x ∈ xs, ¬ g.Kept x) : Mirrors q g (xs ++ visited) visited' := by
  intro x hx
  rw [h x hx, List.mem_append]
  exact ⟨.inr, fun hmem => hmem.resolve_left fun hin => hxs x hin hx⟩

end Mirrors

namespace Bare

/-- Constraints are gone, and so are the edges to them. -/
theorem kind_ne (h : Bare q g b) {k : EdgeId} {e' : PatternEdge} (he' : b.edge? k = some e') :
    e'.kind ≠ .precedes := by
  obtain ⟨j, ⟨e, he, hk⟩, rfl⟩ := h.edges k e' he'
  obtain ⟨e₁, he₁, hlike⟩ := h.edge j e he hk
  rw [he'] at he₁
  cases he₁
  rwa [hlike.kind]

end Bare

end PatternGraph

-- ---------------------------------------------------------------------------
-- Chains
-- ---------------------------------------------------------------------------

namespace Chain

variable {cx cx' : Context} {q : Renumbering} {g b : PatternGraph} {n : NodeId}
  {visited visited' : List Handle}

/-- The chain through what stays. -/
def bare (q : Renumbering) (c : Chain) : Chain :=
  { c with terminal := q.node c.terminal, elements := c.elements.map q.handle, constraints := [] }

theorem known_bare {nd nd' : PatternNode} (h : nd.Like nd') (hn : g.Kept (.node n))
    (hm : Mirrors q g visited visited') :
    (nd'.anonymous = false ∨ Handle.node (q.node n) ∈ visited') ↔
      (nd.anonymous = false ∨ Handle.node n ∈ visited) := by
  rw [PatternNode.anonymous, PatternNode.anonymous, h.name]
  exact or_congr_right (hm _ hn)

/-- What is left to follow of the given incidences is the same, but for the constraints. -/
theorem left_bare (h : Bare q g b) (hm : Mirrors q g visited visited') {l : List Incidence}
    (hedges : ∀ i ∈ l, ∃ e, g.edge? i.edge = some e) :
    ((((l.filter g.keeps).map q.incidence).filterMap fun i =>
        if Handle.edge i.edge ∈ visited' then none else (b.edge? i.edge).map (i, ·)).filter
      (·.2.kind.structural)) =
    ((l.filterMap fun i =>
        if Handle.edge i.edge ∈ visited then none else (g.edge? i.edge).map (i, ·)).filter
      (·.2.kind.structural)).map fun x =>
        (q.incidence x.1, (b.edge? (q.edge x.1.edge)).getD x.2) := by
  -- along the incidences: an edge that orders is dropped on both sides, others are kept
  induction l with
  | nil => rfl
  | cons i l ih =>
    have ih := ih fun j hj => hedges j (List.mem_cons_of_mem _ hj)
    obtain ⟨e, he⟩ := hedges i (by simp)
    by_cases hk : e.kind = .precedes
    · have hdrop : g.keeps i = false := by simp [keeps, he, hk]
      rw [List.filter_cons_of_neg (by rw [hdrop]; exact Bool.false_ne_true), ih]
      by_cases hv : Handle.edge i.edge ∈ visited
      · rw [List.filterMap_cons_none (by rw [if_pos hv])]
      · rw [List.filterMap_cons_some (by rw [if_neg hv, he]; rfl),
          List.filter_cons_of_neg (by simp [hk, EdgeKind.structural])]
    · have hkept : g.Kept (.edge i.edge) := ⟨e, he, hk⟩
      obtain ⟨e', he', hlike⟩ := h.edge _ e he hk
      have hseen : Handle.edge (q.incidence i).edge ∈ visited' ↔ Handle.edge i.edge ∈ visited :=
        hm _ hkept
      have he'' : b.edge? (q.incidence i).edge = some e' := he'
      rw [List.filter_cons_of_pos (keeps_iff.2 hkept), List.map_cons]
      by_cases hv : Handle.edge i.edge ∈ visited
      · rw [List.filterMap_cons_none (by rw [if_pos (hseen.2 hv)]),
          List.filterMap_cons_none (by rw [if_pos hv]), ih]
      · rw [List.filterMap_cons_some (by rw [if_neg (fun hv' => hv (hseen.1 hv')), he'']; rfl),
          List.filterMap_cons_some (by rw [if_neg hv, he]; rfl)]
        cases hs : e.kind.structural with
        | false =>
          rw [List.filter_cons_of_neg (by simp [hlike.kind, hs]),
            List.filter_cons_of_neg (by simp [hs]), ih]
        | true =>
          rw [List.filter_cons_of_pos (by simp [hlike.kind, hs]),
            List.filter_cons_of_pos (by simp [hs]), List.map_cons, ih]
          simp only [he', Option.getD_some]

/-- What is left to follow at a node is the same, but for the constraints. -/
theorem pending_bare (h : Bare q g b) (hg : g.Regular cx) (hb : b.Consistent)
    (hn : g.Kept (.node n)) (hm : Mirrors q g visited visited')
    {left : List (Incidence × PatternEdge)} (hleft : pending g n visited = .ok left) :
    ∃ left', pending b (q.node n) visited' = .ok left' ∧
      left'.filter (·.2.kind = .precedes) = [] ∧
      left'.filter (·.2.kind.structural) = (left.filter (·.2.kind.structural)).map fun x =>
        (q.incidence x.1, (b.edge? (q.edge x.1.edge)).getD x.2) := by
  obtain ⟨l, hl, hmem⟩ := hg.consistent.incidencesOf_ok hn.1
  have hl' := h.incidencesOf hg hb hn hl
  simp only [pending, hl, bind, Except.bind] at hleft
  cases hleft
  refine ⟨_, by simp only [pending, hl', bind, Except.bind]; rfl, ?_, ?_⟩
  · rw [List.filter_eq_nil_iff]
    rintro ⟨i, e⟩ hi
    obtain ⟨j, -, hj⟩ := List.mem_filterMap.1 hi
    split at hj
    · cases hj
    · obtain ⟨e₁, he₁, heq⟩ := Option.map_eq_some_iff.1 hj
      cases heq
      simpa using h.kind_ne he₁
  · refine left_bare h hm fun i hi => ?_
    obtain ⟨⟨e, he, -⟩, -⟩ := (hmem i).1 hi
    exact ⟨e, he⟩

/-- A chain only consumes what stays, and puts off nothing but constraints. -/
structure Stays (g : PatternGraph) (c : Chain) : Prop where
  terminal : g.IsPlace c.terminal
  elements : ∀ x ∈ c.elements, g.Kept x
  constraints : ∀ i ∈ c.constraints, g.keeps i = false

/-- A chain that also takes in an edge before it. -/
theorem Stays.cons {c : Chain} (hc : c.Stays g) {k : EdgeId} (hk : g.Kept (.edge k))
    (segment : Segment) :
    Chain.Stays g { c with path := segment :: c.path, elements := .edge k :: c.elements } where
  terminal := hc.terminal
  elements := by
    intro x hx
    rcases List.mem_cons.1 hx with rfl | hx
    · exact hk
    · exact hc.elements x hx
  constraints := hc.constraints

theorem keeps_of_precedes {left : List (Incidence × PatternEdge)} (hg : g.Consistent)
    (hn : g.IsNode n) (hleft : pending g n visited = .ok left) :
    ∀ i ∈ (left.filter (·.2.kind = .precedes)).map (·.1), g.keeps i = false := by
  intro i hi
  obtain ⟨-, -, -, e, he, hk⟩ := (mem_constraints hg hn hleft).1 hi
  simp [keeps, he, hk]

theorem Walks.stays (hg : g.Regular cx) {c : Chain} (h : Walks cx g n visited c)
    (hn : g.IsPlace n) : c.Stays g := by
  have hsingle : ∀ {m}, g.IsPlace m → ∀ x ∈ [Handle.node m], g.Kept x := by
    intro m hm x hx
    rw [List.mem_singleton.1 hx]
    exact hm.kept
  induction h with
  | stop node known => exact ⟨hn, hsingle hn, by intro i hi; cases hi⟩
  | last node fresh pending closed =>
    exact ⟨hn, hsingle hn, keeps_of_precedes hg.consistent hn.1 pending⟩
  | openEnd node fresh pending only named =>
    exact ⟨hn, hsingle hn, keeps_of_precedes hg.consistent hn.1 pending⟩
  | @step n nd visited left i e segment rest node fresh pending only anonymous segment_ok _ ih =>
    obtain ⟨hi, -, -, he, hs⟩ := incident_of_only hg.consistent hn.1 pending only
    have hrest := ih (hg.isPlace_that hi hs)
    refine ⟨hrest.terminal, ?_, ?_⟩
    · intro x hx
      rcases List.mem_cons.1 hx with rfl | hx
      · exact hn.kept
      · rcases List.mem_cons.1 hx with rfl | hx
        · exact ⟨e, he, hs.kind_ne he⟩
        · exact hrest.elements x hx
    · intro j hj
      rcases List.mem_append.1 hj with hj | hj
      · exact keeps_of_precedes hg.consistent hn.1 pending j hj
      · exact hrest.constraints j hj

/-- The chain through what stays is a chain of the bare pattern. -/
theorem Walks.bare (h : Bare q g b) (hg : g.Regular cx) (hb : b.Consistent)
    (hengine : cx'.engine = cx.engine) {c : Chain} (hc : Walks cx g n visited c)
    (hn : g.IsPlace n) (hm : Mirrors q g visited visited') :
    Walks cx' b (q.node n) visited' (c.bare q) := by
  induction hc generalizing visited' with
  | @stop n nd visited node known =>
    obtain ⟨nd', hnd', hlike⟩ := h.node n nd hn.kept node
    have hstop : Walks cx' b _ _ _ := Walks.stop hnd' ((known_bare hlike hn.kept hm).2 known)
    rwa [restriction_of_like hlike] at hstop
  | @last n nd visited left node fresh pending closed =>
    obtain ⟨nd', hnd', hlike⟩ := h.node n nd hn.kept node
    obtain ⟨left', hleft', hprecedes, hstructural⟩ :=
      pending_bare h hg hb hn.kept (hm.cons h hn.kept) pending
    have hfresh := mt (known_bare hlike hn.kept hm).1 fresh
    rw [closed, List.map_nil] at hstructural
    have hlast : Walks cx' b _ _ _ := Walks.last hnd' hfresh hleft' hstructural
    rwa [restriction_of_like hlike, hprecedes] at hlast
  | @openEnd n nd visited left i e node fresh pending only named =>
    obtain ⟨nd', hnd', hlike⟩ := h.node n nd hn.kept node
    obtain ⟨left', hleft', hprecedes, hstructural⟩ :=
      pending_bare h hg hb hn.kept (hm.cons h hn.kept) pending
    have hfresh := mt (known_bare hlike hn.kept hm).1 fresh
    obtain ⟨hi, -, -, he, hs⟩ := incident_of_only hg.consistent hn.1 pending only
    obtain ⟨e', he', hlike'⟩ := h.edge _ e he (Structural.kind_ne hs he)
    rw [only, List.map_singleton, he', Option.getD_some] at hstructural
    have hopen : Walks cx' b _ _ _ := Walks.openEnd hnd' hfresh hleft' hstructural
      (by rwa [PatternEdge.anonymous, hlike'.name])
    rwa [restriction_of_like hlike, hprecedes] at hopen
  | @step n nd visited left i e segment rest node fresh pending only anonymous segment_ok _ ih =>
    obtain ⟨nd', hnd', hlike⟩ := h.node n nd hn.kept node
    obtain ⟨left', hleft', hprecedes, hstructural⟩ :=
      pending_bare h hg hb hn.kept (hm.cons h hn.kept) pending
    have hfresh := mt (known_bare hlike hn.kept hm).1 fresh
    obtain ⟨hi, -, -, he, hs⟩ := incident_of_only hg.consistent hn.1 pending only
    have hkind := Structural.kind_ne hs he
    obtain ⟨e', he', hlike'⟩ := h.edge _ e he hkind
    rw [only, List.map_singleton, he', Option.getD_some] at hstructural
    have hkept : g.Kept (.edge i.edge) := ⟨e, he, hkind⟩
    have hrest := ih (hg.isPlace_that hi hs) ((hm.cons h hn.kept).cons h hkept)
    have hstep := Walks.step hnd' hfresh hleft' hstructural
      (by rwa [PatternEdge.anonymous, hlike'.name]) (edgeSegment_of_like hlike' hengine segment_ok)
      hrest
    rwa [restriction_of_like hlike, hprecedes] at hstep

end Chain

-- ---------------------------------------------------------------------------
-- Visits
-- ---------------------------------------------------------------------------

namespace Plan

variable {cx cx' : Context} {q : Renumbering} {g b g₀ : PatternGraph} {n : NodeId}
  {visited visited' binds more : List Handle} {rest : List Entry}

/-- The entry is about something that stays. -/
def Entry.stays (g : PatternGraph) : Entry → Bool
  | .node _ => true
  | .along i => g.keeps i

/-- What of a stack is about something that stays. -/
def bareStack (q : Renumbering) (g : PatternGraph) (stack : List Entry) : List Entry :=
  (stack.filter (Entry.stays g)).map (Entry.renumbered q)

@[simp] theorem bareStack_nil : bareStack q g [] = [] := rfl

@[simp] theorem bareStack_append (es fs : List Entry) :
    bareStack q g (es ++ fs) = bareStack q g es ++ bareStack q g fs := by
  rw [bareStack, List.filter_append, List.map_append]
  rfl

@[simp] theorem bareStack_node (n : NodeId) (es : List Entry) :
    bareStack q g (.node n :: es) = .node (q.node n) :: bareStack q g es := rfl

theorem bareStack_kept {i : Incidence} (hi : g.keeps i = true) (es : List Entry) :
    bareStack q g (.along i :: es) = .along (q.incidence i) :: bareStack q g es := by
  rw [bareStack, List.filter_cons_of_pos (by exact hi), List.map_cons]
  rfl

theorem bareStack_dropped {i : Incidence} (hi : g.keeps i = false) (es : List Entry) :
    bareStack q g (.along i :: es) = bareStack q g es := by
  rw [bareStack, List.filter_cons_of_neg (by rw [Entry.stays, hi]; exact Bool.false_ne_true)]
  rfl

theorem bareStack_constraints {is : List Incidence} (h : ∀ i ∈ is, g.keeps i = false) :
    bareStack q g (is.map .along) = [] := by
  induction is with
  | nil => rfl
  | cons i is ih =>
    rw [List.map_cons, bareStack_dropped (h i (by simp))]
    exact ih fun j hj => h j (List.mem_cons_of_mem _ hj)

/-- A node leaves the same entries behind, but for the constraints. -/
theorem pendingEntries_bare (h : Bare q g b) (hg : g.Regular cx) (hb : b.Consistent)
    (hn : g.Kept (.node n)) (hm : Mirrors q g visited visited') {es : List Entry}
    (hes : pendingEntries g n visited = .ok es) :
    pendingEntries b (q.node n) visited' = .ok (bareStack q g es) := by
  obtain ⟨l, hl, -⟩ := hg.consistent.incidencesOf_ok hn.1
  have hl' := h.incidencesOf hg hb hn hl
  simp only [pendingEntries, hl, Failure.ofFault, bind, Except.bind] at hes
  cases hes
  simp only [pendingEntries, hl', Failure.ofFault, bind, Except.bind, pure, Except.pure]
  congr 1
  clear hl hl'
  induction l with
  | nil => rfl
  | cons i l ih =>
    cases hk : g.keeps i with
    | false =>
      rw [List.filter_cons_of_neg (by rw [hk]; exact Bool.false_ne_true), ih]
      by_cases hv : Handle.edge i.edge ∈ visited
      · rw [List.filter_cons_of_neg (by simpa using hv)]
      · rw [List.filter_cons_of_pos (by simpa using hv), List.map_cons, bareStack_dropped hk]
    | true =>
      have hseen : Handle.edge (q.incidence i).edge ∈ visited' ↔ Handle.edge i.edge ∈ visited :=
        hm _ (keeps_iff.1 hk)
      rw [List.filter_cons_of_pos hk, List.map_cons]
      by_cases hv : Handle.edge i.edge ∈ visited
      · rw [List.filter_cons_of_neg (by simpa using hseen.2 hv),
          List.filter_cons_of_neg (by simpa using hv), ih]
      · rw [List.filter_cons_of_pos (by simpa using fun hv' => hv (hseen.1 hv')),
          List.filter_cons_of_pos (by simpa using hv), List.map_cons, List.map_cons,
          bareStack_kept hk, ih]

/-- A visit of both graphs that has to do with no constraint. -/
structure Alongside (args : List String) (q : Renumbering) (g b : PatternGraph)
    (em em' : Emission) : Prop where
  steps : Woven args (Alike q g b) em.steps em'.steps []
  marks : em'.marks = em.marks.map q.handle
  kept : ∀ x ∈ em.marks, g.Kept x
  entries : em'.entries = bareStack q g em.entries
  enter : ∀ n, .node n ∈ em.entries → g.Kept (.node n)

theorem Woven.single {V : String → String → Prop} {args : List String} {s s' : Step}
    (h : s.Twin args V s') : Woven args V [s] [s'] [] :=
  .step h .done

theorem not_node_of_pending (hg : g.Consistent) (hn : g.IsNode n) {es : List Entry}
    (hes : pendingEntries g n visited = .ok es) {m : NodeId} : .node m ∉ es := by
  intro hm
  obtain ⟨i, hi, -⟩ := (mem_pendingEntries hg hn hes).1 hm
  cases hi

theorem own_of_fresh (hg : g.Regular cx) {nd : PatternNode} (hn : g.IsPlace n)
    (hnode : g.node? n = some nd) (hk : nd.kind ≠ .argument) :
    isHiddenName (varOf g n) = true ∨ varOf g n ∉ cx.arguments := by
  refine hg.own_of_bindable (x := .node n) hn ?_
  rintro ⟨-, nd', hnd', hk'⟩
  rw [hnode] at hnd'
  cases hnd'
  exact hk hk'

/-- What a chain emits is emitted without the constraints. -/
theorem ChainEmits.bare (h : Bare q g b) (hg : g.Regular cx) (hb : b.Consistent)
    {start start' : Expr} (hstart : start.Twin (Alike q g b) start') {c : Chain} (hc : c.Stays g)
    (hm : Mirrors q g visited visited') {em : Emission}
    (he : ChainEmits g start c visited em more) :
    ∃ em' more', ChainEmits b start' (c.bare q) visited' em' more' ∧
      Alongside cx.arguments q g b em em' := by
  obtain ⟨nd, hnd⟩ := hc.terminal.1.exists_node
  obtain ⟨nd', hnd', hlike⟩ := h.node _ nd hc.terminal.kept hnd
  have hknown : ∀ {k : PatternNode}, g.node? c.terminal = some k →
      ((Handle.node (q.node c.terminal) ∈ visited' ∨ nd'.kind = .argument) ↔
        (.node c.terminal ∈ visited ∨ k.kind = .argument)) := by
    intro k hk
    rw [hnd] at hk
    cases hk
    rw [hlike.kind]
    exact or_congr_left (hm _ hc.terminal.kept)
  have hanon : nd'.anonymous = nd.anonymous := by
    rw [PatternNode.anonymous, hlike.name]
    rfl
  have hpending : ∀ {es}, pendingEntries g c.terminal (c.elements ++ visited) = .ok es →
      pendingEntries b (c.bare q).terminal ((c.bare q).elements ++ visited') =
        .ok (bareStack q g es) := fun hes =>
    pendingEntries_bare h hg hb hc.terminal.kept (hm.append h hc.elements) hes
  have hrest : ∀ {es} {s s' : Step},
      pendingEntries g c.terminal (c.elements ++ visited) = .ok es →
      s.Twin cx.arguments (Alike q g b) s' →
      Alongside cx.arguments q g b
        { steps := [s], marks := c.elements, entries := c.constraints.map .along ++ es }
        { steps := [s'], marks := (c.bare q).elements,
          entries := (c.bare q).constraints.map .along ++ bareStack q g es } := by
    intro es s s' hes htwin
    refine ⟨.single htwin, rfl, hc.elements, ?_, ?_⟩
    · rw [bareStack_append, bareStack_constraints hc.constraints]
      rfl
    · intro m hmem
      rcases List.mem_append.1 hmem with hmem | hmem
      · simp at hmem
      · exact absurd hmem (not_node_of_pending hg.consistent hc.terminal.1 hes)
  have hname : Alike q g b (varOf g c.terminal) (varOf b (c.bare q).terminal) :=
    Bare.alike_varOf hc.terminal
  cases he with
  | known node pending known =>
    exact ⟨_, _, .known hnd' (hpending pending) ((hknown node).2 known),
      hrest pending (.guard (.member (.var hname) (.reachable hstart)))⟩
  | closed node pending fresh anonymous closed =>
    have hsame := node
    rw [hnd] at hsame
    cases hsame
    exact ⟨_, _, .closed hnd' (hpending pending) (fun hk => fresh ((hknown node).1 hk))
      (hanon.trans anonymous) closed, hrest pending (.guard (.nonEmpty (.reachable hstart)))⟩
  | bound node pending fresh needed =>
    have hsame := node
    rw [hnd] at hsame
    cases hsame
    exact ⟨_, _, .bound hnd' (hpending pending) (fun hk => fresh ((hknown node).1 hk))
      (needed.imp (fun hn => hanon.trans hn) id), hrest pending
      (.generate hname (own_of_fresh hg hc.terminal node fun hk => fresh (.inr hk))
        (.reachable hstart))⟩

/-- What is emitted for the far end of an edge is emitted without the constraints. -/
theorem FarEmits.bare (h : Bare q g b) (hg : g.Regular cx) (hb : b.Consistent)
    (hengine : cx'.engine = cx.engine) {i : Incidence} (hplace : g.IsPlace i.that)
    {edge edge' : Expr} (hedge : edge.Twin (Alike q g b) edge')
    (hm : Mirrors q g visited visited') {em : Emission}
    (he : FarEmits cx g i edge visited em more) :
    ∃ em' more', FarEmits cx' b (q.incidence i) edge' visited' em' more' ∧
      Alongside cx.arguments q g b em em' := by
  obtain ⟨nd, hnd⟩ := hplace.1.exists_node
  obtain ⟨nd', hnd', hlike⟩ := h.node _ nd hplace.kept hnd
  have hknown : (Handle.node (q.node i.that) ∈ visited' ∨ nd'.kind = .argument) ↔
      (.node i.that ∈ visited ∨ nd.kind = .argument) := by
    rw [hlike.kind]
    exact or_congr_left (hm _ hplace.kept)
  have hrest : ∀ {es} {steps steps' : List Step},
      pendingEntries g i.that (.node i.that :: visited) = .ok es →
      Woven cx.arguments (Alike q g b) steps steps' [] →
      Alongside cx.arguments q g b { steps, marks := [.node i.that], entries := es }
        { steps := steps', marks := [.node (q.node i.that)], entries := bareStack q g es } := by
    intro es steps steps' hes hsteps
    refine ⟨hsteps, rfl, ?_, rfl, fun m hmem => ?_⟩
    · intro x hx
      rw [List.mem_singleton.1 hx]
      exact hplace.kept
    · exact absurd hmem (not_node_of_pending hg.consistent hplace.1 hes)
  have hpending : ∀ {es}, pendingEntries g i.that (.node i.that :: visited) = .ok es →
      pendingEntries b (q.node i.that) (.node (q.node i.that) :: visited') =
        .ok (bareStack q g es) := fun hes =>
    pendingEntries_bare h hg hb hplace.kept (hm.cons h hplace.kept) hes
  cases he with
  | known node pending known =>
    rw [hnd] at node
    cases node
    exact ⟨_, _, .known hnd' (hpending pending) (hknown.2 known),
      hrest pending (.single (.guard (.equal (.var (Bare.alike_varOf hplace)) (.edgeEnd hedge))))⟩
  | @named nd es name node pending fresh named =>
    have hsame := node
    rw [hnd] at hsame
    cases hsame
    have hname : g.HasName (.node i.that) name := ⟨hplace.1, by rw [node]; exact named⟩
    have hV : Alike q g b name name := h.alike_of_hasName hg hname hplace
    have hown : name ∉ cx.arguments := by
      have hown := own_of_fresh hg hplace node fun hk => fresh (.inr hk)
      rw [varOf_named hname, hg.visible _ _ hname] at hown
      exact hown.resolve_left Bool.false_ne_true
    refine ⟨_, _, .named hnd' (hpending pending) (fun hk => fresh (hknown.1 hk))
      (hlike.name.trans named), hrest pending (.step (.bind hV hown (.edgeEnd hedge)) ?_)⟩
    rw [hlike.type]
    unfold typeTest
    split
    · split
      · exact .done
      · exact .single (.guard (.isInstance (.var hV)))
    · exact .done
  | chain node fresh anonymous walks emits =>
    rw [hnd] at node
    cases node
    obtain ⟨em', more', hem, halong⟩ :=
      emits.bare h hg hb (.edgeEnd hedge) (walks.stays hg hplace) hm
    exact ⟨em', more', .chain hnd' (fun hk => fresh (hknown.1 hk)) (hlike.name.trans anonymous)
      (walks.bare h hg hb hengine hplace hm) hem, halong⟩

/-- At a node that stays, the same edges are left to follow. -/
theorem Alongside.entered (hg : g.Consistent) (hn : g.IsNode n) {es : List Entry}
    (hes : pendingEntries g n visited = .ok es) {steps steps' : List Step}
    (hsteps : Woven cx.arguments (Alike q g b) steps steps' []) :
    Alongside cx.arguments q g b { steps, entries := es }
      { steps := steps', entries := bareStack q g es } where
  steps := hsteps
  marks := rfl
  kept := fun _ hx => nomatch hx
  entries := rfl
  enter := fun _ hm => absurd hm (not_node_of_pending hg hn hes)

/-- Visiting what stays has the same shape in both graphs. -/
theorem Emits.bare (h : Bare q g b) (hr : Rooted cx g₀ g) (hb : b.Consistent)
    (hengine : cx'.engine = cx.engine) {x : Entry} (hx : x.stays g = true)
    (hentered : ∀ n, x = .node n → g.Kept (.node n)) (hi : ∀ i, x = .along i → g.Incident i)
    (hm : Mirrors q g visited visited') {em : Emission} (he : Emits cx g visited x em more) :
    ∃ em' more', Emits cx' b visited' (x.renumbered q) em' more' ∧
      Alongside cx.arguments q g b em em' := by
  have hg := hr.regular
  cases he with
  | @anchor n nd es node kind pending =>
    have hn := hentered n rfl
    obtain ⟨nd', hnd', hlike⟩ := h.node n nd hn node
    exact ⟨_, _, .anchor hnd' (by rwa [hlike.kind]) (pendingEntries_bare h hg hb hn hm pending),
      .entered hg.consistent hn.1 pending .done⟩
  | @place n nd es node kind pending =>
    have hn := hentered n rfl
    obtain ⟨nd', hnd', hlike⟩ := h.node n nd hn node
    have hp : g.IsPlace n := ⟨hn.1, nd, node, .inl kind⟩
    refine ⟨_, _, .place hnd' (hlike.kind.trans kind) (pendingEntries_bare h hg hb hn hm pending),
      .entered hg.consistent hn.1 pending ?_⟩
    rw [hlike.type]
    refine .single (.generate (Bare.alike_varOf hp) (own_of_fresh hg hp node ?_) .instances)
    rw [kind]
    exact NodeKind.noConfusion
  | @argument n nd name es node kind named pending =>
    have hn := hentered n rfl
    obtain ⟨nd', hnd', hlike⟩ := h.node n nd hn node
    have hp : g.IsPlace n := ⟨hn.1, nd, node, .inr kind⟩
    have hname : g.HasName (.node n) name := ⟨hn.1, by rw [node]; exact named⟩
    exact ⟨_, _, .argument hnd' (hlike.kind.trans kind) (hlike.name.trans named)
      (pendingEntries_bare h hg hb hn hm pending),
      .entered hg.consistent hn.1 pending (.single (.supply (h.alike_of_hasName hg hname hp)))⟩
  | @start i e edge kind =>
    have hkept : g.Kept (.edge i.edge) := keeps_iff.1 hx
    obtain ⟨e₁, he₁, hp⟩ := id hkept
    obtain ⟨e', he', hlike⟩ := h.edge _ e₁ he₁ hp
    rw [edge] at he₁
    cases he₁
    have hthat := hg.kept_this (hi i rfl).reverse hkept
    refine ⟨_, _, .start he' (hlike.kind.trans kind),
      ⟨.done, rfl, fun y hy => ?_, rfl, fun m hmem => ?_⟩⟩
    · cases hy
    · rw [Entry.node.inj (List.mem_singleton.1 hmem)]
      exact hthat
  | @constraints i e steps marks edge kind splices =>
    obtain ⟨e₁, he₁, hp⟩ := keeps_iff.1 hx
    rw [edge] at he₁
    cases he₁
    exact absurd kind hp
  | @chain i e segment c em more edge kind anonymous segment_ok walks emits =>
    have hs : g.Structural i := structural_of_pattern edge kind
    have hp : e.kind ≠ .precedes := hs.kind_ne edge
    obtain ⟨e', he', hlike⟩ := h.edge _ e edge hp
    have hthis : g.IsPlace i.this := hg.isPlace_this (hi i rfl) hs
    have hthat : g.IsPlace i.that := hg.isPlace_that (hi i rfl) hs
    have hkept : g.Kept (.edge i.edge) := ⟨e, edge, hp⟩
    obtain ⟨em', more', hem, halong⟩ := emits.bare h hg hb (.var (Bare.alike_varOf hthis))
      ((walks.stays hg hthat).cons hkept segment) hm
    exact ⟨em', more', .chain he' (hlike.kind.trans kind) (hlike.name.trans anonymous)
      (Chain.edgeSegment_of_like hlike hengine segment_ok)
      (walks.bare h hg hb hengine hthat (hm.cons h hkept)) hem, halong⟩
  | @argumentEdge i e name em more edge kind named far =>
    have hs : g.Structural i := structural_of_argument edge kind
    obtain ⟨e', he', hlike⟩ := h.edge _ e edge (hs.kind_ne edge)
    have hthis : g.IsPlace i.this := hg.isPlace_this (hi i rfl) hs
    have hthat : g.IsPlace i.that := hg.isPlace_that (hi i rfl) hs
    have hname : g.HasName (.edge i.edge) name := (hasName_edge_iff edge).2 named
    have hV : Alike q g b name name := h.alike_of_hasName hg hname ⟨name, hname⟩
    obtain ⟨em', more', hem, halong⟩ := far.bare h hg hb hengine hthat (.var hV) hm
    exact ⟨_, more', .argumentEdge he' (hlike.kind.trans kind) (hlike.name.trans named) hem,
      { halong with
        steps := .step (.guard (.equal (.var (Bare.alike_varOf hthis)) (.edgeEnd (.var hV))))
          halong.steps }⟩
  | @namedEdge i e name em more edge kind named identity far =>
    have hs : g.Structural i := structural_of_pattern edge kind
    obtain ⟨e', he', hlike⟩ := h.edge _ e edge (hs.kind_ne edge)
    have hthis : g.IsPlace i.this := hg.isPlace_this (hi i rfl) hs
    have hthat : g.IsPlace i.that := hg.isPlace_that (hi i rfl) hs
    have hname : g.HasName (.edge i.edge) name := (hasName_edge_iff edge).2 named
    have hV : Alike q g b name name := h.alike_of_hasName hg hname ⟨name, hname⟩
    have hown : name ∉ cx.arguments := by
      have hfits := hg.edgeFits_of_edge? edge
      rw [EdgeFits, kind] at hfits
      exact hfits.2.2 _ named
    obtain ⟨em', more', hem, halong⟩ := far.bare h hg hb hengine hthat (.var hV) hm
    refine ⟨_, _, .namedEdge he' (hlike.kind.trans kind) (hlike.name.trans named)
      (by rw [hengine]; exact identity) hem, { halong with steps := .step ?_ halong.steps }⟩
    rw [hlike.type]
    exact .generate hV (.inr hown) (.adjacent (.var (Bare.alike_varOf hthis)))

end Plan

end GraphPattern
