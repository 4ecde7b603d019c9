import GraphPattern.Proofs.Renamed
import GraphPattern.Proofs.Renumberings
import GraphPattern.Proofs.Solutions
import Mathlib.Data.List.Basic
import Mathlib.Data.List.Find

/-!
# GraphPattern — walks in larger graphs

A graph is embedded in a larger one if the larger graph has all of it at other places, and adds no edges
to its nodes but to the anchor. From any node but the anchor, the walk through the larger graph then
takes the course of the walk through the smaller one: it makes the same visits at other places, emits
the same steps under other names, and leaves what else is on the stack alone.

## Results

* `Chain.Walks.embed` — chains in the larger graph.
* `Plan.Emits.embed` — visits in the larger graph.
* `Plan.Explores.embed` — the walk in the larger graph, with more on the stack.
-/

namespace GraphPattern

open PatternGraph

namespace PatternGraph

variable {cx cx' : Context} {q : Renumbering} {g b : PatternGraph}

-- ---------------------------------------------------------------------------
-- Embeddings
-- ---------------------------------------------------------------------------

/-- A node or an edge of the graph. -/
def Has (g : PatternGraph) : Handle → Prop
  | .node n => g.IsNode n
  | .edge k => ∃ e, g.edge? k = some e

/-- The second graph has all of the first one, and its nodes but the anchor have no other edges. -/
structure Embeds (q : Renumbering) (g b : PatternGraph) : Prop where
  anchor : q.node g.anchor = b.anchor
  image : ∀ n, g.IsNode n → b.IsNode (q.node n)
  node : ∀ n nd, g.IsNode n → g.node? n = some nd →
    ∃ nd', b.node? (q.node n) = some nd' ∧ nd.Like nd' ∧ nd'.constraint? = nd.constraint?
  injective : ∀ m n, g.IsNode m → g.IsNode n → q.node m = q.node n → m = n
  edge : ∀ k e, g.edge? k = some e → ∃ e', b.edge? (q.edge k) = some e' ∧ e.Like q e'
  edgeOrder : ∀ j k, j.index < k.index → (q.edge j).index < (q.edge k).index
  closed : ∀ i, b.Incident i → ∀ n, g.IsNode n → n ≠ g.anchor → i.this = q.node n →
    ∃ j, g.Incident j ∧ q.incidence j = i

namespace Embeds

theorem edge_injective (h : Embeds q g b) {j k : EdgeId} (heq : q.edge j = q.edge k) : j = k := by
  have hindex : (q.edge j).index = (q.edge k).index := by rw [heq]
  rcases Nat.lt_trichotomy j.index k.index with hlt | hjk | hlt
  · have := h.edgeOrder j k hlt
    omega
  · exact congrArg EdgeId.mk hjk
  · have := h.edgeOrder k j hlt
    omega

theorem handle_injective (h : Embeds q g b) {x y : Handle} (hx : g.Has x) (hy : g.Has y)
    (heq : q.handle x = q.handle y) : x = y := by
  cases x <;> cases y
  case node.node m n =>
    exact congrArg Handle.node (h.injective m n hx hy (Handle.node.inj heq))
  case edge.edge j k => exact congrArg Handle.edge (h.edge_injective (Handle.edge.inj heq))
  all_goals cases heq

theorem ne_anchor (h : Embeds q g b) (hg : g.Consistent) {n : NodeId} (hn : g.IsNode n)
    (hne : n ≠ g.anchor) : q.node n ≠ b.anchor := by
  rw [← h.anchor]
  exact fun heq => hne (h.injective _ _ hn (isNode_anchor hg.inhabited) heq)

theorem incident (h : Embeds q g b) {i : Incidence} (hi : g.Incident i) :
    b.Incident (q.incidence i) := by
  obtain ⟨e, he, hseen⟩ := hi
  obtain ⟨e', he', hlike⟩ := h.edge _ e he
  refine ⟨e', he', ?_⟩
  rw [hseen]
  cases i.direction <;> simp only [Renumbering.incidence, PatternEdge.seen, hlike.alpha,
    hlike.omega]

theorem before (h : Embeds q g b) {i j : Incidence} (hij : Before i j) :
    Before (q.incidence i) (q.incidence j) := by
  rcases hij with hlt | ⟨he, hd⟩
  · exact .inl (h.edgeOrder _ _ hlt)
  · exact .inr ⟨congrArg q.edge he, hd⟩

/-- A node has the same incidences in the larger graph. -/
theorem incidencesOf (h : Embeds q g b) (hg : g.Consistent) (hb : b.Consistent) {n : NodeId}
    (hn : g.IsNode n) (hne : n ≠ g.anchor) {l : List Incidence} (hl : g.incidencesOf n = .ok l) :
    b.incidencesOf (q.node n) = .ok (l.map q.incidence) := by
  refine hb.incidencesOf_eq (h.image n hn) ?_ fun j => ?_
  · rw [List.pairwise_map]
    exact (hg.incidencesOf_pairwise hn hl).imp h.before
  · rw [List.mem_map]
    constructor
    · rintro ⟨i, hi, rfl⟩
      obtain ⟨hinc, hthis⟩ := (hg.mem_incidencesOf hl hn).1 hi
      exact ⟨h.incident hinc, congrArg q.node hthis⟩
    · rintro ⟨hj, hthis⟩
      obtain ⟨i, hi, rfl⟩ := h.closed j hj n hn hne hthis
      have hsame := h.injective _ _ (hg.isNode_this hi) hn hthis
      exact ⟨i, (hg.mem_incidencesOf hl hn).2 ⟨hi, hsame⟩, rfl⟩

end Embeds

/-- Of the smaller graph, the same was visited in both. -/
def Echoes (q : Renumbering) (g : PatternGraph) (visited visited' : List Handle) : Prop :=
  ∀ x, g.Has x → (q.handle x ∈ visited' ↔ x ∈ visited)

namespace Echoes

variable {visited visited' : List Handle}

theorem cons (h : Echoes q g visited visited') (hq : Embeds q g b) {y : Handle} (hy : g.Has y) :
    Echoes q g (y :: visited) (q.handle y :: visited') := by
  intro x hx
  rw [List.mem_cons, List.mem_cons, h x hx]
  exact or_congr_left ⟨fun heq => hq.handle_injective hx hy heq, fun heq => by rw [heq]⟩

theorem append (h : Echoes q g visited visited') (hq : Embeds q g b) {xs : List Handle}
    (hxs : ∀ x ∈ xs, g.Has x) : Echoes q g (xs ++ visited) (xs.map q.handle ++ visited') := by
  induction xs with
  | nil => exact h
  | cons x xs ih =>
    exact (ih fun y hy => hxs y (List.mem_cons_of_mem _ hy)).cons hq (hxs x (by simp))

theorem edge (h : Echoes q g visited visited') {i : Incidence} (hi : g.Incident i) :
    Handle.edge (q.incidence i).edge ∈ visited' ↔ Handle.edge i.edge ∈ visited := by
  obtain ⟨e, he, -⟩ := hi
  exact h (.edge i.edge) ⟨e, he⟩

end Echoes

end PatternGraph

-- ---------------------------------------------------------------------------
-- Chains
-- ---------------------------------------------------------------------------

namespace Chain

variable {cx cx' : Context} {q : Renumbering} {g b : PatternGraph} {n : NodeId}
  {visited visited' : List Handle}

/-- The chain at other places. -/
def renumbered (q : Renumbering) (c : Chain) : Chain :=
  { c with terminal := q.node c.terminal, elements := c.elements.map q.handle
           constraints := c.constraints.map q.incidence }

/-- What is left to follow at a node is the same in the larger graph. -/
theorem pending_embed (hq : Embeds q g b) (hg : g.Consistent) (hb : b.Consistent)
    (hn : g.IsNode n) (hne : n ≠ g.anchor) (hm : Echoes q g visited visited')
    {left : List (Incidence × PatternEdge)} (hleft : pending g n visited = .ok left) :
    ∃ moved : Incidence × PatternEdge → Incidence × PatternEdge,
      pending b (q.node n) visited' = .ok (left.map moved) ∧
        ∀ x ∈ left, (moved x).1 = q.incidence x.1 ∧ x.2.Like q (moved x).2 := by
  obtain ⟨l, hl, hmem⟩ := hg.incidencesOf_ok hn
  have hl' := hq.incidencesOf hg hb hn hne hl
  refine ⟨fun x => (q.incidence x.1, (b.edge? (q.edge x.1.edge)).getD x.2), ?_, ?_⟩
  · -- the incidences of the image, in the same order, and the same ones are already visited
    simp only [pending, hl, bind, Except.bind, pure, Except.pure] at hleft
    cases hleft
    simp only [pending, hl', bind, Except.bind, pure, Except.pure]
    rw [List.filterMap_map, List.map_filterMap]
    congr 1
    refine List.filterMap_congr fun i hi => ?_
    obtain ⟨e, he, -⟩ := ((hmem i).1 hi).1
    obtain ⟨e', he', -⟩ := hq.edge _ e he
    have he'' : b.edge? (q.incidence i).edge = some e' := he'
    have hseen := hm.edge ((hmem i).1 hi).1
    by_cases hv : Handle.edge i.edge ∈ visited
    · simp only [Function.comp, if_pos hv, if_pos (hseen.2 hv), Option.map_none]
    · simp only [Function.comp, if_neg hv, if_neg (mt hseen.1 hv), he, he', he'', Option.map_some,
        Option.getD_some]
  · -- each goes to its image
    rintro ⟨i, e⟩ hx
    obtain ⟨-, -, -, he⟩ := (mem_pending hg hn hleft).1 hx
    obtain ⟨e', he', hlike⟩ := hq.edge _ e he
    refine ⟨rfl, ?_⟩
    simp only [he', Option.getD_some]
    exact hlike

theorem filter_moved {left : List (Incidence × PatternEdge)}
    {moved : Incidence × PatternEdge → Incidence × PatternEdge}
    (h : ∀ x ∈ left, (moved x).1 = q.incidence x.1 ∧ x.2.Like q (moved x).2)
    {p : EdgeKind → Bool} :
    (left.map moved).filter (fun x => p x.2.kind) = (left.filter fun x => p x.2.kind).map moved := by
  rw [List.filter_map]
  congr 1
  exact List.filter_congr fun x hx => congrArg p (h x hx).2.kind

/-- The constraints that are left at a node, at their other places. -/
theorem constraints_moved {left : List (Incidence × PatternEdge)}
    {moved : Incidence × PatternEdge → Incidence × PatternEdge}
    (h : ∀ x ∈ left, (moved x).1 = q.incidence x.1 ∧ x.2.Like q (moved x).2) :
    ((left.map moved).filter (·.2.kind = .precedes)).map (·.1) =
      ((left.filter (·.2.kind = .precedes)).map (·.1)).map q.incidence := by
  rw [filter_moved h (p := fun k => decide (k = .precedes)), List.map_map, List.map_map]
  exact List.map_congr_left fun x hx => (h x (List.mem_filter.1 hx).1).1

/-- A chain runs over nodes and edges of the graph, and ends at a node of the model. -/
theorem Walks.inside (hg : g.Regular cx) {c : Chain} (h : Walks cx g n visited c)
    (hn : g.IsPlace n) : g.IsPlace c.terminal ∧ ∀ x ∈ c.elements, g.Has x := by
  have hsingle : ∀ {m}, g.IsPlace m → ∀ x ∈ [Handle.node m], g.Has x := by
    intro m hm x hx
    rw [List.mem_singleton.1 hx]
    exact hm.1
  induction h with
  | stop | last | openEnd => exact ⟨hn, hsingle hn⟩
  | @step n nd visited left i e segment rest node fresh pending only anonymous segment_ok _ ih =>
    obtain ⟨hi, -, -, he, hs⟩ := incident_of_only hg.consistent hn.1 pending only
    obtain ⟨hterminal, helements⟩ := ih (hg.isPlace_that hi hs)
    refine ⟨hterminal, fun x hx => ?_⟩
    simp only [List.mem_cons] at hx
    rcases hx with rfl | rfl | hx
    · exact hn.1
    · exact ⟨e, he⟩
    · exact helements x hx

theorem known_embed {nd nd' : PatternNode} (h : nd.Like nd') (hn : g.IsNode n)
    (hm : Echoes q g visited visited') :
    (nd'.anonymous = false ∨ Handle.node (q.node n) ∈ visited') ↔
      (nd.anonymous = false ∨ Handle.node n ∈ visited) := by
  rw [PatternNode.anonymous, PatternNode.anonymous, h.name]
  exact or_congr_right (hm (.node n) hn)

/-- Chains in the larger graph. -/
theorem Walks.embed (hq : Embeds q g b) (hg : g.Regular cx) (hb : b.Consistent)
    (hengine : cx'.engine = cx.engine) {c : Chain} (hc : Walks cx g n visited c)
    (hn : g.IsPlace n) (hm : Echoes q g visited visited') :
    Walks cx' b (q.node n) visited' (c.renumbered q) := by
  have hne : ∀ {m}, g.IsPlace m → m ≠ g.anchor := by
    rintro m hm rfl
    exact hg.not_isPlace_anchor hm
  -- along the chain; the next node of a step is a place again, so the image walks on
  induction hc generalizing visited' with
  | @stop n nd visited node known =>
    obtain ⟨nd', hnd', hlike, -⟩ := hq.node n nd hn.1 node
    have hstop : Walks cx' b _ _ _ := Walks.stop hnd' ((known_embed hlike hn.1 hm).2 known)
    rwa [restriction_of_like hlike] at hstop
  | @last n nd visited left node fresh pending closed =>
    obtain ⟨nd', hnd', hlike, -⟩ := hq.node n nd hn.1 node
    obtain ⟨moved, hleft', hmoved⟩ :=
      pending_embed hq hg.consistent hb hn.1 (hne hn) (hm.cons hq (y := .node n) hn.1) pending
    have hfresh := mt (known_embed hlike hn.1 hm).1 fresh
    have hlast : Walks cx' b _ _ _ := Walks.last hnd' hfresh hleft' (by
      rw [filter_moved hmoved, closed, List.map_nil])
    rwa [restriction_of_like hlike, constraints_moved hmoved] at hlast
  | @openEnd n nd visited left i e node fresh pending only named =>
    obtain ⟨nd', hnd', hlike, -⟩ := hq.node n nd hn.1 node
    obtain ⟨moved, hleft', hmoved⟩ :=
      pending_embed hq hg.consistent hb hn.1 (hne hn) (hm.cons hq (y := .node n) hn.1) pending
    have hfresh := mt (known_embed hlike hn.1 hm).1 fresh
    have hi : (i, e) ∈ left := (List.mem_filter.1 (only ▸ List.mem_singleton_self _)).1
    obtain ⟨-, hlike'⟩ := hmoved _ hi
    have hopen : Walks cx' b _ _ _ := Walks.openEnd hnd' hfresh hleft'
      (by rw [filter_moved hmoved, only, List.map_singleton])
      (by rwa [PatternEdge.anonymous, hlike'.name])
    rwa [restriction_of_like hlike, constraints_moved hmoved] at hopen
  | @step n nd visited left i e segment rest node fresh pending only anonymous segment_ok _ ih =>
    obtain ⟨nd', hnd', hlike, -⟩ := hq.node n nd hn.1 node
    obtain ⟨moved, hleft', hmoved⟩ :=
      pending_embed hq hg.consistent hb hn.1 (hne hn) (hm.cons hq (y := .node n) hn.1) pending
    have hfresh := mt (known_embed hlike hn.1 hm).1 fresh
    obtain ⟨hi, -, -, he, hs⟩ := incident_of_only hg.consistent hn.1 pending only
    have hmem : (i, e) ∈ left := (List.mem_filter.1 (only ▸ List.mem_singleton_self _)).1
    obtain ⟨hmoved_i, hlike'⟩ := hmoved _ hmem
    have hm' := (hm.cons hq (y := .node n) hn.1).cons hq (y := .edge i.edge) ⟨e, he⟩
    have hrest := ih (hg.isPlace_that hi hs) hm'
    have honly : (left.map moved).filter (·.2.kind.structural) =
        [(q.incidence i, (moved (i, e)).2)] := by
      rw [filter_moved hmoved, only, List.map_singleton, ← hmoved_i]
    have hstep : Walks cx' b _ _ _ := Walks.step hnd' hfresh hleft' honly
      (by rwa [PatternEdge.anonymous, hlike'.name])
      (edgeSegment_of_like hlike' hengine segment_ok) hrest
    rw [restriction_of_like hlike, constraints_moved hmoved] at hstep
    simp only [renumbered, List.map_cons, List.map_append]
    exact hstep

end Chain

namespace Plan

variable {cx cx' : Context} {q : Renumbering} {g₀ g b : PatternGraph} {r : String → String}
  {n : NodeId} {visited visited' binds more : List Handle} {rest : List Entry}

-- ---------------------------------------------------------------------------
-- Names
-- ---------------------------------------------------------------------------

/-- The names under which the larger graph has what is named or numbered in the smaller one. -/
structure Calls (r : String → String) (q : Renumbering) (g b : PatternGraph) : Prop where
  var : ∀ n, g.IsPlace n → r (varOf g n) = varOf b (q.node n)
  name : ∀ name, isHiddenName name = false → r name = name
  /-- Constraints bind visible names. -/
  constraint : ∀ n nd c, g.IsConstraint n → g.node? n = some nd → nd.constraint? = some c →
    (constraintStep c).renamed r = constraintStep c

theorem Calls.hasName (hr : Calls r q g b) (hg : g.Regular cx) {x : Handle} {name : String}
    (h : g.HasName x name) : r name = name :=
  hr.name name (hg.visible x name h)

/-- What is emitted for the larger graph. -/
def Emission.renumbered (q : Renumbering) (r : String → String) (em : Emission) : Emission :=
  { steps := em.steps.map (Step.renamed r), marks := em.marks.map q.handle
    entries := em.entries.map (Entry.renumbered q) }

theorem renamed_typeTest {name : String} (h : r name = name) (type? : Option String) :
    (typeTest name type?).map (Step.renamed r) = typeTest name type? := by
  unfold typeTest
  split
  · split
    · rfl
    · simp [Step.renamed, Expr.renamed, h]
  · rfl

-- ---------------------------------------------------------------------------
-- Entries
-- ---------------------------------------------------------------------------

/-- A node leaves the same entries behind. -/
theorem pendingEntries_embed (hq : Embeds q g b) (hg : g.Consistent) (hb : b.Consistent)
    (hn : g.IsNode n) (hne : n ≠ g.anchor) (hm : Echoes q g visited visited') {es : List Entry}
    (hes : pendingEntries g n visited = .ok es) :
    pendingEntries b (q.node n) visited' = .ok (es.map (Entry.renumbered q)) := by
  obtain ⟨l, hl, hmem⟩ := hg.incidencesOf_ok hn
  have hl' := hq.incidencesOf hg hb hn hne hl
  simp only [pendingEntries, hl, Failure.ofFault, bind, Except.bind, pure, Except.pure] at hes
  cases hes
  simp only [pendingEntries, hl', Failure.ofFault, bind, Except.bind, pure, Except.pure]
  rw [List.filter_map, List.map_map, List.map_map]
  have hfilter : l.filter ((fun i => decide (Handle.edge i.edge ∉ visited')) ∘ q.incidence) =
      l.filter fun i => decide (Handle.edge i.edge ∉ visited) :=
    List.filter_congr fun i hi =>
      decide_eq_decide.2 (not_congr (hm.edge ((hmem i).1 hi).1))
  rw [hfilter]
  rfl

/-- What a chain emits in the larger graph. -/
theorem ChainEmits.embed (hq : Embeds q g b) (hg : g.Regular cx) (hb : b.Consistent)
    (hr : Calls r q g b) {start : Expr} {c : Chain} (hterminal : g.IsPlace c.terminal)
    (helements : ∀ x ∈ c.elements, g.Has x) (hm : Echoes q g visited visited') {em : Emission}
    (h : ChainEmits g start c visited em more) :
    ChainEmits b (start.renamed r) (c.renumbered q) visited' (em.renumbered q r)
      (more.map q.handle) := by
  have hne : c.terminal ≠ g.anchor := by
    intro heq
    rw [heq] at hterminal
    exact hg.not_isPlace_anchor hterminal
  -- what is pending at the terminal is the image of what was
  have hpending : ∀ {es}, pendingEntries g c.terminal (c.elements ++ visited) = .ok es →
      pendingEntries b (c.renumbered q).terminal ((c.renumbered q).elements ++ visited') =
        .ok (es.map (Entry.renumbered q)) := fun hes =>
    pendingEntries_embed hq hg.consistent hb hterminal.1 hne (hm.append hq helements) hes
  -- the terminal is known on one side when it is on the other
  have hknown : ∀ {nd nd' : PatternNode}, nd.Like nd' →
      (Handle.node (c.renumbered q).terminal ∈ visited' ∨ nd'.kind = .argument ↔
        .node c.terminal ∈ visited ∨ nd.kind = .argument) := by
    intro nd nd' hlike
    rw [hlike.kind]
    exact or_congr_left (hm (.node c.terminal) hterminal.1)
  have hemission : ∀ (s : Step) (es : List Entry),
      Emission.renumbered q r
        { steps := [s], marks := c.elements, entries := c.constraints.map .along ++ es } =
      { steps := [s.renamed r], marks := (c.renumbered q).elements
        entries := (c.renumbered q).constraints.map .along ++ es.map (Entry.renumbered q) } := by
    intro s es
    simp [Emission.renumbered, Chain.renumbered, Entry.renumbered, Function.comp_def]
  cases h with
  | @known nd es node pending known =>
    obtain ⟨nd', hnd', hlike, -⟩ := hq.node _ nd hterminal.1 node
    rw [hemission]
    simp only [Step.renamed, Expr.renamed, hr.var _ hterminal]
    exact .known hnd' (hpending pending) ((hknown hlike).2 known)
  | @closed nd es node pending fresh anonymous closed =>
    obtain ⟨nd', hnd', hlike, -⟩ := hq.node _ nd hterminal.1 node
    rw [hemission]
    exact .closed hnd' (hpending pending) (mt (hknown hlike).1 fresh)
      (by rwa [PatternNode.anonymous, hlike.name]) closed
  | @bound nd es node pending fresh needed =>
    obtain ⟨nd', hnd', hlike, -⟩ := hq.node _ nd hterminal.1 node
    rw [hemission]
    simp only [Step.renamed, Expr.renamed, hr.var _ hterminal]
    exact .bound hnd' (hpending pending) (mt (hknown hlike).1 fresh)
      (needed.imp_left fun h => by rwa [PatternNode.anonymous, hlike.name])

/-- What is emitted for the far end of an edge in the larger graph. -/
theorem FarEmits.embed (hq : Embeds q g b) (hg : g.Regular cx) (hb : b.Consistent)
    (hr : Calls r q g b) (hengine : cx'.engine = cx.engine) {i : Incidence}
    (hplace : g.IsPlace i.that) {edge : Expr} (hm : Echoes q g visited visited') {em : Emission}
    (h : FarEmits cx g i edge visited em more) :
    FarEmits cx' b (q.incidence i) (edge.renamed r) visited' (em.renumbered q r)
      (more.map q.handle) := by
  have hne : i.that ≠ g.anchor := by
    intro heq
    rw [heq] at hplace
    exact hg.not_isPlace_anchor hplace
  have hpending : ∀ {es}, pendingEntries g i.that (.node i.that :: visited) = .ok es →
      pendingEntries b (q.node i.that) (.node (q.node i.that) :: visited') =
        .ok (es.map (Entry.renumbered q)) := fun hes =>
    pendingEntries_embed hq hg.consistent hb hplace.1 hne (hm.cons hq (y := .node i.that) hplace.1)
      hes
  have hknown : ∀ {nd nd' : PatternNode}, nd.Like nd' →
      (Handle.node (q.incidence i).that ∈ visited' ∨ nd'.kind = .argument ↔
        .node i.that ∈ visited ∨ nd.kind = .argument) := by
    intro nd nd' hlike
    rw [hlike.kind]
    exact or_congr_left (hm (.node i.that) hplace.1)
  cases h with
  | @known nd es node pending known =>
    obtain ⟨nd', hnd', hlike, -⟩ := hq.node _ nd hplace.1 node
    simp only [Emission.renumbered, List.map_cons, List.map_nil, Step.renamed, Expr.renamed,
      hr.var _ hplace]
    exact .known hnd' (hpending pending) ((hknown hlike).2 known)
  | @named nd es name node pending fresh named =>
    obtain ⟨nd', hnd', hlike, -⟩ := hq.node _ nd hplace.1 node
    have hname : r name = name :=
      hr.hasName hg (x := .node i.that) ⟨hplace.1, by rw [node]; exact named⟩
    simp only [Emission.renumbered, List.map_cons, List.map_nil, Step.renamed, Expr.renamed, hname,
      renamed_typeTest hname]
    rw [← hlike.type]
    exact .named hnd' (hpending pending) (mt (hknown hlike).1 fresh) (hlike.name.trans named)
  | @chain nd c em more node fresh anonymous walks emits =>
    obtain ⟨nd', hnd', hlike, -⟩ := hq.node _ nd hplace.1 node
    obtain ⟨hterminal, helements⟩ := walks.inside hg hplace
    exact .chain hnd' (mt (hknown hlike).1 fresh) (hlike.name.trans anonymous)
      (walks.embed hq hg hb hengine hplace hm)
      (emits.embed hq hg hb hr hterminal helements hm)

-- ---------------------------------------------------------------------------
-- Visits
-- ---------------------------------------------------------------------------

theorem incidencesAt_placeOf? {n : NodeId} (hn : g.IsNode n) :
    g.incidencesOf n = .ok (g.incidencesAt ((g.placeOf? n).getD 0)) := by
  obtain ⟨i, rfl, hi⟩ := hn
  have hplace : g.placeOf? ⟨i⟩ = some i := if_pos hi
  rw [incidencesOf_natCast hi, hplace, Option.getD_some]

/-- The constraints go on in the same way. -/
theorem nextConstraint?_embed (hq : Embeds q g b) (hg : g.Consistent) (hb : b.Consistent)
    (hn : g.IsNode n) (hne : n ≠ g.anchor) (hm : Echoes q g visited visited') :
    nextConstraint? b (q.node n) visited' =
      (nextConstraint? g n visited).map q.incidence := by
  have hl := incidencesAt_placeOf? hn
  have hl' := hq.incidencesOf hg hb hn hne hl
  rw [incidencesAt_placeOf? (hq.image n hn)] at hl'
  rw [nextConstraint?, nextConstraint?, Except.ok.inj hl', List.find?_map]
  congr 1
  refine List.find?_congr fun i hi => ?_
  obtain ⟨hinc, -⟩ := (hg.mem_incidencesOf hl hn).1 hi
  obtain ⟨e, he, -⟩ := id hinc
  obtain ⟨e', he', hlike⟩ := hq.edge _ e he
  have he'' : b.edge? (q.incidence i).edge = some e' := he'
  simp only [Function.comp, he, he'', Option.any_some, hlike.kind]
  exact congrArg _ (decide_eq_decide.2 (not_congr (hm.edge hinc)))

/-- The same constraints are spliced in the larger graph. -/
theorem Splices.embed (hq : Embeds q g b) (hrooted : Rooted cx g₀ g) (hb : b.Consistent)
    (hr : Calls r q g b) {steps : List Step} {marks : List Handle}
    (h : Splices g n visited steps marks) (hn : g.IsConstraint n) (hled : LedTo g n visited)
    (hm : Echoes q g visited visited') :
    Splices b (q.node n) visited' (steps.map (Step.renamed r)) (marks.map q.handle) := by
  have hg := hrooted.regular
  have hne : ∀ {m}, g.IsConstraint m → m ≠ g.anchor := by
    rintro m hm rfl
    exact hg.not_isConstraint_anchor hm
  induction h generalizing visited' with
  | @last n nd c visited node form next =>
    obtain ⟨nd', hnd', -, hform⟩ := hq.node _ nd hn.1 node
    have hnext := nextConstraint?_embed hq hg.consistent hb hn.1 (hne hn) hm
    rw [next, Option.map_none] at hnext
    rw [List.map_singleton, hr.constraint n nd c hn node form]
    exact .last hnd' (hform.trans form) hnext
  | @next n nd c visited i steps marks node form next _ ih =>
    obtain ⟨nd', hnd', -, hform⟩ := hq.node _ nd hn.1 node
    have hnext := nextConstraint?_embed hq hg.consistent hb hn.1 (hne hn) hm
    rw [next, Option.map_some] at hnext
    obtain ⟨hi, -, hp, -, hd⟩ := leads_on hrooted hn hled next
    obtain ⟨e, he, -⟩ := id hi
    have hrest := ih (isConstraint_that hrooted hi hp hd) (ledTo_that hi hd (by simp))
      ((hm.cons hq (y := .node n) hn.1).cons hq (y := .edge i.edge) ⟨e, he⟩)
    rw [List.map_cons, hr.constraint n nd c hn node form]
    exact .next hnd' (hform.trans form) hnext hrest

/-- Visits in the larger graph. -/
theorem Emits.embed (hq : Embeds q g b) (hrooted : Rooted cx g₀ g) (hb : b.Consistent)
    (hr : Calls r q g b) (hengine : cx'.engine = cx.engine) {x : Entry}
    (hx : x ≠ .node g.anchor) (hf : Frontier g₀ g visited binds (x :: rest))
    (hm : Echoes q g (x.handle :: visited) visited') {em : Emission}
    (h : Emits cx g (x.handle :: visited) x em more) :
    Emits cx' b visited' (x.renumbered q) (em.renumbered q r) (more.map q.handle) := by
  have hg := hrooted.regular
  have hnode : ∀ {n}, x = .node n → g.IsNode n ∧ n ≠ g.anchor := by
    rintro n rfl
    have hne : n ≠ g.anchor := fun heq => hx (by rw [heq])
    refine ⟨hrooted.anchors.extended.isNode ?_, hne⟩
    exact ((hf.enter n (by simp)).resolve_left hne).isNode
  have hpending : ∀ {n es}, x = .node n →
      pendingEntries g n (x.handle :: visited) = .ok es →
      pendingEntries b (q.node n) visited' = .ok (es.map (Entry.renumbered q)) := by
    intro n es hxn hes
    obtain ⟨hn, hne⟩ := hnode hxn
    exact pendingEntries_embed hq hg.consistent hb hn hne hm hes
  cases h with
  | @anchor n nd es node kind pending =>
    obtain ⟨nd', hnd', hlike, -⟩ := hq.node _ nd (hnode rfl).1 node
    exact .anchor hnd' (by rwa [hlike.kind]) (hpending rfl pending)
  | @place n nd es node kind pending =>
    obtain ⟨nd', hnd', hlike, -⟩ := hq.node _ nd (hnode rfl).1 node
    simp only [Emission.renumbered, List.map_cons, List.map_nil, Step.renamed, Expr.renamed,
      hr.var n ⟨(hnode rfl).1, nd, node, .inl kind⟩]
    rw [← hlike.type]
    exact .place hnd' (hlike.kind.trans kind) (hpending rfl pending)
  | @argument n nd name es node kind named pending =>
    obtain ⟨nd', hnd', hlike, -⟩ := hq.node _ nd (hnode rfl).1 node
    have hname : r name = name :=
      hr.hasName hg (x := .node n) ⟨(hnode rfl).1, by rw [node]; exact named⟩
    simp only [Emission.renumbered, List.map_cons, List.map_nil, Step.renamed, Expr.renamed, hname]
    exact .argument hnd' (hlike.kind.trans kind) (hlike.name.trans named) (hpending rfl pending)
  | @start i e edge kind =>
    obtain ⟨e', he', hlike⟩ := hq.edge _ e edge
    exact .start he' (hlike.kind.trans kind)
  | @constraints i e steps marks edge kind splices =>
    obtain ⟨e', he', hlike⟩ := hq.edge _ e edge
    obtain ⟨hi, -, hthis⟩ := hf.along i (by simp)
    have hp : g.Precedes i := ⟨e, edge, kind⟩
    have hd := direction_of_precedes hrooted hi hp hthis
    exact .constraints he' (hlike.kind.trans kind)
      (splices.embed hq hrooted hb hr (isConstraint_that hrooted hi hp hd)
        (ledTo_that hi hd (by simp [Entry.handle])) hm)
  | @chain i e segment c em more edge kind anonymous segment_ok walks emits =>
    obtain ⟨e', he', hlike⟩ := hq.edge _ e edge
    obtain ⟨hi, -, -⟩ := hf.along i (by simp)
    have hs : g.Structural i := structural_of_pattern edge kind
    obtain ⟨hterminal, helements⟩ := walks.inside hg (hg.isPlace_that hi hs)
    have hhas : g.Has (.edge i.edge) := ⟨e, edge⟩
    have hwalks := walks.embed hq hg hb hengine (hg.isPlace_that hi hs) (hm.cons hq hhas)
    let whole : Chain := { c with path := segment :: c.path, elements := .edge i.edge :: c.elements }
    have hwhole : ∀ y ∈ whole.elements, g.Has y := List.forall_mem_cons.2 ⟨hhas, helements⟩
    have hemits := ChainEmits.embed (c := whole) hq hg hb hr hterminal hwhole hm emits
    rw [Expr.renamed, hr.var _ (hg.isPlace_this hi hs)] at hemits
    exact .chain he' (hlike.kind.trans kind) (hlike.name.trans anonymous)
      (Chain.edgeSegment_of_like hlike hengine segment_ok) hwalks hemits
  | @argumentEdge i e name em more edge kind named far =>
    obtain ⟨e', he', hlike⟩ := hq.edge _ e edge
    obtain ⟨hi, -, -⟩ := hf.along i (by simp)
    have hs : g.Structural i := structural_of_argument edge kind
    have hname : r name = name :=
      hr.hasName hg (x := .edge i.edge) ((hasName_edge_iff edge).2 named)
    have hfar := far.embed hq hg hb hr hengine (hg.isPlace_that hi hs) hm
    rw [Expr.renamed, hname] at hfar
    have hemits := Emits.argumentEdge (i := q.incidence i) he' (hlike.kind.trans kind)
      (hlike.name.trans named) hfar
    simp only [Emission.renumbered, List.map_cons, Step.renamed, Expr.renamed, hname,
      hr.var _ (hg.isPlace_this hi hs)]
    exact hemits
  | @namedEdge i e name em more edge kind named identity far =>
    obtain ⟨e', he', hlike⟩ := hq.edge _ e edge
    obtain ⟨hi, -, -⟩ := hf.along i (by simp)
    have hs : g.Structural i := structural_of_pattern edge kind
    have hname : r name = name :=
      hr.hasName hg (x := .edge i.edge) ((hasName_edge_iff edge).2 named)
    have hfar := far.embed hq hg hb hr hengine (hg.isPlace_that hi hs) hm
    rw [Expr.renamed, hname] at hfar
    have hemits := Emits.namedEdge (i := q.incidence i) he' (hlike.kind.trans kind)
      (hlike.name.trans named) (by rw [hengine]; exact identity) hfar
    rw [hlike.type] at hemits
    simp only [Emission.renumbered, List.map_cons, Step.renamed, Expr.renamed, hname,
      hr.var _ (hg.isPlace_this hi hs)]
    exact hemits

-- ---------------------------------------------------------------------------
-- The walk
-- ---------------------------------------------------------------------------

/-- What a visit marks is part of the graph. -/
theorem Emits.has (hrooted : Rooted cx g₀ g) {x : Entry} {em : Emission}
    (hf : Frontier g₀ g visited binds (x :: rest)) (hfresh : x.handle ∉ visited)
    (h : Emits cx g (x.handle :: visited) x em more) : ∀ y ∈ em.marks ++ [x.handle], g.Has y := by
  intro y hy
  cases y with
  | node n =>
    refine (hf.visit hrooted hfresh h).node n ?_
    rw [List.append_cons]
    exact List.mem_append_left _ hy
  | edge k =>
    obtain ⟨ps, hpasses, -⟩ := h.passes hrooted hf hfresh
    obtain ⟨p, hp, rfl⟩ := List.mem_map.1 ((hpasses.marked k).1 hy)
    exact ⟨p.edge, hpasses.edge p hp⟩

/-- The visit is one of the walk in the larger graph. -/
theorem Walks.embed (hq : Embeds q g b) {x : Entry} (hx : g.Has x.handle)
    (hfresh : q.handle x.handle ∉ visited') {em : Emission} {steps : List Step}
    {stack : List Entry}
    (h : Emits cx' b (q.handle x.handle :: visited') (x.renumbered q) em more)
    (hwalks : Walks cx' b (em.marks ++ q.handle x.handle :: visited') (em.entries ++ stack) steps) :
    Walks cx' b visited' (x.renumbered q :: stack) (em.steps ++ steps) := by
  cases x with
  | node n =>
    obtain ⟨nd, hnode⟩ := IsNode.exists_node hx
    obtain ⟨nd', hnode', -⟩ := hq.node n nd hx hnode
    exact .node hfresh hnode' (h.visitNode_eq hnode') hwalks
  | along i =>
    obtain ⟨e, he⟩ := hx
    obtain ⟨e', he', -⟩ := hq.edge i.edge e he
    exact .edge hfresh he' (h.visitIncidence_eq he') hwalks

/-- The walk in the larger graph takes the same course, and then goes on with what else is on the
stack. Only what belongs to the smaller graph is visited meanwhile. -/
theorem Explores.embed (hq : Embeds q g b) (hrooted : Rooted cx g₀ g) (hb : b.Consistent)
    (hr : Calls r q g b) (hengine : cx'.engine = cx.engine) {stack : List Entry}
    {steps : List Step} {last lastBinds : List Handle}
    (h : Explores cx g₀ g visited binds stack steps last lastBinds)
    (hanchor : .node g.anchor ∈ visited) (hvisited : ∀ y ∈ visited, g.Has y)
    (hm : Echoes q g visited visited') {others : List Entry} {otherSteps : List Step}
    (hothers : ∀ seen, (∀ y ∈ visited', y ∈ seen) →
      (∀ y ∈ seen, y ∈ visited' ∨ ∃ z, g.Has z ∧ z ≠ .node g.anchor ∧ y = q.handle z) →
      Walks cx' b seen others otherSteps) :
    Walks cx' b visited' (stack.map (Entry.renumbered q) ++ others)
      (steps.map (Step.renamed r) ++ otherSteps) := by
  induction h generalizing visited' with
  | done => exact hothers visited' (fun y hy => hy) fun y hy => .inl hy
  | @skip visited binds _ _ x stack steps seen _ ih =>
    have hseen : (x.renumbered q).handle ∈ visited' := by
      rw [Entry.renumbered_handle]
      exact (hm _ (hvisited _ seen)).2 seen
    have hrest := ih hanchor hvisited hm hothers
    cases x with
    | node n => exact .seenNode hseen hrest
    | along i => exact .seenEdge hseen hrest
  | @visit visited binds _ _ own x em stack steps frontier fresh emits _ ih =>
    have hmarks := emits.has hrooted frontier fresh
    have hx : g.Has x.handle := hmarks _ (by simp)
    have hnew : ∀ y ∈ em.marks, g.Has y := fun y hy => hmarks y (List.mem_append_left _ hy)
    have hne : x ≠ .node g.anchor := by
      rintro rfl
      exact fresh hanchor
    have hcons : Echoes q g (x.handle :: visited) (q.handle x.handle :: visited') := hm.cons hq hx
    have hemits : Emits cx' b _ _ _ _ := emits.embed hq hrooted hb hr hengine hne frontier hcons
    have hafter := hcons.append hq hnew
    have hrest := ih (List.mem_append_right _ (List.mem_cons_of_mem _ hanchor))
      (fun y hy => ?_) hafter fun seen hsub hseen => ?_
    · rw [List.map_append, List.append_assoc] at hrest
      rw [List.map_cons, List.cons_append, List.map_append, List.append_assoc]
      exact Walks.embed hq hx (fun hv => fresh ((hm _ hx).1 hv)) hemits hrest
    · rcases List.mem_append.1 hy with hy | hy
      · exact hnew y hy
      · rcases List.mem_cons.1 hy with rfl | hy
        · exact hx
        · exact hvisited y hy
    · refine hothers seen (fun y hy => hsub y ?_) fun y hy => ?_
      · exact List.mem_append_right _ (List.mem_cons_of_mem _ hy)
      -- what is new was visited in the smaller graph, and the anchor is not new
      have hown : ∀ {z}, g.Has z → y = q.handle z →
          y ∈ visited' ∨ ∃ z, g.Has z ∧ z ≠ .node g.anchor ∧ y = q.handle z := by
        intro z hz heq
        by_cases hza : z = .node g.anchor
        · rw [heq, hza]
          exact .inl ((hm _ (hvisited _ hanchor)).2 hanchor)
        · exact .inr ⟨z, hz, hza, heq⟩
      rcases hseen y hy with hy | hy
      · rcases List.mem_append.1 hy with hy | hy
        · obtain ⟨z, hz, rfl⟩ := List.mem_map.1 hy
          exact hown (hnew z hz) rfl
        · rcases List.mem_cons.1 hy with rfl | hy
          · exact hown hx rfl
          · exact .inl hy
      · exact .inr hy

end Plan

end GraphPattern
