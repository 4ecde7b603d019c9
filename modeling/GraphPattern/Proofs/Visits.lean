import GraphPattern.Proofs.Exhaustive
import GraphPattern.Proofs.ChainTrails

/-!
# GraphPattern — the visits of the walk

The walk as a list of visits. Each visit finds something that was not visited before, and what it
finds was not found by an earlier one, so the visits can be told apart by what they meet. What holds of
the state of the walk at first, and is kept by every visit, holds whenever something is visited.

## Results

* `Plan.Tour.invariant` — what every visit keeps holds at every visit.
* `Plan.Tour.met_before`, `Plan.Tour.bound_before` — what is visited or bound is met or bound by an
  earlier visit.
* `Plan.Tour.queued` — the edges to constraints come first among the edges of a node.
* `Plan.Emits.exists_tracks` — every visit follows one trail at most, which passes the unnamed nodes
  that the visit meets and does not bind.
-/

namespace GraphPattern

open PatternGraph

namespace Plan

-- ---------------------------------------------------------------------------
-- Visits
-- ---------------------------------------------------------------------------

/-- A visit of the walk: what was visited and bound before it, what it looks at, what it emits, and
what it binds. -/
structure Visit where
  visited : List Handle
  binds : List Handle
  entry : Entry
  emission : Emission
  own : List Handle

namespace Visit

variable (u : Visit)

/-- What was visited once the visit is over. -/
def after : List Handle :=
  u.emission.marks ++ u.entry.handle :: u.visited

/-- The visit is the first one to see this. -/
def Meets (h : Handle) : Prop :=
  h ∉ u.visited ∧ h ∈ u.after

/-- The walk makes this visit, with some entries left on the stack. -/
structure Made (cx : Context) (g₀ g : PatternGraph) (rest : List Entry) : Prop where
  frontier : Frontier g₀ g u.visited u.binds (u.entry :: rest)
  fresh : u.entry.handle ∉ u.visited
  emits : Emits cx g (u.entry.handle :: u.visited) u.entry u.emission u.own

variable {u} {cx : Context} {g₀ g : PatternGraph} {rest : List Entry} {k : Handle}

theorem mem_after : k ∈ u.after ↔ k ∈ u.emission.marks ∨ k = u.entry.handle ∨ k ∈ u.visited := by
  unfold after
  rw [List.mem_append, List.mem_cons]

theorem visited_subset_after : u.visited ⊆ u.after :=
  fun _ hk => mem_after.2 (.inr (.inr hk))

end Visit

/-- The visits of a course, from what is visited, bound and on the stack to what is visited in the
end. -/
inductive Tour (cx : Context) (g₀ g : PatternGraph) :
    List Handle → List Handle → List Entry → List Visit → List Handle → Prop
  | done {visited binds : List Handle} : Tour cx g₀ g visited binds [] [] visited
  | skip {visited binds final : List Handle} {x : Entry} {rest : List Entry} {us : List Visit}
      (seen : x.handle ∈ visited) (more : Tour cx g₀ g visited binds rest us final) :
      Tour cx g₀ g visited binds (x :: rest) us final
  | visit {u : Visit} {rest : List Entry} {us : List Visit} {final : List Handle}
      (made : u.Made cx g₀ g rest)
      (more : Tour cx g₀ g u.after (u.own ++ u.binds) (u.emission.entries ++ rest) us final) :
      Tour cx g₀ g u.visited u.binds (u.entry :: rest) (u :: us) final

variable {cx : Context} {g₀ g : PatternGraph} {visited binds final : List Handle}
  {stack rest : List Entry} {us : List Visit} {k : Handle}

/-- Every course is one of some visits, whose steps it emits. -/
theorem Explores.tour {steps : List Step} {final' : List Handle}
    (h : Explores cx g₀ g visited binds stack steps final final') :
    ∃ us, Tour cx g₀ g visited binds stack us final ∧
      steps = us.flatMap fun u => u.emission.steps := by
  induction h with
  | done => exact ⟨[], .done, rfl⟩
  | skip seen _ ih =>
    obtain ⟨us, htour, hsteps⟩ := ih
    exact ⟨us, .skip seen htour, hsteps⟩
  | @visit visited binds visited' binds' own x em rest steps frontier fresh emits _ ih =>
    obtain ⟨us, htour, hsteps⟩ := ih
    have hmade : (⟨visited, binds, x, em, own⟩ : Visit).Made cx g₀ g rest :=
      ⟨frontier, fresh, emits⟩
    exact ⟨_, .visit hmade htour, by rw [List.flatMap_cons, hsteps]⟩

namespace Tour

/-- What holds at first, and is kept by every visit and every entry that is dropped, holds at every
visit. -/
theorem invariant {P : List Handle → List Entry → Prop}
    (hskip : ∀ {visited x rest}, x.handle ∈ visited → P visited (x :: rest) → P visited rest)
    (hvisit : ∀ {u : Visit} {rest}, u.Made cx g₀ g rest → P u.visited (u.entry :: rest) →
      P u.after (u.emission.entries ++ rest))
    (h : Tour cx g₀ g visited binds stack us final) (h₀ : P visited stack) :
    ∀ u ∈ us, ∃ rest, u.Made cx g₀ g rest ∧ P u.visited (u.entry :: rest) := by
  induction h with
  | done => exact fun u hu => nomatch hu
  | skip seen _ ih => exact ih (hskip seen h₀)
  | @visit u rest us final made _ ih =>
    intro w hw
    rcases List.mem_cons.1 hw with rfl | hw
    · exact ⟨rest, made, h₀⟩
    · exact ih (hvisit made h₀) w hw

theorem made (h : Tour cx g₀ g visited binds stack us final) {u : Visit} (hu : u ∈ us) :
    ∃ rest, u.Made cx g₀ g rest := by
  have hall := h.invariant (P := fun _ _ => True) (fun _ _ => trivial) (fun _ _ => trivial) trivial
  obtain ⟨rest, hmade, -⟩ := hall u hu
  exact ⟨rest, hmade⟩

/-- What was visited stays visited. -/
theorem subset (h : Tour cx g₀ g visited binds stack us final) :
    ∀ u ∈ us, visited ⊆ u.visited := by
  induction h with
  | done => exact fun u hu => nomatch hu
  | skip seen _ ih => exact ih
  | @visit u rest us final made _ ih =>
    intro w hw
    rcases List.mem_cons.1 hw with rfl | hw
    · exact List.Subset.refl _
    · exact List.Subset.trans Visit.visited_subset_after (ih w hw)

/-- Later visits find what was visited by earlier ones. -/
theorem pairwise (h : Tour cx g₀ g visited binds stack us final) :
    us.Pairwise fun u w => u.after ⊆ w.visited := by
  induction h with
  | done => exact .nil
  | skip seen _ ih => exact ih
  | visit made more ih => exact .cons more.subset ih

/-- What is visited in the end was met by a visit. -/
theorem exists_meets (h : Tour cx g₀ g visited binds stack us final) (hk : k ∈ final) :
    k ∈ visited ∨ ∃ u ∈ us, u.Meets k := by
  induction h with
  | done => exact .inl hk
  | skip seen _ ih => exact ih hk
  | @visit u rest us final made _ ih =>
    rcases ih hk with hafter | ⟨w, hw, hmeets⟩
    · by_cases hv : k ∈ u.visited
      · exact .inl hv
      · exact .inr ⟨u, by simp, hv, hafter⟩
    · exact .inr ⟨w, List.mem_cons_of_mem _ hw, hmeets⟩

/-- What was visited before a visit was met by an earlier one. -/
theorem met_before (h : Tour cx g₀ g visited binds stack us final) {a b : List Visit} {u : Visit}
    (hsplit : us = a ++ u :: b) (hk : k ∈ u.visited) : k ∈ visited ∨ ∃ w ∈ a, w.Meets k := by
  induction h generalizing a with
  | done => simp at hsplit
  | skip seen _ ih => exact ih hsplit
  | @visit v rest us final made _ ih =>
    rcases List.cons_eq_append_iff.1 hsplit with ⟨rfl, hcons⟩ | ⟨a', rfl, hcons⟩
    · obtain ⟨rfl, -⟩ := List.cons.inj hcons
      exact .inl hk
    · rcases ih hcons with hafter | ⟨w, hw, hmeets⟩
      · by_cases hv : k ∈ v.visited
        · exact .inl hv
        · exact .inr ⟨v, by simp, hv, hafter⟩
      · exact .inr ⟨w, List.mem_cons_of_mem _ hw, hmeets⟩

/-- What is bound at a visit was bound by an earlier one. -/
theorem bound_before (h : Tour cx g₀ g visited binds stack us final) {a b : List Visit} {u : Visit}
    (hsplit : us = a ++ u :: b) (hk : k ∈ u.binds) : k ∈ binds ∨ ∃ w ∈ a, k ∈ w.own := by
  induction h generalizing a with
  | done => simp at hsplit
  | skip seen _ ih => exact ih hsplit
  | @visit v rest us final made _ ih =>
    rcases List.cons_eq_append_iff.1 hsplit with ⟨rfl, hcons⟩ | ⟨a', rfl, hcons⟩
    · obtain ⟨rfl, -⟩ := List.cons.inj hcons
      exact .inl hk
    · rcases ih hcons with hmem | ⟨w, hw, hown⟩
      · rcases List.mem_append.1 hmem with hown | hold
        · exact .inr ⟨v, by simp, hown⟩
        · exact .inl hold
      · exact .inr ⟨w, List.mem_cons_of_mem _ hw, hown⟩

end Tour

-- ---------------------------------------------------------------------------
-- The order of the edges to constraints
-- ---------------------------------------------------------------------------

/-- Where an edge is about to be followed, the edges to constraints that come before it at the same
node are followed first, unless they were visited. -/
def Queued (g : PatternGraph) (visited : List Handle) (l : List Entry) : Prop :=
  ∀ i j, g.Incident i → g.Precedes i → i.this = j.this → Before i j →
    Handle.edge i.edge ∉ visited →
    ∀ front back, l = front ++ .along j :: back → .along i ∈ front

namespace Queued

theorem append {a b : List Entry} (ha : Queued g visited a) (hb : Queued g visited b) :
    Queued g visited (a ++ b) := by
  intro i j hi hp hthis hbefore hnew front back hsplit
  rcases List.append_eq_append_iff.1 hsplit with ⟨m, rfl, hm⟩ | ⟨m, rfl, hm⟩
  · exact List.mem_append_right _ (hb i j hi hp hthis hbefore hnew m back hm)
  · rcases List.cons_eq_append_iff.1 hm with ⟨rfl, hcons⟩ | ⟨m', rfl, -⟩
    · have hin := hb i j hi hp hthis hbefore hnew [] back (by rw [← hcons]; rfl)
      exact nomatch hin
    · exact ha i j hi hp hthis hbefore hnew front m' rfl

/-- In a list in order, what comes before something else stands in front of it. -/
theorem mem_front {l front back : List Incidence} {i j : Incidence} (hl : l.Pairwise Before)
    (hi : i ∈ l) (hbefore : Before i j) (hsplit : l = front ++ j :: back) : i ∈ front := by
  subst hsplit
  rcases List.mem_append.1 hi with hi | hi
  · exact hi
  · exfalso
    rcases List.mem_cons.1 hi with rfl | hi
    · exact not_before_of_before hbefore hbefore
    · have hsorted := (List.pairwise_append.1 hl).2.1
      exact not_before_of_before hbefore ((List.pairwise_cons.1 hsorted).1 i hi)

/-- What is left at a node is listed in order. -/
theorem pendingEntries (hg : g.Consistent) {n : NodeId} (hn : g.IsNode n) {es : List Entry}
    (hes : Plan.pendingEntries g n visited = .ok es) : Queued g visited es := by
  intro i j hi _ hthis hbefore hnew front back hsplit
  obtain ⟨l, hl, -⟩ := hg.incidencesOf_ok hn
  have hjn : j.this = n := by
    obtain ⟨j', heq, -, hjthis, -⟩ :=
      (mem_pendingEntries hg hn hes (x := .along j)).1 (by rw [hsplit]; simp)
    rw [Entry.along.inj heq, hjthis]
  have hmem := (mem_pendingEntries hg hn hes).2 ⟨i, rfl, hi, hthis.trans hjn, hnew⟩
  unfold Plan.pendingEntries at hes
  rw [hl] at hes
  obtain rfl := Except.ok.inj hes
  have hsorted := (hg.incidencesOf_pairwise hn hl).filter
    fun i => decide (Handle.edge i.edge ∉ visited)
  obtain ⟨front', rest, hsplit', rfl, hrest⟩ := List.map_eq_append_iff.1 hsplit
  obtain ⟨j', back', rfl, hj, -⟩ := List.map_eq_cons_iff.1 hrest
  obtain rfl := Entry.along.inj hj
  obtain ⟨i', hi', heq⟩ := List.mem_map.1 hmem
  obtain rfl := Entry.along.inj heq
  exact List.mem_map_of_mem (mem_front hsorted hi' hbefore hsplit')

/-- Along a chain, the edges to constraints are collected in order at every node. -/
theorem constraints (hg : g.Consistent) {n : NodeId} {c : Chain} (hn : g.IsNode n)
    (h : Chain.Walks cx g n visited c) : Queued g visited (c.constraints.map .along) := by
  have hown : ∀ {n visited left}, g.IsNode n → Chain.pending g n (.node n :: visited) = .ok left →
      Queued g visited (((left.filter (·.2.kind = .precedes)).map (·.1)).map Entry.along) := by
    intro n visited left hn hleft i j hi hp hthis hbefore hnew front back hsplit
    obtain ⟨front', rest, hsplit', rfl, hrest⟩ := List.map_eq_append_iff.1 hsplit
    obtain ⟨j', back', rfl, hj, -⟩ := List.map_eq_cons_iff.1 hrest
    obtain rfl := Entry.along.inj hj
    have hjmem : j' ∈ (left.filter (·.2.kind = .precedes)).map (·.1) := by rw [hsplit']; simp
    obtain ⟨-, hjn, -, -⟩ := (Chain.mem_constraints hg hn hleft).1 hjmem
    have hmem := (Chain.mem_constraints hg hn hleft).2
      ⟨hi, hthis.trans hjn, by simpa using hnew, hp⟩
    refine List.mem_map_of_mem (mem_front ?_ hmem hbefore hsplit')
    exact ((Chain.pending_pairwise hg hn hleft).filter _).map _ fun _ _ h => h
  induction h with
  | stop => exact fun _ _ _ _ _ _ _ _ _ hsplit => by simp at hsplit
  | last node fresh pending closed => exact hown hn pending
  | openEnd node fresh pending only named => exact hown hn pending
  | @step n nd visited left i e segment rest node fresh pending only anonymous _ _ ih =>
    obtain ⟨hi, -, -, -, hs⟩ := Chain.incident_of_only hg hn pending only
    have hrest := ih (hg.isNode_that hi)
    rw [List.map_append]
    refine (hown hn pending).append fun x y hx hp hthis hbefore hnew front back hsplit => ?_
    -- an edge to a constraint is not the edge that the chain follows
    refine hrest x y hx hp hthis hbefore ?_ front back hsplit
    simp only [List.mem_cons, Handle.edge.injEq, reduceCtorEq, false_or, not_or]
    exact ⟨hp.edge_ne hs, hnew⟩

/-- What is dropped was visited. -/
theorem skip {x : Entry} (h : Queued g visited (x :: rest)) (hx : x.handle ∈ visited) :
    Queued g visited rest := by
  intro i j hi hp hthis hbefore hnew front back hsplit
  have hin := h i j hi hp hthis hbefore hnew (x :: front) back (by rw [hsplit]; rfl)
  rcases List.mem_cons.1 hin with rfl | hin
  · exact absurd hx hnew
  · exact hin

theorem mono {more : List Handle} {l : List Entry} (h : Queued g visited l)
    (hsub : visited ⊆ more) : Queued g more l :=
  fun i j hi hp hthis hbefore hnew => h i j hi hp hthis hbefore fun hv => hnew (hsub hv)

/-- When an edge is followed, the edges to constraints before it were visited. -/
theorem mem_visited {i j : Incidence} (h : Queued g visited (.along j :: rest)) (hi : g.Incident i)
    (hp : g.Precedes i) (hthis : i.this = j.this) (hbefore : Before i j) :
    .edge i.edge ∈ visited := by
  refine Classical.byContradiction fun hnew => ?_
  exact nomatch h i j hi hp hthis hbefore hnew [] rest rfl

end Queued

theorem ChainEmits.queued (hg : g.Consistent) {n : NodeId} {seen : List Handle} {c c' : Chain}
    {start : Expr} {em : Emission} {bs : List Handle} (hn : g.IsNode n)
    (h : ChainEmits g start c' visited em bs) (hwalks : Chain.Walks cx g n seen c)
    (hterminal : g.IsNode c.terminal)
    (hsame : c'.terminal = c.terminal ∧ c'.constraints = c.constraints)
    (hseen : seen ⊆ em.marks ++ visited) :
    Queued g (em.marks ++ visited) em.entries := by
  obtain ⟨hmarks, es, hes, hentries⟩ := Frontier.ChainEmits.parts h
  rw [hsame.1] at hes
  rw [hentries, hsame.2]
  refine ((Queued.constraints hg hn hwalks).mono hseen).append ?_
  rw [hmarks]
  exact .pendingEntries hg hterminal hes

theorem FarEmits.queued (hr : Rooted cx g₀ g) {i : Incidence} {edge : Expr} {em : Emission}
    {bs : List Handle} (hthat : g.IsPlace i.that) (h : FarEmits cx g i edge visited em bs) :
    Queued g (em.marks ++ visited) em.entries := by
  have hg : g.Consistent := hr.regular.consistent
  cases h with
  | known node pending known => exact .pendingEntries hg hthat.1 pending
  | named node pending fresh named => exact .pendingEntries hg hthat.1 pending
  | chain node fresh anonymous walks emits =>
    exact emits.queued hg hthat.1 walks (isPlace_terminal hr hthat walks).1 ⟨rfl, rfl⟩
      (List.subset_append_right _ _)

/-- What is entered is a node. -/
theorem Frontier.isNode_of_mem (hr : Rooted cx g₀ g) (hf : Frontier g₀ g visited binds stack)
    {n : NodeId} (hn : .node n ∈ stack) : g.IsNode n := by
  rcases hf.enter n hn with rfl | hs
  · exact isNode_anchor hr.regular.consistent.inhabited
  · exact hr.anchors.extended.isNode hs.isNode

theorem Frontier.isPlace_that (hr : Rooted cx g₀ g)
    (hf : Frontier g₀ g visited binds stack) {i : Incidence} (hi : .along i ∈ stack)
    (hs : g.Structural i) : g.IsPlace i.that :=
  hr.regular.isPlace_that (hf.along i hi).1 hs

/-- Among what a visit leaves on the stack, the edges to constraints come first. -/
theorem Emits.queued (hr : Rooted cx g₀ g) {x : Entry} {em : Emission} {own : List Handle}
    (hf : Frontier g₀ g visited binds (x :: rest)) (h : Emits cx g (x.handle :: visited) x em own) :
    Queued g (em.marks ++ x.handle :: visited) em.entries := by
  have hg : g.Consistent := hr.regular.consistent
  have hstructural : ∀ {i e}, g.edge? i.edge = some e → e.kind = .pattern ∨ e.kind = .argument →
      g.Structural i := by
    rintro i e he (hk | hk) <;> exact ⟨e, he, by rw [hk]; rfl⟩
  -- what is queued is what is pending at a node, or what the chain took along, both in order
  cases h with
  | anchor node kind pending | place node kind pending | argument node kind named pending =>
    exact .pendingEntries hg (hf.isNode_of_mem hr (by simp)) pending
  -- a start has no incidence queued yet
  | start edge kind =>
    intro _ _ _ _ _ _ _ front back hsplit
    rcases List.cons_eq_append_iff.1 hsplit with ⟨rfl, hcons⟩ | ⟨front', rfl, hcons⟩
    · exact nomatch hcons
    · simp at hcons
  | constraints edge kind splices => exact fun _ _ _ _ _ _ _ _ _ hsplit => by simp at hsplit
  | @chain i e segment c em bs edge kind anonymous segment_ok walks emits =>
    have hthat := hf.isPlace_that hr (by simp) (hstructural edge (.inl kind))
    refine emits.queued hg hthat.1 walks (isPlace_terminal hr hthat walks).1 ⟨rfl, rfl⟩ ?_
    rw [(Frontier.ChainEmits.parts emits).1]
    intro k hk
    simp only [Entry.handle, List.mem_append, List.mem_cons] at hk ⊢
    tauto
  | argumentEdge edge kind named far =>
    have hfar := far.queued hr (hf.isPlace_that hr (by simp) (hstructural edge (.inr kind)))
    exact hfar
  | namedEdge edge kind named identity far =>
    have hfar := far.queued hr (hf.isPlace_that hr (by simp) (hstructural edge (.inl kind)))
    exact hfar

/-- Whenever an edge is followed, the edges to constraints before it at the same node were
visited. -/
theorem Tour.queued (hr : Rooted cx g₀ g) (h : Tour cx g₀ g visited binds stack us final)
    (h₀ : Queued g visited stack) :
    ∀ u ∈ us, ∀ i j, u.entry = .along j → g.Incident i → g.Precedes i → i.this = j.this →
      Before i j → .edge i.edge ∈ u.visited := by
  intro u hu i j hentry hi hp hthis hbefore
  have hall := h.invariant (P := Queued g) (fun hx hq => hq.skip hx) ?_ h₀
  · obtain ⟨rest, -, hqueued⟩ := hall u hu
    rw [hentry] at hqueued
    exact hqueued.mem_visited hi hp hthis hbefore
  · intro w rest hmade hqueued
    refine Queued.append (hmade.emits.queued hr hmade.frontier) ?_
    exact (hqueued.mono Visit.visited_subset_after).skip (Visit.mem_after.2 (.inr (.inl rfl)))

-- ---------------------------------------------------------------------------
-- The trail of a visit
-- ---------------------------------------------------------------------------

end Plan

/-- What a trail leads to: its first edge is followed from its near end, or is bound itself if it has
a name. -/
def PatternGraph.reach? (g : PatternGraph) : List Incidence → Option Expr
  | [] => none
  | i :: links =>
    let onward := g.testAt i.that ++ links.flatMap fun j => g.segmentOf j :: g.testAt j.that
    match (g.edge? i.edge).bind (·.name?) with
    | none => some (.reachable (.var (Plan.varOf g i.this)) (g.segmentOf i :: onward))
    | some name => some (.reachable (.edgeEnd (.var name) i.direction true) onward)

/-- What a step looks for, if it is what a path leads to. -/
def Step.reach? : Step → Option Expr
  | .generate _ (.reachable e p) | .guard (.member _ (.reachable e p))
  | .guard (.nonEmpty (.reachable e p)) => some (.reachable e p)
  | _ => none

namespace Plan

/-- What a visit, with what was visited before it, does along a trail. -/
structure Tracks (g : PatternGraph) (visited : List Handle) (x : Entry) (em : Emission)
    (trail : List Incidence) : Prop where
  connected : ∀ i ∈ trail.head?, g.IsTrail i.this trail
  reach : (expandAll em.steps).filterMap Step.reach? = (g.reach? trail).toList
  once : (trail.map (·.edge)).Nodup
  new : ∀ i ∈ trail, Handle.edge i.edge ∉ visited ∧ .edge i.edge ∈ em.marks ++ [x.handle]
  /-- An unnamed node is passed on the trail, or bound to candidates. -/
  passed : ∀ n, g.IsPlace n → g.Unnamed (.node n) → Handle.node n ∉ visited →
    .node n ∈ em.marks ++ [x.handle] →
    n ∈ trail.map (·.that) ∨ ∃ e, .generate (varOf g n) e ∈ em.steps

theorem ChainEmits.reach {start : Expr} {c : Chain} {em : Emission} {bs : List Handle}
    (h : ChainEmits g start c visited em bs) :
    (expandAll em.steps).filterMap Step.reach? = [.reachable start c.path] := by
  cases h <;> rfl

/-- A visit that follows no path. -/
theorem Tracks.none {x : Entry} {em : Emission}
    (hreach : (expandAll em.steps).filterMap Step.reach? = [])
    (hmet : ∀ n, g.IsPlace n → g.Unnamed (.node n) → Handle.node n ∉ visited →
      .node n ∈ em.marks ++ [x.handle] → ∃ e, .generate (varOf g n) e ∈ em.steps) :
    Tracks g visited x em [] where
  connected := by simp
  reach := hreach
  once := .nil
  new := by simp
  passed := fun n hp hu hv hin => .inr (hmet n hp hu hv hin)

/-- A visit that follows an edge and a chain behind it. -/
theorem Tracks.chain {i : Incidence} {links : List Incidence} {c : Chain} {em : Emission}
    {seen : List Handle} (hi : g.Incident i) (hnew : Handle.edge i.edge ∉ visited)
    (hlinks : Chain.Follows g seen i.that [] links c)
    (hseen : ∀ k, k ∈ seen ↔ k = .edge i.edge ∨ k ∈ visited)
    (hmarks : ∀ k, k ∈ em.marks ++ [.edge i.edge] ↔ k = .edge i.edge ∨ k ∈ c.elements)
    (hreach : (expandAll em.steps).filterMap Step.reach? = (g.reach? (i :: links)).toList) :
    Tracks g visited (.along i) em (i :: links) where
  connected := by
    rintro j ⟨⟩
    exact ⟨hi, rfl, hlinks.trail⟩
  reach := hreach
  -- once: the edge itself was seen when the chain began
  once := by
    rw [List.map_cons, List.nodup_cons]
    refine ⟨fun hin => ?_, by simpa using hlinks.once⟩
    obtain ⟨j, hj, heq⟩ := List.mem_map.1 hin
    exact (hlinks.followed j hj).2.2 ((hseen _).2 (.inl (by rw [heq])))
  -- new
  new := by
    intro j hj
    rw [Entry.handle, hmarks]
    rcases List.mem_cons.1 hj with rfl | hj
    · exact ⟨hnew, .inl rfl⟩
    · refine ⟨fun hv => (hlinks.followed j hj).2.2 ((hseen _).2 (.inr hv)), .inr ?_⟩
      rw [hlinks.elements]
      exact List.mem_append_right _ (List.mem_cons_of_mem _ (List.mem_flatMap.2 ⟨j, hj, by simp⟩))
  -- passed: a node of the chain is where one of the links, or the edge itself, leads
  passed := by
    intro n _ _ _ hin
    rw [Entry.handle, hmarks, hlinks.elements] at hin
    left
    simp only [reduceCtorEq, false_or, List.map_nil, List.nil_append, List.mem_cons,
      Handle.node.injEq, List.mem_flatMap, List.not_mem_nil, or_false] at hin
    rcases hin with rfl | ⟨j, hj, rfl⟩
    · simp
    · simp only [List.map_cons, List.mem_cons, List.mem_map]
      exact .inr ⟨j, hj, rfl⟩

/-- A step in front that follows no path. -/
theorem Tracks.cons {x : Entry} {em : Emission} {trail : List Incidence} {s : Step}
    (h : Tracks g visited x em trail) (hs : s.expanded.filterMap Step.reach? = []) :
    Tracks g visited x { em with steps := s :: em.steps } trail where
  connected := h.connected
  reach := by
    rw [expandAll, List.flatMap_cons, List.filterMap_append, hs, List.nil_append]
    exact h.reach
  once := h.once
  new := h.new
  passed := fun n hn hu hv hin => (h.passed n hn hu hv hin).imp id
    fun ⟨e, he⟩ => ⟨e, List.mem_cons_of_mem _ he⟩

theorem reach?_constraintStep (c : Constraint) :
    (constraintStep c).expanded.filterMap Step.reach? = [] := by
  cases c with
  | when f | whilst f => rfl
  | bind bs =>
    induction bs with
    | nil => rfl
    | cons b bs ih => exact ih

theorem reach?_typeTest (name : String) (type? : Option String) :
    (expandAll (typeTest name type?)).filterMap Step.reach? = [] := by
  unfold typeTest
  split
  · split <;> rfl
  · rfl

/-- An unnamed node of the model is no argument. -/
theorem unnamed_kind_ne (hr : Rooted cx g₀ g) {n : NodeId} {nd : PatternNode} (hn : g.IsPlace n)
    (hu : g.Unnamed (.node n)) (hnode : g.node? n = some nd) : nd.kind ≠ .argument :=
  fun hk => hr.regular.not_unnamed_of_isArgument (hn.isArgument hnode hk) hu

/-- The far end of an edge that is bound is looked at, or a chain is followed from there. -/
theorem FarEmits.exists_tracks (hr : Rooted cx g₀ g) {i : Incidence} {name : String}
    {em : Emission} {bs : List Handle} (hi : g.Incident i) (hthat : g.IsPlace i.that)
    (hname : (g.edge? i.edge).bind (·.name?) = some name) (hnew : Handle.edge i.edge ∉ visited)
    (h : FarEmits cx g i (.var name) (.edge i.edge :: visited) em bs) :
    ∃ trail, Tracks g visited (.along i) em trail := by
  have hself : ∀ {n}, Handle.node n ∈ [Handle.node i.that] ++ [Handle.edge i.edge] → n = i.that := by
    intro n hin
    simpa using hin
  -- a known far end passes no new node without a name, and one with a name is none
  cases h with
  | @known nd es node pending known =>
    refine ⟨[], .none rfl fun n hn hu hv hin => ?_⟩
    exfalso
    obtain rfl := hself hin
    rcases known with hin | hk
    · exact hv (by simpa using hin)
    · exact unnamed_kind_ne hr hn hu node hk
  | @named nd es own node pending fresh named =>
    refine ⟨[], .none ?_ fun n hn hu hv hin => ?_⟩
    · show (expandAll (typeTest own nd.typeName?)).filterMap Step.reach? = []
      exact reach?_typeTest own nd.typeName?
    · exfalso
      obtain rfl := hself hin
      rw [unnamed_node_iff hn.1 node, PatternNode.anonymous, named] at hu
      cases hu
  | @chain nd c em bs node fresh anonymous walks emits =>
    obtain ⟨links, hlinks⟩ := walks.exists_follows hr.regular.consistent hthat.1
    refine ⟨i :: links, .chain hi hnew hlinks (by simp) (fun k => ?_) ?_⟩
    · rw [(Frontier.ChainEmits.parts emits).1, List.mem_append, List.mem_singleton, or_comm]
    · rw [emits.reach, reach?, hname, hlinks.path]
      rfl

/-- Every visit follows one trail at most. -/
theorem Emits.exists_tracks (hr : Rooted cx g₀ g) {x : Entry} {em : Emission} {own : List Handle}
    (hf : Frontier g₀ g visited binds (x :: rest)) (hfresh : x.handle ∉ visited)
    (h : Emits cx g (x.handle :: visited) x em own) : ∃ trail, Tracks g visited x em trail := by
  have hself : ∀ {n m}, Handle.node n ∈ [] ++ [Handle.node m] → n = m := by
    intro n m hin
    simpa using hin
  -- what each kind of visit follows; only a chain follows more than one edge
  cases h with
  | @anchor n nd es node kind pending =>
    refine ⟨[], .none rfl fun m hm _ _ hin => ?_⟩
    exfalso
    obtain rfl := hself hin
    obtain ⟨-, nd', hnode, hk⟩ := hm
    rw [node] at hnode
    obtain rfl := Option.some.inj hnode
    rcases kind with h | h <;> rcases hk with h' | h' <;> exact nomatch h.symm.trans h'
  | @place n nd es node kind pending =>
    refine ⟨[], .none rfl fun m _ _ _ hin => ?_⟩
    obtain rfl := hself hin
    exact ⟨_, List.mem_singleton.2 rfl⟩
  | @argument n nd name es node kind named pending =>
    refine ⟨[], .none rfl fun m hm hu _ hin => ?_⟩
    obtain rfl := hself hin
    exact absurd kind (unnamed_kind_ne hr hm hu node)
  | start edge kind => exact ⟨[], .none rfl fun m _ _ _ hin => by simp [Entry.handle] at hin⟩
  | @constraints i e steps marks edge kind splices =>
    have hspliced := (hf.followConstraints hr ⟨e, edge, kind⟩ splices).2
    refine ⟨[], .none ?_ fun m hm _ _ hin => ?_⟩
    · obtain ⟨cs, rfl, -⟩ := splices.constraints
      rw [expandAll, List.flatMap_map, List.filterMap_flatMap]
      exact List.flatMap_eq_nil_iff.2 fun c _ => reach?_constraintStep c
    · have hcon := (hspliced.node m (by simpa [Entry.handle] using hin)).1
      exact absurd hm (Regular.not_isPlace_of_isConstraint hcon)
  | @chain i e segment c em bs edge kind anonymous segment_ok walks emits =>
    obtain ⟨hi, -⟩ := hf.along i (by simp)
    have hthat := hf.isPlace_that hr (i := i) (by simp) (structural_of_pattern edge kind)
    obtain ⟨links, hlinks⟩ := walks.exists_follows hr.regular.consistent hthat.1
    refine ⟨i :: links, .chain hi hfresh hlinks (by simp [Entry.handle]) (fun k => ?_) ?_⟩
    · rw [(Frontier.ChainEmits.parts emits).1]
      simp only [List.mem_append, List.mem_cons, List.not_mem_nil, or_false]
      tauto
    · rw [emits.reach, reach?, edge, Option.bind_some, anonymous, hlinks.path]
      show _ = [Expr.reachable _ (g.segmentOf i :: _)]
      rw [(edgeSegment_ok segment_ok).1, segmentOf, edge]
      rfl
  | @argumentEdge i e name em bs edge kind named far =>
    obtain ⟨hi, -⟩ := hf.along i (by simp)
    have hthat := hf.isPlace_that hr (i := i) (by simp) (structural_of_argument edge kind)
    have hname : (g.edge? i.edge).bind (·.name?) = some name := by rw [edge]; exact named
    obtain ⟨trail, htrail⟩ := far.exists_tracks hr hi hthat hname hfresh
    exact ⟨trail, htrail.cons rfl⟩
  | @namedEdge i e name em bs edge kind named identity far =>
    obtain ⟨hi, -⟩ := hf.along i (by simp)
    have hthat := hf.isPlace_that hr (i := i) (by simp) (structural_of_pattern edge kind)
    have hname : (g.edge? i.edge).bind (·.name?) = some name := by rw [edge]; exact named
    obtain ⟨trail, htrail⟩ := far.exists_tracks hr hi hthat hname hfresh
    exact ⟨trail, htrail.cons rfl⟩

end Plan

end GraphPattern
