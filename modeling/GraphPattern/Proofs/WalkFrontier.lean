import GraphPattern.Proofs.Chains
import GraphPattern.Proofs.Emission

/-!
# GraphPattern — the frontier of the walk

Between what the walk has visited and what it has not there is a frontier: unvisited edges at
visited nodes. Each of them is on the stack, and the node it is seen from is known, that is, bound
by an earlier step or an argument. This is the invariant of the walk. Chains keep it although they
visit nodes without binding them, because nothing is left to follow at such nodes.

## Results

* `Plan.Frontier.advance` — what a visit has to make sure of, to keep the invariant.
* `Plan.Frontier.followFar`, `Plan.Frontier.followChain` — following an edge of the model keeps it.
-/

namespace GraphPattern

open PatternGraph

namespace PatternGraph

variable {cx : Context} {g g₀ : PatternGraph}

/-- An argument node or an argument edge. -/
def IsArgument (g : PatternGraph) : Handle → Prop
  | .node n => g.IsNode n ∧ ∃ nd, g.node? n = some nd ∧ nd.kind = .argument
  | .edge k => ∃ e, g.edge? k = some e ∧ e.kind = .argument

/-- What can be bound: a node of the model, or a named edge that is no argument. -/
def Bindable (g : PatternGraph) : Handle → Prop
  | .node n => g.IsPlace n
  | .edge k => ∃ e, g.edge? k = some e ∧ e.kind = .pattern ∧ e.name?.isSome

/-- Arguments have names, which are those of the arguments of the pattern. -/
theorem Regular.name_of_isArgument (hg : g.Regular cx) {h : Handle} (ha : g.IsArgument h) :
    ∃ name ∈ cx.arguments, g.HasName h name := by
  cases h with
  | node n =>
    obtain ⟨hn, nd, hnd, hkind⟩ := ha
    have hfits := hg.node n nd hn hnd
    rw [NodeFits, hkind] at hfits
    obtain ⟨-, name, hmem, hname⟩ := hfits
    exact ⟨name, hmem, hn, by rw [hnd]; exact hname⟩
  | edge k =>
    obtain ⟨e, he, hkind⟩ := ha
    have hfits := hg.edgeFits_of_edge? he
    rw [EdgeFits, hkind] at hfits
    obtain ⟨-, -, name, hmem, hname⟩ := hfits
    exact ⟨name, hmem, (hasName_edge_iff he).2 hname⟩

theorem Regular.not_unnamed_of_isArgument (hg : g.Regular cx) {h : Handle}
    (ha : g.IsArgument h) : ¬ g.Unnamed h := by
  obtain ⟨name, -, hname⟩ := hg.name_of_isArgument ha
  exact fun hu => hu name hname

/-- Edges of the model and edges to constraints were there before anchoring. -/
theorem Rooted.adjacent (hr : Rooted cx g₀ g) {i : Incidence} (hi : g.Incident i)
    (hs : g.Structural i ∨ g.Precedes i) : g₀.Adjacent i.this i.that := by
  obtain ⟨e, he, hseen⟩ := hi
  rcases hr.anchors.edge?_cases he with hold | ⟨n, -, rfl⟩
  · exact ⟨i, ⟨e, hold, hseen⟩, rfl, rfl⟩
  · exfalso
    rcases hs with ⟨e', he', hk⟩ | ⟨e', he', hk⟩ <;> rw [he] at he' <;> cases he' <;> cases hk

/-- Chains of an anchored graph consume what was there before anchoring. -/
theorem Rooted.consumed (hr : Rooted cx g₀ g) {n : NodeId} {seen : List Handle} {c : Chain}
    (h : Chain.Walks cx g n seen c) (hn : g.IsPlace n) : Chain.Consumed g₀ g n seen c :=
  h.consumed hr.regular (fun _ hi hs => hr.adjacent hi (.inl hs)) hn

/-- Every other edge leads from the anchor to a start. -/
theorem Rooted.incident_cases (hr : Rooted cx g₀ g) {i : Incidence} (hi : g.Incident i) :
    g.Structural i ∨ g.Precedes i ∨ ∃ n, g₀.IsStart n ∧ g.edge? i.edge = some (startEdge n) := by
  obtain ⟨e, he, -⟩ := hi
  rcases hr.anchors.edge?_cases he with hold | ⟨n, hn, rfl⟩
  · cases hk : e.kind with
    | pattern => exact .inl ⟨e, he, by rw [hk]; rfl⟩
    | argument => exact .inl ⟨e, he, by rw [hk]; rfl⟩
    | precedes => exact .inr (.inl ⟨e, he, hk⟩)
    | start => exact absurd hk (hr.unanchored e (List.mem_of_getElem? hold))
  · exact .inr (.inr ⟨n, hn, he⟩)

/-- From a place, the edge to a start is seen at the start. -/
theorem Rooted.this_eq_of_startEdge (hr : Rooted cx g₀ g) {j : Incidence} {n : NodeId}
    (hj : g.Incident j) (he : g.edge? j.edge = some (startEdge n)) (hp : g.IsPlace j.this) :
    j.this = n := by
  obtain ⟨e, he', hseen⟩ := hj
  rw [he] at he'
  cases he'
  cases hd : j.direction with
  | into => rw [hseen, hd]; rfl
  | out =>
    refine absurd hp ?_
    rw [hseen, hd]
    exact hr.regular.not_isPlace_anchor

theorem IsPlace.isArgument {n : NodeId} {nd : PatternNode} (hn : g.IsPlace n)
    (hnode : g.node? n = some nd) (hkind : nd.kind = .argument) : g.IsArgument (.node n) :=
  ⟨hn.1, nd, hnode, hkind⟩

end PatternGraph

namespace Plan

variable {cx : Context} {g g₀ : PatternGraph} {visited binds : List Handle} {rest : List Entry}

/-- Bound by an earlier step, or an argument. -/
def Known (g : PatternGraph) (binds : List Handle) (h : Handle) : Prop :=
  h ∈ binds ∨ g.IsArgument h

theorem Known.mono {more : List Handle} {h : Handle} (hk : Known g binds h) :
    Known g (more ++ binds) h :=
  hk.imp (List.mem_append_right _) id

/-- The values of what is named and of what components start at determine the value of this. -/
def Determined (g₀ g : PatternGraph) (h : Handle) : Prop :=
  ¬ g.Unnamed h ∨ (∃ n, h = .node n ∧ g₀.IsStart n) ∨
    ∃ i, h = .node i.this ∧ g.Incident i ∧ g.Structural i ∧ ¬ g.Unnamed (.edge i.edge)

/-- What an entry is about. -/
def Entry.handle : Entry → Handle
  | .node n => .node n
  | .along i => .edge i.edge

/-- The invariant of the walk. -/
structure Frontier (g₀ g : PatternGraph) (visited binds : List Handle) (stack : List Entry) :
    Prop where
  node : ∀ n, .node n ∈ visited → g.IsNode n
  root : .node g.anchor ∈ visited ∨ .node g.anchor ∈ stack
  along : ∀ i, .along i ∈ stack →
    g.Incident i ∧ .node i.this ∈ visited ∧ ¬ g.IsConstraint i.this
  enter : ∀ n, .node n ∈ stack → n = g.anchor ∨ g₀.IsStart n
  /-- Every unvisited edge at a visited node is on the stack. -/
  pending : ∀ i, g.Incident i → .node i.this ∈ visited → Handle.edge i.edge ∉ visited →
    .along i ∈ stack
  /-- Unvisited edges of the model are left at known nodes only. -/
  live : ∀ i, g.Incident i → .node i.this ∈ visited → Handle.edge i.edge ∉ visited →
    g.Structural i → Known g binds (.node i.this)
  ends : ∀ i, g.Incident i → .edge i.edge ∈ visited →
    .node i.this ∈ visited ∨ .node i.this ∈ stack
  bound : ∀ h ∈ binds, h ∈ visited ∧ g.Bindable h ∧ Determined g₀ g h
  named : ∀ h ∈ visited, ¬ g.Unnamed h → Known g binds h
  /-- A component is entered at its start. -/
  starts : ∀ n, .node n ∈ visited → ∀ s, g₀.IsStart s → g₀.Joined s n → Known g binds (.node s)

namespace Frontier

theorem start (g₀ g : PatternGraph) : Frontier g₀ g [] [] [.node g.anchor] where
  node := by intro n hn; cases hn
  root := .inr (by simp)
  along := by intro i hi; simp at hi
  enter := by intro n hn; exact .inl (by simpa using hn)
  pending := by intro i _ hi; cases hi
  live := by intro i _ hi; cases hi
  ends := by intro i _ hi; cases hi
  bound := by intro h hh; cases hh
  named := by intro h hh; cases hh
  starts := by intro n hn; cases hn

/-- Entries about something visited are dropped. -/
theorem skip {x : Entry} (hf : Frontier g₀ g visited binds (x :: rest))
    (hx : x.handle ∈ visited) : Frontier g₀ g visited binds rest where
  node := hf.node
  root := by
    rcases hf.root with h | h
    · exact .inl h
    · rcases List.mem_cons.1 h with rfl | h
      · exact .inl hx
      · exact .inr h
  along := fun i hi => hf.along i (List.mem_cons_of_mem _ hi)
  enter := fun n hn => hf.enter n (List.mem_cons_of_mem _ hn)
  pending := by
    intro i hi hthis hnew
    rcases List.mem_cons.1 (hf.pending i hi hthis hnew) with rfl | h
    · exact absurd hx hnew
    · exact h
  live := hf.live
  ends := by
    intro i hi hin
    rcases hf.ends i hi hin with h | h
    · exact .inl h
    · rcases List.mem_cons.1 h with rfl | h
      · exact .inl hx
      · exact .inr h
  bound := hf.bound
  named := hf.named
  starts := hf.starts

/-- What a visit has to make sure of, to keep the invariant. -/
theorem advance {x : Entry} (hf : Frontier g₀ g visited binds (x :: rest))
    (new more : List Handle) (es : List Entry) (hx : x.handle ∈ new)
    (hnode : ∀ n, .node n ∈ new → g.IsNode n)
    (halong : ∀ i, .along i ∈ es →
      g.Incident i ∧ .node i.this ∈ new ∧ ¬ g.IsConstraint i.this)
    (henter : ∀ n, .node n ∈ es → n = g.anchor ∨ g₀.IsStart n)
    (hpending : ∀ i, g.Incident i → .node i.this ∈ new → Handle.edge i.edge ∉ new →
      Handle.edge i.edge ∉ visited →
      .along i ∈ es ∧ (g.Structural i → Known g (more ++ binds) (.node i.this)))
    (hends : ∀ i, g.Incident i → .edge i.edge ∈ new →
      .node i.this ∈ new ∨ .node i.this ∈ visited ∨ .node i.this ∈ es)
    (hbound : ∀ h ∈ more, h ∈ new ∧ g.Bindable h ∧ Determined g₀ g h)
    (hnamed : ∀ h ∈ new, ¬ g.Unnamed h → Known g (more ++ binds) h)
    (hstarts : ∀ n, .node n ∈ new → ∀ s, g₀.IsStart s → g₀.Joined s n →
      Known g (more ++ binds) (.node s)) :
    Frontier g₀ g (new ++ visited) (more ++ binds) (es ++ rest) where
  -- what is asked holds of the new handles by the hypotheses, of the old ones as before
  node := by
    intro n hn
    rcases List.mem_append.1 hn with hn | hn
    · exact hnode n hn
    · exact hf.node n hn
  root := by
    rcases hf.root with h | h
    · exact .inl (List.mem_append_right _ h)
    · rcases List.mem_cons.1 h with rfl | h
      · exact .inl (List.mem_append_left _ hx)
      · exact .inr (List.mem_append_right _ h)
  along := by
    intro i hi
    rcases List.mem_append.1 hi with hi | hi
    · obtain ⟨hinc, hthis, hcon⟩ := halong i hi
      exact ⟨hinc, List.mem_append_left _ hthis, hcon⟩
    · obtain ⟨hinc, hthis, hcon⟩ := hf.along i (List.mem_cons_of_mem _ hi)
      exact ⟨hinc, List.mem_append_right _ hthis, hcon⟩
  enter := by
    intro n hn
    rcases List.mem_append.1 hn with hn | hn
    · exact henter n hn
    · exact hf.enter n (List.mem_cons_of_mem _ hn)
  pending := by
    -- an incidence of the popped entry's edge is no longer pending: its edge is among the new
    intro i hi hthis hnew
    simp only [List.mem_append, not_or] at hthis hnew
    rcases hthis with hthis | hthis
    · exact List.mem_append_left _ (hpending i hi hthis hnew.1 hnew.2).1
    · rcases List.mem_cons.1 (hf.pending i hi hthis hnew.2) with rfl | h
      · exact absurd hx hnew.1
      · exact List.mem_append_right _ h
  live := by
    intro i hi hthis hnew hs
    simp only [List.mem_append, not_or] at hthis hnew
    rcases hthis with hthis | hthis
    · exact (hpending i hi hthis hnew.1 hnew.2).2 hs
    · exact (hf.live i hi hthis hnew.2 hs).mono
  ends := by
    intro i hi hin
    rcases List.mem_append.1 hin with hin | hin
    · rcases hends i hi hin with h | h | h
      · exact .inl (List.mem_append_left _ h)
      · exact .inl (List.mem_append_right _ h)
      · exact .inr (List.mem_append_left _ h)
    · rcases hf.ends i hi hin with h | h
      · -- the entry popped was the other end: its handle is among the new
        exact .inl (List.mem_append_right _ h)
      · rcases List.mem_cons.1 h with rfl | h
        · exact .inl (List.mem_append_left _ hx)
        · exact .inr (List.mem_append_right _ h)
  bound := by
    intro h hh
    rcases List.mem_append.1 hh with hh | hh
    · obtain ⟨hin, hrest⟩ := hbound h hh
      exact ⟨List.mem_append_left _ hin, hrest⟩
    · obtain ⟨hin, hrest⟩ := hf.bound h hh
      exact ⟨List.mem_append_right _ hin, hrest⟩
  named := by
    intro h hh hu
    rcases List.mem_append.1 hh with hh | hh
    · exact hnamed h hh hu
    · exact (hf.named h hh hu).mono
  starts := by
    intro n hn s hs hj
    rcases List.mem_append.1 hn with hn | hn
    · exact hstarts n hn s hs hj
    · exact (hf.starts n hn s hs hj).mono

-- ---------------------------------------------------------------------------
-- Nodes that are entered
-- ---------------------------------------------------------------------------

/-- Nothing starts in the component of the anchor. -/
theorem not_joined_anchor (hr : Rooted cx g₀ g) {s : NodeId} (hs : g₀.IsStart s) :
    ¬ g₀.Joined s g.anchor := by
  intro hj
  refine hs.first g₀.anchor (isNode_anchor hr.before.consistent.inhabited) ?_ hj
  obtain ⟨i, rfl, hi⟩ := hs.isNode
  have hne : i ≠ 0 := fun h0 => hs.ne_anchor (by rw [h0]; rfl)
  show (0 : Int) < i
  omega

/-- Reaching a node from the anchor, or the anchor itself. -/
theorem enterNode (hr : Rooted cx g₀ g) {n : NodeId} {es : List Entry}
    (hf : Frontier g₀ g visited binds (.node n :: rest)) (more : List Handle)
    (hes : pendingEntries g n (.node n :: visited) = .ok es)
    (hmore : ∀ h ∈ more, h = .node n ∧ g.IsPlace n ∧ g₀.IsStart n)
    (hknown : n ≠ g.anchor → Known g (more ++ binds) (.node n)) :
    Frontier g₀ g (.node n :: visited) (more ++ binds) (es ++ rest) := by
  have hcon : g.Consistent := hr.regular.consistent
  have hcases : n = g.anchor ∨ g₀.IsStart n := hf.enter n (by simp)
  have hplace : g₀.IsStart n → g.IsPlace n := fun hs =>
    hr.anchors.extended.isPlace (hr.before.place_of_isStart hs)
  have hn : g.IsNode n := by
    rcases hcases with rfl | hs
    · exact isNode_anchor hcon.inhabited
    · exact (hplace hs).1
  have hncon : ¬ g.IsConstraint n := by
    rcases hcases with rfl | hs
    · exact hr.regular.not_isConstraint_anchor
    · exact fun hc => Regular.not_isPlace_of_isConstraint hc (hplace hs)
  have hmem : ∀ {m}, Handle.node m ∈ [Handle.node n] → m = n := by
    intro m hm
    simpa using hm
  refine hf.advance [.node n] more es (by simp [Entry.handle]) ?_ ?_ ?_ ?_ ?_ ?_ ?_ ?_
  · intro m hm
    rwa [hmem hm]
  · intro i hi
    obtain ⟨j, hj, hinc, hthis, -⟩ := (mem_pendingEntries hcon hn hes).1 hi
    cases hj
    exact ⟨hinc, by simp [hthis], by rwa [hthis]⟩
  · intro m hm
    obtain ⟨j, hj, -⟩ := (mem_pendingEntries hcon hn hes).1 hm
    cases hj
  · intro i hi hthis _ hnew
    have hthis : i.this = n := hmem hthis
    refine ⟨(mem_pendingEntries hcon hn hes).2 ⟨i, rfl, hi, hthis, by simpa using hnew⟩, ?_⟩
    intro hs
    rw [hthis]
    refine hknown fun heq => ?_
    -- the anchor has no edges of the model
    refine hr.regular.not_isPlace_anchor ?_
    rw [← heq, ← hthis]
    exact hr.regular.isPlace_this hi hs
  · intro i _ hin
    simp at hin
  · intro h hh
    obtain ⟨rfl, hp, hs⟩ := hmore h hh
    exact ⟨by simp, hp, .inr (.inl ⟨n, rfl, hs⟩)⟩
  · intro h hh hu
    obtain rfl : h = .node n := by simpa using hh
    refine hknown fun heq => hu ?_
    rintro name ⟨-, hname⟩
    obtain ⟨nd, hnd, hkind⟩ := hr.regular.anchor
    have hfits := hr.regular.node g.anchor nd (heq ▸ hn) hnd
    rw [NodeFits, hkind] at hfits
    rw [heq, hnd] at hname
    exact Option.some_ne_none _ (hname.symm.trans hfits.2)
  · intro m hm s hs hj
    rw [hmem hm] at hj
    rcases hcases with rfl | hstart
    · exact absurd hj (not_joined_anchor hr hs)
    · rw [hs.eq_of_joined hstart hj]
      exact hknown hstart.ne_anchor

-- ---------------------------------------------------------------------------
-- Edges that are followed
-- ---------------------------------------------------------------------------

/-- An edge to a start puts its node on the stack. -/
theorem followStart (hr : Rooted cx g₀ g) {i : Incidence} {e : PatternEdge}
    (hf : Frontier g₀ g visited binds (.along i :: rest)) (he : g.edge? i.edge = some e)
    (hkind : e.kind = .start) :
    Frontier g₀ g (.edge i.edge :: visited) binds (.node i.that :: rest) := by
  obtain ⟨hi, hthis, -⟩ := hf.along i (by simp)
  -- only the edges added for the anchors are of this kind
  have hstart : ∃ n, g₀.IsStart n ∧ e = startEdge n := by
    rcases hr.anchors.edge?_cases he with hold | hnew
    · exact absurd hkind (hr.unanchored e (List.mem_of_getElem? hold))
    · exact hnew
  obtain ⟨n, hn, rfl⟩ := hstart
  refine hf.advance [.edge i.edge] [] [.node i.that] (by simp [Entry.handle]) ?_ ?_ ?_ ?_ ?_ ?_ ?_ ?_
  · intro m hm
    simp at hm
  · intro j hj
    simp at hj
  · intro m hm
    obtain rfl : m = i.that := by simpa using hm
    have hseen := hi.eq_seen he
    -- seen from the anchor it leads to the start, seen from the start to the anchor
    cases hd : i.direction with
    | out => exact .inr (by rw [hseen, hd]; exact hn)
    | into => exact .inl (by rw [hseen, hd]; rfl)
  · intro j _ hj
    simp at hj
  · intro j hj hin
    have heq : j.edge = i.edge := by simpa using hin
    -- the edge has two ends: the one it was popped at, and the one now to be entered
    rcases hi.eq_or_eq_reverse hj heq with rfl | rfl
    · exact .inr (.inl hthis)
    · exact .inr (.inr (by simp [Incidence.reverse]))
  · intro h hh
    cases hh
  · intro h hh hu
    obtain rfl : h = .edge i.edge := by simpa using hh
    exact absurd ((unnamed_edge_iff he).2 rfl) hu
  · intro m hm
    simp at hm

/-- The far end of an edge of the model is looked at, and is known from then on. -/
theorem followFar (hr : Rooted cx g₀ g) {i : Incidence} {es : List Entry} {more : List Handle}
    (hf : Frontier g₀ g visited binds (.along i :: rest)) (hs : g.Structural i)
    (hes : pendingEntries g i.that (.node i.that :: .edge i.edge :: visited) = .ok es)
    (hmore : ∀ h ∈ more, (h = .node i.that ∨ h = .edge i.edge) ∧ g.Bindable h ∧ ¬ g.Unnamed h)
    (hthat : Known g (more ++ binds) (.node i.that))
    (hedge : ¬ g.Unnamed (.edge i.edge) → Known g (more ++ binds) (.edge i.edge)) :
    Frontier g₀ g (.node i.that :: .edge i.edge :: visited) (more ++ binds) (es ++ rest) := by
  have hcon : g.Consistent := hr.regular.consistent
  obtain ⟨hi, hthis, -⟩ := hf.along i (by simp)
  have hplace : g.IsPlace i.that := hr.regular.isPlace_that hi hs
  have hmem : ∀ {m}, Handle.node m ∈ [Handle.node i.that, .edge i.edge] → m = i.that := by
    intro m hm
    simpa using hm
  refine hf.advance [.node i.that, .edge i.edge] more es (by simp [Entry.handle])
    ?_ ?_ ?_ ?_ ?_ ?_ ?_ ?_
  · intro m hm
    rw [hmem hm]
    exact hplace.1
  · intro j hj
    -- along
    obtain ⟨k, hk, hinc, hkthis, -⟩ := (mem_pendingEntries hcon hplace.1 hes).1 hj
    cases hk
    refine ⟨hinc, by simp [hkthis], ?_⟩
    rw [hkthis]
    exact fun hc => Regular.not_isPlace_of_isConstraint hc hplace
  · intro m hm
    obtain ⟨k, hk, -⟩ := (mem_pendingEntries hcon hplace.1 hes).1 hm
    cases hk
  · intro j hj hjthis hjnew hjvisited
    -- pending: leaves the far end by another edge than the one it was reached by
    have hjthis : j.this = i.that := hmem hjthis
    have hjne : j.edge ≠ i.edge := by simpa using hjnew
    refine ⟨(mem_pendingEntries hcon hplace.1 hes).2 ⟨j, rfl, hj, hjthis, ?_⟩, ?_⟩
    · simp [hjne, hjvisited]
    · intro _
      rw [hjthis]
      exact hthat
  · intro j hj hin
    -- ends: the edge was seen from one of its ends, the other is the new place
    have heq : j.edge = i.edge := by simpa using hin
    rcases hi.eq_or_eq_reverse hj heq with rfl | rfl
    · exact .inr (.inl hthis)
    · exact .inl (by simp [Incidence.reverse])
  · intro h hh
    obtain ⟨heq, hb, hu⟩ := hmore h hh
    exact ⟨by simpa using heq, hb, .inl hu⟩
  · intro h hh hu
    simp only [List.mem_cons, List.not_mem_nil, or_false] at hh
    rcases hh with rfl | rfl
    · exact hthat
    · exact hedge hu
  · intro m hm s hstart hj
    -- starts: the far end is joined to the near one, whose starts are known
    rw [hmem hm] at hj
    have hback : g₀.Joined i.that i.this := .single (hr.adjacent hi (.inl hs)).symm
    exact (hf.starts i.this hthis s hstart (hj.trans hback)).mono

/-- What a chain consumes has no name, the terminal apart. -/
theorem eq_terminal_of_named {n : NodeId} {seen : List Handle} {c : Chain}
    (hc : Chain.Consumed g₀ g n seen c) {h : Handle} (hin : h ∈ c.elements)
    (hu : ¬ g.Unnamed h) : h = .node c.terminal := by
  cases h with
  | edge k =>
    exfalso
    apply hu
    intro name hname
    obtain ⟨e, he, -⟩ := Option.bind_eq_some_iff.1 hname
    exact (hc.edge (e.seen k .out) (.seen he .out) (by simpa using hin)).2.2.1 name
      (by simpa using hname)
  | node m =>
    refine congrArg _ (Classical.byContradiction fun hm => ?_)
    exact hu (hc.interior m hin hm).1

/-- At a node that is passed, only constraints are left. -/
theorem constraint_of_passed (hr : Rooted cx g₀ g) {n : NodeId} {seen : List Handle} {c : Chain}
    {stack : List Entry} (hf : Frontier g₀ g visited binds stack)
    (hc : Chain.Consumed g₀ g n seen c) (hseen : ∀ {m}, .node m ∈ visited → Handle.node m ∈ seen)
    {m : NodeId} (hm : .node m ∈ visited) {j : Incidence} (hj : g.Incident j)
    (hin : .node j.this ∈ c.elements) (hne : j.this ≠ c.terminal) (hjoined : g₀.Joined j.this m)
    (hv : Handle.edge j.edge ∉ seen) (hnot : Handle.edge j.edge ∉ c.elements) :
    j ∈ c.constraints ∧ ¬ g.Structural j := by
  obtain ⟨hu, hfresh, hconsumed⟩ := hc.interior j.this hin hne
  have hns : ¬ g.Structural j := by
    intro hjs
    rcases hconsumed j hj rfl hjs with h | h
    · exact hv h
    · exact hnot h
  refine ⟨?_, hns⟩
  rcases hr.incident_cases hj with hjs | hp | ⟨s, hstart, he⟩
  · exact absurd hjs hns
  · exact ((hc.constrained j hj hp hin).resolve_left hne).resolve_left hv
  · -- the start of the component would have been entered before
    exfalso
    have hthis : j.this = s := hr.this_eq_of_startEdge hj he (hc.isPlace _ hin)
    rw [hthis] at hu hfresh hjoined
    rcases hf.starts m hm s hstart hjoined with hk | hk
    · exact hfresh (hseen (hf.bound _ hk).1)
    · exact hr.regular.not_unnamed_of_isArgument hk hu

/-- A chain is followed to its end. Only the terminal may be bound by it. -/
theorem followChain (hr : Rooted cx g₀ g) {i : Incidence} {c : Chain} {es : List Entry}
    {seen : List Handle} (hf : Frontier g₀ g visited binds (.along i :: rest))
    (new all more : List Handle)
    (hs : g.Structural i) (hseen : ∀ h, h ∈ seen ↔ h = .edge i.edge ∨ h ∈ visited)
    (hc : Chain.Consumed g₀ g i.that seen c)
    (hnew : ∀ h, h ∈ new ↔ h = .edge i.edge ∨ h ∈ c.elements)
    (hall : ∀ h, h ∈ all ↔ h ∈ new ∨ h ∈ visited)
    (hes : pendingEntries g c.terminal all = .ok es)
    (hmore : ∀ h ∈ more, (h = .node c.terminal ∨ h = .edge i.edge) ∧ g.Bindable h ∧
      Determined g₀ g h)
    (hterm : Known g (more ++ binds) (.node c.terminal) ∨
      (c.openEnd = false ∧ g.Unnamed (.node c.terminal) ∧ Handle.node c.terminal ∉ visited))
    (hedge : ¬ g.Unnamed (.edge i.edge) → Known g (more ++ binds) (.edge i.edge)) :
    Frontier g₀ g (new ++ visited) (more ++ binds) (c.constraints.map .along ++ es ++ rest) := by
  have hcon : g.Consistent := hr.regular.consistent
  obtain ⟨hi, hthis, -⟩ := hf.along i (by simp)
  have hnode : ∀ {m}, Handle.node m ∈ new ↔ Handle.node m ∈ c.elements := by
    intro m
    rw [hnew]
    simp
  have hunseen : ∀ {m}, Handle.node m ∉ seen ↔ Handle.node m ∉ visited := by
    intro m
    rw [hseen]
    simp
  have hend : g.IsPlace c.terminal := hc.isPlace _ hc.terminal
  -- every node of the chain is connected with the node the chain leaves
  have hback : ∀ m, Handle.node m ∈ c.elements → g₀.Joined m i.this := by
    intro m hm
    exact (hc.joined m hm).symm.trans (.single (hr.adjacent hi (.inl hs)).symm)
  refine hf.advance new more _ (by simp [Entry.handle, hnew]) ?_ ?_ ?_ ?_ ?_ ?_ ?_ ?_
  · intro m hm
    exact (hc.isPlace m (hnode.1 hm)).1
  · intro j hj
    rcases List.mem_append.1 hj with hj | hj
    · obtain ⟨k, hk, hjk⟩ := List.mem_map.1 hj
      cases hjk
      obtain ⟨hinc, -, hkthis⟩ := hc.constraint _ hk
      exact ⟨hinc, hnode.2 hkthis, fun h =>
        Regular.not_isPlace_of_isConstraint h (hc.isPlace _ hkthis)⟩
    · obtain ⟨k, hk, hinc, hkthis, -⟩ := (mem_pendingEntries hcon hend.1 hes).1 hj
      cases hk
      refine ⟨hinc, hnode.2 (hkthis ▸ hc.terminal), ?_⟩
      rw [hkthis]
      exact fun h => Regular.not_isPlace_of_isConstraint h hend
  · intro m hm
    rcases List.mem_append.1 hm with hm | hm
    · simp at hm
    · obtain ⟨k, hk, -⟩ := (mem_pendingEntries hcon hend.1 hes).1 hm
      cases hk
  · intro j hj hjthis hjnew hjvisited
    have hjmem := hnode.1 hjthis
    have hjel : Handle.edge j.edge ∉ c.elements := fun h => hjnew ((hnew _).2 (.inr h))
    have hjseen : Handle.edge j.edge ∉ seen := by
      rw [hseen]
      rintro (h | h)
      · exact hjnew ((hnew _).2 (.inl h))
      · exact hjvisited h
    by_cases ht : j.this = c.terminal
    · refine ⟨List.mem_append_right _ ((mem_pendingEntries hcon hend.1 hes).2
        ⟨j, rfl, hj, ht, by rw [hall]; simp [hjnew, hjvisited]⟩), ?_⟩
      intro hjs
      rw [ht]
      rcases hterm with hk | ⟨ho, hu, hv⟩
      · exact hk
      · rcases hc.closed ho hu (hunseen.2 hv) j hj ht hjs with h | h
        · exact absurd h hjseen
        · exact absurd h hjel
    · obtain ⟨hmem, hns⟩ := constraint_of_passed hr hf hc
        (fun hm => (hseen _).2 (.inr hm)) hthis hj hjmem ht (hback _ hjmem) hjseen hjel
      exact ⟨List.mem_append_left _ (List.mem_map_of_mem hmem), fun hjs => absurd hjs hns⟩
  · intro j hj hin
    rcases (hnew _).1 hin with heq | hin
    · rcases hi.eq_or_eq_reverse hj (Handle.edge.inj heq) with rfl | rfl
      · exact .inr (.inl hthis)
      · exact .inl (hnode.2 hc.start)
    · exact .inl (hnode.2 (hc.edge j hj hin).2.2.2)
  · intro h hh
    obtain ⟨heq, hrest⟩ := hmore h hh
    refine ⟨?_, hrest⟩
    rcases heq with rfl | rfl
    · exact hnode.2 hc.terminal
    · exact (hnew _).2 (.inl rfl)
  · intro h hh hu
    rcases (hnew _).1 hh with rfl | hin
    · exact hedge hu
    · obtain rfl := eq_terminal_of_named hc hin hu
      exact hterm.resolve_right fun h => hu h.2.1
  · intro m hm s hstart hj
    exact (hf.starts i.this hthis s hstart (hj.trans (hback m (hnode.1 hm)))).mono

end Frontier

end Plan

end GraphPattern
