import GraphPattern.Proofs.Paths
import GraphPattern.Proofs.Solutions

/-!
# GraphPattern — chains realize their part of a solution

The step that a chain is compiled to tests or enumerates where its path leads. What the chain
passes is solved by it without being bound: it can be chosen anew as long as the terminal and
everything beyond stay as they are.

## Results

* `solves_before` — where the path leads, a solution of the rest extends to the chain.
* `leads_of_solves` — where the chain is solved, the path leads.
* `Chaining.realizes_member`, `Chaining.realizes_nonEmpty`, `Chaining.realizes_generate` — the test
  or the enumeration that a chain is compiled to realizes its part.
* `ChainEmits.realizes` — the step of a chain realizes its part, whichever it is.
-/

namespace GraphPattern

open PatternGraph

variable {cx : Context} {g g₀ : PatternGraph} {s : Setting} {w : World} {args : Bindings}
  {visited binds : List Handle} {c c' : Chain} {i : Incidence} {n : NodeId}

-- ---------------------------------------------------------------------------
-- Solutions along a chain
-- ---------------------------------------------------------------------------

/-- Edges of the model that a chain does not consume end where nothing was chosen anew. -/
theorem keeps_end (hc : Chain.Consumed g₀ g n visited c) {h h' : Handle → Value}
    (hkeep : c.Keeps h h') {j : Incidence} (hj : g.Incident j) (hjs : g.Structural j)
    (hv : Handle.edge j.edge ∉ visited) (hnot : Handle.edge j.edge ∉ c.elements) :
    h (.node j.this) = h' (.node j.this) := by
  refine hkeep _ fun m hm hmem => ?_
  obtain rfl : j.this = m := Handle.node.inj hm
  refine Classical.byContradiction fun hne => ?_
  rcases (hc.interior j.this hmem hne).2.2 j hj rfl hjs with hin | hin
  · exact hv hin
  · exact hnot hin

/-- Where the path leads, a solution of the rest extends to the chain. -/
theorem solves_before (hw : Serves s w) (hs : s.engine = cx.engine) (hr : Rooted cx g₀ g)
    (hn : g.IsPlace n) (hwalks : Chain.Walks cx g n visited c) {more : List Handle}
    (hmore : ∀ b, b ∈ more → b ∈ c.elements ∨ b ∈ visited) {h' : Handle → Value}
    (hsol : Solves w args g more h') {m : Value} (hm : w.candidate m)
    (hl : w.leads c.path m (h' (.node c.terminal)))
    (hend : Handle.node c.terminal ∉ visited →
      Fits w args g (.node c.terminal) (h' (.node c.terminal))) :
    ∃ h, c.Keeps h h' ∧ h (.node n) = m ∧ Solves w args g visited h := by
  have hsub : ∀ i, g.Incident i → g.Structural i → g₀.Adjacent i.this i.that :=
    fun j hj hjs => hr.adjacent hj (.inl hjs)
  obtain ⟨h, hkeep, hstart, hchosen, hcand⟩ :=
    hwalks.choose hw hs hr.regular hsub hn (hw.element_of_candidate m hm) hl h' rfl
  have hc := hr.consumed hwalks hn
  refine ⟨h, hkeep, hstart, ?_, ?_⟩
  · intro p hp hv
    by_cases hin : .node p ∈ c.elements
    · by_cases ht : p = c.terminal
      · rw [hkeep (.node p) fun q hq _ => (Handle.node.inj hq) ▸ ht]
        rw [ht] at hv ⊢
        exact hend hv
      · -- a node that is passed has no name, and its value was chosen
        obtain ⟨nd, hnd⟩ := hp.1.exists_node
        refine fits_of_unnamed hr.regular hp hnd (hc.interior p hin ht).1 ?_
          (hchosen.node p nd hin hnd)
        by_cases hpn : p = n
        · rw [hpn, hstart]
          exact hm
        · exact hcand p hin hpn
    · have heq : h (.node p) = h' (.node p) :=
        hkeep _ fun q hq hmem => absurd ((Handle.node.inj hq) ▸ hmem) hin
      rw [heq]
      refine hsol.node p hp fun hmem => ?_
      rcases hmore _ hmem with hmem | hmem
      · exact hin hmem
      · exact hv hmem
  · intro k e he hk hv
    have hi : g.Incident (e.seen k .out) := .seen he .out
    have he' : g.edge? (e.seen k .out).edge = some e := by simpa using he
    have hst : g.Structural (e.seen k .out) := ⟨e, he', hk⟩
    have hv' : Handle.edge (e.seen k .out).edge ∉ visited := by simpa using hv
    by_cases hin : .edge (e.seen k .out).edge ∈ c.elements
    · obtain ⟨-, -, hu, -⟩ := hc.edge _ hi hin
      rw [unnamed_edge_iff he'] at hu
      have hmatch := (edgeMatched_iff w args h hi he').2
      rw [if_pos hu] at hmatch
      simpa using hmatch (hchosen.edge _ e hi hin he')
    · have hold := hsol.edge k e he hk fun hmem => by
        rcases hmore _ hmem with hmem | hmem
        · exact hin (by simpa using hmem)
        · exact hv hmem
      refine hold.congr (hkeep _ (by intro q hq; cases hq)) ?_ ?_
      · exact keeps_end hc hkeep hi hst hv' hin
      · exact keeps_end hc hkeep hi.reverse hst.reverse hv' hin

/-- Where the chain is solved, the path leads. -/
theorem leads_of_solves (hw : Serves s w) (hr : Rooted cx g₀ g) (hn : g.IsPlace n)
    (hwalks : Chain.Walks cx g n visited c) {h : Handle → Value}
    (hsol : Solves w args g visited h)
    (hend : Fits w args g (.node c.terminal) (h (.node c.terminal))) :
    w.leads c.path (h (.node n)) (h (.node c.terminal)) := by
  have hc := hr.consumed hwalks hn
  refine hwalks.leads hw hr.regular hn ⟨?_, ?_⟩
  · intro m nd hm hnd
    have hplace := hc.isPlace m hm
    have hfit : Fits w args g (.node m) (h (.node m)) := by
      by_cases ht : m = c.terminal
      · rw [ht]
        exact hend
      · exact hsol.node m hplace (hc.interior m hm ht).2.1
    exact hfit.typed hw hr.regular hplace hnd
  · intro j e hj hjmem he
    obtain ⟨hjv, ⟨e', he', hk⟩, hu, -⟩ := hc.edge j hj hjmem
    rw [he] at he'
    cases he'
    have hmatch := (edgeMatched_iff w args h hj he).1 (hsol.edge j.edge e he hk hjv)
    rwa [if_pos ((unnamed_edge_iff he).1 hu)] at hmatch

-- ---------------------------------------------------------------------------
-- The step of a chain
-- ---------------------------------------------------------------------------

/-- The stage at which the first node of a chain is still to be chosen. -/
def Toward (w : World) (args : Bindings) (g : PatternGraph) (visited binds : List Handle)
    (Q : (Handle → Value) → Value → Prop) (n : NodeId) : Standing where
  known := Plan.Known g binds
  covered := (· ∈ visited)
  solves := fun h => Solves w args g visited h ∧ Q h (h (.node n))

/-- An expression and a path that lead to what the path of a chain leads to, from wherever the
chain may start. -/
structure Departs (s : Setting) (w : World) (args : Bindings) (g : PatternGraph)
    (binds : List Handle) (start : Expr) (path : Path) (c : Chain)
    (Q : (Handle → Value) → Value → Prop) : Prop where
  followed : ∀ q ∈ path, q.Followed s.engine
  local_known : ∀ h h' m, (∀ b, Plan.Known g binds b → h b = h' b) → Q h m → Q h' m
  candidate : ∀ ctx h m, Holds g (Fits w args g) (Plan.Known g binds) ctx →
    Agrees g (Plan.Known g binds) h ctx → Q h m → w.candidate m
  stands : ∀ ctx, Holds g (Fits w args g) (Plan.Known g binds) ctx →
    ∃ u, Stands s ctx start u ∧ w.element u ∧
      ∀ h, Agrees g (Plan.Known g binds) h ctx → ∀ v,
        (w.leads path u v ↔ ∃ m, Q h m ∧ w.leads c.path m v)

/-- What holds of the walk while it follows a chain from the far end of an edge. -/
structure Following (cx : Context) (g₀ g : PatternGraph) (visited binds : List Handle)
    (n : NodeId) (c : Chain) : Prop where
  isPlace : g.IsPlace n
  walks : Chain.Walks cx g n visited c
  bound : Bound g visited binds
  known : .node c.terminal ∈ visited → Plan.Known g binds (.node c.terminal)

/-- A chain that is followed, with what leads where its path leads and what is marked after it. -/
structure Chaining (cx : Context) (g₀ g : PatternGraph) (s : Setting) (w : World) (args : Bindings)
    (visited binds marks : List Handle) (n : NodeId) (c : Chain) (start : Expr) (path : Path)
    (Q : (Handle → Value) → Value → Prop) : Prop where
  serves : Serves s w
  engine : s.engine = cx.engine
  rooted : Rooted cx g₀ g
  following : Following cx g₀ g visited binds n c
  departs : Departs s w args g binds start path c Q
  marked : ∀ b, b ∈ marks ↔ b ∈ c.elements ∨ b ∈ visited

namespace Chaining

variable {marks : List Handle} {start : Expr} {path : Path} {Q : (Handle → Value) → Value → Prop}
  {ctx : Bindings} {h h' : Handle → Value} {nd : PatternNode}
  (hc : Chaining cx g₀ g s w args visited binds marks n c start path Q)

include hc

theorem adjacent : ∀ j, g.Incident j → g.Structural j → g₀.Adjacent j.this j.that :=
  fun _ hj hjs => hc.rooted.adjacent hj (.inl hjs)

theorem consumed : Chain.Consumed g₀ g n visited c :=
  hc.rooted.consumed hc.following.walks hc.following.isPlace

theorem isPlace : g.IsPlace c.terminal :=
  hc.consumed.isPlace _ hc.consumed.terminal

theorem covered : ∀ b ∈ visited, b ∈ marks :=
  fun b hb => (hc.marked b).2 (.inr hb)

theorem terminal_mem : .node c.terminal ∈ marks :=
  (hc.marked _).2 (.inl hc.consumed.terminal)

/-- What the chain passes was not known before. -/
theorem eq_terminal_of_known {b : Handle} (hb : Plan.Known g binds b) :
    ∀ m, b = .node m → .node m ∈ c.elements → m = c.terminal := by
  rintro m rfl hm
  refine Classical.byContradiction fun hne => ?_
  obtain ⟨hu, hv, -⟩ := hc.consumed.interior m hm hne
  exact hc.following.bound.not_known hc.rooted.regular hu hv hb

theorem eq_terminal_of_unmarked {b : Handle} (hb : b ∉ marks) :
    ∀ m, b = .node m → .node m ∈ c.elements → m = c.terminal := by
  rintro m rfl hm
  exact absurd ((hc.marked _).2 (.inl hm)) hb

/-- A solution of the rest that the path leads to extends to the chain. -/
theorem extend (hctx : Holds g (Fits w args g) (Plan.Known g binds) ctx) {m : Value}
    (hsol : Solves w args g marks h') (hag : Agrees g (Plan.Known g binds) h' ctx) (hQ : Q h' m)
    (hl : w.leads c.path m (h' (.node c.terminal)))
    (hend : Handle.node c.terminal ∉ visited →
      Fits w args g (.node c.terminal) (h' (.node c.terminal))) :
    ∃ h, (Toward w args g visited binds Q n).solves h ∧ c.Keeps h h' := by
  obtain ⟨h, hkeep, hm, hsol'⟩ := solves_before hc.serves hc.engine hc.rooted hc.following.isPlace
    hc.following.walks (fun b hb => (hc.marked b).1 hb) hsol
    (hc.departs.candidate ctx h' m hctx hag hQ) hl hend
  refine ⟨h, ⟨hsol', ?_⟩, hkeep⟩
  rw [hm]
  exact hc.departs.local_known h' h m
    (fun b hb => (hkeep b (hc.eq_terminal_of_known hb)).symm) hQ

/-- What the path leads to suits the terminal, unless that is an argument. -/
theorem suits (hctx : Holds g (Fits w args g) (Plan.Known g binds) ctx)
    (hag : Agrees g (Plan.Known g binds) h ctx) {m v : Value} (hQ : Q h m)
    (hl : w.leads c.path m v) (hnode : g.node? c.terminal = some nd) :
    w.typed v nd.typeName? ∧ w.candidate v := by
  have hcand := hc.departs.candidate ctx h m hctx hag hQ
  obtain ⟨h₁, hkeep, hstart, hchosen, hcand'⟩ := hc.following.walks.choose hc.serves hc.engine
    hc.rooted.regular hc.adjacent hc.following.isPlace (hc.serves.element_of_candidate m hcand) hl
    (fun _ => v) rfl
  have hval : h₁ (.node c.terminal) = v := hkeep _ fun q hq _ => (Handle.node.inj hq).symm
  rw [← hval]
  refine ⟨hchosen.node _ nd hc.consumed.terminal hnode, ?_⟩
  by_cases htn : c.terminal = n
  · rw [htn, hstart]
    exact hcand
  · exact hcand' _ hc.consumed.terminal htn

/-- Solving the whole way solves the chain, whatever stands for what is not known. -/
theorem leads_to {h₁ : Handle → Value} (hag : Agrees g (Plan.Known g binds) h ctx)
    (hag₁ : Agrees g (Plan.Known g binds) h₁ ctx)
    (hsol : (Toward w args g visited binds Q n).solves h)
    (hfit : Fits w args g (.node c.terminal) (h (.node c.terminal))) :
    ∃ m, Q h₁ m ∧ w.leads c.path m (h (.node c.terminal)) := by
  refine ⟨h (.node n), hc.departs.local_known h h₁ _ (fun b hb => ?_) hsol.2, ?_⟩
  · exact Option.some.inj ((hag b hb).symm.trans (hag₁ b hb))
  · exact leads_of_solves hc.serves hc.rooted hc.following.isPlace hc.following.walks hsol.1 hfit

/-- Nothing is left at the terminal of a closed chain, so it can be chosen anew as well. -/
theorem solves_anew (hclosed : c.openEnd = false) (hu : g.Unnamed (.node c.terminal))
    (hfresh : .node c.terminal ∉ visited) (hsol : Solves w args g marks h)
    (hother : ∀ {b}, b ≠ .node c.terminal → h' b = h b) : Solves w args g marks h' := by
  refine ⟨fun p hp hv => ?_, fun k e he hk hv => ?_⟩
  · rw [hother]
    · exact hsol.node p hp hv
    · intro hpt
      rw [hpt] at hv
      exact hv hc.terminal_mem
  · have hi : g.Incident (e.seen k .out) := .seen he .out
    have he' : g.edge? (e.seen k .out).edge = some e := by simpa using he
    have hst : g.Structural (e.seen k .out) := ⟨e, he', hk⟩
    have hends : ∀ j, g.Incident j → g.Structural j → j.edge = k →
        Handle.node j.this ≠ .node c.terminal := by
      intro j hj hjs hjk hjt
      rcases hc.consumed.closed hclosed hu hfresh j hj (Handle.node.inj hjt) hjs with hin | hin
      · exact hv (hjk ▸ hc.covered _ hin)
      · exact hv (hjk ▸ (hc.marked _).2 (.inl hin))
    refine (hsol.edge k e he hk hv).congr (hother (by intro hne; cases hne)) ?_ ?_
    · exact hother (hends _ hi hst (by simp))
    · exact hother (hends _ hi.reverse hst.reverse (by simp [Incidence.reverse]))

/-- A chain to what is known is a test. -/
theorem realizes_member (hk : Plan.Known g binds (.node c.terminal)) :
    Realizes g (Fits w args g) s (Toward w args g visited binds Q n)
      [.guard (.member (.var (Plan.varOf g c.terminal)) (.reachable start path))]
      (Reached w args g marks binds) := by
  refine .guard (fun ctx => ∀ h, Agrees g (Plan.Known g binds) h ctx →
    ∃ m, Q h m ∧ w.leads c.path m (h (.node c.terminal))) (fun b => Iff.rfl) hc.covered ?_ ?_ ?_
  · -- what the test evaluates to: membership of the value that the terminal has already
    intro ctx hctx
    obtain ⟨u, hu, hue, hiff⟩ := hc.departs.stands ctx hctx
    obtain ⟨v, hv, hfit⟩ := hctx _ hk
    obtain ⟨b, hb, hbiff⟩ := hc.serves.holds_member (Stands.var hv) (hfit.element hc.serves) hu hue
      hc.departs.followed
    refine ⟨b, hb, hbiff.trans ⟨?_, ?_⟩⟩
    · intro hl h hag
      have hval := hag _ hk
      rw [hv] at hval
      rw [← Option.some.inj hval]
      exact (hiff h hag v).1 hl
    · intro hall
      obtain ⟨h, hag⟩ := hctx.exists_agrees
      have hval := hag _ hk
      rw [hv] at hval
      rw [Option.some.inj hval]
      exact (hiff h hag _).2 (hall h hag)
  · -- a solution of the marks seen before that passes the test solves the chain's marks too
    intro ctx hctx hP h' hsol hag
    obtain ⟨m, hQ, hl⟩ := hP h' hag
    obtain ⟨h, hsol', hkeep⟩ := hc.extend hctx hsol hag hQ hl fun _ => hag.fit hctx hk
    exact ⟨h, hsol', fun b hb => hkeep b (hb.elim hc.eq_terminal_of_known hc.eq_terminal_of_unmarked)⟩
  · -- and a solution of the chain's marks passes the test
    intro ctx hctx h hsol hag
    refine ⟨fun h₁ hag₁ => ?_, hsol.1.mono hc.covered⟩
    rw [← Option.some.inj ((hag _ hk).symm.trans (hag₁ _ hk))]
    exact hc.leads_to hag hag₁ hsol (hag.fit hctx hk)

/-- A chain to what has no name and is left behind asks whether there is anything. -/
theorem realizes_nonEmpty (hnode : g.node? c.terminal = some nd) (hanonymous : nd.anonymous = true)
    (hclosed : c.openEnd = false) (hfresh : .node c.terminal ∉ visited) :
    Realizes g (Fits w args g) s (Toward w args g visited binds Q n)
      [.guard (.nonEmpty (.reachable start path))] (Reached w args g marks binds) := by
  have hu : g.Unnamed (.node c.terminal) := (unnamed_node_iff hc.isPlace.1 hnode).2 hanonymous
  have hnotknown := hc.following.bound.not_known hc.rooted.regular hu hfresh
  refine .guard (fun ctx => ∀ h, Agrees g (Plan.Known g binds) h ctx →
    ∃ v m, Q h m ∧ w.leads c.path m v) (fun b => Iff.rfl) hc.covered ?_ ?_ ?_
  · -- what the test evaluates to: whether the path leads anywhere
    intro ctx hctx
    obtain ⟨u, hstart, hue, hiff⟩ := hc.departs.stands ctx hctx
    obtain ⟨b, hb, hbiff⟩ := hc.serves.holds_nonEmpty hstart hue hc.departs.followed
    refine ⟨b, hb, hbiff.trans ⟨?_, ?_⟩⟩
    · rintro ⟨v, hl⟩ h hag
      exact ⟨v, (hiff h hag v).1 hl⟩
    · intro hall
      obtain ⟨h, hag⟩ := hctx.exists_agrees
      obtain ⟨v, hv⟩ := hall h hag
      exact ⟨v, (hiff h hag v).2 hv⟩
  · -- what it leads to is what the terminal, bound nowhere, then stands for
    intro ctx hctx hP h' hsol hag
    obtain ⟨v, m, hQ, hl⟩ := hP h' hag
    let h'' : Handle → Value := fun b => if b = .node c.terminal then v else h' b
    have hself : h'' (.node c.terminal) = v := if_pos rfl
    have hother : ∀ {b}, b ≠ .node c.terminal → h'' b = h' b := fun hb => if_neg hb
    have heq : ∀ b, Plan.Known g binds b → h' b = h'' b := by
      intro b hb
      exact (hother fun hbt => hnotknown (hbt ▸ hb)).symm
    have hsol'' : Solves w args g marks h'' := hc.solves_anew hclosed hu hfresh hsol hother
    have hag'' : Agrees g (Plan.Known g binds) h'' ctx := by
      intro b hb
      rw [← heq b hb]
      exact hag b hb
    obtain ⟨ht, hcand⟩ := hc.suits hctx hag hQ hl hnode
    have hfit : Fits w args g (.node c.terminal) v :=
      fits_of_unnamed hc.rooted.regular hc.isPlace hnode hu hcand ht
    obtain ⟨h, hsol', hkeep⟩ := hc.extend hctx hsol'' hag''
      (hc.departs.local_known h' h'' m heq hQ) (hself ▸ hl) fun _ => hself ▸ hfit
    refine ⟨h, hsol', fun b hb => ?_⟩
    rcases hb with hb | hb
    · rw [hkeep b (hc.eq_terminal_of_known hb), heq b hb]
    · rw [hkeep b (hc.eq_terminal_of_unmarked hb), hother]
      rintro rfl
      exact hb hc.terminal_mem
  · -- and a solution of the chain's marks passes the test
    intro ctx hctx h hsol hag
    exact ⟨fun h₁ hag₁ => ⟨_, hc.leads_to hag hag₁ hsol (hsol.1.node _ hc.isPlace hfresh)⟩,
      hsol.1.mono hc.covered⟩

/-- A chain to something new enumerates it. -/
theorem realizes_generate (hnode : g.node? c.terminal = some nd) (hkind : nd.kind ≠ .argument)
    (hfresh : .node c.terminal ∉ visited) :
    Realizes g (Fits w args g) s (Toward w args g visited binds Q n)
      [.generate (Plan.varOf g c.terminal) (.reachable start path)]
      (Reached w args g marks ([.node c.terminal] ++ binds)) := by
  -- the terminal is new and no argument's place, so nothing binds it yet
  have hnotknown : ¬ Plan.Known g binds (.node c.terminal) := by
    rintro (hb | ⟨-, nd', hnd', hk⟩)
    · exact hfresh (hc.following.bound.visited _ hb)
    · rw [hnode] at hnd'
      cases hnd'
      exact hkind hk
  have hfits : ∀ ctx, Holds g (Fits w args g) (Plan.Known g binds) ctx → ∀ h m v,
      Agrees g (Plan.Known g binds) h ctx → Q h m → w.leads c.path m v →
      Fits w args g (.node c.terminal) v := by
    intro ctx hctx h m v hag hQ hl
    obtain ⟨ht, hcand⟩ := hc.suits hctx hag hQ hl hnode
    exact fits_of_kind hnode hkind hcand ht
  refine .generate (fun ctx v => ∀ h, Agrees g (Plan.Known g binds) h ctx →
    ∃ m, Q h m ∧ w.leads c.path m v) rfl ?_ hfresh hc.covered
    (hc.following.bound.variable_ne hc.rooted.regular hc.isPlace hnotknown) ?_ ?_
    (fun v k hfit => hfit.settled hc.serves k) ?_ ?_
  · intro b
    show (b ∈ [.node c.terminal] ++ binds ∨ _) ↔ (b ∈ binds ∨ _) ∨ b = _
    simp only [List.cons_append, List.nil_append, List.mem_cons]
    grind
  · -- what is generated: each end of the path, once
    intro ctx hctx
    obtain ⟨u, hu, hue, hiff⟩ := hc.departs.stands ctx hctx
    obtain ⟨vs, hvs, hnd, hmem⟩ := hc.serves.source_reachable hu hue hc.departs.followed
    refine ⟨vs, hvs, hnd, fun v => (hmem v).trans ⟨?_, ?_⟩⟩
    · intro hl h hag
      exact (hiff h hag v).1 hl
    · intro hall
      obtain ⟨h, hag⟩ := hctx.exists_agrees
      exact (hiff h hag v).2 (hall h hag)
  · -- each is a value that fits the terminal
    intro ctx hctx v hP
    obtain ⟨h, hag⟩ := hctx.exists_agrees
    obtain ⟨m, hQ, hl⟩ := hP h hag
    exact hfits ctx hctx h m v hag hQ hl
  · -- a solution that has it there solves the chain's marks
    intro ctx hctx v hP h' hsol hag hv
    obtain ⟨m, hQ, hl⟩ := hP h' hag
    rw [← hv] at hl
    obtain ⟨h, hsol', hkeep⟩ := hc.extend hctx hsol hag hQ hl fun _ =>
      hfits ctx hctx h' m _ hag hQ hl
    refine ⟨h, hsol', fun b hb => ?_⟩
    rcases hb with hb | hb
    · rcases hb with hb | hb
      · rcases List.mem_cons.1 hb with rfl | hb
        · exact hkeep _ fun q hq _ => (Handle.node.inj hq).symm
        · exact hkeep b (hc.eq_terminal_of_known (.inl hb))
      · exact hkeep b (hc.eq_terminal_of_known (.inr hb))
    · exact hkeep b (hc.eq_terminal_of_unmarked hb)
  · -- and a solution of the chain's marks has one of them there
    intro ctx hctx h hsol hag
    exact ⟨fun h₁ hag₁ => hc.leads_to hag hag₁ hsol (hsol.1.node _ hc.isPlace hfresh),
      hsol.1.mono hc.covered⟩

end Chaining

/-- The step of a chain realizes its part. -/
theorem ChainEmits.realizes {marks seen more : List Handle} {start : Expr} {em : Plan.Emission}
    {Q : (Handle → Value) → Value → Prop}
    (hc : Chaining cx g₀ g s w args visited binds marks n c start c'.path Q)
    (h : Plan.ChainEmits g start c' seen em more) (hterm : c'.terminal = c.terminal)
    (hopen : c'.openEnd = c.openEnd) (hseen : ∀ m, Handle.node m ∈ seen ↔ Handle.node m ∈ visited) :
    Realizes g (Fits w args g) s (Toward w args g visited binds Q n) em.steps
      (Reached w args g marks (more ++ binds)) := by
  -- the chain's last step: a test where the terminal has a value, or none is wanted of it
  cases h with
  | @known nd es node _ known =>
    rw [hterm] at node known ⊢
    refine hc.realizes_member ?_
    rcases known with hv | hk
    · exact hc.following.known ((hseen _).1 hv)
    · exact .inr (hc.isPlace.isArgument node hk)
  | @closed nd es node _ fresh anonymous closed =>
    rw [hterm] at node fresh
    rw [hopen] at closed
    rw [not_or, hseen] at fresh
    exact hc.realizes_nonEmpty node anonymous closed fresh.1
  | @bound nd es node _ fresh needed =>
    rw [hterm] at node fresh ⊢
    rw [not_or, hseen] at fresh
    exact hc.realizes_generate node fresh.2 fresh.1

end GraphPattern
