import GraphPattern.Proofs.Emission
import GraphPattern.Proofs.Splices

/-!
# GraphPattern — the course of the walk

The walk as a sequence of visits, each at a frontier, with what is bound along the way. What is
proved about plans goes by induction on such a course.

## Results

* `Plan.Frontier.visit` — every visit keeps the invariant of the walk.
* `Plan.Frontier.complete` — when the stack is empty, everything was visited.
* `Plan.explores_of_ofGraph` — the steps of a plan are those of a course that visits everything.
-/

namespace GraphPattern

open PatternGraph

namespace Plan

variable {cx : Context} {g g₀ : PatternGraph} {visited binds : List Handle} {rest : List Entry}

namespace Frontier

-- ---------------------------------------------------------------------------
-- Every visit keeps the invariant
-- ---------------------------------------------------------------------------

theorem mem_edge_cons {m : NodeId} {k : EdgeId} :
    Handle.node m ∈ Handle.edge k :: visited ↔ Handle.node m ∈ visited := by
  simp

/-- A node that is reached along an unvisited edge is known if it was visited. -/
theorem known_that {i : Incidence} (hf : Frontier g₀ g visited binds (.along i :: rest))
    (hs : g.Structural i) (hfresh : Handle.edge i.edge ∉ visited)
    (hv : .node i.that ∈ visited) : Known g binds (.node i.that) := by
  obtain ⟨hi, -, -⟩ := hf.along i (by simp)
  exact hf.live i.reverse hi.reverse hv hfresh hs.reverse

/-- A terminal that was visited before the chain is known. -/
theorem known_terminal {i : Incidence} {c : Chain} {seen : List Handle}
    (hf : Frontier g₀ g visited binds (.along i :: rest)) (hs : g.Structural i)
    (hfresh : Handle.edge i.edge ∉ visited)
    (hseen : ∀ h, h ∈ seen ↔ h = .edge i.edge ∨ h ∈ visited)
    (hc : Chain.Consumed g₀ g i.that seen c) (hv : .node c.terminal ∈ visited) :
    Known g binds (.node c.terminal) := by
  rcases hc.arrival with harr | ⟨j, hj, hjthis, hjmem⟩
  · rw [harr]
    exact hf.known_that hs hfresh (harr ▸ hv)
  · obtain ⟨hjseen, hjs, -, -⟩ := hc.edge j hj hjmem
    rw [hseen, not_or] at hjseen
    rw [← hjthis]
    exact hf.live j hj (hjthis ▸ hv) hjseen.2 hjs

theorem known_far (hr : Rooted cx g₀ g) {i : Incidence} {c : Chain}
    (hf : Frontier g₀ g visited binds (.along i :: rest)) (hs : g.Structural i)
    (hfresh : Handle.edge i.edge ∉ visited)
    (hwalks : Chain.Walks cx g i.that (.edge i.edge :: visited) c)
    (hv : .node c.terminal ∈ visited) : Known g binds (.node c.terminal) := by
  obtain ⟨hi, -, -⟩ := hf.along i (by simp)
  have hc := hr.consumed hwalks (hr.regular.isPlace_that hi hs)
  exact hf.known_terminal hs hfresh (by simp) hc hv

/-- A chain leaves its terminal known, or closed. -/
theorem terminal_of_chainEmits {i : Incidence} {c c' : Chain} {seen more : List Handle}
    {start : Expr} {em : Emission} (hf : Frontier g₀ g visited binds (.along i :: rest))
    (hs : g.Structural i)
    (hfresh : Handle.edge i.edge ∉ visited)
    (hseen : ∀ h, h ∈ seen ↔ h = .edge i.edge ∨ h ∈ visited)
    (hc : Chain.Consumed g₀ g i.that seen c)
    (h : ChainEmits g start c' (.edge i.edge :: visited) em more)
    (hterm : c'.terminal = c.terminal) (hopen : c'.openEnd = c.openEnd) :
    (∀ h ∈ more, h = .node c.terminal ∧ g.Bindable h ∧ Determined g₀ g h) ∧
      (Known g (more ++ binds) (.node c.terminal) ∨
        (c.openEnd = false ∧ g.Unnamed (.node c.terminal) ∧
          Handle.node c.terminal ∉ visited)) := by
  have hplace : g.IsPlace c.terminal := hc.isPlace _ hc.terminal
  cases h with
  -- the terminal was known before, or is an argument's place
  | @known nd es node _ known =>
    rw [hterm] at node known
    refine ⟨by simp, .inl ?_⟩
    rcases known with hv | hk
    · rw [mem_edge_cons] at hv
      exact hf.known_terminal hs hfresh hseen hc hv
    · exact .inr (hplace.isArgument node hk)
  -- it is bound nowhere, and nothing further is asked of it
  | @closed nd es node _ fresh anonymous closed =>
    rw [hterm] at node fresh
    rw [hopen] at closed
    rw [not_or, mem_edge_cons] at fresh
    exact ⟨by simp, .inr ⟨closed, (unnamed_node_iff hplace.1 node).2 anonymous, fresh.1⟩⟩
  | @bound nd es node _ fresh needed =>
    rw [hterm] at node ⊢
    rw [hopen] at needed
    refine ⟨?_, .inl (.inl (by simp))⟩
    intro h hh
    obtain rfl : h = .node c.terminal := by simpa using hh
    refine ⟨rfl, hplace, ?_⟩
    -- it is bound here: by its name, or because an edge with a name goes on from it
    rcases needed with hnamed | ho
    · left
      rw [unnamed_node_iff hplace.1 node, hnamed]
      exact Bool.false_ne_true
    · obtain ⟨-, -, j, hj, hjthis, hjs, hju⟩ := hc.opened ho
      exact .inr (.inr ⟨j, by rw [hjthis], hj, hjs, hju⟩)

theorem ChainEmits.parts {start : Expr} {c : Chain} {em : Emission} {more : List Handle}
    (h : ChainEmits g start c visited em more) :
    em.marks = c.elements ∧ ∃ es, pendingEntries g c.terminal (c.elements ++ visited) = .ok es ∧
      em.entries = c.constraints.map .along ++ es := by
  cases h with
  | known node pending known => exact ⟨rfl, _, pending, rfl⟩
  | closed node pending fresh anonymous closed => exact ⟨rfl, _, pending, rfl⟩
  | bound node pending fresh needed => exact ⟨rfl, _, pending, rfl⟩

/-- The far end of a bound edge is looked at, or a chain is followed from there. -/
theorem followBound (hr : Rooted cx g₀ g) {i : Incidence} {edge : Expr} {em : Emission}
    {more : List Handle} (hf : Frontier g₀ g visited binds (.along i :: rest))
    (own : List Handle)
    (hs : g.Structural i) (hfresh : Handle.edge i.edge ∉ visited)
    (hown : ∀ h ∈ own, h = .edge i.edge ∧ g.Bindable h ∧ ¬ g.Unnamed h)
    (hedge : ¬ g.Unnamed (.edge i.edge) → .edge i.edge ∈ own ∨ g.IsArgument (.edge i.edge))
    (h : FarEmits cx g i edge (.edge i.edge :: visited) em more) :
    Frontier g₀ g (em.marks ++ .edge i.edge :: visited) (own ++ more ++ binds)
      (em.entries ++ rest) := by
  obtain ⟨hi, -, -⟩ := hf.along i (by simp)
  have hplace : g.IsPlace i.that := hr.regular.isPlace_that hi hs
  -- a named edge is bound on the way to its far end, unless it is an argument's
  have hedge' : ∀ {more}, ¬ g.Unnamed (.edge i.edge) →
      Known g (own ++ more ++ binds) (.edge i.edge) := by
    intro more hu
    exact (hedge hu).imp (fun h => by simp [h]) id
  -- the far end is known, bound by its name, or where a chain begins
  cases h with
  | @known nd es node pending known =>
    refine hf.followFar hr hs pending ?_ ?_ hedge'
    · intro h hh
      obtain ⟨heq, hb, hu⟩ := hown h (by simpa using hh)
      exact ⟨.inr heq, hb, hu⟩
    · rcases known with hv | hk
      · exact (hf.known_that hs hfresh (mem_edge_cons.1 hv)).mono
      · exact .inr (hplace.isArgument node hk)
  | @named nd es name node pending fresh named =>
    refine hf.followFar hr hs pending ?_ (.inl (by simp)) hedge'
    intro h hh
    rcases List.mem_append.1 hh with hh | hh
    · obtain ⟨heq, hb, hu⟩ := hown h hh
      exact ⟨.inr heq, hb, hu⟩
    · obtain rfl := List.mem_singleton.1 hh
      refine ⟨.inl rfl, hplace, fun hu => hu name ⟨hplace.1, ?_⟩⟩
      rw [node]
      exact named
  | @chain nd c em bs node fresh anonymous walks emits =>
    have hseen : ∀ h, h ∈ Handle.edge i.edge :: visited ↔ h = .edge i.edge ∨ h ∈ visited := by
      simp
    have hc := hr.consumed walks hplace
    obtain ⟨hmore, hterm⟩ := hf.terminal_of_chainEmits hs hfresh hseen hc emits rfl rfl
    obtain ⟨hmarks, es, hes, hentries⟩ := ChainEmits.parts emits
    rw [hmarks, hentries]
    have hfc := hf.followChain hr (c.elements ++ [.edge i.edge])
      (c.elements ++ .edge i.edge :: visited) (own ++ more) hs hseen hc
      (by intro h; simp [or_comm]) (by intro h; simp [or_assoc]) hes ?_ ?_ hedge'
    · simpa using hfc
    · intro h hh
      rcases List.mem_append.1 hh with hh | hh
      · obtain ⟨heq, hb, hu⟩ := hown h hh
        exact ⟨.inr heq, hb, .inl hu⟩
      · obtain ⟨heq, hrest⟩ := hmore h hh
        exact ⟨.inl heq, hrest⟩
    · rw [List.append_assoc]
      exact hterm.imp Known.mono id

/-- Every visit keeps the invariant. -/
theorem visit (hr : Rooted cx g₀ g) {x : Entry} {em : Emission} {more : List Handle}
    (hf : Frontier g₀ g visited binds (x :: rest)) (hfresh : x.handle ∉ visited)
    (h : Emits cx g (x.handle :: visited) x em more) :
    Frontier g₀ g (em.marks ++ x.handle :: visited) (more ++ binds) (em.entries ++ rest) := by
  -- what is entered is the anchor or a node of the model
  have henter : ∀ {n nd}, x = .node n → n ≠ g.anchor → g.node? n = some nd →
      g₀.IsStart n ∧ g.IsPlace n := by
    rintro n nd rfl hne hnode
    have hs := (hf.enter n (by simp)).resolve_left hne
    exact ⟨hs, hr.anchors.extended.isPlace (hr.before.place_of_isStart hs)⟩
  cases h with
  | @anchor n nd es node kind pending =>
    refine hf.enterNode hr [] pending (by intro h hh; cases hh) fun hne => ?_
    obtain ⟨-, -, nd', hnd', hk⟩ := henter rfl hne node
    rw [node] at hnd'
    cases hnd'
    rcases kind with h | h <;> rcases hk with h' | h' <;> rw [h] at h' <;> cases h'
  | @place n nd es node kind pending =>
    have hne : n ≠ g.anchor := by
      rintro rfl
      obtain ⟨nd', hnd', hk⟩ := hr.regular.anchor
      rw [node] at hnd'
      cases hnd'
      rw [kind] at hk
      cases hk
    obtain ⟨hs, hp⟩ := henter rfl hne node
    refine hf.enterNode hr [.node n] pending ?_ (fun _ => .inl (by simp))
    intro h hh
    exact ⟨by simpa using hh, hp, hs⟩
  | @argument n nd name es node kind named pending =>
    refine hf.enterNode hr [] pending (by intro h hh; cases hh) fun hne => .inr ?_
    exact (henter rfl hne node).2.isArgument node kind
  | @start i e edge kind => exact hf.followStart hr edge kind
  | @constraints i e steps marks edge kind splices =>
    exact (hf.followConstraints hr ⟨e, edge, kind⟩ splices).1
  | @chain i e segment c em more edge kind anonymous segment_ok walks emits =>
    obtain ⟨hi, -, -⟩ := hf.along i (by simp)
    have hs : g.Structural i := structural_of_pattern edge kind
    have hplace : g.IsPlace i.that := hr.regular.isPlace_that hi hs
    have hunnamed : g.Unnamed (.edge i.edge) := by
      rw [unnamed_edge_iff edge, PatternEdge.anonymous, anonymous]
      rfl
    have hseen : ∀ h, h ∈ Handle.edge i.edge :: Handle.edge i.edge :: visited ↔
        h = .edge i.edge ∨ h ∈ visited := by
      intro h
      simp
    have hc := hr.consumed walks hplace
    obtain ⟨hmore, hterm⟩ := hf.terminal_of_chainEmits hs hfresh hseen hc emits rfl rfl
    obtain ⟨hmarks, es, hes, hentries⟩ := ChainEmits.parts emits
    rw [hmarks, hentries]
    have hfc := hf.followChain hr (.edge i.edge :: c.elements ++ [.edge i.edge])
      (.edge i.edge :: c.elements ++ .edge i.edge :: visited) more hs hseen hc
      (by intro h; grind) (by intro h; grind) hes ?_ hterm (fun hu => absurd hunnamed hu)
    · simpa [Entry.handle] using hfc
    · intro h hh
      obtain ⟨heq, hrest⟩ := hmore h hh
      exact ⟨.inl heq, hrest⟩
  | @argumentEdge i e name em more edge kind named far =>
    have hs : g.Structural i := structural_of_argument edge kind
    have hb := hf.followBound hr [] hs hfresh (by intro h hh; cases hh)
      (fun _ => .inr ⟨e, edge, kind⟩) far
    exact hb
  | @namedEdge i e name em more edge kind named identity far =>
    have hs : g.Structural i := structural_of_pattern edge kind
    have hown : ∀ h ∈ [Handle.edge i.edge], h = .edge i.edge ∧ g.Bindable h ∧ ¬ g.Unnamed h := by
      intro h hh
      obtain rfl : h = .edge i.edge := by simpa using hh
      exact ⟨rfl, ⟨e, edge, kind, by rw [named]; rfl⟩,
        fun hu => hu name ((hasName_edge_iff edge).2 named)⟩
    have hb := hf.followBound hr [.edge i.edge] hs hfresh hown (fun _ => .inl (by simp)) far
    exact hb

/-- When nothing is left to look at, everything was visited. -/
theorem complete (hr : Rooted cx g₀ g) (hf : Frontier g₀ g visited binds []) :
    (∀ n, g.IsNode n → .node n ∈ visited) ∧
      ∀ k e, g.edge? k = some e → .edge k ∈ visited := by
  have hroot : .node g.anchor ∈ visited := by
    rcases hf.root with h | h
    · exact h
    · cases h
  -- with nothing pending, no edge of a visited node is left
  have hedge : ∀ i, g.Incident i → .node i.this ∈ visited → .edge i.edge ∈ visited := by
    intro i hi hthis
    refine Classical.byContradiction fun hnew => ?_
    cases hf.pending i hi hthis hnew
  have hnode : ∀ n, g.IsNode n → .node n ∈ visited := by
    intro n hn
    have hj : g.Joined g.anchor n := hr.anchors.anchored n hn
    -- along a path from the anchor: each edge of it was visited, and with it its other end
    induction hj with
    | refl => exact hroot
    | @tail b c _ hbc ih =>
      obtain ⟨i, hi, rfl, rfl⟩ := hbc
      have hin := hedge i hi (ih (hr.regular.consistent.isNode_this hi))
      rcases hf.ends i.reverse hi.reverse hin with h | h
      · exact h
      · cases h
  refine ⟨hnode, fun k e he => ?_⟩
  have hi : g.Incident (e.seen k .out) := .seen he .out
  have := hedge _ hi (hnode _ (hr.regular.consistent.isNode_this hi))
  simpa using this

/-- When nothing is left to look at, everything that has a name was visited. -/
theorem mem_of_hasName (hr : Rooted cx g₀ g) (hf : Frontier g₀ g visited binds []) {b : Handle}
    {name : String} (hname : g.HasName b name) : b ∈ visited := by
  obtain ⟨hnodes, hedges⟩ := hf.complete hr
  cases b with
  | node n => exact hnodes n hname.1
  | edge k =>
    obtain ⟨e, he, -⟩ := Option.bind_eq_some_iff.1 hname
    exact hedges k e he

end Frontier

-- ---------------------------------------------------------------------------
-- Courses
-- ---------------------------------------------------------------------------

/-- A course of visits: from what is visited, bound and on the stack, by some steps, to what is
visited and bound in the end. -/
inductive Explores (cx : Context) (g₀ g : PatternGraph) :
    List Handle → List Handle → List Entry → List Step → List Handle → List Handle → Prop
  | done {visited binds : List Handle} : Explores cx g₀ g visited binds [] [] visited binds
  | skip {visited binds visited' binds' : List Handle} {x : Entry} {rest : List Entry}
      {steps : List Step} (seen : x.handle ∈ visited)
      (more : Explores cx g₀ g visited binds rest steps visited' binds') :
      Explores cx g₀ g visited binds (x :: rest) steps visited' binds'
  | visit {visited binds visited' binds' own : List Handle} {x : Entry} {em : Emission}
      {rest : List Entry} {steps : List Step}
      (frontier : Frontier g₀ g visited binds (x :: rest)) (fresh : x.handle ∉ visited)
      (emits : Emits cx g (x.handle :: visited) x em own)
      (more : Explores cx g₀ g (em.marks ++ x.handle :: visited) (own ++ binds)
        (em.entries ++ rest) steps visited' binds') :
      Explores cx g₀ g visited binds (x :: rest) (em.steps ++ steps) visited' binds'

/-- The walk goes along a course. -/
theorem Walks.explores (hr : Rooted cx g₀ g) {stack : List Entry} {steps : List Step}
    (h : Walks cx g visited stack steps) (hf : Frontier g₀ g visited binds stack) :
    ∃ visited' binds', Explores cx g₀ g visited binds stack steps visited' binds' ∧
      Frontier g₀ g visited' binds' [] := by
  -- along the walk: the frontier's invariant is carried over each visit
  induction h generalizing binds with
  | done => exact ⟨_, _, .done, hf⟩
  | @seenNode visited n rest steps seen _ ih =>
    obtain ⟨v, b, hex, hend⟩ := ih (hf.skip seen)
    exact ⟨v, b, .skip (x := .node n) seen hex, hend⟩
  | @seenEdge visited i rest steps seen _ ih =>
    obtain ⟨v, b, hex, hend⟩ := ih (hf.skip seen)
    exact ⟨v, b, .skip (x := .along i) seen hex, hend⟩
  | @node visited n nd em rest steps fresh node visit _ ih =>
    -- what is entered as a node is one
    have hn : g.IsNode n := by
      rcases hf.enter n (by simp) with rfl | hs
      · exact isNode_anchor hr.regular.consistent.inhabited
      · exact hr.anchors.extended.isNode hs.isNode
    obtain ⟨own, hem⟩ := visitNode_emits hr.regular hn node visit
    obtain ⟨v, b, hex, hend⟩ := ih (hf.visit hr fresh hem)
    exact ⟨v, b, .visit hf fresh hem hex, hend⟩
  | @edge visited i edge em rest steps fresh edge_ok visit _ ih =>
    obtain ⟨own, hem⟩ := visitIncidence_emits hr.regular edge_ok visit
    obtain ⟨v, b, hex, hend⟩ := ih (hf.visit hr fresh hem)
    exact ⟨v, b, .visit hf fresh hem hex, hend⟩

/-- The steps of a plan are those of a course from the anchor to the end. -/
theorem explores_of_ofGraph (hr : Rooted cx g₀ g) {p : Plan} (h : ofGraph cx g = .ok p) :
    p.arguments = cx.arguments ∧ p.engine = cx.engine ∧ checkEdges cx g = .ok () ∧
      ∃ visited binds, Explores cx g₀ g [] [] [.node g.anchor] p.steps visited binds ∧
        Frontier g₀ g visited binds [] := by
  simp only [ofGraph, bind, Except.bind] at h
  split at h
  · cases h
  · rename_i u hcheck
    split at h
    · cases h
    · rename_i steps hsteps
      split at h
      · cases h
      · cases h
        have hwalks := walks_of_explore hsteps
        exact ⟨rfl, rfl, hcheck, hwalks.explores hr (.start g₀ g)⟩

end Plan

end GraphPattern
