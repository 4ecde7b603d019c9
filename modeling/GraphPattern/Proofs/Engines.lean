import Mathlib
import GraphPattern.Proofs.Answers
import GraphPattern.Proofs.Segments

/-!
# GraphPattern — one pattern, two engines

A pattern has the same graph for both engines. The engine of references refuses edges with names
before the walk, and otherwise walks the graph like the engine of edges, up to the first edge that it
would have to follow against its direction. Whether there is one is decided by the walk, and not by how
the edge is written.

## Results

* `Plan.narrows_explore` — both walks, side by side.
* `compile_engines` — when a pattern compiles for either engine, and to what.
-/

namespace GraphPattern

/-- The same pattern for another engine. -/
def Context.on (cx : Context) (engine : Engine) : Context :=
  { cx with engine }

-- ---------------------------------------------------------------------------
-- Two results side by side
-- ---------------------------------------------------------------------------

/-- The second result is the first one as long as it keeps to a rule. What breaks the rule is refused
for the direction of an edge. -/
inductive Narrows {α : Type} (Keeps : α → Prop) : Except Failure α → Except Failure α → Prop
  | kept {a : α} (keeps : Keeps a) : Narrows Keeps (.ok a) (.ok a)
  | refused {a : α} {d : Diagnostic} (breaks : ¬ Keeps a) (kind : d.kind = .edgeDirection) :
      Narrows Keeps (.ok a) (.error (.refused d))
  | failed {f f' : Failure} : Narrows Keeps (.error f) (.error f')

namespace Narrows

variable {α β : Type} {Keeps : α → Prop} {Keeps' : β → Prop} {r r' : Except Failure α}

/-- A result that keeps to the rule anyway. -/
theorem same (h : ∀ a, r = .ok a → Keeps a) : Narrows Keeps r r := by
  cases r with
  | error f => exact .failed
  | ok a => exact .kept (h a rfl)

/-- One computation after another. Going on from what breaks the rule does not mend it. -/
theorem bind {k k' : α → Except Failure β} (h : Narrows Keeps r r')
    (hkept : ∀ a, Keeps a → Narrows Keeps' (k a) (k' a))
    (hbroken : ∀ a b, ¬ Keeps a → k a = .ok b → ¬ Keeps' b) :
    Narrows Keeps' (r >>= k) (r' >>= k') := by
  cases h with
  | kept keeps => exact hkept _ keeps
  | failed => exact .failed
  | @refused a d breaks kind =>
    show Narrows Keeps' (k a) _
    cases hk : k a with
    | error f => exact .failed
    | ok b => exact .refused (hbroken a b breaks hk) kind

/-- The same goes on after either result. -/
theorem after {k : α → β} (h : Narrows Keeps r r') (hk : ∀ a, Keeps' (k a) ↔ Keeps a) :
    Narrows Keeps' (r >>= fun a => .ok (k a)) (r' >>= fun a => .ok (k a)) := by
  refine h.bind (fun a ha => .kept ((hk a).2 ha)) fun a b ha hb => ?_
  cases hb
  exact fun hkeeps => ha ((hk a).1 hkeeps)

end Narrows

variable {cx : Context} {g : PatternGraph}

/-- Only the engine of references minds the direction of an edge. -/
theorem Context.narrows_edgeSegment (hcx : cx.engine = .graph) (e : PatternEdge) (d : Direction) :
    Narrows (fun s => s.backward = false) (cx.edgeSegment e d)
      ((cx.on .containment).edgeSegment e d) := by
  cases d with
  | out =>
    simp only [edgeSegment, hcx, on]
    exact .kept rfl
  | into =>
    simp only [edgeSegment, hcx, on]
    exact .refused (by simp [Segment.backward]) rfl

-- ---------------------------------------------------------------------------
-- Chains
-- ---------------------------------------------------------------------------

namespace Chain

theorem forward_restriction (nd : PatternNode) : (restriction nd).Forward := by
  unfold restriction
  split
  · split
    · intro s hs
      cases hs
    · intro s hs
      rw [List.mem_singleton.1 hs]
      rfl
  · intro s hs
    cases hs

/-- A chain is refused where it would have to go against the direction of an edge. -/
theorem narrows_walk (hcx : cx.engine = .graph) (n : NodeId) (visited : List Handle) :
    Narrows (fun c => c.path.Forward) (walk cx g n visited)
      (walk (cx.on .containment) g n visited) := by
  -- on how much is unseen; a step that the other engine refuses is one against an edge
  induction hm : unseen g.handles visited using Nat.strongRecOn generalizing n visited with
  | ind m ih =>
    cases hnode : g.node? n with
    | none =>
      rw [walk_missing hnode, walk_missing hnode]
      exact .failed
    | some nd =>
      by_cases hknown : nd.anonymous = false ∨ .node n ∈ visited
      · rw [walk_known hnode hknown, walk_known hnode hknown]
        exact .kept (forward_restriction nd)
      · rw [walk_fresh hnode hknown, walk_fresh hnode hknown]
        have hsame : Narrows (fun _ => True)
            (Failure.ofFault (pending g n (.node n :: visited))) _ := .same fun _ _ => trivial
        refine hsame.bind (fun left _ => ?_) fun left _ hnot => absurd trivial hnot
        unfold onward
        split
        · exact .kept (forward_restriction nd)
        · rename_i i e honly
          split
          · refine (cx.narrows_edgeSegment hcx e i.direction).bind (fun segment hs => ?_) ?_
            · -- the segment is allowed: the path goes forward as far as the rest of it does
              have hrest := ih _ ?_ i.that (.edge i.edge :: .node n :: visited) rfl
              · refine hrest.after fun rest => ?_
                simp only [Path.forward_append, Path.forward_cons, hs, forward_restriction nd,
                  true_and]
              · rw [← hm]
                exact unseen_lt (PatternGraph.mem_handles_of_node? hnode)
                  (fun hmem => hknown (.inr hmem)) (by simp) (fun y hy => by simp [hy])
            · -- the segment is refused: no path through it goes forward
              intro segment c hs hc
              cases hw : walk cx g i.that (.edge i.edge :: .node n :: visited) with
              | error f => rw [hw] at hc; cases hc
              | ok rest =>
                rw [hw] at hc
                cases hc
                exact fun hf => hs (Path.forward_cons.1 (Path.forward_append.1 hf).2).1
          · exact .kept (forward_restriction nd)
        · exact .failed

theorem narrows_fromEdge (hcx : cx.engine = .graph) (i : Incidence) (visited : List Handle) :
    Narrows (fun c => c.path.Forward) (fromEdge cx g i visited)
      (fromEdge (cx.on .containment) g i visited) := by
  unfold fromEdge
  cases g.edge? i.edge with
  | none => exact .failed
  | some e =>
    refine (cx.narrows_edgeSegment hcx e i.direction).bind (fun segment hs => ?_) ?_
    · refine (narrows_walk hcx i.that _).after fun rest => ?_
      simp only [Path.forward_cons, hs, true_and]
    · intro segment c hs hc
      cases hw : walk cx g i.that (.edge i.edge :: visited) with
      | error f => rw [hw] at hc; cases hc
      | ok rest =>
        rw [hw] at hc
        cases hc
        exact fun hf => hs (Path.forward_cons.1 hf).1

end Chain

-- ---------------------------------------------------------------------------
-- The walk
-- ---------------------------------------------------------------------------

namespace Plan

/-- A chain emits its path, and no other. -/
theorem pathsOf_emitChain {start : Expr} {c : Chain} {visited : List Handle} {em : Emission}
    (h : emitChain g start c visited = .ok em) : pathsOf em.steps = start.segments ++ c.path := by
  obtain ⟨bs, hemits⟩ := emitChain_emits h
  cases hemits <;> simp [pathsOf, Step.segments, Expr.segments]

theorem narrows_emitChain {r r' : Except Failure Chain}
    (h : Narrows (fun c => c.path.Forward) r r') {start : Expr} (hstart : start.segments = [])
    (visited : List Handle) :
    Narrows (fun em => (pathsOf em.steps).Forward) (r >>= fun c => emitChain g start c visited)
      (r' >>= fun c => emitChain g start c visited) := by
  refine h.bind (fun c hc => .same fun em hem => ?_) fun c em hc hem => ?_
  · rw [pathsOf_emitChain hem, hstart]
    exact hc
  · rw [pathsOf_emitChain hem, hstart]
    exact hc

theorem steps_of_emission {r : Except Failure (List Entry)} {steps : List Step}
    {marks : List Handle} {em : Emission}
    (h : (do return { steps, marks, entries := ← r } : Except Failure Emission) = .ok em) :
    em.steps = steps := by
  cases r with
  | error f => cases h
  | ok es => cases h; rfl

theorem narrows_bindFarEnd (hcx : cx.engine = .graph) (i : Incidence) {edge : Expr}
    (hedge : edge.segments = []) (visited : List Handle) :
    Narrows (fun em => (pathsOf em.steps).Forward) (bindFarEnd cx g i edge visited)
      (bindFarEnd (cx.on .containment) g i edge visited) := by
  have hplain : ∀ {r : Except Failure (List Entry)} {steps : List Step} {marks : List Handle},
      pathsOf steps = [] → Narrows (fun em => (pathsOf em.steps).Forward)
        (do return { steps, marks, entries := ← r } : Except Failure Emission)
        (do return { steps, marks, entries := ← r } : Except Failure Emission) := by
    intro r steps marks hsteps
    refine .same fun em hem => ?_
    rw [steps_of_emission hem, hsteps]
    exact fun s hs => absurd hs List.not_mem_nil
  unfold bindFarEnd
  cases g.node? i.that with
  | none => exact .failed
  | some target =>
    simp only
    -- a far end known or named is reached by no path, otherwise a chain goes on
    split
    · exact hplain (by simp [pathsOf, Step.segments, Expr.segments, hedge])
    · cases target.name? with
      | none =>
        have hthat : (Expr.edgeEnd edge i.direction true).segments = [] := hedge
        exact narrows_emitChain (Chain.narrows_walk hcx i.that visited) hthat visited
      | some name =>
        refine hplain ?_
        cases target.typeName? with
        | none => simp [pathsOf, Step.segments, Expr.segments, hedge]
        | some t =>
          simp only
          split <;> simp [pathsOf, Step.segments, Expr.segments, hedge]

/-- Edges that both engines can walk along: none has a name. -/
def Nameless (g : PatternGraph) : Prop :=
  ∀ e ∈ g.edges, e.kind.structural = true → e.name? = none

theorem Splices.pathsOf_eq {n : NodeId} {visited marks : List Handle} {steps : List Step}
    (h : Splices g n visited steps marks) : pathsOf steps = [] := by
  induction h with
  | last => simp [pathsOf, pathsOf_constraintStep]
  | next _ _ _ _ ih =>
    rw [pathsOf, List.flatMap_cons, pathsOf_constraintStep]
    exact ih

/-- What one visit emits goes on with what another one does. -/
theorem narrows_cons {r r' : Except Failure Emission} {s : Step} (hs : s.segments = [])
    (h : Narrows (fun em => (pathsOf em.steps).Forward) r r') :
    Narrows (fun em => (pathsOf em.steps).Forward)
      (r >>= fun em => .ok { em with steps := s :: em.steps })
      (r' >>= fun em => .ok { em with steps := s :: em.steps }) := by
  refine h.after fun em => ?_
  rw [pathsOf, List.flatMap_cons, hs]
  rfl

theorem narrows_visitIncidence (hcx : cx.engine = .graph) {i : Incidence} {e : PatternEdge}
    (he : e.kind.structural = true → e.name? = none) (visited : List Handle) :
    Narrows (fun em => (pathsOf em.steps).Forward) (visitIncidence cx g i e visited)
      (visitIncidence (cx.on .containment) g i e visited) := by
  unfold visitIncidence
  cases hk : e.kind with
  | start => exact .kept fun s hs => absurd hs List.not_mem_nil
  | precedes =>
    refine .same fun em hem => ?_
    cases hs : spliceConstraints g i.that visited with
    | error f => rw [hs] at hem; cases hem
    | ok r =>
      rw [hs] at hem
      cases hem
      rw [(splices_of_spliceConstraints hs).pathsOf_eq]
      exact fun s hs => absurd hs List.not_mem_nil
  | pattern =>
    rw [he (by rw [hk]; rfl)]
    exact narrows_emitChain (Chain.narrows_fromEdge hcx i visited) rfl visited
  | argument =>
    rw [he (by rw [hk]; rfl)]
    exact narrows_cons rfl (narrows_bindFarEnd hcx i rfl visited)

/-- What was emitted before only matters if it breaks the rule. -/
theorem narrows_append {r r' : Except Failure Emission}
    {more more' : Emission → Except Failure (List Step)}
    (h : Narrows (fun em => (pathsOf em.steps).Forward) r r')
    (hmore : ∀ em, Narrows (fun steps => (pathsOf steps).Forward) (more em) (more' em)) :
    Narrows (fun steps => (pathsOf steps).Forward)
      (r >>= fun em => more em >>= fun steps => .ok (em.steps ++ steps))
      (r' >>= fun em => more' em >>= fun steps => .ok (em.steps ++ steps)) := by
  refine h.bind (fun em hem => (hmore em).after fun steps => ?_) fun em steps hem hsteps => ?_
  · rw [pathsOf_append, Path.forward_append, and_iff_right hem]
  · cases hs : more em with
    | error f => rw [hs] at hsteps; cases hsteps
    | ok steps =>
      rw [hs] at hsteps
      cases hsteps
      rw [pathsOf_append, Path.forward_append]
      exact fun hf => hem hf.1

theorem pathsOf_nodeSteps (g : PatternGraph) (n : NodeId) (nd : PatternNode) :
    pathsOf (nodeSteps g n nd) = [] := by
  unfold nodeSteps
  split <;> rfl

/-- Both walks, side by side. -/
theorem narrows_explore (hcx : cx.engine = .graph) (hg : Nameless g) (visited : List Handle)
    (stack : List Entry) :
    Narrows (fun steps => (pathsOf steps).Forward) (explore cx g visited stack)
      (explore (cx.on .containment) g visited stack) := by
  -- along the exploration, where only a followed edge has a path
  fun_induction explore cx g visited stack with
  | case1 visited =>
    rw [explore]
    exact .kept fun s hs => absurd hs List.not_mem_nil
  | case2 visited n rest hv ih =>
    rw [explore, dif_pos hv]
    exact ih
  | case3 visited n rest hv hnode =>
    rw [explore, dif_neg hv]
    split
    · exact .failed
    · rename_i hsome
      rw [hnode] at hsome
      cases hsome
  | case4 visited n rest hv nd hnode ih =>
    rw [explore_node hv hnode]
    refine narrows_append (.same fun em hem => ?_) ih
    rw [steps_of_emission hem, pathsOf_nodeSteps]
    exact fun s hs => absurd hs List.not_mem_nil
  | case5 visited i rest hv ih =>
    rw [explore, dif_pos hv]
    exact ih
  | case6 visited i rest hv hedge =>
    rw [explore, dif_neg hv]
    split
    · exact .failed
    · rename_i hsome
      rw [hedge] at hsome
      cases hsome
  | case7 visited i rest hv edge hedge ih =>
    rw [explore_along hv hedge]
    exact narrows_append (narrows_visitIncidence hcx (hg edge (List.mem_of_getElem? hedge)) _) ih

-- ---------------------------------------------------------------------------
-- Edges with names
-- ---------------------------------------------------------------------------

/-- Checking a list ends at its first member that does not pass, if there is one. -/
theorem forM_cases {α : Type} (f : α → Except Failure Unit) (xs : List α) :
    (xs.forM f = .ok () ∧ ∀ x ∈ xs, f x = .ok ()) ∨
      ∃ x ∈ xs, ∃ e, f x = .error e ∧ xs.forM f = .error e := by
  induction xs with
  | nil => exact .inl ⟨rfl, fun x hx => nomatch hx⟩
  | cons x xs ih =>
    simp only [List.forM, bind, Except.bind]
    cases hx : f x with
    | error e => exact .inr ⟨x, by simp, e, hx, rfl⟩
    | ok u =>
      rcases ih with ⟨hok, hall⟩ | ⟨y, hy, e, hfy, herr⟩
      · refine .inl ⟨hok, fun y hy => ?_⟩
        rcases List.mem_cons.1 hy with rfl | hy
        · exact hx
        · exact hall y hy
      · exact .inr ⟨y, List.mem_cons_of_mem _ hy, e, hfy, herr⟩

/-- The engine of references refuses edges that have names, and no others. -/
theorem checkEdges_cases (hg : g.Regular cx) :
    (Nameless g ∧ checkEdges (cx.on .containment) g = .ok ()) ∨
      (¬ Nameless g ∧ ∃ d, checkEdges (cx.on .containment) g = .error (.refused d) ∧
        (d.kind = .namedEdge ∨ d.kind = .argumentEdge)) := by
  show (_ ∧ g.edges.forM (checkEdge (cx.on .containment)) = _) ∨
    (_ ∧ ∃ d, g.edges.forM (checkEdge (cx.on .containment)) = _ ∧ _)
  rcases forM_cases (checkEdge (cx.on .containment)) g.edges with ⟨hok, hall⟩ | ⟨e, he, f, hf, herr⟩
  · -- without names no edge is refused
    refine .inl ⟨fun e he hs => ?_, hok⟩
    have hpass := hall e he
    unfold checkEdge at hpass
    cases hk : e.kind <;> rw [hk] at hs hpass
    case precedes => cases hs
    case start => cases hs
    case argument => cases hpass
    case pattern =>
      cases hn : e.name? with
      | none => rfl
      | some name => rw [hn] at hpass; cases hpass
  · -- the edge refused has a name, its own or the argument's
    refine .inr ⟨fun hnone => ?_, ?_⟩
    · have hfits := hg.edge e he
      unfold PatternGraph.EdgeFits at hfits
      unfold checkEdge at hf
      cases hk : e.kind <;> rw [hk] at hf hfits
      case precedes => cases hf
      case start => cases hf
      case argument =>
        obtain ⟨-, -, name, -, hname⟩ := hfits
        rw [hnone e he (by rw [hk]; rfl)] at hname
        cases hname
      case pattern =>
        rw [hnone e he (by rw [hk]; rfl)] at hf
        cases hf
    · rw [herr]
      unfold checkEdge at hf
      split at hf
      · cases hf
        exact ⟨_, rfl, .inr rfl⟩
      · cases hf
        exact ⟨_, rfl, .inl rfl⟩
      · cases hf

end Plan

namespace PatternGraph

/-- The names of the edges of a graph, in their order. -/
def edgeNames (g : PatternGraph) : List String :=
  g.edges.filterMap (·.name?)

theorem edgeNames_append {g' : PatternGraph} {e : PatternEdge}
    (h : g'.edges = g.edges ++ [e]) : g'.edgeNames = g.edgeNames ++ e.name?.toList := by
  rw [edgeNames, h, List.filterMap_append]
  cases hn : e.name? <;> simp [edgeNames, hn]

/-- The edges of the graph of a pattern have the names of its edge tokens. -/
theorem Reading.Reads.edgeNames_eq {r : Reading} {ts : List Token} {hs : List Handle}
    (h : Reading.Reads cx r ts hs g) :
    g.edgeNames = r.graph.edgeNames ++ ts.filterMap Token.edgeName? := by
  induction h with
  | done => simp
  | @constraint r r' t ts hs g step _ ih =>
    obtain ⟨k, hadd, -, -⟩ := Reading.constrain_ok step
    rw [ih, edgeNames_append (edges_of_addEdge hadd)]
    simp [List.filterMap_cons, Token.edgeName?, precedesEdge, edgeNames, addNode]
  | @node r t n g₁ g ts hs step _ ih =>
    rw [ih, PatternGraph.edgeNames, Reading.edges_of_resolve step]
    simp [List.filterMap_cons, Token.edgeName?, PatternGraph.edgeNames]
  | @edge r t next n g₁ g₂ g ts hs source target step _ ih =>
    obtain ⟨-, k, hadd⟩ := Reading.connect_ok step
    rw [ih, edgeNames_append (edges_of_addEdge hadd), PatternGraph.edgeNames,
      Reading.edges_of_resolve target]
    cases hn : t.name? <;>
      simp [List.filterMap_cons, Token.edgeName?, placeEdge, hn, PatternGraph.edgeNames]

/-- Without names among the edge tokens there are none among the edges that are compiled. -/
theorem nameless_iff {g₀ : PatternGraph} (hr : Rooted cx g₀ g) {ts : List Token}
    (h : PatternGraph.ofTokens cx ts = .ok g₀) :
    Plan.Nameless g ↔ ts.filterMap Token.edgeName? = [] := by
  obtain ⟨hs, hreads⟩ := Reading.reads_of_run h
  have hnames : g₀.edgeNames = ts.filterMap Token.edgeName? := by
    rw [hreads.edgeNames_eq]
    rfl
  rw [← hnames, edgeNames, List.filterMap_eq_nil_iff]
  -- the edges added for the anchors have no name, nor have those that order
  constructor
  · intro hnone e he
    cases hs : e.kind.structural with
    | true => exact hnone e (by rw [hr.anchors.edges]; exact List.mem_append_left _ he) hs
    | false =>
      have hfits := hr.before.edge e he
      unfold EdgeFits at hfits
      cases hk : e.kind <;> rw [hk] at hs hfits
      case start => exact hfits.1
      case precedes => exact hfits.1
      case pattern => cases hs
      case argument => cases hs
  · intro hnone e he hs
    rw [hr.anchors.edges] at he
    rcases List.mem_append.1 he with he | he
    · exact hnone e he
    · obtain ⟨n, -, rfl⟩ := List.mem_map.1 he
      rfl

end PatternGraph

-- ---------------------------------------------------------------------------
-- Compilation
-- ---------------------------------------------------------------------------

namespace PatternGraph.Reading

/-- Reading does not depend on the engine. -/
theorem run_on (cx : Context) (engine : Engine) (r : Reading) (ts : List Token) :
    run (cx.on engine) r ts = run cx r ts := by
  fun_induction run cx r ts with
  | case1 r => rfl
  | case2 r t ts ih => exact congrArg _ (funext ih)
  | case3 r t ts ih =>
    rw [run]
    exact congrArg _ (funext fun x => ih x.1 x.2)
  | case4 r t ts hsource =>
    unfold run
    rw [if_pos hsource]
    rfl
  | case5 r t hsource next ts ih =>
    rw [run, if_neg hsource]
    exact congrArg _ (funext fun x => congrArg _ (funext fun g => ih x.1 g))
  | case6 r t ts hsource hnext =>
    unfold run
    rw [if_neg hsource]
    split
    · exact absurd rfl (hnext _ _)
    · rfl

end PatternGraph.Reading

theorem Context.anchoredGraph_on (cx : Context) (engine : Engine) :
    (cx.on engine).anchoredGraph = cx.anchoredGraph := by
  have hgraph : (cx.on engine).graph = cx.graph := by
    show (Token.classify cx.elements >>= fun ts => PatternGraph.Reading.run (cx.on engine) {} ts) =
      (Token.classify cx.elements >>= fun ts => PatternGraph.Reading.run cx {} ts)
    simp only [PatternGraph.Reading.run_on]
  rw [anchoredGraph, hgraph]
  rfl

namespace Plan

theorem checkBindings_on (cx : Context) (engine : Engine) (g? : Option PatternGraph)
    (bound : List String) (bs : List (String × Expr)) :
    checkBindings (cx.on engine) g? bound bs = checkBindings cx g? bound bs := by
  induction bs generalizing bound with
  | nil => rfl
  | cons b bs ih => exact congrArg _ (funext fun _ => ih (b.1 :: bound))

/-- The checks of a finished plan do not depend on the engine. -/
theorem check_on (cx : Context) (engine : Engine) (g? : Option PatternGraph) (p : Plan) :
    p.check (cx.on engine) g? = p.check cx g? := by
  have hstep : checkStep (cx.on engine) g? = checkStep cx g? := by
    funext bound s
    cases s with
    | assignAll bs => exact checkBindings_on cx engine g? bound bs
    | _ => rfl
  rw [check, hstep]
  rfl

end Plan

/-- Some edge of the pattern has a name of its own, or that of an argument. -/
def Pattern.NamesEdge (elements : List Element) : Prop :=
  ∃ ts t, Token.classify elements = .ok ts ∧ .edge t ∈ ts ∧ t.name? ≠ none

theorem Pattern.namesEdge_iff {elements : List Element} {ts : List Token}
    (hts : Token.classify elements = .ok ts) :
    NamesEdge elements ↔ ts.filterMap Token.edgeName? ≠ [] := by
  rw [NamesEdge, ne_eq, List.filterMap_eq_nil_iff]
  constructor
  · rintro ⟨ts', t, hts', ht, hname⟩ hnone
    rw [hts] at hts'
    cases hts'
    exact hname (hnone _ ht)
  · intro hsome
    simp only [Classical.not_forall] at hsome
    obtain ⟨t, ht, hname⟩ := hsome
    cases t with
    | edge t => exact ⟨ts, t, hts, ht, hname⟩
    | node t => exact absurd rfl hname
    | constraint t => exact absurd rfl hname

open Plan in
/-- What becomes of a pattern for the engine of references once it compiles for that of edges. -/
theorem Context.compile_containment {cx : Context} (hcx : cx.engine = .graph) {plan : Plan}
    (h : cx.compile = .ok plan) :
    (Pattern.NamesEdge cx.elements ∧ ∃ d, (cx.on .containment).compile = .error (.refused d) ∧
        (d.kind = .namedEdge ∨ d.kind = .argumentEdge)) ∨
      (¬ Pattern.NamesEdge cx.elements ∧ ¬ plan.Forward ∧ ∃ d,
        (cx.on .containment).compile = .error (.refused d) ∧ d.kind = .edgeDirection) ∨
      (¬ Pattern.NamesEdge cx.elements ∧ plan.Forward ∧
        (cx.on .containment).compile = .ok { plan with engine := .containment }) := by
  obtain ⟨g, p, hg, hp, hcheck, rfl⟩ := compile_ok h
  obtain ⟨ts, g₀, hts, hg₀, hr⟩ := rooted_of_anchoredGraph hg
  obtain ⟨-, hexplore, hunnamed, hargs, -⟩ := ofGraph_eq_ok_iff.1 hp
  have hg' : (cx.on .containment).anchoredGraph = .ok g := by rw [anchoredGraph_on, hg]
  have hnames : Pattern.NamesEdge cx.elements ↔ ¬ Nameless g := by
    rw [PatternGraph.nameless_iff hr hg₀, Pattern.namesEdge_iff hts]
  rw [hnames, Classical.not_not]
  rcases checkEdges_cases hr.regular with ⟨hnameless, hedges⟩ | ⟨hnamed, d, hedges, hkind⟩
  · -- no edge has a name: the plan is kept, or the path that goes against an edge is refused
    have hnarrows := narrows_explore hcx hnameless [] [.node g.anchor]
    rw [hexplore] at hnarrows
    have hforward : p.expanded.Forward ↔ (pathsOf p.steps).Forward := by
      rw [Plan.Forward, segments_expanded, segments]
    cases hsteps : explore (cx.on .containment) g [] [.node g.anchor] with
    | error f =>
      rw [hsteps] at hnarrows
      cases hnarrows with
      | refused breaks kind =>
        refine .inr (.inl ⟨hnameless, fun hf => breaks (hforward.1 hf), _, ?_, kind⟩)
        simp only [compile, hg', ofGraph, hedges, hsteps, bind, Except.bind]
    | ok steps =>
      rw [hsteps] at hnarrows
      cases hnarrows with
      | kept keeps =>
        let p' : Plan := { p with engine := .containment }
        have hp' : ofGraph (cx.on .containment) g = .ok p' :=
          ofGraph_eq_ok_iff.2 ⟨hedges, hsteps, hunnamed, hargs, rfl⟩
        have hcheck' : p'.expanded.check (cx.on .containment) g = .ok () := by
          rw [check_on]
          exact hcheck
        refine .inr (.inr ⟨hnameless, hforward.2 keeps, ?_⟩)
        simp only [compile, hg', hp', hcheck', bind, Except.bind]
        rfl
  · -- an edge has a name: it is refused before anything is explored
    refine .inl ⟨hnamed, d, ?_, hkind⟩
    simp only [compile, hg', ofGraph, hedges, bind, Except.bind]

open Plan in
/-- What compiles for the engine of references compiles for that of edges, to the same steps. -/
theorem Context.compile_graph {cx : Context} (hcx : cx.engine = .graph) {plan : Plan}
    (h : (cx.on .containment).compile = .ok plan) :
    cx.compile = .ok { plan with engine := .graph } := by
  obtain ⟨g, p, hg, hp, hcheck, rfl⟩ := compile_ok h
  rw [anchoredGraph_on] at hg
  obtain ⟨ts, g₀, hts, hg₀, hr⟩ := rooted_of_anchoredGraph hg
  obtain ⟨hedges, hexplore, hunnamed, hargs, -⟩ := ofGraph_eq_ok_iff.1 hp
  rcases checkEdges_cases hr.regular with ⟨hnameless, -⟩ | ⟨-, d, hbad, -⟩
  · have hnarrows := narrows_explore hcx hnameless [] [.node g.anchor]
    rw [hexplore] at hnarrows
    -- the wider engine explores as the narrower one did, which refused nothing
    have hsame : explore cx g [] [.node g.anchor] = .ok p.steps := by
      cases hsteps : explore cx g [] [.node g.anchor] with
      | error f => rw [hsteps] at hnarrows; cases hnarrows
      | ok steps => rw [hsteps] at hnarrows; cases hnarrows; rfl
    have hgraph : checkEdges cx g = .ok () := by
      rw [checkEdges, hcx]
      rfl
    let p' : Plan := { p with engine := .graph }
    have hp' : ofGraph cx g = .ok p' :=
      ofGraph_eq_ok_iff.2 ⟨hgraph, hsame, hunnamed, hargs, hcx.symm⟩
    have hcheck' : p'.expanded.check cx g = .ok () := by
      rw [check_on] at hcheck
      exact hcheck
    simp only [compile, hg, hp', hcheck', bind, Except.bind]
    rfl
  · rw [hbad] at hedges
    cases hedges

/-- A request is compiled once its pattern is split into elements. -/
theorem compile_eq (arguments : List String) (pattern : Element) (engine : Engine) :
    compile arguments pattern (.text engine.name) =
      (Pattern.elements? pattern >>= fun elements =>
        Context.compile { arguments, elements, engine }) := by
  have hengine : resolveEngine (.text engine.name) = .ok engine := by
    cases engine <;> rfl
  rw [compile, Context.ofRequest, hengine]
  cases Pattern.elements? pattern <;> rfl

/-- For the engine of references, a pattern that compiles for that of edges is refused for its first
edge with a name, or else for the first edge that would be followed against its direction, or else it
has the same steps. What compiles for the engine of references compiles for that of edges. -/
theorem compile_engines (arguments : List String) (pattern : Element) :
    (∀ plan, compile arguments pattern (.text Engine.graph.name) = .ok plan →
      ∃ elements, Pattern.elements? pattern = .ok elements ∧
        ((Pattern.NamesEdge elements ∧ ∃ d,
            compile arguments pattern (.text Engine.containment.name) = .error (.refused d) ∧
            (d.kind = .namedEdge ∨ d.kind = .argumentEdge)) ∨
          (¬ Pattern.NamesEdge elements ∧ ¬ plan.Forward ∧ ∃ d,
            compile arguments pattern (.text Engine.containment.name) = .error (.refused d) ∧
            d.kind = .edgeDirection) ∨
          (¬ Pattern.NamesEdge elements ∧ plan.Forward ∧
            compile arguments pattern (.text Engine.containment.name) =
              .ok { plan with engine := .containment }))) ∧
    ∀ plan, compile arguments pattern (.text Engine.containment.name) = .ok plan →
      compile arguments pattern (.text Engine.graph.name) = .ok { plan with engine := .graph } := by
  simp only [compile_eq]
  cases hp : Pattern.elements? pattern with
  | error f => constructor <;> intro plan h <;> cases h
  | ok elements =>
    let cx : Context := { arguments, elements, engine := .graph }
    have hcx : cx.engine = .graph := rfl
    exact ⟨fun plan h => ⟨elements, rfl, Context.compile_containment hcx h⟩,
      fun plan h => Context.compile_graph hcx h⟩

/-- Two edges to one node, the second of which is met at its end. -/
def meeting : Context :=
  { arguments := []
    elements := [.text "a", .text "-->", .text "b", .text "c", .text "-->", .text "b"]
    engine := .graph }

def meetingPlan : Plan :=
  { steps := [.generate "a" (.instances .any), .generate "b" (.reachable (.var "a") [.step .out .any]),
      .generate "c" (.reachable (.var "b") [.step .into .any])]
    arguments := [], engine := .graph }

/-- Both edges are written forward, and still the second one is followed backward. -/
theorem compile_engines_meeting :
    compile [] (.list meeting.elements) (.text Engine.graph.name) = .ok meetingPlan ∧
      ∃ d, compile [] (.list meeting.elements) (.text Engine.containment.name) =
        .error (.refused d) ∧ d.kind = .edgeDirection := by
  have hcompile : meeting.compile = .ok meetingPlan := by cbv
  have hgraph : compile [] (.list meeting.elements) (.text Engine.graph.name) =
      .ok meetingPlan := by
    simp only [compile_eq, Pattern.elements?, bind, Except.bind]
    exact hcompile
  have hbackward : ¬ meetingPlan.Forward :=
    fun hf => absurd (hf (.step .into .any) (by decide)).symm Bool.false_ne_true
  have hnameless : ¬ Pattern.NamesEdge meeting.elements := by
    have htokens : ∃ ts, Token.classify meeting.elements = .ok ts ∧
        ts.filterMap Token.edgeName? = [] := ⟨_, by cbv, by cbv⟩
    obtain ⟨ts, hts, hnone⟩ := htokens
    rw [Pattern.namesEdge_iff hts, hnone]
    exact fun h => h rfl
  refine ⟨hgraph, ?_⟩
  obtain ⟨elements, hel, hcases⟩ :=
    (compile_engines [] (.list meeting.elements)).1 meetingPlan hgraph
  cases hel
  rcases hcases with ⟨hnamed, -⟩ | ⟨-, -, hrefused⟩ | ⟨-, hforward, -⟩
  · exact absurd hnamed hnameless
  · exact hrefused
  · exact absurd hforward hbackward

end GraphPattern
