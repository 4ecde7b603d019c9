import GraphPattern.Proofs.Answers
import GraphPattern.Proofs.Sparse
import GraphPattern.Compile
import GraphPattern.Schedule

/-!
# GraphPattern — how a compilation fails

A pattern is compiled or refused: every failure is a diagnostic of one of a few kinds, and no stage
comes across something that is missing. What keeps the walk from faults is its invariant, and what
keeps its chains from forks is that the graphs of patterns are sparse.

## Results

* `Token.classify_refuses`, `PatternGraph.ofTokens_refuses`, `Plan.ofGraph_refuses`,
  `Plan.check_refuses` — the kinds of refusal of each stage.
* `compile_plans_or_refuses` — a request gets its plan or one of the documented refusals.
-/

namespace GraphPattern

open PatternGraph

/-- Every failure is a refusal of one of some kinds. -/
def Refuses {α : Type _} (kinds : List DiagnosticKind) (r : Except Failure α) : Prop :=
  ∀ f, r = .error f → ∃ d, f = .refused d ∧ d.kind ∈ kinds

namespace Refuses

variable {α β : Type _} {kinds more : List DiagnosticKind} {r : Except Failure α}

theorem ok (a : α) : Refuses kinds (.ok a : Except Failure α) := by
  intro f h
  cases h

theorem refused {d : Diagnostic} (h : d.kind ∈ kinds) :
    Refuses kinds (.error (.refused d) : Except Failure α) := by
  rintro _ ⟨⟩
  exact ⟨d, rfl, h⟩

theorem refuse (cx : Context) {p : Problem} (index? : Option Int) (h : p.kind ∈ kinds) :
    Refuses kinds (.error (cx.refuse p index?) : Except Failure α) :=
  .refused h

theorem mono (h : Refuses kinds r) (hsub : kinds ⊆ more) : Refuses more r := by
  intro f hf
  obtain ⟨d, hd, hk⟩ := h f hf
  exact ⟨d, hd, hsub hk⟩

theorem bind {k : α → Except Failure β} (h : Refuses kinds r)
    (hk : ∀ a, r = .ok a → Refuses kinds (k a)) : Refuses kinds (r >>= k) := by
  cases hr : r with
  | error f =>
    rintro _ ⟨⟩
    exact h f hr
  | ok a => exact hk a hr

theorem map {k : α → β} (h : Refuses kinds r) : Refuses kinds (do return k (← r)) :=
  h.bind fun _ _ => .ok _

/-- An answer or a refusal. -/
theorem cases (h : Refuses kinds r) :
    (∃ a, r = .ok a) ∨ ∃ d, r = .error (.refused d) ∧ d.kind ∈ kinds := by
  cases hr : r with
  | ok a => exact .inl ⟨a, rfl⟩
  | error f =>
    obtain ⟨d, rfl, hk⟩ := h f hr
    exact .inr ⟨d, rfl, hk⟩

end Refuses

-- ---------------------------------------------------------------------------
-- Elements and tokens
-- ---------------------------------------------------------------------------

theorem resolveEngine_refuses (e : Element) : Refuses [.engineUnset] (resolveEngine e) := by
  unfold resolveEngine
  split
  · rename_i s
    cases Engine.ofName? s with
    | none => exact .refused (by simp [Problem.diagnostic, Problem.kind])
    | some engine => exact .ok engine
  · exact .refused (by simp [Problem.diagnostic, Problem.kind])

namespace Token

theorem kind_of_constraint? {m : Marker} {e : Element} {p : Problem}
    (h : constraint? m e = .error p) : p.kind = .malformedToken := by
  unfold constraint? at h
  split at h
  · cases h
  · cases h; rfl
  · cases h
  · cases h; rfl
  · split at h
    · cases h
    · cases h; rfl

/-- What starts no unit is malformed. -/
theorem kind_of_units {i : Nat} {es : List Element} {p : Problem} {k : Nat}
    (h : units i es = .error (p, k)) : p.kind = .malformedToken := by
  fun_induction units i es with
  | case1 => cases h
  | case2 => cases h; rfl
  | case3 => cases h; rfl
  | case4 i s hs m payload rest hm q hq =>
    cases h
    exact kind_of_constraint? hq
  | case5 i s hs m payload rest hm c hc ih =>
    cases hu : units (i + 2) rest with
    | error e => rw [hu] at h; cases h; exact ih hu
    | ok ts => rw [hu] at h; cases h
  | case6 => cases h; rfl
  | case7 i s rest hs t ht ih =>
    cases hu : units (i + 1) rest with
    | error e => rw [hu] at h; cases h; exact ih hu
    | ok ts => rw [hu] at h; cases h
  | case8 => cases h; rfl

theorem classify_refuses (es : List Element) : Refuses [.malformedToken] (classify es) := by
  unfold classify
  split
  · exact .ok _
  · rename_i p i h
    exact .refused (by simp [Problem.diagnostic, kind_of_units h])

end Token

-- ---------------------------------------------------------------------------
-- The graph
-- ---------------------------------------------------------------------------

namespace PatternGraph

namespace Reading

variable {cx : Context} {g : PatternGraph} {r : Reading}

/-- A node token is refused for its name only. -/
theorem resolve_refuses (cx : Context) (g : PatternGraph) (t : NodeToken) :
    Refuses [.conflictingName] (resolve cx g t) := by
  unfold resolve
  split
  · exact .ok _
  · split
    · exact .refuse cx _ (by simp [Problem.kind])
    · split
      · exact .refuse cx _ (by simp [Problem.kind])
      · split
        · exact .ok _
        · dsimp only
          split
          · exact .ok _
          · exact .refuse cx _ (by simp [Problem.kind])
      · exact .ok _

theorem link_answers (hg : g.Consistent) {e : PatternEdge} (ha : g.IsNode e.alpha)
    (ho : g.IsNode e.omega) : ∃ g', link g e = .ok g' := by
  obtain ⟨g', hadd, -⟩ := hg.addEdge e ha ho
  exact ⟨g', by rw [link, hadd]⟩

/-- An edge token between nodes of the graph is refused for its name only. -/
theorem connect_refuses (hg : g.Consistent) {t : EdgeToken} {current next : NodeId}
    (hc : g.IsNode current) (hn : g.IsNode next) :
    Refuses [.conflictingName] (connect cx g t current next) := by
  by_cases hfresh : ∀ name, t.name? = some name → g.named? name = none
  · obtain ⟨ha, ho⟩ := isNode_placeEdge cx t hc hn
    obtain ⟨g', hlink⟩ := link_answers hg ha ho
    rw [connect_fresh current next hfresh, hlink]
    exact .ok g'
  · push Not at hfresh
    obtain ⟨name, hname, hne⟩ := hfresh
    obtain ⟨h, hnamed⟩ := Option.ne_none_iff_exists'.1 hne
    rw [connect_taken current next hname hnamed]
    exact .refuse cx _ (by simp [Problem.kind])

/-- A constraint can always be hung up. -/
theorem constrain_answers (hr : Sound cx r) (t : ConstraintToken) :
    ∃ r', r.constrain t = .ok r' := by
  have hcons := hr.regular.consistent.addNode (constraintNode t)
  have hext := extends_addNode r.graph (constraintNode t)
  obtain ⟨g', hlink⟩ := link_answers hcons
    (e := precedesEdge (r.lastConstraint?.getD r.current) ⟨r.graph.nodes.length⟩)
    (hext.isNode hr.isNode_owner) ((isNode_addNode _).2 (.inr rfl))
  refine ⟨{ r with graph := g', lastConstraint? := some ⟨r.graph.nodes.length⟩ }, ?_⟩
  show (do
    let g ← link (r.graph.addNode (constraintNode t)).2
      (precedesEdge (r.lastConstraint?.getD r.current) ⟨r.graph.nodes.length⟩)
    return { r with graph := g, lastConstraint? := some ⟨r.graph.nodes.length⟩ }) = _
  rw [hlink]
  rfl

/-- Tokens are refused for an edge without an end, or for a name. -/
theorem run_refuses (hr : Sound cx r) {ts : List Token} (hts : Token.Visible ts) :
    Refuses [.malformedToken, .conflictingName] (run cx r ts) := by
  have hsub : [DiagnosticKind.conflictingName] ⊆ [.malformedToken, .conflictingName] := by simp
  -- along the run: what is refused is a name in conflict, or an edge in a wrong place
  fun_induction run cx r ts with
  | case1 => exact .ok _
  | case2 r t rest ih =>
    refine Refuses.bind ?_ fun r' hr' => ih r' (hr.constrain hr').1 fun u hu => hts u (by simp [hu])
    obtain ⟨r', hr'⟩ := constrain_answers hr t
    rw [hr']
    exact .ok _
  | case3 r t rest ih =>
    refine ((resolve_refuses cx r.graph t).mono hsub).bind ?_
    rintro ⟨n, g⟩ hg
    obtain ⟨hreg, -, hplace⟩ := hr.regular.resolve (hts (.node t) (by simp)) hg
    exact ih n g ⟨hreg, .inr hplace, by intro c hc; cases hc⟩ fun u hu => hts u (by simp [hu])
  | case4 => exact .refuse cx _ (by simp [Problem.kind])
  | case5 r t hsource next rest ih =>
    refine ((resolve_refuses cx r.graph next).mono hsub).bind ?_
    rintro ⟨n, g₁⟩ hg₁
    obtain ⟨hreg, hext, hplace⟩ := hr.regular.resolve (hts (.node next) (by simp)) hg₁
    have hcurrent := hext.isPlace (hr.isPlace_current hsource)
    refine ((connect_refuses hreg.consistent hcurrent.1 hplace.1).mono hsub).bind ?_
    intro g₂ hg₂
    obtain ⟨hreg₂, hext₂⟩ := hreg.connect hcurrent hplace (hts (.edge t) (by simp)) hg₂
    exact ih n g₂ ⟨hreg₂, .inr (hext₂.isPlace hplace), by intro c hc; cases hc⟩
      fun u hu => hts u (by simp [hu])
  | case6 => exact .refuse cx _ (by simp [Problem.kind])

end Reading

/-- A pattern is refused for an edge without an end, or for a name. -/
theorem ofTokens_refuses (cx : Context) {ts : List Token} (hts : Token.Visible ts) :
    Refuses [.malformedToken, .conflictingName] (ofTokens cx ts) :=
  Reading.run_refuses (.start cx) hts

end PatternGraph

-- ---------------------------------------------------------------------------
-- The walk
-- ---------------------------------------------------------------------------

variable {cx : Context} {g g₀ : PatternGraph} {visited binds : List Handle} {stack : List Entry}

theorem Context.edgeSegment_refuses (cx : Context) (e : PatternEdge) (d : Direction) :
    Refuses [.edgeDirection] (cx.edgeSegment e d) := by
  unfold edgeSegment
  split
  · exact .ok _
  · exact .ok _
  · exact .refuse cx _ (by simp [Problem.kind])

namespace Chain

theorem pending_answers (hg : g.Consistent) {n : NodeId} (hn : g.IsNode n)
    (visited : List Handle) : ∃ left, pending g n visited = .ok left := by
  obtain ⟨l, hl, -⟩ := hg.incidencesOf_ok hn
  exact ⟨_, by rw [pending, hl]; rfl⟩

/-- A chain that has arrived along an edge is refused for a direction only. -/
theorem walk_refuses (hg : g.Regular cx) (hs : g.Sparse) (n : NodeId) (visited : List Handle)
    (hn : g.IsPlace n) (hat : ∃ i, g.EdgeAt n i ∧ Handle.edge i.edge ∈ visited) :
    Refuses [.edgeDirection] (walk cx g n visited) := by
  induction hm : unseen g.handles visited using Nat.strongRecOn generalizing n visited with
  | ind m ih =>
    obtain ⟨nd, hnode⟩ := hn.1.exists_node
    by_cases hknown : nd.anonymous = false ∨ .node n ∈ visited
    · rw [walk_known hnode hknown]
      exact .ok _
    · have hun : g.Unnamed (.node n) := (unnamed_node_iff hn.1 hnode).2 (by
        simpa using fun h => hknown (.inl h))
      obtain ⟨left, hleft⟩ := pending_answers hg.consistent hn.1 (.node n :: visited)
      obtain ⟨i, hi, hv⟩ := hat
      have hfew := length_pending_le hg.consistent hs hn.1 hun hi (List.mem_cons_of_mem _ hv) hleft
      rw [walk_fresh hnode hknown, hleft]
      show Refuses _ (onward cx g n nd visited left)
      unfold onward
      split
      · exact .ok _
      · rename_i j e honly
        split
        · refine (cx.edgeSegment_refuses e j.direction).bind fun segment _ => .map ?_
          obtain ⟨hj, -, hfresh, he, hstruct⟩ := incident_of_only hg.consistent hn.1 hleft honly
          refine ih _ ?_ j.that _ (hg.isPlace_that hj hstruct)
            ⟨j.reverse, ⟨hj.reverse, rfl, hstruct.reverse⟩, by simp [Incidence.reverse]⟩ rfl
          rw [← hm]
          exact unseen_lt (PatternGraph.mem_handles_of_node? hnode)
            (fun hmem => hknown (.inr hmem)) (by simp) (fun y hy => by simp [hy])
        · exact .ok _
      · rename_i branches hnil hone
        -- two ways to go on would be too many
        match hl : left.filter (·.2.kind.structural) with
        | [] => exact absurd hl hnil
        | [x] => exact absurd hl (hone x.1 x.2)
        | x :: y :: rest =>
          rw [hl] at hfew
          simp at hfew

end Chain

namespace Plan

theorem emitChain_answers (hg : g.Consistent) (start : Expr) {c : Chain}
    (hc : g.IsNode c.terminal) (visited : List Handle) :
    ∃ em, emitChain g start c visited = .ok em := by
  obtain ⟨nd, hnode⟩ := hc.exists_node
  obtain ⟨es, hes⟩ := pendingEntries_ok hg hc (c.elements ++ visited)
  exact ⟨_, by simp only [emitChain, hnode, hes]; rfl⟩

/-- A chain is followed to a node of the graph. -/
theorem isNode_terminal (hr : Rooted cx g₀ g) {n : NodeId} (hn : g.IsPlace n) {c : Chain}
    (hc : Chain.walk cx g n visited = .ok c) : g.IsNode c.terminal := by
  have hconsumed : Chain.Consumed g₀ g n visited c := (Chain.walks_of_walk hc).consumed hr.regular
    (fun i hi hs => hr.adjacent hi (.inl hs)) hn
  exact (hconsumed.isPlace _ hconsumed.terminal).1

/-- The far end of an edge is refused for a direction only. -/
theorem bindFarEnd_refuses (hr : Rooted cx g₀ g) (hs : g.Sparse) {i : Incidence}
    (hi : g.Incident i) (hstruct : g.Structural i) (edge : Expr)
    (hv : Handle.edge i.edge ∈ visited) :
    Refuses [.edgeDirection] (bindFarEnd cx g i edge visited) := by
  have hplace := hr.regular.isPlace_that hi hstruct
  obtain ⟨nd, hnode⟩ := hplace.1.exists_node
  obtain ⟨es, hes⟩ := pendingEntries_ok hr.regular.consistent hplace.1 (.node i.that :: visited)
  simp only [bindFarEnd, hnode, hes]
  split
  · exact .ok _
  · split
    · refine Refuses.bind ?_ fun c hc => ?_
      · exact Chain.walk_refuses hr.regular hs _ _ hplace
          ⟨i.reverse, ⟨hi.reverse, rfl, hstruct.reverse⟩, hv⟩
      · obtain ⟨em, hem⟩ := emitChain_answers hr.regular.consistent
          (.edgeEnd edge i.direction true) (isNode_terminal hr hplace hc) visited
        rw [hem]
        exact .ok em
    · exact .ok _

/-- The constraints of a node can always be spliced. -/
theorem spliceConstraints_answers (hr : Rooted cx g₀ g) (n : NodeId) (visited : List Handle)
    (hn : g.IsConstraint n) (hled : LedTo g n visited) :
    ∃ steps marks, Splices g n visited steps marks := by
  induction hm : unseen g.handles visited using Nat.strongRecOn generalizing n visited with
  | ind m ih =>
    obtain ⟨hnode, nd, hnd, hkind⟩ := id hn
    have hfits := hr.regular.node n nd hnode hnd
    simp only [NodeFits, hkind] at hfits
    obtain ⟨c, hc⟩ := Option.isSome_iff_exists.1 hfits.2.1
    cases hnext : nextConstraint? g n visited with
    | none => exact ⟨_, _, .last hnd hc hnext⟩
    | some i =>
      obtain ⟨hi, hthis, hp, hfresh, hout⟩ := leads_on hr hn hled hnext
      obtain ⟨e, he, -⟩ := id hp
      have hless : unseen g.handles (.edge i.edge :: .node n :: visited) < m := by
        rw [← hm]
        exact unseen_lt (PatternGraph.mem_handles_of_edge? he) hfresh (by simp)
          (fun y hy => by simp [hy])
      obtain ⟨steps, marks, hrest⟩ := ih _ hless i.that (.edge i.edge :: .node n :: visited)
        (isConstraint_that hr hi hp hout) (ledTo_that hi hout (by simp)) rfl
      exact ⟨_, _, .next hnd hc hnext hrest⟩

/-- The chain that starts with an edge of the model is refused for a direction only. -/
theorem fromEdge_refuses (hr : Rooted cx g₀ g) (hs : g.Sparse) {i : Incidence} {e : PatternEdge}
    (hi : g.Incident i) (he : g.edge? i.edge = some e) (hstruct : g.Structural i)
    (visited : List Handle) :
    Refuses [.edgeDirection] (Chain.fromEdge cx g i visited) ∧
      ∀ c, Chain.fromEdge cx g i visited = .ok c → g.IsNode c.terminal := by
  have hplace := hr.regular.isPlace_that hi hstruct
  simp only [Chain.fromEdge, he]
  constructor
  · refine (cx.edgeSegment_refuses e i.direction).bind fun segment _ => .map ?_
    exact Chain.walk_refuses hr.regular hs _ _ hplace
      ⟨i.reverse, ⟨hi.reverse, rfl, hstruct.reverse⟩, by simp [Incidence.reverse]⟩
  · intro c hc
    cases hseg : cx.edgeSegment e i.direction with
    | error f => rw [hseg] at hc; cases hc
    | ok segment =>
      cases hw : Chain.walk cx g i.that (.edge i.edge :: visited) with
      | error f => rw [hseg, hw] at hc; cases hc
      | ok rest =>
        rw [hseg, hw] at hc
        cases hc
        show g.IsNode rest.terminal
        exact isNode_terminal hr hplace hw

/-- Following an edge of the frontier is refused for a direction only. -/
theorem visitIncidence_refuses (hr : Rooted cx g₀ g) (hs : g.Sparse)
    (hedges : checkEdges cx g = .ok ()) {i : Incidence} {e : PatternEdge} (hi : g.Incident i)
    (hthis : ¬ g.IsConstraint i.this) (he : g.edge? i.edge = some e)
    (hv : Handle.edge i.edge ∈ visited) :
    Refuses [.edgeDirection] (visitIncidence cx g i e visited) := by
  have hfits := hr.regular.edgeFits_of_edge? he
  unfold visitIncidence
  -- as the edge's kind is handled; only an edge that is followed may be refused its direction
  split
  · exact .ok _
  · rename_i hkind
    have hp : g.Precedes i := ⟨e, he, hkind⟩
    have hout := direction_of_precedes hr hi hp hthis
    obtain ⟨steps, marks, hsplices⟩ := spliceConstraints_answers hr i.that visited
      (isConstraint_that hr hi hp hout) (ledTo_that hi hout hv)
    rw [hsplices.spliceConstraints_eq]
    exact .ok _
  · rename_i hkind
    exact .map (bindFarEnd_refuses hr hs hi ⟨e, he, by simp [hkind, EdgeKind.structural]⟩ _ hv)
  · rename_i hkind hname
    have hstruct : g.Structural i := ⟨e, he, by simp [hkind, EdgeKind.structural]⟩
    obtain ⟨hrefuses, hterminal⟩ := fromEdge_refuses hr hs hi he hstruct visited
    refine hrefuses.bind fun c hc => ?_
    obtain ⟨em, hem⟩ := emitChain_answers hr.regular.consistent (.var (varOf g i.this))
      (hterminal c hc) visited
    rw [hem]
    exact .ok em
  · rename_i name hkind hname
    split
    · exact .map (bindFarEnd_refuses hr hs hi ⟨e, he, by simp [hkind, EdgeKind.structural]⟩ _ hv)
    · -- an edge without identity was refused before
      rename_i hidentity
      refine absurd (identified_of_checkEdges hedges e (List.mem_of_getElem? he) ?_ ?_) hidentity
      · simp [hkind, EdgeKind.structural]
      · simp [PatternEdge.anonymous, hname]

theorem checkEdges_refuses (cx : Context) (g : PatternGraph) :
    Refuses [.namedEdge, .argumentEdge] (checkEdges cx g) := by
  have hedge : ∀ e, Refuses [.namedEdge, .argumentEdge] (checkEdge cx e) := by
    intro e
    unfold checkEdge
    split
    · exact .refuse cx _ (by simp [Problem.kind])
    · exact .refuse cx _ (by simp [Problem.kind])
    · exact .ok _
  unfold checkEdges
  split
  · exact .ok _
  · induction g.edges with
    | nil => exact .ok _
    | cons e es ih => exact (hedge e).bind fun _ _ => ih

/-- The walk from a frontier is refused for a direction only. -/
theorem explore_refuses (hr : Rooted cx g₀ g) (hs : g.Sparse) (hedges : checkEdges cx g = .ok ())
    (hf : Frontier g₀ g visited binds stack) :
    Refuses [.edgeDirection] (explore cx g visited stack) := by
  -- what is entered as a node is one
  have hnode : ∀ {n visited binds rest}, Frontier g₀ g visited binds (.node n :: rest) →
      g.IsNode n := by
    intro n visited binds rest hf
    rcases hf.enter n (by simp) with rfl | hstart
    · exact isNode_anchor hr.regular.consistent.inhabited
    · exact hr.anchors.isNode_iff.2 hstart.isNode
  -- along the exploration: what is looked up exists, by the frontier's invariant
  fun_induction explore cx g visited stack generalizing binds with
  | case1 => exact .ok _
  | case2 visited n rest seen ih => exact ih (hf.skip seen)
  | case3 visited n rest fresh hnone =>
    obtain ⟨nd, hnd⟩ := (hnode hf).exists_node
    rw [hnone] at hnd
    cases hnd
  | case4 visited n rest fresh nd hnd ih =>
    obtain ⟨es, hes⟩ := pendingEntries_ok hr.regular.consistent (hnode hf) (.node n :: visited)
    have hvisit : Refuses [.edgeDirection] (visitNode g n nd (.node n :: visited)) := by
      rw [visitNode, hes]
      exact .ok _
    refine hvisit.bind fun em hem => .map ?_
    obtain ⟨bs, hemits⟩ := visitNode_emits hr.regular (hnode hf) hnd hem
    exact ih em (hf.visit hr fresh hemits)
  | case5 visited i rest seen ih => exact ih (hf.skip seen)
  | case6 visited i rest fresh hnone =>
    obtain ⟨e, he, -⟩ := (hf.along i (by simp)).1
    rw [hnone] at he
    cases he
  | case7 visited i rest fresh e he ih =>
    obtain ⟨hi, -, hthis⟩ := hf.along i (by simp)
    refine (visitIncidence_refuses hr hs hedges hi hthis he (by simp)).bind fun em hem => .map ?_
    obtain ⟨bs, hemits⟩ := visitIncidence_emits hr.regular he hem
    exact ih em (hf.visit hr fresh hemits)

-- Arguments have names, so what they are bound to has one too.

theorem ChainEmits.bindsUnnamed_eq {start : Expr} {c : Chain} {em : Emission} {bs : List Handle}
    (h : ChainEmits g start c visited em bs) : em.steps.any bindsUnnamed = false := by
  cases h <;> rfl

theorem FarEmits.bindsUnnamed_eq {i : Incidence} {edge : Expr} {em : Emission} {bs : List Handle}
    (h : FarEmits cx g i edge visited em bs) : em.steps.any bindsUnnamed = false := by
  cases h with
  | known => rfl
  | named =>
    simp only [List.any_cons, bindsUnnamed, Bool.false_or, typeTest]
    split
    · split <;> rfl
    · rfl
  | chain _ _ _ _ emits => exact emits.bindsUnnamed_eq

theorem Splices.bindsUnnamed_eq {n : NodeId} {steps : List Step} {marks : List Handle}
    (h : Splices g n visited steps marks) : steps.any bindsUnnamed = false := by
  have hone : ∀ c, bindsUnnamed (constraintStep c) = false := by rintro (_ | _ | _) <;> rfl
  induction h with
  | last => simp [hone]
  | next _ _ _ _ ih => simp [hone, ih]

theorem Emits.bindsUnnamed_eq {x : Entry} {em : Emission} {bs : List Handle}
    (h : Emits cx g visited x em bs) : em.steps.any bindsUnnamed = false := by
  cases h with
  | anchor | place | argument | start => rfl
  | constraints _ _ splices => exact splices.bindsUnnamed_eq
  | chain _ _ _ _ _ emits => exact emits.bindsUnnamed_eq
  | argumentEdge _ _ _ far => exact far.bindsUnnamed_eq
  | namedEdge _ _ _ _ far => exact far.bindsUnnamed_eq

theorem Explores.bindsUnnamed_eq {steps : List Step} {visited' binds' : List Handle}
    (h : Explores cx g₀ g visited binds stack steps visited' binds') :
    steps.any bindsUnnamed = false := by
  induction h with
  | done => rfl
  | skip _ _ ih => exact ih
  | visit _ _ emits _ ih => rw [List.any_append, emits.bindsUnnamed_eq, ih]; rfl

/-- A graph is refused for edges that the engine cannot deal with. -/
theorem ofGraph_refuses (hr : Rooted cx g₀ g) (hs : g.Sparse) :
    Refuses [.namedEdge, .argumentEdge, .edgeDirection] (ofGraph cx g) := by
  refine ((checkEdges_refuses cx g).mono (by simp)).bind fun _ hedges => ?_
  have hstart := Frontier.start g₀ g
  refine ((explore_refuses hr hs hedges hstart).mono (by simp)).bind fun steps hsteps => ?_
  obtain ⟨visited, binds, hexplores, -⟩ := (walks_of_explore hsteps).explores hr hstart
  rw [hexplores.bindsUnnamed_eq]
  exact .ok _

-- ---------------------------------------------------------------------------
-- The plan
-- ---------------------------------------------------------------------------

theorem checkForm_refuses (cx : Context) (g? : Option PatternGraph) (bound : List String)
    (e : Expr) : Refuses [.unboundFormName] (checkForm cx g? bound e) := by
  unfold checkForm
  split
  · split
    · exact .ok _
    · exact .refuse cx _ (by simp [Problem.kind])
  · exact .ok _

theorem checkBindings_refuses (cx : Context) (g? : Option PatternGraph) (bound : List String)
    (bs : List (String × Expr)) : Refuses [.unboundFormName] (checkBindings cx g? bound bs) := by
  induction bs generalizing bound with
  | nil => exact .ok _
  | cons b bs ih => exact (checkForm_refuses cx g? bound b.2).bind fun _ _ => ih _

theorem checkStep_refuses (cx : Context) (g? : Option PatternGraph) (bound : List String)
    (s : Step) : Refuses [.unboundFormName] (checkStep cx g? bound s) := by
  cases s with
  | generate | foreign => exact .ok _
  | assign n e => exact (checkForm_refuses cx g? bound e).map
  | assignAll bs => exact checkBindings_refuses cx g? bound bs
  | guard e | whilst e => exact (checkForm_refuses cx g? bound e).bind fun _ _ => .ok _

theorem checkSteps_refuses (cx : Context) (g? : Option PatternGraph) (bound : List String)
    (steps : List Step) : Refuses [.unboundFormName] (steps.foldlM (checkStep cx g?) bound) := by
  induction steps generalizing bound with
  | nil => exact .ok _
  | cons s steps ih =>
    rw [List.foldlM_cons]
    exact (checkStep_refuses cx g? bound s).bind fun _ _ => ih _

/-- A plan is refused for a name that is bound twice, or for its forms. -/
theorem check_refuses_of_steps (cx : Context) (g? : Option PatternGraph) {p : Plan}
    {kinds : List DiagnosticKind} (hkinds : .conflictingName ∈ kinds)
    (h : Refuses kinds (p.steps.foldlM (checkStep cx g?) cx.arguments)) :
    Refuses kinds (p.check cx g?) := by
  cases hrepeated : repeated p.boundNames with
  | cons c cs =>
    simp only [check, hrepeated, bind, Except.bind]
    exact .refuse cx _ hkinds
  | nil =>
    cases hrebound : p.steps.findSome? (reboundArgument? cx.arguments) with
    | some n =>
      simp only [check, hrepeated, hrebound, bind, Except.bind]
      exact .refuse cx _ hkinds
    | none =>
      simp only [check, hrepeated, hrebound, bind, Except.bind]
      exact h.bind fun _ _ => .ok _

/-- A plan is refused for a name that is bound twice or not at all. -/
theorem check_refuses (cx : Context) (g? : Option PatternGraph) (p : Plan) :
    Refuses [.conflictingName, .unboundFormName] (p.check cx g?) :=
  check_refuses_of_steps cx g? (by simp)
    ((checkSteps_refuses cx g? cx.arguments p.steps).mono (by simp))

end Plan

-- ---------------------------------------------------------------------------
-- The compilation
-- ---------------------------------------------------------------------------

/-- The kinds of refusal that a request has to reckon with. A chain that forks is not among them. -/
def compileRefusals : List DiagnosticKind :=
  [.malformedToken, .conflictingName, .namedEdge, .argumentEdge, .engineUnset, .edgeDirection,
    .unboundFormName]

namespace Context

theorem graph_refuses (cx : Context) : Refuses [.malformedToken, .conflictingName] cx.graph :=
  ((Token.classify_refuses cx.elements).mono (by simp)).bind
    fun _ hts => ofTokens_refuses cx (Token.visible_of_classify hts)

theorem regular_of_graph (h : cx.graph = .ok g) : g.Regular cx := by
  cases hts : Token.classify cx.elements with
  | error f => rw [graph, hts] at h; cases h
  | ok ts =>
    rw [graph, hts] at h
    exact (Reading.regular_of_run h (Token.visible_of_classify hts)).1

/-- Anchoring the graph of a pattern never fails. -/
theorem anchoredGraph_refuses (cx : Context) :
    Refuses [.malformedToken, .conflictingName] cx.anchoredGraph := by
  refine cx.graph_refuses.bind fun g hg => ?_
  obtain ⟨g', hanchored, -⟩ := anchored_ok (regular_of_graph hg).consistent
  rw [hanchored]
  exact .ok _

theorem sparse_of_anchoredGraph (h : cx.anchoredGraph = .ok g) : g.Sparse := by
  obtain ⟨ts, g₀, hts, hrun, hr⟩ := rooted_of_anchoredGraph h
  have hsparse := Reading.sparse_of_run hrun (Token.visible_of_classify hts)
  exact hsparse.anchors hr.before.consistent hr.anchors

/-- Before its plan is checked, a pattern is refused for its tokens, names and edges. -/
theorem compile_refuses_of_check (cx : Context) {kinds : List DiagnosticKind}
    (hkinds : [.malformedToken, .conflictingName, .namedEdge, .argumentEdge, .edgeDirection] ⊆ kinds)
    (hcheck : ∀ g p, cx.anchoredGraph = .ok g → Plan.ofGraph cx g = .ok p →
      Refuses kinds (p.expanded.check cx g)) : Refuses kinds cx.compile := by
  refine (cx.anchoredGraph_refuses.mono (by grind)).bind fun g hg => ?_
  obtain ⟨_, g₀, -, -, hr⟩ := rooted_of_anchoredGraph hg
  have hwalk := Plan.ofGraph_refuses hr (sparse_of_anchoredGraph hg)
  refine (hwalk.mono (by grind)).bind fun p hp => ?_
  exact (hcheck g p hg hp).bind fun _ _ => .ok _

/-- A pattern gets its plan or a refusal. -/
theorem compile_refuses (cx : Context) : Refuses compileRefusals cx.compile := by
  refine cx.compile_refuses_of_check (by simp [compileRefusals]) fun g p _ _ => ?_
  exact (Plan.check_refuses cx g p.expanded).mono (by simp [compileRefusals])

end Context

/-- What a stage of a compilation needs to be done before it. -/
def Stage.job : Stage → Job
  | .graph => ⟨"graph", []⟩
  | .anchored => ⟨"anchored", ["graph"]⟩
  | .walked => ⟨"walked", ["anchored"]⟩
  | .expanded => ⟨"expanded", ["walked"]⟩
  | .checked => ⟨"checked", ["expanded"]⟩

/-- The stages of a compilation, in the order in which they are given. -/
def Stage.all : List Stage :=
  [.graph, .anchored, .walked, .expanded, .checked]

/-- The stages can be put in order, which is the one in which they are given. -/
theorem Stage.order_jobs :
    Schedule.order (Stage.all.map Stage.job) = .ok (Stage.all.map fun s => s.job.name) := by
  cbv

/-- A request for the plan of a text or a list gets the plan or a documented refusal. The stages it
goes through can always be put in order. -/
theorem compile_plans_or_refuses (arguments : List String) (pattern engine : Element)
    (hpattern : (∃ s, pattern = .text s) ∨ ∃ es, pattern = .list es) :
    ((∃ plan, compile arguments pattern engine = .ok plan) ∨
      ∃ d, compile arguments pattern engine = .error (.refused d) ∧ d.kind ∈ compileRefusals) ∧
    Schedule.order (Stage.all.map Stage.job) = .ok (Stage.all.map fun s => s.job.name) := by
  refine ⟨Refuses.cases ?_, Stage.order_jobs⟩
  obtain ⟨es, hes⟩ : ∃ es, Pattern.elements? pattern = .ok es := by
    rcases hpattern with ⟨s, rfl⟩ | ⟨es, rfl⟩ <;> exact ⟨_, rfl⟩
  have hrequest : Refuses compileRefusals (Context.ofRequest arguments pattern engine) := by
    refine ((resolveEngine_refuses engine).mono (by simp [compileRefusals])).bind fun _ _ => ?_
    rw [hes]
    exact .ok _
  exact hrequest.bind fun cx _ => cx.compile_refuses

/-- A pattern whose second edge would have to be followed backwards. -/
theorem compile_plans_or_refuses_backward :
    ((∃ plan, compile [] (.text "a --> <> <-- b") (.text "containment") = .ok plan) ∨
      ∃ d, compile [] (.text "a --> <> <-- b") (.text "containment") = .error (.refused d) ∧
        d.kind ∈ compileRefusals) ∧
    Schedule.order (Stage.all.map Stage.job) = .ok (Stage.all.map fun s => s.job.name) :=
  compile_plans_or_refuses [] (.text "a --> <> <-- b") (.text "containment") (.inl ⟨_, rfl⟩)

end GraphPattern
