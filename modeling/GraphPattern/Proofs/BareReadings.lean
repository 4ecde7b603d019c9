import GraphPattern.Proofs.BareGraphs

/-!
# GraphPattern — reading without constraints

A pattern and the bare pattern are read alongside each other: a constraint is added to the one graph
alone, and every other token adds the same to both.

## Results

* `PatternGraph.Reading.Reads.bare` — both patterns are read alongside each other.
* `PatternGraph.Reading.Reads.constraints` — the graph of a pattern has the constraints of its tokens.
* `Context.bare_anchoredGraph` — the graph of the bare pattern.
-/

namespace GraphPattern

open PatternGraph

/-- The constraint that a node stands for. -/
def PatternNode.held? (nd : PatternNode) : Option Constraint :=
  if nd.kind = .constraint then nd.constraint? else none

namespace PatternGraph

variable {cx cx' : Context} {q : Renumbering} {g g₁ b : PatternGraph}

-- ---------------------------------------------------------------------------
-- Reading alongside
-- ---------------------------------------------------------------------------

namespace Reading

theorem resolve_bare (h : Bare q g b) (hg : g.Regular cx) (hb : b.Regular cx')
    (hargs : cx'.arguments = cx.arguments) {t : NodeToken} {n : NodeId}
    (hr : resolve cx g t = .ok (n, g₁)) (i : Nat) :
    ∃ q' b₁, resolve cx' b { t with index := i } = .ok (q'.node n, b₁) ∧ Bare q' g₁ b₁ ∧
      ∀ m, g.IsNode m → q'.node m = q.node m := by
  have hplain : namesArgument cx' t.name? = true → t.typeName? = none := by
    rw [namesArgument, hargs]
    exact plain_of_resolve hr
  rcases resolve_cases hr with ⟨name, hname, hnamed, rfl, htype⟩ | ⟨hadd, hfresh, -⟩
  · have hkept := (hg.isPlace_of_named? hnamed).1.kept
    obtain ⟨nd, hnd⟩ := hkept.1.exists_node
    obtain ⟨nd', hnd', hlike⟩ := h.node n nd hkept hnd
    refine ⟨q, b, resolve_known hname ?_ hplain fun type ht => ?_, h, fun _ _ => rfl⟩
    · rw [h.named? hg hb, hnamed]
      rfl
    · have := htype type ht
      rw [hnd, Option.bind_some] at this
      rw [hnd', Option.bind_some, hlike.type, this]
  · obtain rfl : n = ⟨g.nodes.length⟩ := congrArg Prod.fst hadd
    obtain rfl : g₁ = (g.addNode (placeNode cx t)).2 := congrArg Prod.snd hadd
    have hk : (placeNode cx t).kind ≠ .constraint := by
      cases harg : namesArgument cx t.name? <;> simp [placeNode, harg]
    have hkind : (placeNode cx' { t with index := i }).kind = (placeNode cx t).kind := by
      rw [placeNode, placeNode, namesArgument, namesArgument, hargs]
    have hlike : (placeNode cx t).Like (placeNode cx' { t with index := i }) := ⟨hkind, rfl, rfl⟩
    refine ⟨_, _, ?_, h.addNode hg.consistent hk hlike, fun m hm => q.withNode_of_isNode hm _⟩
    rw [Renumbering.withNode_self]
    refine resolve_new (fun name hname => ?_) hplain
    rw [h.named? hg hb, hfresh name hname]
    rfl

/-- An edge that fits is added to both graphs. -/
theorem link_bare (h : Bare q g b) {e e' : PatternEdge} {k : EdgeId} (hk : e.kind ≠ .precedes)
    (hlike : e.Like q e') (hg : g.Consistent) (hb : b.Consistent) (ha : g.IsNode e.alpha)
    (ho : g.IsNode e.omega) (hadd : g.addEdge e = (.ok k, g₁)) :
    ∃ q' b₁, link b e' = .ok b₁ ∧ Bare q' g₁ b₁ ∧ q'.node = q.node := by
  obtain ⟨g', hadd', -, hnodes, hedges, -⟩ := hg.addEdge e ha ho
  rw [hadd] at hadd'
  cases hadd'
  have ha' : b.IsNode e'.alpha := by
    rw [hlike.alpha]
    exact h.image _ ha
  have ho' : b.IsNode e'.omega := by
    rw [hlike.omega]
    exact h.image _ ho
  obtain ⟨b', hadd', -, hnodes', hedges', -⟩ := hb.addEdge e' ha' ho'
  refine ⟨_, b', ?_, h.addEdge hk hlike hnodes hedges hnodes' hedges', rfl⟩
  rw [link, hadd']

theorem connect_bare (h : Bare q g b) (hg : g.Regular cx) (hb : b.Regular cx')
    (hargs : cx'.arguments = cx.arguments) {t : EdgeToken} {current next : NodeId}
    (hc : g.IsPlace current) (hn : g.IsPlace next) (hr : connect cx g t current next = .ok g₁)
    (i : Nat) :
    ∃ q' b₁, connect cx' b { t with index := i } (q.node current) (q.node next) = .ok b₁ ∧
      Bare q' g₁ b₁ ∧ q'.node = q.node := by
  obtain ⟨hfresh, k, hadd⟩ := connect_ok hr
  have hnames : namesArgument cx' t.name? = namesArgument cx t.name? := by
    rw [namesArgument, hargs]
    rfl
  have hlike : (placeEdge cx t current next).Like q
      (placeEdge cx' { t with index := i } (q.node current) (q.node next)) := by
    refine ⟨?_, rfl, rfl, ?_, ?_⟩
    · simp only [placeEdge, hnames]
    · cases hd : t.direction <;> simp only [placeEdge, hd]
    · cases hd : t.direction <;> simp only [placeEdge, hd]
  have hends := isNode_placeEdge cx t hc.1 hn.1
  have hk : (placeEdge cx t current next).kind ≠ .precedes := placeEdge_kind_ne cx t _ _ rfl
  obtain ⟨q', b₁, hlink, hbare, hq⟩ :=
    link_bare h hk hlike hg.consistent hb.consistent hends.1 hends.2 hadd
  refine ⟨q', b₁, ?_, hbare, hq⟩
  rw [← hlink]
  refine connect_fresh _ _ fun name hname => ?_
  rw [h.named? hg hb, hfresh name hname]
  rfl

theorem Sound.isNode_current {r : Reading} (hr : Sound cx r) : r.graph.IsNode r.current := by
  rcases hr.current with h | h
  · rw [h]
    exact isNode_anchor hr.regular.consistent.inhabited
  · exact h.1

/-- Both patterns are read alongside each other. -/
theorem Reads.bare {r r' : Reading} {ts ts' : List Token} {hs : List Handle}
    (h : Reads cx r ts hs g) (hr : Sound cx r) (hts : Token.Visible ts)
    (hbared : Token.Bared ts ts') (hr' : Sound cx' r') (hargs : cx'.arguments = cx.arguments)
    (hbare : Bare q r.graph r'.graph) (hcurrent : r'.current = q.node r.current) :
    ∃ q' b, run cx' r' ts' = .ok b ∧ Bare q' g b := by
  induction h generalizing q r' ts' with
  | done =>
    cases hbared
    exact ⟨q, r'.graph, rfl, hbare⟩
  | @constraint r r₁ t ts hs g step _ ih =>
    cases hbared with
    | constraint more =>
      obtain ⟨k, hadd, hcur, -⟩ := constrain_ok step
      obtain ⟨hr₁, -⟩ := hr.constrain step
      have howner := hr.isNode_owner
      have hg := hr.regular.consistent
      obtain ⟨g', hadd', -, hnodes, hedges, -⟩ := (hg.addNode (constraintNode t)).addEdge
        (precedesEdge (r.lastConstraint?.getD r.current) ⟨r.graph.nodes.length⟩)
        ((extends_addNode _ _).isNode howner) ((isNode_addNode _).2 (.inr rfl))
      rw [hadd] at hadd'
      cases hadd'
      have hnode : Bare _ (r.graph.addNode (constraintNode t)).2 _ :=
        hbare.addConstraint hg rfl (hbare.image _ howner)
      refine ih hr₁ (fun t ht => hts t (List.mem_cons_of_mem _ ht)) more hr'
        (hnode.addPrecedes rfl ?_ hnodes hedges) ?_
      · rw [precedesEdge, q.withNode_of_isNode howner, Renumbering.withNode_self]
      · rw [hcur, q.withNode_of_isNode hr.isNode_current]
        exact hcurrent
  | @node r t n g₁ g ts hs step _ ih =>
    cases hbared with
    | node i more =>
      obtain ⟨q₁, b₁, hres, hbare₁, -⟩ :=
        resolve_bare hbare hr.regular hr'.regular hargs step i
      have hvis := hts (.node t) (by simp)
      obtain ⟨hreg, -, hplace⟩ := hr.regular.resolve hvis step
      obtain ⟨hreg', -, hplace'⟩ := hr'.regular.resolve (t := { t with index := i }) hvis hres
      have hsound' : Sound cx' { graph := b₁, current := q₁.node n } :=
        ⟨hreg', .inr hplace', by simp⟩
      obtain ⟨q', b, hrun, hb⟩ := ih ⟨hreg, .inr hplace, by simp⟩
        (fun t ht => hts t (List.mem_cons_of_mem _ ht)) more hsound' hbare₁ rfl
      refine ⟨q', b, ?_, hb⟩
      simp only [run, hres, bind, Except.bind, hrun]
  | @edge r t next n g₁ g₂ g ts hs source target step _ ih =>
    cases hbared with
    | edge i more =>
      cases more with
      | node j more =>
        obtain ⟨q₁, b₁, hres, hbare₁, hq₁⟩ :=
          resolve_bare hbare hr.regular hr'.regular hargs target j
        have hvis := hts (.node next) (by simp)
        obtain ⟨hreg₁, hext, hplace⟩ := hr.regular.resolve hvis target
        obtain ⟨hreg₁', hext', hplace'⟩ :=
          hr'.regular.resolve (t := { next with index := j }) hvis hres
        have hcur := hr.isPlace_current source
        obtain ⟨q₂, b₂, hcon, hbare₂, hq₂⟩ :=
          connect_bare hbare₁ hreg₁ hreg₁' hargs (hext.isPlace hcur) hplace step i
        -- the current node is no more the anchor of one graph than of the other
        have hsource : r'.current ≠ r'.graph.anchor := by
          intro heq
          rw [hcurrent, ← hbare.anchor] at heq
          exact source (Handle.node.inj (hbare.handle_injective hcur.kept
            hr.regular.kept_anchor (congrArg Handle.node heq)))
        have hcur' : q₁.node r.current = r'.current := by rw [hq₁ _ hcur.1, hcurrent]
        rw [hcur'] at hcon
        have hvis' := hts (.edge t) (by simp)
        obtain ⟨hreg₂, hext₂⟩ := hreg₁.connect (hext.isPlace hcur) hplace hvis' step
        obtain ⟨hreg₂', hext₂'⟩ := hreg₁'.connect (t := { t with index := i })
          (hext'.isPlace (hr'.isPlace_current hsource)) hplace' hvis' hcon
        have hsound' : Sound cx' { graph := b₂, current := q₁.node n } :=
          ⟨hreg₂', .inr (hext₂'.isPlace hplace'), by simp⟩
        obtain ⟨q', b, hrun, hb⟩ := ih ⟨hreg₂, .inr (hext₂.isPlace hplace), by simp⟩
          (fun t ht => hts t (by simp [ht])) more hsound' hbare₂ (by rw [hq₂])
        refine ⟨q', b, ?_, hb⟩
        simp only [run, if_neg hsource, hres, hcon, bind, Except.bind, hrun]

end Reading

theorem bare_empty : Bare ⟨id, id⟩ PatternGraph.empty PatternGraph.empty where
  anchor := rfl
  image := fun _ hn => hn
  node := fun _ nd _ hnd => ⟨nd, hnd, rfl, rfl, rfl⟩
  nodes := by
    intro n hn
    refine ⟨n, ⟨hn, ?_⟩, rfl⟩
    rintro ⟨⟨i, rfl, hi⟩, nd, hnd, hk⟩
    obtain rfl : i = 0 := by simpa [PatternGraph.empty] using hi
    cases hnd
    cases hk
  order := fun _ _ _ _ h => h
  edge := by intro k e he; cases he
  edges := by intro k e he; cases he
  edgeOrder := fun _ _ _ _ h => h
  hung := by intro e he; cases he

-- ---------------------------------------------------------------------------
-- Constraints
-- ---------------------------------------------------------------------------

/-- The constraints of a graph, in the order of their nodes. -/
def constraints (g : PatternGraph) : List Constraint :=
  g.nodes.filterMap PatternNode.held?

theorem mem_constraints {c : Constraint} :
    c ∈ g.constraints ↔
      ∃ n nd, g.IsConstraint n ∧ g.node? n = some nd ∧ nd.constraint? = some c := by
  simp only [constraints, List.mem_filterMap, PatternNode.held?]
  constructor
  · rintro ⟨nd, hmem, hc⟩
    split at hc
    · rename_i hk
      obtain ⟨i, hi⟩ := List.getElem?_of_mem hmem
      have hlt := (List.getElem?_eq_some_iff.1 hi).1
      have hnode : g.node? ⟨i⟩ = some nd := by rw [node?_natCast, hi]
      exact ⟨⟨i⟩, nd, ⟨⟨i, rfl, hlt⟩, nd, hnode, hk⟩, hnode, hc⟩
    · cases hc
  · rintro ⟨n, nd, ⟨⟨i, rfl, hi⟩, nd', hnd', hk⟩, hnd, hc⟩
    rw [hnd] at hnd'
    cases hnd'
    rw [node?_natCast] at hnd
    exact ⟨nd, List.mem_of_getElem? hnd, by rw [if_pos hk]; exact hc⟩

theorem constraints_of_nodes_eq {g' : PatternGraph} (h : g'.nodes = g.nodes) :
    g'.constraints = g.constraints := by
  rw [constraints, h]
  rfl

namespace Reading

theorem constraints_resolve {t : NodeToken} {n : NodeId} (h : resolve cx g t = .ok (n, g₁)) :
    g₁.constraints = g.constraints := by
  rcases resolve_cases h with ⟨-, -, -, rfl, -⟩ | ⟨hadd, -, -⟩
  · rfl
  · obtain rfl : g₁ = (g.addNode (placeNode cx t)).2 := congrArg Prod.snd hadd
    have hnone : (placeNode cx t).held? = none := by
      cases harg : namesArgument cx t.name? <;> simp [PatternNode.held?, placeNode, harg]
    show (g.nodes ++ [placeNode cx t]).filterMap PatternNode.held? = _
    rw [List.filterMap_append, List.filterMap_cons_none hnone, List.filterMap_nil, List.append_nil]
    rfl

/-- The graph of a pattern has the constraints of its tokens. -/
theorem Reads.constraints {r : Reading} {ts : List Token} {hs : List Handle}
    (h : Reads cx r ts hs g) : g.constraints = r.graph.constraints ++ Token.constraints ts := by
  induction h with
  | done => exact (List.append_nil _).symm
  | @constraint r r' t ts hs g step _ ih =>
    obtain ⟨k, hadd, -⟩ := constrain_ok step
    rw [ih, constraints_of_nodes_eq (nodes_of_addEdge hadd)]
    show (r.graph.nodes ++ [constraintNode t]).filterMap PatternNode.held? ++ _ = _
    rw [List.filterMap_append, List.append_assoc]
    rfl
  | @node r t n g₁ g ts hs step _ ih =>
    rw [ih, constraints_resolve step]
    rfl
  | @edge r t next n g₁ g₂ g ts hs source target step _ ih =>
    obtain ⟨-, k, hadd⟩ := connect_ok step
    rw [ih, constraints_of_nodes_eq (nodes_of_addEdge hadd), constraints_resolve target]
    rfl

end Reading

end PatternGraph

-- ---------------------------------------------------------------------------
-- Graphs of patterns
-- ---------------------------------------------------------------------------

/-- The graph of a bare pattern is that of the pattern without its constraints. -/
theorem Context.bare_anchoredGraph {cx : Context} {g : PatternGraph}
    (h : cx.anchoredGraph = .ok g) :
    ∃ q b b₀, cx.bare.anchoredGraph = .ok b ∧ Rooted cx.bare b₀ b ∧ Bare q g b := by
  obtain ⟨ts, g₀, hts, hg₀, hr⟩ := rooted_of_anchoredGraph h
  obtain ⟨ts', hts', hbared⟩ := Token.bared_of_classify hts
  obtain ⟨hs, hreads⟩ := Reading.reads_of_run hg₀
  obtain ⟨q, b₀, hb₀, hbare⟩ := hreads.bare (.start cx) (Token.visible_of_classify hts) hbared
    (.start cx.bare) rfl bare_empty rfl
  have hof : PatternGraph.ofTokens cx.bare ts' = .ok b₀ := hb₀
  obtain ⟨hreg, hunanchored⟩ := Reading.regular_of_run hb₀ (Token.visible_of_classify hts')
  obtain ⟨b, hrun, hanchors⟩ := PatternGraph.anchored_ok hreg.consistent
  obtain ⟨q', hq'⟩ := hbare.anchors hr.before hr.anchors hanchors
  refine ⟨q', b, b₀, ?_, ⟨hreg, hunanchored, hanchors, hreg.anchors hanchors⟩, hq'⟩
  have hclassify : Token.classify cx.bare.elements = .ok ts' := hts'
  simp only [anchoredGraph, graph, hclassify, bind, Except.bind, hof, hrun]

/-- The constraints of the graph of a pattern. -/
theorem Context.constraints_of_anchoredGraph {cx : Context} {g : PatternGraph} {ts : List Token}
    (h : cx.anchoredGraph = .ok g) (hts : Token.classify cx.elements = .ok ts) :
    g.constraints = Token.constraints ts := by
  obtain ⟨ts', g₀, hts', hg₀, hr⟩ := rooted_of_anchoredGraph h
  rw [hts] at hts'
  cases hts'
  obtain ⟨hs, hreads⟩ := Reading.reads_of_run hg₀
  rw [constraints_of_nodes_eq hr.anchors.nodes, hreads.constraints]
  rfl

end GraphPattern
