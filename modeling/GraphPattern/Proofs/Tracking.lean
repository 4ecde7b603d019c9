import GraphPattern.Proofs.Chains
import GraphPattern.Proofs.Reading

/-!
# GraphPattern — tokens and their nodes and edges

Where a pattern has no constraints, its tokens are in step with the graph that is read from them:
node tokens with nodes, one node for all tokens of a name, and edge tokens with edges between the
nodes before and after them.

## Results

* `PatternGraph.tracks_of_run` — the graph of a pattern is in step with its tokens.
-/

namespace GraphPattern

namespace PatternGraph

variable {cx : Context} {g g' : PatternGraph} {ps qs : List (Token × Handle)}

/-- A node token stands for a node of its name. Its type is that of the node, or left out. -/
def TokenNode (g : PatternGraph) (t : NodeToken) (b : Handle) : Prop :=
  ∃ n nd, b = .node n ∧ g.IsPlace n ∧ g.node? n = some nd ∧ nd.name? = t.name? ∧
    (t.typeName? = none ∨ t.typeName? = nd.typeName?)

/-- An edge token stands for an edge between the nodes of the tokens beside it. -/
def TokenEdge (g : PatternGraph) (ps : List (Token × Handle)) (i : Nat) (t : EdgeToken)
    (b : Handle) : Prop :=
  ∃ k e j s d, b = .edge k ∧ g.edge? k = some e ∧ e.kind.structural = true ∧
    e.name? = t.name? ∧ e.typeName? = t.typeName? ∧ i = j + 1 ∧
    ps[j]? = some (.node s, .node (e.seen k t.direction).this) ∧
    ps[i + 1]? = some (.node d, .node (e.seen k t.direction).that)

/-- Tokens, each with what it stands for, are in step with a graph. -/
structure Tracks (g : PatternGraph) (ps : List (Token × Handle)) : Prop where
  plain : ∀ t b, (.constraint t, b) ∉ ps
  node : ∀ t b, (.node t, b) ∈ ps → g.TokenNode t b
  edge : ∀ (i : Nat) t b, ps[i]? = some (.edge t, b) → g.TokenEdge ps i t b
  nodes : ∀ n nd, g.IsPlace n → g.node? n = some nd →
    ∃ t, (.node t, .node n) ∈ ps ∧ t.typeName? = nd.typeName?
  edges : ∀ k e, g.edge? k = some e → e.kind.structural = true ∧ ∃ t, (.edge t, .edge k) ∈ ps
  /-- What has no name comes up once. -/
  single : ∀ (i j : Nat) t t' b, ps[i]? = some (t, b) → ps[j]? = some (t', b) → g.Unnamed b → i = j
  /-- Nodes are numbered in the order in which they come up first. -/
  order : ∀ (i j : Nat) t t' n n', ps[i]? = some (.node t, .node n) →
    ps[j]? = some (.node t', .node n') → (∀ k < i, ∀ t, ps[k]? ≠ some (.node t, .node n)) →
    n.index < n'.index → i < j

-- ---------------------------------------------------------------------------
-- Going on
-- ---------------------------------------------------------------------------

theorem Extends.unnamed (h : g.Extends g') {b : Handle} (hu : g'.Unnamed b) : g.Unnamed b := by
  intro name hname
  cases b with
  | node n => exact hu name ⟨h.isNode hname.1, by rw [h.node? hname.1]; exact hname.2⟩
  | edge k =>
    obtain ⟨e, he, hen⟩ := Option.bind_eq_some_iff.1 hname
    exact hu name (by rw [HasName, h.edge? he]; exact hen)

theorem TokenNode.mono (h : g.Extends g') {t : NodeToken} {b : Handle} (ht : g.TokenNode t b) :
    g'.TokenNode t b := by
  obtain ⟨n, nd, rfl, hn, hnd, hrest⟩ := ht
  exact ⟨n, nd, rfl, h.isPlace hn, by rw [h.node? hn.1]; exact hnd, hrest⟩

theorem getElem?_append_of_some {α : Type} {xs ys : List α} {i : Nat} {x : α}
    (h : xs[i]? = some x) : (xs ++ ys)[i]? = some x := by
  rw [List.getElem?_append_left (List.getElem?_eq_some_iff.1 h).1]
  exact h

theorem getElem?_append_cases {α : Type} {xs ys : List α} {i : Nat} {x : α}
    (h : (xs ++ ys)[i]? = some x) :
    xs[i]? = some x ∨ xs.length ≤ i ∧ ys[i - xs.length]? = some x := by
  rw [List.getElem?_append] at h
  split at h
  · exact .inl h
  · exact .inr ⟨by omega, h⟩

theorem pair_cases {α : Type} {x y z : α} {i : Nat} (h : [x, y][i]? = some z) : i = 0 ∨ i = 1 := by
  have hlt := (List.getElem?_eq_some_iff.1 h).1
  simp only [List.length_cons, List.length_nil] at hlt
  omega

/-- In a pair, things that differ stand once. -/
theorem pair_unique {α β : Type} {x y : α × β} (hne : x.2 ≠ y.2) {i j : Nat} {a a' : α} {b : β}
    (hi : [x, y][i]? = some (a, b)) (hj : [x, y][j]? = some (a', b)) : i = j := by
  rcases pair_cases hi with rfl | rfl <;> rcases pair_cases hj with rfl | rfl
  · rfl
  · cases hi
    cases hj
    exact absurd rfl hne
  · cases hi
    cases hj
    exact absurd rfl hne
  · rfl

theorem TokenEdge.mono (h : g.Extends g') {i : Nat} {t : EdgeToken} {b : Handle}
    (ht : g.TokenEdge ps i t b) : g'.TokenEdge (ps ++ qs) i t b := by
  obtain ⟨k, e, j, s, d, rfl, he, hk, hname, htype, hi, hthis, hthat⟩ := ht
  exact ⟨k, e, j, s, d, rfl, h.edge? he, hk, hname, htype, hi, getElem?_append_of_some hthis,
    getElem?_append_of_some hthat⟩

theorem Tracks.isNode_of_mem (h : g.Tracks ps) {t : Token} {n : NodeId}
    (hmem : (t, .node n) ∈ ps) : g.IsNode n := by
  cases t with
  | constraint t => exact absurd hmem (h.plain t _)
  | node t =>
    obtain ⟨_, _, ⟨⟩, hp, -⟩ := h.node t _ hmem
    exact hp.1
  | edge t =>
    obtain ⟨i, hi⟩ := List.getElem?_of_mem hmem
    obtain ⟨_, _, _, _, _, hb, -⟩ := h.edge i t _ hi
    cases hb

theorem Tracks.edge?_of_mem (h : g.Tracks ps) {t : Token} {k : EdgeId}
    (hmem : (t, .edge k) ∈ ps) : ∃ e, g.edge? k = some e := by
  cases t with
  | constraint t => exact absurd hmem (h.plain t _)
  | node t =>
    obtain ⟨_, _, hb, -⟩ := h.node t _ hmem
    cases hb
  | edge t =>
    obtain ⟨i, hi⟩ := List.getElem?_of_mem hmem
    obtain ⟨k', e, _, _, _, hb, he, -⟩ := h.edge i t _ hi
    cases hb
    exact ⟨e, he⟩

/-- A node that no token stands for is new. -/
theorem Tracks.not_isNode_of_first (h : g.Tracks ps) (hext : g.Extends g') {n : NodeId}
    (hn : g'.IsPlace n) (hfirst : ∀ k < ps.length, ∀ t, ps[k]? ≠ some (.node t, .node n)) :
    ¬ g.IsNode n := by
  intro hold
  obtain ⟨-, nd, hnd, -⟩ := hext.isPlace_before hold hn
  obtain ⟨t, ht, -⟩ := h.nodes n nd (hext.isPlace_before hold hn) hnd
  obtain ⟨k, hk⟩ := List.getElem?_of_mem ht
  exact hfirst k (List.getElem?_eq_some_iff.1 hk).1 t hk

/-- New nodes are numbered behind those that are there. -/
theorem index_lt_of_not_isNode {m n : NodeId} (hm : g.IsNode m) (hn : g'.IsNode n)
    (hnew : ¬ g.IsNode n) : m.index < n.index := by
  obtain ⟨i, rfl, hi⟩ := hm
  obtain ⟨k, rfl, -⟩ := hn
  have hge : g.nodes.length ≤ k := Nat.le_of_not_lt fun hk => hnew ⟨k, rfl, hk⟩
  show (i : Int) < k
  omega

/-- Going on with some more tokens, of which one is a node token. -/
theorem Tracks.extend (h : g.Tracks ps) (hext : g.Extends g') (next : NodeToken) (n : NodeId)
    (hplain : ∀ t b, (.constraint t, b) ∉ qs)
    (hnode : ∀ t b, (.node t, b) ∈ qs → t = next ∧ b = .node n) (hnext : g'.TokenNode next (.node n))
    (hlisted : (.node next, .node n) ∈ qs)
    (hedge : ∀ (i : Nat) t b, (ps ++ qs)[i]? = some (.edge t, b) → ps.length ≤ i →
      g'.TokenEdge (ps ++ qs) i t b)
    (hold : ∀ m, g'.IsNode m → g.IsNode m ∨ m = n)
    (hnew : ¬ g.IsNode n → ∃ nd, g'.node? n = some nd ∧ next.typeName? = nd.typeName?)
    (hedges : ∀ k e, g'.edge? k = some e → g.edge? k = some e ∨
      e.kind.structural = true ∧ ∃ t, (.edge t, .edge k) ∈ qs)
    (hsingle : ∀ (j : Nat) t b, qs[j]? = some (t, b) → g'.Unnamed b →
      (∀ t', (t', b) ∉ ps) ∧ ∀ j' t', qs[j']? = some (t', b) → j = j') :
    g'.Tracks (ps ++ qs) where
  plain := by
    intro t b hmem
    rcases List.mem_append.1 hmem with hmem | hmem
    · exact h.plain t b hmem
    · exact hplain t b hmem
  node := by
    intro t b hmem
    rcases List.mem_append.1 hmem with hmem | hmem
    · exact (h.node t b hmem).mono hext
    · obtain ⟨rfl, rfl⟩ := hnode t b hmem
      exact hnext
  edge := by
    intro i t b hi
    rcases getElem?_append_cases hi with hi' | ⟨hlen, -⟩
    · exact (h.edge i t b hi').mono hext
    · exact hedge i t b hi hlen
  nodes := by
    intro m nd hm hnd
    by_cases hm' : g.IsNode m
    · obtain ⟨t, ht, htype⟩ := h.nodes m nd (hext.isPlace_before hm' hm)
        (by rw [← hext.node? hm']; exact hnd)
      exact ⟨t, List.mem_append_left _ ht, htype⟩
    · obtain rfl := (hold m hm.1).resolve_left hm'
      obtain ⟨nd', hnd', htype⟩ := hnew hm'
      rw [hnd] at hnd'
      cases hnd'
      exact ⟨next, List.mem_append_right _ hlisted, htype⟩
  edges := by
    intro k e he
    rcases hedges k e he with hold | ⟨hk, t, ht⟩
    · obtain ⟨hk, t, ht⟩ := h.edges k e hold
      exact ⟨hk, t, List.mem_append_left _ ht⟩
    · exact ⟨hk, t, List.mem_append_right _ ht⟩
  single := by
    intro i j t t' b hi hj hu
    rcases getElem?_append_cases hi with hi' | ⟨hlen, hi'⟩ <;>
      rcases getElem?_append_cases hj with hj' | ⟨hlen', hj'⟩
    · exact h.single i j t t' b hi' hj' (hext.unnamed hu)
    · exact absurd (List.mem_of_getElem? hi') ((hsingle _ _ _ hj' hu).1 t)
    · exact absurd (List.mem_of_getElem? hj') ((hsingle _ _ _ hi' hu).1 t')
    · have := (hsingle _ _ _ hi' hu).2 _ _ hj'
      omega
  order := by
    intro i j t t' m m' hi hj hfirst hlt
    rcases getElem?_append_cases hi with hi' | ⟨hlen, hi'⟩
    · rcases getElem?_append_cases hj with hj' | ⟨hlen', -⟩
      · refine h.order i j t t' m m' hi' hj' (fun k hk t'' hmem => ?_) hlt
        exact hfirst k hk t'' (getElem?_append_of_some hmem)
      · have := (List.getElem?_eq_some_iff.1 hi').1
        omega
    · -- a node that comes up for the first time is new, and has the greatest number
      exfalso
      obtain ⟨-, heq⟩ := hnode t _ (List.mem_of_getElem? hi')
      obtain rfl : m = n := Handle.node.inj heq
      obtain ⟨_, nd, ⟨⟩, hplace, -⟩ := hnext
      have hfresh : ¬ g.IsNode m := h.not_isNode_of_first hext hplace fun k hk t'' hmem =>
        hfirst k (Nat.lt_of_lt_of_le hk hlen) t'' (getElem?_append_of_some hmem)
      have hm' : g'.IsNode m' := by
        rcases List.mem_append.1 (List.mem_of_getElem? hj) with hmem | hmem
        · exact hext.isNode (h.isNode_of_mem hmem)
        · obtain ⟨-, heq⟩ := hnode t' _ hmem
          rw [Handle.node.inj heq]
          exact hplace.1
      rcases hold m' hm' with hm' | rfl
      · exact Int.lt_asymm hlt (index_lt_of_not_isNode hm' hplace.1 hfresh)
      · exact Int.lt_irrefl _ hlt

-- ---------------------------------------------------------------------------
-- Node tokens and edge tokens
-- ---------------------------------------------------------------------------

/-- What resolving a node token does. -/
structure Resolved (g g₁ : PatternGraph) (t : NodeToken) (n : NodeId) : Prop where
  grown : g.Extends g₁
  edges : g₁.edges = g.edges
  node : g₁.TokenNode t (.node n)
  old : ∀ m, g₁.IsNode m → g.IsNode m ∨ m = n
  new : ¬ g.IsNode n → ∃ nd, g₁.node? n = some nd ∧ t.typeName? = nd.typeName?
  unnamed : g₁.Unnamed (.node n) → ¬ g.IsNode n

theorem Regular.resolved (hg : g.Regular cx) {t : NodeToken} {n : NodeId} {g₁ : PatternGraph}
    (h : Reading.resolve cx g t = .ok (n, g₁)) : g.Resolved g₁ t n := by
  -- the name's node was drawn before, or the token draws one
  rcases Reading.resolve_cases h with ⟨name, hname, hnamed, rfl, htype⟩ | ⟨hadd, hfresh, harg⟩
  · have hhas : g₁.HasName (.node n) name := (hg.names name _).1 hnamed
    obtain ⟨nd, hnd, hndname⟩ := Option.bind_eq_some_iff.1 hhas.2
    refine ⟨.refl _, rfl, ?_, fun m hm => .inl hm,
      fun hn => absurd hhas.1 hn, fun hu => absurd hhas (hu name)⟩
    refine ⟨n, nd, rfl, (hg.isPlace_of_named? hnamed).1, hnd, by rw [hname]; exact hndname, ?_⟩
    -- a type written again is the one that the node has
    cases htt : t.typeName? with
    | none => exact .inl rfl
    | some type =>
      have := htype type htt
      rw [hnd, Option.bind_some] at this
      exact .inr this.symm
  · have hn : n = ⟨g.nodes.length⟩ := congrArg Prod.fst hadd
    have hg₁ : g₁ = (g.addNode (placeNode cx t)).2 := congrArg Prod.snd hadd
    subst hn hg₁
    have hnode : (g.addNode (placeNode cx t)).2.node? ⟨g.nodes.length⟩ =
        some (placeNode cx t) := node?_addNode_length _ _
    refine ⟨extends_addNode _ _, rfl, ?_, fun m hm => (isNode_addNode _).1 hm,
      fun _ => ⟨_, hnode, rfl⟩, fun _ => not_isNode_length g⟩
    refine ⟨_, _, rfl, ⟨(isNode_addNode _).2 (.inr rfl), _, hnode, ?_⟩, hnode, rfl, .inr rfl⟩
    unfold placeNode
    simp only
    split
    · exact .inr rfl
    · exact .inl rfl

/-- A node token. -/
theorem Tracks.node_step (h : g.Tracks ps) (hg : g.Regular cx) {t : NodeToken} {n : NodeId}
    {g₁ : PatternGraph} (hr : Reading.resolve cx g t = .ok (n, g₁)) :
    g₁.Tracks (ps ++ [(.node t, .node n)]) := by
  have hres := hg.resolved hr
  refine h.extend hres.grown t n (by simp) (by simp) hres.node (by simp) ?_ hres.old hres.new
    ?_ ?_
  · intro i t' b hi hlen
    rcases getElem?_append_cases hi with hi' | ⟨-, hi'⟩
    · have := (List.getElem?_eq_some_iff.1 hi').1
      omega
    · have := List.mem_of_getElem? hi'
      simp at this
  · intro k e he
    left
    rw [PatternGraph.edge?, hres.edges] at he
    exact he
  · intro j t' b hj hu
    have hmem := List.mem_singleton.1 (List.mem_of_getElem? hj)
    have hlt := (List.getElem?_eq_some_iff.1 hj).1
    cases hmem
    refine ⟨fun t'' hmem => hres.unnamed hu (h.isNode_of_mem hmem), fun j' t'' hj' => ?_⟩
    have hlt' := (List.getElem?_eq_some_iff.1 hj').1
    rw [List.length_singleton] at hlt hlt'
    omega

/-- An edge token and the node token after it. -/
theorem Tracks.edge_step (h : g.Tracks ps) (hg : g.Regular cx) {t : EdgeToken} {next s : NodeToken}
    {current n : NodeId} {g₁ g₂ : PatternGraph} {j : Nat} (hlast : ps.length = j + 1)
    (hcurrent : ps[j]? = some (.node s, .node current))
    (hr : Reading.resolve cx g next = .ok (n, g₁)) (hg₁ : g₁.Consistent)
    (hc : Reading.connect cx g₁ t current n = .ok g₂) :
    g₂.Tracks (ps ++ [(.edge t, .edge ⟨g₁.edges.length⟩), (.node next, .node n)]) := by
  have hres := hg.resolved hr
  obtain ⟨-, k, hadd⟩ := Reading.connect_ok hc
  have hcur : g₁.IsNode current :=
    hres.grown.isNode (h.isNode_of_mem (List.mem_of_getElem? hcurrent))
  have hn : g₁.IsNode n := by
    obtain ⟨_, _, ⟨⟩, hp, -⟩ := hres.node
    exact hp.1
  have hends := Reading.isNode_placeEdge cx t hcur hn
  obtain ⟨g', hadd', -, hnodes, hedges, -⟩ := hg₁.addEdge _ hends.1 hends.2
  rw [hadd] at hadd'
  obtain rfl : g₂ = g' := congrArg Prod.snd hadd'
  have hext₂ : g₁.Extends g₂ := extends_of_edges hnodes hedges
  have hext : g.Extends g₂ := hres.grown.trans hext₂
  have hisNode := isNode_of_nodes_eq hnodes
  have hnode? := node?_of_nodes_eq hnodes
  have hlast' : g₂.edge? ⟨g₁.edges.length⟩ = some (placeEdge cx t current n) := by
    rw [edge?_append hedges, if_pos rfl]
  have hseen := placeEdge_seen cx t current n ⟨g₁.edges.length⟩
  have hkind := placeEdge_structural cx t current n
  refine h.extend hext next n (by simp) (by simp) (hres.node.mono hext₂) (by simp) ?_ ?_ ?_ ?_ ?_
  · intro i t' b hi hlen
    rcases getElem?_append_cases hi with hi' | ⟨-, hi'⟩
    · have := (List.getElem?_eq_some_iff.1 hi').1
      omega
    · have hi₀ : i = ps.length ∨ i = ps.length + 1 := by
        have := pair_cases hi'
        omega
      rcases hi₀ with rfl | rfl
      · rw [Nat.sub_self] at hi'
        cases hi'
        refine ⟨_, _, j, s, next, rfl, hlast', hkind, rfl, rfl, hlast, ?_, ?_⟩
        · rw [hseen.1]
          exact getElem?_append_of_some hcurrent
        · rw [hseen.2, List.getElem?_append_right (by omega)]
          simp
      · rw [Nat.add_sub_cancel_left] at hi'
        cases hi'
  · intro m hm
    exact hres.old m ((hisNode m).1 hm)
  · intro hfresh
    obtain ⟨nd, hnd, htype⟩ := hres.new hfresh
    exact ⟨nd, by rw [hnode?]; exact hnd, htype⟩
  · intro k e he
    rw [edge?_append hedges] at he
    split at he
    · rename_i hk
      cases he
      exact .inr ⟨hkind, t, by simp [hk]⟩
    · rw [PatternGraph.edge?, hres.edges] at he
      exact .inl he
  · intro i t' b hi hu
    refine ⟨fun t'' hmem => ?_, fun i' t'' hi' => pair_unique (by simp) hi hi'⟩
    rcases pair_cases hi with rfl | rfl
    · cases hi
      -- the new edge comes after all others
      obtain ⟨e, he⟩ := h.edge?_of_mem hmem
      have hlt := (List.getElem?_eq_some_iff.1 (show g.edges[_]? = some e from he)).1
      rw [hres.edges] at hlt
      exact absurd hlt (Nat.lt_irrefl _)
    · cases hi
      refine hres.unnamed (fun name hname => hu name ?_) (h.isNode_of_mem hmem)
      rw [HasName, hisNode, hnode?]
      exact hname

-- ---------------------------------------------------------------------------
-- Whole patterns
-- ---------------------------------------------------------------------------

theorem tracks_empty : PatternGraph.empty.Tracks [] where
  plain := by intro t b h; cases h
  node := by intro t b h; cases h
  edge := by intro i t b h; cases h
  nodes := by
    rintro n nd ⟨⟨i, rfl, hi⟩, nd', hnd', hk⟩ -
    obtain rfl : i = 0 := by simpa [PatternGraph.empty] using hi
    cases hnd'
    rcases hk with hk | hk <;> cases hk
  edges := by intro k e h; cases h
  single := by intro i j t t' b h; cases h
  order := by intro i j t t' n n' h; cases h

theorem Reading.Reads.tracks {r : Reading} {ts : List Token} {hs : List Handle}
    (hreads : Reading.Reads cx r ts hs g) (hr : Reading.Sound cx r) (hts : Token.Visible ts)
    (hplain : ∀ t, .constraint t ∉ ts) (h : r.graph.Tracks ps)
    (hcur : r.current = r.graph.anchor ∨
      ∃ j s, ps.length = j + 1 ∧ ps[j]? = some (.node s, .node r.current)) :
    ∃ qs, qs.map (·.1) = ts ∧ g.Tracks (ps ++ qs) := by
  -- along the reading, which meets no constraint: each token is paired with what it drew
  induction hreads generalizing ps with
  | done => exact ⟨[], rfl, by rwa [List.append_nil]⟩
  | @constraint r r' t ts hs g step _ ih => exact absurd (by simp) (hplain t)
  | @node r t n g₁ g ts hs step _ ih =>
    obtain ⟨hreg, -, hplace⟩ := hr.regular.resolve (hts (.node t) (by simp)) step
    have hsound : Reading.Sound cx { graph := g₁, current := n } :=
      ⟨hreg, .inr hplace, by intro c hc; cases hc⟩
    obtain ⟨qs, hqs, htracks⟩ := ih hsound (fun t ht => hts t (List.mem_cons_of_mem _ ht))
      (fun t ht => hplain t (List.mem_cons_of_mem _ ht)) (h.node_step hr.regular step)
      (.inr ⟨ps.length, t, by simp, by simp⟩)
    refine ⟨(.node t, .node n) :: qs, by rw [List.map_cons, hqs], ?_⟩
    rwa [List.append_assoc] at htracks
  | @edge r t next n g₁ g₂ g ts hs source target step _ ih =>
    obtain ⟨hreg₁, hext, hplace⟩ := hr.regular.resolve (hts (.node next) (by simp)) target
    have hcurp : g₁.IsPlace r.current := hext.isPlace (hr.isPlace_current source)
    obtain ⟨hreg₂, hext₂⟩ := hreg₁.connect hcurp hplace (hts (.edge t) (by simp)) step
    have hsound : Reading.Sound cx { graph := g₂, current := n } :=
      ⟨hreg₂, .inr (hext₂.isPlace hplace), by intro c hc; cases hc⟩
    obtain ⟨j, s, hlast, hcurrent⟩ := hcur.resolve_left source
    obtain ⟨qs, hqs, htracks⟩ := ih hsound (fun t ht => hts t (by simp [ht]))
      (fun t ht => hplain t (by simp [ht]))
      (h.edge_step hr.regular hlast hcurrent target hreg₁.consistent step)
      (.inr ⟨ps.length + 1, next, by simp, by simp⟩)
    refine ⟨(.edge t, .edge ⟨g₁.edges.length⟩) :: (.node next, .node n) :: qs,
      by rw [List.map_cons, List.map_cons, hqs], ?_⟩
    rwa [List.append_assoc] at htracks

/-- The graph of a pattern without constraints is in step with its tokens. -/
theorem tracks_of_run {ts : List Token} (h : ofTokens cx ts = .ok g) (hts : Token.Visible ts)
    (hplain : ∀ t, .constraint t ∉ ts) : ∃ ps, ps.map (·.1) = ts ∧ g.Tracks ps := by
  obtain ⟨hs, hreads⟩ := Reading.reads_of_run h
  obtain ⟨qs, hqs, htracks⟩ := hreads.tracks (.start cx) hts hplain tracks_empty (.inl rfl)
  exact ⟨qs, hqs, htracks⟩

end PatternGraph

end GraphPattern
