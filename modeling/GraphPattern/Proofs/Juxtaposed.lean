import GraphPattern.Proofs.Exhaustive
import GraphPattern.Proofs.Renumberings

/-!
# GraphPattern — patterns one after the other

Two patterns that have no name in common are read one after the other. What the second one adds is
what it would add on its own, behind what the first one has made: its nodes but the anchor and its
edges have other places, and so have the positions of its tokens.

## Results

* `Token.classify_append` — the tokens of two patterns in a row.
* `PatternGraph.Reading.Reads.beside` — the graph of the second pattern beside that of the first.
-/

namespace GraphPattern

open PatternGraph

-- ---------------------------------------------------------------------------
-- Tokens
-- ---------------------------------------------------------------------------

namespace Token

/-- The names that a token uses or binds. -/
def names : Token → List String
  | .node t => t.name?.toList
  | .edge t => t.name?.toList
  | .constraint t => t.constraint.names

/-- The token some places further on. -/
def later (d : Nat) (t : Token) : Token :=
  t.atIndex (t.index + d)

theorem later_atIndex (d i : Nat) (t : Token) : (t.atIndex i).later d = t.atIndex (i + d) := by
  cases t <;> rfl

/-- What a text is read as does not depend on where it stands. -/
theorem Units.later {i : Nat} {es : List Element} {ts : List Token} (h : Units i es ts) (d : Nat) :
    Units (i + d) es (ts.map (later d)) := by
  induction h with
  | nil i => exact .nil _
  | @marker i s m payload c es ts starts marker taken rest ih =>
    rw [Nat.add_right_comm] at ih
    exact .marker starts marker taken ih
  | @token i s t es ts starts text rest ih =>
    rw [Nat.add_right_comm] at ih
    rw [List.map_cons, later_atIndex]
    exact .token starts text ih

/-- The tokens of elements in a row. -/
theorem Units.append {i : Nat} {es es' : List Element} {ts ts' : List Token} (h : Units i es ts)
    (h' : Units (i + es.length) es' ts') : Units i (es ++ es') (ts ++ ts') := by
  induction h with
  | nil i => exact h'
  | @marker i s m payload c es ts starts marker taken rest ih =>
    refine .marker starts marker taken (ih ?_)
    rw [Nat.add_assoc, Nat.add_comm 2]
    exact h'
  | @token i s t es ts starts text rest ih =>
    refine .token starts text (ih ?_)
    rw [Nat.add_assoc, Nat.add_comm 1]
    exact h'

/-- The tokens of two patterns in a row. -/
theorem classify_append {es es' : List Element} {ts ts' : List Token}
    (h : classify es = .ok ts) (h' : classify es' = .ok ts') :
    classify (es ++ es') = .ok (ts ++ ts'.map (Token.later es.length)) := by
  have hlater := (classify_eq_ok_iff.1 h').later es.length
  exact classify_eq_ok_iff.2 ((classify_eq_ok_iff.1 h).append hlater)

theorem mem_of_mapM {α β : Type} {f : α → Option β} {xs : List α} {ys : List β}
    (h : xs.mapM f = some ys) {y : β} (hy : y ∈ ys) : ∃ x ∈ xs, f x = some y := by
  induction xs generalizing ys with
  | nil =>
    cases h
    cases hy
  | cons x xs ih =>
    rw [List.mapM_cons] at h
    obtain ⟨z, hz, h⟩ := Option.bind_eq_some_iff.1 h
    obtain ⟨zs, hzs, h⟩ := Option.bind_eq_some_iff.1 h
    cases h
    rcases List.mem_cons.1 hy with rfl | hy
    · exact ⟨x, by simp, hz⟩
    · obtain ⟨x', hx', hfx⟩ := ih hzs hy
      exact ⟨x', List.mem_cons_of_mem _ hx', hfx⟩

theorem isName_of_binding? {e : Element} {n : String} {f : Form} (h : binding? e = some (n, f)) :
    isName n = true := by
  unfold binding? at h
  split at h
  all_goals first | cases h | skip
  all_goals
    split at h
    · cases h
      assumption
    · cases h

/-- What is bound by a payload can be written. -/
theorem isName_of_bindings? {payload : Element} {bs : List (String × Form)}
    (h : bindings? payload = some bs) : ∀ b ∈ bs, isName b.1 = true := by
  rintro ⟨n, f⟩ hb
  unfold bindings? at h
  split at h
  case h_4 =>
    cases h
    cases hb
  case h_5 => cases h
  all_goals
    obtain ⟨e, -, he⟩ := mem_of_mapM h hb
    exact isName_of_binding? he

/-- What a constraint binds can be written. -/
theorem isName_of_constraint? {m : Marker} {payload : Element} {c : Constraint}
    (h : constraint? m payload = .ok c) : ∀ name ∈ c.names, isName name = true := by
  intro name hname
  unfold constraint? at h
  split at h
  case h_5 =>
    split at h
    · cases h
      obtain ⟨b, hb, rfl⟩ := List.mem_map.1 hname
      exact isName_of_bindings? (by assumption) b hb
    · cases h
  all_goals
    cases h
    try cases hname

/-- No name that a constraint binds is hidden. -/
theorem visible_of_constraints {es : List Element} {ts : List Token} (h : classify es = .ok ts) :
    ∀ c ∈ constraints ts, ∀ name ∈ c.names, isHiddenName name = false := by
  rw [classify_eq_ok_iff] at h
  generalize 0 = i at h
  induction h with
  | nil i => simp [constraints]
  | marker starts marker taken rest ih =>
    intro c hc name hname
    rcases List.mem_cons.1 hc with rfl | hc
    · exact isHiddenName_of_isName (isName_of_constraint? taken name hname)
    · exact ih c hc name hname
  | @token i s t es ts starts text rest ih =>
    have hnone : (t.atIndex i).held? = none := by
      have := held?_of_read? text
      cases t <;> simp_all [held?, atIndex]
    rw [constraints, List.filterMap_cons_none hnone]
    exact ih

end Token

namespace PatternGraph

variable {cx cx' : Context} {p g j g₁ : PatternGraph} {d : Nat}

-- ---------------------------------------------------------------------------
-- Reading on
-- ---------------------------------------------------------------------------

namespace Reading

theorem placeNode_congr (hargs : cx'.arguments = cx.arguments) (t : NodeToken) :
    placeNode cx' t = placeNode cx t := by
  rw [placeNode, placeNode, namesArgument, namesArgument, hargs]

theorem placeEdge_congr (hargs : cx'.arguments = cx.arguments) (t : EdgeToken)
    (current next : NodeId) : placeEdge cx' t current next = placeEdge cx t current next := by
  rw [placeEdge, placeEdge, namesArgument, namesArgument, hargs]

/-- Of its context, a node token only depends on the arguments. -/
theorem resolve_congr (hargs : cx'.arguments = cx.arguments) {t : NodeToken} {n : NodeId}
    (h : resolve cx g t = .ok (n, g₁)) : resolve cx' g t = .ok (n, g₁) := by
  have hplain : namesArgument cx' t.name? = true → t.typeName? = none := by
    rw [namesArgument, hargs]
    exact plain_of_resolve h
  rcases resolve_cases h with ⟨name, hname, hnamed, rfl, htype⟩ | ⟨hadd, hfresh, -⟩
  · exact resolve_known hname hnamed hplain htype
  · rw [resolve_new hfresh hplain, placeNode_congr hargs, hadd]

/-- Of its context, a reading only depends on the arguments. -/
theorem Reads.congr (hargs : cx'.arguments = cx.arguments) {r : Reading} {ts : List Token}
    {hs : List Handle} (h : Reads cx r ts hs g) : Reads cx' r ts hs g := by
  induction h with
  | done => exact .done
  | constraint step _ ih => exact .constraint step ih
  | node step _ ih => exact .node (resolve_congr hargs step) ih
  | @edge r t next n g₁ g₂ g ts hs source target step _ ih =>
    refine .edge source (resolve_congr hargs target) ?_ ih
    have hfresh := (connect_ok step).1
    rw [connect_fresh _ _ hfresh] at step ⊢
    rwa [placeEdge_congr hargs]

/-- What starts with a node is read on from the graph alone. -/
theorem Reads.run_append {r : Reading} {ts ts' : List Token} {hs : List Handle}
    (h : Reads cx r ts hs g) (hnode : ∀ t ∈ ts'.head?, ∃ u, t = .node u) :
    run cx r (ts ++ ts') = run cx { graph := g } ts' := by
  induction h with
  | done =>
    cases ts' with
    | nil => rfl
    | cons t ts' =>
      obtain ⟨u, rfl⟩ := hnode t rfl
      rfl
  | constraint step _ ih =>
    rw [List.cons_append, run, step]
    exact ih
  | node step _ ih =>
    rw [List.cons_append, run, step]
    exact ih
  | edge source target step _ ih =>
    rw [List.cons_append, List.cons_append, run, if_neg source]
    simp only [target, step, bind, Except.bind]
    exact ih

end Reading

-- ---------------------------------------------------------------------------
-- Names
-- ---------------------------------------------------------------------------

/-- The name is that of a node or an edge. -/
def Uses (g : PatternGraph) (name : String) : Prop :=
  (∃ nd ∈ g.nodes, nd.name? = some name) ∨ ∃ e ∈ g.edges, e.name? = some name

theorem uses_of_hasName {h : Handle} {name : String} (hn : g.HasName h name) : g.Uses name := by
  cases h with
  | node n =>
    obtain ⟨nd, hnd, hname⟩ := Option.bind_eq_some_iff.1 hn.2
    exact .inl ⟨nd, Plan.mem_nodes_of_node? hnd, hname⟩
  | edge k =>
    obtain ⟨e, he, hname⟩ := Option.bind_eq_some_iff.1 hn
    exact .inr ⟨e, List.mem_of_getElem? he, hname⟩

namespace Reading

theorem uses_of_resolve {t : NodeToken} {n : NodeId} (h : resolve cx g t = .ok (n, g₁))
    {name : String} (hn : g₁.Uses name) : g.Uses name ∨ t.name? = some name := by
  rcases resolve_cases h with ⟨-, -, -, rfl, -⟩ | ⟨hadd, -, -⟩
  · exact .inl hn
  · obtain rfl : g₁ = (g.addNode (placeNode cx t)).2 := congrArg Prod.snd hadd
    rcases hn with ⟨nd, hmem, hname⟩ | hedge
    · rcases List.mem_append.1 hmem with hmem | hmem
      · exact .inl (.inl ⟨nd, hmem, hname⟩)
      · rw [List.mem_singleton.1 hmem] at hname
        exact .inr hname
    · exact .inl (.inr hedge)

theorem uses_of_addEdge {e : PatternEdge} {k : EdgeId} (h : g.addEdge e = (.ok k, g₁))
    {name : String} (hn : g₁.Uses name) : g.Uses name ∨ e.name? = some name := by
  rw [Uses, nodes_of_addEdge h, edges_of_addEdge h] at hn
  rcases hn with hnode | ⟨e', hmem, hname⟩
  · exact .inl (.inl hnode)
  · rcases List.mem_append.1 hmem with hmem | hmem
    · exact .inl (.inr ⟨e', hmem, hname⟩)
    · rw [List.mem_singleton.1 hmem] at hname
      exact .inr hname

/-- The names in the graph of a pattern are those of its tokens. -/
theorem Reads.uses {r : Reading} {ts : List Token} {hs : List Handle} (h : Reads cx r ts hs g)
    {name : String} (hn : g.Uses name) : r.graph.Uses name ∨ ∃ t ∈ ts, name ∈ t.names := by
  -- along the reading: each step uses what its token names, besides what was used before
  induction h with
  | done => exact .inl hn
  | @constraint r r' t ts hs g step _ ih =>
    obtain ⟨k, hadd, -⟩ := constrain_ok step
    rcases ih hn with hn | ⟨u, hu, hname⟩
    · rcases uses_of_addEdge hadd hn with (⟨nd, hmem, hname⟩ | hedge) | hname
      · rcases List.mem_append.1 hmem with hmem | hmem
        · exact .inl (.inl ⟨nd, hmem, hname⟩)
        · -- a constraint's own node has no name
          rw [List.mem_singleton.1 hmem] at hname
          cases hname
      · exact .inl (.inr hedge)
      · cases hname
    · exact .inr ⟨u, List.mem_cons_of_mem _ hu, hname⟩
  | @node r t n g₁ g ts hs step _ ih =>
    rcases ih hn with hn | ⟨u, hu, hname⟩
    · refine (uses_of_resolve step hn).imp_right fun hname => ⟨.node t, by simp, ?_⟩
      simp [Token.names, hname]
    · exact .inr ⟨u, List.mem_cons_of_mem _ hu, hname⟩
  | @edge r t next n g₁ g₂ g ts hs source target step _ ih =>
    obtain ⟨-, k, hadd⟩ := connect_ok step
    rcases ih hn with hn | ⟨u, hu, hname⟩
    · rcases uses_of_addEdge hadd hn with hn | hname
      · refine (uses_of_resolve target hn).imp_right fun hname => ⟨.node next, by simp, ?_⟩
        simp [Token.names, hname]
      · refine .inr ⟨.edge t, by simp, ?_⟩
        have hname : t.name? = some name := hname
        simp [Token.names, hname]
    · exact .inr ⟨u, by simp [hu], hname⟩

end Reading

-- ---------------------------------------------------------------------------
-- Graphs beside each other
-- ---------------------------------------------------------------------------

/-- The places behind a graph: other nodes than the anchor come after those of the graph, and edges
after its edges. -/
def behind (p : PatternGraph) : Renumbering where
  node n := if n = ⟨0⟩ then n else ⟨n.index + (p.nodes.length - 1 : Nat)⟩
  edge k := ⟨k.index + p.edges.length⟩

end PatternGraph

/-- The node with the position of its token moved. -/
def PatternNode.later (d : Nat) (nd : PatternNode) : PatternNode :=
  { nd with tokenIndex? := nd.tokenIndex?.map (· + d) }

/-- The edge between other places, with the position of its token moved. -/
def PatternEdge.later (q : Renumbering) (d : Nat) (e : PatternEdge) : PatternEdge :=
  { e with alpha := q.node e.alpha, omega := q.node e.omega
           tokenIndex? := e.tokenIndex?.map (· + d) }

namespace PatternGraph

variable {cx cx' : Context} {p g j g₁ : PatternGraph} {d : Nat}

/-- The third graph has the second one behind the first one. -/
structure Beside (d : Nat) (p g j : PatternGraph) : Prop where
  nodes : j.nodes = p.nodes ++ g.nodes.tail.map (PatternNode.later d)
  edges : j.edges = p.edges ++ g.edges.map (PatternEdge.later p.behind d)
  names : ∀ name, p.named? name = none → j.named? name = (g.named? name).map p.behind.handle

theorem behind_of_ne (p : PatternGraph) {n : NodeId} (h : n ≠ ⟨0⟩) :
    p.behind.node n = ⟨n.index + (p.nodes.length - 1 : Nat)⟩ :=
  if_neg h

theorem behind_succ (hp : 0 < p.nodes.length) (i : Nat) :
    p.behind.node ⟨(i + 1 : Nat)⟩ = ⟨(p.nodes.length + i : Nat)⟩ := by
  have hne : (⟨(i + 1 : Nat)⟩ : NodeId) ≠ ⟨0⟩ := by
    intro heq
    have := NodeId.mk.inj heq
    omega
  rw [behind_of_ne p hne, NodeId.mk.injEq]
  simp only
  omega

theorem behind_anchor (p g j : PatternGraph) : p.behind.node g.anchor = j.anchor := by
  simp [behind, anchor]

/-- A node is the anchor or comes after it. -/
theorem IsNode.eq_anchor_or_succ {n : NodeId} (hn : g.IsNode n) :
    n = g.anchor ∨ ∃ i : Nat, n = ⟨(i + 1 : Nat)⟩ ∧ i + 1 < g.nodes.length := by
  obtain ⟨i, rfl, hi⟩ := hn
  cases i with
  | zero => exact .inl rfl
  | succ i => exact .inr ⟨i, rfl, hi⟩

theorem behind_injective (hp : 0 < p.nodes.length) {m n : NodeId} (hm : g.IsNode m)
    (hn : g.IsNode n) (h : p.behind.node m = p.behind.node n) : m = n := by
  have hanchor := behind_anchor p g p
  rcases hm.eq_anchor_or_succ with rfl | ⟨i, rfl, -⟩ <;>
    rcases hn.eq_anchor_or_succ with rfl | ⟨k, rfl, -⟩
  · rfl
  · rw [hanchor, behind_succ hp] at h
    have := NodeId.mk.inj h
    omega
  · rw [hanchor, behind_succ hp] at h
    have := NodeId.mk.inj h
    omega
  · rw [behind_succ hp, behind_succ hp] at h
    have := NodeId.mk.inj h
    congr 1
    omega

theorem named?_addNode (g : PatternGraph) (nd : PatternNode) (name : String) :
    (g.addNode nd).2.named? name =
      if nd.name? = some name then some (.node ⟨g.nodes.length⟩) else g.named? name := by
  cases hname : nd.name? with
  | none => simp [named?, PatternGraph.addNode, hname]
  | some own =>
    by_cases heq : name = own
    · simp [named?, PatternGraph.addNode, hname, heq]
    · have hne : ¬ own = name := fun h => heq h.symm
      simp [named?, PatternGraph.addNode, hname, hne, List.lookup_cons, beq_eq_false_iff_ne.2 heq]

theorem named?_of_namesWith {e : PatternEdge} (h : g₁.names = Consistent.namesWith g e)
    (name : String) : g₁.named? name =
      if e.name? = some name then some (.edge ⟨g.edges.length⟩) else g.named? name := by
  cases hname : e.name? with
  | none => simp [named?, h, Consistent.namesWith, hname]
  | some own =>
    by_cases heq : name = own
    · simp [named?, h, Consistent.namesWith, hname, heq]
    · have hne : ¬ own = name := fun h => heq h.symm
      simp [named?, h, Consistent.namesWith, hname, hne, List.lookup_cons,
        beq_eq_false_iff_ne.2 heq]

namespace Beside

variable (h : Beside d p g j) (hp : 0 < p.nodes.length) (hg : 0 < g.nodes.length)

include h in
theorem length_nodes : j.nodes.length = p.nodes.length + (g.nodes.length - 1) := by
  rw [h.nodes, List.length_append, List.length_map, List.length_tail]

include h in
theorem length_edges : j.edges.length = p.edges.length + g.edges.length := by
  rw [h.edges, List.length_append, List.length_map]

include h hp hg in
theorem isNode {n : NodeId} (hn : g.IsNode n) : j.IsNode (p.behind.node n) := by
  rcases hn.eq_anchor_or_succ with rfl | ⟨i, rfl, hi⟩
  · rw [behind_anchor p g j]
    refine isNode_anchor ?_
    rw [h.length_nodes]
    omega
  · rw [behind_succ hp]
    refine ⟨_, rfl, ?_⟩
    rw [h.length_nodes]
    omega

include h hp in
/-- Behind the first graph are the nodes of the second one. -/
theorem node? {n : NodeId} (hn : g.IsNode n) (hne : n ≠ g.anchor) :
    j.node? (p.behind.node n) = (g.node? n).map (PatternNode.later d) := by
  obtain ⟨i, rfl, -⟩ := hn.eq_anchor_or_succ.resolve_left hne
  rw [behind_succ hp, node?_natCast, node?_natCast, h.nodes,
    List.getElem?_append_right (Nat.le_add_right _ _), Nat.add_sub_cancel_left, List.getElem?_map,
    List.getElem?_tail]

include h in
theorem edge? (k : EdgeId) :
    j.edge? (p.behind.edge k) = (g.edge? k).map (PatternEdge.later p.behind d) := by
  show j.edges[k.index + p.edges.length]? = (g.edges[k.index]?).map _
  rw [h.edges, List.getElem?_append_right (Nat.le_add_left _ _), Nat.add_sub_cancel,
    List.getElem?_map]

include h in
theorem old : p.Extends j := ⟨h.nodes ▸ List.prefix_append .., h.edges ▸ List.prefix_append ..⟩

include h hp hg in
theorem addNode (nd : PatternNode) : Beside d p (g.addNode nd).2 (j.addNode (nd.later d)).2 ∧
    (⟨j.nodes.length⟩ : NodeId) = p.behind.node ⟨g.nodes.length⟩ := by
  have hplace : (⟨j.nodes.length⟩ : NodeId) = p.behind.node ⟨g.nodes.length⟩ := by
    obtain ⟨i, hi⟩ := Nat.exists_eq_succ_of_ne_zero (Nat.pos_iff_ne_zero.1 hg)
    rw [h.length_nodes, hi, behind_succ hp]
    rfl
  refine ⟨⟨?_, h.edges, fun name hname => ?_⟩, hplace⟩
  · show j.nodes ++ [nd.later d] = p.nodes ++ (g.nodes ++ [nd]).tail.map _
    rw [h.nodes, List.tail_append_of_ne_nil (List.ne_nil_of_length_pos hg), List.map_append,
      List.append_assoc]
    rfl
  · rw [named?_addNode, named?_addNode, h.names name hname, hplace]
    show (if nd.name? = some name then _ else _) = _
    split <;> rfl

include h in
/-- An edge is added to both graphs. -/
theorem addEdge {e : PatternEdge} {j₁ : PatternGraph} (hnodes : g₁.nodes = g.nodes)
    (hedges : g₁.edges = g.edges ++ [e]) (hnames : g₁.names = Consistent.namesWith g e)
    (hnodes' : j₁.nodes = j.nodes) (hedges' : j₁.edges = j.edges ++ [e.later p.behind d])
    (hnames' : j₁.names = Consistent.namesWith j (e.later p.behind d)) : Beside d p g₁ j₁ := by
  refine ⟨by rw [hnodes', h.nodes, hnodes], ?_, fun name hname => ?_⟩
  · rw [hedges', h.edges, hedges, List.map_append, List.append_assoc]
    rfl
  · rw [named?_of_namesWith hnames, named?_of_namesWith hnames', h.names name hname,
      h.length_edges]
    show (if e.name? = some name then _ else _) = _
    split
    · simp [Renumbering.handle, behind, Nat.add_comm]
    · rfl

end Beside

theorem beside_empty (p : PatternGraph) (d : Nat) : Beside d p empty p where
  nodes := (List.append_nil _).symm
  edges := (List.append_nil _).symm
  names := fun _ hname => hname

/-- No edge touches the anchor. -/
def Detached (g : PatternGraph) : Prop :=
  ∀ e ∈ g.edges, e.alpha ≠ g.anchor ∧ e.omega ≠ g.anchor

namespace Reading

/-- A node token adds a node behind the first graph, or stands for one there. -/
theorem resolve_beside (h : Beside d p g j) (hp : 0 < p.nodes.length) (hg : g.Regular cx)
    (hj : j.Consistent) (hargs : cx'.arguments = cx.arguments) {t : NodeToken} {n : NodeId}
    (hnew : ∀ name, t.name? = some name → p.named? name = none)
    (hr : resolve cx g t = .ok (n, g₁)) :
    ∃ j₁, resolve cx' j { t with index := t.index + d } = .ok (p.behind.node n, j₁) ∧
      Beside d p g₁ j₁ ∧ j₁.Consistent := by
  have hplain : namesArgument cx' t.name? = true → t.typeName? = none := by
    rw [namesArgument, hargs]
    exact plain_of_resolve hr
  -- the name stands in the second already, or its node is new on both sides
  rcases resolve_cases hr with ⟨name, hname, hnamed, rfl, htype⟩ | ⟨hadd, hfresh, -⟩
  · have hplace := (hg.isPlace_of_named? hnamed).1
    refine ⟨j, resolve_known hname ?_ hplain fun type ht => ?_, h, hj⟩
    · rw [h.names name (hnew name hname), hnamed]
      rfl
    · rw [h.node? hp hplace.1 fun heq => hg.not_isPlace_anchor (heq ▸ hplace), Option.bind_map]
      exact htype type ht
  · obtain rfl : n = ⟨g.nodes.length⟩ := congrArg Prod.fst hadd
    obtain rfl : g₁ = (g.addNode (placeNode cx t)).2 := congrArg Prod.snd hadd
    have hplace : placeNode cx' { t with index := t.index + d } = (placeNode cx t).later d := by
      rw [placeNode, placeNode, namesArgument, namesArgument, hargs]
      rfl
    obtain ⟨hbeside, hid⟩ := h.addNode hp hg.consistent.inhabited (placeNode cx t)
    refine ⟨_, ?_, hbeside, hj.addNode _⟩
    rw [← hid, ← hplace]
    refine resolve_new (fun name hname => ?_) hplain
    rw [h.names name (hnew name hname), hfresh name hname]
    rfl

/-- An edge is added to both graphs. -/
theorem link_beside (h : Beside d p g j) (hp : 0 < p.nodes.length) {e : PatternEdge} {k : EdgeId}
    (hg : g.Consistent) (hj : j.Consistent) (ha : g.IsNode e.alpha) (ho : g.IsNode e.omega)
    (hadd : g.addEdge e = (.ok k, g₁)) :
    ∃ j₁, link j (e.later p.behind d) = .ok j₁ ∧ Beside d p g₁ j₁ ∧ j₁.Consistent := by
  obtain ⟨g', hadd', -, hnodes, hedges, hnames⟩ := hg.addEdge e ha ho
  rw [hadd] at hadd'
  cases hadd'
  obtain ⟨j₁, hjoint, hj₁, hnodes', hedges', hnames'⟩ := hj.addEdge (e.later p.behind d)
    (h.isNode hp hg.inhabited ha) (h.isNode hp hg.inhabited ho)
  refine ⟨j₁, ?_, h.addEdge hnodes hedges hnames hnodes' hedges' hnames', hj₁⟩
  rw [link, hjoint]

theorem connect_beside (h : Beside d p g j) (hp : 0 < p.nodes.length) (hg : g.Consistent)
    (hj : j.Consistent) (hargs : cx'.arguments = cx.arguments) {t : EdgeToken}
    {current next : NodeId} (hc : g.IsNode current) (hn : g.IsNode next)
    (hnew : ∀ name, t.name? = some name → p.named? name = none)
    (hr : connect cx g t current next = .ok g₁) :
    ∃ j₁, connect cx' j { t with index := t.index + d } (p.behind.node current)
        (p.behind.node next) = .ok j₁ ∧ Beside d p g₁ j₁ ∧ j₁.Consistent := by
  obtain ⟨hfresh, k, hadd⟩ := connect_ok hr
  have hplace : placeEdge cx' { t with index := t.index + d } (p.behind.node current)
      (p.behind.node next) = (placeEdge cx t current next).later p.behind d := by
    rw [placeEdge, placeEdge, namesArgument, namesArgument, hargs]
    cases t.direction <;> rfl
  have hends := isNode_placeEdge cx t hc hn
  obtain ⟨j₁, hlink, hbeside⟩ := link_beside h hp hg hj hends.1 hends.2 hadd
  refine ⟨j₁, ?_, hbeside⟩
  rw [← hlink, ← hplace]
  refine connect_fresh _ _ fun name hname => ?_
  rw [h.names name (hnew name hname), hfresh name hname]
  rfl

/-- A constraint hangs on the same node behind the first graph. -/
theorem constrain_beside {r r₁ r' : Reading} (hr : Sound cx r) (h : Beside d p r.graph r'.graph)
    (hp : 0 < p.nodes.length) (hj : r'.graph.Consistent) {t : ConstraintToken}
    (hcurrent : r'.current = p.behind.node r.current)
    (hlast : r'.lastConstraint? = r.lastConstraint?.map p.behind.node)
    (step : r.constrain t = .ok r₁) :
    ∃ r₁', r'.constrain { t with index := t.index + d } = .ok r₁' ∧
      Beside d p r₁.graph r₁'.graph ∧ r₁'.graph.Consistent ∧
      r₁'.current = p.behind.node r₁.current ∧
      r₁'.lastConstraint? = r₁.lastConstraint?.map p.behind.node := by
  obtain ⟨k, hadd, hcur, hlast₁⟩ := constrain_ok step
  have hg := hr.regular.consistent
  obtain ⟨hnode, hid⟩ := h.addNode hp hg.inhabited (constraintNode t)
  obtain ⟨j₁, hlink, hbeside, hj₁⟩ := link_beside hnode hp (hg.addNode _) (hj.addNode _)
    ((extends_addNode _ _).isNode hr.isNode_owner) ((isNode_addNode _).2 (.inr rfl)) hadd
  -- the owner of the constraint is the node that stands for the second's owner
  have howner : r'.lastConstraint?.getD r'.current =
      p.behind.node (r.lastConstraint?.getD r.current) := by
    rw [hlast, hcurrent]
    cases r.lastConstraint? <;> rfl
  refine ⟨{ r' with graph := j₁, lastConstraint? := some ⟨r'.graph.nodes.length⟩ }, ?_, hbeside,
    hj₁, ?_, ?_⟩
  · have hlink' : link (r'.graph.addNode (constraintNode { t with index := t.index + d })).2
        (precedesEdge (r'.lastConstraint?.getD r'.current) ⟨r'.graph.nodes.length⟩) = .ok j₁ := by
      rw [howner, hid]
      exact hlink
    exact constrain_of_link hlink'
  · rw [hcur]
    exact hcurrent
  · rw [hlast₁, Option.map_some, ← hid]

/-- What is read behind another graph is beside it. -/
theorem Reads.beside {r r' : Reading} {ts : List Token} {hs : List Handle}
    (h : Reads cx r ts hs g) (hr : Sound cx r) (hts : Token.Visible ts)
    (hargs : cx'.arguments = cx.arguments) (hp : 0 < p.nodes.length)
    (hnew : ∀ t ∈ ts, ∀ name, t.name? = some name → p.named? name = none)
    (hbeside : Beside d p r.graph r'.graph) (hj : r'.graph.Consistent)
    (hcurrent : r'.current = p.behind.node r.current)
    (hlast : r'.lastConstraint? = r.lastConstraint?.map p.behind.node) :
    ∃ j, run cx' r' (ts.map (Token.later d)) = .ok j ∧ Beside d p g j := by
  -- along the reading of the second, with each step made behind the first as well
  induction h generalizing r' with
  | done => exact ⟨r'.graph, rfl, hbeside⟩
  | @constraint r r₁ t ts hs g step _ ih =>
    obtain ⟨r₁', step', hbeside₁, hj₁, hcurrent₁, hlast₁⟩ :=
      constrain_beside hr hbeside hp hj hcurrent hlast step
    obtain ⟨j, hrun, hj⟩ := ih (hr.constrain step).1
      (fun t ht => hts t (List.mem_cons_of_mem _ ht))
      (fun t ht => hnew t (List.mem_cons_of_mem _ ht)) hbeside₁ hj₁ hcurrent₁ hlast₁
    refine ⟨j, ?_, hj⟩
    rw [List.map_cons, ← hrun]
    simp only [Token.later, Token.atIndex, Token.index, run, step', bind, Except.bind]
  | @node r t n g₁ g ts hs step _ ih =>
    obtain ⟨j₁, hres, hbeside₁, hj₁⟩ :=
      resolve_beside hbeside hp hr.regular hj hargs (hnew (.node t) (by simp)) step
    obtain ⟨hreg, -, hplace⟩ := hr.regular.resolve (hts (.node t) (by simp)) step
    have hcurrent₁ : ({ graph := j₁, current := p.behind.node n } : Reading).current =
        p.behind.node n := rfl
    obtain ⟨j, hrun, hj⟩ := ih ⟨hreg, .inr hplace, by simp⟩
      (fun t ht => hts t (List.mem_cons_of_mem _ ht))
      (fun t ht => hnew t (List.mem_cons_of_mem _ ht)) hbeside₁ hj₁ hcurrent₁ rfl
    refine ⟨j, ?_, hj⟩
    rw [List.map_cons, ← hrun]
    simp only [Token.later, Token.atIndex, Token.index, run, hres, bind, Except.bind]
  | @edge r t next n g₁ g₂ g ts hs source target step _ ih =>
    obtain ⟨j₁, hres, hbeside₁, hj₁⟩ :=
      resolve_beside hbeside hp hr.regular hj hargs (hnew (.node next) (by simp)) target
    obtain ⟨hreg₁, hext, hplace⟩ := hr.regular.resolve (hts (.node next) (by simp)) target
    have hcur := hr.isPlace_current source
    obtain ⟨j₂, hcon, hbeside₂, hj₂⟩ := connect_beside hbeside₁ hp hreg₁.consistent hj₁ hargs
      (hext.isPlace hcur).1 hplace.1 (hnew (.edge t) (by simp)) step
    obtain ⟨hreg₂, hext₂⟩ :=
      hreg₁.connect (hext.isPlace hcur) hplace (hts (.edge t) (by simp)) step
    have hcurrent₂ : ({ graph := j₂, current := p.behind.node n } : Reading).current =
        p.behind.node n := rfl
    obtain ⟨j, hrun, hj⟩ := ih ⟨hreg₂, .inr (hext₂.isPlace hplace), by simp⟩
      (fun t ht => hts t (by simp [ht])) (fun t ht => hnew t (by simp [ht])) hbeside₂ hj₂
      hcurrent₂ rfl
    -- the node standing for a current place is not the anchor, so the edge is not refused
    have hsource : r'.current ≠ r'.graph.anchor := by
      rw [hcurrent, ← behind_anchor p r.graph]
      exact fun heq => source (behind_injective hp hcur.1
        (isNode_anchor hr.regular.consistent.inhabited) heq)
    refine ⟨j, ?_, hj⟩
    rw [List.map_cons, List.map_cons, ← hrun]
    rw [← hcurrent] at hcon
    simp only [Token.later, Token.atIndex, Token.index, run, if_neg hsource, hres, hcon, bind,
      Except.bind]

/-- What is read keeps the nodes that were there. -/
theorem Reads.nodes_prefix {r : Reading} {ts : List Token} {hs : List Handle}
    (h : Reads cx r ts hs g) : r.graph.nodes <+: g.nodes := by
  have hresolve : ∀ {g g₁ : PatternGraph} {t : NodeToken} {n : NodeId},
      resolve cx g t = .ok (n, g₁) → g.nodes <+: g₁.nodes := by
    intro g g₁ t n h
    rcases resolve_cases h with ⟨-, -, -, rfl, -⟩ | ⟨hadd, -, -⟩
    · exact List.prefix_refl _
    · rw [show g₁ = (g.addNode (placeNode cx t)).2 from congrArg Prod.snd hadd]
      exact List.prefix_append _ _
  induction h with
  | done => exact List.prefix_refl _
  | constraint step _ ih =>
    obtain ⟨k, hadd, -, -⟩ := constrain_ok step
    rw [nodes_of_addEdge hadd] at ih
    exact (List.prefix_append _ _).trans ih
  | node step _ ih => exact (hresolve step).trans ih
  | edge source target step _ ih =>
    obtain ⟨-, k, hadd⟩ := connect_ok step
    rw [nodes_of_addEdge hadd] at ih
    exact (hresolve target).trans ih

/-- From a node on, what is read does not touch the anchor. -/
theorem Reads.detached {r : Reading} {ts : List Token} {hs : List Handle}
    (h : Reads cx r ts hs g) (hr : Sound cx r) (hts : Token.Visible ts)
    (hplace : r.current ≠ r.graph.anchor ∨ ∀ t ∈ ts.head?, ∃ u, t = .node u)
    (hd : r.graph.Detached) : g.Detached := by
  -- along the reading: a constraint or an edge after the first node avoids the anchor
  induction h with
  | done => exact hd
  | @constraint r r₁ t ts hs g step _ ih =>
    -- the first token is a node, so a constraint comes with a current place
    have hcurrent : r.current ≠ r.graph.anchor := by
      refine hplace.resolve_right fun hnode => ?_
      obtain ⟨u, hu⟩ := hnode _ rfl
      cases hu
    obtain ⟨k, hadd, hcur, -⟩ := constrain_ok step
    have howner : r.lastConstraint?.getD r.current ≠ r.graph.anchor := by
      cases hlast : r.lastConstraint? with
      | none => exact hcurrent
      | some c =>
        intro heq
        have hc : c = r.graph.anchor := heq
        exact hr.regular.not_isConstraint_anchor (hc ▸ (hr.last c hlast).1)
    refine ih (hr.constrain step).1 (fun t ht => hts t (List.mem_cons_of_mem _ ht))
      (.inl (by rw [hcur]; exact hcurrent)) fun e he => ?_
    rw [edges_of_addEdge hadd] at he
    rcases List.mem_append.1 he with he | he
    · exact hd e he
    · rw [List.mem_singleton.1 he]
      refine ⟨howner, fun heq => ?_⟩
      -- its own node comes after the anchor
      have hpos := hr.regular.consistent.inhabited
      have hzero := congrArg NodeId.index heq
      simp only [precedesEdge, anchor] at hzero
      omega
  | @node r t n g₁ g ts hs step _ ih =>
    obtain ⟨hreg, -, hn⟩ := hr.regular.resolve (hts (.node t) (by simp)) step
    refine ih ⟨hreg, .inr hn, by simp⟩ (fun t ht => hts t (List.mem_cons_of_mem _ ht))
      (.inl fun heq => hreg.not_isPlace_anchor (heq ▸ hn)) fun e he => ?_
    rw [edges_of_resolve step] at he
    exact hd e he
  | @edge r t next n g₁ g₂ g ts hs source target step _ ih =>
    obtain ⟨hreg₁, hext, hn⟩ := hr.regular.resolve (hts (.node next) (by simp)) target
    have hcur := hext.isPlace (hr.isPlace_current source)
    obtain ⟨hreg₂, hext₂⟩ := hreg₁.connect hcur hn (hts (.edge t) (by simp)) step
    obtain ⟨-, k, hadd⟩ := connect_ok step
    have hne : n ≠ g₁.anchor := fun heq => hreg₁.not_isPlace_anchor (heq ▸ hn)
    refine ih ⟨hreg₂, .inr (hext₂.isPlace hn), by simp⟩ (fun t ht => hts t (by simp [ht]))
      (.inl hne) fun e he => ?_
    rw [edges_of_addEdge hadd] at he
    rcases List.mem_append.1 he with he | he
    · rw [edges_of_resolve target] at he
      exact hd e he
    · rw [List.mem_singleton.1 he]
      -- in either direction the edge lies between two places
      cases hdir : t.direction
      · simp only [placeEdge, hdir]
        exact ⟨source, hne⟩
      · simp only [placeEdge, hdir]
        exact ⟨hne, source⟩

end Reading

end PatternGraph

end GraphPattern
