import GraphPattern.Proofs.Seams

/-!
# GraphPattern — reading over a seam

The tokens of two patterns are read side by side, the second of which mentions the current node once
more. Up to the mention both readings agree. Behind it they agree again, but that a row of
constraints that was being read has come apart.

## Results

* `PatternGraph.Reading.Twin.run` — what is read behind the mention is read alike.
* `PatternGraph.Reading.Twin.mention` — the graphs of two patterns that differ in a mention.
-/

namespace GraphPattern

open PatternGraph

namespace PatternGraph

variable {cx cx' : Context} {seam? : Option Seam} {s : Seam} {g g' g₀ g₀' g₁ g₁' : PatternGraph}

-- ---------------------------------------------------------------------------
-- Tokens
-- ---------------------------------------------------------------------------

namespace Rehung

/-- A node token stands for the same node in both. -/
theorem resolve (h : Rehung seam? g g') (hcx : cx.Akin cx') (t : NodeToken) (i : Nat) :
    Concurs (fun x y => y.1 = x.1 ∧ Rehung seam? x.2 y.2) (Reading.resolve cx g t)
      (Reading.resolve cx' g' { t with index := i }) := by
  -- both look the name up in graphs with the same names, and add the same node or refuse alike
  unfold Reading.resolve
  cases hname : t.name? with
  | none => exact .ok (h.addNode { kind := .pattern, typeName? := t.typeName?,
                                   tokenIndex? := some t.index } (some i))
  | some name =>
    simp only [hcx.arguments, h.named?_eq, h.typeName?_eq]
    split
    · exact .refuse cx cx' _ _
    · cases g.named? name with
      | none => exact .ok (h.addNode
          { kind := if cx.arguments.contains name then .argument else .pattern, name? := name,
            typeName? := t.typeName?, tokenIndex? := some t.index } (some i))
      | some k =>
        cases k with
        | edge k => exact .refuse cx cx' _ _
        | node n =>
          cases t.typeName? with
          | none => exact .ok ⟨rfl, h⟩
          | some typeName =>
            by_cases htype : (g.node? n).bind (·.typeName?) = some typeName
            · simp only [if_pos htype]
              exact .ok ⟨rfl, h⟩
            · simp only [if_neg htype]
              exact .refuse cx cx' _ _

/-- An edge token behind the seam adds the same edge to both. -/
theorem connect (h : Rehung seam? g g') (hcx : cx.Akin cx') (hg : g.Consistent)
    (hg' : g'.Consistent) (hseam : ∀ s ∈ seam?, s.moved.edge.index < g.edges.length)
    {current next : NodeId} (hc : g.IsNode current) (hn : g.IsNode next) (t : EdgeToken)
    (i : Nat) :
    Concurs (Rehung seam?) (Reading.connect cx g t current next)
      (Reading.connect cx' g' { t with index := i } current next) := by
  -- a name in use is refused on both sides, otherwise an edge is added on both
  cases hnamed : t.name?.bind g.named? with
  | some k =>
    obtain ⟨name, hname, hk⟩ := Option.bind_eq_some_iff.1 hnamed
    rw [Reading.connect_taken current next hname hk, Reading.connect_taken current next
      (t := { t with index := i }) hname ((h.named?_eq name).trans hk)]
    exact .refuse cx cx' _ _
  | none =>
    have hfresh : ∀ name, t.name? = some name → g.named? name = none := by
      intro name hname
      rwa [hname, Option.bind_some] at hnamed
    -- the edge is new, so it is not the one that the seam moves
    have hnew : ∀ s ∈ seam?, (⟨g.edges.length⟩ : EdgeId) ≠ s.moved.edge := by
      intro s hs heq
      have hlt := hseam s hs
      rw [← heq] at hlt
      exact Nat.lt_irrefl _ hlt
    obtain ⟨ha, ho⟩ := Reading.isNode_placeEdge cx t hc hn
    obtain ⟨g₁, g₁', hlink, hlink', hrest⟩ := h.link hg hg' (some i) ha
      (by rwa [Seam.hang_of_ne hnew]) ho fun _ _ _ => rfl
    rw [Seam.hang_of_ne hnew] at hlink'
    have hfresh' : ∀ name, ({ t with index := i } : EdgeToken).name? = some name →
        g'.named? name = none := fun name hname => (h.named?_eq name).trans (hfresh name hname)
    rw [Reading.connect_fresh current next hfresh, Reading.connect_fresh current next hfresh',
      hlink, Reading.placeEdge_congr hcx.arguments]
    show Concurs _ _ (Reading.link g'
      { placeEdge cx t current next with tokenIndex? := some (i : Int) })
    rw [hlink']
    exact .ok hrest

/-- A constraint is added to both, and hangs in both as it should. -/
theorem constrain (more? : Option Seam) {r : Reading} (r' : Reading)
    (h : Rehung seam? r.graph r'.graph)
    (hr : Reading.Sound cx r) (hr' : Reading.Sound cx' r') (t : ConstraintToken) (i : Nat)
    (howner : r'.lastConstraint?.getD r'.current =
      Seam.hang more? ⟨r.graph.edges.length⟩ (r.lastConstraint?.getD r.current))
    (hold : ∀ k n, k.index < r.graph.edges.length → Seam.hang more? k n = Seam.hang seam? k n) :
    ∃ g₁ g₁', r.constrain t =
        .ok { r with graph := g₁, lastConstraint? := some ⟨r.graph.nodes.length⟩ } ∧
      r'.constrain { t with index := i } =
        .ok { r' with graph := g₁', lastConstraint? := some ⟨r.graph.nodes.length⟩ } ∧
      Rehung more? g₁ g₁' := by
  -- the constraint's node is the same on both; what it hangs on is where the seam moves it
  obtain ⟨-, hadded⟩ := h.addNode (constraintNode t) (some i)
  have hext := extends_addNode r.graph (constraintNode t)
  have hnode := hr'.isNode_owner
  rw [howner] at hnode
  obtain ⟨g₁, g₁', hlink, hlink', hrest⟩ := hadded.link
    (e := precedesEdge (r.lastConstraint?.getD r.current) ⟨r.graph.nodes.length⟩)
    (hr.regular.consistent.addNode _) (hr'.regular.consistent.addNode _) none
    (hext.isNode hr.isNode_owner) (hext.isNode (h.isNode_iff.1 hnode))
    ((isNode_addNode _).2 (.inr rfl)) hold
  refine ⟨g₁, g₁', Reading.constrain_of_link hlink, ?_, hrest⟩
  rw [← h.nodes]
  refine Reading.constrain_of_link ?_
  rw [howner, h.nodes]
  exact hlink'

end Rehung

-- ---------------------------------------------------------------------------
-- Readings behind the seam
-- ---------------------------------------------------------------------------

namespace Reading

/-- Two readings that stand at the same place. The graphs may differ in a row that has come
apart. -/
structure Twin (cx cx' : Context) (seam? : Option Seam) (r r' : Reading) : Prop where
  rehung : Rehung seam? r.graph r'.graph
  seam : ∀ s ∈ seam?, s.Of r.graph
  current : r'.current = r.current
  last : r'.lastConstraint? = r.lastConstraint?
  sound : Sound cx r
  sound' : Sound cx' r'

namespace Twin

variable {r r' : Reading} {ts : List Token}

theorem hang_length (h : Twin cx cx' seam? r r') (n : NodeId) :
    Seam.hang seam? ⟨r.graph.edges.length⟩ n = n := by
  refine Seam.hang_of_ne (fun s hs heq => ?_) n
  have hlt := (List.getElem?_eq_some_iff.1 ((h.seam s hs).row s.length (Nat.lt_succ_self _))).1
  exact absurd hlt (Nat.not_lt_of_le (EdgeId.mk.inj heq).le)

theorem constrain (h : Twin cx cx' seam? r r') (t : ConstraintToken) (i : Nat) :
    Concurs (Twin cx cx' seam?) (r.constrain t) (r'.constrain { t with index := i }) := by
  obtain ⟨g₁, g₁', hg₁, hg₁', hrest⟩ := h.rehung.constrain seam? r' h.sound h.sound' t i
    (by rw [h.hang_length, h.last, h.current]) fun _ _ _ => rfl
  have hsound := h.sound.constrain hg₁
  rw [hg₁, hg₁']
  exact .ok ⟨hrest, fun s hs => (h.seam s hs).mono hsound.2, h.current, rfl, hsound.1,
    (h.sound'.constrain hg₁').1⟩

/-- The readings stand at a node of the graphs. -/
theorem atNode {n : NodeId} (h : Twin cx cx' seam? r r') (hext : r.graph.Extends g)
    (hrehung : Rehung seam? g g') (hg : g.Regular cx) (hg' : g'.Regular cx') (hn : g.IsPlace n)
    (hn' : g'.IsPlace n) :
    Twin cx cx' seam? { graph := g, current := n } { graph := g', current := n } where
  rehung := hrehung
  seam := fun s hs => (h.seam s hs).mono hext
  current := rfl
  last := rfl
  sound := ⟨hg, .inr hn, fun c hc => by cases hc⟩
  sound' := ⟨hg', .inr hn', fun c hc => by cases hc⟩

theorem resolve (h : Twin cx cx' seam? r r') (hcx : cx.Akin cx') {t : NodeToken}
    (hvis : ∀ name, t.name? = some name → isHiddenName name = false) (i : Nat) :
    Concurs (fun x y => y.1 = x.1 ∧
        Twin cx cx' seam? { graph := x.2, current := x.1 } { graph := y.2, current := y.1 })
      (Reading.resolve cx r.graph t) (Reading.resolve cx' r'.graph { t with index := i }) := by
  refine (h.rehung.resolve hcx t i).mono fun x y hx hy hxy => ?_
  obtain ⟨n, g⟩ := x
  obtain ⟨n', g'⟩ := y
  obtain ⟨hsame, hrehung⟩ := hxy
  obtain rfl : n' = n := hsame
  obtain ⟨hreg, hext, hplace⟩ := h.sound.regular.resolve hvis hx
  obtain ⟨hreg', -, hplace'⟩ := h.sound'.regular.resolve (t := { t with index := i }) hvis hy
  exact ⟨rfl, h.atNode hext hrehung hreg hreg' hplace hplace'⟩

theorem connect {n : NodeId} (h : Twin cx cx' seam? { graph := g, current := n }
      { graph := g', current := n }) (hcx : cx.Akin cx') {current : NodeId}
    (hc : g.IsPlace current) (hc' : g'.IsPlace current) (hn : g.IsPlace n) (hn' : g'.IsPlace n)
    {t : EdgeToken} (hvis : ∀ name, t.name? = some name → isHiddenName name = false) (i : Nat) :
    Concurs (fun g₁ g₁' => Twin cx cx' seam? { graph := g₁, current := n }
        { graph := g₁', current := n })
      (Reading.connect cx g t current n)
      (Reading.connect cx' g' { t with index := i } current n) := by
  have hreg : g.Regular cx := h.sound.regular
  have hreg' : g'.Regular cx' := h.sound'.regular
  have hseam : ∀ s ∈ seam?, s.moved.edge.index < g.edges.length := fun s hs =>
    (List.getElem?_eq_some_iff.1 ((h.seam s hs).row s.length (Nat.lt_succ_self _))).1
  refine (h.rehung.connect hcx hreg.consistent hreg'.consistent hseam hc.1 hn.1 t i).mono
    fun g₁ g₁' hg₁ hg₁' hrest => ?_
  obtain ⟨hreg₁, hext₁⟩ := hreg.connect hc hn hvis hg₁
  obtain ⟨hreg₁', hext₁'⟩ := hreg'.connect (t := { t with index := i }) hc' hn' hvis hg₁'
  exact h.atNode hext₁ hrest hreg₁ hreg₁' (hext₁.isPlace hn) (hext₁'.isPlace hn')

/-- Behind a constraint, an edge or a node the last constraint does not matter. -/
theorem detach (h : Twin cx cx' seam? r r') :
    Twin cx cx' seam? { graph := r.graph, current := r.current }
      { graph := r'.graph, current := r.current } where
  rehung := h.rehung
  seam := h.seam
  current := rfl
  last := rfl
  sound := ⟨h.sound.regular, h.sound.current, fun c hc => by cases hc⟩
  sound' := ⟨h.sound'.regular, h.current ▸ h.sound'.current, fun c hc => by cases hc⟩

/-- An edge token and the node token behind it are read alike, and so is what follows them. -/
theorem edge (h : Twin cx cx' seam? r r') (hcx : cx.Akin cx') (hsource : r.current ≠ r.graph.anchor)
    {t : EdgeToken} {next : NodeToken} (hvis : Token.Visible [.edge t, .node next]) (i j : Nat)
    {α : Type} {S : α → α → Prop} {k k' : NodeId → PatternGraph → Except Failure α}
    (hk : ∀ n g₁ g g', Reading.resolve cx r.graph next = .ok (n, g₁) →
      Reading.connect cx g₁ t r.current n = .ok g →
      Twin cx cx' seam? { graph := g, current := n } { graph := g', current := n } →
      Concurs S (k n g) (k' n g')) :
    Concurs S
      (Reading.resolve cx r.graph next >>= fun x =>
        Reading.connect cx x.2 t r.current x.1 >>= fun g => k x.1 g)
      (Reading.resolve cx' r'.graph { next with index := j } >>= fun x =>
        Reading.connect cx' x.2 { t with index := i } r'.current x.1 >>= fun g => k' x.1 g) := by
  have hnext := hvis (.node next) (by simp)
  refine (h.resolve hcx hnext j).bind fun x y hx hy hxy => ?_
  obtain ⟨n, g₁⟩ := x
  obtain ⟨n', g₁'⟩ := y
  obtain ⟨hsame, htwin⟩ := hxy
  obtain rfl : n' = n := hsame
  obtain ⟨-, hext, hplace⟩ := h.sound.regular.resolve hnext hx
  obtain ⟨-, hext', hplace'⟩ := h.sound'.regular.resolve (t := { next with index := j }) hnext hy
  have hcurrent := hext.isPlace (h.sound.isPlace_current hsource)
  have hcurrent' := hext'.isPlace (h.sound'.isPlace_current (h.current ▸ hsource))
  rw [h.current] at hcurrent' ⊢
  exact (htwin.connect hcx hcurrent hcurrent' hplace hplace' (hvis (.edge t) (by simp)) i).bind
    fun g g' hg _ htwin₂ => hk _ g₁ g g' hx hg htwin₂

/-- What follows is read alike. -/
theorem run (h : Twin cx cx' seam? r r') (hcx : cx.Akin cx') (d : Nat) (hts : Token.Visible ts) :
    Concurs Loosened (run cx r ts) (run cx' r' (ts.map (Token.later d))) := by
  -- along the run; what one refuses the other refuses in the same state
  fun_induction Reading.run cx r ts generalizing r' with
  | case1 r => exact .ok ⟨seam?, h.rehung, h.seam⟩
  | case2 r t rest ih =>
    exact (h.constrain t (t.index + d)).bind fun r₁ r₁' _ _ h₁ =>
      ih r₁ h₁ fun u hu => hts u (List.mem_cons_of_mem _ hu)
  | case3 r t rest ih =>
    refine (h.resolve hcx (hts (.node t) (by simp)) (t.index + d)).bind fun x y _ _ hxy => ?_
    obtain ⟨n, g⟩ := x
    obtain ⟨n', g'⟩ := y
    obtain ⟨hsame, htwin⟩ := hxy
    obtain rfl : n' = n := hsame
    exact ih _ g htwin fun u hu => hts u (List.mem_cons_of_mem _ hu)
  -- an edge that comes first
  | case4 r t rest hsource =>
    have hsource' : r'.current = r'.graph.anchor := h.current.trans hsource
    rw [List.map_cons]
    show Concurs _ _ (Reading.run cx' r' (.edge { t with index := t.index + d } :: _))
    rw [Reading.run.eq_def]
    simp only [if_pos hsource']
    exact .refuse cx cx' _ _
  | case5 r t hsource next rest ih =>
    have hsource' : r'.current ≠ r'.graph.anchor := fun heq => hsource (h.current ▸ heq)
    show Concurs _ _ (Reading.run cx' r' (.edge { t with index := t.index + d } ::
      .node { next with index := next.index + d } :: rest.map (Token.later d)))
    rw [Reading.run, if_neg hsource']
    refine h.edge hcx hsource (fun u hu => hts u ?_) _ _ fun n g₁ g g' _ _ htwin =>
      ih n g htwin fun u hu => hts u (by simp [hu])
    simp only [List.mem_cons, List.not_mem_nil, or_false] at hu ⊢
    tauto
  -- an edge without a node after it
  | case6 r t rest hsource hnext =>
    have hsource' : r'.current ≠ r'.graph.anchor := fun heq => hsource (h.current ▸ heq)
    rw [List.map_cons]
    show Concurs _ _ (Reading.run cx' r' (.edge { t with index := t.index + d } :: _))
    rw [Reading.run.eq_def]
    simp only [if_neg hsource']
    split
    · rename_i next' rest' heq
      obtain ⟨u, us, rfl, hu, -⟩ := List.map_eq_cons_iff.1 heq
      cases u with
      | node next => exact (hnext next us rfl).elim
      | edge | constraint => cases hu
    · exact .refuse cx cx' _ _

end Twin

/-- Unless a constraint comes next, it does not matter what was read last. -/
theorem run_detach {ts : List Token} (h : ∀ t us, ts ≠ .constraint t :: us) (r : Reading) :
    run cx { graph := r.graph, current := r.current } ts = run cx r ts := by
  cases ts with
  | nil => rfl
  | cons t us =>
    cases t with
    | constraint t => exact absurd rfl (h t us)
    | node t => rfl
    | edge t =>
      cases us with
      | nil => rfl
      | cons u us => cases u <;> rfl

end Reading

end PatternGraph

-- ---------------------------------------------------------------------------
-- The row that is being read
-- ---------------------------------------------------------------------------

/-- The row that is being read, as far as it goes; it may be empty. -/
structure Seam.At (s : Seam) (r : Reading) : Prop where
  owner : s.owner = r.current
  last : r.lastConstraint? = s.last?
  edges : r.graph.edges.length = s.edge + s.length
  nodes : r.graph.nodes.length = s.node + s.length
  row : s.Row r.graph s.length

namespace Seam.At

variable {cx cx' : Context} {s : Seam} {r r' : Reading}

/-- No row has begun where the last token was no constraint. -/
theorem empty (g : PatternGraph) (n : NodeId) :
    Seam.At ⟨n, g.edges.length, g.nodes.length, 0⟩ { graph := g, current := n } where
  owner := rfl
  last := rfl
  edges := rfl
  nodes := rfl
  row := fun _ hj => absurd hj (Nat.not_lt_zero _)

theorem edge?_lt (h : s.At r) {j : Nat} (hj : j < s.length) :
    (s.link j).edge.index < r.graph.edges.length := by
  rw [h.edges]
  show s.edge + j < _
  omega

/-- A constraint goes on the row. -/
theorem constrain (h : s.At r) {t : ConstraintToken} (hr : r.constrain t = .ok r') :
    Seam.At { s with length := s.length + 1 } r' := by
  obtain ⟨k, hadd, hcur, hlast⟩ := Reading.constrain_ok hr
  have howner : r.lastConstraint?.getD r.current = s.before s.length := by
    rw [h.last, ← h.owner, s.last?_getD]
  rw [howner] at hadd
  have hnodes := nodes_of_addEdge hadd
  have hedges := edges_of_addEdge hadd
  change r'.graph.edges = r.graph.edges ++ _ at hedges
  change r'.graph.nodes = r.graph.nodes ++ _ at hnodes
  -- last, edges, nodes: each grew by the constraint just read
  refine { owner := h.owner.trans hcur.symm, last := ?_, edges := ?_, nodes := ?_, row := ?_ }
  · rw [hlast, h.nodes]
    rfl
  · rw [hedges, List.length_append, h.edges]
    rfl
  · rw [hnodes, List.length_append, h.nodes]
    rfl
  · -- row: the new link ends it, the others come before the new edge
    intro j hj
    rw [edge?_append hedges]
    rcases Nat.lt_or_eq_of_le (Nat.le_of_lt_succ hj) with hlt | rfl
    · have hne : (s.link j).edge ≠ ⟨r.graph.edges.length⟩ := fun heq => by
        have := h.edge?_lt hlt
        rw [heq] at this
        exact Nat.lt_irrefl _ this
      exact (if_neg hne).trans (h.row j hlt)
    · have heq : (s.link s.length).edge = ⟨r.graph.edges.length⟩ := by
        rw [h.edges]
        rfl
      rw [h.nodes]
      exact if_pos heq

/-- A constraint behind a mention of the node on which a row hangs starts another row there. -/
theorem comes_apart (h : s.At r) (hpos : 0 < s.length) {name : String}
    (hname : r.graph.HasName (.node r.current) name) (htwin : Reading.Twin cx cx' none r r')
    (t : ConstraintToken) (i : Nat) :
    Concurs (Reading.Twin cx cx' (some s)) (r.constrain t)
      (Reading.constrain { graph := r'.graph, current := r.current } { t with index := i }) := by
  have hdetached := htwin.detach
  -- the edge to be added is the one that the seam moves
  have hcut : (⟨r.graph.edges.length⟩ : EdgeId) = s.moved.edge := by
    rw [h.edges]
    rfl
  obtain ⟨g₁, g₁', hg₁, hg₁', hrest⟩ := Rehung.constrain (some s)
    { graph := r'.graph, current := r.current } htwin.rehung htwin.sound
    hdetached.sound' t i (by rw [hcut, Seam.hang_moved]; exact h.owner.symm) fun k n hk => by
      refine Seam.hang_of_ne (fun s' hs' heq => ?_) n
      cases hs'
      rw [heq, ← hcut] at hk
      exact Nat.lt_irrefl _ hk
  have hsound := htwin.sound.constrain hg₁
  -- and what is read is then apart by this seam, whose row is as long as it will be
  have hrow := (h.constrain hg₁).row
  rw [hg₁, hg₁']
  refine .ok ⟨hrest, fun s' hs' => ?_, rfl, rfl, hsound.1, (hdetached.sound'.constrain hg₁').1⟩
  cases hs'
  exact ⟨hpos, hrow, name, hsound.2.hasName (h.owner ▸ hname)⟩

end Seam.At

-- ---------------------------------------------------------------------------
-- The mention
-- ---------------------------------------------------------------------------

namespace PatternGraph.Reading

variable {cx cx' : Context} {r r' : Reading} {g g₁ : PatternGraph} {ts rest : List Token}
  {name : String}

/-- A node token with a name stands for the node of this name. -/
theorem hasName_of_resolve (hg : g.Regular cx) {t : NodeToken} {n : NodeId}
    (h : resolve cx g t = .ok (n, g₁)) (ht : t.name? = some name) : g₁.HasName (.node n) name := by
  rcases resolve_cases h with ⟨own, hown, hnamed, rfl, -⟩ | ⟨hadd, -, -⟩
  · obtain rfl : own = name := Option.some.inj (hown.symm.trans ht)
    exact (hg.names own _).1 hnamed
  · obtain rfl : n = ⟨g.nodes.length⟩ := congrArg Prod.fst hadd
    obtain rfl : g₁ = (g.addNode (placeNode cx t)).2 := congrArg Prod.snd hadd
    refine ⟨(isNode_addNode _).2 (.inr rfl), ?_⟩
    rw [node?_addNode_length]
    exact ht

theorem getLast?_cons_of_some {α : Type} {x y : α} {xs : List α}
    (h : xs.getLast? = some y) : (x :: xs).getLast? = some y := by
  rw [List.getLast?_cons, h, Option.getD_some]

theorem elim_imp {α : Type} {o : Option α} {P Q : Prop} {f : α → Prop} (h : o.elim P f)
    (himp : P → Q) : o.elim Q f := by
  cases o with
  | none => exact himp h
  | some => exact h

theorem elim_of_getD {α : Type} {o : Option α} {x : α} {Q : Prop} {f : α → Prop}
    (h : f (o.getD x)) (himp : f x → Q) : o.elim Q f := by
  cases o with
  | none => exact himp h
  | some => exact h

namespace Twin

/-- Where the current node is mentioned, nothing but a row comes apart. -/
theorem mention_current (h : Twin cx cx' none r r') (hcx : cx.Akin cx')
    (hat : ∃ s : Seam, s.At r) (hname : r.graph.HasName (.node r.current) name) {t : NodeToken}
    (ht : t.name? = some name) (htype : t.typeName? = none) (hrest : Token.Visible rest) (d : Nat) :
    Concurs Loosened (Reading.run cx r rest)
      (Reading.run cx' r' (.node t :: rest.map (Token.later d))) := by
  have hmention : Reading.run cx' r' (.node t :: rest.map (Token.later d)) =
      Reading.run cx' { graph := r'.graph, current := r.current } (rest.map (Token.later d)) := by
    have hnamed := (h.sound.regular.names name _).2 hname
    rw [Reading.run, resolve_known ht ((h.rehung.named?_eq name).trans hnamed) (fun _ => htype)
      (fun type htyped => by rw [htype] at htyped; cases htyped)]
    rfl
  rw [hmention]
  have hplain : Concurs Loosened
      (Reading.run cx { graph := r.graph, current := r.current } rest)
      (Reading.run cx' { graph := r'.graph, current := r.current }
        (rest.map (Token.later d))) := h.detach.run hcx d hrest
  by_cases hrow : ∃ u us, rest = .constraint u :: us
  · obtain ⟨u, us, rfl⟩ := hrow
    obtain ⟨s, hat⟩ := hat
    rcases Nat.eq_zero_or_pos s.length with hzero | hpos
    · -- the row has not begun, so the mention changes nothing
      have hlast : r.lastConstraint? = none := by rw [hat.last, Seam.last?, hzero]
      obtain ⟨graph, current, last?⟩ := r
      obtain rfl : last? = none := hlast
      exact hplain
    · refine (hat.comes_apart hpos hname h u (u.index + d)).bind fun r₁ r₁' _ _ h₁ => ?_
      exact h₁.run hcx d fun v hv => hrest v (List.mem_cons_of_mem _ hv)
  · rw [← run_detach (fun u us heq => hrow ⟨u, us, heq⟩)]
    exact hplain

/-- Where the node that was read last is mentioned, nothing but a row comes apart. -/
theorem mention (h : Twin cx cx' none r r') (hcx : cx.Akin cx') (hat : ∃ s : Seam, s.At r)
    (hts : Token.Visible ts) (hend : ∀ u, ts.getLast? ≠ some (.edge u))
    (hname : (Token.lastNode? ts).elim (r.graph.HasName (.node r.current) name)
      fun u => u.name? = some name)
    {t : NodeToken} (ht : t.name? = some name) (htype : t.typeName? = none)
    (hrest : Token.Visible rest) (d : Nat) :
    Concurs Loosened (Reading.run cx r (ts ++ rest))
      (Reading.run cx' r' (ts ++ .node t :: rest.map (Token.later d))) := by
  -- along what stands before the mention; the row of the last node is where a seam will be
  fun_induction Reading.run cx r ts generalizing r' with
  | case1 r => exact h.mention_current hcx hat hname ht htype hrest d
  -- a constraint lengthens the row
  | case2 r u ts ih =>
    obtain ⟨s, hat⟩ := hat
    refine (h.constrain u u.index).bind fun r₁ r₁' hr₁ _ h₁ => ?_
    refine ih r₁ h₁ ⟨_, hat.constrain hr₁⟩ (fun v hv => hts v (List.mem_cons_of_mem _ hv))
      (fun v hv => hend v (getLast?_cons_of_some hv)) ?_
    obtain ⟨-, -, hcurrent, -⟩ := constrain_ok hr₁
    rw [Token.lastNode?] at hname
    exact elim_imp hname fun hown => hcurrent ▸ (h.sound.constrain hr₁).2.hasName hown
  -- a node begins one anew
  | case3 r u ts ih =>
    refine (h.resolve hcx (hts (.node u) (by simp)) u.index).bind fun x y hx _ hxy => ?_
    obtain ⟨n, g⟩ := x
    obtain ⟨n', g'⟩ := y
    obtain ⟨hsame, htwin⟩ := hxy
    obtain rfl : n' = n := hsame
    refine ih _ g htwin ⟨_, Seam.At.empty g n'⟩ (fun v hv => hts v (List.mem_cons_of_mem _ hv))
      (fun v hv => hend v (getLast?_cons_of_some hv)) ?_
    rw [Token.lastNode?, Option.elim_some] at hname
    exact elim_of_getD hname (hasName_of_resolve h.sound.regular hx)
  | case4 r u ts hsource =>
    have hsource' : r'.current = r'.graph.anchor := h.current.trans hsource
    rw [List.cons_append, List.cons_append, Reading.run.eq_def, Reading.run.eq_def]
    simp only [if_pos hsource, if_pos hsource']
    exact .refuse cx cx' _ _
  -- so does the node at the end of an edge
  | case5 r u hsource next ts ih =>
    have hsource' : r'.current ≠ r'.graph.anchor := fun heq => hsource (h.current ▸ heq)
    simp only [List.cons_append]
    rw [Reading.run, if_neg hsource, Reading.run, if_neg hsource']
    refine h.edge hcx hsource (fun v hv => hts v ?_) u.index next.index
      fun n g₁ g g' hg₁ hg htwin => ih n g htwin ⟨_, Seam.At.empty g n⟩
        (fun v hv => hts v (by simp [hv]))
        (fun v hv => hend v (getLast?_cons_of_some (getLast?_cons_of_some hv))) ?_
    · simp only [List.mem_cons, List.not_mem_nil, or_false] at hv ⊢
      tauto
    · rw [Token.lastNode?, Token.lastNode?, Option.elim_some] at hname
      have hreg := h.sound.regular
      obtain ⟨hreg₁, hext, hplace⟩ := hreg.resolve (hts (.node next) (by simp)) hg₁
      have hcurrent := hext.isPlace (h.sound.isPlace_current hsource)
      have hconnect := hreg₁.connect hcurrent hplace (hts (.edge u) (by simp)) hg
      exact elim_of_getD hname fun hown =>
        hconnect.2.hasName (hasName_of_resolve hreg hg₁ hown)
  -- what stands before does not end in an edge, so the refusal does not come from the mention
  | case6 r u ts hsource hnext =>
    have hsource' : r'.current ≠ r'.graph.anchor := fun heq => hsource (h.current ▸ heq)
    rw [List.cons_append, List.cons_append, Reading.run.eq_def, Reading.run.eq_def]
    simp only [if_neg hsource, if_neg hsource']
    cases ts with
    | nil => exact absurd rfl (hend u)
    | cons v ts =>
      cases v with
      | node next => exact (hnext next ts rfl).elim
      | edge | constraint => exact .refuse cx cx' _ _

end Twin

end PatternGraph.Reading

end GraphPattern
