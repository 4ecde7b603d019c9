import GraphPattern.Proofs.Regular
import GraphPattern.Compile

/-!
# GraphPattern — reading tokens

The graph of a pattern grows token by token. `Reading.Reads` is the course of this as a relation,
with the handle that each token ends up with: a node token stands for a node, an edge token for an
edge, a constraint token for a constraint.

* `Reading.run_eq_ok_iff` — reading succeeds exactly along such a course.
* `Reading.regular_of_run` — the graph that is read is regular.
* `Token.visible_of_classify` — no name of a pattern is hidden.
-/

namespace GraphPattern

/-! ## Names of tokens -/

/-- The name of a node or an edge. -/
def Token.name? : Token → Option String
  | .node t => t.name?
  | .edge t => t.name?
  | .constraint _ => none

/-- The name of a node. -/
def Token.nodeName? : Token → Option String
  | .node t => t.name?
  | .edge _ | .constraint _ => none

/-- The name of an edge. -/
def Token.edgeName? : Token → Option String
  | .edge t => t.name?
  | .node _ | .constraint _ => none

/-- A name that can be written is not hidden. -/
theorem isHiddenName_of_isName {name : String} (h : isName name = true) :
    isHiddenName name = false := by
  simp only [isName, Bool.and_eq_true, List.all_eq_true] at h
  simp only [isHiddenName, decide_eq_false_iff_not]
  intro hhead
  have hmem : '#' ∈ name.toList := List.mem_of_mem_head? hhead
  have := h.2 '#' hmem
  revert this
  decide

namespace Token

theorem isName_takeWhile {cs : List Char} (h : cs.takeWhile isNameChar ≠ []) :
    isName (String.ofList (cs.takeWhile isNameChar)) = true := by
  simp only [isName, String.toList_ofList, Bool.and_eq_true, List.all_takeWhile, and_true]
  simpa using h

theorem isName_of_spec? {cs : List Char} {n : String} {t? : Option String}
    (h : spec? cs = some (some n, t?)) : isName n = true := by
  unfold spec? at h
  split at h
  · cases ha : annotation? (cs.dropWhile isNameChar) <;> simp_all
  · cases h
    exact isName_takeWhile (by assumption)
  · obtain ⟨t, -, ht⟩ := Option.map_eq_some_iff.1 h
    cases ht
    exact isName_takeWhile (by assumption)

theorem isName_of_edgeSpec? {cs : List Char} {n : String} {t? : Option String}
    (h : edgeSpec? cs = some (some n, t?)) : isName n = true := by
  unfold edgeSpec? at h
  split at h
  · cases h
  · exact isName_of_spec? h

theorem isName_of_readChars? {cs : List Char} {t : Token} {n : String} (h : readChars? cs = some t)
    (hn : t.name? = some n) : isName n = true := by
  unfold readChars? at h
  split at h <;> simp only [Option.bind_eq_bind, Option.bind_eq_some_iff] at h
  · obtain ⟨inner, -, ⟨n?, t?⟩, hspec, ht⟩ := h
    cases ht
    obtain rfl : n? = some n := hn
    exact isName_of_edgeSpec? hspec
  · obtain ⟨inner, -, ⟨n?, t?⟩, hspec, ht⟩ := h
    cases ht
    obtain rfl : n? = some n := hn
    exact isName_of_edgeSpec? hspec
  · obtain ⟨⟨n?, t?⟩, hspec, ht⟩ := h
    cases ht
    obtain rfl : n? = some n := hn
    exact isName_of_spec? hspec

/-- Tokens whose names can be written. -/
def Visible (ts : List Token) : Prop :=
  ∀ t ∈ ts, ∀ n, t.name? = some n → isHiddenName n = false

theorem name?_atIndex (i : Nat) (t : Token) : (t.atIndex i).name? = t.name? := by
  cases t <;> rfl

/-- The units into which the elements from a position on split: markers with their payloads, and texts
that are nodes or edges. -/
inductive Units : Nat → List Element → List Token → Prop
  | nil (i : Nat) : Units i [] []
  | marker {i : Nat} {s : String} {m : Marker} {payload : Element} {c : Constraint}
      {es : List Element} {ts : List Token} (starts : startsMarker s = true)
      (marker : Marker.ofText? s = some m) (taken : constraint? m payload = .ok c)
      (rest : Units (i + 2) es ts) : Units i (.text s :: payload :: es) (.constraint ⟨c, i⟩ :: ts)
  | token {i : Nat} {s : String} {t : Token} {es : List Element} {ts : List Token}
      (starts : ¬ startsMarker s = true) (text : read? s = some t) (rest : Units (i + 1) es ts) :
      Units i (.text s :: es) (t.atIndex i :: ts)

/-- There are tokens exactly for elements that split into units. -/
theorem units_eq_ok_iff {i : Nat} {es : List Element} {ts : List Token} :
    units i es = .ok ts ↔ Units i es ts := by
  constructor
  · intro h
    -- the recursion of the reader, whose failing cases give no units
    fun_induction units i es generalizing ts with
    | case1 i => cases h; exact .nil i
    | case2 | case3 | case4 | case6 | case8 => cases h
    | case5 i s hs m payload rest hm c hc ih =>
      cases hrest : units (i + 2) rest with
      | error f => rw [hrest] at h; cases h
      | ok us =>
        rw [hrest] at h
        cases h
        exact .marker hs hm hc (ih hrest)
    | case7 i s rest hs t ht ih =>
      cases hrest : units (i + 1) rest with
      | error f => rw [hrest] at h; cases h
      | ok us =>
        rw [hrest] at h
        cases h
        exact .token hs ht (ih hrest)
  · -- each shape of a unit is read back by its own equation
    intro h
    induction h with
    | nil i => rfl
    | marker starts marker taken _ ih =>
      rw [units.eq_def]
      simp only [if_pos starts, marker, taken, ih, bind, Except.bind, pure, Except.pure]
    | token starts text _ ih =>
      rw [units.eq_def]
      simp only [if_neg starts, text, ih, bind, Except.bind, pure, Except.pure]

theorem classify_eq_ok_iff {es : List Element} {ts : List Token} :
    classify es = .ok ts ↔ Units 0 es ts := by
  rw [← units_eq_ok_iff, classify]
  cases units 0 es with
  | ok us => rw [Except.ok.injEq, Except.ok.injEq]
  | error f => exact iff_of_false nofun nofun

/-- What is no constraint is read from a text. -/
theorem Units.cases_of_mem {i : Nat} {es : List Element} {ts : List Token} (h : Units i es ts)
    {t : Token} (ht : t ∈ ts) :
    (∃ c, t = .constraint c) ∨ ∃ s u k, read? s = some u ∧ t = u.atIndex k := by
  induction h with
  | nil i => cases ht
  | @marker i s m payload c es ts starts marker taken rest ih =>
    rcases List.mem_cons.1 ht with rfl | ht
    · exact .inl ⟨_, rfl⟩
    · exact ih ht
  | @token i s u es ts starts text rest ih =>
    rcases List.mem_cons.1 ht with rfl | ht
    · exact .inr ⟨s, u, i, text, rfl⟩
    · exact ih ht

/-- No name of a pattern is hidden. -/
theorem visible_of_classify {es : List Element} {ts : List Token} (h : classify es = .ok ts) :
    Visible ts := by
  intro t ht n hn
  rcases (classify_eq_ok_iff.1 h).cases_of_mem ht with ⟨c, rfl⟩ | ⟨s, u, k, hread, rfl⟩
  · cases hn
  · rw [name?_atIndex] at hn
    exact isHiddenName_of_isName (isName_of_readChars? hread hn)

end Token

namespace PatternGraph

/-! ## The course of a reading -/

namespace Reading

/-- The course of a reading: each token gets the handle of what it stands for. -/
inductive Reads (cx : Context) : Reading → List Token → List Handle → PatternGraph → Prop
  | done {r : Reading} : Reads cx r [] [] r.graph
  | constraint {r r' : Reading} {t : ConstraintToken} {ts : List Token} {hs : List Handle}
      {g : PatternGraph} (step : r.constrain t = .ok r') (rest : Reads cx r' ts hs g) :
      Reads cx r (.constraint t :: ts) (.node ⟨r.graph.nodes.length⟩ :: hs) g
  | node {r : Reading} {t : NodeToken} {n : NodeId} {g₁ g : PatternGraph} {ts : List Token}
      {hs : List Handle} (step : resolve cx r.graph t = .ok (n, g₁))
      (rest : Reads cx { graph := g₁, current := n } ts hs g) :
      Reads cx r (.node t :: ts) (.node n :: hs) g
  | edge {r : Reading} {t : EdgeToken} {next : NodeToken} {n : NodeId} {g₁ g₂ g : PatternGraph}
      {ts : List Token} {hs : List Handle} (source : r.current ≠ r.graph.anchor)
      (target : resolve cx r.graph next = .ok (n, g₁))
      (step : connect cx g₁ t r.current n = .ok g₂)
      (rest : Reads cx { graph := g₂, current := n } ts hs g) :
      Reads cx r (.edge t :: .node next :: ts) (.edge ⟨g₁.edges.length⟩ :: .node n :: hs) g

variable {cx : Context} {r r' : Reading} {g : PatternGraph} {ts : List Token}

theorem reads_of_run (h : run cx r ts = .ok g) : ∃ hs, Reads cx r ts hs g := by
  -- along the run: it goes on only where its step succeeded
  fun_induction run cx r ts with
  | case1 r => cases h; exact ⟨[], .done⟩
  | case2 r t ts ih =>
    cases hr : r.constrain t with
    | error f => rw [hr] at h; cases h
    | ok r' =>
      rw [hr] at h
      obtain ⟨hs, hreads⟩ := ih r' h
      exact ⟨_, .constraint hr hreads⟩
  | case3 r t ts ih =>
    cases hr : resolve cx r.graph t with
    | error f => rw [hr] at h; cases h
    | ok p =>
      obtain ⟨n, g₁⟩ := p
      rw [hr] at h
      obtain ⟨hs, hreads⟩ := ih n g₁ h
      exact ⟨_, .node hr hreads⟩
  | case4 => cases h
  | case5 r t hsource next ts ih =>
    cases hr : resolve cx r.graph next with
    | error f => rw [hr] at h; cases h
    | ok p =>
      obtain ⟨n, g₁⟩ := p
      cases hc : connect cx g₁ t r.current n with
      | error f => simp only [hr, bind, Except.bind, hc] at h; cases h
      | ok g₂ =>
        simp only [hr, bind, Except.bind, hc] at h
        obtain ⟨hs, hreads⟩ := ih n g₂ h
        exact ⟨_, .edge hsource hr hc hreads⟩
  | case6 => cases h

theorem Reads.run_eq {hs : List Handle} (h : Reads cx r ts hs g) : run cx r ts = .ok g := by
  induction h with
  | done => rfl
  | constraint step _ ih => simp only [run, step, bind, Except.bind, ih]
  | node step _ ih => simp only [run, step, bind, Except.bind, ih]
  | edge source target step _ ih =>
    simp only [run, if_neg source, target, step, bind, Except.bind, ih]

/-- Reading succeeds exactly along a course. -/
theorem run_eq_ok_iff : run cx r ts = .ok g ↔ ∃ hs, Reads cx r ts hs g :=
  ⟨reads_of_run, fun ⟨_, h⟩ => h.run_eq⟩

end Reading

/-! ## What each token adds -/

/-- The name is one of an argument. -/
def namesArgument (cx : Context) (name? : Option String) : Bool :=
  name?.any fun name => cx.arguments.contains name

theorem namesArgument_iff {cx : Context} {name? : Option String} :
    namesArgument cx name? = true ↔ ∃ name ∈ cx.arguments, name? = some name := by
  cases name? <;> simp [namesArgument]

/-- The node that a node token stands for if it is the first of its name. -/
def placeNode (cx : Context) (t : NodeToken) : PatternNode :=
  { kind := if namesArgument cx t.name? then .argument else .pattern
    name? := t.name?, typeName? := t.typeName?, tokenIndex? := some t.index }

/-- The edge that an edge token stands for. -/
def placeEdge (cx : Context) (t : EdgeToken) (current next : NodeId) : PatternEdge :=
  { kind := if namesArgument cx t.name? then .argument else .pattern
    alpha := match t.direction with
      | .out => current
      | .into => next
    omega := match t.direction with
      | .out => next
      | .into => current
    name? := t.name?, typeName? := t.typeName?, tokenIndex? := some t.index }

theorem placeEdge_ends (cx : Context) (t : EdgeToken) (m n : NodeId) :
    ((placeEdge cx t m n).alpha = m ∧ (placeEdge cx t m n).omega = n) ∨
      ((placeEdge cx t m n).alpha = n ∧ (placeEdge cx t m n).omega = m) := by
  cases hd : t.direction <;> simp [placeEdge, hd]

/-- Along its token, an edge leads from the node before to the node after it. -/
theorem placeEdge_seen (cx : Context) (t : EdgeToken) (m n : NodeId) (k : EdgeId) :
    ((placeEdge cx t m n).seen k t.direction).this = m ∧
      ((placeEdge cx t m n).seen k t.direction).that = n := by
  cases hd : t.direction <;> simp [placeEdge, hd, PatternEdge.seen]

theorem placeEdge_structural (cx : Context) (t : EdgeToken) (m n : NodeId) :
    (placeEdge cx t m n).kind.structural = true := by
  rw [placeEdge]
  split <;> rfl

theorem placeEdge_kind_ne (cx : Context) (t : EdgeToken) (m n : NodeId) {k : EdgeKind}
    (hk : k.structural = false) : (placeEdge cx t m n).kind ≠ k := by
  rintro rfl
  rw [placeEdge_structural] at hk
  cases hk

/-- The node that a constraint token stands for. -/
def constraintNode (t : ConstraintToken) : PatternNode :=
  { kind := .constraint, constraint? := t.constraint, tokenIndex? := some t.index }

/-- The edge to a constraint from what it hangs on. -/
def precedesEdge (n c : NodeId) : PatternEdge :=
  { kind := .precedes, alpha := n, omega := c }

namespace Reading

variable {cx : Context} {g g₁ : PatternGraph}

/-- A node token stands for the node of its name, or for a new node. -/
theorem resolve_cases {t : NodeToken} {n : NodeId} (h : resolve cx g t = .ok (n, g₁)) :
    (∃ name, t.name? = some name ∧ g.named? name = some (.node n) ∧ g₁ = g ∧
      ∀ type, t.typeName? = some type → (g.node? n).bind (·.typeName?) = some type) ∨
    ((n, g₁) = g.addNode (placeNode cx t) ∧
      (∀ name, t.name? = some name → g.named? name = none) ∧
      (namesArgument cx t.name? = true → t.typeName? = none)) := by
  unfold resolve at h
  cases hname : t.name? with
  | none =>
    simp only [hname] at h
    refine .inr ⟨?_, by simp, by simp [namesArgument]⟩
    simp only [placeNode, hname, namesArgument, Option.any_none, Bool.false_eq_true, if_false]
    exact (Except.ok.inj h).symm
  | some name =>
    simp only [hname] at h
    split at h
    · cases h
    · rename_i htyped
      cases hnamed : g.named? name with
      | none =>
        simp only [hnamed] at h
        refine .inr ⟨?_, by simpa using hnamed, ?_⟩
        · simp only [placeNode, hname, namesArgument, Option.any_some]
          exact (Except.ok.inj h).symm
        · -- an argument with a type was refused above
          intro harg
          simp only [namesArgument, Option.any_some] at harg
          simp only [List.contains_iff_mem] at harg
          simpa using (by simpa using htyped : name ∈ cx.arguments → _) harg
      | some k =>
        cases k with
        -- the name is an edge's: refused
        | edge k => simp only [hnamed] at h; cases h
        | node m =>
          simp only [hnamed] at h
          cases htype : t.typeName? with
          | none =>
            simp only [htype] at h
            cases h
            exact .inl ⟨name, rfl, hnamed, rfl, by simp⟩
          -- a type given again has to be the type that the name has
          | some type =>
            simp only [htype] at h
            split at h
            · cases h
              rename_i hdeclared
              refine .inl ⟨name, rfl, hnamed, rfl, ?_⟩
              rintro _ ⟨⟩
              exact hdeclared
            · cases h

/-- An argument that is read has no type. -/
theorem plain_of_resolve {t : NodeToken} {x : NodeId × PatternGraph} (h : resolve cx g t = .ok x)
    (harg : namesArgument cx t.name? = true) : t.typeName? = none := by
  obtain ⟨name, hmem, hname⟩ := namesArgument_iff.1 harg
  simp only [resolve, hname, List.contains_iff_mem.2 hmem, Bool.true_and] at h
  split at h
  · cases h
  · rename_i htyped
    simpa using htyped

theorem not_typed {t : NodeToken} {name : String} (hname : t.name? = some name)
    (hplain : namesArgument cx t.name? = true → t.typeName? = none) :
    ¬ (cx.arguments.contains name && t.typeName?.isSome) = true := by
  rw [Bool.and_eq_true]
  rintro ⟨harg, hsome⟩
  rw [hplain (by rw [hname]; exact harg)] at hsome
  cases hsome

/-- A node token stands for the node of its name. -/
theorem resolve_known {t : NodeToken} {name : String} {n : NodeId} (hname : t.name? = some name)
    (hnamed : g.named? name = some (.node n))
    (hplain : namesArgument cx t.name? = true → t.typeName? = none)
    (htype : ∀ type, t.typeName? = some type → (g.node? n).bind (·.typeName?) = some type) :
    resolve cx g t = .ok (n, g) := by
  simp only [resolve, hname, if_neg (not_typed hname hplain), hnamed]
  cases ht : t.typeName? with
  | none => rfl
  | some type => exact if_pos (htype type ht)

/-- A node token under a new name adds its node. -/
theorem resolve_new {t : NodeToken} (hfresh : ∀ name, t.name? = some name → g.named? name = none)
    (hplain : namesArgument cx t.name? = true → t.typeName? = none) :
    resolve cx g t = .ok (g.addNode (placeNode cx t)) := by
  cases hname : t.name? with
  | none =>
    simp only [resolve, hname, placeNode, namesArgument, Option.any_none, Bool.false_eq_true,
      if_false]
  | some name =>
    simp only [resolve, hname, if_neg (not_typed hname hplain), hfresh name hname, placeNode, namesArgument,
      Option.any_some]

theorem link_ok {e : PatternEdge} (h : link g e = .ok g₁) : ∃ k, g.addEdge e = (.ok k, g₁) := by
  unfold link at h
  split at h
  · cases h
  · rename_i k g' hadd
    cases h
    exact ⟨k, hadd⟩

/-- An edge token adds its edge under a new name. -/
theorem connect_ok {t : EdgeToken} {current next : NodeId}
    (h : connect cx g t current next = .ok g₁) :
    (∀ name, t.name? = some name → g.named? name = none) ∧
      ∃ k, g.addEdge (placeEdge cx t current next) = (.ok k, g₁) := by
  cases hname : t.name? with
  | none =>
    simp only [connect, hname, bind, Except.bind] at h
    refine ⟨by simp, ?_⟩
    simp only [placeEdge, hname, namesArgument, Option.any_none, Bool.false_eq_true, if_false]
    -- the direction decides which way the edge is linked, and neither way changes its mark
    cases hd : t.direction <;> simp only [hd] at h <;> exact link_ok h
  | some name =>
    simp only [connect, hname, bind, Except.bind] at h
    cases hnamed : g.named? name with
    | some k =>
      rw [hnamed] at h
      cases h
    | none =>
      rw [hnamed] at h
      refine ⟨by simpa using hnamed, ?_⟩
      simp only [placeEdge, hname, namesArgument, Option.any_some]
      cases hd : t.direction <;> simp only [hd] at h <;> exact link_ok h

/-- An edge token under a new name adds its edge. -/
theorem connect_fresh {t : EdgeToken} (current next : NodeId)
    (h : ∀ name, t.name? = some name → g.named? name = none) :
    connect cx g t current next = link g (placeEdge cx t current next) := by
  cases hname : t.name? with
  | none =>
    simp only [connect, placeEdge, hname, namesArgument, bind, Except.bind]
    cases t.direction <;> rfl
  | some name =>
    simp only [connect, placeEdge, hname, namesArgument, bind, Except.bind, h name hname]
    cases t.direction <;> rfl

/-- An edge token under a name that is taken is refused. -/
theorem connect_taken {t : EdgeToken} {name : String} {h : Handle} (current next : NodeId)
    (hname : t.name? = some name) (hnamed : g.named? name = some h) :
    connect cx g t current next = .error (cx.refuse (.edgeNameTaken name) (some t.index)) := by
  simp only [connect, hname, hnamed, bind, Except.bind]
  rfl

theorem isNode_placeEdge (cx : Context) (t : EdgeToken) {current next : NodeId}
    (hc : g.IsNode current) (hn : g.IsNode next) : g.IsNode (placeEdge cx t current next).alpha ∧
      g.IsNode (placeEdge cx t current next).omega := by
  cases hd : t.direction <;> simp only [placeEdge, hd]
  · exact ⟨hc, hn⟩
  · exact ⟨hn, hc⟩

/-- A constraint token adds a node, and an edge to it from what it hangs on. -/
theorem constrain_ok {r r' : Reading} {t : ConstraintToken} (h : r.constrain t = .ok r') :
    ∃ k, (r.graph.addNode (constraintNode t)).2.addEdge
        (precedesEdge (r.lastConstraint?.getD r.current) ⟨r.graph.nodes.length⟩) =
          (.ok k, r'.graph) ∧
      r'.current = r.current ∧ r'.lastConstraint? = some ⟨r.graph.nodes.length⟩ := by
  simp only [constrain, bind, Except.bind] at h
  split at h
  · cases h
  · rename_i g' hlink
    cases h
    obtain ⟨k, hadd⟩ := link_ok hlink
    exact ⟨k, hadd, rfl, rfl⟩

/-- A constraint can be hung where its edge can be added. -/
theorem constrain_of_link {r : Reading} {t : ConstraintToken}
    (h : link (r.graph.addNode (constraintNode t)).2
      (precedesEdge (r.lastConstraint?.getD r.current) ⟨r.graph.nodes.length⟩) = .ok g) :
    r.constrain t =
      .ok { r with graph := g, lastConstraint? := some ⟨r.graph.nodes.length⟩ } := by
  show (link (r.graph.addNode (constraintNode t)).2
    (precedesEdge (r.lastConstraint?.getD r.current) ⟨r.graph.nodes.length⟩) >>= fun g =>
      pure { r with graph := g, lastConstraint? := some ⟨r.graph.nodes.length⟩ }) = _
  rw [h]
  rfl

end Reading

/-! ## Regularity -/

namespace Regular

variable {cx : Context} {g g₁ : PatternGraph}

theorem not_hasName_empty (h : Handle) (name : String) : ¬ PatternGraph.empty.HasName h name := by
  cases h with
  | node n =>
    rintro ⟨⟨i, rfl, hi⟩, hname⟩
    obtain rfl : i = 0 := by simpa [PatternGraph.empty] using hi
    cases hname
  | edge k => intro hname; cases hname

theorem empty (cx : Context) : PatternGraph.empty.Regular cx where
  consistent := Consistent.empty
  anchor := ⟨_, rfl, rfl⟩
  node := by
    rintro n nd ⟨i, rfl, hi⟩ hnd
    obtain rfl : i = 0 := by simpa [PatternGraph.empty] using hi
    cases hnd
    exact ⟨rfl, rfl⟩
  edge := by intro e he; cases he
  names := by
    intro name h
    constructor
    · intro hnamed; cases hnamed
    · intro hname; exact absurd hname (not_hasName_empty h name)
  visible := by
    intro h name hname
    exact absurd hname (not_hasName_empty h name)
  chained := by
    rintro i j ⟨e, he, -⟩
    cases he

/-- A node token adds at most its node, and stands for a node of the model. -/
theorem resolve (hg : g.Regular cx) {t : NodeToken} {n : NodeId}
    (hvis : ∀ name, t.name? = some name → isHiddenName name = false)
    (h : Reading.resolve cx g t = .ok (n, g₁)) :
    g₁.Regular cx ∧ g.Extends g₁ ∧ g₁.IsPlace n := by
  -- a known name leaves the graph as it is; otherwise one node was added
  rcases Reading.resolve_cases h with ⟨name, hname, hnamed, rfl, -⟩ | ⟨hadd, hfresh, htype⟩
  · exact ⟨hg, .refl _, (hg.isPlace_of_named? hnamed).1⟩
  · obtain rfl : n = ⟨g.nodes.length⟩ := congrArg Prod.fst hadd
    obtain rfl : g₁ = (g.addNode (placeNode cx t)).2 := congrArg Prod.snd hadd
    have hext := extends_addNode g (placeNode cx t)
    have hnew := node?_addNode_length g (placeNode cx t)
    refine ⟨hg.grow hext (hg.consistent.addNode _) ?_ ?_ (hg.names.addNode hfresh) ?_
      (hg.chained.addNode hg.consistent _), hext, ?_⟩
    · -- node: the one added fits its mark, and the type it would break it with was refused
      intro n nd hn hnd hold
      obtain rfl := ((isNode_addNode _).1 hn).resolve_left hold
      rw [hnew] at hnd
      cases hnd
      cases harg : namesArgument cx t.name? with
      | false =>
        simp only [NodeFits, placeNode, harg, Bool.false_eq_true, if_false]
        intro name hname
        simpa [namesArgument, hname] using harg
      | true =>
        simp only [NodeFits, placeNode, harg, if_true]
        exact ⟨htype harg, namesArgument_iff.1 harg⟩
    · -- edge: none was added
      intro e he hold
      exact absurd he hold
    · -- visible: a new name is the token's own
      intro x name hname
      refine ((hasName_addNode_iff _ x name).1 hname).imp_right ?_
      rintro ⟨-, hown⟩
      exact hvis name hown
    · refine ⟨(isNode_addNode _).2 (.inr rfl), _, hnew, ?_⟩
      cases harg : namesArgument cx t.name? <;> simp [placeNode, harg]

/-- Adding an edge that fits keeps a graph regular. -/
theorem addEdge (hg : g.Regular cx) {e : PatternEdge} {k : EdgeId} (ha : g.IsNode e.alpha)
    (ho : g.IsNode e.omega) (hfits : g.EdgeFits cx e)
    (hfresh : ∀ name, e.name? = some name → g.named? name = none)
    (hvis : ∀ name, e.name? = some name → isHiddenName name = false)
    (hnew : ∀ i, g.Incident i → g.IsConstraint i.this →
      i.this ≠ (e.seen ⟨g.edges.length⟩ i.direction).this)
    (h : g.addEdge e = (.ok k, g₁)) : g₁.Regular cx ∧ g.Extends g₁ := by
  obtain ⟨g', hadd, hcons, hnodes, hedges, hnames⟩ := hg.consistent.addEdge e ha ho
  rw [h] at hadd
  cases hadd
  have hext : g.Extends g₁ := extends_of_edges hnodes hedges
  refine ⟨hg.grow hext hcons ?_ ?_ (hg.names.addEdge hfresh hnodes hedges hnames) ?_
    (hg.chained.addEdge hnodes hedges hnew), hext⟩
  · -- node: none was added
    intro n nd hn _ hold
    simp only [IsNode, hnodes] at hn
    exact absurd hn hold
  · -- edge: the added one fits by hypothesis
    intro e' he' hold
    rw [hedges] at he'
    rcases List.mem_append.1 he' with he' | he'
    · exact absurd he' hold
    · rw [List.mem_singleton.1 he']
      exact hext.edgeFits hfits
  · -- visible: a new name is the edge's own
    intro x name hname
    refine ((hasName_addEdge_iff hnodes hedges x name).1 hname).imp_right ?_
    rintro ⟨-, hown⟩
    exact hvis name hown

/-- An edge token adds its edge. -/
theorem connect (hg : g.Regular cx) {t : EdgeToken} {current next : NodeId}
    (hc : g.IsPlace current) (hn : g.IsPlace next)
    (hvis : ∀ name, t.name? = some name → isHiddenName name = false)
    (h : Reading.connect cx g t current next = .ok g₁) : g₁.Regular cx ∧ g.Extends g₁ := by
  obtain ⟨hfresh, k, hadd⟩ := Reading.connect_ok h
  have hends : g.IsPlace (placeEdge cx t current next).alpha ∧
      g.IsPlace (placeEdge cx t current next).omega := by
    cases hd : t.direction <;> simp only [placeEdge, hd]
    · exact ⟨hc, hn⟩
    · exact ⟨hn, hc⟩
  have hnew : ∀ i, g.Incident i → g.IsConstraint i.this →
      i.this ≠ ((placeEdge cx t current next).seen ⟨g.edges.length⟩ i.direction).this := by
    intro i _ hc heq
    refine not_isPlace_of_isConstraint hc ?_
    rw [heq]
    cases i.direction
    · exact hends.1
    · exact hends.2
  refine hg.addEdge hends.1.1 hends.2.1 ?_ hfresh hvis hnew hadd
  cases harg : namesArgument cx t.name? with
  | false =>
    have hkind : (placeEdge cx t current next).kind = .pattern := by simp [placeEdge, harg]
    rw [EdgeFits, hkind]
    refine ⟨hends.1, hends.2, ?_⟩
    intro name hname
    have hname : t.name? = some name := hname
    simpa [namesArgument, hname] using harg
  | true =>
    have hkind : (placeEdge cx t current next).kind = .argument := by simp [placeEdge, harg]
    rw [EdgeFits, hkind]
    exact ⟨hends.1, hends.2, namesArgument_iff.1 harg⟩

/-- A node that is added is no end of the edges before it. -/
theorem this_ne_length (hg : g.Consistent) {i : Incidence} (hi : g.Incident i) :
    i.this ≠ ⟨g.nodes.length⟩ :=
  fun heq => not_isNode_length g (heq ▸ hg.isNode_this hi)

/-- Edges only lead into a constraint that is hung last. -/
theorem into_of_hung (hg : g.Consistent) {n : NodeId} (hn : g.IsNode n)
    (hedges : g₁.edges = g.edges ++ [precedesEdge n ⟨g.nodes.length⟩]) {i : Incidence}
    (hi : g₁.Incident i) (hthis : i.this = ⟨g.nodes.length⟩) : i.direction = .into := by
  rcases incident_append hedges hi with hold | hnew
  · exact absurd hthis (this_ne_length hg hold)
  · cases hd : i.direction with
    | into => rfl
    | out =>
      rw [hd] at hnew
      refine absurd hn ?_
      rw [show n = ⟨g.nodes.length⟩ by rw [← hthis, hnew]; rfl]
      exact not_isNode_length g

/-- What nothing hangs on may get a new constraint. -/
theorem chained_hung (hg : g.Regular cx) {t : ConstraintToken} {n : NodeId}
    (hlast : g.IsConstraint n → ∀ i, g.Incident i → i.this = n → i.direction = .into)
    (hnodes : g₁.nodes = (g.addNode (constraintNode t)).2.nodes)
    (hedges : g₁.edges = g.edges ++ [precedesEdge n ⟨g.nodes.length⟩]) : g₁.Chained := by
  refine (hg.chained.addNode hg.consistent (constraintNode t)).addEdge hnodes hedges ?_
  intro i hi hc heq
  have hi' : g.Incident i := hi
  have hthis : g.IsNode i.this := hg.consistent.isNode_this hi'
  cases hd : i.direction with
  | into => exact this_ne_length hg.consistent hi' (by rw [heq, hd]; rfl)
  | out =>
    rw [hd] at heq
    obtain ⟨-, nd, hnd, hkind⟩ := hc
    rw [(extends_addNode g _).node? hthis] at hnd
    have heq : i.this = n := heq
    have := hlast (heq ▸ ⟨hthis, nd, hnd, hkind⟩) i hi' heq
    rw [hd] at this
    cases this

/-- A constraint token adds its constraint and the edge to it. -/
theorem constrain (hg : g.Regular cx) {t : ConstraintToken} {n : NodeId} {k : EdgeId}
    (hn : g.IsNode n)
    (hlast : g.IsConstraint n → ∀ i, g.Incident i → i.this = n → i.direction = .into)
    (h : (g.addNode (constraintNode t)).2.addEdge (precedesEdge n ⟨g.nodes.length⟩) =
      (.ok k, g₁)) :
    g₁.Regular cx ∧ g.Extends g₁ ∧ g₁.IsConstraint ⟨g.nodes.length⟩ ∧
      ∀ i, g₁.Incident i → i.this = ⟨g.nodes.length⟩ → i.direction = .into := by
  let g' := (g.addNode (constraintNode t)).2
  have hext' : g.Extends g' := extends_addNode g _
  have hnew : g'.IsNode ⟨g.nodes.length⟩ := (isNode_addNode _).2 (.inr rfl)
  obtain ⟨g'', hadd, hcons, hnodes, hedges, hnames⟩ :=
    (hg.consistent.addNode (constraintNode t)).addEdge (precedesEdge n ⟨g.nodes.length⟩)
      (hext'.isNode hn) hnew
  rw [h] at hadd
  cases hadd
  have hext : g.Extends g₁ := hext'.trans (extends_of_edges hnodes hedges)
  have hisNode : ∀ m, g₁.IsNode m ↔ g.IsNode m ∨ m = ⟨g.nodes.length⟩ := by
    intro m
    rw [← isNode_addNode (constraintNode t)]
    exact isNode_of_nodes_eq hnodes m
  have hnode : g₁.node? ⟨g.nodes.length⟩ = some (constraintNode t) :=
    (node?_of_nodes_eq (g := g') hnodes _).trans (node?_addNode_length g _)
  have hconstraint : g₁.IsConstraint ⟨g.nodes.length⟩ :=
    ⟨(hisNode _).2 (.inr rfl), _, hnode, rfl⟩
  have hagree : g₁.NamesAgree := by
    have h₁ : g'.NamesAgree := hg.names.addNode (by intro name hname; cases hname)
    exact h₁.addEdge (e := precedesEdge n ⟨g.nodes.length⟩) (by intro name hname; cases hname)
      hnodes hedges hnames
  refine ⟨hg.grow hext hcons ?_ ?_ hagree ?_ (chained_hung hg hlast hnodes hedges), hext,
    hconstraint, fun i => into_of_hung hg.consistent hn hedges⟩
  · intro m nd hm hnd hold
    obtain rfl := ((hisNode m).1 hm).resolve_left hold
    rw [hnode] at hnd
    cases hnd
    refine ⟨rfl, rfl, precedesEdge n ⟨g.nodes.length⟩, by rw [hedges]; simp, rfl, rfl, ?_⟩
    obtain ⟨i, rfl, hi⟩ := hn
    show (i : Int) < g.nodes.length
    omega
  · intro e he hold
    rw [hedges] at he
    obtain rfl := List.mem_singleton.1 ((List.mem_append.1 he).resolve_left hold)
    exact ⟨rfl, hconstraint⟩
  · intro x name hname
    rcases (hasName_addEdge_iff (g := g') hnodes hedges x name).1 hname with hname | ⟨-, ⟨⟩⟩
    rcases (hasName_addNode_iff _ x name).1 hname with hold | ⟨-, ⟨⟩⟩
    exact .inl hold

end Regular

namespace Reading

variable {cx : Context} {r : Reading} {g : PatternGraph} {ts : List Token} {hs : List Handle}

/-- What holds wherever a reading stands. -/
structure Sound (cx : Context) (r : Reading) : Prop where
  regular : r.graph.Regular cx
  current : r.current = r.graph.anchor ∨ r.graph.IsPlace r.current
  last : ∀ c, r.lastConstraint? = some c → r.graph.IsConstraint c ∧
    ∀ i, r.graph.Incident i → i.this = c → i.direction = .into

theorem Sound.start (cx : Context) : Sound cx {} where
  regular := .empty cx
  current := .inl rfl
  last := by intro c hc; cases hc

theorem Sound.isPlace_current (hr : Sound cx r) (h : r.current ≠ r.graph.anchor) :
    r.graph.IsPlace r.current :=
  hr.current.resolve_left h

/-- A constraint hangs on a node of the graph. -/
theorem Sound.isNode_owner (hr : Sound cx r) :
    r.graph.IsNode (r.lastConstraint?.getD r.current) := by
  cases hlast : r.lastConstraint? with
  | some c => exact (hr.last c hlast).1.1
  | none =>
    rcases hr.current with h | h
    · rw [Option.getD_none, h]
      exact isNode_anchor hr.regular.consistent.inhabited
    · exact h.1

theorem Sound.constrain (hr : Sound cx r) {r' : Reading} {t : ConstraintToken}
    (h : r.constrain t = .ok r') : Sound cx r' ∧ r.graph.Extends r'.graph := by
  obtain ⟨k, hadd, hcur, hlast⟩ := constrain_ok h
  have hend : r.graph.IsConstraint (r.lastConstraint?.getD r.current) → ∀ i, r.graph.Incident i →
      i.this = r.lastConstraint?.getD r.current → i.direction = .into := by
    intro hc
    cases hlast : r.lastConstraint? with
    | some c => exact (hr.last c hlast).2
    | none =>
      rw [hlast, Option.getD_none] at hc
      rcases hr.current with h | h
      · exact absurd (h ▸ hc) hr.regular.not_isConstraint_anchor
      · exact absurd h (Regular.not_isPlace_of_isConstraint hc)
  obtain ⟨hreg, hext, hnew⟩ := hr.regular.constrain hr.isNode_owner hend hadd
  refine ⟨{ regular := hreg, current := ?_, last := ?_ }, hext⟩
  · rw [hcur]
    exact hr.current.imp id hext.isPlace
  · intro c hc
    rw [hlast] at hc
    cases hc
    exact hnew

/-- Reading a node token adds no edges. -/
theorem edges_of_resolve {g g₁ : PatternGraph} {t : NodeToken} {n : NodeId}
    (h : resolve cx g t = .ok (n, g₁)) : g₁.edges = g.edges := by
  rcases resolve_cases h with ⟨-, -, -, rfl, -⟩ | ⟨hadd, -, -⟩
  · rfl
  · rw [show g₁ = (g.addNode (placeNode cx t)).2 from congrArg Prod.snd hadd]
    rfl

/-- Reading adds no start edges. -/
theorem Reads.unanchored (h : Reads cx r ts hs g) (hr : ∀ e ∈ r.graph.edges, e.kind ≠ .start) :
    ∀ e ∈ g.edges, e.kind ≠ .start := by
  induction h with
  | done => exact hr
  | @constraint r r' t ts hs g step _ ih =>
    obtain ⟨k, hadd, -, -⟩ := constrain_ok step
    refine ih fun e he => ?_
    rw [edges_of_addEdge hadd] at he
    rcases List.mem_append.1 he with he | he
    · exact hr e he
    · rw [List.mem_singleton.1 he]
      exact EdgeKind.noConfusion
  | @node r t n g₁ g ts hs step _ ih =>
    refine ih fun e he => hr e ?_
    rwa [← edges_of_resolve step]
  | @edge r t next n g₁ g₂ g ts hs source target step _ ih =>
    obtain ⟨-, k, hadd⟩ := connect_ok step
    refine ih fun e he => ?_
    rw [edges_of_addEdge hadd, edges_of_resolve target] at he
    rcases List.mem_append.1 he with he | he
    · exact hr e he
    · rw [List.mem_singleton.1 he]
      cases harg : namesArgument cx t.name? <;> simp [placeEdge, harg]

/-- What is read stays regular. -/
theorem Reads.regular (h : Reads cx r ts hs g) (hr : Sound cx r) (hts : Token.Visible ts) :
    g.Regular cx := by
  induction h with
  | done => exact hr.regular
  | constraint step _ ih =>
    exact ih (hr.constrain step).1 fun t ht => hts t (List.mem_cons_of_mem _ ht)
  | @node r t n g₁ g ts hs step _ ih =>
    obtain ⟨hreg, -, hplace⟩ := hr.regular.resolve (hts (.node t) (by simp)) step
    refine ih ⟨hreg, .inr hplace, ?_⟩ fun t ht => hts t (List.mem_cons_of_mem _ ht)
    intro c hc
    cases hc
  | @edge r t next n g₁ g₂ g ts hs source target step _ ih =>
    obtain ⟨hreg₁, hext, hplace⟩ := hr.regular.resolve (hts (.node next) (by simp)) target
    have hcur : g₁.IsPlace r.current := hext.isPlace (hr.isPlace_current source)
    obtain ⟨hreg₂, hext₂⟩ := hreg₁.connect hcur hplace (hts (.edge t) (by simp)) step
    refine ih ⟨hreg₂, .inr (hext₂.isPlace hplace), ?_⟩ fun t ht => hts t (by simp [ht])
    intro c hc
    cases hc

/-- The graph of a pattern is regular and has no start edges. -/
theorem regular_of_run (h : run cx {} ts = .ok g) (hts : Token.Visible ts) :
    g.Regular cx ∧ ∀ e ∈ g.edges, e.kind ≠ .start := by
  obtain ⟨hs, hreads⟩ := reads_of_run h
  exact ⟨hreads.regular (.start cx) hts, hreads.unanchored (by intro e he; cases he)⟩

end Reading

end PatternGraph

/-- The graph that is compiled comes from the tokens of the pattern and is rooted. -/
theorem Context.rooted_of_anchoredGraph {cx : Context} {g : PatternGraph}
    (h : cx.anchoredGraph = .ok g) :
    ∃ ts g₀, Token.classify cx.elements = .ok ts ∧ PatternGraph.ofTokens cx ts = .ok g₀ ∧
      PatternGraph.Rooted cx g₀ g := by
  simp only [anchoredGraph, graph, bind, Except.bind] at h
  cases hts : Token.classify cx.elements with
  | error f => rw [hts] at h; cases h
  | ok ts =>
    simp only [hts] at h
    cases hg₀ : PatternGraph.ofTokens cx ts with
    | error f => rw [hg₀] at h; cases h
    | ok g₀ =>
      simp only [hg₀] at h
      obtain ⟨hreg, hunanchored⟩ :=
        PatternGraph.Reading.regular_of_run hg₀ (Token.visible_of_classify hts)
      obtain ⟨g', hrun, hanchors⟩ := PatternGraph.anchored_ok hreg.consistent
      rw [hrun] at h
      cases h
      exact ⟨ts, g₀, rfl, hg₀, hreg, hunanchored, hanchors, hreg.anchors hanchors⟩

/-- A pattern that compiles has been walked, expanded and checked. -/
theorem Context.compile_ok {cx : Context} {plan : Plan} (h : cx.compile = .ok plan) :
    ∃ g p, cx.anchoredGraph = .ok g ∧ Plan.ofGraph cx g = .ok p ∧
      p.expanded.check cx g = .ok () ∧ plan = p.expanded := by
  simp only [compile, bind, Except.bind] at h
  cases hg : cx.anchoredGraph with
  | error f => rw [hg] at h; cases h
  | ok g =>
    simp only [hg] at h
    cases hp : Plan.ofGraph cx g with
    | error f => rw [hp] at h; cases h
    | ok p =>
      simp only [hp] at h
      cases hc : p.expanded.check cx g with
      | error f => rw [hc] at h; cases h
      | ok u =>
        rw [hc] at h
        cases h
        exact ⟨g, p, rfl, hp, hc, rfl⟩

end GraphPattern
