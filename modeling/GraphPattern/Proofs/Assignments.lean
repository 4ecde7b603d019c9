import Mathlib
import GraphPattern.Proofs.PatternItems

/-!
# GraphPattern — assignments that meet a pattern

What the tokens of a pattern ask of an assignment of values, in a world: nodes stand for elements of
their types, edges lead between the nodes beside them, and arguments have what is supplied. The
solutions of the graph of a pattern are the assignments that meet its tokens, and the matches of its
plan are one for every choice that extends to such an assignment.

## Results

* `PatternGraph.Tracks.meets_of_solves`, `PatternGraph.Tracks.solves_of_meets` — solutions of the
  graph are assignments that meet the tokens.
* `World.exists_matches` — the matches of a plan in a world represent the assignments that meet the
  pattern.
* `Matches.Represent.nodup` — no match is repeated if every component starts with a name.
-/

namespace GraphPattern

open PatternGraph

-- ---------------------------------------------------------------------------
-- What is asked of an assignment
-- ---------------------------------------------------------------------------

/-- An assignment meets the tokens of a pattern. -/
structure World.Meets (w : World) (cx : Context) (args : Bindings) (ts : List Token)
    (a : Item → Value) : Prop where
  node : ∀ (i : Nat) t, ts[i]? = some (.node t) →
    (if namesArgument cx t.name? then w.element (a ((Token.node t).item i))
      else w.candidate (a ((Token.node t).item i))) ∧
      w.typed (a ((Token.node t).item i)) t.typeName?
  /-- Edges that have no name only need to exist. -/
  linked : ∀ i s t d, Token.Between ts i s t d → t.name? = none →
    w.along t.typeName? t.direction (a ((Token.node s).item i)) (a ((Token.node d).item (i + 2)))
  edge : ∀ i s t d name, Token.Between ts i s t d → t.name? = some name →
    w.edge (a (.named name)) t.typeName? ∧
      w.ends (a (.named name)) t.direction.reverse = a ((Token.node s).item i) ∧
      w.ends (a (.named name)) t.direction = a ((Token.node d).item (i + 2))
  argument : ∀ t ∈ ts, ∀ name ∈ cx.arguments, t.name? = some name →
    args.get? name = some (a (.named name))

/-- Elements are supplied for argument nodes, and edges for argument edges. -/
structure World.Supplies (w : World) (cx : Context) (args : Bindings) (ts : List Token) :
    Prop where
  given : ∀ name ∈ cx.arguments, ∃ v, args.get? name = some v
  node : ∀ t, .node t ∈ ts → ∀ name ∈ cx.arguments, t.name? = some name →
    ∀ v, args.get? name = some v → w.element v
  edge : ∀ t, .edge t ∈ ts → ∀ name ∈ cx.arguments, t.name? = some name →
    ∀ v, args.get? name = some v → w.edge v none

/-- Argument edges have no types of their own. -/
def Token.Untyped (cx : Context) (ts : List Token) : Prop :=
  ∀ t, .edge t ∈ ts → namesArgument cx t.name? = true → t.typeName? = none

/-- The assignments of a list are those that meet a condition, one for every choice. -/
structure Enumerates (ts : List Token) (meets : (Item → Value) → Prop)
    (found : List (Item → Value)) : Prop where
  sound : ∀ a ∈ found, meets a
  complete : ∀ a, meets a → ∃ a' ∈ found, ∀ x, Token.Chosen ts x → a' x = a x
  distinct : found.Pairwise fun a a' => ∃ x, Token.Chosen ts x ∧ a x ≠ a' x

/-- The match that an assignment stands for. -/
def tuple (names : List String) (a : Item → Value) : Value :=
  .list (names.map fun name => a (.named name)) (.made [])

/-- Matches represent the assignments that meet a condition. -/
structure Matches.Represent (m : Matches) (ts : List Token) (meets : (Item → Value) → Prop) :
    Prop where
  /-- No fault ends the matches. -/
  ended : m.all.fault? = none
  /-- There is one match for every choice that extends to an assignment. -/
  each : ∃ found, Enumerates ts meets found ∧
    m.all.results = found.map (tuple m.plan.resultNames)
  /-- Matches are made of names of the pattern. -/
  names : ∀ name ∈ m.plan.resultNames, ∃ t ∈ ts, t.name? = some name
  /-- Every name of the pattern that is not given as an argument is part of the matches. -/
  named : ∀ t ∈ ts, ∀ name, t.name? = some name → name ∉ m.plan.arguments →
    name ∈ m.plan.resultNames

namespace PatternGraph

variable {cx : Context} {g g₀ : PatternGraph} {ps : List (Token × Handle)} {w : World}
  {args : Bindings}

/-- An assignment to things is one to their nodes and edges. -/
def On (ps : List (Token × Handle)) (h : Handle → Value) (a : Item → Value) : Prop :=
  ∀ (i : Nat) t b, ps[i]? = some (t, b) → a (t.item i) = h b

/-- What holds of an edge, whichever way it is declared. -/
theorem edgeMatched_seen {h : Handle → Value} {k : EdgeId} {e : PatternEdge}
    (he : g.edge? k = some e) (d : Direction) : EdgeMatched w args h k e ↔
      if e.anonymous then
        w.along e.typeName? d (h (.node (e.seen k d).this)) (h (.node (e.seen k d).that))
      else EdgeSuits w args e (h (.edge k)) ∧
        w.ends (h (.edge k)) d.reverse = h (.node (e.seen k d).this) ∧
        w.ends (h (.edge k)) d = h (.node (e.seen k d).that) := by
  have hiff := edgeMatched_iff w args h (.seen he d) (by simpa using he)
  rwa [PatternEdge.seen_edge, PatternEdge.seen_direction] at hiff

namespace Tracks

variable (hps : g₀.Tracks ps)

include hps in
theorem exists_assignment (hg : g₀.Regular cx) (h : Handle → Value) : ∃ a, On ps h a := by
  have hvalue : ∀ x : Item, ∃ v : Value, ∀ (i : Nat) t b, ps[i]? = some (t, b) → x = t.item i →
      v = h b := by
    intro x
    by_cases hex : ∃ (i : Nat) (t : Token) (b : Handle), ps[i]? = some (t, b) ∧ x = t.item i
    · obtain ⟨i, t, b, hi, rfl⟩ := hex
      refine ⟨h b, fun j t' b' hj heq => ?_⟩
      rw [hps.eq_of_item_eq hg hi hj heq]
    · exact ⟨.null, fun i t b hi heq => absurd ⟨i, t, b, hi, heq⟩ hex⟩
  obtain ⟨a, ha⟩ := Classical.axiomOfChoice hvalue
  exact ⟨a, fun i t b hi => ha _ i t b hi rfl⟩

include hps in
theorem exists_solution (a : Item → Value) : ∃ h, On ps h a := by
  have hvalue : ∀ b : Handle, ∃ v : Value, ∀ (i : Nat) t, ps[i]? = some (t, b) →
      a (t.item i) = v := by
    intro b
    by_cases hex : ∃ (i : Nat) (t : Token), ps[i]? = some (t, b)
    · obtain ⟨i, t, hi⟩ := hex
      exact ⟨a (t.item i), fun j t' hj => congrArg a (hps.item_eq hj hi)⟩
    · exact ⟨.null, fun i t hi => absurd ⟨i, t, hi⟩ hex⟩
  obtain ⟨h, hh⟩ := Classical.axiomOfChoice hvalue
  exact ⟨h, fun i t b hi => hh b i t hi⟩

-- ---------------------------------------------------------------------------
-- Solutions and assignments
-- ---------------------------------------------------------------------------

include hps in
/-- Whether a node is an argument can be told from its name. -/
theorem kind_of_token (hr : Rooted cx g₀ g) {t : NodeToken} {n : NodeId}
    (ht : (.node t, .node n) ∈ ps) : ∃ nd, g.IsPlace n ∧ g.node? n = some nd ∧
      nd.name? = t.name? ∧ (t.typeName? = none ∨ t.typeName? = nd.typeName?) ∧
      (nd.kind = .argument ↔ namesArgument cx t.name? = true) := by
  obtain ⟨_, nd, ⟨⟩, hplace, hnd, hname, htype⟩ := hps.node t _ ht
  have hg : g.IsPlace n := hr.anchors.extended.isPlace hplace
  have hgnode : g.node? n = some nd := by rw [hr.anchors.extended.node? hplace.1, hnd]
  refine ⟨nd, hg, hgnode, hname, htype, ?_⟩
  -- in a regular graph a node fits its kind: an argument's place has that argument's name
  have hfits := hr.regular.node n nd hg.1 hgnode
  rw [NodeFits] at hfits
  rw [namesArgument_iff, ← hname]
  obtain ⟨-, nd', hnd', hkind⟩ := hplace
  rw [hnd] at hnd'
  cases hnd'
  rcases hkind with hk | hk <;> rw [hk] at hfits
  · constructor
    · intro h
      rw [hk] at h
      cases h
    · rintro ⟨name, hmem, hname⟩
      exact absurd hmem (hfits name hname)
  · exact ⟨fun _ => hfits.2, fun _ => hk⟩

/-- Whether an edge is an argument can be told from its name. -/
theorem kind_of_edge (hg : g.Regular cx) {k : EdgeId} {e : PatternEdge} (he : g.edge? k = some e)
    (hs : e.kind.structural = true) :
    e.kind = .argument ↔ namesArgument cx e.name? = true := by
  have hfits := hg.edgeFits_of_edge? he
  rw [EdgeFits] at hfits
  rw [namesArgument_iff]
  cases hk : e.kind <;> rw [hk] at hs <;> simp only [hk] at hfits
  case precedes => cases hs
  case start => cases hs
  case argument => exact ⟨fun _ => hfits.2.2, fun _ => rfl⟩
  case pattern =>
    refine ⟨fun h => (EdgeKind.noConfusion h), ?_⟩
    rintro ⟨name, hmem, hname⟩
    exact absurd hmem (hfits.2.2 name hname)

include hps in
/-- What a token that is named like an argument stands for is an argument. -/
theorem isArgument_of_token (hr : Rooted cx g₀ g) {i : Nat} {t : Token} {b : Handle}
    (hi : ps[i]? = some (t, b)) {name : String} (hname : t.name? = some name)
    (hmem : name ∈ cx.arguments) : g.IsArgument b := by
  have hp : (t, b) ∈ ps := List.mem_of_getElem? hi
  cases t with
  | constraint t => cases hname
  | node t =>
    obtain ⟨n, _, rfl, -⟩ := hps.node t b hp
    obtain ⟨nd, hplace, hnd, -, -, hkind⟩ := hps.kind_of_token hr hp
    exact ⟨hplace.1, nd, hnd, hkind.2 (namesArgument_iff.2 ⟨name, hmem, hname⟩)⟩
  | edge t =>
    obtain ⟨k, e, _, _, _, rfl, he, hs, hen, -⟩ := hps.edge i t b hi
    have he' : g.edge? k = some e := hr.anchors.extended.edge? he
    refine ⟨e, he', (kind_of_edge hr.regular he' hs).2 ?_⟩
    exact namesArgument_iff.2 ⟨name, hmem, hen.trans hname⟩

include hps in
/-- A solution of the graph is an assignment that meets the tokens. -/
theorem meets_of_solves (hr : Rooted cx g₀ g) (hvoid : ∀ v, w.typed v none)
    (huntyped : Token.Untyped cx (ps.map (·.1))) {h : Handle → Value} {a : Item → Value}
    (hsol : Solves w args g [] h) (hon : On ps h a) : w.Meets cx args (ps.map (·.1)) a where
  node := by
    intro i t hi
    obtain ⟨b, hb⟩ := getElem?_map_fst.1 hi
    obtain ⟨n, _, rfl, -⟩ := hps.node t b (List.mem_of_getElem? hb)
    obtain ⟨nd, hplace, hnd, -, htype, hkind⟩ := hps.kind_of_token hr (List.mem_of_getElem? hb)
    obtain ⟨nd', hnd', hsuits⟩ := hsol.node n hplace (by simp)
    rw [hnd] at hnd'
    cases hnd'
    rw [hon i _ _ hb]
    rw [NodeSuits] at hsuits
    split at hsuits
    · -- a place of an argument: its token carries no type, since the graph's node has none
      rename_i hk
      have hnone : t.typeName? = none := by
        have hfits := hr.regular.node n nd hplace.1 hnd
        rw [NodeFits, hk] at hfits
        rw [hfits.1] at htype
        exact htype.elim id id
      rw [if_pos (hkind.1 hk), hnone]
      exact ⟨hsuits.1, hvoid _⟩
    · rename_i hk
      rw [if_neg fun hn => hk (hkind.2 hn)]
      refine ⟨hsuits.1, ?_⟩
      -- a token without a type asks nothing; one with a type asks what the node asks
      rcases htype with htype | htype
      · rw [htype]
        exact hvoid _
      · rw [htype]
        exact hsuits.2
  linked := by
    intro i s t d hb hnone
    obtain ⟨k, e, -, he, hname, htype, hs, hthis, hthat⟩ := hps.edge_of_between hb
    have he' : g.edge? k = some e := hr.anchors.extended.edge? he
    have hm := hsol.edge k e he' hs (by simp)
    have hanon : e.anonymous = true := by rw [PatternEdge.anonymous, hname, hnone]; rfl
    -- a link without a name binds nothing, so being linked is all it asks
    rw [edgeMatched_seen he' t.direction, if_pos hanon] at hm
    rw [hon i _ _ hthis, hon (i + 2) _ _ hthat, ← htype]
    exact hm
  edge := by
    intro i s t d name hb hsome
    obtain ⟨k, e, hk, he, hname, htype, hs, hthis, hthat⟩ := hps.edge_of_between hb
    have he' : g.edge? k = some e := hr.anchors.extended.edge? he
    have hm := hsol.edge k e he' hs (by simp)
    have hanon : ¬ e.anonymous = true := by
      rw [PatternEdge.anonymous, hname, hsome]
      exact Bool.false_ne_true
    rw [edgeMatched_seen he' t.direction, if_neg hanon] at hm
    obtain ⟨hsuits, hsource, htarget⟩ := hm
    have hitem : (Token.edge t).item (i + 1) = .named name :=
      Token.item_named (t := .edge t) hsome _
    have hval : a (.named name) = h (.edge k) := by
      rw [← hitem]
      exact hon (i + 1) _ _ hk
    rw [hon i _ _ hthis, hon (i + 2) _ _ hthat, hval]
    refine ⟨?_, hsource, htarget⟩
    rw [EdgeSuits] at hsuits
    split at hsuits
    · -- an argument's edge carries no type, so its token was written without one
      rename_i hkind
      have hargument := (kind_of_edge hr.regular he' hs).1 hkind
      rw [hname] at hargument
      rw [huntyped t (List.mem_of_getElem? hb.edge) hargument]
      exact hsuits.1
    · rw [← htype]
      exact hsuits
  argument := by
    intro t ht name hmem hname
    obtain ⟨⟨t, b⟩, hp, rfl⟩ := List.mem_map.1 ht
    obtain ⟨i, hi⟩ := List.getElem?_of_mem hp
    have hhas : g₀.HasName b name := (hps.hasName_iff hi).2 hname
    rw [← Token.item_named hname i, hon i t b hi]
    have harg : g.IsArgument b := hps.isArgument_of_token hr hi hname hmem
    -- the value given for an argument is the one its handle has in every solution
    rw [← variable_named (hr.anchors.hasName_iff.2 hhas)]
    exact Plan.agrees_argument hr hsol harg

include hps in
/-- An assignment that meets the tokens is a solution of the graph. -/
theorem solves_of_meets (hr : Rooted cx g₀ g) (hnone : ∀ v t, w.edge v t → w.edge v none)
    {h : Handle → Value} {a : Item → Value} (hmeets : w.Meets cx args (ps.map (·.1)) a)
    (hon : On ps h a) : Solves w args g [] h where
  node := by
    intro n hplace _
    have hplace₀ : g₀.IsPlace n :=
      -- a place of the finished graph was a place before the anchors were added
      hr.anchors.extended.isPlace_before (hr.anchors.isNode_iff.1 hplace.1) hplace
    obtain ⟨-, nd, hnd, -⟩ := id hplace₀
    obtain ⟨t, ht, htype⟩ := hps.nodes n nd hplace₀ hnd
    obtain ⟨i, hi⟩ := List.getElem?_of_mem ht
    obtain ⟨nd', -, hnd', hname, -, hkind⟩ := hps.kind_of_token hr ht
    rw [hr.anchors.extended.node? hplace₀.1, hnd] at hnd'
    cases hnd'
    obtain ⟨hsuits, htyped⟩ := hmeets.node i t (getElem?_map_fst.2 ⟨_, hi⟩)
    rw [hon i _ _ hi] at hsuits htyped
    refine ⟨nd, by rw [hr.anchors.extended.node? hplace₀.1]; exact hnd, ?_⟩
    rw [NodeSuits]
    split
    · -- of an argument the solution also fixes the value: the assignment already meets it
      rename_i hk
      have hargument := hkind.1 hk
      rw [if_pos hargument] at hsuits
      obtain ⟨name, hmem, hown⟩ := namesArgument_iff.1 hargument
      refine ⟨hsuits, name, hname.trans hown, ?_⟩
      rw [hmeets.argument _ (List.mem_map_of_mem ht) name hmem hown, ← hon i _ _ hi,
        Token.item_named (t := .node t) hown]
    · rename_i hk
      rw [if_neg fun hn => hk (hkind.2 hn)] at hsuits
      rw [htype] at htyped
      exact ⟨hsuits, htyped⟩
  edge := by
    intro k e he' hs _
    have he : g₀.edge? k = some e := by
      rcases hr.anchors.edge?_cases he' with he | ⟨n, -, rfl⟩
      · -- only the links to start nodes are new, and they are not structural
        exact he
      · cases hs
    obtain ⟨i, s, t, d, hb, hk, hname, htype, -, hthis, hthat⟩ := hps.exists_between he
    rw [edgeMatched_seen he' t.direction, ← hon i _ _ hthis, ← hon (i + 2) _ _ hthat]
    cases hown : t.name? with
    | none =>
      rw [if_pos (by rw [PatternEdge.anonymous, hname, hown]; rfl), htype]
      exact hmeets.linked i s t d hb hown
    | some name =>
      have hval : a (.named name) = h (.edge k) := by
        rw [← hon (i + 1) _ _ hk, Token.item_named (t := .edge t) hown]
      obtain ⟨hedge, hsource, htarget⟩ := hmeets.edge i s t d name hb hown
      rw [hval] at hedge hsource htarget
      rw [if_neg (by rw [PatternEdge.anonymous, hname, hown]; exact Bool.false_ne_true)]
      refine ⟨?_, hsource, htarget⟩
      rw [EdgeSuits]
      split
      · -- an argument's edge is bound untyped, whatever the type its token asked for
        rename_i hkind
        have hargument := (kind_of_edge hr.regular he' hs).1 hkind
        rw [hname] at hargument
        obtain ⟨own, hmem, hown'⟩ := namesArgument_iff.1 hargument
        rw [hown] at hown'
        cases hown'
        refine ⟨hnone _ _ hedge, name, hname.trans hown, ?_⟩
        rw [← hval]
        exact hmeets.argument _ (List.mem_of_getElem? hb.edge) name hmem hown
      · rw [htype]
        exact hedge

-- ---------------------------------------------------------------------------
-- Arguments and choices
-- ---------------------------------------------------------------------------

include hps in
/-- A name of the graph is the name of a token. -/
theorem exists_token (hr : Rooted cx g₀ g) {b : Handle} {name : String} (hname : g.HasName b name) :
    ∃ (i : Nat) (t : Token), ps[i]? = some (t, b) ∧ t.name? = some name := by
  have hname := hr.anchors.hasName_iff.1 hname
  obtain ⟨i, t, hi⟩ := hps.exists_of_hasName hr.before hname
  exact ⟨i, t, hi, (hps.hasName_iff hi).1 hname⟩

include hps in
/-- What is supplied fits the arguments of the graph. -/
theorem fits_of_supplies (hr : Rooted cx g₀ g) (hsupply : w.Supplies cx args (ps.map (·.1)))
    {b : Handle} (hb : g.IsArgument b) :
    ∃ v, args.get? (b.variable g) = some v ∧ Fits w args g b v := by
  obtain ⟨name, hargument, hname⟩ := hr.regular.name_of_isArgument hb
  obtain ⟨i, t, hi, hown⟩ := hps.exists_token hr hname
  have hmem : t ∈ ps.map (·.1) := List.mem_map_of_mem (List.mem_of_getElem? hi)
  obtain ⟨v, hv⟩ := hsupply.given name hargument
  refine ⟨v, by rw [variable_named hname, hv], ?_⟩
  cases b with
  | node n =>
    obtain ⟨-, nd, hnd, hk⟩ := hb
    have hnd' : nd.name? = some name := by
      have hbind := hname.2
      rwa [hnd, Option.bind_some] at hbind
    refine ⟨nd, hnd, ?_⟩
    rw [NodeSuits, hk]
    refine ⟨?_, name, hnd', hv⟩
    cases t with
    | constraint t => cases hown
    -- an edge's handle never stands for a node token's place
    | edge t =>
      obtain ⟨_, _, _, _, _, hb, -⟩ := hps.edge i t _ hi
      cases hb
    | node t => exact hsupply.node t hmem name hargument hown v hv
  | edge k =>
    obtain ⟨e, he, hk⟩ := hb
    rw [hasName_edge_iff he] at hname
    refine ⟨e, he, ?_⟩
    rw [EdgeSuits, hk]
    refine ⟨?_, name, hname, hv⟩
    cases t with
    | constraint t => cases hown
    | node t =>
      obtain ⟨_, _, hb, -⟩ := hps.node t _ (List.mem_of_getElem? hi)
      cases hb
    | edge t => exact hsupply.edge t hmem name hargument hown v hv

include hps in
/-- What tells solutions apart tells assignments apart. -/
theorem agree_iff (hr : Rooted cx g₀ g) {h h' : Handle → Value} {a a' : Item → Value}
    (hon : On ps h a) (hon' : On ps h' a') :
    (∀ x, Token.Chosen (ps.map (·.1)) x → a x = a' x) ↔ ∀ b, Key g₀ g b → h b = h' b := by
  have hkey : ∀ b, Key g₀ g b ↔ ¬ g₀.Unnamed b ∨ ∃ n, b = .node n ∧ g₀.IsStart n := by
    intro b
    rw [Key, Unnamed, Unnamed]
    simp only [hr.anchors.hasName_iff]
  constructor
  · intro hall b hb
    obtain ⟨i, t, hi, hx⟩ := hps.chosen_of_key hr.before ((hkey b).1 hb)
    rw [← hon i t b hi, ← hon' i t b hi, hall _ hx]
  · intro hall x hx
    obtain ⟨i, t, b, hi, rfl, hb⟩ := hps.key_of_chosen hr.before hx
    rw [hon i t b hi, hon' i t b hi, hall b ((hkey b).2 hb)]

include hps in
/-- Bindings that agree with a solution hold what is assigned to a name. -/
theorem get?_of_agrees (hr : Rooted cx g₀ g) {h : Handle → Value} {a : Item → Value} {c : Bindings}
    (hag : Agrees g (Key g₀ g) h c) (hon : On ps h a) {b : Handle} {name : String}
    (hb : g.HasName b name) : c.get? name = some (a (.named name)) := by
  obtain ⟨i, t, hi, ht⟩ := hps.exists_token hr hb
  have hvar : b.variable g = name := variable_named hb
  rw [← hvar, hag b (.inl fun hu => hu name hb), hvar, ← Token.item_named ht i, hon i t b hi]

include hps in
/-- Bindings that agree with solutions are read as assignments. -/
theorem exists_assigned (hr : Rooted cx g₀ g) {finals : List Bindings}
    (hsound : ∀ c ∈ finals, ∃ h, Solves w args g [] h ∧ Agrees g (Key g₀ g) h c) :
    ∃ assigned : Bindings → Item → Value, ∀ c ∈ finals,
      ∃ h, Solves w args g [] h ∧ Agrees g (Key g₀ g) h c ∧ On ps h (assigned c) := by
  have hread : ∀ c, ∃ a, c ∈ finals → ∃ h, Solves w args g [] h ∧ Agrees g (Key g₀ g) h c ∧
      On ps h a := by
    intro c
    by_cases hc : c ∈ finals
    · obtain ⟨h, hsol, hag⟩ := hsound c hc
      obtain ⟨a, ha⟩ := hps.exists_assignment hr.before h
      exact ⟨a, fun _ => ⟨h, hsol, hag, ha⟩⟩
    · exact ⟨fun _ => .null, fun hc' => absurd hc' hc⟩
  exact Classical.axiomOfChoice hread

include hps in
/-- Where bindings agree with the solutions, one for each, the assignments they are read as are
those that meet the tokens. -/
theorem enumerates (hr : Rooted cx g₀ g) (hvoid : ∀ v, w.typed v none)
    (hnone : ∀ v t, w.edge v t → w.edge v none) (huntyped : Token.Untyped cx (ps.map (·.1)))
    {finals : List Bindings} {assigned : Bindings → Item → Value}
    (hassigned : ∀ c ∈ finals,
      ∃ h, Solves w args g [] h ∧ Agrees g (Key g₀ g) h c ∧ On ps h (assigned c))
    (hcomplete : ∀ h, Solves w args g [] h → ∃ c ∈ finals, Agrees g (Key g₀ g) h c)
    (hdistinct : finals.Pairwise fun c c' =>
      ∃ b, Key g₀ g b ∧ c.get? (b.variable g) ≠ c'.get? (b.variable g)) :
    Enumerates (ps.map (·.1)) (w.Meets cx args (ps.map (·.1))) (finals.map assigned) where
  sound := by
    intro a ha
    obtain ⟨c, hc, rfl⟩ := List.mem_map.1 ha
    obtain ⟨h, hsol, -, hon⟩ := hassigned c hc
    exact hps.meets_of_solves hr hvoid huntyped hsol hon
  complete := by
    intro a ha
    obtain ⟨h, hon⟩ := hps.exists_solution a
    obtain ⟨c, hc, hag⟩ := hcomplete h (hps.solves_of_meets hr hnone ha hon)
    -- what the solution found agrees with is what the given assignment agrees with
    obtain ⟨h', -, hag', hon'⟩ := hassigned c hc
    refine ⟨_, List.mem_map_of_mem hc, (hps.agree_iff hr hon' hon).2 fun b hb => ?_⟩
    have := hag' b hb
    rw [hag b hb] at this
    exact (Option.some.inj this).symm
  distinct := by
    rw [List.pairwise_map]
    refine hdistinct.imp_of_mem ?_
    rintro c c' hc hc' ⟨b, hb, hne⟩
    obtain ⟨h, -, hag, hon⟩ := hassigned c hc
    obtain ⟨h', -, hag', hon'⟩ := hassigned c' hc'
    -- two results that agree on every chosen item would agree on the key that tells them apart
    refine Classical.byContradiction fun hsame => hne ?_
    have hagree : ∀ x, Token.Chosen (ps.map (·.1)) x → assigned c x = assigned c' x :=
      fun x hx => Classical.byContradiction fun hx' => hsame ⟨x, hx, hx'⟩
    rw [hag b hb, hag' b hb, (hps.agree_iff hr hon hon').1 hagree b hb]

include hps in
theorem not_precedes (hr : Rooted cx g₀ g) : ∀ e ∈ g.edges, e.kind ≠ .precedes := by
  intro e he
  obtain ⟨k, hk⟩ := List.getElem?_of_mem he
  rcases hr.anchors.edge?_cases (show g.edge? ⟨k⟩ = some e from hk) with he' | ⟨n, -, rfl⟩
  · have hs := (hps.edges _ e he').1
    intro hkind
    rw [hkind] at hs
    cases hs
  · exact EdgeKind.noConfusion

end Tracks

end PatternGraph

-- ---------------------------------------------------------------------------
-- Matches
-- ---------------------------------------------------------------------------

/-- A pattern of nodes and edges is compiled for the engine of a setting. -/
structure Compiles (cx : Context) (s : Setting) (ts : List Token) (plan : Plan) : Prop where
  tokens : Token.classify cx.elements = .ok ts
  plain : ∀ t, .constraint t ∉ ts
  compiled : cx.compile = .ok plan
  engine : s.engine = cx.engine

section

variable {cx : Context} {s : Setting} {w : World} {ts : List Token} {plan : Plan} {args : Bindings}

/-- Where edges have no identity, they have no names. -/
theorem Compiles.name?_of_edge (h : Compiles cx s ts plan)
    (hid : cx.engine.edgesHaveIdentity = false) {t : EdgeToken} (ht : .edge t ∈ ts) :
    t.name? = none := by
  obtain ⟨g, p, hg, hp, -, -⟩ := Context.compile_ok h.compiled
  obtain ⟨ts', g₀, hts', hread, hr⟩ := Context.rooted_of_anchoredGraph hg
  rw [h.tokens] at hts'
  cases hts'
  obtain ⟨ps, rfl, hps⟩ := tracks_of_run hread (Token.visible_of_classify h.tokens) h.plain
  obtain ⟨-, -, hcheck, -⟩ := Plan.explores_of_ofGraph hr hp
  obtain ⟨⟨t', b⟩, hmem, rfl⟩ := List.mem_map.1 ht
  obtain ⟨i, hi⟩ := List.getElem?_of_mem hmem
  obtain ⟨k, e, _, _, _, -, he, hs, hname, -⟩ := hps.edge i t b hi
  have hmem : e ∈ g.edges := List.mem_of_getElem? (hr.anchors.extended.edge? he)
  -- a name on the edge would have made the plan ask for identity of edges
  cases hown : t.name? with
  | none => rfl
  | some name =>
    have hanon : e.anonymous = false := by
      rw [PatternEdge.anonymous, hname, hown]
      rfl
    have := Plan.identified_of_checkEdges hcheck e hmem hs hanon
    rw [hid] at this
    cases this

/-- The matches of a plan in a world are the assignments that meet the pattern. -/
theorem World.exists_matches (hw : Serves s w) (h : Compiles cx s ts plan)
    (huntyped : Token.Untyped cx ts) (hsupply : w.Supplies cx args ts) :
    ∃ m, Matches.of? s plan args none = .ok m ∧ m.plan = plan ∧
      m.Represent ts (w.Meets cx args ts) := by
  obtain ⟨g, p, hg, hp, -, rfl⟩ := Context.compile_ok h.compiled
  obtain ⟨ts', g₀, hts', hread, hr⟩ := Context.rooted_of_anchoredGraph hg
  rw [h.tokens] at hts'
  cases hts'
  -- each token is paired with the handle it was drawn as
  obtain ⟨ps, rfl, hps⟩ := tracks_of_run hread (Token.visible_of_classify h.tokens) h.plain
  have hedges := hps.not_precedes hr
  obtain ⟨finals, hends, hsound, hcomplete, hdistinct⟩ :=
    Plan.ends_of_ofGraph hw h.engine hr hedges (fun b hb => hps.fits_of_supplies hr hsupply hb) hp
  -- the assignments are read off the bindings that the run ends in
  obtain ⟨assigned, hassigned⟩ := hps.exists_assigned hr hsound
  have hnames : ∀ name ∈ p.expanded.resultNames, ∃ b, g.HasName b name :=
    fun name hname => Plan.hasName_of_mem_resultNames hr hedges hp hname
  have hvalue : ∀ c ∈ finals, ∀ name ∈ p.expanded.resultNames,
      c.get? name = some (assigned c (.named name)) := by
    intro c hc name hname
    obtain ⟨h, -, hag, hon⟩ := hassigned c hc
    obtain ⟨b, hb⟩ := hnames name hname
    exact hps.get?_of_agrees hr hag hon hb
  refine ⟨_, Matches.of?_ok h.compiled h.engine hsupply.given none, rfl, ?_⟩
  have hall := Matches.all_of_ends (m := { plan := p.expanded, setting := s, arguments := args })
    hends fun c hc => Matches.gives_emit rfl (hvalue c hc)
  have hfound := hps.enumerates hr (fun v => (hw.typed_void v).1) hw.edge_none huntyped hassigned
    hcomplete hdistinct
  refine { ended := hall.2, each := ⟨finals.map assigned, hfound, ?_⟩, names := ?_, named := ?_ }
  · -- the results are the assignments, name by name
    rw [hall.1, List.map_map]
    rfl
  · -- every result's name is the name of some token
    intro name hname
    obtain ⟨b, hb⟩ := hnames name hname
    obtain ⟨i, t, hi, ht⟩ := hps.exists_token hr hb
    exact ⟨t, List.mem_map_of_mem (List.mem_of_getElem? hi), ht⟩
  · -- and every name that is no argument is given out
    intro t ht name hname hargument
    obtain ⟨⟨t, b⟩, hmem, rfl⟩ := List.mem_map.1 ht
    obtain ⟨i, hi⟩ := List.getElem?_of_mem hmem
    have hb : g.HasName b name := hr.anchors.hasName_iff.2 ((hps.hasName_iff hi).2 hname)
    refine Plan.mem_resultNames_of_hasName hr hp hb fun harg => hargument ?_
    obtain ⟨own, hown, hown'⟩ := hr.regular.name_of_isArgument harg
    obtain ⟨hargs, -⟩ := Plan.explores_of_ofGraph hr hp
    have hsame : name = own := by rw [← variable_named hb, variable_named hown']
    show name ∈ p.arguments
    rwa [hargs, hsame]

namespace Matches.Represent

variable {m : Matches} {meets holds : (Item → Value) → Prop}

theorem tuple_congr {names : List String} {a a' : Item → Value}
    (hnames : ∀ name ∈ names, ∃ t ∈ ts, t.name? = some name)
    (h : ∀ x, Token.Chosen ts x → a x = a' x) : tuple names a = tuple names a' := by
  have hmap : (names.map fun name => a (.named name)) = names.map fun name => a' (.named name) := by
    refine List.map_congr_left fun name hname => ?_
    obtain ⟨t, ht, hown⟩ := hnames name hname
    exact h _ (.inl ⟨t, ht, name, hown, rfl⟩)
  rw [tuple, tuple, hmap]

/-- The same matches represent assignments that meet another condition, if those that meet one
condition are the choices that those that meet the other one make. -/
theorem transfer (h : m.Represent ts meets)
    (hforth : ∀ a, meets a → ∃ a', holds a' ∧ ∀ x, Token.Chosen ts x → a' x = a x)
    (hback : ∀ a, holds a → meets a) : m.Represent ts holds where
  ended := h.ended
  names := h.names
  named := h.named
  each := by
    obtain ⟨found, hfound, hresults⟩ := h.each
    have hmore : ∀ a, ∃ a', meets a → holds a' ∧ ∀ x, Token.Chosen ts x → a' x = a x := by
      intro a
      by_cases ha : meets a
      · obtain ⟨a', ha'⟩ := hforth a ha
        exact ⟨a', fun _ => ha'⟩
      · exact ⟨a, fun hm => absurd hm ha⟩
    -- one choice of the wider assignment for each that the plan found
    obtain ⟨more, hmore⟩ := Classical.axiomOfChoice hmore
    refine ⟨found.map more, { sound := ?_, complete := ?_, distinct := ?_ }, ?_⟩
    · intro a ha
      obtain ⟨a₀, ha₀, rfl⟩ := List.mem_map.1 ha
      exact (hmore a₀ (hfound.sound a₀ ha₀)).1
    · intro a ha
      obtain ⟨a', ha', heq⟩ := hfound.complete a (hback a ha)
      refine ⟨more a', List.mem_map_of_mem ha', fun x hx => ?_⟩
      rw [(hmore a' (hfound.sound a' ha')).2 x hx, heq x hx]
    · -- the wider assignments still differ where the found ones did
      rw [List.pairwise_map]
      refine hfound.distinct.imp_of_mem ?_
      rintro a a' ha ha' ⟨x, hx, hne⟩
      refine ⟨x, hx, ?_⟩
      rwa [(hmore a (hfound.sound a ha)).2 x hx, (hmore a' (hfound.sound a' ha')).2 x hx]
    · rw [hresults, List.map_map]
      refine List.map_congr_left fun a ha => tuple_congr h.names fun x hx => ?_
      exact ((hmore a (hfound.sound a ha)).2 x hx).symm

/-- The set of matches is the set of assignments, seen through the names. -/
theorem mem_iff (h : m.Represent ts meets) {r : Value} :
    r ∈ m.all.results ↔ ∃ a, meets a ∧ r = tuple m.plan.resultNames a := by
  obtain ⟨found, hfound, hresults⟩ := h.each
  rw [hresults, List.mem_map]
  constructor
  · rintro ⟨a, ha, rfl⟩
    exact ⟨a, hfound.sound a ha, rfl⟩
  · rintro ⟨a, ha, rfl⟩
    obtain ⟨a', ha', heq⟩ := hfound.complete a ha
    exact ⟨a', ha', tuple_congr h.names heq⟩

/-- No match is repeated if every component starts with a name. -/
theorem nodup (h : m.Represent ts meets)
    (hargs : ∀ a, meets a → ∀ t ∈ ts, ∀ name ∈ m.plan.arguments, t.name? = some name →
      args.get? name = some (a (.named name)))
    (hopens : ∀ (i : Nat) t, Token.Opens ts i → ts[i]? = some t → t.name?.isSome) :
    m.all.results.Nodup := by
  obtain ⟨found, hfound, hresults⟩ := h.each
  rw [hresults, List.Nodup, List.pairwise_map]
  refine hfound.distinct.imp_of_mem ?_
  rintro a a' ha ha' ⟨x, hx, hne⟩ heq
  -- what tells the assignments apart has a name
  obtain ⟨t, ht, name, hname, rfl⟩ : ∃ t ∈ ts, ∃ name, t.name? = some name ∧ x = .named name := by
    rcases hx with hx | ⟨i, t, hi, ht, rfl⟩
    · exact hx
    · obtain ⟨name, hname⟩ := Option.isSome_iff_exists.1 (hopens i t hi ht)
      exact ⟨t, List.mem_of_getElem? ht, name, hname, Token.item_named hname i⟩
  by_cases hargument : name ∈ m.plan.arguments
  · have h₁ := hargs a (hfound.sound a ha) t ht name hargument hname
    rw [hargs a' (hfound.sound a' ha') t ht name hargument hname] at h₁
    exact hne (Option.some.inj h₁).symm
  · have hmap := (Value.list.inj heq).1
    exact hne (List.map_inj_left.1 hmap name (h.named t ht name hname hargument))

end Matches.Represent

end

-- ---------------------------------------------------------------------------
-- A pattern
-- ---------------------------------------------------------------------------

/-- A pattern that asks for what a given node is linked to. -/
def successors (engine : Engine) : Context :=
  { arguments := ["x"], elements := [.text "x", .text "-->", .text "y"], engine }

def successorTokens : List Token :=
  [.node { name? := some "x", typeName? := none, index := 0 },
    .edge { name? := none, typeName? := none, direction := .out, index := 1 },
    .node { name? := some "y", typeName? := none, index := 2 }]

def successorPlan (engine : Engine) : Plan :=
  { steps := [.assign "x" (.argument "x"),
      .generate "y" (.reachable (.var "x") [.step .out .any])]
    arguments := ["x"], engine }

theorem compiles_successors (s : Setting) :
    Compiles (successors s.engine) s successorTokens (successorPlan s.engine) where
  tokens := rfl
  plain := by simp [successorTokens]
  compiled := by
    cases s.engine with
    | graph => cbv
    | containment => cbv
  engine := rfl

theorem eq_of_edge_mem_successorTokens {t : EdgeToken} (ht : .edge t ∈ successorTokens) :
    t = { name? := none, typeName? := none, direction := .out, index := 1 } := by
  simpa [successorTokens] using ht

theorem name?_of_opens_successorTokens {i : Nat} {t : Token} (h : Token.Opens successorTokens i)
    (ht : successorTokens[i]? = some t) : t.name?.isSome := by
  obtain ⟨n, hn, -⟩ := h
  rw [ht] at hn
  cases hn
  have hmem := List.mem_of_getElem? ht
  simp only [successorTokens, List.mem_cons, Token.node.injEq, reduceCtorEq, List.not_mem_nil,
    or_false, false_or] at hmem
  rcases hmem with rfl | rfl <;> rfl

end GraphPattern
