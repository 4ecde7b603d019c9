import Mathlib.Data.Nat.Find
import GraphPattern.Proofs.Answers
import GraphPattern.Proofs.Tracking

/-!
# GraphPattern — patterns by their tokens

What a pattern asks for can be said without its graph. Tokens of one name are about the same thing,
every other token is about a thing of its own, and edge tokens connect the nodes before and after
them. A match assigns values to these things.

## Results

* `PatternGraph.Tracks.connected_of_joined`, `PatternGraph.Tracks.joined_of_connected` — nodes are
  joined in the graph if their tokens are connected.
* `PatternGraph.Tracks.isStart_iff` — components start at the nodes that are declared first.
* `PatternGraph.Tracks.chosen_of_key`, `PatternGraph.Tracks.key_of_chosen` — what tells matches
  apart.
-/

namespace GraphPattern

open PatternGraph

/-- What a token is about. -/
inductive Item where
  | named (name : String)
  | unnamed (place : Nat)
deriving DecidableEq, Repr

/-- What the token at a place is about. -/
def Token.item (t : Token) (i : Nat) : Item :=
  match t.name? with
  | some name => .named name
  | none => .unnamed i

theorem Token.item_named {t : Token} {name : String} (h : t.name? = some name) (i : Nat) :
    t.item i = .named name := by
  rw [Token.item, h]

theorem Token.item_unnamed {t : Token} (h : t.name? = none) (i : Nat) : t.item i = .unnamed i := by
  rw [Token.item, h]

namespace Token

variable (ts : List Token)

/-- An edge token between two node tokens. -/
structure Between (i : Nat) (s : NodeToken) (t : EdgeToken) (d : NodeToken) : Prop where
  before : ts[i]? = some (.node s)
  edge : ts[i + 1]? = some (.edge t)
  after : ts[i + 2]? = some (.node d)

variable {ts} in
/-- The tokens around an edge token are determined by its place. -/
theorem Between.unique {i : Nat} {s s' : NodeToken} {t t' : EdgeToken} {d d' : NodeToken}
    (h : Between ts i s t d) (h' : Between ts i s' t' d') : s = s' ∧ t = t' ∧ d = d' := by
  obtain ⟨hs, ht, hd⟩ := h
  obtain ⟨hs', ht', hd'⟩ := h'
  rw [hs] at hs'
  rw [ht] at ht'
  rw [hd] at hd'
  cases hs'
  cases ht'
  cases hd'
  exact ⟨rfl, rfl, rfl⟩

/-- What an edge token leads from, where it comes after the token at a place. -/
def alpha (i : Nat) (s : NodeToken) (t : EdgeToken) (d : NodeToken) : Item :=
  match t.direction with
  | .out => (Token.node s).item i
  | .into => (Token.node d).item (i + 2)

/-- What it leads to. -/
def omega (i : Nat) (s : NodeToken) (t : EdgeToken) (d : NodeToken) : Item :=
  match t.direction with
  | .out => (Token.node d).item (i + 2)
  | .into => (Token.node s).item i

/-- An edge connects two things, whatever its direction. -/
def Adjoining (x y : Item) : Prop :=
  ∃ i s t d, Between ts i s t d ∧
    ((x = (Token.node s).item i ∧ y = (Token.node d).item (i + 2)) ∨
      (y = (Token.node s).item i ∧ x = (Token.node d).item (i + 2)))

/-- Edges connect two things, directly or not. -/
def Connected : Item → Item → Prop :=
  Relation.ReflTransGen (Adjoining ts)

/-- The node token at a place is the first one of its component. -/
def Opens (i : Nat) : Prop :=
  ∃ t, ts[i]? = some (.node t) ∧ ∀ j < i, ∀ t', ts[j]? = some (.node t') →
    ¬ Connected ts ((Token.node t').item j) ((Token.node t).item i)

/-- What tells matches apart: what has a name, and the first nodes of components. -/
def Chosen (x : Item) : Prop :=
  (∃ t ∈ ts, ∃ name, t.name? = some name ∧ x = .named name) ∨
    ∃ i t, Opens ts i ∧ ts[i]? = some t ∧ x = t.item i

end Token

namespace PatternGraph

variable {cx : Context} {g : PatternGraph} {ps : List (Token × Handle)}

-- ---------------------------------------------------------------------------
-- Things and their handles
-- ---------------------------------------------------------------------------

theorem getElem?_map_fst {i : Nat} {t : Token} :
    (ps.map (·.1))[i]? = some t ↔ ∃ b, ps[i]? = some (t, b) := by
  rw [List.getElem?_map]
  constructor
  · intro h
    obtain ⟨⟨t', b⟩, hp, rfl⟩ := Option.map_eq_some_iff.1 h
    exact ⟨b, hp⟩
  · rintro ⟨b, hb⟩
    rw [hb]
    rfl

namespace Tracks

variable (h : g.Tracks ps)

include h in
/-- What a token has as its name, its node or edge has as well. -/
theorem hasName_iff {i : Nat} {t : Token} {b : Handle} (hi : ps[i]? = some (t, b))
    {name : String} : g.HasName b name ↔ t.name? = some name := by
  cases t with
  | constraint t => exact absurd (List.mem_of_getElem? hi) (h.plain t b)
  | node t =>
    obtain ⟨n, nd, rfl, hn, hnd, hname, -⟩ := h.node t b (List.mem_of_getElem? hi)
    rw [HasName, hnd, Option.bind_some, hname]
    exact and_iff_right hn.1
  | edge t =>
    obtain ⟨k, e, _, _, _, rfl, he, -, hname, -⟩ := h.edge i t b hi
    rw [HasName, he, Option.bind_some, hname]
    exact Iff.rfl

include h in
/-- Tokens with the same node or edge are about the same thing. -/
theorem item_eq {i j : Nat} {t t' : Token} {b : Handle} (hi : ps[i]? = some (t, b))
    (hj : ps[j]? = some (t', b)) : t.item i = t'.item j := by
  by_cases hu : g.Unnamed b
  · obtain rfl := h.single i j t t' b hi hj hu
    rw [hi] at hj
    cases hj
    rfl
  · obtain ⟨name, hname⟩ := exists_name hu
    rw [Token.item_named ((h.hasName_iff hi).1 hname), Token.item_named ((h.hasName_iff hj).1 hname)]

include h in
/-- Tokens that are about the same thing have the same node or edge. -/
theorem eq_of_item_eq (hg : g.Regular cx) {i j : Nat} {t t' : Token} {b b' : Handle}
    (hi : ps[i]? = some (t, b)) (hj : ps[j]? = some (t', b')) (heq : t.item i = t'.item j) :
    b = b' := by
  unfold Token.item at heq
  cases hn : t.name? with
  | some name =>
    cases hn' : t'.name? with
    | some name' =>
      rw [hn, hn'] at heq
      cases heq
      exact hg.eq_of_hasName ((h.hasName_iff hi).2 hn) ((h.hasName_iff hj).2 hn')
    | none => rw [hn, hn'] at heq; cases heq
  | none =>
    cases hn' : t'.name? with
    | some name' => rw [hn, hn'] at heq; cases heq
    | none =>
      rw [hn, hn'] at heq
      cases heq
      rw [hi] at hj
      cases hj
      rfl

include h in
/-- The edge token between two node tokens has its edge between their nodes. -/
theorem edge_of_between {i : Nat} {s d : NodeToken} {t : EdgeToken}
    (hb : Token.Between (ps.map (·.1)) i s t d) :
    ∃ k e, ps[i + 1]? = some (.edge t, .edge k) ∧ g.edge? k = some e ∧ e.name? = t.name? ∧
      e.typeName? = t.typeName? ∧ e.kind.structural = true ∧
      ps[i]? = some (.node s, .node (e.seen k t.direction).this) ∧
      ps[i + 2]? = some (.node d, .node (e.seen k t.direction).that) := by
  obtain ⟨b, hedge⟩ := getElem?_map_fst.1 hb.edge
  obtain ⟨k, e, j, s', d', rfl, he, hk, hname, htype, hij, hthis, hthat⟩ := h.edge _ t b hedge
  obtain rfl : i = j := by omega
  obtain ⟨a, ha⟩ := getElem?_map_fst.1 hb.before
  obtain ⟨o, ho⟩ := getElem?_map_fst.1 hb.after
  rw [hthis] at ha
  cases ha
  rw [show i + 2 = i + 1 + 1 from rfl, hthat] at ho
  cases ho
  exact ⟨k, e, hedge, he, hname, htype, hk, hthis, hthat⟩

include h in
/-- Every edge has its token, between the tokens of its ends. -/
theorem exists_between {k : EdgeId} {e : PatternEdge} (he : g.edge? k = some e) :
    ∃ i s t d, Token.Between (ps.map (·.1)) i s t d ∧ ps[i + 1]? = some (.edge t, .edge k) ∧
      e.name? = t.name? ∧ e.typeName? = t.typeName? ∧ e.kind.structural = true ∧
      ps[i]? = some (.node s, .node (e.seen k t.direction).this) ∧
      ps[i + 2]? = some (.node d, .node (e.seen k t.direction).that) := by
  obtain ⟨-, t, ht⟩ := h.edges k e he
  obtain ⟨i, hi⟩ := List.getElem?_of_mem ht
  obtain ⟨k', e', j, s, d, hb, he', hk, hname, htype, rfl, hthis, hthat⟩ := h.edge i t _ hi
  cases hb
  rw [he] at he'
  cases he'
  exact ⟨j, s, t, d, ⟨getElem?_map_fst.2 ⟨_, hthis⟩, getElem?_map_fst.2 ⟨_, hi⟩,
    getElem?_map_fst.2 ⟨_, hthat⟩⟩, hi, hname, htype, hk, hthis, hthat⟩

-- ---------------------------------------------------------------------------
-- Components
-- ---------------------------------------------------------------------------

include h in
theorem connected_of_joined {n m : NodeId} (hj : g.Joined n m) {i j : Nat} {t t' : Token}
    (hi : ps[i]? = some (t, .node n)) (hm : ps[j]? = some (t', .node m)) :
    Token.Connected (ps.map (·.1)) (t.item i) (t'.item j) := by
  induction hj generalizing j t' with
  | refl =>
    rw [h.item_eq hi hm]
    exact .refl
  | @tail a b _ hab ih =>
    obtain ⟨c, ⟨e, he, hseen⟩, hthis, hthat⟩ := hab
    obtain ⟨l, s, tok, d, hbetween, -, -, -, -, hs, hd⟩ := h.exists_between he
    have hcases : c = e.seen c.edge tok.direction ∨ c.reverse = e.seen c.edge tok.direction := by
      by_cases hdir : c.direction = tok.direction
      · exact .inl (by rw [← hdir]; exact hseen)
      · refine .inr ?_
        rw [hseen, ← PatternEdge.seen_reverse, Direction.eq_reverse_of_ne (Ne.symm hdir)]
        simp
    rcases hcases with heq | heq
    · rw [← heq, hthis] at hs
      rw [← heq, hthat] at hd
      refine (ih hs).tail ⟨l, s, tok, d, hbetween, .inl ⟨rfl, ?_⟩⟩
      exact h.item_eq hm hd
    · rw [← heq] at hs hd
      have hs' : ps[l]? = some (.node s, .node c.that) := hs
      have hd' : ps[l + 2]? = some (.node d, .node c.this) := hd
      rw [hthat] at hs'
      rw [hthis] at hd'
      refine (ih hd').tail ⟨l, s, tok, d, hbetween, .inr ⟨?_, rfl⟩⟩
      exact h.item_eq hm hs'

include h in
theorem joined_of_connected (hg : g.Regular cx) {i : Nat} {t : Token} {n : NodeId}
    (hi : ps[i]? = some (t, .node n)) {x : Item}
    (hc : Token.Connected (ps.map (·.1)) (t.item i) x) {j : Nat} {t' : Token} {b : Handle}
    (hj : ps[j]? = some (t', b)) (hx : x = t'.item j) : ∃ m, b = .node m ∧ g.Joined n m := by
  induction hc generalizing j t' b with
  | refl =>
    obtain rfl := h.eq_of_item_eq hg hi hj hx
    exact ⟨n, rfl, .refl⟩
  | @tail y z _ hyz ih =>
    obtain ⟨l, s, tok, d, hbetween, hends⟩ := hyz
    obtain ⟨k, e, hedge, he, -, -, -, hs, hd⟩ := h.edge_of_between hbetween
    have hinc : g.Incident (e.seen k tok.direction) := .seen he _
    rcases hends with ⟨hy, hz⟩ | ⟨hz, hy⟩
    · obtain ⟨m, hm, hjoin⟩ := ih hs hy
      cases hm
      obtain rfl := h.eq_of_item_eq hg hd hj (hz.symm.trans hx)
      exact ⟨_, rfl, hjoin.tail ⟨_, hinc, rfl, rfl⟩⟩
    · obtain ⟨m, hm, hjoin⟩ := ih hd hy
      cases hm
      obtain rfl := h.eq_of_item_eq hg hs hj (hz.symm.trans hx)
      exact ⟨_, rfl, hjoin.tail ⟨_, hinc.reverse, rfl, rfl⟩⟩

-- ---------------------------------------------------------------------------
-- Starts
-- ---------------------------------------------------------------------------

include h in
/-- Every node of the model has a token that comes first. -/
theorem exists_first {n : NodeId} (hn : g.IsPlace n) :
    ∃ (i : Nat) (t : NodeToken), ps[i]? = some (.node t, .node n) ∧
      ∀ k < i, ∀ t, ps[k]? ≠ some (.node t, .node n) := by
  classical
  obtain ⟨-, nd, hnd, -⟩ := id hn
  obtain ⟨t, ht, -⟩ := h.nodes n nd hn hnd
  obtain ⟨i, hi⟩ := List.getElem?_of_mem ht
  have hex : ∃ (i : Nat) (t : NodeToken), ps[i]? = some (.node t, .node n) := ⟨i, t, hi⟩
  obtain ⟨t', ht'⟩ := Nat.find_spec hex
  exact ⟨Nat.find hex, t', ht', fun k hk t'' hk' => Nat.find_min hex hk ⟨t'', hk'⟩⟩

include h in
/-- What is joined with a node of the model is one. -/
theorem isPlace_of_joined (hg : g.Regular cx) {n m : NodeId} (hn : g.IsPlace n)
    (hj : g.Joined n m) : g.IsPlace m := by
  induction hj with
  | refl => exact hn
  | tail _ hab _ =>
    obtain ⟨i, hi, -, rfl⟩ := hab
    obtain ⟨e, he, -⟩ := id hi
    exact hg.isPlace_that hi ⟨e, he, (h.edges i.edge e he).1⟩

include h in
/-- Components start at the nodes that are declared first. -/
theorem isStart_iff (hg : g.Regular cx) {n : NodeId} :
    g.IsStart n ↔ ∃ (i : Nat) (t : NodeToken), ps[i]? = some (.node t, .node n) ∧
      Token.Opens (ps.map (·.1)) i := by
  constructor
  · intro hs
    obtain ⟨i, t, hi, hfirst⟩ := h.exists_first (hg.place_of_isStart hs)
    refine ⟨i, t, hi, t, getElem?_map_fst.2 ⟨_, hi⟩, fun j hj t' hj' hc => ?_⟩
    obtain ⟨b, hb⟩ := getElem?_map_fst.1 hj'
    obtain ⟨m, nd, rfl, hm, -⟩ := h.node t' b (List.mem_of_getElem? hb)
    obtain ⟨n', heq, hjoin⟩ := h.joined_of_connected hg hb hc hi rfl
    cases heq
    -- an earlier token has a node with a smaller number
    have hlt : ¬ n.index < m.index := by
      intro hlt
      have := h.order i j t t' n m hi hb hfirst hlt
      omega
    have hne : m.index ≠ n.index := by
      intro heq
      have hmn : m = n := by
        cases m
        cases n
        exact congrArg NodeId.mk heq
      exact hfirst j hj t' (hmn ▸ hb)
    exact hs.first m hm.1 (by omega) hjoin.symm
  · rintro ⟨i, t, hi, hopens⟩
    have hn : g.IsPlace n := by
      obtain ⟨_, _, ⟨⟩, hp, -⟩ := h.node t _ (List.mem_of_getElem? hi)
      exact hp
    refine ⟨hn.1, fun heq => hg.not_isPlace_anchor (heq ▸ hn), fun m _ hlt hjoin => ?_⟩
    obtain ⟨j, t', hj, hfirst⟩ := h.exists_first (h.isPlace_of_joined hg hn hjoin)
    have hji : j < i := h.order j i t' t m n hj hi hfirst hlt
    obtain ⟨t₀, ht₀, hnone⟩ := hopens
    obtain ⟨b, hb⟩ := getElem?_map_fst.1 ht₀
    rw [hi] at hb
    cases hb
    exact hnone j hji t' (getElem?_map_fst.2 ⟨_, hj⟩) (h.connected_of_joined hjoin.symm hj hi)

-- ---------------------------------------------------------------------------
-- Choices
-- ---------------------------------------------------------------------------

include h in
/-- What has a name has a token. -/
theorem exists_of_hasName (hg : g.Regular cx) {b : Handle} {name : String}
    (hb : g.HasName b name) : ∃ (i : Nat) (t : Token), ps[i]? = some (t, b) := by
  cases b with
  | node n =>
    have hn : g.IsPlace n := (hg.isPlace_of_named? ((hg.names name _).2 hb)).1
    obtain ⟨i, t, hi, -⟩ := h.exists_first hn
    exact ⟨i, _, hi⟩
  | edge k =>
    obtain ⟨e, he, -⟩ := Option.bind_eq_some_iff.1 hb
    obtain ⟨-, t, ht⟩ := h.edges k e he
    obtain ⟨i, hi⟩ := List.getElem?_of_mem ht
    exact ⟨i, _, hi⟩

include h in
theorem chosen_of_key (hg : g.Regular cx) {b : Handle}
    (hb : ¬ g.Unnamed b ∨ ∃ n, b = .node n ∧ g.IsStart n) :
    ∃ (i : Nat) (t : Token), ps[i]? = some (t, b) ∧ Token.Chosen (ps.map (·.1)) (t.item i) := by
  rcases hb with hu | ⟨n, rfl, hn⟩
  · obtain ⟨name, hname⟩ := exists_name hu
    obtain ⟨i, t, hi⟩ := h.exists_of_hasName hg hname
    have ht : t.name? = some name := (h.hasName_iff hi).1 hname
    refine ⟨i, t, hi, .inl ⟨t, ?_, name, ht, Token.item_named ht i⟩⟩
    exact List.mem_of_getElem? (getElem?_map_fst.2 ⟨b, hi⟩)
  · obtain ⟨i, t, hi, hopens⟩ := (h.isStart_iff hg).1 hn
    exact ⟨i, _, hi, .inr ⟨i, _, hopens, getElem?_map_fst.2 ⟨_, hi⟩, rfl⟩⟩

include h in
theorem key_of_chosen (hg : g.Regular cx) {x : Item} (hx : Token.Chosen (ps.map (·.1)) x) :
    ∃ (i : Nat) (t : Token) (b : Handle), ps[i]? = some (t, b) ∧ x = t.item i ∧
      (¬ g.Unnamed b ∨ ∃ n, b = .node n ∧ g.IsStart n) := by
  rcases hx with ⟨t, ht, name, hname, rfl⟩ | ⟨i, t, hopens, hi, rfl⟩
  · obtain ⟨⟨t, b⟩, hmem, rfl⟩ := List.mem_map.1 ht
    obtain ⟨i, hi⟩ := List.getElem?_of_mem hmem
    exact ⟨i, t, b, hi, (Token.item_named hname i).symm,
      .inl fun hu => hu name ((h.hasName_iff hi).2 hname)⟩
  · obtain ⟨b, hb⟩ := getElem?_map_fst.1 hi
    obtain ⟨t', ht', -⟩ := id hopens
    rw [hi] at ht'
    cases ht'
    obtain ⟨n, _, rfl, -⟩ := h.node t' b (List.mem_of_getElem? hb)
    exact ⟨i, _, _, hb, rfl, .inr ⟨n, rfl, (h.isStart_iff hg).2 ⟨i, t', hb, hopens⟩⟩⟩

end Tracks

end PatternGraph

end GraphPattern
