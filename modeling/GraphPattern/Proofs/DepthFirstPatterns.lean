import GraphPattern.Proofs.Drawings

/-!
# GraphPattern — the way to the current node

Where a pattern comes back to a node that it has named before, it can do so in two manners. It can
go back the way it has come, to a node that it is still on the way from; what was written since
then is left for good. Or it can turn to a node that it has left already. A pattern that never does
the latter is *written depth first*: it can be read as the walk of a depth first search, and the
nodes between the anchor and the current node are the stack of this search.

* `PatternGraph.Drawing.wayBefore` — the way to the current node.
* `PatternGraph.Drawing.DepthFirst` — patterns that only come back along the way.
* `PatternGraph.Drawing.mem_wayBefore_of_le` — what is left is never met again.
-/

namespace GraphPattern.PatternGraph.Drawing

variable (cx : Context) (ts : List Token)

/-! ## Definitions -/

/-- The index of the node that is made at a position, if one is. -/
def nodeIndex (i : Nat) : Nat :=
  (nodesBefore cx ts i).length

/-- The index of the edge that is made at a position, if one is. -/
def edgeIndex (i : Nat) : Nat :=
  (edgesBefore cx ts i).length

/-- An edge token stands right before the position. -/
def arrives : Nat → Bool
  | 0 => false
  | i + 1 =>
    match ts[i]? with
    | some (.edge _) => true
    | _ => false

/-- The nodes from the current one back to the anchor. An edge leads on to the next node, even if it
is on the way already; a node token on its own goes back to its node, or starts anew. -/
def wayBefore : Nat → List NodeId
  | 0 => [⟨0⟩]
  | i + 1 =>
    match ts[i]? with
    | some (.node _) =>
      if arrives ts i then nodeAt cx ts i :: (wayBefore i).erase (nodeAt cx ts i)
      else if nodeAt cx ts i ∈ wayBefore i then
        (wayBefore i).dropWhile fun m => decide (m ≠ nodeAt cx ts i)
      else [nodeAt cx ts i, ⟨0⟩]
    | _ => wayBefore i

/-- No constraint token stands right before the position. -/
def Heads (i : Nat) : Prop :=
  ∀ j t, i = j + 1 → ts[j]? ≠ some (.constraint t)

/-- The position is neither between an edge and its node nor inside a row of constraints. -/
structure Settled (i : Nat) : Prop where
  alone : arrives ts i = false
  heads : ∀ t, ts[i]? = some (.constraint t) → Heads ts i

/-- Whenever a node token names a node again, the node is on the way. -/
def DepthFirst : Prop :=
  ∀ i < ts.length, home ts i ≠ i → nodeAt cx ts i ∈ wayBefore cx ts i

instance : Decidable (DepthFirst cx ts) :=
  inferInstanceAs (Decidable (∀ i < ts.length, home ts i ≠ i → nodeAt cx ts i ∈ wayBefore cx ts i))

variable {cx ts} {i j k p q : Nat}

/-! ## Positions -/

theorem lt_length {α : Type _} {l : List α} {x : α} (h : l[i]? = some x) : i < l.length :=
  (List.getElem?_eq_some_iff.1 h).1

/-- Different tokens stand at different positions. -/
theorem ne_of_tokens {t u : Token} (hi : ts[i]? = some t) (hj : ts[j]? = some u) (hne : t ≠ u) :
    i ≠ j := by
  rintro rfl
  exact hne (Option.some.inj (hi.symm.trans hj))

theorem arrives_succ : arrives ts (i + 1) = true ↔ ∃ t, ts[i]? = some (.edge t) := by
  rw [arrives]
  split
  · rename_i t ht
    exact iff_of_true rfl ⟨t, ht⟩
  · rename_i hno
    exact iff_of_false Bool.false_ne_true fun ⟨t, ht⟩ => hno t ht

/-- Right behind a node token, everything is settled. -/
theorem settled_succ {t : NodeToken} (h : ts[i]? = some (.node t)) : Settled ts (i + 1) where
  alone := by rw [arrives, h]
  heads := by
    intro u hu j v hj hv
    obtain rfl := Nat.succ.inj hj
    rw [h] at hv
    cases hv

/-! ## Indices -/

theorem nodeIndex_pos : 0 < nodeIndex cx ts i := by
  simp [nodeIndex, nodesBefore]

theorem anchor_index_lt : (⟨0⟩ : NodeId).index < nodeIndex cx ts i :=
  Int.natCast_pos.2 nodeIndex_pos

theorem nodeIndex_mono (h : i ≤ j) : nodeIndex cx ts i ≤ nodeIndex cx ts j :=
  List.IsPrefix.length_le <| nodesBefore_prefix cx ts h

/-- Node tokens make no edges. -/
theorem ne_of_madeEdge {t : NodeToken} {e : PatternEdge} (hmade : madeEdge? cx ts i = some e)
    (ht : ts[j]? = some (.node t)) : i ≠ j := by
  rintro rfl
  rw [madeEdge?, ht] at hmade
  cases hmade

theorem lt_length_of_madeEdge {e : PatternEdge} (h : madeEdge? cx ts i = some e) :
    i < ts.length := by
  refine Nat.lt_of_not_le fun hle => ?_
  rw [madeEdge?, List.getElem?_eq_none hle] at h
  cases h

theorem edgesBefore_prefix (cx : Context) (ts : List Token) (h : i ≤ j) :
    edgesBefore cx ts i <+: edgesBefore cx ts j := by
  induction h with
  | refl => exact List.prefix_rfl
  | @step j _ ih =>
    cases hmade : madeEdge? cx ts j with
    | none => rwa [edgesBefore_succ_none hmade]
    | some e =>
      rw [edgesBefore_succ_some hmade]
      exact ih.trans (List.prefix_append _ _)

theorem edgeIndex_mono (h : i ≤ j) : edgeIndex cx ts i ≤ edgeIndex cx ts j :=
  List.IsPrefix.length_le <| edgesBefore_prefix cx ts h

theorem nodeIndex_lt {nd : PatternNode} (h : i < j) (hmade : madeNode? cx ts i = some nd) :
    nodeIndex cx ts i < nodeIndex cx ts j :=
  (List.getElem?_eq_some_iff.1 (nodesBefore_getElem? h hmade)).1

theorem edgeIndex_succ {e : PatternEdge} (hmade : madeEdge? cx ts i = some e) :
    edgeIndex cx ts (i + 1) = edgeIndex cx ts i + 1 := by
  rw [edgeIndex, edgesBefore_succ_some hmade, List.length_append, List.length_singleton, edgeIndex]

theorem edgeIndex_lt {e : PatternEdge} (h : i < j) (hmade : madeEdge? cx ts i = some e) :
    edgeIndex cx ts i < edgeIndex cx ts j := by
  have hle : edgeIndex cx ts (i + 1) ≤ edgeIndex cx ts j := edgeIndex_mono h
  rwa [edgeIndex_succ hmade] at hle

/-- The order of edges is the order of the tokens that make them. -/
theorem le_of_edgeIndex_le {e : PatternEdge} (hmade : madeEdge? cx ts j = some e)
    (h : edgeIndex cx ts i ≤ edgeIndex cx ts j) : i ≤ j :=
  Nat.le_of_not_lt fun hlt => Nat.not_le_of_lt (edgeIndex_lt hlt hmade) h

theorem le_of_nodeIndex_le {nd : PatternNode} (hmade : madeNode? cx ts j = some nd)
    (h : nodeIndex cx ts i ≤ nodeIndex cx ts j) : i ≤ j :=
  Nat.le_of_not_lt fun hlt => Nat.not_le_of_lt (nodeIndex_lt hlt hmade) h

theorem eq_of_edgeIndex_eq {e e' : PatternEdge} (hi : madeEdge? cx ts i = some e)
    (hj : madeEdge? cx ts j = some e') (h : edgeIndex cx ts i = edgeIndex cx ts j) : i = j :=
  Nat.le_antisymm (le_of_edgeIndex_le hj (Nat.le_of_eq h))
    (le_of_edgeIndex_le hi (Nat.le_of_eq h.symm))

theorem edgeIndex_eq_iff {e e' : PatternEdge} (hi : madeEdge? cx ts i = some e)
    (hj : madeEdge? cx ts j = some e') : edgeIndex cx ts i = edgeIndex cx ts j ↔ i = j :=
  ⟨eq_of_edgeIndex_eq hi hj, fun h => by rw [h]⟩

/-- Every edge is made at some position. -/
theorem exists_madeEdge {e : PatternEdge} (h : (edgesBefore cx ts j)[k]? = some e) :
    ∃ p < j, madeEdge? cx ts p = some e ∧ k = edgeIndex cx ts p := by
  induction j with
  | zero => simp [edgesBefore] at h
  | succ j ih =>
    cases hmade : madeEdge? cx ts j with
    | none =>
      rw [edgesBefore_succ_none hmade] at h
      obtain ⟨p, hp, hrest⟩ := ih h
      exact ⟨p, Nat.lt_succ_of_lt hp, hrest⟩
    | some e' =>
      rw [edgesBefore_succ_some hmade, List.getElem?_append] at h
      split at h
      · obtain ⟨p, hp, hrest⟩ := ih h
        exact ⟨p, Nat.lt_succ_of_lt hp, hrest⟩
      · rename_i hle
        have hk := (List.getElem?_eq_some_iff.1 h).1
        rw [List.length_singleton] at hk
        obtain rfl := List.mem_singleton.1 (List.mem_of_getElem? h)
        exact ⟨j, Nat.lt_succ_self j, hmade, by rw [edgeIndex]; omega⟩

/-- Every node is the anchor, or is made at some position. -/
theorem exists_madeNode {nd : PatternNode} (h : (nodesBefore cx ts j)[k]? = some nd) :
    k = 0 ∨ ∃ p < j, madeNode? cx ts p = some nd ∧ k = nodeIndex cx ts p := by
  induction j with
  | zero =>
    left
    have := (List.getElem?_eq_some_iff.1 h).1
    simpa [nodesBefore] using this
  | succ j ih =>
    cases hmade : madeNode? cx ts j with
    | none =>
      rw [nodesBefore_succ_none hmade] at h
      rcases ih h with hk | ⟨p, hp, hrest⟩
      · exact .inl hk
      · exact .inr ⟨p, Nat.lt_succ_of_lt hp, hrest⟩
    | some nd' =>
      rw [nodesBefore_succ_some hmade, List.getElem?_append] at h
      split at h
      · rcases ih h with hk | ⟨p, hp, hrest⟩
        · exact .inl hk
        · exact .inr ⟨p, Nat.lt_succ_of_lt hp, hrest⟩
      · rename_i hle
        have hk := (List.getElem?_eq_some_iff.1 h).1
        rw [List.length_singleton] at hk
        obtain rfl := List.mem_singleton.1 (List.mem_of_getElem? h)
        exact .inr ⟨j, Nat.lt_succ_self j, hmade, by rw [nodeIndex]; omega⟩

/-! ## Where nodes are met -/

theorem home_home (ts : List Token) (i : Nat) : home ts (home ts i) = home ts i := by
  cases h : nodeNameAt ts i with
  | none => rw [home_of_unnamed h, home_of_unnamed h]
  | some name => exact home_congr (home_spec h).2.1 h

theorem home_constraint {t : ConstraintToken} (h : ts[i]? = some (.constraint t)) :
    home ts i = i :=
  home_of_unnamed (by rw [nodeNameAt, h]; rfl)

theorem nodeAt_index : (nodeAt cx ts i).index = nodeIndex cx ts (home ts i) :=
  rfl

theorem nodeAt_first (h : home ts i = i) : nodeAt cx ts i = ⟨nodeIndex cx ts i⟩ := by
  rw [nodeAt, h]
  rfl

theorem nodeAt_index_lt_of_node {t : NodeToken} (hi : i < j) (h : ts[i]? = some (.node t)) :
    (nodeAt cx ts i).index < nodeIndex cx ts j := by
  obtain ⟨first, -, -, hmade⟩ := madeNode?_home cx h
  have := nodeIndex_lt (Nat.lt_of_le_of_lt (home_le ts i) hi) hmade
  rw [nodeAt_index]
  omega

theorem nodeAt_index_lt_of_constraint {t : ConstraintToken} (hi : i < j)
    (h : ts[i]? = some (.constraint t)) : (nodeAt cx ts i).index < nodeIndex cx ts j := by
  have := nodeIndex_lt hi (madeNode?_constraint cx h)
  rw [nodeAt_index, home_constraint h]
  omega

/-- Constraint tokens make nodes of their own. -/
theorem eq_of_nodeAt_constraint {t u : ConstraintToken} (hi : ts[i]? = some (.constraint t))
    (hj : ts[j]? = some (.constraint u)) (heq : nodeAt cx ts i = nodeAt cx ts j) : i = j := by
  have hindex := congrArg NodeId.index heq
  rw [nodeAt_index, nodeAt_index, home_constraint hi, home_constraint hj] at hindex
  have hmade := madeNode?_constraint cx hi
  have hmade' := madeNode?_constraint cx hj
  exact Nat.le_antisymm (le_of_nodeIndex_le hmade' (Nat.le_of_eq (Int.ofNat.inj hindex)))
    (le_of_nodeIndex_le hmade (Nat.le_of_eq (Int.ofNat.inj hindex.symm)))

/-- Tokens of one node have one home. -/
theorem home_eq_of_nodeAt_eq {t u : NodeToken} (hi : ts[i]? = some (.node t))
    (hj : ts[j]? = some (.node u)) (h : nodeAt cx ts i = nodeAt cx ts j) : home ts i = home ts j := by
  obtain ⟨_, -, -, hmade⟩ := madeNode?_home cx hi
  obtain ⟨_, -, -, hmade'⟩ := madeNode?_home cx hj
  have hindex : nodeIndex cx ts (home ts i) = nodeIndex cx ts (home ts j) :=
    Int.ofNat.inj (congrArg NodeId.index h)
  exact Nat.le_antisymm (le_of_nodeIndex_le hmade' (Nat.le_of_eq hindex))
    (le_of_nodeIndex_le hmade (Nat.le_of_eq hindex.symm))

/-- No other token stands for the node of a token without a name. -/
theorem eq_of_nodeAt_eq {t u : NodeToken} (hi : ts[i]? = some (.node t)) (hname : t.name? = none)
    (hj : ts[j]? = some (.node u)) (h : nodeAt cx ts j = nodeAt cx ts i) : j = i := by
  have hi' : nodeNameAt ts i = none := (nodeNameAt_node hi).trans hname
  have hhome := home_eq_of_nodeAt_eq hj hi h
  rw [home_of_unnamed hi'] at hhome
  cases hj' : nodeNameAt ts j with
  | none => rwa [home_of_unnamed hj'] at hhome
  | some name =>
    obtain ⟨-, hown, -⟩ := home_spec hj'
    rw [hhome, hi'] at hown
    cases hown

/-- The current node is the anchor before all node tokens, or that of the nearest one. -/
theorem currentBefore_cases (cx : Context) (ts : List Token) (i : Nat) :
    (currentBefore cx ts i = ⟨0⟩ ∧ ∀ j < i, ∀ t : NodeToken, ts[j]? ≠ some (.node t)) ∨
      ∃ j < i, ∃ t : NodeToken, ts[j]? = some (.node t) ∧ currentBefore cx ts i = nodeAt cx ts j ∧
        ∀ k, j < k → k < i → ∀ u : NodeToken, ts[k]? ≠ some (.node u) := by
  induction i with
  | zero => exact .inl ⟨rfl, fun j hj => absurd hj (Nat.not_lt_zero j)⟩
  | succ i ih =>
    rw [currentBefore]
    split
    · rename_i t ht
      exact .inr ⟨i, Nat.lt_succ_self i, t, ht, rfl, fun k hk hk' => by omega⟩
    · rename_i hno
      rcases ih with ⟨hcur, hnone⟩ | ⟨j, hj, t, ht, hcur, hnone⟩
      · refine .inl ⟨hcur, fun j hj u => ?_⟩
        rcases Nat.lt_succ_iff_lt_or_eq.1 hj with hj | rfl
        · exact hnone j hj u
        · exact hno u
      · refine .inr ⟨j, Nat.lt_succ_of_lt hj, t, ht, hcur, fun k hk hk' u => ?_⟩
        rcases Nat.lt_succ_iff_lt_or_eq.1 hk' with hk' | rfl
        · exact hnone k hk hk' u
        · exact hno u

theorem currentBefore_index_lt : (currentBefore cx ts i).index < nodeIndex cx ts i := by
  rcases currentBefore_cases cx ts i with ⟨h, -⟩ | ⟨j, hj, t, ht, h, -⟩ <;> rw [h]
  · exact anchor_index_lt
  · exact nodeAt_index_lt_of_node hj ht

/-- A constraint hangs on the constraint right before it, or on the current node. -/
theorem ownerAt_cases (cx : Context) (ts : List Token) (i : Nat) :
    (∃ j t, i = j + 1 ∧ ts[j]? = some (.constraint t) ∧ ownerAt cx ts i = nodeAt cx ts j) ∨
      (Heads ts i ∧ ownerAt cx ts i = currentBefore cx ts i) := by
  cases i with
  | zero => exact .inr ⟨fun j t h => by omega, rfl⟩
  | succ i =>
    rw [ownerAt]
    split
    · rename_i t ht
      exact .inl ⟨i, t, rfl, ht, rfl⟩
    · rename_i hno
      refine .inr ⟨fun j t h => ?_, rfl⟩
      obtain rfl : i = j := Nat.succ.inj h
      exact hno t

theorem ownerAt_index_lt : (ownerAt cx ts i).index < nodeIndex cx ts i := by
  rcases ownerAt_cases cx ts i with ⟨j, t, rfl, ht, h⟩ | ⟨-, h⟩ <;> rw [h]
  · exact nodeAt_index_lt_of_constraint (Nat.lt_succ_self j) ht
  · exact currentBefore_index_lt

/-! ## The way -/

theorem wayBefore_node {t : NodeToken} (h : ts[i]? = some (.node t)) :
    wayBefore cx ts (i + 1) =
      if arrives ts i then nodeAt cx ts i :: (wayBefore cx ts i).erase (nodeAt cx ts i)
      else if nodeAt cx ts i ∈ wayBefore cx ts i then
        (wayBefore cx ts i).dropWhile fun m => decide (m ≠ nodeAt cx ts i)
      else [nodeAt cx ts i, ⟨0⟩] := by
  rw [wayBefore, h]

theorem wayBefore_other (h : ∀ t : NodeToken, ts[i]? ≠ some (.node t)) :
    wayBefore cx ts (i + 1) = wayBefore cx ts i := by
  rw [wayBefore]
  split
  · rename_i t ht
    exact absurd ht (h t)
  · rfl

theorem wayBefore_arrives {t : NodeToken} (h : ts[i]? = some (.node t)) (harr : arrives ts i) :
    wayBefore cx ts (i + 1) = nodeAt cx ts i :: (wayBefore cx ts i).erase (nodeAt cx ts i) := by
  rw [wayBefore_node h, if_pos harr]

/-- Without node tokens in between, the way stays the same. -/
theorem wayBefore_eq (hij : i ≤ j)
    (h : ∀ k, i ≤ k → k < j → ∀ t : NodeToken, ts[k]? ≠ some (.node t)) :
    wayBefore cx ts j = wayBefore cx ts i := by
  induction hij with
  | refl => rfl
  | @step j hij ih =>
    rw [Nat.succ_eq_add_one, wayBefore_other (h j hij (Nat.lt_succ_self j))]
    exact ih fun k hk hkj => h k hk (Nat.lt_succ_of_lt hkj)

/-- What holds of the way at first, and goes on to hold where an edge leads to a node, where the
pattern goes back to a node on the way, and where it starts anew, holds of it everywhere. -/
theorem wayBefore_induction {P : Nat → List NodeId → Prop} (zero : P 0 [⟨0⟩])
    (lead : ∀ i (t : NodeToken) way, ts[i]? = some (.node t) → arrives ts i = true → P i way →
      P (i + 1) (nodeAt cx ts i :: way.erase (nodeAt cx ts i)))
    (back : ∀ i (t : NodeToken) way, ts[i]? = some (.node t) → nodeAt cx ts i ∈ way → P i way →
      P (i + 1) (way.dropWhile fun m => decide (m ≠ nodeAt cx ts i)))
    (anew : ∀ i (t : NodeToken) way, ts[i]? = some (.node t) → nodeAt cx ts i ∉ way → P i way →
      P (i + 1) [nodeAt cx ts i, ⟨0⟩])
    (keep : ∀ i way, (∀ t : NodeToken, ts[i]? ≠ some (.node t)) → P i way → P (i + 1) way)
    (i : Nat) : P i (wayBefore cx ts i) := by
  induction i with
  | zero => exact zero
  | succ i ih =>
    by_cases h : ∃ t : NodeToken, ts[i]? = some (.node t)
    · obtain ⟨t, ht⟩ := h
      rw [wayBefore_node ht]
      split
      · rename_i harr
        exact lead i t _ ht harr ih
      · split
        · rename_i hmem
          exact back i t _ ht hmem ih
        · rename_i hmem
          exact anew i t _ ht hmem ih
    · simp only [not_exists] at h
      rw [wayBefore_other h]
      exact keep i _ h ih

theorem exists_dropWhile_eq_cons {l : List NodeId} {n : NodeId} (h : n ∈ l) :
    ∃ w, (l.dropWhile fun m => decide (m ≠ n)) = n :: w := by
  induction l with
  | nil => cases h
  | cons m l ih =>
    by_cases hm : m = n
    · exact ⟨l, by rw [hm, List.dropWhile_cons_of_neg (by simp)]⟩
    · rw [List.dropWhile_cons_of_pos (by simpa using hm)]
      exact ih ((List.mem_cons.1 h).resolve_left (Ne.symm hm))

/-- The way leads from the current node to the anchor. -/
theorem wayBefore_ends (cx : Context) (ts : List Token) (i : Nat) :
    (∃ w, wayBefore cx ts i = currentBefore cx ts i :: w) ∧
      ∃ w, wayBefore cx ts i = w ++ [⟨0⟩] := by
  refine wayBefore_induction (P := fun i way =>
    (∃ w, way = currentBefore cx ts i :: w) ∧ ∃ w, way = w ++ [⟨0⟩]) ?_ ?_ ?_ ?_ ?_ i
  · exact ⟨⟨[], rfl⟩, [], rfl⟩
  · rintro i t way ht - ⟨-, w, rfl⟩
    refine ⟨⟨_, by rw [currentBefore, ht]⟩, nodeAt cx ts i :: w.erase (nodeAt cx ts i), ?_⟩
    by_cases hmem : nodeAt cx ts i ∈ w
    · rw [List.erase_append_left _ hmem]
      rfl
    · rw [List.erase_append_right _ hmem, List.erase_of_not_mem hmem,
        List.erase_of_not_mem (by simpa using nodeAt_ne_anchor)]
      rfl
  · rintro i t way ht hmem ⟨-, w, rfl⟩
    refine ⟨?_, ?_⟩
    · rw [currentBefore, ht]
      exact exists_dropWhile_eq_cons hmem
    · have hw : nodeAt cx ts i ∈ w := by
        rcases List.mem_append.1 hmem with h | h
        · exact h
        · exact absurd (List.mem_singleton.1 h) nodeAt_ne_anchor
      obtain ⟨v, hv⟩ := exists_dropWhile_eq_cons hw
      rw [List.dropWhile_append, hv]
      exact ⟨_, rfl⟩
  · rintro i t way ht - -
    exact ⟨⟨_, by rw [currentBefore, ht]⟩, [nodeAt cx ts i], rfl⟩
  · rintro i way hno hway
    rw [currentBefore]
    split
    · rename_i t ht
      exact absurd ht (hno t)
    · exact hway

theorem anchor_mem_wayBefore : (⟨0⟩ : NodeId) ∈ wayBefore cx ts i := by
  obtain ⟨-, w, hw⟩ := wayBefore_ends cx ts i
  rw [hw]
  simp

theorem currentBefore_mem_wayBefore : currentBefore cx ts i ∈ wayBefore cx ts i := by
  obtain ⟨⟨w, hw⟩, -⟩ := wayBefore_ends cx ts i
  rw [hw]
  simp

theorem nodup_wayBefore (cx : Context) (ts : List Token) (i : Nat) :
    (wayBefore cx ts i).Nodup := by
  refine wayBefore_induction (P := fun _ way => way.Nodup) ?_ ?_ ?_ ?_ ?_ i
  · simp
  · intro i t way _ _ h
    exact List.nodup_cons.2 ⟨fun hmem => ((List.Nodup.mem_erase_iff h).1 hmem).1 rfl, h.erase _⟩
  · intro i t way _ _ h
    exact h.sublist (List.dropWhile_sublist _)
  · intro i t way _ _ _
    simpa using nodeAt_ne_anchor
  · intro i way _ h
    exact h

theorem index_lt_of_mem_wayBefore {m : NodeId} (h : m ∈ wayBefore cx ts i) :
    m.index < nodeIndex cx ts i := by
  have hgrow : ∀ {i} {m : NodeId}, m.index < nodeIndex cx ts i →
      m.index < nodeIndex cx ts (i + 1) := by
    intro i m hm
    have : nodeIndex cx ts i ≤ nodeIndex cx ts (i + 1) := nodeIndex_mono (Nat.le_add_right i 1)
    omega
  refine wayBefore_induction (P := fun i way => ∀ m ∈ way, m.index < nodeIndex cx ts i)
    ?_ ?_ ?_ ?_ ?_ i m h
  · intro m hm
    rw [List.mem_singleton.1 hm]
    exact anchor_index_lt
  · intro i t way ht _ ih m hm
    rcases List.mem_cons.1 hm with rfl | hm
    · exact nodeAt_index_lt_of_node (Nat.lt_succ_self i) ht
    · exact hgrow (ih m (List.mem_of_mem_erase hm))
  · intro i t way _ _ ih m hm
    exact hgrow (ih m ((List.dropWhile_sublist _).subset hm))
  · intro i t way ht _ _ m hm
    rcases List.mem_cons.1 hm with rfl | hm
    · exact nodeAt_index_lt_of_node (Nat.lt_succ_self i) ht
    · rw [List.mem_singleton.1 hm]
      exact anchor_index_lt
  · intro i way _ ih m hm
    exact hgrow (ih m hm)

/-- A new node at which no edge arrives is reached from the anchor alone. -/
theorem wayBefore_alone {t : NodeToken} (h : ts[i]? = some (.node t)) (hhome : home ts i = i)
    (halone : arrives ts i = false) : wayBefore cx ts (i + 1) = [nodeAt cx ts i, ⟨0⟩] := by
  have hnew : nodeAt cx ts i ∉ wayBefore cx ts i := by
    intro hmem
    have := index_lt_of_mem_wayBefore hmem
    rw [nodeAt_index, hhome] at this
    omega
  rw [wayBefore_node h, halone, if_neg Bool.false_ne_true, if_neg hnew]

/-! ## What is left -/

/-- Nodes that stand on the way later were on it before, unless they are made in between. -/
theorem mem_wayBefore_of_le (hdf : DepthFirst cx ts) {m : NodeId} (hij : i ≤ j)
    (hj : j ≤ ts.length) (hold : m.index < nodeIndex cx ts i) (h : m ∈ wayBefore cx ts j) :
    m ∈ wayBefore cx ts i := by
  induction hij with
  | refl => exact h
  | @step j hij ih =>
    have hj : j < ts.length := hj
    refine ih (Nat.le_of_lt hj) ?_
    -- a token that names an old node finds it on the way
    have hback : m = nodeAt cx ts j → m ∈ wayBefore cx ts j := by
      rintro rfl
      refine hdf j hj fun hhome => ?_
      have hle : nodeIndex cx ts i ≤ nodeIndex cx ts j := nodeIndex_mono hij
      rw [nodeAt_index, hhome] at hold
      omega
    by_cases hnode : ∃ t : NodeToken, ts[j]? = some (.node t)
    · obtain ⟨t, ht⟩ := hnode
      rw [Nat.succ_eq_add_one, wayBefore_node ht] at h
      split at h
      · rcases List.mem_cons.1 h with heq | h
        · exact hback heq
        · exact List.mem_of_mem_erase h
      · split at h
        · exact (List.dropWhile_sublist _).subset h
        · rcases List.mem_cons.1 h with heq | h
          · exact hback heq
          · rw [List.mem_singleton.1 h]
            exact anchor_mem_wayBefore
    · simp only [not_exists] at hnode
      rwa [Nat.succ_eq_add_one, wayBefore_other hnode] at h

/-- A node that was left is the end of no edge any more. -/
theorem mem_wayBefore_of_madeEdge (hdf : DepthFirst cx ts) (hw : WellFormed cx ts) {m : NodeId}
    {e : PatternEdge} (hi : Settled ts i) (hij : i ≤ j) (hmade : madeEdge? cx ts j = some e)
    (hend : e.alpha = m ∨ e.omega = m) (hold : m.index < nodeIndex cx ts i) :
    m ∈ wayBefore cx ts i := by
  have hj : j < ts.length := lt_length_of_madeEdge hmade
  refine mem_wayBefore_of_le hdf hij (Nat.le_of_lt hj) hold ?_
  rcases madeEdge?_cases hmade with ⟨t, ht, rfl⟩ | ⟨t, ht, rfl⟩
  · obtain ⟨u, hu⟩ := hw.target j t ht
    have hends : currentBefore cx ts j = m ∨ nodeAt cx ts (j + 1) = m := by
      cases hd : t.direction <;> simp only [placeEdge, hd] at hend
      · exact hend
      · exact hend.symm
    rcases hends with rfl | rfl
    · exact currentBefore_mem_wayBefore
    · -- the node behind the edge was made before, so it is on the way
      have hway : wayBefore cx ts (j + 1) = wayBefore cx ts j :=
        wayBefore_other fun u hu => ne_of_tokens ht hu Token.noConfusion rfl
      rw [← hway]
      refine hdf (j + 1) (lt_length hu) fun hhome => ?_
      have hle : nodeIndex cx ts i ≤ nodeIndex cx ts (j + 1) := nodeIndex_mono (by omega)
      rw [nodeAt_index, hhome] at hold
      omega
  · -- a constraint that is an end was made at the position or later
    have hlater : ∀ {k} {u : ConstraintToken}, i ≤ k → ts[k]? = some (.constraint u) →
        m ≠ nodeAt cx ts k := by
      rintro k u hk hu rfl
      have hle : nodeIndex cx ts i ≤ nodeIndex cx ts k := nodeIndex_mono hk
      rw [nodeAt_index, home_constraint hu] at hold
      omega
    rcases hend with hm | hm
    · rcases ownerAt_cases cx ts j with ⟨k, u, rfl, hu, howner⟩ | ⟨-, howner⟩
      · refine absurd (hm.symm.trans howner) (hlater ?_ hu)
        rcases Nat.lt_or_eq_of_le hij with hlt | rfl
        · exact Nat.le_of_lt_succ hlt
        · exact absurd hu (hi.heads t ht k u rfl)
      · have hcurrent : m = currentBefore cx ts j := hm.symm.trans howner
        rw [hcurrent]
        exact currentBefore_mem_wayBefore
    · exact absurd hm.symm (hlater hij ht)

end GraphPattern.PatternGraph.Drawing
