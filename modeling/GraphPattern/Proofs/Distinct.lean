/-!
# GraphPattern — lists without repetition

Where each member of a list is kept once, at its first place, it makes no difference whether the list
was thinned out before: what the members lead to is found in the same order. Members are told apart by
an equality that need not be identity. All that is asked is that it is an equivalence, and that equal
members lead to equal things.

* `thinning_induction` — induction that leaves out what is equal to the first member.
* `unlike_eraseDups`, `contains_eraseDups` — no two members that are left are equal, and nothing is
  lost but for what is equal to a member that is left.
* `eraseDups_flatMap_eraseDups`, `eraseDups_flatMap_eraseDups_right` — what the members of a list lead
  to, each thing once.
-/

namespace GraphPattern

variable {α β : Type _} [BEq α] [EquivBEq α] [BEq β] [EquivBEq β]

omit [EquivBEq α] in
/-- Induction along what is left of a list when the members equal to its first one are left out. -/
theorem thinning_induction {motive : List α → Prop} (nil : motive [])
    (cons : ∀ x xs, motive (xs.filter fun b => !b == x) → motive (x :: xs)) : ∀ xs, motive xs
  | [] => nil
  | x :: xs => cons x xs (thinning_induction nil cons _)
termination_by xs => xs.length
decreasing_by exact Nat.lt_succ_of_le (List.length_filter_le _ _)

/-- No two members of a list are equal. -/
def Unlike (xs : List α) : Prop :=
  xs.Pairwise fun x y => (x == y) = false

omit [EquivBEq α] in
/-- Where equality is identity, nothing is repeated. -/
theorem Unlike.nodup [LawfulBEq α] {xs : List α} (h : Unlike xs) : xs.Nodup :=
  h.imp fun hne heq => by simp [heq] at hne

omit [EquivBEq α] in
theorem mem_of_mem_eraseDups {x : α} {xs : List α} (h : x ∈ xs.eraseDups) : x ∈ xs := by
  induction xs using thinning_induction with
  | nil => simp at h
  | cons y xs ih =>
    rw [List.eraseDups_cons] at h
    rcases List.mem_cons.1 h with rfl | h
    · exact List.mem_cons_self
    · exact List.mem_cons_of_mem _ (List.mem_filter.1 (ih h)).1

theorem unlike_eraseDups (xs : List α) : Unlike xs.eraseDups := by
  induction xs using thinning_induction with
  | nil => exact .nil
  | cons x xs ih =>
    rw [List.eraseDups_cons]
    refine List.pairwise_cons.2 ⟨fun y hy => BEq.symm_false ?_, ih⟩
    have hkept := (List.mem_filter.1 (mem_of_mem_eraseDups hy)).2
    simpa using hkept

omit [EquivBEq α] in
theorem nodup_eraseDups [LawfulBEq α] (xs : List α) : xs.eraseDups.Nodup :=
  (unlike_eraseDups xs).nodup

/-- Where no two members are equal, nothing is left out. -/
theorem eraseDups_of_unlike {xs : List α} (h : Unlike xs) : xs.eraseDups = xs := by
  induction xs with
  | nil => rfl
  | cons x xs ih =>
    obtain ⟨hx, hxs⟩ := List.pairwise_cons.1 h
    have hkept : xs.filter (fun b => !b == x) = xs := by
      refine List.filter_eq_self.2 fun b hb => ?_
      rw [BEq.symm_false (hx b hb)]
      rfl
    rw [List.eraseDups_cons, hkept, ih hxs]

/-- What is left of a list without the members equal to one of them. -/
theorem contains_filter_unequal {x y : α} (hxy : (x == y) = false) (xs : List α) :
    (xs.filter fun b => !b == y).contains x = xs.contains x := by
  rw [Bool.eq_iff_iff, List.contains_iff_exists_mem_beq, List.contains_iff_exists_mem_beq]
  constructor
  · rintro ⟨z, hz, hxz⟩
    exact ⟨z, (List.mem_filter.1 hz).1, hxz⟩
  · rintro ⟨z, hz, hxz⟩
    -- what `x` is equal to is not equal to `y`
    refine ⟨z, List.mem_filter.2 ⟨hz, ?_⟩, hxz⟩
    rw [← BEq.congr_left hxz, hxy]
    rfl

/-- What is equal to a member is equal to one that is left. -/
theorem contains_eraseDups (xs : List α) (x : α) : xs.eraseDups.contains x = xs.contains x := by
  induction xs using thinning_induction with
  | nil => rfl
  | cons y xs ih =>
    rw [List.eraseDups_cons, List.contains_cons, List.contains_cons, ih]
    cases hxy : x == y with
    | true => rfl
    | false => rw [contains_filter_unequal hxy]

/-- What is left of a list behind another. -/
theorem eraseDups_append (xs ys : List α) :
    (xs ++ ys).eraseDups = xs.eraseDups ++ (ys.filter fun y => !xs.contains y).eraseDups := by
  induction xs using thinning_induction generalizing ys with
  | nil =>
    have hall : (ys.filter fun y => !([] : List α).contains y) = ys :=
      List.filter_eq_self.2 fun _ _ => rfl
    rw [hall]
    rfl
  | cons x xs ih =>
    have hbehind : ((ys.filter fun b => !b == x).filter fun y =>
        !(xs.filter fun b => !b == x).contains y) = ys.filter fun y => !(x :: xs).contains y := by
      rw [List.filter_filter]
      refine List.filter_congr fun y _ => ?_
      rw [List.contains_cons]
      cases hyx : y == x with
      | true => simp
      | false =>
        rw [contains_filter_unequal hyx]
        simp
    rw [List.cons_append, List.eraseDups_cons, List.eraseDups_cons, List.filter_append, ih, hbehind,
      List.cons_append]

omit [EquivBEq α] in
/-- Where a test tells no equal members apart, it makes no difference when it is made. -/
theorem eraseDups_filter {p : α → Bool} (hp : ∀ x y, x == y → p x = p y) (xs : List α) :
    (xs.filter p).eraseDups = xs.eraseDups.filter p := by
  induction xs using thinning_induction with
  | nil => rfl
  | cons x xs ih =>
    have hswap : (xs.filter p).filter (fun b => !b == x) = (xs.filter fun b => !b == x).filter p := by
      simp only [List.filter_filter, Bool.and_comm]
    rw [List.eraseDups_cons]
    cases hx : p x with
    | true =>
      rw [List.filter_cons_of_pos hx, List.filter_cons_of_pos hx, List.eraseDups_cons, hswap, ih]
    | false =>
      -- nothing equal to `x` is among what is kept, so leaving it out before makes no difference
      have hgone : (xs.filter p).filter (fun b => !b == x) = xs.filter p := by
        refine List.filter_eq_self.2 fun b hb => ?_
        cases hbx : b == x with
        | true =>
          have hb := (List.mem_filter.1 hb).2
          rw [hp b x hbx, hx] at hb
          cases hb
        | false => rfl
      have hskip : ¬ p x = true := by simp [hx]
      rw [List.filter_cons_of_neg hskip, List.filter_cons_of_neg hskip, ← ih, ← hswap, hgone]

omit [EquivBEq α] [BEq β] [EquivBEq β] in
/-- What leads to nothing can be left out. -/
theorem flatMap_filter_unequal {f : α → List β} {x : α} (hx : ∀ b, b == x → f b = []) (xs : List α) :
    (xs.filter fun b => !b == x).flatMap f = xs.flatMap f := by
  induction xs with
  | nil => rfl
  | cons y xs ih =>
    rw [List.flatMap_cons, ← ih]
    cases hy : y == x with
    | true =>
      rw [List.filter_cons_of_neg (by simp [hy]), hx y hy, List.nil_append]
    | false => rw [List.filter_cons_of_pos (by simp [hy]), List.flatMap_cons]

/-- The members of a list lead to the same things, found in the same order, if each of them is followed
once only: what is equal to a member that was followed leads to nothing that is not found. -/
theorem eraseDups_flatMap_eraseDups {f : α → List β}
    (hf : ∀ x y, x == y → ∀ z ∈ f y, (f x).contains z) (xs : List α) :
    (xs.eraseDups.flatMap f).eraseDups = (xs.flatMap f).eraseDups := by
  induction xs using thinning_induction generalizing f with
  | nil => rfl
  | cons x xs ih =>
    -- what `x` leads to is found first, so behind it the others only count with the rest
    let rest : α → List β := fun y => (f y).filter fun z => !(f x).contains z
    have hx : ∀ b, b == x → rest b = [] := by
      intro b hb
      refine List.filter_eq_nil_iff.2 fun z hz => ?_
      simpa using hf x b (BEq.symm hb) z hz
    have hrest : ∀ y z, y == z → ∀ w ∈ rest z, (rest y).contains w := by
      intro y z hyz w hw
      obtain ⟨hw, hnew⟩ := List.mem_filter.1 hw
      obtain ⟨v, hv, hwv⟩ := List.contains_iff_exists_mem_beq.1 (hf y z hyz w hw)
      refine List.contains_iff_exists_mem_beq.2 ⟨v, List.mem_filter.2 ⟨hv, ?_⟩, hwv⟩
      rw [← List.contains_congr hwv]
      exact hnew
    have hothers : ((xs.filter fun b => !b == x).eraseDups.flatMap rest).eraseDups =
        (xs.flatMap rest).eraseDups := by
      rw [ih hrest, flatMap_filter_unequal hx]
    rw [List.eraseDups_cons, List.flatMap_cons, List.flatMap_cons, eraseDups_append, eraseDups_append,
      List.filter_flatMap, List.filter_flatMap]
    exact congrArg ((f x).eraseDups ++ ·) hothers

omit [BEq α] [EquivBEq α] in
/-- Nor does it make a difference if what each member leads to is thinned out before. -/
theorem eraseDups_flatMap_eraseDups_right (f : α → List β) (xs : List α) :
    (xs.flatMap fun x => (f x).eraseDups).eraseDups = (xs.flatMap f).eraseDups := by
  induction xs generalizing f with
  | nil => rfl
  | cons x xs ih =>
    have hthin : (f x).eraseDups.eraseDups = (f x).eraseDups := eraseDups_of_unlike (unlike_eraseDups _)
    have hnew : ∀ y z : β, y == z → (!(f x).contains y) = !(f x).contains z := by
      intro y z hyz
      rw [List.contains_congr hyz]
    rw [List.flatMap_cons, List.flatMap_cons, eraseDups_append, eraseDups_append, hthin,
      List.filter_flatMap, List.filter_flatMap]
    simp only [contains_eraseDups, ← eraseDups_filter hnew]
    rw [ih fun y => (f y).filter fun z => !(f x).contains z]

end GraphPattern
