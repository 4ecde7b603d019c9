import GraphPattern.Proofs.Containers

/-!
# GraphPattern — the preorder of an object model

The walk through an object model takes objects from the end of a stack, and puts the contents of
what it takes back on it, the last one first. It ends, and it gives what the recursive preorder
gives: each object and then all that is below it, before the next one. As an object is in one place
only, it is given once.

## Results

* `ObjectModel.runs_visit` — the visits of the model are those of the loop over the stack.
* `ObjectModel.listing_visit` — they are also the recursive listing.
* `ObjectModel.Listing.front` — what is listed comes after its container.
* `ObjectModel.allObjects_preorder` — all of this for the objects of a model that was built.
-/

namespace GraphPattern

namespace ObjectModel

/-- The loop over a stack, whose top is its end, up to the end of the loop: each object that is
taken is given if it matches the type, and its contents are put in its place. -/
inductive Runs (M : ObjectModel) (spec? : Option String) : List Nat → List Nat → Prop
  | done : Runs M spec? [] []
  | take {stack : List Nat} {n : Nat} {given : List Nat}
      (rest : Runs M spec? (stack ++ (M.contents n).reverse) given) :
      Runs M spec? (stack ++ [n])
        ((if M.objectMatches n spec? = true then [n] else []) ++ given)

/-- Some objects, each followed by all that it contains, directly or not. -/
inductive Listing (M : ObjectModel) : List Nat → List Nat → Prop
  | nil : Listing M [] []
  | cons {n : Nat} {ns inner rest : List Nat} (below : Listing M (M.contents n) inner)
      (next : Listing M ns rest) : Listing M (n :: ns) (n :: (inner ++ rest))

/-- An object contains another one directly. -/
def Contains (M : ObjectModel) (n m : Nat) : Prop :=
  m ∈ M.contents n

variable {M : ObjectModel}

/-! ## The loop -/

/-- The loop can go on in one way only. -/
theorem Runs.unique {spec? : Option String} {stack given given' : List Nat}
    (h : M.Runs spec? stack given) (h' : M.Runs spec? stack given') : given = given' := by
  induction h generalizing given' with
  | done =>
    generalize hstack : ([] : List Nat) = stack at h'
    cases h' with
    | done => rfl
    | take rest => simp at hstack
  | @take stack n given rest ih =>
    generalize hstack : stack ++ [n] = stack' at h'
    cases h' with
    | done => simp at hstack
    | take rest' =>
      obtain ⟨rfl, hn⟩ := List.append_inj' hstack rfl
      obtain rfl := (List.cons.inj hn).1
      rw [ih rest']

/-- Visits that stay below the limit are all visits of the loop. -/
theorem runs_visit {spec? : Option String} {limit : Nat} {stack : List Nat}
    (h : (M.visit limit stack).length < limit) : M.Runs spec? stack.reverse
      ((M.visit limit stack).filter fun n => M.objectMatches n spec?) := by
  induction limit generalizing stack with
  | zero => exact absurd h (Nat.not_lt_zero _)
  | succ limit ih =>
    cases stack with
    | nil => exact .done
    | cons n stack =>
      rw [visit, List.length_cons, Nat.add_lt_add_iff_right] at h
      have hrest := ih h
      rw [List.reverse_append] at hrest
      have hgiven : (M.visit (limit + 1) (n :: stack)).filter (fun m => M.objectMatches m spec?) =
          (if M.objectMatches n spec? = true then [n] else []) ++
            (M.visit limit (M.contents n ++ stack)).filter fun m => M.objectMatches m spec? := by
        rw [visit, List.filter_cons]
        split <;> rfl
      rw [List.reverse_cons, hgiven]
      exact .take hrest

/-! ## The listing -/

theorem Listing.append_inv {xs ys l : List Nat} (h : M.Listing (xs ++ ys) l) :
    ∃ l₁ l₂, l = l₁ ++ l₂ ∧ M.Listing xs l₁ ∧ M.Listing ys l₂ := by
  induction xs generalizing l with
  | nil => exact ⟨[], l, rfl, .nil, h⟩
  | cons n xs ih =>
    cases h with
    | @cons _ _ inner rest below next =>
      obtain ⟨l₁, l₂, rfl, hl₁, hl₂⟩ := ih next
      refine ⟨n :: (inner ++ l₁), l₂, ?_, .cons below hl₁, hl₂⟩
      rw [List.cons_append, List.append_assoc]

/-- Visits that stay below the limit list the objects on the stack. -/
theorem listing_visit {limit : Nat} {stack : List Nat}
    (h : (M.visit limit stack).length < limit) : M.Listing stack (M.visit limit stack) := by
  induction limit generalizing stack with
  | zero => exact absurd h (Nat.not_lt_zero _)
  | succ limit ih =>
    cases stack with
    | nil => exact .nil
    | cons n stack =>
      rw [visit, List.length_cons, Nat.add_lt_add_iff_right] at h
      -- the contents lie on top of the stack, so they are listed first
      obtain ⟨inner, rest, hsplit, below, next⟩ := (ih h).append_inv
      rw [visit, hsplit]
      exact .cons below next

/-- What is listed is one of the objects that the listing is about, or comes after its container. -/
theorem Listing.front {ns l : List Nat} (h : M.Listing ns l) {m : Nat} {before after : List Nat}
    (hm : l = before ++ m :: after) : m ∈ ns ∨ ∃ n ∈ before, M.Contains n m := by
  induction h generalizing before after with
  | nil => simp at hm
  | @cons n ns inner rest below next ihBelow ihNext =>
    cases before with
    | nil => exact .inl ((List.cons.inj hm).1 ▸ List.mem_cons_self)
    | cons x before =>
      obtain ⟨rfl, htail⟩ := List.cons.inj hm
      rcases List.append_eq_append_iff.1 htail with ⟨mid, hbefore, hrest⟩ | ⟨mid, hinner, hafter⟩
      · rcases ihNext hrest with hin | ⟨p, hp, hpm⟩
        · exact .inl (List.mem_cons_of_mem _ hin)
        · refine .inr ⟨p, ?_, hpm⟩
          rw [hbefore]
          exact List.mem_cons_of_mem _ (List.mem_append_right _ hp)
      · cases mid with
        | nil =>
          rw [List.append_nil] at hinner
          have hfirst : rest = [] ++ m :: after := hafter.symm
          rcases ihNext hfirst with hin | ⟨p, hp, -⟩
          · exact .inl (List.mem_cons_of_mem _ hin)
          · exact nomatch hp
        | cons y mid =>
          obtain ⟨rfl, -⟩ := List.cons.inj hafter
          rcases ihBelow hinner with hin | ⟨p, hp, hpm⟩
          · exact .inr ⟨n, List.mem_cons_self, hin⟩
          · exact .inr ⟨p, List.mem_cons_of_mem _ hp, hpm⟩

/-! ## The objects of a model -/

/-- The walk of a forest stays below its limit. -/
theorem walk_lt (hM : M.Consistent) (hr : M.Rooted) :
    M.walk.length < M.roots.length * M.objects.length + patience := by
  have hsubset : ∀ n ∈ M.walk, n ∈ List.range M.objects.length := by
    intro n hn
    obtain ⟨o, ho⟩ :=
      Option.isSome_iff_exists.1 (hM.isSome_of_below ((mem_walk hM hr).1 hn))
    exact List.mem_range.2 (List.getElem?_eq_some_iff.1 ho).1
  have hlength := (nodup_walk hM hr).length_le_of_subset hsubset
  rw [List.length_range] at hlength
  cases hroots : M.roots with
  | nil =>
    rw [walk, hroots, List.length_nil, Nat.zero_mul, Nat.zero_add]
    exact Nat.lt_of_le_of_lt (Nat.le_of_eq rfl) (by decide : 0 < patience)
  | cons r roots =>
    calc M.walk.length ≤ M.objects.length := hlength
      _ < M.objects.length + patience := Nat.lt_add_of_pos_right (by decide)
      _ ≤ (r :: roots).length * M.objects.length + patience := by
          rw [List.length_cons, Nat.add_mul, Nat.one_mul]
          omega

theorem allObjects_none (hM : M.Consistent) (hr : M.Rooted) : M.allObjects none = M.walk := by
  refine List.filter_eq_self.2 fun n hn => ?_
  obtain ⟨o, ho⟩ := Option.isSome_iff_exists.1 (hM.isSome_of_below ((mem_walk hM hr).1 hn))
  rw [objectMatches, ho]
  rfl

theorem runs_allObjects (hM : M.Consistent) (hr : M.Rooted) (spec? : Option String) :
    M.Runs spec? M.roots.reverse (M.allObjects spec?) :=
  runs_visit (walk_lt hM hr)

/-- Whatever contains an object of the model, directly or not, is listed before it. -/
theorem owner_listed (hM : M.Consistent) (hr : M.Rooted) {l : List Nat} (h : M.Listing M.roots l)
    {n m : Nat} (hnm : Relation.TransGen M.Contains n m) {before after : List Nat}
    (hm : l = before ++ m :: after) : n ∈ before := by
  -- the object is no root, as it is contained, and it has one container only
  have hdirect : ∀ {n m : Nat} {before after : List Nat}, M.Contains n m →
      l = before ++ m :: after → n ∈ before := by
    intro n m before after hnm hm
    have hheld := hM.held n m hnm
    rcases h.front hm with hroot | ⟨p, hp, hpm⟩
    · rw [hr.uncontained m hroot] at hheld
      exact nomatch hheld
    · rw [hM.held p m hpm] at hheld
      exact Option.some.inj hheld ▸ hp
  induction hnm generalizing before after with
  | single hnm => exact hdirect hnm hm
  | tail _ hkm ih =>
    obtain ⟨front, mid, hbefore⟩ := List.append_of_mem (hdirect hkm hm)
    rw [hbefore, List.append_assoc, List.cons_append] at hm
    rw [hbefore]
    exact List.mem_append_left _ (ih hm)

/-- The enumeration of a model whose roots are distinct and uncontained ends. It is the preorder,
which lists what is below the roots once, owners first; with a type, it leaves out what does not
match. -/
theorem allObjects_preorder (hM : M.Built) (hr : M.Rooted) :
    (∀ spec? given, M.Runs spec? M.roots.reverse given ↔ given = M.allObjects spec?) ∧
      M.Listing M.roots (M.allObjects none) ∧
      (M.allObjects none).Nodup ∧
      (∀ n, n ∈ M.allObjects none ↔ M.Below n) ∧
      (∀ n m before after, Relation.TransGen M.Contains n m →
        M.allObjects none = before ++ m :: after → n ∈ before) ∧
      ∀ spec?, M.allObjects spec? =
        (M.allObjects none).filter fun n => M.objectMatches n spec? := by
  have hC := hM.housed.toConsistent
  have hlisting : M.Listing M.roots (M.allObjects none) := by
    rw [allObjects_none hC hr]
    exact listing_visit (walk_lt hC hr)
  refine ⟨fun spec? given => ⟨fun h => ?_, fun h => ?_⟩, hlisting, ?_, ?_, ?_, ?_⟩
  · exact h.unique (runs_allObjects hC hr spec?)
  · rw [h]
    exact runs_allObjects hC hr spec?
  · rw [allObjects_none hC hr]
    exact nodup_walk hC hr
  · exact fun n => mem_allObjects_none hC hr
  · exact fun n m before after hnm hm => owner_listed hC hr hlisting hnm hm
  · intro spec?
    rw [allObjects_none hC hr]
    rfl

/-- A house that holds two rooms, the first of which holds a box. The other room may borrow the box,
but not hold it as well. -/
def household : List ObjectCommand :=
  [.defineClass "Place" [] ["holds"], .defineClass "Room" ["Place"] [], .create "Place" [],
    .create "Room" [], .create "Room" [], .create "Place" [], .add 0 "holds" 1, .add 1 "holds" 3,
    .add 0 "holds" 2, .add 2 "borrows" 3, .add 2 "holds" 3, .addRoot 0]

/-- The enumeration of the house: the box follows the room that holds it. -/
theorem allObjects_preorder_household :
    let M := (ObjectWork.attemptAll {} household).model
    M.allObjects none = [0, 1, 3, 2] ∧ M.allObjects (some "Room") = [1, 2] ∧
      (∀ given, M.Runs none [0] given ↔ given = [0, 1, 3, 2]) ∧
      (∀ given, M.Runs (some "Room") [0] given ↔ given = [1, 2]) ∧
      M.Listing [0] [0, 1, 3, 2] ∧ ∀ n, n ∈ [0, 1, 3, 2] ↔ M.Below n := by
  intro M
  have hall : M.allObjects none = [0, 1, 3, 2] := by decide +kernel
  have hrooms : M.allObjects (some "Room") = [1, 2] := by decide +kernel
  have hrooted : M.Rooted := by
    refine ⟨by decide +kernel, fun r hr => ?_⟩
    obtain rfl : r = 0 := List.mem_singleton.1 hr
    rfl
  obtain ⟨hruns, hlisting, -, hbelow, -⟩ := allObjects_preorder ⟨household, rfl⟩ hrooted
  refine ⟨hall, hrooms, ?_, ?_, ?_, ?_⟩
  · rw [← hall]
    exact hruns none
  · rw [← hrooms]
    exact hruns (some "Room")
  · rw [← hall]
    exact hlisting
  · rw [← hall]
    exact hbelow

end ObjectModel

end GraphPattern
