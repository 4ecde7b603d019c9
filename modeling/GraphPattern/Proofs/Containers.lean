import GraphPattern.Proofs.ObjectModels
import Mathlib.Logic.Function.Basic

/-!
# GraphPattern — contents and containers

Containment is written down twice: an object keeps what it contains among its references, and what
it contains keeps it as its container. Steps in building a model may be refused, which leaves
everything as it was; whichever of them succeed, the two agree, and an object is contained once at
most.

## Results

* `ObjectModel.containerOf_add` — only a containing reference gives a container, and only to its
  target.
* `ObjectModel.add_eq_error_iff` — what is refused: to contain what is contained.
* `ObjectModel.Housed.becomes`, `ObjectModel.Built.housed` — contents and containers agree.
-/

namespace GraphPattern

namespace ObjectWork

/-- Performs a step. If it is refused, nothing happens. -/
def attempt (w : ObjectWork) (c : ObjectCommand) : ObjectWork :=
  match w.perform c with
  | .ok (_, w') => w'
  | .error _ => w

/-- Performs those steps that are not refused. -/
def attemptAll (w : ObjectWork) (commands : List ObjectCommand) : ObjectWork :=
  commands.foldl attempt w

theorem attempt_of_perform_eq_ok {w w' : ObjectWork} {c : ObjectCommand} {x : ObjectItem}
    (h : w.perform c = .ok (x, w')) : w.attempt c = w' := by
  rw [attempt, h]

theorem attempt_of_perform_eq_error {w : ObjectWork} {c : ObjectCommand} {f : Fault}
    (h : w.perform c = .error f) : w.attempt c = w := by
  rw [attempt, h]

theorem becomes_attempt (w : ObjectWork) (c : ObjectCommand) :
    w.model.Becomes (w.attempt c).model := by
  cases h : w.perform c with
  | ok p =>
    rw [attempt_of_perform_eq_ok h]
    exact ObjectModel.becomes_of_perform h
  | error f =>
    rw [attempt_of_perform_eq_error h]
    exact .same

end ObjectWork

namespace ObjectModel

/-- A model as it comes about: by steps in building, refused ones included. -/
def Built (M : ObjectModel) : Prop :=
  ∃ commands, (ObjectWork.attemptAll {} commands).model = M

/-- The container of an object. -/
def containerOf (M : ObjectModel) (n : Nat) : Option Nat :=
  (M.object? n).bind (·.container?)

/-- A consistent model in which objects are also among the contents of their containers. -/
structure Housed (M : ObjectModel) : Prop extends Consistent M where
  kept : ∀ n m, M.containerOf m = some n → m ∈ M.contents n

variable {M M' : ObjectModel}

theorem Housed.mem_contents_iff (hM : M.Housed) {n m : Nat} :
    m ∈ M.contents n ↔ M.containerOf m = some n :=
  ⟨hM.held n m, hM.kept n m⟩

/-! ## Steps -/

theorem containerOf_create {c : ObjectClass} {attributes : Bindings} {k : Nat}
    (h : M.create c attributes = .ok (k, M')) : M'.containerOf = M.containerOf := by
  funext n
  rw [containerOf, containerOf, (object?_create h).1]
  split
  · rename_i heq
    have hnone : M.object? n = none := by
      rw [heq]
      exact List.getElem?_eq_none (Nat.le_refl _)
    rw [hnone]
    rfl
  · rfl

theorem containerOf_add {owner target : Nat} {r : String} (htarget : (M.object? target).isSome)
    (h : M.add owner r target = .ok M') :
    M'.containerOf = if M.isContainment owner r = true
      then Function.update M.containerOf target (some owner) else M.containerOf := by
  funext n
  rw [containerOf, (object?_add h).1]
  by_cases hc : M.isContainment owner r = true
  · rw [if_pos hc, Function.update_apply]
    split
    · rename_i heq
      obtain ⟨o, ho⟩ := Option.isSome_iff_exists.1 htarget
      rw [heq, ho]
      show (linkedObject _ owner target r target o).container? = some owner
      rw [linkedObject, if_pos ⟨hc, rfl⟩]
    · rename_i hne
      rw [containerOf]
      cases M.object? n with
      | none => rfl
      | some o =>
        show (linkedObject _ owner target r n o).container? = o.container?
        rw [linkedObject, if_neg fun hn => hne hn.2.symm]
  · rw [if_neg hc, containerOf]
    cases M.object? n with
    | none => rfl
    | some o =>
      show (linkedObject _ owner target r n o).container? = o.container?
      rw [linkedObject, if_neg fun hn => hc hn.1]

/-- What is contained cannot be contained again, and that is the only thing that is refused. -/
theorem add_eq_error_iff {owner target : Nat} {r : String} {f : Fault} :
    M.add owner r target = .error f ↔ M.isContainment owner r = true ∧
      ∃ p, M.containerOf target = some p ∧
        f = .alreadyContained (M.objectText target) (M.objectText p) := by
  unfold add containerOf
  simp only
  split
  · rename_i hc
    cases (M.object? target).bind (·.container?) with
    | none => simp
    | some p => simp [hc, eq_comm]
  · rename_i hc
    simp [hc]

theorem housed_empty : ObjectModel.Housed {} where
  toConsistent := consistent_empty
  kept := nofun

theorem Housed.add (hM : M.Housed) {owner target : Nat} {r : String}
    (htarget : (M.object? target).isSome) (h : M.add owner r target = .ok M') : M'.Housed where
  toConsistent := hM.toConsistent.add htarget h
  kept := by
    intro n m hm
    rw [(contents_add h n).mem_iff, List.mem_append]
    rw [containerOf_add htarget h] at hm
    split at hm
    · rename_i hc
      rw [Function.update_apply] at hm
      split at hm
      · rename_i heq
        obtain rfl := Option.some.inj hm
        rw [if_pos ⟨rfl, hc⟩, heq]
        exact .inr (List.mem_singleton_self target)
      · exact .inl (hM.kept n m hm)
    · exact .inl (hM.kept n m hm)

/-- Every step keeps contents and containers in agreement. -/
theorem Housed.becomes (hM : M.Housed) (h : M.Becomes M') : M'.Housed := by
  cases h with
  | same => exact hM
  | created made =>
    refine ⟨hM.toConsistent.becomes (.created made), fun n m hm => ?_⟩
    rw [containerOf_create made] at hm
    rw [contents_create made]
    exact hM.kept n m hm
  | added known linked => exact hM.add known linked
  | rooted known => exact ⟨hM.toConsistent.becomes (.rooted known), hM.kept⟩

theorem housed_attemptAll {w : ObjectWork} (hw : w.model.Housed) (commands : List ObjectCommand) :
    (w.attemptAll commands).model.Housed := by
  induction commands generalizing w with
  | nil => exact hw
  | cons c commands ih => exact ih (hw.becomes (w.becomes_attempt c))

theorem Built.housed (hM : M.Built) : M.Housed := by
  obtain ⟨commands, rfl⟩ := hM
  exact housed_attemptAll housed_empty commands

end ObjectModel

end GraphPattern
