import GraphPattern.Proofs.Preorder
import Mathlib.Logic.Relation

/-!
# GraphPattern — forests of objects

What has a container cannot be given another one, so contents and containers never disagree. That
alone does not make a forest: an object without a container may be put into what it contains, or
into itself, and from then on the way up from it has no end. This is the only way to spoil a forest.
Objects without a container stay roots of trees in any case, as what is on a circle is below none of
them.

## Results

* `ObjectModel.surfaces_update` — when giving an object a container leaves the way up to an end.
* `ObjectWork.forest_attempt` — a step keeps a forest exactly if it closes no circle.
* `ObjectWork.forest_attemptAll` — what holds after any steps, and which of them spoil the forest.
* `ObjectWork.not_surfaces_selfBoxed` — a box that was put into itself.
-/

namespace GraphPattern

namespace ObjectModel

/-- An object is in another one, directly or not, or is that object. -/
def Within (container? : Nat → Option Nat) : Nat → Nat → Prop :=
  Relation.ReflTransGen fun n p => container? n = some p

/-- The way up from an object, from container to container, comes to an end. -/
inductive Surfaces (container? : Nat → Option Nat) : Nat → Prop
  | free {n : Nat} (none : container? n = none) : Surfaces container? n
  | inside {n p : Nat} (held : container? n = some p) (above : Surfaces container? p) :
      Surfaces container? n

/-- The way up comes to an end everywhere. -/
def Forest (M : ObjectModel) : Prop :=
  ∀ n, Surfaces M.containerOf n

section Climbing

variable {container? : Nat → Option Nat} {owner target : Nat}

/-- What surfaces is not inside itself. -/
theorem Surfaces.not_transGen {n : Nat} (h : Surfaces container? n) :
    ¬ Relation.TransGen (fun n p => container? n = some p) n n := by
  induction h with
  | free none =>
    intro hcircle
    obtain ⟨p, hp, -⟩ := Relation.TransGen.head'_iff.1 hcircle
    rw [none] at hp
    exact nomatch hp
  | @inside n p held above ih =>
    intro hcircle
    -- the circle goes through the container as well
    obtain ⟨q, hq, hback⟩ := Relation.TransGen.head'_iff.1 hcircle
    rw [held] at hq
    obtain rfl := Option.some.inj hq
    exact ih (Relation.TransGen.tail' hback held)

/-- A container for what has none takes nothing away from the ways up. -/
theorem Within.update (hfree : container? target = none) {n m : Nat}
    (h : Within container? n m) : Within (Function.update container? target (some owner)) n m := by
  refine Relation.ReflTransGen.mono (fun a b hab => ?_) n m h
  have hne : a ≠ target := fun heq => by
    rw [heq, hfree] at hab
    exact nomatch hab
  rw [Function.update_of_ne hne]
  exact hab

theorem Surfaces.of_update (hfree : container? target = none) {n : Nat}
    (h : Surfaces (Function.update container? target (some owner)) n) : Surfaces container? n := by
  induction h with
  | @free n none =>
    have hne : n ≠ target := fun heq => by
      rw [heq, Function.update_self] at none
      exact nomatch none
    rw [Function.update_of_ne hne] at none
    exact .free none
  | @inside n p held above ih =>
    by_cases heq : n = target
    · exact .free (heq ▸ hfree)
    · rw [Function.update_of_ne heq] at held
      exact .inside held ih

/-- The way up from what is not inside the target stays as it is. -/
theorem Surfaces.update_of_not_within {n : Nat} (h : Surfaces container? n)
    (hout : ¬ Within container? n target) :
    Surfaces (Function.update container? target (some owner)) n := by
  induction h with
  | @free n none =>
    have hne : n ≠ target := fun heq => hout (heq ▸ Relation.ReflTransGen.refl)
    exact .free (by rw [Function.update_of_ne hne, none])
  | @inside n p held above ih =>
    have hne : n ≠ target := fun heq => hout (heq ▸ Relation.ReflTransGen.refl)
    refine .inside (by rw [Function.update_of_ne hne, held]) (ih fun hin => hout ?_)
    exact Relation.ReflTransGen.head held hin

/-- An object without a container can be given one unless the container is inside it. -/
theorem surfaces_update (hfree : container? target = none) :
    (∀ n, Surfaces (Function.update container? target (some owner)) n) ↔
      (∀ n, Surfaces container? n) ∧ ¬ Within container? owner target := by
  constructor
  · intro h
    refine ⟨fun n => (h n).of_update hfree, fun hin => (h target).not_transGen ?_⟩
    exact Relation.TransGen.head' (Function.update_self _ _ _) (Within.update hfree hin)
  · rintro ⟨h, hout⟩ n
    have howner : Surfaces (Function.update container? target (some owner)) owner :=
      (h owner).update_of_not_within hout
    induction h n with
    | @free n none =>
      by_cases heq : n = target
      · exact .inside (by rw [heq, Function.update_self]) howner
      · exact .free (by rw [Function.update_of_ne heq, none])
    | @inside n p held above ih =>
      have hne : n ≠ target := fun heq => by
        rw [heq, hfree] at held
        exact nomatch held
      exact .inside (by rw [Function.update_of_ne hne, held]) ih

end Climbing

/-! ## Walks below one object -/

variable {M : ObjectModel}

/-- The loop does not look at the roots. -/
theorem Runs.of_roots {roots : List Nat} {spec? : Option String} {stack given : List Nat}
    (h : ObjectModel.Runs { M with roots } spec? stack given) : M.Runs spec? stack given := by
  induction h with
  | done => exact .done
  | take _ ih => exact .take ih

/-- The walk below an object without a container ends. -/
theorem Consistent.exists_runs (hM : M.Consistent) {r : Nat} (hr : (M.object? r).isSome)
    (hfree : M.containerOf r = none) (spec? : Option String) : ∃ given, M.Runs spec? [r] given := by
  have hconsistent : ObjectModel.Consistent { M with roots := [r] } := by
    refine ⟨fun x hx => ?_, hM.target, hM.once, hM.held⟩
    rw [List.mem_singleton.1 hx]
    exact hr
  have hrooted : ObjectModel.Rooted { M with roots := [r] } := by
    refine ⟨List.nodup_singleton r, fun x hx => ?_⟩
    rw [List.mem_singleton.1 hx]
    exact hfree
  exact ⟨_, (runs_allObjects hconsistent hrooted spec?).of_roots⟩

end ObjectModel

namespace ObjectWork

open ObjectModel

/-- A step puts an object without a container into itself or into something that is inside it. -/
def Closes (w : ObjectWork) : ObjectCommand → Prop
  | .add owner r target => ∃ n m, w.find owner = .ok n ∧ w.find target = .ok m ∧
      w.model.isContainment n r = true ∧ w.model.containerOf m = none ∧
      Within w.model.containerOf n m
  | _ => False

/-- What adding does, and when it is refused. -/
theorem perform_add {w : ObjectWork} {owner target : Int} {n m : Nat} (hn : w.find owner = .ok n)
    (hm : w.find target = .ok m) (r : String) : w.perform (.add owner r target) =
      (w.model.add n r m).map fun model => (.linked m, { w with model }) := by
  simp only [perform, hn, hm, bind, Except.bind]
  cases w.model.add n r m <;> rfl

theorem find_of_perform_add {w w' : ObjectWork} {owner target : Int} {r : String} {x : ObjectItem}
    (h : w.perform (.add owner r target) = .ok (x, w')) : ∃ n m, w.find owner = .ok n ∧
      w.find target = .ok m ∧ w.model.add n r m = .ok w'.model := by
  cases performs_of_perform h with
  | added holder held linked => exact ⟨_, _, holder, held, linked⟩

/-- No other step gives containers. -/
theorem containerOf_attempt {w : ObjectWork} {c : ObjectCommand}
    (hc : ∀ owner r target, c ≠ .add owner r target) :
    (w.attempt c).model.containerOf = w.model.containerOf := by
  cases h : w.perform c with
  | error f => rw [attempt_of_perform_eq_error h]
  | ok p =>
    obtain ⟨x, w'⟩ := p
    rw [attempt_of_perform_eq_ok h]
    cases performs_of_perform h with
    | defined => rfl
    | created known made => exact containerOf_create made
    | added => exact absurd rfl (hc _ _ _)
    | rooted => rfl

theorem closes_add_iff {w : ObjectWork} {owner target : Int} {n m : Nat}
    (hn : w.find owner = .ok n) (hm : w.find target = .ok m) (r : String) :
    w.Closes (.add owner r target) ↔ w.model.isContainment n r = true ∧
      w.model.containerOf m = none ∧ Within w.model.containerOf n m := by
  constructor
  · rintro ⟨n', m', hn', hm', hclose⟩
    rw [hn] at hn'
    rw [hm] at hm'
    obtain rfl := Except.ok.inj hn'
    obtain rfl := Except.ok.inj hm'
    exact hclose
  · exact fun hclose => ⟨n, m, hn, hm, hclose⟩

/-- When adding is refused: what is contained cannot be contained again. -/
theorem perform_add_eq_error_iff {w : ObjectWork} {owner target : Int} {n m : Nat}
    (hn : w.find owner = .ok n) (hm : w.find target = .ok m) {r : String} {f : Fault} :
    w.perform (.add owner r target) = .error f ↔ w.model.isContainment n r = true ∧
      ∃ p, w.model.containerOf m = some p ∧
        f = .alreadyContained (w.model.objectText m) (w.model.objectText p) := by
  rw [← add_eq_error_iff, perform_add hn hm]
  cases w.model.add n r m with
  | ok M' => exact ⟨nofun, nofun⟩
  | error g =>
    show (Except.error g : Except Fault _) = .error f ↔ _
    rw [Except.error.injEq, Except.error.injEq]

/-- What is refused closes no circle. -/
theorem not_closes_of_perform_eq_error {w : ObjectWork} {c : ObjectCommand} {f : Fault}
    (h : w.perform c = .error f) : ¬ w.Closes c := by
  cases c with
  | add owner r target =>
    rintro ⟨n, m, hn, hm, -, hfree, -⟩
    obtain ⟨-, p, hp, -⟩ := (perform_add_eq_error_iff hn hm).1 h
    rw [hfree] at hp
    exact nomatch hp
  | defineClass name supers containments => exact id
  | create name attributes => exact id
  | addRoot n => exact id

/-- A step keeps a forest exactly if it closes no circle, and makes no forest of what was none. -/
theorem forest_attempt (w : ObjectWork) (c : ObjectCommand) :
    (w.attempt c).model.Forest ↔ w.model.Forest ∧ ¬ w.Closes c := by
  cases hc : w.perform c with
  | error f =>
    rw [attempt_of_perform_eq_error hc]
    exact (and_iff_left (not_closes_of_perform_eq_error hc)).symm
  | ok p =>
    obtain ⟨x, w'⟩ := p
    cases c with
    | add owner r target =>
      obtain ⟨n, m, hn, hm, hadd⟩ := find_of_perform_add hc
      rw [attempt_of_perform_eq_ok hc, closes_add_iff hn hm, Forest,
        containerOf_add (isSome_of_find hm) hadd]
      split
      · rename_i hcontains
        have hfree := (object?_add hadd).2.2 hcontains
        rw [surfaces_update hfree]
        exact and_congr_right fun _ =>
          not_congr ⟨fun hin => ⟨hcontains, hfree, hin⟩, fun hclose => hclose.2.2⟩
      · rename_i hcontains
        exact (and_iff_left fun hclose => hcontains hclose.1).symm
    | defineClass name supers containments =>
      rw [Forest, containerOf_attempt fun _ _ _ => ObjectCommand.noConfusion]
      exact (and_iff_left id).symm
    | create name attributes =>
      rw [Forest, containerOf_attempt fun _ _ _ => ObjectCommand.noConfusion]
      exact (and_iff_left id).symm
    | addRoot n =>
      rw [Forest, containerOf_attempt fun _ _ _ => ObjectCommand.noConfusion]
      exact (and_iff_left id).symm

/-- Some steps keep a forest exactly if none of them closes a circle. -/
theorem forest_attemptAll_iff (w : ObjectWork) (commands : List ObjectCommand) :
    (w.attemptAll commands).model.Forest ↔ w.model.Forest ∧
      ∀ before c after, commands = before ++ c :: after → ¬ (w.attemptAll before).Closes c := by
  induction commands generalizing w with
  | nil => exact (and_iff_left fun before c after h => by simp at h).symm
  | cons c commands ih =>
    rw [show w.attemptAll (c :: commands) = (w.attempt c).attemptAll commands from rfl, ih,
      forest_attempt, and_assoc]
    refine and_congr_right fun _ =>
      ⟨?_, fun h => ⟨h [] c commands rfl, fun before c' after hc' => ?_⟩⟩
    · rintro ⟨hfirst, hrest⟩ before c' after hc'
      cases before with
      | nil =>
        obtain ⟨rfl, -⟩ := List.cons.inj hc'
        exact hfirst
      | cons b before =>
        obtain ⟨rfl, htail⟩ := List.cons.inj hc'
        exact hrest before c' after htail
    · exact h (c :: before) c' after (congrArg (c :: ·) hc')

/-- After any steps, contents and containers agree, only what is contained is refused to be
contained, walks below objects without a container end, and the objects are a forest unless a step
has put one of them into itself or into something inside it. -/
theorem forest_attemptAll (commands : List ObjectCommand) :
    let w := attemptAll {} commands
    (∀ n, (w.model.contents n).Nodup) ∧
      (∀ n m, m ∈ w.model.contents n ↔ w.model.containerOf m = some n) ∧
      (∀ owner r target n m f, w.find owner = .ok n → w.find target = .ok m →
        ((w.perform (.add owner r target) = .error f ∧ w.attempt (.add owner r target) = w) ↔
          w.model.isContainment n r = true ∧ ∃ p, w.model.containerOf m = some p ∧
            f = .alreadyContained (w.model.objectText m) (w.model.objectText p))) ∧
      (∀ r, (w.model.object? r).isSome → w.model.containerOf r = none →
        ∀ spec?, ∃ given, w.model.Runs spec? [r] given) ∧
      (w.model.Forest ↔
        ∀ before c after, commands = before ++ c :: after → ¬ (attemptAll {} before).Closes c) := by
  intro w
  have hM : w.model.Housed := Built.housed ⟨commands, rfl⟩
  refine ⟨hM.once, fun n m => hM.mem_contents_iff, ?_, ?_, ?_⟩
  · intro owner r target n m f hn hm
    rw [← perform_add_eq_error_iff hn hm]
    exact and_iff_left_of_imp attempt_of_perform_eq_error
  · exact fun r hr hfree spec? => hM.exists_runs hr hfree spec?
  · have hempty : ObjectModel.Forest {} := fun n => .free rfl
    exact (forest_attemptAll_iff {} commands).trans (and_iff_right hempty)

/-- A box that is put into itself. -/
def selfBoxed : List ObjectCommand :=
  [.defineClass "Box" [] ["items"], .create "Box" [], .add 0 "items" 0]

/-- No step is refused, but the way up from the box has no end. -/
theorem not_surfaces_selfBoxed :
    performAll {} selfBoxed = .ok (attemptAll {} selfBoxed) ∧
      (attemptAll {} selfBoxed).model.containerOf 0 = some 0 ∧
      ¬ Surfaces (attemptAll {} selfBoxed).model.containerOf 0 := by
  have hheld : (attemptAll {} selfBoxed).model.containerOf 0 = some 0 := rfl
  exact ⟨rfl, hheld, fun h => h.not_transGen (.single hheld)⟩

end ObjectWork

end GraphPattern
