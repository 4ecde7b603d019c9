import GraphPattern.Proofs.World
import GraphPattern.Model.Building

/-!
# GraphPattern — object models as worlds

Objects have at most one container, so what hangs below uncontained roots is a forest. The walk
through it visits every object once, the roots in their order and each object before its contents.
An object model whose references lead nowhere else is a world: candidates are the objects below the
roots, and what is linked is referred to.

## Results

* `ObjectModel.consistent_of_build` — models that are built are consistent.
* `ObjectModel.nodup_walk`, `ObjectModel.mem_walk` — the walk visits what is below the roots, each
  object once.
* `ObjectModel.serves` — the containment engine serves the world of an object model.
-/

namespace GraphPattern

-- ---------------------------------------------------------------------------
-- Steps
-- ---------------------------------------------------------------------------

/-- What a step makes, if it succeeds, and what is there then. -/
inductive ObjectWork.Performs (w : ObjectWork) :
    ObjectCommand → ObjectItem → ObjectWork → Prop
  | defined {name : String} {supers containments : List String} {classes : List ObjectClass}
      (known : supers.mapM w.lookup = .ok classes) :
      Performs w (.defineClass name supers containments)
        (.cls (ObjectClass.define name classes containments))
        { w with classes := (name, ObjectClass.define name classes containments) :: w.classes }
  | created {name : String} {attributes : Bindings} {cls : ObjectClass} {n : Nat} {M : ObjectModel}
      (known : w.lookup name = .ok cls) (made : w.model.create cls attributes = .ok (n, M)) :
      Performs w (.create name attributes) (.created n) { w with model := M }
  | added {owner target : Int} {r : String} {n m : Nat} {M : ObjectModel}
      (holder : w.find owner = .ok n) (held : w.find target = .ok m)
      (linked : w.model.add n r m = .ok M) :
      Performs w (.add owner r target) (.linked m) { w with model := M }
  | rooted {n : Int} {m : Nat} (known : w.find n = .ok m) :
      Performs w (.addRoot n) (.linked m) { w with model := w.model.addRoot m }

theorem ObjectWork.performs_of_perform {w w' : ObjectWork} {c : ObjectCommand} {x : ObjectItem}
    (h : w.perform c = .ok (x, w')) : w.Performs c x w' := by
  -- the command's own checks passed, which is what each constructor records
  cases c with
  | defineClass name supers containments =>
    simp only [perform, bind, Except.bind] at h
    split at h
    · cases h
    · rename_i hclasses
      cases h
      exact .defined hclasses
  | create name attributes =>
    simp only [perform, bind, Except.bind] at h
    split at h
    · cases h
    · rename_i hcls
      split at h
      · cases h
      · rename_i hmade
        cases h
        exact .created hcls hmade
  | add owner r target =>
    simp only [perform, bind, Except.bind] at h
    split at h
    · cases h
    · rename_i hholder
      split at h
      · cases h
      · rename_i hheld
        split at h
        · cases h
        · rename_i hlinked
          cases h
          exact .added hholder hheld hlinked
  | addRoot n =>
    simp only [perform, bind, Except.bind] at h
    split at h
    · cases h
    · rename_i hknown
      cases h
      exact .rooted hknown

namespace ObjectModel

/-- References lead to objects, and what an object contains has it as its container. -/
structure Consistent (M : ObjectModel) : Prop where
  root : ∀ r ∈ M.roots, (M.object? r).isSome
  target : ∀ n o, M.object? n = some o → ∀ m ∈ o.targets none, (M.object? m).isSome
  once : ∀ n, (M.contents n).Nodup
  held : ∀ n m, m ∈ M.contents n → (M.object? m).bind (·.container?) = some n

/-- What the roots contain, directly or not, the roots included. -/
inductive Below (M : ObjectModel) : Nat → Prop
  | root {n : Nat} (mem : n ∈ M.roots) : Below M n
  | inside {n m : Nat} (outer : Below M n) (mem : m ∈ M.contents n) : Below M m

/-- A model as its walk needs it: roots are told apart, and nothing contains them. -/
structure Rooted (M : ObjectModel) : Prop where
  distinct : M.roots.Nodup
  uncontained : ∀ r ∈ M.roots, (M.object? r).bind (·.container?) = none

variable {M : ObjectModel}

-- ---------------------------------------------------------------------------
-- The walk
-- ---------------------------------------------------------------------------

theorem contents_subset {n : Nat} {o : ModelObject} (h : M.object? n = some o) {m : Nat}
    (hm : m ∈ M.contents n) : m ∈ o.targets none := by
  rw [contents, h] at hm
  obtain ⟨r, hr, hmr⟩ := List.mem_flatMap.1 (show m ∈ o.contents from hm)
  exact List.mem_flatMap.2 ⟨r, (List.mem_filter.1 hr).1, hmr⟩

theorem Consistent.isSome_of_contents (hM : M.Consistent) {n m : Nat} (hm : m ∈ M.contents n) :
    (M.object? m).isSome := by
  cases hn : M.object? n with
  | none =>
    rw [contents, hn] at hm
    cases hm
  | some o => exact hM.target n o hn m (contents_subset hn hm)

theorem Consistent.isSome_of_below (hM : M.Consistent) {n : Nat} (h : M.Below n) :
    (M.object? n).isSome := by
  cases h with
  | root mem => exact hM.root n mem
  | inside outer mem => exact hM.isSome_of_contents mem

/-- Where the walk stands: what it has visited, and what is next. -/
structure Underway (M : ObjectModel) (visited stack : List Nat) : Prop where
  nodup : (visited ++ stack).Nodup
  below : ∀ m ∈ visited ++ stack, M.Below m
  /-- What was put on the stack is a root, or its container was visited. -/
  held : ∀ m ∈ visited ++ stack, m ∈ M.roots ∨ ∃ n ∈ visited, m ∈ M.contents n
  roots : ∀ r ∈ M.roots, r ∈ visited ++ stack
  closed : ∀ n ∈ visited, ∀ m ∈ M.contents n, m ∈ visited ++ stack

theorem Rooted.underway (hM : M.Rooted) : M.Underway [] M.roots where
  nodup := hM.distinct
  below := fun m hm => .root hm
  held := fun m hm => .inl hm
  roots := fun r hr => hr
  closed := by intro n hn; cases hn

/-- An object is visited, and its contents are put on the stack. -/
theorem Underway.step (hM : M.Consistent) (hr : M.Rooted) {visited stack : List Nat} {n : Nat}
    (h : M.Underway visited (n :: stack)) :
    M.Underway (visited ++ [n]) (M.contents n ++ stack) := by
  have hmem : ∀ {m}, m ∈ (visited ++ [n]) ++ (M.contents n ++ stack) ↔
      m ∈ visited ++ n :: stack ∨ m ∈ M.contents n := by
    intro m
    simp only [List.mem_append, List.mem_cons, List.not_mem_nil, or_false]
    grind
  have hn : n ∉ visited := by
    intro hv
    exact (List.nodup_append.1 h.nodup).2.2 n hv n (by simp) rfl
  -- the contents come up for the first time, as nothing else contains them
  have hnew : ∀ m ∈ M.contents n, m ∉ visited ++ n :: stack := by
    intro m hm hold
    have hcontainer := hM.held n m hm
    rcases h.held m hold with hroot | ⟨p, hp, hmp⟩
    · rw [hr.uncontained m hroot] at hcontainer
      cases hcontainer
    · rw [hM.held p m hmp] at hcontainer
      exact hn (Option.some.inj hcontainer ▸ hp)
  refine ⟨?_, ?_, ?_, ?_, ?_⟩
  · have hperm : ((visited ++ [n]) ++ (M.contents n ++ stack)).Perm
        (M.contents n ++ (visited ++ n :: stack)) := by
      have hsplit : visited ++ n :: stack = (visited ++ [n]) ++ stack := by simp
      rw [hsplit]
      exact List.perm_append_comm_assoc _ _ _
    rw [hperm.nodup_iff]
    exact List.nodup_append.2 ⟨hM.once n, h.nodup, fun a ha b hb heq => hnew a ha (heq ▸ hb)⟩
  · intro m hm
    rcases hmem.1 hm with hm | hm
    · exact h.below m hm
    · exact .inside (h.below n (by simp)) hm
  · intro m hm
    rcases hmem.1 hm with hm | hm
    · rcases h.held m hm with hroot | ⟨p, hp, hmp⟩
      · exact .inl hroot
      · exact .inr ⟨p, List.mem_append_left _ hp, hmp⟩
    · exact .inr ⟨n, by simp, hm⟩
  · exact fun r hr => hmem.2 (.inl (h.roots r hr))
  · intro p hp m hm
    rcases List.mem_append.1 hp with hp | hp
    · exact hmem.2 (.inl (h.closed p hp m hm))
    · obtain rfl := List.mem_singleton.1 hp
      exact hmem.2 (.inr hm)

/-- When nothing is left to visit, everything below the roots was visited. -/
theorem Underway.complete {visited : List Nat} (h : M.Underway visited []) {n : Nat}
    (hn : M.Below n) : n ∈ visited := by
  induction hn with
  | root mem => simpa using h.roots _ mem
  | inside _ mem ih => simpa using h.closed _ ih _ mem

theorem Underway.visit (hM : M.Consistent) (hr : M.Rooted) {limit : Nat}
    {visited stack : List Nat} (h : M.Underway visited stack)
    (hlimit : M.objects.length ≤ visited.length + limit) :
    (visited ++ M.visit limit stack).Nodup ∧
      ∀ n, n ∈ visited ++ M.visit limit stack ↔ M.Below n := by
  -- on the limit, which the objects not visited yet stay below
  induction limit generalizing visited stack with
  -- all objects are visited, so nothing is left to visit
  | zero =>
    have hlt : ∀ m ∈ visited ++ stack, m ∈ List.range M.objects.length := by
      intro m hm
      obtain ⟨o, ho⟩ := Option.isSome_iff_exists.1 (hM.isSome_of_below (h.below m hm))
      exact List.mem_range.2 (List.getElem?_eq_some_iff.1 ho).1
    have hlen := h.nodup.length_le_of_subset hlt
    rw [List.length_append, List.length_range] at hlen
    obtain rfl : stack = [] := List.eq_nil_of_length_eq_zero (by omega)
    rw [ObjectModel.visit]
    exact ⟨h.nodup, fun n => ⟨h.below n, fun hn => by simpa using h.complete hn⟩⟩
  | succ limit ih =>
    cases stack with
    | nil =>
      have hvisit : M.visit (limit + 1) [] = [] := rfl
      rw [hvisit]
      exact ⟨h.nodup, fun n => ⟨h.below n, fun hn => by simpa using h.complete hn⟩⟩
    | cons n stack =>
      have hstep := ih (h.step hM hr) (by rw [List.length_append, List.length_singleton]; omega)
      rw [List.append_assoc, List.singleton_append] at hstep
      exact hstep

theorem walk_spec (hM : M.Consistent) (hr : M.Rooted) :
    M.walk.Nodup ∧ ∀ n, n ∈ M.walk ↔ M.Below n := by
  cases hroots : M.roots with
  -- without roots nothing is below one
  | nil =>
    have hnone : ∀ n, ¬ M.Below n := by
      intro n hn
      induction hn with
      | root mem => rw [hroots] at mem; cases mem
      | inside _ _ ih => exact ih
    have hwalk : M.walk = [] := by
      rw [walk, hroots]
      rfl
    rw [hwalk]
    exact ⟨List.nodup_nil, fun n => ⟨(by intro h; cases h), fun h => absurd h (hnone n)⟩⟩
  | cons r roots =>
    have hlimit : M.objects.length ≤
        [].length (α := Nat) + (M.roots.length * M.objects.length + patience) := by
      rw [hroots, List.length_cons, Nat.add_mul, Nat.one_mul]
      omega
    exact hr.underway.visit hM hr hlimit

/-- The walk visits every object once. -/
theorem nodup_walk (hM : M.Consistent) (hr : M.Rooted) : M.walk.Nodup :=
  (walk_spec hM hr).1

/-- The walk visits what is below the roots. -/
theorem mem_walk (hM : M.Consistent) (hr : M.Rooted) {n : Nat} : n ∈ M.walk ↔ M.Below n :=
  (walk_spec hM hr).2 n

-- ---------------------------------------------------------------------------
-- Serving the world of a model
-- ---------------------------------------------------------------------------

/-- Every target of a reference is one of the objects of the model. -/
def Closed (M : ObjectModel) : Prop :=
  ∀ n o, M.object? n = some o → ∀ m ∈ o.targets none, m ∈ M.allObjects none

/-- What an object model offers to patterns. -/
def world (M : ObjectModel) : World where
  element := fun x => ∃ n o, x = .object n ∧ M.object? n = some o
  candidate := fun x => ∃ n, x = .object n ∧ M.Below n
  typed := fun x t => ∀ n o, x = .object n → M.object? n = some o →
    typeMatches o.cls.lineage t = true
  edge := fun _ _ => False
  ends := fun _ _ => .null
  linked := fun t u v => ∃ n m o, u = .object n ∧ v = .object m ∧ M.object? n = some o ∧
    m ∈ o.targets t

theorem targets_subset {o : ModelObject} {t : Option String} {m : Nat} (h : m ∈ o.targets t) :
    m ∈ o.targets none := by
  cases t with
  | none => exact h
  | some name =>
    have h : m ∈ (o.references.lookup name).getD [] := h
    cases hl : o.references.lookup name with
    | none => rw [hl] at h; cases h
    | some ms =>
      rw [hl] at h
      refine List.mem_flatMap.2 ⟨(name, ms), ?_, h⟩
      obtain ⟨l₁, l₂, heq, -⟩ := List.lookup_eq_some_iff.1 hl
      rw [heq]
      simp

theorem mem_allObjects {t : Option String} {n : Nat} :
    n ∈ M.allObjects t ↔
      n ∈ M.walk ∧ ∃ o, M.object? n = some o ∧ typeMatches o.cls.lineage t = true := by
  rw [allObjects, List.mem_filter, objectMatches, Option.any_eq_true]

/-- The objects of a model are those below its roots. -/
theorem mem_allObjects_none (hM : M.Consistent) (hr : M.Rooted) {n : Nat} :
    n ∈ M.allObjects none ↔ M.Below n := by
  rw [mem_allObjects, mem_walk hM hr]
  constructor
  · exact And.left
  · intro h
    obtain ⟨o, ho⟩ := Option.isSome_iff_exists.1 (hM.isSome_of_below h)
    exact ⟨h, o, ho, rfl⟩

theorem typed_object_iff {n : Nat} {o : ModelObject} (ho : M.object? n = some o)
    {t : Option String} : M.world.typed (.object n) t ↔ typeMatches o.cls.lineage t = true := by
  constructor
  · intro h
    exact h n o rfl ho
  · intro ht n' o' hn' ho'
    cases hn'
    rw [ho] at ho'
    cases ho'
    exact ht

/-- The objects of a type are the candidates that match it. -/
theorem mem_instances_iff (hM : M.Consistent) (hr : M.Rooted) {t : Option String} {v : Value} :
    v ∈ (M.allObjects t).map .object ↔ M.world.candidate v ∧ M.world.typed v t := by
  rw [List.mem_map]
  constructor
  · rintro ⟨n, hn, rfl⟩
    obtain ⟨hwalk, o, ho, ht⟩ := mem_allObjects.1 hn
    exact ⟨⟨n, rfl, (mem_walk hM hr).1 hwalk⟩, (typed_object_iff ho).2 ht⟩
  · rintro ⟨⟨n, rfl, hn⟩, ht⟩
    obtain ⟨o, ho⟩ := Option.isSome_iff_exists.1 (hM.isSome_of_below hn)
    exact ⟨n, mem_allObjects.2 ⟨(mem_walk hM hr).2 hn, o, ho, (typed_object_iff ho).1 ht⟩, rfl⟩

/-- The containment engine serves the world of an object model. -/
theorem serves (hM : M.Consistent) (hr : M.Rooted) (hc : M.Closed) {s : Setting}
    (hs : s.engine = .containment) (hm : s.model = .objects M) : Serves s M.world where
  element_of_candidate := by
    rintro v ⟨n, rfl, hn⟩
    obtain ⟨o, ho⟩ := Option.isSome_iff_exists.1 (hM.isSome_of_below hn)
    exact ⟨n, o, rfl, ho⟩
  settled := by
    rintro v k (⟨n, o, rfl, -⟩ | h)
    · rfl
    · exact absurd h id
  present := by
    rintro v ⟨n, o, rfl, -⟩
    rfl
  same := by
    rintro u v ⟨n, o, rfl, -⟩ ⟨m, p, rfl, -⟩
    exact decide_eq_true_iff
  typed_void := by
    intro v
    exact ⟨fun n x _ _ => rfl, fun n x _ _ => rfl⟩
  edge_none := fun v t h => h
  candidate_of_along := by
    rintro t d u v hd - h
    -- containment alone is followed outwards only
    have hd : d = .out := hd.resolve_right (by rw [hs]; exact Engine.noConfusion)
    subst hd
    obtain ⟨n, m, o, rfl, rfl, ho, hmem⟩ := h
    exact ⟨m, rfl, (mem_allObjects_none hM hr).1 (hc n o ho m (targets_subset hmem))⟩
  candidate_of_ends := fun v d h => absurd h id
  instances := by
    intro t
    refine ⟨(M.allObjects t).map .object, ?_, ?_, fun v => mem_instances_iff hM hr⟩
    · rw [hs, hm]
      simp only [Engine.instances, TypeMark.select, TypeMark.spec?_ofName?, Supply.ofSearch]
    · refine List.pairwise_map.2 (((nodup_walk hM hr).sublist List.filter_sublist).imp ?_)
      exact fun hne heq => hne (Value.object.inj heq)
  isInstance := by
    rintro v t ⟨n, o, rfl, ho⟩
    refine ⟨typeMatches o.cls.lineage t, ?_, (typed_object_iff ho).symm⟩
    rw [hs, hm]
    simp only [Engine.isInstance, Model.element?, ho, Option.map_some, TypeMark.spec?_ofName?]
    rfl
  neighbours := by
    rintro u t d ⟨n, o, rfl, ho⟩ hd
    have hd : d = .out := hd.resolve_right (by rw [hs]; exact Engine.noConfusion)
    subst hd
    refine ⟨(o.targets t).map .object, ?_, ?_⟩
    · rw [hs, hm]
      cases t <;> simp only [Engine.neighbours, Model.references, TypeMark.ofName?,
        ObjectModel.references, ho, bind, Except.bind, pure, Except.pure]
    · intro v
      rw [List.mem_map]
      constructor
      · rintro ⟨m, hm, rfl⟩
        exact ⟨n, m, o, rfl, rfl, ho, hm⟩
      · rintro ⟨n', m, o', hn', rfl, ho', hm⟩
        cases hn'
        rw [ho] at ho'
        cases ho'
        exact ⟨m, hm, rfl⟩
  -- this engine has no identity of edges, so nothing is asked of them
  adjacent := by
    intro hid
    rw [hs] at hid
    cases hid
  edgeEnd := by
    intro hid
    rw [hs] at hid
    cases hid

-- ---------------------------------------------------------------------------
-- Building
-- ---------------------------------------------------------------------------

/-- A target that is added is one more target of the references that are kept. -/
theorem addTarget_perm (p : String → Bool) (r : String) (m : Nat)
    (refs : List (String × List Nat)) :
    (((ModelObject.addTarget r m refs).filter fun x => p x.1).flatMap (·.2)).Perm
      (((refs.filter fun x => p x.1).flatMap (·.2)) ++ if p r then [m] else []) := by
  -- along the references: the target joins the reference of its name, or a new one at the end
  induction refs with
  | nil => cases hp : p r <;> simp [ModelObject.addTarget, hp]
  | cons x refs ih =>
    obtain ⟨name, ms⟩ := x
    rw [ModelObject.addTarget]
    split
    · rename_i hname
      subst hname
      cases hp : p name with
      | false => simp [hp]
      | true =>
        simp only [List.filter_cons, hp, if_true, List.flatMap_cons, List.append_assoc]
        exact List.Perm.append_left _ List.perm_append_comm
    · simp only [List.filter_cons]
      split
      · simp only [List.flatMap_cons, List.append_assoc]
        exact ih.append_left _
      · exact ih

/-- An object after a target was added to a reference of an object. -/
def linkedObject (contained : Bool) (owner target : Nat) (r : String) (n : Nat) (o : ModelObject) :
    ModelObject :=
  { o with
    container? := if contained ∧ target = n then some owner else o.container?
    references := if owner = n then ModelObject.addTarget r target o.references
      else o.references }

theorem object?_add {M' : ObjectModel} {owner target : Nat} {r : String}
    (h : M.add owner r target = .ok M') :
    (∀ n, M'.object? n =
      (M.object? n).map (linkedObject (M.isContainment owner r) owner target r n)) ∧
      M'.roots = M.roots ∧
      (M.isContainment owner r = true → (M.object? target).bind (·.container?) = none) := by
  unfold add at h
  simp only at h
  -- a containment sets the target's container too, and is refused where it has one
  split at h
  · rename_i hcont
    split at h
    · cases h
    · rename_i hfree
      cases h
      refine ⟨fun n => ?_, rfl, fun _ => hfree⟩
      show ((M.objects.modify target _).modify owner _)[n]? = (M.objects[n]?).map _
      rw [List.getElem?_modify, List.getElem?_modify]
      cases M.objects[n]? with
      | none => rfl
      | some o =>
        unfold linkedObject
        rw [hcont]
        by_cases ht : target = n <;> by_cases ho : owner = n <;> simp [ht, ho]
  · rename_i hcont
    cases h
    refine ⟨fun n => ?_, rfl, fun hc => absurd hc hcont⟩
    show (M.objects.modify owner _)[n]? = (M.objects[n]?).map _
    rw [List.getElem?_modify]
    cases M.objects[n]? with
    | none => rfl
    | some o =>
      unfold linkedObject
      rw [Bool.eq_false_iff.2 hcont]
      by_cases ho : owner = n <;> simp [ho]

theorem contents_of_object? {n : Nat} {o : ModelObject} (h : M.object? n = some o) :
    M.contents n = o.contents := by
  rw [contents, h]
  rfl

theorem linkedObject_contents (contained : Bool) (owner target : Nat) (r : String) (n : Nat)
    (o : ModelObject) : (linkedObject contained owner target r n o).contents.Perm
      (o.contents ++ if owner = n ∧ o.cls.containments.contains r = true then [target] else []) := by
  unfold ModelObject.contents linkedObject
  by_cases ho : owner = n
  · simp only [ho, if_true, true_and]
    exact addTarget_perm _ r target o.references
  · simp [ho]

theorem linkedObject_targets (contained : Bool) (owner target : Nat) (r : String) (n : Nat)
    (o : ModelObject) {m : Nat} (h : m ∈ (linkedObject contained owner target r n o).targets none) :
    m ∈ o.targets none ∨ m = target := by
  unfold ModelObject.targets linkedObject at h
  simp only at h
  split at h
  · have hperm := addTarget_perm (fun _ => true) r target o.references
    simp only [List.filter_eq_self.2, implies_true, if_true] at hperm
    rcases List.mem_append.1 (hperm.mem_iff.1 h) with h | h
    · exact .inl h
    · exact .inr (List.mem_singleton.1 h)
  · exact .inl h

theorem consistent_empty : ObjectModel.Consistent {} where
  root := by intro r hr; cases hr
  target := by intro n o h; cases h
  once := fun n => List.nodup_nil
  held := by intro n m h; cases h

/-- What is contained after a target was added was contained before, or is the target. -/
theorem contents_add {M' : ObjectModel} {owner target : Nat} {r : String}
    (h : M.add owner r target = .ok M') (n : Nat) : (M'.contents n).Perm
      (M.contents n ++ if owner = n ∧ M.isContainment owner r = true then [target] else []) := by
  have hobject := (object?_add h).1 n
  cases hn : M.object? n with
  | none =>
    -- without an object there is no class that could make the reference a containment
    have hno : ¬ (owner = n ∧ M.isContainment owner r = true) := by
      rintro ⟨rfl, hc⟩
      rw [isContainment, hn] at hc
      cases hc
    rw [contents, contents, hobject, hn, if_neg hno]
    exact .refl _
  | some o =>
    have hn' : M'.object? n =
        some (linkedObject (M.isContainment owner r) owner target r n o) := by
      rw [hobject, hn]
      rfl
    have hc : (owner = n ∧ o.cls.containments.contains r = true) ↔
        (owner = n ∧ M.isContainment owner r = true) := by
      refine and_congr_right fun heq => ?_
      rw [isContainment, heq, hn]
      exact Iff.rfl
    rw [contents_of_object? hn, contents_of_object? hn']
    simpa only [hc] using linkedObject_contents (M.isContainment owner r) owner target r n o

theorem Consistent.add (hM : M.Consistent) {M' : ObjectModel} {owner target : Nat} {r : String}
    (htarget : (M.object? target).isSome) (h : M.add owner r target = .ok M') :
    M'.Consistent := by
  obtain ⟨hobject, hroots, hfree⟩ := object?_add h
  have hsome : ∀ n, (M'.object? n).isSome = (M.object? n).isSome := by
    intro n
    rw [hobject, Option.isSome_map]
  refine ⟨?_, ?_, ?_, ?_⟩
  · intro x hx
    rw [hsome]
    exact hM.root x (hroots ▸ hx)
  · intro n o ho m hm
    rw [hobject] at ho
    obtain ⟨o', ho', rfl⟩ := Option.map_eq_some_iff.1 ho
    rw [hsome]
    rcases linkedObject_targets _ _ _ _ _ _ hm with hm | rfl
    · exact hM.target n o' ho' m hm
    · exact htarget
  · intro n
    rw [(contents_add h n).nodup_iff]
    split
    · rename_i hc
      refine List.nodup_append.2 ⟨hM.once n, by simp, ?_⟩
      rintro a ha b hb rfl
      obtain rfl := List.mem_singleton.1 hb
      have hheld := hM.held n a ha
      rw [hfree hc.2] at hheld
      cases hheld
    · rw [List.append_nil]
      exact hM.once n
  · intro n m hm
    rw [hobject]
    have hm' := (contents_add h n).mem_iff.1 hm
    rcases List.mem_append.1 hm' with hm' | hm'
    · obtain ⟨o, ho, hcon⟩ := Option.bind_eq_some_iff.1 (hM.held n m hm')
      rw [ho]
      show (linkedObject _ owner target r m o).container? = some n
      unfold linkedObject
      split
      · -- the target was free before
        rename_i hc
        have hnone := hfree hc.1
        rw [hc.2, ho] at hnone
        have hnone : o.container? = none := hnone
        rw [hcon] at hnone
        cases hnone
      · exact hcon
    · split at hm'
      · rename_i hc
        obtain rfl := List.mem_singleton.1 hm'
        obtain ⟨o, ho⟩ := Option.isSome_iff_exists.1 htarget
        rw [ho]
        show (linkedObject _ owner m r m o).container? = some n
        unfold linkedObject
        rw [if_pos ⟨hc.2, rfl⟩, hc.1]
      · cases hm'

/-- An object that is made is the last one, and refers to nothing. -/
theorem object?_create {M' : ObjectModel} {c : ObjectClass} {attributes : Bindings} {k : Nat}
    (h : M.create c attributes = .ok (k, M')) :
    (∀ n, M'.object? n = if n = M.objects.length then some { cls := c, attributes }
      else M.object? n) ∧ M'.roots = M.roots := by
  simp only [ObjectModel.create, bind, Except.bind] at h
  split at h
  · cases h
  · cases h
    refine ⟨fun n => ?_, rfl⟩
    show (M.objects ++ [_])[n]? = _
    rw [List.getElem?_append]
    -- an object of before, the new one, or none
    split
    · rename_i hlt
      rw [if_neg (by omega)]
      rfl
    · rename_i hge
      split
      · rename_i heq
        rw [heq, Nat.sub_self]
        rfl
      · rename_i hne
        have hnone : M.object? n = none := List.getElem?_eq_none (by omega)
        rw [hnone]
        exact List.getElem?_eq_none (by rw [List.length_singleton]; omega)

theorem contents_create {M' : ObjectModel} {c : ObjectClass} {attributes : Bindings} {k : Nat}
    (h : M.create c attributes = .ok (k, M')) (n : Nat) : M'.contents n = M.contents n := by
  rw [contents, contents, (object?_create h).1]
  split
  · rename_i heq
    have hnone : M.object? n = none := by
      rw [heq]
      exact List.getElem?_eq_none (Nat.le_refl _)
    rw [hnone]
    rfl
  · rfl

theorem Consistent.create (hM : M.Consistent) {M' : ObjectModel} {c : ObjectClass}
    {attributes : Bindings} {k : Nat} (h : M.create c attributes = .ok (k, M')) :
    M'.Consistent := by
  obtain ⟨hobject, hroots⟩ := object?_create h
  -- an object of before keeps its number, its class and its references
  have hold : ∀ {n o}, M.object? n = some o → M'.object? n = some o := by
    intro n o ho
    have hlt := (List.getElem?_eq_some_iff.1 ho).1
    rw [hobject, if_neg (Nat.ne_of_lt hlt)]
    exact ho
  have hsome : ∀ {n}, (M.object? n).isSome → (M'.object? n).isSome := by
    intro n hn
    obtain ⟨o, ho⟩ := Option.isSome_iff_exists.1 hn
    rw [hold ho]
    rfl
  refine ⟨fun r hr => hsome (hM.root r (hroots ▸ hr)), ?_, ?_, ?_⟩
  · -- targets: the new object refers to nothing
    intro n o ho m hm
    rw [hobject] at ho
    split at ho
    · cases ho
      exact nomatch hm
    · exact hsome (hM.target n o ho m hm)
  · -- once: its creation adds nothing to any contents
    intro n
    rw [contents_create h]
    exact hM.once n
  · -- held
    intro n m hm
    rw [contents_create h] at hm
    obtain ⟨o, ho, hcon⟩ := Option.bind_eq_some_iff.1 (hM.held n m hm)
    rw [hold ho]
    exact hcon

/-- What a step in building may make of a model. -/
inductive Becomes (M : ObjectModel) : ObjectModel → Prop
  | same : Becomes M M
  | created {c : ObjectClass} {attributes : Bindings} {n : Nat} {M' : ObjectModel}
      (made : M.create c attributes = .ok (n, M')) : Becomes M M'
  | added {owner target : Nat} {r : String} {M' : ObjectModel} (known : (M.object? target).isSome)
      (linked : M.add owner r target = .ok M') : Becomes M M'
  | rooted {n : Nat} (known : (M.object? n).isSome) : Becomes M (M.addRoot n)

theorem isSome_of_find {work : ObjectWork} {n : Int} {m : Nat} (h : work.find n = .ok m) :
    (work.model.object? m).isSome := by
  unfold ObjectWork.find at h
  split at h
  · rename_i hlt
    cases h
    rw [object?, List.getElem?_eq_getElem hlt.2]
    rfl
  · cases h

theorem becomes_of_perform {work : ObjectWork} {c : ObjectCommand} {x : ObjectItem}
    {work' : ObjectWork} (h : work.perform c = .ok (x, work')) :
    work.model.Becomes work'.model := by
  cases ObjectWork.performs_of_perform h with
  | defined => exact .same
  | created known made => exact .created made
  | added holder held linked => exact .added (isSome_of_find held) linked
  | rooted known => exact .rooted (isSome_of_find known)

/-- Steps keep a model consistent. -/
theorem Consistent.becomes (hM : M.Consistent) {M' : ObjectModel} (h : M.Becomes M') :
    M'.Consistent := by
  cases h with
  | same => exact hM
  | created made => exact hM.create made
  | added known linked => exact hM.add known linked
  | @rooted n known =>
    refine ⟨?_, hM.target, hM.once, hM.held⟩
    intro r hr
    rcases List.mem_append.1 hr with hr | hr
    · exact hM.root r hr
    · rw [List.mem_singleton.1 hr]
      exact known

/-- Commands that are all performed leave a consistent model consistent. -/
theorem consistent_of_performAll {commands : List ObjectCommand} {work work' : ObjectWork}
    (hM : work.model.Consistent) (h : work.performAll commands = .ok work') :
    work'.model.Consistent := by
  induction commands generalizing work with
  | nil =>
    cases h
    exact hM
  | cons c commands ih =>
    simp only [ObjectWork.performAll, bind, Except.bind] at h
    split at h
    · cases h
    · rename_i p hp
      obtain ⟨x, w⟩ := p
      exact ih (hM.becomes (becomes_of_perform hp)) h

/-- Models that are built are consistent. -/
theorem consistent_of_build {commands : List ObjectCommand} {M : ObjectModel}
    (h : ObjectWork.build commands = .ok M) : M.Consistent := by
  simp only [ObjectWork.build, bind, Except.bind] at h
  split at h
  · cases h
  · rename_i work hwork
    cases h
    exact consistent_of_performAll consistent_empty hwork

end ObjectModel

end GraphPattern
