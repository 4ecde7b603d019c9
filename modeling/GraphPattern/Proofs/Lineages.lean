import GraphPattern.Proofs.TypedGraphs
import GraphPattern.Proofs.Routes
import Mathlib.Data.List.Induction
import Mathlib.Logic.Relation

/-!
# GraphPattern — classes and what is above them

A class is defined below classes that are there already, and keeps them as they are. What is above it
is found by a search that goes on from its direct superclasses and looks at no name twice. As names are
not given twice either, the search finds what the definitions say, however the hierarchy branches and
joins, and a type spec matches a class by what the definitions say.

## Results

* `Lineage.Climbs.mem_iff` — a search finds what can be reached.
* `Schema.Declared.define` — definitions keep classes and what was declared about them in agreement.
* `TypeSpec.parse_text` — specs are read as they are written.
* `GraphWork.typeMatches_after` — what type specs match, after any steps.
-/

namespace GraphPattern

open Relation

-- ---------------------------------------------------------------------------
-- Searching upwards
-- ---------------------------------------------------------------------------

namespace Lineage

theorem induction {motive : Lineage → Prop}
    (mk : ∀ name supers, (∀ s ∈ supers, motive s) → motive (.mk name supers)) : ∀ c, motive c
  | .mk name supers => mk name supers fun s _ => induction mk s

theorem climbAll_eq_foldl (seen : List String) (cs : List Lineage) :
    climbAll seen cs = cs.foldl climb seen := by
  induction cs generalizing seen with
  | nil => rfl
  | cons c cs ih => rw [climbAll, ih, List.foldl_cons]

/-- A search from some names on, among what was seen before: it forgets nothing, it finds its
starts and only what is above them, and it goes on from what it finds. -/
structure Climbs (above : String → String → Prop) (starts seen found : List String) : Prop where
  kept : ∀ n ∈ seen, n ∈ found
  found_starts : ∀ n ∈ starts, n ∈ found
  reached : ∀ n ∈ found, n ∈ seen ∨ ∃ m ∈ starts, ReflTransGen above m n
  closed : ∀ n ∈ found, n ∉ seen → ∀ m, above n m → m ∈ found

namespace Climbs

variable {above : String → String → Prop} {starts starts' seen mid found : List String} {n : String}

theorem nil : Climbs above [] seen seen where
  kept _ h := h
  found_starts := nofun
  reached _ h := .inl h
  closed _ h hnew := absurd h hnew

theorem append (h : Climbs above starts seen mid) (h' : Climbs above starts' mid found) :
    Climbs above (starts ++ starts') seen found where
  kept n hn := h'.kept n (h.kept n hn)
  found_starts n hn := by
    rcases List.mem_append.1 hn with hn | hn
    · exact h'.kept n (h.found_starts n hn)
    · exact h'.found_starts n hn
  reached n hn := by
    rcases h'.reached n hn with hmid | ⟨m, hm, hreach⟩
    · exact (h.reached n hmid).imp_right fun ⟨m, hm, hreach⟩ =>
        ⟨m, List.mem_append_left _ hm, hreach⟩
    · exact .inr ⟨m, List.mem_append_right _ hm, hreach⟩
  closed n hn hnew m hm := by
    by_cases hmid : n ∈ mid
    · exact h'.kept m (h.closed n hmid hnew m hm)
    · exact h'.closed n hn hmid m hm

/-- A name that was seen is not looked at again. -/
theorem again (h : n ∈ seen) : Climbs above [n] seen seen where
  kept _ h := h
  found_starts m hm := by rwa [List.mem_singleton.1 hm]
  reached _ h := .inl h
  closed _ h hnew := absurd h hnew

/-- A new name is seen, and the search goes on from what is directly above it. -/
theorem enter (hstarts : ∀ m, above n m ↔ m ∈ starts)
    (h : Climbs above starts (seen ++ [n]) found) : Climbs above [n] seen found where
  kept m hm := h.kept m (List.mem_append_left _ hm)
  found_starts m hm := h.kept m (List.mem_append_right _ hm)
  reached m hm := by
    rcases h.reached m hm with hseen | ⟨k, hk, hreach⟩
    · rcases List.mem_append.1 hseen with hseen | hself
      · exact .inl hseen
      · exact .inr ⟨n, List.mem_singleton_self n, by rw [List.mem_singleton.1 hself]⟩
    · exact .inr ⟨n, List.mem_singleton_self n, .head ((hstarts k).2 hk) hreach⟩
  closed m hm hnew k hk := by
    by_cases hself : m = n
    · subst hself
      exact h.found_starts k ((hstarts k).1 hk)
    · exact h.closed m hm (by simp [hnew, hself]) k hk

/-- A search that has seen nothing before finds what can be reached. -/
theorem mem_iff (h : Climbs above starts [] found) :
    n ∈ found ↔ ∃ m ∈ starts, ReflTransGen above m n := by
  constructor
  · intro hn
    exact (h.reached n hn).resolve_left List.not_mem_nil
  · rintro ⟨m, hm, hreach⟩
    induction hreach with
    | refl => exact h.found_starts m hm
    | tail _ hstep ih => exact h.closed _ ih List.not_mem_nil _ hstep

end Climbs

variable {above : String → String → Prop} {known : Lineage → Prop}

/-- What is directly above a known class is known, and `above` says so. -/
structure Follows (known : Lineage → Prop) (above : String → String → Prop) : Prop where
  supers : ∀ c, known c → ∀ s ∈ c.supers, known s
  above_iff : ∀ c, known c → ∀ n, above c.name n ↔ n ∈ c.supers.map name

theorem climbs_foldl {cs : List Lineage}
    (h : ∀ c ∈ cs, ∀ seen, Climbs above [c.name] seen (climb seen c)) (seen : List String) :
    Climbs above (cs.map name) seen (cs.foldl climb seen) := by
  induction cs generalizing seen with
  | nil => exact .nil
  | cons c cs ih =>
    exact (h c List.mem_cons_self seen).append
      (ih (fun s hs => h s (List.mem_cons_of_mem _ hs)) _)

theorem Follows.climbs (h : Follows known above) {c : Lineage} (hc : known c)
    (seen : List String) : Climbs above [c.name] seen (climb seen c) := by
  induction c using induction generalizing seen with
  | mk n supers ih =>
    rw [climb]
    split
    · rename_i hseen
      exact .again hseen
    · rw [climbAll_eq_foldl]
      exact .enter (h.above_iff _ hc)
        (climbs_foldl (fun s hs => ih s hs (h.supers _ hc s hs)) _)

/-- A class is what its own name says, and what the names above it say. -/
theorem Follows.isA_iff (h : Follows known above) {c : Lineage} (hc : known c) {n : String} :
    c.isA n = true ↔ n = c.name ∨ TransGen above c.name n := by
  have hclimbs : Climbs above (c.supers.map name) [] (supertypes c.supers) := by
    rw [supertypes, climbAll_eq_foldl]
    exact climbs_foldl (fun s hs => h.climbs (h.supers c hc s hs)) []
  rw [isA, Bool.or_eq_true, beq_iff_eq, List.contains_iff_mem, hclimbs.mem_iff,
    TransGen.head'_iff]
  simp only [h.above_iff c hc]

end Lineage

-- ---------------------------------------------------------------------------
-- Specs
-- ---------------------------------------------------------------------------

namespace TypeSpec

/-- A spec as it is written. -/
def text (t : TypeSpec) : String :=
  (if t.negated then "!" else "") ++ t.name ++ (if t.exact then "!" else "")

/-- A name that no mark can be taken for a part of. -/
def Unmarked (name : String) : Prop :=
  name ≠ "" ∧ '!' ∉ name.toList

theorem unmarked_mark (cs : List Char) : unmarked ('!' :: cs) = (cs, true) :=
  rfl

theorem unmarked_of_not_mem {cs : List Char} (h : '!' ∉ cs) : unmarked cs = (cs, false) := by
  unfold unmarked
  split
  · exact absurd List.mem_cons_self h
  · rfl

/-- What starts with a name is not marked. -/
theorem Unmarked.unmarked_append {name : String} (h : Unmarked name) (cs : List Char) :
    unmarked (name.toList ++ cs) = (name.toList ++ cs, false) := by
  obtain ⟨c, rest, hname⟩ := List.exists_cons_of_ne_nil (mt String.toList_eq_nil_iff.1 h.1)
  rw [hname, List.cons_append, unmarked]
  rintro _ ⟨⟩
  exact h.2 (by simp [hname])

/-- Specs are read as they are written. -/
theorem parse_text {t : TypeSpec} (h : Unmarked t.name) : parse t.text = t := by
  obtain ⟨name, exactly, negated⟩ := t
  have hfront := h.unmarked_append
  have hplain := hfront []
  rw [List.append_nil] at hplain
  have hback : unmarked name.toList.reverse = (name.toList.reverse, false) :=
    unmarked_of_not_mem (by simpa using h.2)
  cases exactly <;> cases negated <;>
    simp [parse, text, unmarked_mark, hplain, hfront, hback]

theorem isEmpty_text {t : TypeSpec} (h : Unmarked t.name) : t.text.isEmpty = false := by
  rw [Bool.eq_false_iff, ne_eq, String.isEmpty_iff]
  intro hempty
  have hlength := congrArg String.length hempty
  simp only [text, String.length_append, String.length_empty] at hlength
  exact h.1 (String.length_eq_zero_iff.1 (by omega))

theorem typeMatches_text {t : TypeSpec} (h : Unmarked t.name) (c : Lineage) :
    typeMatches c (some t.text) = t.admits c := by
  rw [typeMatches, isEmpty_text h, Bool.false_or, parse_text h]

end TypeSpec

-- ---------------------------------------------------------------------------
-- Schemas
-- ---------------------------------------------------------------------------

namespace Schema

/-- The classes of a schema agree with what was declared: no name is given twice, a class keeps what
it was declared below, which is of its kind, and only classes are declared to be below others. -/
structure Declared (s : Schema) (below : String → String → Prop) : Prop where
  distinct : (s.classes.map ElementClass.name).Nodup
  supers : ∀ c ∈ s.classes, ∀ l ∈ c.lineage.supers,
    ∃ d ∈ s.classes, d.lineage = l ∧ d.isEdge = c.isEdge
  below_iff : ∀ c ∈ s.classes, ∀ n, below c.name n ↔ n ∈ c.lineage.supers.map Lineage.name
  known : ∀ n m, below n m → ∃ c ∈ s.classes, c.name = n

variable {s s' : Schema} {below : String → String → Prop} {c d : ElementClass} {n : String}

theorem mem_of_find? (h : s.find? n = some c) : c ∈ s.classes ∧ c.name = n :=
  ⟨List.mem_of_find?_eq_some h, by simpa using List.find?_some h⟩

theorem find?_eq_none_iff : s.find? n = none ↔ n ∉ s.classes.map ElementClass.name := by
  simp [find?]

namespace Declared

theorem empty : Declared {} fun _ _ => False where
  distinct := .nil
  supers := nofun
  below_iff := nofun
  known := nofun

variable (h : s.Declared below)
include h

theorem eq_of_name_eq (hc : c ∈ s.classes) (hd : d ∈ s.classes) (heq : c.name = d.name) : c = d :=
  List.inj_on_of_nodup_map h.distinct hc hd heq

theorem find?_name (hc : c ∈ s.classes) : s.find? c.name = some c := by
  cases hfind : s.find? c.name with
  | none => exact absurd (List.mem_map_of_mem hc) (find?_eq_none_iff.1 hfind)
  | some d =>
    obtain ⟨hd, hname⟩ := mem_of_find? hfind
    rw [h.eq_of_name_eq hd hc hname]

theorem follows : Lineage.Follows (fun l => ∃ c ∈ s.classes, c.lineage = l) below where
  supers := by
    rintro _ ⟨c, hc, rfl⟩ l hl
    obtain ⟨d, hd, hlineage, -⟩ := h.supers c hc l hl
    exact ⟨d, hd, hlineage⟩
  above_iff := by
    rintro _ ⟨c, hc, rfl⟩ n
    exact h.below_iff c hc n

theorem isA_iff (hc : c ∈ s.classes) :
    c.lineage.isA n = true ↔ n = c.name ∨ TransGen below c.name n :=
  h.follows.isA_iff ⟨c, hc, rfl⟩

/-- What is above a class is a class of its kind. -/
theorem exists_of_transGen (hc : c ∈ s.classes) (habove : TransGen below c.name n) :
    ∃ d ∈ s.classes, d.name = n ∧ d.isEdge = c.isEdge := by
  have hstep : ∀ c ∈ s.classes, ∀ m, below c.name m →
      ∃ d ∈ s.classes, d.name = m ∧ d.isEdge = c.isEdge := by
    intro c hc m hm
    obtain ⟨l, hl, rfl⟩ := List.mem_map.1 ((h.below_iff c hc m).1 hm)
    obtain ⟨d, hd, rfl, hkind⟩ := h.supers c hc l hl
    exact ⟨d, hd, rfl, hkind⟩
  induction habove with
  | single hm => exact hstep c hc _ hm
  | tail _ hm ih =>
    obtain ⟨d, hd, rfl, hkind⟩ := ih
    obtain ⟨e, he, hname, hkind'⟩ := hstep d hd _ hm
    exact ⟨e, he, hname, hkind'.trans hkind⟩

end Declared

theorem lookup_eq_ok_iff : s.lookup n = .ok c ↔ s.find? n = some c := by
  rw [lookup]
  cases s.find? n <;> simp

/-- The classes of some names, if there is one of each. -/
theorem mapM_lookup_eq_ok_iff {names : List String} {above : List ElementClass} :
    names.mapM s.lookup = .ok above ↔
      (∀ n ∈ names, (s.find? n).isSome) ∧ above = names.filterMap s.find? := by
  -- along the names: each has to be found
  induction names generalizing above with
  | nil =>
    constructor
    · rintro ⟨⟩
      exact ⟨nofun, rfl⟩
    · rintro ⟨-, rfl⟩
      rfl
  | cons n names ih =>
    rw [List.mapM_cons, Path.bind_eq_ok_iff, List.forall_mem_cons]
    constructor
    · rintro ⟨c, hc, hrest⟩
      obtain ⟨rest, hnames, hsplit⟩ := Path.bind_eq_ok_iff.1 hrest
      obtain ⟨hknown, rfl⟩ := ih.1 hnames
      have hfind := lookup_eq_ok_iff.1 hc
      cases hsplit
      exact ⟨⟨by rw [hfind]; rfl, hknown⟩, (List.filterMap_cons_some hfind).symm⟩
    · rintro ⟨⟨hn, hknown⟩, rfl⟩
      obtain ⟨c, hfind⟩ := Option.isSome_iff_exists.1 hn
      refine ⟨c, lookup_eq_ok_iff.2 hfind, Path.bind_eq_ok_iff.2 ⟨_, ih.2 ⟨hknown, rfl⟩, ?_⟩⟩
      rw [List.filterMap_cons_some hfind]
      rfl

/-- A class is defined exactly if its name is free and the classes to be above it are there, of its
kind. It keeps them as they are. -/
theorem define_eq_ok_iff {name : String} {supers : List String} {isEdge : Bool} :
    s.define name supers isEdge = .ok (c, s') ↔
      s.find? name = none ∧ (∀ n ∈ supers, (s.find? n).isSome) ∧
        (∀ d ∈ supers.filterMap s.find?, d.isEdge = isEdge) ∧
        c = ⟨.mk name ((supers.filterMap s.find?).map (·.lineage)), isEdge⟩ ∧
        s' = ⟨s.classes ++ [c]⟩ := by
  have hmixed : ∀ above : List ElementClass, above.find? (·.isEdge != isEdge) = none ↔
      ∀ d ∈ above, d.isEdge = isEdge := by
    intro above
    simp
  rw [← hmixed]
  cases hname : s.find? name with
  -- the name is taken
  | some d =>
    have herror : s.define name supers isEdge = .error (.classTaken name) := by
      rw [define, hname]
      rfl
    rw [herror]
    exact iff_of_false nofun fun h => nomatch h.1
  | none =>
    cases habove : supers.mapM s.lookup with
    | error f =>
      have herror : s.define name supers isEdge = .error f := by
        rw [define, hname, habove]
        rfl
      rw [herror]
      -- a super class is unknown
      refine iff_of_false (by simp) fun h => ?_
      rw [mapM_lookup_eq_ok_iff.2 ⟨h.2.1, rfl⟩] at habove
      cases habove
    | ok above =>
      obtain ⟨hknown, rfl⟩ := mapM_lookup_eq_ok_iff.1 habove
      cases hkinds : (supers.filterMap s.find?).find? (·.isEdge != isEdge) with
      | some other =>
        have herror : s.define name supers isEdge = .error (.kindsMixed name other.name) := by
          simp [define, hname, habove, hkinds, bind, Except.bind, throw, throwThe,
            MonadExceptOf.throw]
        rw [herror]
        -- a super class is of the other kind
        exact iff_of_false (by simp) (by simp)
      -- nothing stands against the definition
      | none =>
        have hok : s.define name supers isEdge = .ok
            (⟨.mk name ((supers.filterMap s.find?).map (·.lineage)), isEdge⟩, ⟨s.classes ++
              [⟨.mk name ((supers.filterMap s.find?).map (·.lineage)), isEdge⟩]⟩) := by
          simp [define, hname, habove, hkinds, bind, Except.bind, pure, Except.pure]
        rw [hok]
        constructor
        · intro h
          cases h
          exact ⟨rfl, hknown, rfl, rfl, rfl⟩
        · rintro ⟨-, -, -, rfl, rfl⟩
          rfl

/-- The classes of some names have these names. -/
theorem map_name_filterMap_find? {names : List String} (h : ∀ n ∈ names, (s.find? n).isSome) :
    (names.filterMap s.find?).map ElementClass.name = names := by
  rw [List.map_filterMap]
  conv_rhs => rw [← List.filterMap_some (l := names)]
  refine List.filterMap_congr fun n hn => ?_
  obtain ⟨c, hc⟩ := Option.isSome_iff_exists.1 (h n hn)
  rw [hc, Option.map_some, (mem_of_find? hc).2]

/-- The new class is declared to be below the classes that are named. -/
theorem Declared.define (h : s.Declared below) {name : String} {supers : List String}
    {isEdge : Bool} (hdefine : s.define name supers isEdge = .ok (c, s')) :
    s'.Declared fun n m => below n m ∨ n = name ∧ m ∈ supers := by
  obtain ⟨hfree, hknown, hkinds, rfl, rfl⟩ := define_eq_ok_iff.1 hdefine
  have hnew : name ∉ s.classes.map ElementClass.name := find?_eq_none_iff.1 hfree
  have hold : ∀ c ∈ s.classes, c.name ≠ name := fun c hc heq => hnew (List.mem_map.2 ⟨c, hc, heq⟩)
  have hnames := map_name_filterMap_find? hknown
  refine ⟨?_, ?_, ?_, ?_⟩
  · -- distinct
    rw [List.map_append, List.nodup_append_comm]
    exact List.nodup_cons.2 ⟨hnew, h.distinct⟩
  · -- supers: the new class's were found among those before it
    intro c hc l hl
    rcases List.mem_append.1 hc with hc | hc
    · obtain ⟨d, hd, hlineage⟩ := h.supers c hc l hl
      exact ⟨d, List.mem_append_left _ hd, hlineage⟩
    · obtain rfl := List.mem_singleton.1 hc
      obtain ⟨d, hd, rfl⟩ := List.mem_map.1 hl
      obtain ⟨n, -, hn⟩ := List.mem_filterMap.1 hd
      exact ⟨d, List.mem_append_left _ (mem_of_find? hn).1, rfl, hkinds d hd⟩
  · -- below_iff: the new name was never a sub class, since every such name is of a class
    intro c hc n
    rcases List.mem_append.1 hc with hc | hc
    · rw [← h.below_iff c hc]
      exact or_iff_left fun hself => hold c hc hself.1
    · obtain rfl := List.mem_singleton.1 hc
      have hnone : ¬ below name n := fun hbelow => by
        obtain ⟨c, hc, hname⟩ := h.known name n hbelow
        exact hold c hc hname
      have hsupers : (supers.filterMap s.find?).map (Lineage.name ∘ ElementClass.lineage) =
          supers := hnames
      show below name n ∨ name = name ∧ n ∈ supers ↔
        n ∈ ((supers.filterMap s.find?).map ElementClass.lineage).map Lineage.name
      rw [List.map_map, hsupers]
      simp [hnone]
  · -- known
    rintro n m (hbelow | ⟨rfl, -⟩)
    · obtain ⟨c, hc, hname⟩ := h.known n m hbelow
      exact ⟨c, List.mem_append_left _ hc, hname⟩
    · exact ⟨_, List.mem_append_right _ (List.mem_singleton_self _), rfl⟩

/-- A class can be defined exactly if its name is free and there are classes of its kind of the names
that are to be above it. -/
theorem Declared.exists_define_iff (h : s.Declared below) {name : String} {supers : List String}
    {isEdge : Bool} :
    (∃ c s', s.define name supers isEdge = .ok (c, s')) ↔
      (∀ c ∈ s.classes, c.name ≠ name) ∧
        ∀ n ∈ supers, ∃ d ∈ s.classes, d.name = n ∧ d.isEdge = isEdge := by
  have hfree : s.find? name = none ↔ ∀ c ∈ s.classes, c.name ≠ name := by
    simp [find?]
  simp only [define_eq_ok_iff, hfree]
  constructor
  · -- a name that is looked up is found in a class of the schema
    rintro ⟨c, s', hname, hknown, hkinds, -⟩
    refine ⟨hname, fun n hn => ?_⟩
    obtain ⟨d, hd⟩ := Option.isSome_iff_exists.1 (hknown n hn)
    obtain ⟨hmem, hdname⟩ := mem_of_find? hd
    exact ⟨d, hmem, hdname, hkinds d (List.mem_filterMap.2 ⟨n, hn, hd⟩)⟩
  · -- distinct names make the class that has the name the one that is looked up
    rintro ⟨hname, habove⟩
    have hfind : ∀ n ∈ supers, ∃ d, s.find? n = some d ∧ d.isEdge = isEdge := by
      intro n hn
      obtain ⟨d, hd, rfl, hkind⟩ := habove n hn
      exact ⟨d, h.find?_name hd, hkind⟩
    refine ⟨_, _, hname, fun n hn => ?_, fun d hd => ?_, rfl, rfl⟩
    · obtain ⟨d, hd, -⟩ := hfind n hn
      exact Option.isSome_iff_exists.2 ⟨d, hd⟩
    · obtain ⟨n, hn, hd⟩ := List.mem_filterMap.1 hd
      obtain ⟨d', hd', hkind⟩ := hfind n hn
      rw [hd] at hd'
      cases hd'
      exact hkind

/-- A type spec of a name reads what is above a class, with either mark. -/
theorem Declared.typeMatches_iff (h : s.Declared below) {c : ElementClass} (hc : c ∈ s.classes)
    {n : String} (hn : n ≠ "") (hmark : '!' ∉ n.toList) :
    (typeMatches c.lineage (some n) = true ↔ n = c.name ∨ TransGen below c.name n) ∧
      (typeMatches c.lineage (some (n ++ "!")) = true ↔ n = c.name) ∧
      (typeMatches c.lineage (some ("!" ++ n)) = true ↔
        ¬ (n = c.name ∨ TransGen below c.name n)) ∧
      (typeMatches c.lineage (some ("!" ++ n ++ "!")) = true ↔ n ≠ c.name) := by
  -- each of the four texts reads as the type specification that it writes
  have hspec : ∀ exactly negated, typeMatches c.lineage
      (some (TypeSpec.text ⟨n, exactly, negated⟩)) =
        TypeSpec.admits ⟨n, exactly, negated⟩ c.lineage :=
    fun exactly negated => TypeSpec.typeMatches_text ⟨hn, hmark⟩ c.lineage
  have hname : (c.lineage.name == n) = true ↔ n = c.name := by
    rw [beq_iff_eq, eq_comm]
    rfl
  have hisA := h.isA_iff hc (n := n)
  have hplain := hspec false false
  have hexact := hspec true false
  have hnegated := hspec false true
  have hboth := hspec true true
  simp only [TypeSpec.text, if_true, Bool.false_eq_true, if_false, String.empty_append,
    String.append_empty, TypeSpec.admits] at hplain hexact hnegated hboth
  rw [hplain, hexact, hnegated, hboth, ← hisA, Bool.not_eq_true', Bool.not_eq_true',
    ← Bool.not_eq_true, ← Bool.not_eq_true, hname]
  exact ⟨.rfl, .rfl, .rfl, .rfl⟩

end Schema

-- ---------------------------------------------------------------------------
-- Building
-- ---------------------------------------------------------------------------

namespace GraphWork

/-- Among some steps from the start, one that succeeds defines the first class below the second. -/
def Specializes (commands : List GraphCommand) (sub super : String) : Prop :=
  ∃ before supers isEdge rest x w, commands = before ++ .defineClass sub supers isEdge :: rest ∧
    (after {} before).perform (.defineClass sub supers isEdge) = (.ok x, w) ∧ super ∈ supers

variable {w w' : GraphWork} {commands : List GraphCommand} {c : GraphCommand}

theorem after_append_singleton (w : GraphWork) (commands : List GraphCommand) (c : GraphCommand) :
    w.after (commands ++ [c]) = ((w.after commands).perform c).2 := by
  simp [after]

theorem specializes_append_singleton {sub super : String} :
    Specializes (commands ++ [c]) sub super ↔ Specializes commands sub super ∨
      ∃ supers isEdge x w, c = .defineClass sub supers isEdge ∧
        (after {} commands).perform c = (.ok x, w) ∧ super ∈ supers := by
  constructor
  · rintro ⟨before, supers, isEdge, rest, x, w, hsplit, hperform, hmem⟩
    rcases rest.eq_nil_or_concat with rfl | ⟨rest, last, rfl⟩
    · obtain ⟨rfl, hc⟩ := List.append_inj' hsplit rfl
      cases hc
      exact .inr ⟨supers, isEdge, x, w, rfl, hperform, hmem⟩
    · rw [List.concat_eq_append, ← List.cons_append, ← List.append_assoc] at hsplit
      obtain ⟨rfl, -⟩ := List.append_inj' hsplit rfl
      exact .inl ⟨before, supers, isEdge, rest, x, w, rfl, hperform, hmem⟩
  · rintro (⟨before, supers, isEdge, rest, x, w, rfl, hperform, hmem⟩ |
      ⟨supers, isEdge, x, w, rfl, hperform, hmem⟩)
    · exact ⟨before, supers, isEdge, rest ++ [c], x, w, by simp, hperform, hmem⟩
    · exact ⟨commands, supers, isEdge, [], x, w, rfl, hperform, hmem⟩

/-- What is no definition, or fails, specializes nothing. -/
theorem specializes_append_of_forall {c : GraphCommand}
    (h : ∀ name supers isEdge x w, c = .defineClass name supers isEdge →
      (after {} commands).perform c ≠ (.ok x, w)) :
    Specializes (commands ++ [c]) = Specializes commands := by
  funext sub super
  refine propext (specializes_append_singleton.trans (or_iff_left ?_))
  rintro ⟨supers, isEdge, x, w, hc, hperform, -⟩
  exact h sub supers isEdge x w hc hperform

theorem schema_createEdge (G : TypedGraph) (name : String) (alpha omega : Nat)
    (attributes : Bindings) : (G.createEdge name alpha omega attributes).2.schema = G.schema := by
  unfold TypedGraph.createEdge
  split
  · rfl
  · dsimp only
    split
    · rfl
    · split <;> rfl

/-- Only definitions change the schema. -/
theorem schema_perform (w : GraphWork)
    (h : ∀ name supers isEdge, c ≠ .defineClass name supers isEdge) :
    (w.perform c).2.graph.schema = w.graph.schema := by
  rcases hrun : w.perform c with ⟨f | x, w'⟩
  · rcases eq_or_stuck_of_perform hrun with
      rfl | ⟨name, alpha, omega, attributes, source, target, G, -, -, -, hmade, rfl⟩
    · rfl
    · exact (congrArg (·.2.schema) hmade).symm.trans (schema_createEdge ..)
  · cases performs_of_perform hrun with
    | defined => exact absurd rfl (h _ _ _)
    | vertex made =>
      obtain ⟨-, cls, rfl⟩ := TypedGraph.createVertex_ok made
      rfl
    | edge leaves arrives made =>
      exact (congrArg (·.2.schema) made).symm.trans (schema_createEdge ..)

/-- A definition does to the schema what the schema makes of it, and else nothing. -/
theorem perform_defineClass_cases (w : GraphWork) (name : String) (supers : List String)
    (isEdge : Bool) :
    (∃ f, w.graph.schema.define name supers isEdge = .error f ∧
      w.perform (.defineClass name supers isEdge) = (.error f, w)) ∨
    ∃ d s', w.graph.schema.define name supers isEdge = .ok (d, s') ∧
      w.perform (.defineClass name supers isEdge) =
        (.ok (.cls d), { w with graph := { w.graph with schema := s' } }) := by
  rcases hdefine : w.graph.schema.define name supers isEdge with f | ⟨d, s'⟩
  · exact .inl ⟨f, rfl, by rw [perform, hdefine]⟩
  · exact .inr ⟨d, s', rfl, by rw [perform, hdefine]⟩

/-- Whatever steps are performed, the classes agree with what the definitions say. -/
theorem declared_after (commands : List GraphCommand) :
    (after {} commands).graph.schema.Declared (Specializes commands) := by
  -- on the last command, which alone may define a class
  induction commands using List.reverseRecOn with
  | nil =>
    have hnone : Specializes [] = fun _ _ => False := by
      funext sub super
      simp [Specializes]
    rw [hnone]
    exact .empty
  | append_singleton commands c ih =>
    rw [after_append_singleton]
    by_cases hdefines : ∃ name supers isEdge, c = .defineClass name supers isEdge
    · obtain ⟨name, supers, isEdge, rfl⟩ := hdefines
      rcases perform_defineClass_cases (after {} commands) name supers isEdge with
        ⟨f, -, hperform⟩ | ⟨d, s', hdefine, hperform⟩
      · -- refused: no new sub class and no new class
        rw [specializes_append_of_forall (by simp [hperform]), hperform]
        exact ih
      · -- performed: the class comes below the super classes it names
        have hbelow : Specializes (commands ++ [.defineClass name supers isEdge]) =
            fun n m => Specializes commands n m ∨ n = name ∧ m ∈ supers := by
          funext n m
          refine propext (specializes_append_singleton.trans (or_congr_right ?_))
          simp only [hperform, GraphCommand.defineClass.injEq, Prod.mk.injEq]
          constructor
          · rintro ⟨_, _, _, _, ⟨rfl, rfl, rfl⟩, -, hmem⟩
            exact ⟨rfl, hmem⟩
          · rintro ⟨rfl, hmem⟩
            exact ⟨_, _, _, _, ⟨rfl, rfl, rfl⟩, ⟨rfl, rfl⟩, hmem⟩
        rw [hbelow, hperform]
        exact ih.define hdefine
    · have hother : ∀ name supers isEdge, c ≠ .defineClass name supers isEdge :=
        fun name supers isEdge hc => hdefines ⟨name, supers, isEdge, hc⟩
      rw [specializes_append_of_forall fun name supers isEdge _ _ hc =>
          (hother name supers isEdge hc).elim,
        schema_perform _ hother]
      exact ih

/-- After any steps from the start, failing ones included: the next definition fails unless its name
is free and there are classes of its kind of the names that are to be above it, it leaves everything
as it was if it fails, and adds a class if it does not; no name is given twice, and what is above a
class is of its kind; and a type spec matches a class by its name, or by the names of the classes it
was defined below, over any number of definitions. -/
theorem typeMatches_after (commands : List GraphCommand) :
    let work := after {} commands
    let s := work.graph.schema
    (∀ name supers isEdge,
      ((∃ x w, work.perform (.defineClass name supers isEdge) = (.ok x, w)) ↔
        (∀ c ∈ s.classes, c.name ≠ name) ∧
          ∀ n ∈ supers, ∃ d ∈ s.classes, d.name = n ∧ d.isEdge = isEdge) ∧
      (∀ f w, work.perform (.defineClass name supers isEdge) = (.error f, w) → w = work) ∧
      ∀ x w, work.perform (.defineClass name supers isEdge) = (.ok x, w) →
        ∃ c, c.name = name ∧ c.isEdge = isEdge ∧ w.graph.schema.classes = s.classes ++ [c]) ∧
    (s.classes.map ElementClass.name).Nodup ∧
    (∀ c ∈ s.classes, ∀ n, TransGen (Specializes commands) c.name n →
      ∃ d ∈ s.classes, d.name = n ∧ d.isEdge = c.isEdge) ∧
    ∀ c ∈ s.classes, ∀ n : String, n ≠ "" → '!' ∉ n.toList →
      (typeMatches c.lineage (some n) = true ↔
        n = c.name ∨ TransGen (Specializes commands) c.name n) ∧
      (typeMatches c.lineage (some (n ++ "!")) = true ↔ n = c.name) ∧
      (typeMatches c.lineage (some ("!" ++ n)) = true ↔
        ¬ (n = c.name ∨ TransGen (Specializes commands) c.name n)) ∧
      (typeMatches c.lineage (some ("!" ++ n ++ "!")) = true ↔ n ≠ c.name) := by
  intro work s
  have hdeclared : s.Declared (Specializes commands) := declared_after commands
  refine ⟨fun name supers isEdge => ?_, hdeclared.distinct,
    fun c hc n => hdeclared.exists_of_transGen hc, fun c hc n => hdeclared.typeMatches_iff hc⟩
  rw [← hdeclared.exists_define_iff]
  rcases work.perform_defineClass_cases name supers isEdge with
    ⟨f, hdefine, hperform⟩ | ⟨d, s', hdefine, hperform⟩
  · -- refused: the work stands as it did
    have hfails : s.define name supers isEdge = .error f := hdefine
    refine ⟨by simp [hperform, hfails], fun g w h => ?_, by simp [hperform]⟩
    rw [hperform] at h
    cases h
    rfl
  · obtain ⟨-, -, -, rfl, rfl⟩ := Schema.define_eq_ok_iff.1 hdefine
    have hdefines : s.define name supers isEdge = .ok _ := hdefine
    refine ⟨by simp [hperform, hdefines], by simp [hperform], fun x w h => ?_⟩
    rw [hperform] at h
    cases h
    exact ⟨_, rfl, rfl, rfl⟩

/-- Classes in a diamond, between definitions that fail: there is no class of one name, another name
is taken, and an edge class cannot be below a vertex class. -/
def diamond : List GraphCommand :=
  [.defineClass "Left" ["Top"] false, .defineClass "Top" [] false,
    .defineClass "Left" ["Top"] false, .defineClass "Top" ["Left"] false,
    .defineClass "Right" ["Top"] false, .defineClass "Link" ["Top"] true,
    .defineClass "Bottom" ["Left", "Right"] false]

/-- The last class of a diamond is below the first one, and no edge class can be. -/
theorem typeMatches_diamond :
    ∃ c ∈ (after {} diamond).graph.schema.classes, c.name = "Bottom" ∧
      ("Top" ≠ "" ∧ '!' ∉ "Top".toList ∧ TransGen (Specializes diamond) c.name "Top") ∧
      typeMatches c.lineage (some "!Top") = false ∧
      ∃ f w, (after {} diamond).perform (.defineClass "Link" ["Bottom"] true) = (.error f, w) ∧
        w = after {} diamond := by
  obtain ⟨hdefine, -, -, hspecs⟩ := typeMatches_after diamond
  have hc : (⟨.mk "Bottom" [.mk "Left" [.mk "Top" []], .mk "Right" [.mk "Top" []]], false⟩ :
      ElementClass) ∈ (after {} diamond).graph.schema.classes :=
    List.mem_of_find?_eq_some (p := (·.name == "Bottom")) rfl
  have habove := hspecs _ hc "Top" (by decide) (by decide)
  have hbelow := (habove.1.1 (by decide)).resolve_left (by decide)
  refine ⟨_, hc, rfl, ⟨by decide, by decide, hbelow⟩, ?_, _, _, rfl, ?_⟩
  · exact Bool.eq_false_iff.2 fun h => habove.2.2.1.1 h (.inr hbelow)
  · exact (hdefine "Link" ["Bottom"] true).2.1 _ _ rfl

end GraphWork

end GraphPattern
