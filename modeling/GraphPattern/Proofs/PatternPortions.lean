import GraphPattern.Proofs.Phrases
import GraphPattern.Proofs.Mentions

/-!
# GraphPattern — how a pattern is cut

A pattern is cut from left to right into portions: a text that is a phrase of the grammar, or a marker
with the payload that it takes. A form is taken as it is; bindings are taken from whatever can be taken
apart into pairs of a name and a form, which a text without characters can be as well. Classification
is this cut. It gives every portion its token, and where a pattern cannot be cut, it names the place
from which on nothing fits.

## Results

* `Token.constraint?_eq_ok_iff` — the payloads that markers take.
* `Portion.Cuts.unique` — a pattern is cut in one way at most.
* `Token.units_eq_ok_iff_cut`, `Token.breaks_of_units` — classification is the cut.
* `Token.classify_cuts` — all of it, with patterns in a row.
-/

namespace GraphPattern

-- ---------------------------------------------------------------------------
-- Payloads
-- ---------------------------------------------------------------------------

namespace Element

/-- What an element is taken apart into: the members of a list, the names of named elements, the
characters of a text. -/
def members? : Element → Option (List Element)
  | .list es | .tuple es => some es
  | .map entries => some (entries.map fun kv => .text kv.1)
  | .text s => some (s.toList.map fun c => .text c.toString)
  | .null | .bool _ | .int _ | .float _ | .form _ => none

/-- What should be pairs: named elements with their names, or what an element is taken apart into. -/
def pairs? : Element → Option (List Element)
  | .map entries => some (entries.map fun kv => .tuple [.text kv.1, kv.2])
  | e => e.members?

/-- Taken apart, the element is a name and a form. -/
def Binds (e : Element) (b : String × Form) : Prop :=
  e.members? = some [.text b.1, .form b.2] ∧ b.1.toList ≠ [] ∧ ∀ c ∈ b.1.toList, IsNameLetter c

end Element

namespace Token

/-- A marker as it is written. -/
def Marker.text : Marker → String
  | .when => ":when"
  | .bind => ":let"
  | .whilst => ":while"

/-- The problem with a payload that a marker does not take. -/
def Marker.complaint : Marker → Problem
  | .bind => .notBindings
  | m => .notPredicate m.text

/-- The constraints that markers and their payloads are. -/
inductive Takes : Marker → Element → Constraint → Prop
  | when (f : Form) : Takes .when (.form f) (.when f)
  | bind {payload : Element} {members : List Element} {bs : List (String × Form)}
      (apart : payload.pairs? = some members) (pairs : List.Forall₂ Element.Binds members bs) :
      Takes .bind payload (.bind bs)
  | whilst (f : Form) : Takes .whilst (.form f) (.whilst f)

theorem isName_iff {s : String} :
    isName s = true ↔ s.toList ≠ [] ∧ ∀ c ∈ s.toList, IsNameLetter c := by
  simp only [isName, Bool.and_eq_true, Bool.not_eq_true', List.isEmpty_eq_false_iff,
    List.all_eq_true, isNameChar_iff, ne_eq]

theorem mapM_eq_some_iff {α β : Type} {f : α → Option β} {xs : List α} {ys : List β} :
    xs.mapM f = some ys ↔ List.Forall₂ (fun x y => f x = some y) xs ys := by
  induction xs generalizing ys with
  | nil => simp [eq_comm]
  | cons x xs ih =>
    rw [List.mapM_cons, List.forall₂_cons_left_iff]
    simp only [Option.bind_eq_bind, Option.bind_eq_some_iff, ih]
    constructor
    · rintro ⟨y, hy, zs, hzs, hys⟩
      exact ⟨y, zs, hy, hzs, (Option.some.inj hys).symm⟩
    · rintro ⟨y, zs, hy, hzs, rfl⟩
      exact ⟨y, hy, zs, hzs, rfl⟩

/-- What is taken apart into texts holds no form. -/
theorem not_binds_of_texts {α : Type} {text : α → String} {xs : List α} {e : Element}
    {b : String × Form} (h : e.members? = some (xs.map fun x => .text (text x))) :
    ¬ e.Binds b := by
  rintro ⟨hmembers, -⟩
  have hmem : Element.form b.2 ∈ xs.map fun x => Element.text (text x) := by
    rw [Option.some.inj (h.symm.trans hmembers)]
    simp
  obtain ⟨x, -, hx⟩ := List.mem_map.1 hmem
  cases hx

theorem binding?_list {es : List Element} {b : String × Form} :
    binding? (.list es) = some b ↔ es = [.text b.1, .form b.2] ∧ isName b.1 = true := by
  obtain ⟨n, f⟩ := b
  unfold binding?
  split
  · rename_i heq
    cases heq
    rw [Option.ite_none_right_eq_some, Option.some.injEq, Prod.mk.injEq]
    constructor
    · rintro ⟨hname, rfl, rfl⟩
      exact ⟨rfl, hname⟩
    · rintro ⟨heq, hname⟩
      cases heq
      exact ⟨hname, rfl, rfl⟩
  · rename_i heq
    cases heq
  · rename_i hlist htuple
    refine iff_of_false nofun ?_
    rintro ⟨rfl, -⟩
    exact hlist n f rfl

theorem binding?_eq_some_iff {e : Element} {b : String × Form} :
    binding? e = some b ↔ e.Binds b := by
  have hmembers : ∀ es : List Element, binding? (.list es) = some b ↔
      (Element.list es).Binds b := by
    intro es
    rw [binding?_list, isName_iff, Element.Binds, Element.members?, Option.some.injEq]
  cases e with
  | list es => exact hmembers es
  | tuple es =>
    have hsame : binding? (.tuple es) = binding? (.list es) := by
      unfold binding?
      split <;> simp_all
    rw [hsame]
    exact hmembers es
  | text s | map entries => exact iff_of_false nofun (not_binds_of_texts rfl)
  | null | bool | int | float | form => exact iff_of_false nofun fun h => nomatch h.1

theorem bindings?_eq_some_iff {e : Element} {bs : List (String × Form)} :
    bindings? e = some bs ↔
      ∃ members, e.pairs? = some members ∧ List.Forall₂ Element.Binds members bs := by
  have hmembers : ∀ members : List Element, members.mapM binding? = some bs ↔
      List.Forall₂ Element.Binds members bs := by
    intro members
    simp only [mapM_eq_some_iff, binding?_eq_some_iff]
  cases e with
  | list es | tuple es =>
    rw [bindings?, hmembers]
    simp [Element.pairs?, Element.members?]
  | map entries =>
    have hmap : (entries.mapM fun kv => binding? (.tuple [.text kv.1, kv.2])) =
        (entries.map fun kv => Element.tuple [.text kv.1, kv.2]).mapM binding? := by
      rw [List.mapM_map]
      rfl
    rw [bindings?, hmap, hmembers]
    simp [Element.pairs?]
  | text s =>
    -- a text is taken apart into texts, so it has to be empty
    simp only [Element.pairs?, Element.members?, Option.some.injEq, exists_eq_left']
    by_cases hs : s = ""
    · subst hs
      simp [bindings?, eq_comm]
    · have hnone : bindings? (.text s) = none := by
        unfold bindings?
        split <;> simp_all
      rw [hnone]
      refine iff_of_false nofun fun h => ?_
      obtain ⟨c, cs, hc⟩ := List.exists_cons_of_ne_nil
        (fun hnil => hs (String.toList_eq_nil_iff.1 hnil))
      rw [hc, List.map_cons, List.forall₂_cons_left_iff] at h
      obtain ⟨b, -, hb, -⟩ := h
      exact not_binds_of_texts rfl hb
  | null | bool | int | float | form =>
    exact iff_of_false nofun fun ⟨_, h, _⟩ => nomatch h

/-- The payloads that markers take. -/
theorem constraint?_eq_ok_iff {m : Marker} {e : Element} {c : Constraint} :
    constraint? m e = .ok c ↔ Takes m e c := by
  constructor
  · intro h
    unfold constraint? at h
    split at h
    · cases h; exact .when _
    · cases h
    · cases h; exact .whilst _
    · cases h
    · split at h
      · rename_i hbs
        cases h
        obtain ⟨members, hmembers, hpairs⟩ := bindings?_eq_some_iff.1 hbs
        exact .bind hmembers hpairs
      · cases h
  · intro h
    cases h with
    | when f | whilst f => rfl
    | bind apart pairs =>
      simp only [constraint?, bindings?_eq_some_iff.2 ⟨_, apart, pairs⟩]

/-- What a marker does not take is complained about in its own words. -/
theorem eq_complaint_of_constraint? {m : Marker} {e : Element} {p : Problem}
    (h : constraint? m e = .error p) : p = m.complaint ∧ ∀ c, ¬ Takes m e c := by
  refine ⟨?_, fun c hc => ?_⟩
  · unfold constraint? at h
    split at h
    · cases h
    · cases h; rfl
    · cases h
    · cases h; rfl
    · split at h <;> cases h
      rfl
  · rw [constraint?_eq_ok_iff.2 hc] at h
    cases h

theorem Marker.ofText?_eq_some_iff {s : String} {m : Marker} :
    Marker.ofText? s = some m ↔ s = m.text := by
  constructor
  · intro h
    unfold ofText? at h
    split at h
    · cases h; assumption
    · split at h
      · cases h; assumption
      · split at h <;> cases h
        assumption
  · rintro rfl
    cases m <;> rfl

theorem Marker.startsMarker_text (m : Marker) : startsMarker m.text = true := by
  cases m <;> rfl

end Token

-- ---------------------------------------------------------------------------
-- Portions
-- ---------------------------------------------------------------------------

/-- Elements of a pattern that belong together, and the token that they are in the first place. -/
structure Portion where
  elements : List Element
  token : Token

namespace Portion

/-- A text that is a phrase, or a marker and what it takes. -/
inductive Fits : Portion → Prop
  | phrase {s : String} {p : Phrase} (plain : s.toList.head? ≠ some ':')
      (written : p.WrittenIn s) : Fits ⟨[.text s], p.token⟩
  | constraint {m : Token.Marker} {payload : Element} {c : Constraint}
      (takes : Token.Takes m payload c) :
      Fits ⟨[.text m.text, payload], .constraint ⟨c, 0⟩⟩

/-- The elements of portions in a row. -/
def joined (us : List Portion) : List Element :=
  us.flatMap elements

/-- The tokens of portions in a row, each at the position of its first element. -/
def placed (i : Nat) : List Portion → List Token
  | [] => []
  | u :: us => u.token.atIndex i :: placed (i + u.elements.length) us

/-- The portions into which a pattern is cut. -/
structure Cuts (us : List Portion) (es : List Element) : Prop where
  units : ∀ u ∈ us, u.Fits
  joined : joined us = es

theorem Cuts.nil : Cuts [] [] where
  units := nofun
  joined := rfl

theorem Cuts.cons {u : Portion} {us : List Portion} {es : List Element} (hu : u.Fits)
    (h : Cuts us es) : Cuts (u :: us) (u.elements ++ es) where
  units := List.forall_mem_cons.2 ⟨hu, h.units⟩
  joined := by rw [Portion.joined, List.flatMap_cons, ← Portion.joined, h.joined]

theorem Cuts.tail {u : Portion} {us : List Portion} {es : List Element} (h : Cuts (u :: us) es) :
    u.Fits ∧ Cuts us (Portion.joined us) ∧ es = u.elements ++ Portion.joined us := by
  obtain ⟨hu, hus⟩ := List.forall_mem_cons.1 h.units
  exact ⟨hu, ⟨hus, rfl⟩, by rw [← h.joined, Portion.joined, List.flatMap_cons]; rfl⟩

end Portion

namespace Token

open Portion

theorem startsMarker_eq_true_iff {s : String} :
    startsMarker s = true ↔ s.toList.head? = some ':' :=
  decide_eq_true_iff

/-- Units and the tokens they are given are portions and their tokens. -/
theorem units_eq_ok_iff_cut {i : Nat} {es : List Element} {ts : List Token} :
    units i es = .ok ts ↔ ∃ us, Cuts us es ∧ placed i us = ts := by
  rw [units_eq_ok_iff]
  constructor
  · -- along the reading: each unit read is cut off
    intro h
    induction h with
    | nil i => exact ⟨[], .nil, rfl⟩
    | @marker i s m payload c es ts starts marker taken rest ih =>
      obtain ⟨us, hus, rfl⟩ := ih
      obtain rfl := Marker.ofText?_eq_some_iff.1 marker
      exact ⟨_, .cons (.constraint (constraint?_eq_ok_iff.1 taken)) hus, rfl⟩
    | @token i s t es ts starts text rest ih =>
      obtain ⟨us, hus, rfl⟩ := ih
      obtain ⟨p, hp, rfl⟩ := read?_eq_some_iff.1 text
      exact ⟨_, .cons (.phrase (mt startsMarker_eq_true_iff.2 starts) hp) hus, rfl⟩
  · -- along the portions: each is read back
    rintro ⟨us, hus, rfl⟩
    induction us generalizing i es with
    | nil =>
      obtain rfl := hus.joined
      exact .nil i
    | cons u us ih =>
      obtain ⟨hu, htail, rfl⟩ := hus.tail
      cases hu with
      | phrase plain written =>
        exact .token (mt startsMarker_eq_true_iff.1 plain)
          (read?_eq_some_iff.2 ⟨_, written, rfl⟩) (ih htail)
      | @constraint m payload c takes =>
        exact .marker m.startsMarker_text (Marker.ofText?_eq_some_iff.2 rfl)
          (constraint?_eq_ok_iff.2 takes) (ih htail)

theorem classify_eq_ok_iff_cut {es : List Element} {ts : List Token} :
    classify es = .ok ts ↔ ∃ us, Cuts us es ∧ placed 0 us = ts := by
  rw [classify_eq_ok_iff, ← units_eq_ok_iff, units_eq_ok_iff_cut]

end Token

namespace Portion

-- ---------------------------------------------------------------------------
-- One cut
-- ---------------------------------------------------------------------------

/-- No two units start alike. -/
theorem Fits.cancel {u v : Portion} (hu : u.Fits) (hv : v.Fits) {es fs : List Element}
    (h : u.elements ++ es = v.elements ++ fs) : u = v ∧ es = fs := by
  cases hu with
  | @phrase s p plain written =>
    cases hv with
    | @phrase s' p' plain' written' =>
      cases h
      rw [Phrase.writtenIn_iff] at written written'
      rw [Phrase.chars_injective (written.trans written'.symm)]
      exact ⟨rfl, rfl⟩
    -- a portion that begins with a marker is not the text of a phrase
    | @constraint m payload c takes =>
      cases h
      exact absurd (Token.startsMarker_eq_true_iff.1 m.startsMarker_text) plain
  | @constraint m payload c takes =>
    cases hv with
    | @phrase s p plain written =>
      cases h
      exact absurd (Token.startsMarker_eq_true_iff.1 m.startsMarker_text) plain
    | @constraint m' payload' c' takes' =>
      simp only [List.cons_append, List.nil_append, List.cons.injEq, Element.text.injEq] at h
      obtain ⟨htext, rfl, rfl⟩ := h
      -- the same marker and the same payload, which says what is taken
      have hm : some m = some m' := by
        rw [← Token.Marker.ofText?_eq_some_iff.2 htext, Token.Marker.ofText?_eq_some_iff.2 rfl]
      obtain rfl := Option.some.inj hm
      have hc : (Except.ok c : Except Problem Constraint) = .ok c' := by
        rw [← Token.constraint?_eq_ok_iff.2 takes, Token.constraint?_eq_ok_iff.2 takes']
      cases hc
      exact ⟨rfl, rfl⟩

theorem Fits.ne_nil {u : Portion} (hu : u.Fits) : u.elements ≠ [] := by
  cases hu <;> exact List.cons_ne_nil _ _

/-- A pattern is cut in one way at most. -/
theorem Cuts.unique {us vs : List Portion} {es : List Element} (hus : Cuts us es)
    (hvs : Cuts vs es) : us = vs := by
  induction us generalizing vs es with
  | nil =>
    obtain rfl := hus.joined
    cases vs with
    | nil => rfl
    | cons v vs =>
      obtain ⟨hv, -, heq⟩ := hvs.tail
      exact absurd (List.append_eq_nil_iff.1 heq.symm).1 hv.ne_nil
  | cons u us ih =>
    obtain ⟨hu, htail, rfl⟩ := hus.tail
    cases vs with
    | nil => exact absurd (List.append_eq_nil_iff.1 hvs.joined.symm).1 hu.ne_nil
    | cons v vs =>
      obtain ⟨hv, htail', heq⟩ := hvs.tail
      obtain ⟨rfl, hrest⟩ := hu.cancel hv heq
      rw [← hrest] at htail'
      rw [ih htail htail']

-- ---------------------------------------------------------------------------
-- Where a pattern cannot be cut
-- ---------------------------------------------------------------------------

/-- What is wrong with elements that start with no unit, and which of them is to blame: the first
one, or the payload that its marker does not take. -/
inductive Offends : List Element → Problem → Nat → Prop
  | noText {e : Element} {rest : List Element} (other : ∀ s, e ≠ .text s) :
      Offends (e :: rest) (.unexpectedElement e.literal) 0
  | noPhrase {s : String} {rest : List Element} (plain : s.toList.head? ≠ some ':')
      (unwritten : ∀ p : Phrase, ¬ p.WrittenIn s) : Offends (.text s :: rest) (.malformedToken s) 0
  | noMarker {s : String} {rest : List Element} (starts : s.toList.head? = some ':')
      (other : ∀ m : Token.Marker, s ≠ m.text) : Offends (.text s :: rest) (.unknownMarker s) 0
  | noPayload (m : Token.Marker) : Offends [.text m.text] (.markerAlone m.text) 0
  | payload {m : Token.Marker} {payload : Element} {rest : List Element}
      (refused : ∀ c, ¬ Token.Takes m payload c) :
      Offends (.text m.text :: payload :: rest) m.complaint 1

variable {rest : List Element} {p : Problem} {k : Nat}

/-- Elements that offend start with no unit. -/
theorem Offends.not_fits (h : Offends rest p k) {u : Portion} {es : List Element}
    (hrest : rest = u.elements ++ es) : ¬ u.Fits := by
  intro hu
  -- what offends stands at the front, where the portion would have to begin
  cases hu with
  | phrase plain written =>
    cases h with
    | noText other => cases hrest; exact other _ rfl
    | noPhrase _ unwritten => cases hrest; exact unwritten _ written
    | noMarker starts => cases hrest; exact plain starts
    | noPayload m | payload =>
      cases hrest
      exact plain (Token.startsMarker_eq_true_iff.1 (Token.Marker.startsMarker_text _))
  | @constraint m payload c takes =>
    cases h with
    | noText other => cases hrest; exact other _ rfl
    | noPhrase plain =>
      cases hrest
      exact plain (Token.startsMarker_eq_true_iff.1 m.startsMarker_text)
    | noMarker _ other => cases hrest; exact other m rfl
    | noPayload m' => exact nomatch (List.cons.inj hrest).2
    | @payload m' payload' rest refused =>
      simp only [List.cons_append, List.nil_append, List.cons.injEq, Element.text.injEq] at hrest
      obtain ⟨htext, rfl, rfl⟩ := hrest
      have hm : some m' = some m := by
        rw [← Token.Marker.ofText?_eq_some_iff.2 htext, Token.Marker.ofText?_eq_some_iff.2 rfl]
      obtain rfl := Option.some.inj hm
      exact refused c takes

theorem Offends.kind (h : Offends rest p k) : p.kind = .malformedToken := by
  cases h with
  | @payload m => cases m <;> rfl
  | _ => rfl

/-- Elements are cut up to where the first of them that are no unit offend, and at what place. -/
def Breaks (es : List Element) (p : Problem) (k : Nat) : Prop :=
  ∃ us rest j, Cuts us (joined us) ∧ es = joined us ++ rest ∧ Offends rest p j ∧
    k = (joined us).length + j

theorem Offends.breaks (h : Offends rest p k) : Breaks rest p k :=
  ⟨[], rest, k, .nil, rfl, h, (Nat.zero_add k).symm⟩

/-- A unit in front is cut off. -/
theorem Breaks.cons {u : Portion} (hu : u.Fits) (h : Breaks rest p k) :
    Breaks (u.elements ++ rest) p (u.elements.length + k) := by
  obtain ⟨us, rest, j, hus, rfl, hoffends, rfl⟩ := h
  have hcons : u.elements ++ joined us = joined (u :: us) := by
    rw [joined, joined, List.flatMap_cons]
  refine ⟨u :: us, rest, j, hcons ▸ hus.cons hu, ?_, hoffends, ?_⟩
  · rw [← hcons, List.append_assoc]
  · rw [← hcons, List.length_append, Nat.add_assoc]

end Portion

namespace Token

open Portion

/-- Elements that do not all fit are cut up to where the first of them offend. -/
theorem breaks_of_units {i : Nat} {es : List Element} {p : Problem} {j : Nat}
    (h : units i es = .error (p, j)) : ∃ k, j = i + k ∧ Breaks es p k := by
  -- along the reading; the first unit that is refused is where it breaks
  fun_induction units i es with
  | case1 => cases h
  | case2 i s rest hs hm =>
    cases h
    have hoffends : Offends (.text s :: rest) _ 0 :=
      .noMarker (startsMarker_eq_true_iff.1 hs) fun m heq => by
        rw [Marker.ofText?_eq_some_iff.2 heq] at hm
        cases hm
    exact ⟨0, rfl, hoffends.breaks⟩
  | case3 i s hs m hm =>
    cases h
    obtain rfl := Marker.ofText?_eq_some_iff.1 hm
    exact ⟨0, rfl, (Offends.noPayload m).breaks⟩
  | case4 i s hs m payload rest hm q hq =>
    cases h
    obtain rfl := Marker.ofText?_eq_some_iff.1 hm
    obtain ⟨rfl, hrefused⟩ := eq_complaint_of_constraint? hq
    exact ⟨1, rfl, (Offends.payload hrefused).breaks⟩
  | case5 i s hs m payload rest hm c hc ih =>
    obtain rfl := Marker.ofText?_eq_some_iff.1 hm
    cases hu : units (i + 2) rest with
    | ok ts => rw [hu] at h; cases h
    | error e =>
      rw [hu] at h
      cases h
      obtain ⟨k, rfl, hbreaks⟩ := ih hu
      exact ⟨2 + k, Nat.add_assoc i 2 k, hbreaks.cons (.constraint (constraint?_eq_ok_iff.1 hc))⟩
  | case6 i s rest hs hread =>
    cases h
    have hoffends : Offends (.text s :: rest) _ 0 :=
      .noPhrase (mt startsMarker_eq_true_iff.2 hs) fun q hq => by
        rw [read?_eq_some_iff.2 ⟨q, hq, rfl⟩] at hread
        cases hread
    exact ⟨0, rfl, hoffends.breaks⟩
  | case7 i s rest hs t ht ih =>
    obtain ⟨q, hq, rfl⟩ := read?_eq_some_iff.1 ht
    cases hu : units (i + 1) rest with
    | ok ts => rw [hu] at h; cases h
    | error e =>
      rw [hu] at h
      cases h
      obtain ⟨k, rfl, hbreaks⟩ := ih hu
      exact ⟨1 + k, Nat.add_assoc i 1 k,
        hbreaks.cons (.phrase (mt startsMarker_eq_true_iff.2 hs) hq)⟩
  | case8 i e rest hother =>
    cases h
    exact ⟨0, rfl, (Offends.noText hother).breaks⟩

/-- Behind elements that are cut, others are classified as on their own, at their positions. -/
theorem classify_append_eq {es : List Element} {ts : List Token} (hes : classify es = .ok ts)
    (fs : List Element) : (∀ us, classify fs = .ok us →
        classify (es ++ fs) = .ok (ts ++ us.map (later es.length))) ∧
      ((∃ us, classify (es ++ fs) = .ok us) → ∃ us, classify fs = .ok us) := by
  refine ⟨fun us hfs => classify_append hes hfs, fun ⟨us, hall⟩ => ?_⟩
  have hunits := (classify_eq_ok_iff.1 hes).units_append fs
  rw [units_eq_ok_iff.2 (classify_eq_ok_iff.1 hall)] at hunits
  cases hfs : units (0 + es.length) fs with
  | error e => rw [hfs] at hunits; cases hunits
  | ok vs =>
    obtain ⟨ps, hps, -⟩ := units_eq_ok_iff_cut.1 hfs
    exact ⟨_, classify_eq_ok_iff_cut.2 ⟨ps, hps, rfl⟩⟩

/-- A pattern is classified exactly if it can be cut into units, which it can be in one way only, and
every unit gives its token at the position of its first element. A pattern that cannot be cut is
malformed where the first elements that are no unit offend. What follows a classified pattern is
classified as on its own. -/
theorem classify_cuts (es : List Element) :
    (∀ ts, classify es = .ok ts ↔ ∃ us, Cuts us es ∧ placed 0 us = ts) ∧
    (∀ us vs, Cuts us es → Cuts vs es → us = vs) ∧
    ((¬ ∃ us, Cuts us es) → ∃ us rest p k, Cuts us (joined us) ∧ es = joined us ++ rest ∧
      Offends rest p k ∧ (∀ (u : Portion) (after : List Element), rest = u.elements ++ after → ¬ u.Fits) ∧
      p.kind = .malformedToken ∧
      classify es = .error (.refused (p.diagnostic
        (some (Pattern.locate es ((joined us).length + k : Nat))) (some (Pattern.shown es))))) ∧
    ∀ ts, classify es = .ok ts → ∀ fs,
      ((∃ us, classify (es ++ fs) = .ok us) ↔ ∃ us, classify fs = .ok us) ∧
      ∀ us, classify fs = .ok us → classify (es ++ fs) = .ok (ts ++ us.map (later es.length)) := by
  refine ⟨fun ts => classify_eq_ok_iff_cut, fun us vs => Cuts.unique, fun hnone => ?_,
    fun ts hes fs => ?_⟩
  · cases hunits : units 0 es with
    | ok ts =>
      obtain ⟨us, hus, -⟩ := units_eq_ok_iff_cut.1 hunits
      exact absurd ⟨us, hus⟩ hnone
    | error e =>
      obtain ⟨p, j⟩ := e
      obtain ⟨-, rfl, us, rest, k, hus, hes, hoffends, rfl⟩ := breaks_of_units hunits
      refine ⟨us, rest, p, k, hus, hes, hoffends, fun u after => hoffends.not_fits,
        hoffends.kind, ?_⟩
      rw [classify, hunits, Nat.zero_add]
  · obtain ⟨hforth, hback⟩ := classify_append_eq hes fs
    refine ⟨⟨hback, ?_⟩, hforth⟩
    rintro ⟨us, hfs⟩
    exact ⟨_, hforth us hfs⟩

end Token

/-- A marker whose payload looks like another marker. -/
def doubleMarker : List Element :=
  [.text "a", .text ":let", .text ":when", .form { id := "f" }]

/-- What looks like a marker in the place of a payload is none, also where a text can be taken: after
bindings of nothing, a marker is a marker again. -/
theorem Token.classify_cuts_doubleMarker :
    (¬ ∃ us, Portion.Cuts us doubleMarker) ∧
    (∃ us rest p k, Portion.Cuts us (Portion.joined us) ∧
      doubleMarker = Portion.joined us ++ rest ∧ Portion.Offends rest p k ∧
      classify doubleMarker = .error (.refused (p.diagnostic
        (some (Pattern.locate doubleMarker ((Portion.joined us).length + k : Nat)))
        (some (Pattern.shown doubleMarker))))) ∧
    classify [.text ":let", .text ""] = .ok [.constraint ⟨.bind [], 0⟩] ∧
    classify ([.text ":let", .text ""] ++ [.text ":when", .form { id := "f" }]) =
      .ok [.constraint ⟨.bind [], 0⟩, .constraint ⟨.when { id := "f" }, 2⟩] := by
  have hunits : units 0 doubleMarker = .error (.notBindings, 2) := by rfl
  have hnone : ¬ ∃ us, Portion.Cuts us doubleMarker := by
    rintro ⟨us, hus⟩
    rw [units_eq_ok_iff_cut.2 ⟨us, hus, rfl⟩] at hunits
    cases hunits
  obtain ⟨-, -, hoffends, -⟩ := classify_cuts doubleMarker
  obtain ⟨us, rest, p, k, hus, hes, hat, -, -, hclassify⟩ := hoffends hnone
  have hempty : classify [.text ":let", .text ""] = .ok [.constraint ⟨.bind [], 0⟩] := by cbv
  have hwhen : classify [.text ":when", .form { id := "f" }] =
      .ok [.constraint ⟨.when { id := "f" }, 0⟩] := by cbv
  obtain ⟨-, -, -, hafter⟩ := classify_cuts [.text ":let", .text ""]
  exact ⟨hnone, ⟨us, rest, p, k, hus, hes, hat, hclassify⟩, hempty,
    (hafter _ hempty _).2 _ hwhen⟩

end GraphPattern
