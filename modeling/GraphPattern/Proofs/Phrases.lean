import GraphPattern.Proofs.Reading
import Mathlib.Data.List.TakeWhile

/-!
# GraphPattern — phrases

The grammar of tokens, as syntax. A phrase is one way of writing a token: a node spec, or an edge
around a spec that may be left out. A text is read by what it consists of, from the front, with a
look at its end; that this is the grammar, and that no text can be read in two ways, is what is
proved here.

## Results

* `Phrase.chars_injective` — no two phrases are written alike.
* `Token.readChars?_eq_some_iff` — reading finds a token exactly where a phrase is written.
* `Token.exists_phrase` — every token whose name and type can be written has a phrase, its text.
* `Token.read?_phrases` — all of it for texts, with blanks around the phrase.
-/

namespace GraphPattern

-- ---------------------------------------------------------------------------
-- Syntax
-- ---------------------------------------------------------------------------

/-- An ASCII letter or digit, or an underscore. -/
def IsNameLetter (c : Char) : Prop :=
  ('a' ≤ c ∧ c ≤ 'z') ∨ ('A' ≤ c ∧ c ≤ 'Z') ∨ ('0' ≤ c ∧ c ≤ '9') ∨ c = '_'

/-- What a name may hold, or a point or an exclamation mark. -/
def IsTypeLetter (c : Char) : Prop :=
  IsNameLetter c ∨ c = '.' ∨ c = '!'

theorem isNameChar_iff {c : Char} : isNameChar c = true ↔ IsNameLetter c := by
  have hchar : isNameChar c =
      (decide ('A' ≤ c ∧ c ≤ 'Z') || decide ('a' ≤ c) && decide (c ≤ 'z') ||
        decide ('0' ≤ c) && decide (c ≤ '9') || c == '_') := rfl
  rw [hchar]
  simp only [Bool.or_eq_true, Bool.and_eq_true, decide_eq_true_eq, beq_iff_eq, IsNameLetter]
  tauto

theorem isTypeChar_iff {c : Char} : isTypeChar c = true ↔ IsTypeLetter c := by
  simp only [isTypeChar, Bool.or_eq_true, isNameChar_iff, beq_iff_eq, IsTypeLetter, or_assoc]

instance : DecidablePred IsNameLetter := fun _ => decidable_of_iff _ isNameChar_iff

instance : DecidablePred IsTypeLetter := fun _ => decidable_of_iff _ isTypeChar_iff

/-- A nonempty run of characters of a class. -/
structure Run (p : Char → Prop) where
  chars : List Char
  ne_nil : chars ≠ []
  all : ∀ c ∈ chars, p c

theorem Run.ext {p : Char → Prop} {r r' : Run p} (h : r.chars = r'.chars) : r = r' := by
  cases r
  cases r'
  cases h
  rfl

abbrev Name : Type := Run IsNameLetter

abbrev TypeName : Type := Run IsTypeLetter

/-- What stands in angle brackets: a type or nothing. -/
abbrev TypePart : Type := Option TypeName

def TypePart.chars (a : TypePart) : List Char :=
  '<' :: (a.elim [] Run.chars ++ ['>'])

/-- What is written of a node, or of an edge between its arrow marks. -/
inductive Spec where
  | named (n : Name)
  | typed (n : Name) (a : TypePart)
  | unnamed (a : TypePart)

namespace Spec

/-- The characters in front of the annotation. -/
def front : Spec → List Char
  | named n | typed n _ => n.chars
  | unnamed _ => []

/-- The characters of the annotation. -/
def back : Spec → List Char
  | named _ => []
  | typed _ a | unnamed a => a.chars

def chars (s : Spec) : List Char :=
  s.front ++ s.back

def name? : Spec → Option String
  | named n | typed n _ => some (String.ofList n.chars)
  | unnamed _ => none

/-- The type of a spec. An empty annotation gives none. -/
def typeName? : Spec → Option String
  | named _ => none
  | typed _ a | unnamed a => a.map fun t => String.ofList t.chars

end Spec

/-- A token as it is written. -/
inductive Phrase where
  | node (s : Spec)
  /-- An edge that leads on: a spec, if any, between `-` and `->`. -/
  | out (s? : Option Spec)
  /-- An edge that leads back: a spec, if any, between `<-` and `-`. -/
  | into (s? : Option Spec)

namespace Phrase

def chars : Phrase → List Char
  | node s => s.chars
  | out s? => '-' :: (s?.elim [] Spec.chars ++ ['-', '>'])
  | into s? => '<' :: '-' :: (s?.elim [] Spec.chars ++ ['-'])

/-- What a phrase stands for. -/
def token : Phrase → Token
  | node s => .node { name? := s.name?, typeName? := s.typeName? }
  | out s? =>
    .edge { name? := s?.bind Spec.name?, typeName? := s?.bind Spec.typeName?, direction := .out }
  | into s? =>
    .edge { name? := s?.bind Spec.name?, typeName? := s?.bind Spec.typeName?, direction := .into }

/-- A text is a phrase, up to blanks around it. -/
def WrittenIn (p : Phrase) (s : String) : Prop :=
  ∃ before after : List Char, (∀ c ∈ before, Text.isBlank c = true) ∧
    (∀ c ∈ after, Text.isBlank c = true) ∧ s.toList = before ++ p.chars ++ after

end Phrase

-- ---------------------------------------------------------------------------
-- Characters of phrases
-- ---------------------------------------------------------------------------

theorem not_isNameLetter_lt : ¬ IsNameLetter '<' := by
  rw [← isNameChar_iff]
  decide

theorem not_isNameLetter_minus : ¬ IsNameLetter '-' := by
  rw [← isNameChar_iff]
  decide

theorem not_isTypeLetter_minus : ¬ IsTypeLetter '-' := by
  rw [← isTypeChar_iff]
  decide

namespace Spec

theorem isNameChar_front (s : Spec) : ∀ c ∈ s.front, isNameChar c = true := by
  intro c hc
  cases s with
  | named n | typed n a => exact isNameChar_iff.2 (n.all c hc)
  | unnamed a => cases hc

/-- The name ends where the annotation starts. -/
theorem takeWhile_back (s : Spec) : s.back.takeWhile isNameChar = [] := by
  cases s <;> rfl

theorem takeWhile_chars (s : Spec) : s.chars.takeWhile isNameChar = s.front := by
  rw [chars, List.takeWhile_append_of_pos s.isNameChar_front, takeWhile_back, List.append_nil]

theorem dropWhile_chars (s : Spec) : s.chars.dropWhile isNameChar = s.back := by
  rw [chars, List.dropWhile_append_of_pos s.isNameChar_front]
  cases s <;> rfl

theorem chars_ne_nil (s : Spec) : s.chars ≠ [] := by
  cases s with
  | named n => simpa [chars, front, back] using n.ne_nil
  | typed n a => simp [chars, back, TypePart.chars]
  | unnamed a => simp [chars, back, TypePart.chars]

end Spec

-- ---------------------------------------------------------------------------
-- No two phrases are written alike
-- ---------------------------------------------------------------------------

theorem TypePart.chars_injective {a a' : TypePart} (h : a.chars = a'.chars) : a = a' := by
  have hinner : a.elim [] Run.chars = a'.elim [] Run.chars :=
    List.append_cancel_right (List.cons.inj h).2
  cases a with
  | none =>
    cases a' with
    | none => rfl
    | some t => exact absurd hinner.symm t.ne_nil
  | some t =>
    cases a' with
    | none => exact absurd hinner t.ne_nil
    | some t' => exact congrArg some (Run.ext hinner)

theorem Spec.chars_injective {s s' : Spec} (h : s.chars = s'.chars) : s = s' := by
  have hfront : s.front = s'.front := by
    rw [← takeWhile_chars, h, takeWhile_chars]
  have hback : s.back = s'.back := by
    rw [← dropWhile_chars, h, dropWhile_chars]
  cases s with
  | named n =>
    cases s' with
    | named n' => exact congrArg named (Run.ext hfront)
    | typed n' a' => cases hback
    | unnamed a' => cases hback
  | typed n a =>
    cases s' with
    | named n' => cases hback
    | typed n' a' => rw [Run.ext hfront, TypePart.chars_injective hback]
    | unnamed a' => exact absurd hfront n.ne_nil
  | unnamed a =>
    cases s' with
    | named n' => cases hback
    | typed n' a' => exact absurd hfront.symm n'.ne_nil
    | unnamed a' => rw [TypePart.chars_injective hback]

/-- Optional specs are told apart: a spec is never nothing. -/
theorem Spec.elim_chars_injective {s? s?' : Option Spec}
    (h : s?.elim [] Spec.chars = s?'.elim [] Spec.chars) : s? = s?' := by
  cases s? with
  | none =>
    cases s?' with
    | none => rfl
    | some s => exact absurd h.symm s.chars_ne_nil
  | some s =>
    cases s?' with
    | none => exact absurd h s.chars_ne_nil
    | some s' => exact congrArg some (Spec.chars_injective h)

/-- A node starts with a letter of a name, or with an angle bracket that no arrow mark follows. -/
theorem Spec.head_cases (s : Spec) :
    (∃ c cs, s.chars = c :: cs ∧ IsNameLetter c) ∨
      ∃ c cs, s.chars = '<' :: c :: cs ∧ c ≠ '-' := by
  have hnamed : ∀ (n : Name) (rest : List Char), ∃ c cs, n.chars ++ rest = c :: cs ∧
      IsNameLetter c := by
    intro n rest
    obtain ⟨c, cs, hn⟩ := List.exists_cons_of_ne_nil n.ne_nil
    exact ⟨c, cs ++ rest, by rw [hn]; rfl, n.all c (by simp [hn])⟩
  cases s with
  | named n => exact .inl (hnamed n _)
  | typed n a => exact .inl (hnamed n _)
  | unnamed a =>
    refine .inr ?_
    cases a with
    | none => exact ⟨'>', [], rfl, by decide⟩
    | some t =>
      obtain ⟨c, cs, ht⟩ := List.exists_cons_of_ne_nil t.ne_nil
      refine ⟨c, cs ++ ['>'], ?_, ?_⟩
      · simp [chars, front, back, TypePart.chars, ht]
      · rintro rfl
        exact not_isTypeLetter_minus (t.all '-' (by simp [ht]))

theorem Spec.chars_ne_minus (s : Spec) (cs : List Char) : s.chars ≠ '-' :: cs := by
  intro h
  rcases s.head_cases with ⟨c, cs', hs, hc⟩ | ⟨c, cs', hs, -⟩ <;> rw [hs] at h <;> cases h
  exact not_isNameLetter_minus hc

theorem Spec.chars_ne_lt_minus (s : Spec) (cs : List Char) : s.chars ≠ '<' :: '-' :: cs := by
  intro h
  rcases s.head_cases with ⟨c, cs', hs, hc⟩ | ⟨c, cs', hs, hc⟩ <;> rw [hs] at h <;> cases h
  · exact not_isNameLetter_lt hc
  · exact hc rfl

/-- No two phrases are written alike. -/
theorem Phrase.chars_injective {p p' : Phrase} (h : p.chars = p'.chars) : p = p' := by
  cases p with
  | node s =>
    cases p' with
    | node s' => exact congrArg node (Spec.chars_injective h)
    | out s?' => exact absurd h (s.chars_ne_minus _)
    | into s?' => exact absurd h (s.chars_ne_lt_minus _)
  | out s? =>
    cases p' with
    | node s' => exact absurd h.symm (s'.chars_ne_minus _)
    | out s?' =>
      exact congrArg out (Spec.elim_chars_injective (List.append_cancel_right (List.cons.inj h).2))
    | into s?' => cases h
  | into s? =>
    cases p' with
    | node s' => exact absurd h.symm (s'.chars_ne_lt_minus _)
    | out s?' => cases h
    | into s?' =>
      have hinner := (List.cons.inj (List.cons.inj h).2).2
      exact congrArg into (Spec.elim_chars_injective (List.append_cancel_right hinner))

-- ---------------------------------------------------------------------------
-- Reading
-- ---------------------------------------------------------------------------

namespace Token

/-- The characters of a run are of its class. -/
theorem all_takeWhile_of {p : Char → Bool} {P : Char → Prop} (h : ∀ {c}, p c = true ↔ P c)
    (cs : List Char) : ∀ c ∈ cs.takeWhile p, P c :=
  fun _ hc => h.1 (List.mem_takeWhile_imp hc)

theorem annotation?_chars (a : TypePart) :
    annotation? a.chars = some (a.map fun t => String.ofList t.chars) := by
  cases a with
  | none => rfl
  | some t =>
    have hall : ∀ c ∈ t.chars, isTypeChar c = true := fun c hc => isTypeChar_iff.2 (t.all c hc)
    have htake : (t.chars ++ ['>']).takeWhile isTypeChar = t.chars := by
      rw [List.takeWhile_append_of_pos hall]
      exact List.append_nil _
    have hdrop : (t.chars ++ ['>']).dropWhile isTypeChar = ['>'] := by
      rw [List.dropWhile_append_of_pos hall]
      rfl
    obtain ⟨c, cs, ht⟩ := List.exists_cons_of_ne_nil t.ne_nil
    rw [ht] at htake hdrop
    simp only [TypePart.chars, Option.elim_some, annotation?, ht, htake, hdrop, Option.map_some]

theorem exists_of_annotation? {cs : List Char} {t? : Option String}
    (h : annotation? cs = some t?) :
    ∃ a : TypePart, a.chars = cs ∧ a.map (fun t => String.ofList t.chars) = t? := by
  unfold annotation? at h
  split at h
  · rename_i cs
    have hsplit := List.takeWhile_append_dropWhile (p := isTypeChar) (l := cs)
    split at h
    · rename_i htake hdrop
      cases h
      rw [htake, hdrop] at hsplit
      exact ⟨none, by rw [← hsplit]; rfl, rfl⟩
    · rename_i hdrop hempty
      cases h
      rw [hdrop] at hsplit
      exact ⟨some ⟨_, hempty, all_takeWhile_of isTypeChar_iff cs⟩, congrArg _ hsplit, rfl⟩
    · cases h
  · cases h

theorem spec?_chars (s : Spec) : spec? s.chars = some (s.name?, s.typeName?) := by
  rw [spec?, Spec.takeWhile_chars, Spec.dropWhile_chars]
  cases s with
  | named n =>
    obtain ⟨c, cs, hn⟩ := List.exists_cons_of_ne_nil n.ne_nil
    simp only [Spec.front, Spec.back, hn, Spec.name?, Spec.typeName?]
  | typed n a =>
    obtain ⟨c, cs, hn⟩ := List.exists_cons_of_ne_nil n.ne_nil
    have ha := annotation?_chars a
    simp only [TypePart.chars] at ha
    simp only [Spec.front, Spec.back, TypePart.chars, hn, ha, Spec.name?, Spec.typeName?,
      Option.map_some]
  | unnamed a =>
    simp only [Spec.front, Spec.back, Spec.name?, Spec.typeName?, annotation?_chars]
    rfl

theorem exists_of_spec? {cs : List Char} {x : Option String × Option String}
    (h : spec? cs = some x) : ∃ s : Spec, s.chars = cs ∧ (s.name?, s.typeName?) = x := by
  have hsplit := List.takeWhile_append_dropWhile (p := isNameChar) (l := cs)
  unfold spec? at h
  split at h
  · rename_i htake
    obtain ⟨t?, ht, rfl⟩ := Option.map_eq_some_iff.1 h
    obtain ⟨a, ha, rfl⟩ := exists_of_annotation? ht
    rw [htake] at hsplit
    exact ⟨.unnamed a, by rw [← hsplit]; exact ha, rfl⟩
  · rename_i hdrop hempty
    cases h
    rw [hdrop] at hsplit
    exact ⟨.named ⟨_, hempty, all_takeWhile_of isNameChar_iff cs⟩, hsplit, rfl⟩
  · rename_i hempty hrest
    obtain ⟨t?, ht, rfl⟩ := Option.map_eq_some_iff.1 h
    obtain ⟨a, ha, rfl⟩ := exists_of_annotation? ht
    refine ⟨.typed ⟨_, hempty, all_takeWhile_of isNameChar_iff cs⟩ a, ?_, rfl⟩
    rw [Spec.chars, Spec.back, ha]
    exact hsplit

theorem edgeSpec?_eq_some_iff {cs : List Char} {x : Option String × Option String} :
    edgeSpec? cs = some x ↔ ∃ s? : Option Spec, s?.elim [] Spec.chars = cs ∧
      (s?.bind Spec.name?, s?.bind Spec.typeName?) = x := by
  unfold edgeSpec?
  constructor
  · intro h
    split at h
    · rename_i hempty
      cases h
      exact ⟨none, (List.isEmpty_iff.1 hempty).symm, rfl⟩
    · obtain ⟨s, rfl, rfl⟩ := exists_of_spec? h
      exact ⟨some s, rfl, rfl⟩
  · rintro ⟨s?, rfl, rfl⟩
    cases s? with
    | none => rfl
    | some s =>
      exact (if_neg fun hempty => s.chars_ne_nil (List.isEmpty_iff.1 hempty)).trans (spec?_chars s)

theorem before?_eq_some_iff {close cs inner : List Char} :
    before? close cs = some inner ↔ cs = inner ++ close := by
  unfold before?
  constructor
  · intro h
    split at h
    · rename_i hsuffix
      cases h
      obtain ⟨rest, rfl⟩ := List.isSuffixOf_iff_suffix.1 hsuffix
      simp
    · cases h
  · rintro rfl
    rw [if_pos (List.isSuffixOf_iff_suffix.2 (List.suffix_append _ _))]
    simp

/-- Reading finds a token exactly where a phrase is written that stands for it. -/
theorem readChars?_eq_some_iff {cs : List Char} {t : Token} :
    readChars? cs = some t ↔ ∃ p : Phrase, p.chars = cs ∧ p.token = t := by
  constructor
  · intro h
    unfold readChars? at h
    split at h <;> simp only [Option.bind_eq_bind, Option.bind_eq_some_iff] at h
    · obtain ⟨inner, hinner, x, hspec, ht⟩ := h
      obtain ⟨s?, rfl, rfl⟩ := edgeSpec?_eq_some_iff.1 hspec
      rw [before?_eq_some_iff.1 hinner]
      exact ⟨.into s?, rfl, Option.some.inj ht⟩
    · obtain ⟨inner, hinner, x, hspec, ht⟩ := h
      obtain ⟨s?, rfl, rfl⟩ := edgeSpec?_eq_some_iff.1 hspec
      rw [before?_eq_some_iff.1 hinner]
      exact ⟨.out s?, rfl, Option.some.inj ht⟩
    · obtain ⟨x, hspec, ht⟩ := h
      obtain ⟨s, rfl, rfl⟩ := exists_of_spec? hspec
      exact ⟨.node s, rfl, Option.some.inj ht⟩
  · rintro ⟨p, rfl, rfl⟩
    cases p with
    | node s =>
      unfold readChars?
      split
      · exact absurd (by assumption) (s.chars_ne_lt_minus _)
      · exact absurd (by assumption) (s.chars_ne_minus _)
      · rw [Phrase.chars, spec?_chars]
        rfl
    | out s? =>
      simp only [Phrase.chars, readChars?, before?_eq_some_iff.2 rfl, Option.bind_eq_bind,
        Option.bind_some, edgeSpec?_eq_some_iff.2 ⟨s?, rfl, rfl⟩]
      rfl
    | into s? =>
      simp only [Phrase.chars, readChars?, before?_eq_some_iff.2 rfl, Option.bind_eq_bind,
        Option.bind_some, edgeSpec?_eq_some_iff.2 ⟨s?, rfl, rfl⟩]
      rfl

end Token

-- ---------------------------------------------------------------------------
-- Blanks
-- ---------------------------------------------------------------------------

namespace Text

theorem dropWhile_of_inked {m : List Char} (hm : ∀ c ∈ m, isBlank c = false) :
    m.dropWhile isBlank = m := by
  cases m with
  | nil => rfl
  | cons c cs => rw [List.dropWhile_cons, hm c List.mem_cons_self, if_neg Bool.false_ne_true]

/-- Blanks in front of what has none are dropped. -/
theorem dropWhile_blanks {l m r : List Char} (hl : ∀ c ∈ l, isBlank c = true)
    (hm : ∀ c ∈ m, isBlank c = false) (hne : m ≠ []) :
    (l ++ m ++ r).dropWhile isBlank = m ++ r := by
  rw [List.append_assoc, List.dropWhile_append_of_pos hl, List.dropWhile_append,
    dropWhile_of_inked hm, if_neg fun h => hne (List.isEmpty_iff.1 h)]

theorem trimChars_eq {l m r : List Char} (hl : ∀ c ∈ l, isBlank c = true)
    (hm : ∀ c ∈ m, isBlank c = false) (hr : ∀ c ∈ r, isBlank c = true) (hne : m ≠ []) :
    trimChars (l ++ m ++ r) = m := by
  have hback := dropWhile_blanks (l := r.reverse) (m := m.reverse) (r := [])
    (fun c hc => hr c (List.mem_reverse.1 hc)) (fun c hc => hm c (List.mem_reverse.1 hc))
    (by simpa using hne)
  rw [List.append_nil, List.append_nil] at hback
  rw [trimChars, dropWhile_blanks hl hm hne, List.reverse_append, hback, List.reverse_reverse]

/-- A text is what is left of it when it is trimmed, with blanks around it. -/
theorem exists_trimChars (cs : List Char) : ∃ l r : List Char, (∀ c ∈ l, isBlank c = true) ∧
    (∀ c ∈ r, isBlank c = true) ∧ cs = l ++ trimChars cs ++ r := by
  refine ⟨cs.takeWhile isBlank, ((cs.dropWhile isBlank).reverse.takeWhile isBlank).reverse,
    fun c hc => List.mem_takeWhile_imp hc,
    fun c hc => List.mem_takeWhile_imp (List.mem_reverse.1 hc), ?_⟩
  rw [trimChars, List.append_assoc, ← List.reverse_append, List.takeWhile_append_dropWhile,
    List.reverse_reverse, List.takeWhile_append_dropWhile]

theorem isBlank_eq_false {c : Char} (hlow : 0x21 ≤ c.toNat) (hhigh : c.toNat ≤ 0x7a) :
    isBlank c = false := by
  simp only [isBlank, Bool.or_eq_false_iff, Bool.and_eq_false_iff, decide_eq_false_iff_not,
    beq_eq_false_iff_ne]
  omega

end Text

theorem isBlank_of_isNameLetter {c : Char} (h : IsNameLetter c) : Text.isBlank c = false := by
  simp only [IsNameLetter, Char.le_def, UInt32.le_iff_toNat_le] at h
  have hval : c.val.toNat = c.toNat := rfl
  have hletters : '0'.val.toNat = 48 ∧ '9'.val.toNat = 57 ∧ 'A'.val.toNat = 65 ∧
    'Z'.val.toNat = 90 ∧ 'a'.val.toNat = 97 ∧ 'z'.val.toNat = 122 := by decide
  rcases h with h | h | h | rfl
  · exact Text.isBlank_eq_false (by omega) (by omega)
  · exact Text.isBlank_eq_false (by omega) (by omega)
  · exact Text.isBlank_eq_false (by omega) (by omega)
  · rfl

theorem isBlank_of_isTypeLetter {c : Char} (h : IsTypeLetter c) : Text.isBlank c = false := by
  rcases h with h | rfl | rfl
  · exact isBlank_of_isNameLetter h
  · rfl
  · rfl

theorem TypePart.inked (a : TypePart) : ∀ c ∈ a.chars, Text.isBlank c = false := by
  intro c hc
  simp only [chars, List.mem_cons, List.mem_append, List.not_mem_nil, or_false] at hc
  rcases hc with rfl | hc | rfl
  · rfl
  · cases a with
    | none => cases hc
    | some t => exact isBlank_of_isTypeLetter (t.all c hc)
  · rfl

theorem Spec.inked (s : Spec) : ∀ c ∈ s.chars, Text.isBlank c = false := by
  intro c hc
  rcases List.mem_append.1 hc with hc | hc
  · exact isBlank_of_isNameLetter (isNameChar_iff.1 (s.isNameChar_front c hc))
  · cases s with
    | named n => cases hc
    | typed n a | unnamed a => exact a.inked c hc

theorem Phrase.inked (p : Phrase) : ∀ c ∈ p.chars, Text.isBlank c = false := by
  have hspec : ∀ s? : Option Spec, ∀ c ∈ s?.elim [] Spec.chars, Text.isBlank c = false := by
    intro s? c hc
    cases s? with
    | none => cases hc
    | some s => exact s.inked c hc
  intro c hc
  cases p with
  | node s => exact s.inked c hc
  | out s? =>
    simp only [chars, List.mem_cons, List.mem_append, List.not_mem_nil, or_false] at hc
    rcases hc with rfl | hc | rfl | rfl
    · rfl
    · exact hspec s? c hc
    · rfl
    · rfl
  | into s? =>
    simp only [chars, List.mem_cons, List.mem_append, List.not_mem_nil, or_false] at hc
    rcases hc with rfl | rfl | hc | rfl
    · rfl
    · rfl
    · exact hspec s? c hc
    · rfl

theorem Phrase.chars_ne_nil (p : Phrase) : p.chars ≠ [] := by
  cases p with
  | node s => exact s.chars_ne_nil
  | out s? | into s? => exact List.cons_ne_nil _ _

theorem Phrase.writtenIn_iff {p : Phrase} {s : String} :
    p.WrittenIn s ↔ p.chars = Text.trimChars s.toList := by
  constructor
  · rintro ⟨l, r, hl, hr, hs⟩
    rw [hs, Text.trimChars_eq hl p.inked hr p.chars_ne_nil]
  · intro h
    obtain ⟨l, r, hl, hr, hs⟩ := Text.exists_trimChars s.toList
    exact ⟨l, r, hl, hr, by rw [h]; exact hs⟩

-- ---------------------------------------------------------------------------
-- Tokens that can be written
-- ---------------------------------------------------------------------------

/-- The name and the type, as far as there are any, can be written. -/
def Writable (name? typeName? : Option String) : Prop :=
  (∀ n, name? = some n → n.toList ≠ [] ∧ ∀ c ∈ n.toList, IsNameLetter c) ∧
    ∀ t, typeName? = some t → t.toList ≠ [] ∧ ∀ c ∈ t.toList, IsTypeLetter c

/-- The spec that is written for a name and a type. -/
theorem Spec.exists_spec {name? typeName? : Option String} (h : Writable name? typeName?) :
    ∃ s : Spec, s.name? = name? ∧ s.typeName? = typeName? ∧
      (specText name? typeName?).toList = s.chars := by
  have hname : ∀ n, name? = some n → ∃ r : Name, r.chars = n.toList := fun n hn =>
    ⟨⟨n.toList, (h.1 n hn).1, (h.1 n hn).2⟩, rfl⟩
  have htype : ∀ t, typeName? = some t → ∃ r : TypeName, r.chars = t.toList := fun t ht =>
    ⟨⟨t.toList, (h.2 t ht).1, (h.2 t ht).2⟩, rfl⟩
  cases name? with
  | none =>
    cases typeName? with
    | none => exact ⟨.unnamed none, rfl, rfl, rfl⟩
    | some t =>
      obtain ⟨u, hu⟩ := htype t rfl
      refine ⟨.unnamed (some u), rfl, ?_, ?_⟩
      · simp [typeName?, hu]
      · simp [specText, chars, front, back, TypePart.chars, hu]
  | some n =>
    obtain ⟨m, hm⟩ := hname n rfl
    cases typeName? with
    | none =>
      refine ⟨.named m, ?_, rfl, ?_⟩
      · simp [Spec.name?, hm]
      · simp [specText, chars, front, back, hm]
    | some t =>
      obtain ⟨u, hu⟩ := htype t rfl
      refine ⟨.typed m (some u), ?_, ?_, ?_⟩
      · simp [Spec.name?, hm]
      · simp [typeName?, hu]
      · simp [specText, chars, front, back, TypePart.chars, hm, hu]

/-- What a spec writes can be written. -/
theorem Spec.writable (s : Spec) : Writable s.name? s.typeName? := by
  have hrun : ∀ {p : Char → Prop} (r : Run p), (String.ofList r.chars).toList ≠ [] ∧
      ∀ c ∈ (String.ofList r.chars).toList, p c := by
    intro p r
    rw [String.toList_ofList]
    exact ⟨r.ne_nil, r.all⟩
  have htype : ∀ (a : TypePart) (t : String), a.map (fun r => String.ofList r.chars) = some t →
      t.toList ≠ [] ∧ ∀ c ∈ t.toList, IsTypeLetter c := by
    intro a t ht
    obtain ⟨r, -, rfl⟩ := Option.map_eq_some_iff.1 ht
    exact hrun r
  cases s with
  | named n =>
    exact ⟨fun m hm => Option.some.inj hm ▸ hrun n, nofun⟩
  | typed n a => exact ⟨fun m hm => Option.some.inj hm ▸ hrun n, htype a⟩
  | unnamed a => exact ⟨nofun, htype a⟩

/-- Without a name and a type, there is nothing that cannot be written. -/
theorem writable_none : Writable none none :=
  ⟨nofun, nofun⟩

namespace Token

/-- A node or an edge whose name and type can be written. -/
def IsWritable : Token → Prop
  | .node t => Writable t.name? t.typeName?
  | .edge t => Writable t.name? t.typeName?
  | .constraint _ => False

/-- A node or an edge as it is written. -/
def text : Token → String
  | .node t => t.text
  | .edge t => t.text
  | .constraint _ => ""

/-- A token that can be written has a phrase, which its text consists of. -/
theorem exists_phrase {t : Token} (h : t.IsWritable) :
    ∃ p : Phrase, p.token = t.atIndex 0 ∧ t.text.toList = p.chars := by
  cases t with
  | node t =>
    obtain ⟨name?, typeName?, index⟩ := t
    obtain ⟨s, rfl, rfl, hs⟩ := Spec.exists_spec h
    exact ⟨.node s, rfl, hs⟩
  | edge t =>
    obtain ⟨name?, typeName?, direction, index⟩ := t
    obtain ⟨s, rfl, rfl, hs⟩ := Spec.exists_spec h
    cases direction with
    | out => exact ⟨.out (some s), rfl, by simp [text, EdgeToken.text, Phrase.chars, hs]⟩
    | into => exact ⟨.into (some s), rfl, by simp [text, EdgeToken.text, Phrase.chars, hs]⟩
  | constraint t => exact h.elim

theorem read?_eq_some_iff {s : String} {t : Token} :
    read? s = some t ↔ ∃ p : Phrase, p.WrittenIn s ∧ p.token = t := by
  simp only [read?, readChars?_eq_some_iff, Phrase.writtenIn_iff]

theorem isWritable_token (p : Phrase) : p.token.IsWritable := by
  have helim : ∀ s? : Option Spec, Writable (s?.bind Spec.name?) (s?.bind Spec.typeName?) := by
    intro s?
    cases s? with
    | none => exact writable_none
    | some s => exact s.writable
  cases p with
  | node s => exact s.writable
  | out s? | into s? => exact helim s?

/-- What is read can be written. -/
theorem isWritable_of_read? {s : String} {t : Token} (h : read? s = some t) : t.IsWritable := by
  obtain ⟨p, -, rfl⟩ := read?_eq_some_iff.1 h
  exact isWritable_token p

-- ---------------------------------------------------------------------------
-- Texts in patterns
-- ---------------------------------------------------------------------------

/-- After elements that split into units, classification goes on with the elements that follow. -/
theorem Units.units_append {i : Nat} {es : List Element} {ts : List Token} (h : Units i es ts)
    (es' : List Element) :
    units i (es ++ es') = (units (i + es.length) es').map (ts ++ ·) := by
  induction h with
  | nil i => cases hu : units i es' <;> simp [hu, Except.map]
  | @marker i s m payload c es ts starts marker taken rest ih =>
    rw [List.cons_append, List.cons_append, units.eq_def]
    simp only [if_pos starts, marker, taken, ih, List.length_cons]
    rw [show i + (es.length + 1 + 1) = i + 2 + es.length by omega]
    cases units (i + 2 + es.length) es' <;> rfl
  | @token i s t es ts starts text rest ih =>
    rw [List.cons_append, units.eq_def]
    simp only [if_neg starts, text, ih, List.length_cons]
    rw [show i + (es.length + 1) = i + 1 + es.length by omega]
    cases units (i + 1 + es.length) es' <;> rfl

/-- A text that is no token makes the pattern malformed, wherever it stands in a token's place. -/
theorem classify_malformed {es rest : List Element} {ts : List Token} {s : String}
    (hes : classify es = .ok ts) (hs : startsMarker s = false) (hread : read? s = none) :
    ∃ d, classify (es ++ .text s :: rest) = .error (.refused d) ∧ d.kind = .malformedToken := by
  have hunits : units 0 (es ++ .text s :: rest) = .error (.malformedToken s, es.length) := by
    rw [(classify_eq_ok_iff.1 hes).units_append, units.eq_def]
    simp only [hs, Bool.false_eq_true, if_false, hread, Nat.zero_add]
    rfl
  rw [classify, hunits]
  exact ⟨_, rfl, rfl⟩

-- ---------------------------------------------------------------------------
-- The grammar
-- ---------------------------------------------------------------------------

/-- The texts that are tokens are the phrases of the grammar, with blanks around them; each has one
reading, and gives the token that this stands for. A token that can be written has a phrase, and
its text reads as this token, at the first position. Every other text makes a pattern malformed. -/
theorem read?_phrases :
    (∀ s, (∃ t, read? s = some t) ↔ ∃ p : Phrase, p.WrittenIn s) ∧
      (∀ s, ∀ p q : Phrase, p.WrittenIn s → q.WrittenIn s → p = q) ∧
      (∀ s, ∀ p : Phrase, p.WrittenIn s → read? s = some p.token) ∧
      (∀ t : Token, t.IsWritable →
        (∃ p : Phrase, p.token = t.atIndex 0) ∧ read? t.text = some (t.atIndex 0)) ∧
      ∀ s, (∀ p : Phrase, ¬ p.WrittenIn s) → startsMarker s = false → ∀ es ts rest,
        classify es = .ok ts → ∃ d,
          classify (es ++ .text s :: rest) = .error (.refused d) ∧ d.kind = .malformedToken := by
  refine ⟨fun s => ?_, fun s p q hp hq => ?_, fun s p hp => ?_, fun t ht => ?_,
    fun s hs hmarker es ts rest hes => classify_malformed hes hmarker ?_⟩
  · simp only [read?_eq_some_iff]
    exact ⟨fun ⟨_, p, hp, _⟩ => ⟨p, hp⟩, fun ⟨p, hp⟩ => ⟨_, p, hp, rfl⟩⟩
  · rw [Phrase.writtenIn_iff] at hp hq
    exact Phrase.chars_injective (hp.trans hq.symm)
  · exact read?_eq_some_iff.2 ⟨p, hp, rfl⟩
  · obtain ⟨p, hp, htext⟩ := exists_phrase ht
    have hwritten : p.WrittenIn t.text := ⟨[], [], nofun, nofun, by rw [htext]; simp⟩
    exact ⟨⟨p, hp⟩, read?_eq_some_iff.2 ⟨p, hwritten, hp⟩⟩
  · cases hread : read? s with
    | none => rfl
    | some t =>
      obtain ⟨p, hp, -⟩ := read?_eq_some_iff.1 hread
      exact absurd hp (hs p)

end Token

/-- An edge that leads back, with a name and a type. -/
def backRoad : Phrase :=
  .into (some (.typed ⟨['r', '2'], by decide, by simp [IsNameLetter]⟩
    (some ⟨['R', 'o', 'a', 'd', '!'], by decide, by simp [IsTypeLetter, IsNameLetter]⟩)))

/-- Blanks around an edge do not count, an empty annotation is no type, and what is left open is
malformed. -/
theorem Token.read?_phrases_backRoad :
    read? " <-r2<Road!>-\n" = some (.edge ⟨some "r2", some "Road!", .into, 0⟩) ∧
      read? (Token.edge ⟨none, none, .out, 3⟩).text = some (.edge ⟨none, none, .out, 0⟩) ∧
      ∃ d, classify [.text "a", .text "<->", .text "b"] = .error (.refused d) ∧
        d.kind = .malformedToken := by
  obtain ⟨hread, -, hphrase, hwritable, hmalformed⟩ := read?_phrases
  have hblank : backRoad.WrittenIn " <-r2<Road!>-\n" :=
    ⟨[' '], ['\n'], by simp [Text.isBlank], by simp [Text.isBlank], rfl⟩
  have hnone : ∀ p : Phrase, ¬ p.WrittenIn "<->" := by
    intro p hp
    obtain ⟨t, ht⟩ := (hread "<->").2 ⟨p, hp⟩
    cases ht
  have hplain : Writable none none := ⟨nofun, nofun⟩
  exact ⟨hphrase _ backRoad hblank, (hwritable (.edge ⟨none, none, .out, 3⟩) hplain).2,
    hmalformed "<->" hnone rfl [.text "a"] _ [.text "b"] rfl⟩

end GraphPattern
