import GraphPattern.SExpr
import Mathlib.Data.List.Basic

/-!
# GraphPattern — legible trees

The compact form of a tree can be read back, but for a few trees that are written alike: an absent
value, a false truth value and a list of the empty symbol are all `()`, as the empty list is, and a
number is written like a symbol. Trees without these are legible, and no two of them have one form.

## Results

* `PrefixCode.cancel_flatMap` — a word over a prefix code, up to where it stops, is read in one way.
* `SExpr.Legible.eq_of_compact_eq` — legible trees are told apart by their compact forms.
-/

namespace GraphPattern

-- ---------------------------------------------------------------------------
-- Codes
-- ---------------------------------------------------------------------------

/-- Characters are written by a code of which none starts another one, and none starts like what
may stand behind the last of them. -/
structure PrefixCode (code : Char → List Char) (Stops : List Char → Prop) : Prop where
  cancel {c c' : Char} {r r' : List Char} (h : code c ++ r = code c' ++ r') : c = c' ∧ r = r'
  goes_on (c : Char) (r : List Char) : ¬ Stops (code c ++ r)

/-- A word is told by how it is written, where it is known what stands behind it. -/
theorem PrefixCode.cancel_flatMap {code : Char → List Char} {Stops : List Char → Prop}
    (h : PrefixCode code Stops) {cs cs' r r' : List Char} (hr : Stops r) (hr' : Stops r')
    (heq : cs.flatMap code ++ r = cs'.flatMap code ++ r') : cs = cs' ∧ r = r' := by
  induction cs generalizing cs' with
  | nil =>
    cases cs' with
    | nil => exact ⟨rfl, heq⟩
    | cons c cs' =>
      rw [List.flatMap_nil, List.nil_append, List.flatMap_cons, List.append_assoc] at heq
      rw [heq] at hr
      exact absurd hr (h.goes_on c _)
  | cons c cs ih =>
    cases cs' with
    | nil =>
      rw [List.flatMap_nil, List.nil_append, List.flatMap_cons, List.append_assoc] at heq
      rw [← heq] at hr'
      exact absurd hr' (h.goes_on c _)
    | cons c' cs' =>
      rw [List.flatMap_cons, List.flatMap_cons, List.append_assoc, List.append_assoc] at heq
      obtain ⟨rfl, hrest⟩ := h.cancel heq
      obtain ⟨rfl, hr⟩ := ih hrest
      exact ⟨rfl, hr⟩

namespace SExpr

/-- What may stand behind a part of a written tree: another part, the end of the list, or nothing. -/
def Closes : List Char → Prop
  | [] => True
  | c :: _ => c = ' ' ∨ c = ')'

/-- A character of a compact symbol. -/
def marked (c : Char) : List Char :=
  if isSpecial c then ['\\', c] else [c]

theorem toList_escapeSymbol (s : String) : (escapeSymbol s).toList = s.toList.flatMap marked := by
  rw [escapeSymbol, String.toList_ofList]
  rfl

/-- A marked character starts with the mark or is not special. -/
theorem marked_cases (c : Char) :
    marked c = ['\\', c] ∨ marked c = [c] ∧ isSpecial c = false := by
  by_cases h : isSpecial c = true
  · exact .inl (if_pos h)
  · exact .inr ⟨if_neg h, by simpa using h⟩

/-- No special character but the mark itself starts a marked character. -/
theorem ne_of_marked {c d : Char} {r r' : List Char} (hd : isSpecial d = true)
    (hmark : d ≠ '\\') : marked c ++ r ≠ d :: r' := by
  intro h
  rcases marked_cases c with hc | ⟨hc, hplain⟩ <;> rw [hc] at h <;> cases h
  · exact hmark rfl
  · rw [hd] at hplain
    cases hplain

theorem prefixCode_marked : PrefixCode marked Closes where
  cancel {c c' r r'} h := by
    rcases marked_cases c with hc | ⟨hc, hplain⟩ <;>
      rcases marked_cases c' with hc' | ⟨hc', hplain'⟩ <;> rw [hc, hc'] at h <;> cases h
    · exact ⟨rfl, rfl⟩
    · exact absurd hplain' (by decide)
    · exact absurd hplain (by decide)
    · exact ⟨rfl, rfl⟩
  goes_on c r h := by
    cases hcode : marked c ++ r with
    | nil => rcases marked_cases c with hc | ⟨hc, -⟩ <;> rw [hc] at hcode <;> cases hcode
    | cons d ds =>
      rw [hcode] at h
      rcases h with rfl | rfl
      · exact ne_of_marked (by decide) (by decide) hcode
      · exact ne_of_marked (by decide) (by decide) hcode

/-- What may stand behind the characters of a text: its closing quotation mark. -/
def Quotes (r : List Char) : Prop :=
  r.head? = some '"'

/-- The characters of a text that are escaped, with the letters they are escaped by. -/
def escapes : List (Char × Char) :=
  [('\\', '\\'), ('"', '"'), ('\x08', 'b'), ('\x0c', 'f'), ('\n', 'n'), ('\r', 'r'), ('\t', 't')]

theorem eq_of_mem_escapes {c c' d : Char} (h : (c, d) ∈ escapes) (h' : (c', d) ∈ escapes) :
    c = c' := by
  have hall : ∀ x ∈ escapes, ∀ y ∈ escapes, x.2 = y.2 → x.1 = y.1 := by decide
  exact hall _ h _ h' rfl

/-- A character of a text is escaped by a letter, or it stands for itself. -/
theorem escapeTextChar_cases (c : Char) :
    (∃ d, escapeTextChar c = ['\\', d] ∧ (c, d) ∈ escapes) ∨
      escapeTextChar c = [c] ∧ c ≠ '\\' ∧ c ≠ '"' := by
  unfold escapeTextChar
  split
  · exact .inl ⟨_, rfl, by decide⟩
  · exact .inl ⟨_, rfl, by decide⟩
  · exact .inl ⟨_, rfl, by decide⟩
  · exact .inl ⟨_, rfl, by decide⟩
  · exact .inl ⟨_, rfl, by decide⟩
  · exact .inl ⟨_, rfl, by decide⟩
  · exact .inl ⟨_, rfl, by decide⟩
  · rename_i hslash hquote _ _ _ _ _
    exact .inr ⟨rfl, hslash, hquote⟩

theorem prefixCode_escapeTextChar : PrefixCode escapeTextChar Quotes where
  cancel {c c' r r'} h := by
    rcases escapeTextChar_cases c with ⟨d, hc, hd⟩ | ⟨hc, hslash, -⟩ <;>
      rcases escapeTextChar_cases c' with ⟨d', hc', hd'⟩ | ⟨hc', hslash', -⟩ <;>
        rw [hc, hc'] at h <;> cases h
    · exact ⟨eq_of_mem_escapes hd hd', rfl⟩
    · exact absurd rfl hslash'
    · exact absurd rfl hslash
    · exact ⟨rfl, rfl⟩
  goes_on c r h := by
    rcases escapeTextChar_cases c with ⟨d, hc, -⟩ | ⟨hc, -, hquote⟩ <;> rw [hc] at h
    · cases h
    · exact hquote (Option.some.inj h)

-- ---------------------------------------------------------------------------
-- Trees
-- ---------------------------------------------------------------------------

/-- Trees that are told apart by their compact form. -/
inductive Legible : SExpr → Prop
  | symbol (s : String) : Legible (.symbol s)
  | text (s : String) : Legible (.text s)
  | list {ps : List SExpr} (parts : ∀ p ∈ ps, Legible p) (ne : ps ≠ [.symbol ""]) :
      Legible (.list ps)

/-- The characters of the compact form. -/
def chars (e : SExpr) : List Char :=
  e.compact.toList

/-- The parts of a list behind the first one. -/
def tailChars (ps : List SExpr) : List Char :=
  ps.flatMap fun p => ' ' :: p.chars

/-- The parts of a list. -/
def partsChars : List SExpr → List Char
  | [] => []
  | p :: ps => p.chars ++ tailChars ps

theorem chars_symbol (s : String) : (symbol s).chars = s.toList.flatMap marked := by
  rw [chars, compact, toList_escapeSymbol]

theorem chars_text (s : String) :
    (text s).chars = '"' :: (s.toList.flatMap escapeTextChar ++ ['"']) := by
  simp [chars, compact, escapeText]

theorem intercalate_compacts (ps : List SExpr) :
    (" ".intercalate (compacts ps)).toList = partsChars ps := by
  induction ps with
  | nil => rfl
  | cons p ps ih =>
    cases ps with
    | nil => simp [compacts, chars, partsChars, tailChars]
    | cons q qs =>
      rw [compacts, compacts, String.intercalate_cons_cons, ← compacts, String.toList_append,
        String.toList_append, ih]
      simp [chars, partsChars, tailChars]

theorem chars_list (ps : List SExpr) : (list ps).chars = '(' :: (partsChars ps ++ [')']) := by
  rw [chars, compact, String.toList_append, String.toList_append, intercalate_compacts]
  simp

theorem closes_tailChars (ps : List SExpr) (r : List Char) : Closes (tailChars ps ++ ')' :: r) := by
  cases ps with
  | nil => exact .inr rfl
  | cons p ps => exact .inl rfl

/-- A symbol starts neither a text nor a list. -/
theorem symbol_ne {s : String} {c : Char} {r r' : List Char} (hr : Closes r)
    (hc : c = '"' ∨ c = '(') : (symbol s).chars ++ r ≠ c :: r' := by
  rw [chars_symbol]
  intro h
  cases hs : s.toList with
  | nil =>
    rw [hs, List.flatMap_nil, List.nil_append] at h
    subst h
    rcases hc with rfl | rfl <;> rcases hr with hr | hr <;> cases hr
  | cons d ds =>
    rw [hs, List.flatMap_cons, List.append_assoc] at h
    rcases hc with rfl | rfl
    · exact ne_of_marked (by decide) (by decide) h
    · exact ne_of_marked (by decide) (by decide) h

/-- A legible tree that is closed at once is the empty symbol. -/
theorem Legible.eq_of_closes {e : SExpr} (h : e.Legible) {r r' : List Char}
    (heq : e.chars ++ r = ')' :: r') : e = .symbol "" := by
  cases h with
  | symbol s =>
    rw [chars_symbol] at heq
    cases hs : s.toList with
    | nil => rw [String.toList_eq_nil_iff.1 hs]
    | cons d ds =>
      rw [hs, List.flatMap_cons, List.append_assoc] at heq
      exact absurd heq (ne_of_marked (by decide) (by decide))
  | text s =>
    rw [chars_text] at heq
    cases (List.cons.inj heq).1
  | list parts ne =>
    rw [chars_list] at heq
    cases (List.cons.inj heq).1

/-- The parts of a legible list are not closed at once. -/
theorem partsChars_ne {p : SExpr} {ps : List SExpr} (hp : p.Legible)
    (ne : p :: ps ≠ [.symbol ""]) {r r' : List Char} :
    partsChars (p :: ps) ++ ')' :: r ≠ ')' :: r' := by
  intro h
  rw [partsChars, List.append_assoc] at h
  obtain rfl := hp.eq_of_closes h
  cases ps with
  | nil => exact ne rfl
  | cons q qs => cases (List.cons.inj h).1

/-- No tree can be taken for this one, whatever closes them. -/
def Cancels (e : SExpr) : Prop :=
  ∀ {e' : SExpr}, e'.Legible → ∀ {r r' : List Char}, Closes r → Closes r' →
    e.chars ++ r = e'.chars ++ r' → e = e' ∧ r = r'

theorem cancel_tailChars {ps ps' : List SExpr} {r r' : List Char} (hps : ∀ p ∈ ps, p.Cancels)
    (hps' : ∀ p ∈ ps', p.Legible) (h : tailChars ps ++ ')' :: r = tailChars ps' ++ ')' :: r') :
    ps = ps' ∧ r = r' := by
  induction ps generalizing ps' with
  | nil =>
    cases ps' with
    | nil => exact ⟨rfl, (List.cons.inj h).2⟩
    | cons p' ps' => cases (List.cons.inj h).1
  | cons p ps ih =>
    cases ps' with
    | nil => cases (List.cons.inj h).1
    | cons p' ps' =>
      have hrest : p.chars ++ (tailChars ps ++ ')' :: r) =
          p'.chars ++ (tailChars ps' ++ ')' :: r') := by
        simpa [tailChars] using h
      obtain ⟨rfl, htail⟩ := hps p List.mem_cons_self (hps' p' List.mem_cons_self)
        (closes_tailChars ps r) (closes_tailChars ps' r') hrest
      obtain ⟨rfl, hr⟩ := ih (fun q hq => hps q (List.mem_cons_of_mem _ hq))
        (fun q hq => hps' q (List.mem_cons_of_mem _ hq)) htail
      exact ⟨rfl, hr⟩

theorem cancel_partsChars {ps ps' : List SExpr} {r r' : List Char} (hps : ∀ p ∈ ps, p.Legible)
    (hcancels : ∀ p ∈ ps, p.Cancels) (hps' : ∀ p ∈ ps', p.Legible) (ne : ps ≠ [.symbol ""])
    (ne' : ps' ≠ [.symbol ""]) (h : partsChars ps ++ ')' :: r = partsChars ps' ++ ')' :: r') :
    ps = ps' ∧ r = r' := by
  cases ps with
  | nil =>
    cases ps' with
    | nil => exact ⟨rfl, (List.cons.inj h).2⟩
    | cons p' ps' => exact absurd h.symm (partsChars_ne (hps' p' List.mem_cons_self) ne')
  | cons p ps =>
    cases ps' with
    | nil => exact absurd h (partsChars_ne (hps p List.mem_cons_self) ne)
    | cons p' ps' =>
      rw [partsChars, partsChars, List.append_assoc, List.append_assoc] at h
      obtain ⟨rfl, htail⟩ := hcancels p List.mem_cons_self (hps' p' List.mem_cons_self)
        (closes_tailChars ps r) (closes_tailChars ps' r') h
      obtain ⟨rfl, hr⟩ := cancel_tailChars (fun q hq => hcancels q (List.mem_cons_of_mem _ hq))
        (fun q hq => hps' q (List.mem_cons_of_mem _ hq)) htail
      exact ⟨rfl, hr⟩

theorem Legible.cancels {e : SExpr} (h : e.Legible) : e.Cancels := by
  induction h with
  | symbol s =>
    intro e' h' r r' hr hr' heq
    cases h' with
    | symbol s' =>
      rw [chars_symbol, chars_symbol] at heq
      obtain ⟨hs, hrest⟩ := prefixCode_marked.cancel_flatMap hr hr' heq
      exact ⟨congrArg _ (String.toList_injective hs), hrest⟩
    | text s' =>
      rw [chars_text] at heq
      exact absurd heq (symbol_ne hr (.inl rfl))
    | list parts' ne' =>
      rw [chars_list] at heq
      exact absurd heq (symbol_ne hr (.inr rfl))
  | text s =>
    intro e' h' r r' hr hr' heq
    rw [chars_text] at heq
    cases h' with
    | symbol s' => exact absurd heq.symm (symbol_ne hr' (.inl rfl))
    | text s' =>
      rw [chars_text, List.cons_append, List.cons_append, List.append_assoc,
        List.append_assoc] at heq
      have hquotes : ∀ r, Quotes (['"'] ++ r) := fun _ => rfl
      obtain ⟨hs, hrest⟩ :=
        prefixCode_escapeTextChar.cancel_flatMap (hquotes r) (hquotes r') (List.cons.inj heq).2
      exact ⟨congrArg _ (String.toList_injective hs), (List.cons.inj hrest).2⟩
    | list parts' ne' =>
      rw [chars_list] at heq
      cases (List.cons.inj heq).1
  | list parts ne ih =>
    intro e' h' r r' hr hr' heq
    rw [chars_list] at heq
    cases h' with
    | symbol s' => exact absurd heq.symm (symbol_ne hr' (.inr rfl))
    | text s' =>
      rw [chars_text] at heq
      cases (List.cons.inj heq).1
    | list parts' ne' =>
      rw [chars_list, List.cons_append, List.cons_append, List.append_assoc,
        List.append_assoc] at heq
      obtain ⟨rfl, hrest⟩ := cancel_partsChars parts ih parts' ne ne' (List.cons.inj heq).2
      exact ⟨rfl, hrest⟩

/-- Legible trees are told apart by their compact forms. -/
theorem Legible.eq_of_compact_eq {e e' : SExpr} (h : e.Legible) (h' : e'.Legible)
    (heq : e.compact = e'.compact) : e = e' := by
  have hend : Closes [] := trivial
  have hchars : e.chars ++ [] = e'.chars ++ [] := by rw [chars, chars, heq]
  exact (h.cancels h' hend hend hchars).1

end SExpr

end GraphPattern
