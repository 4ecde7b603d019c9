import GraphPattern.SExpr
import GraphPattern.Text.Characters
import Mathlib.Data.List.Basic

/-!
# GraphPattern — what stands in a written tree

A tree that does not fit on a line is broken into lines, each part of a list at the depth of the list.
Only blanks are put in for this, and only between parts and parentheses. So a text that is cut into
parentheses and words, which blanks set apart, shows nothing of how a tree was laid out; and if the
tree has no blanks, parentheses or quotation marks in its leaves, it shows everything else.

## Results

* `Lexeme.cut_append` — texts are cut one after the other where no word goes on.
* `SExpr.cut_pretty` — trees in lines are cut like trees on one line.
* `SExpr.Plain.eq_of_lexemes_eq` — plain trees are told apart by what they are cut into.
-/

namespace GraphPattern

-- ---------------------------------------------------------------------------
-- Cutting
-- ---------------------------------------------------------------------------

/-- A parenthesis, or a word. -/
inductive Lexeme where
  | opening
  | closing
  | word (cs : List Char)
deriving DecidableEq, Repr

namespace Lexeme

/-- A character of a word. -/
def isInner (c : Char) : Bool :=
  !Text.isBlank c && c != '(' && c != ')'

/-- A character before what a text is cut into, as the first one of its first word. -/
def prepend (c : Char) : List Lexeme → List Lexeme
  | .word w :: ls => .word (c :: w) :: ls
  | ls => .word [c] :: ls

/-- The parentheses of a text and the maximal runs of characters that are neither parentheses nor
blank, in order. -/
def cut : List Char → List Lexeme
  | [] => []
  | c :: cs =>
    if Text.isBlank c then cut cs
    else if c = '(' then .opening :: cut cs
    else if c = ')' then .closing :: cut cs
    else if cs.head?.any isInner then prepend c (cut cs)
    else .word [c] :: cut cs

/-- No word goes on into the text. -/
def Stops (cs : List Char) : Prop :=
  cs.head?.any isInner = false

variable {c : Char} {cs r w : List Char}

theorem stops_cons (h : isInner c = false) : Stops (c :: cs) :=
  h

theorem cut_blank (h : Text.isBlank c = true) : cut (c :: cs) = cut cs := by
  rw [cut, if_pos h]

theorem cut_opening : cut ('(' :: cs) = .opening :: cut cs :=
  rfl

theorem cut_closing : cut (')' :: cs) = .closing :: cut cs :=
  rfl

theorem cut_inner (h : isInner c = true) :
    cut (c :: cs) = if cs.head?.any isInner then prepend c (cut cs) else .word [c] :: cut cs := by
  simp only [isInner, Bool.and_eq_true, Bool.not_eq_true', bne_iff_ne] at h
  obtain ⟨⟨hblank, hopening⟩, hclosing⟩ := h
  rw [cut, if_neg (by simp [hblank]), if_neg hopening, if_neg hclosing]

theorem cut_ne_nil (h : cs.head?.any isInner = true) : cut cs ≠ [] := by
  cases cs with
  | nil => cases h
  | cons c cs =>
    rw [cut_inner h]
    split
    · unfold prepend
      split <;> exact List.cons_ne_nil _ _
    · exact List.cons_ne_nil _ _

theorem prepend_append {ls ms : List Lexeme} (h : ls ≠ []) :
    prepend c (ls ++ ms) = prepend c ls ++ ms := by
  obtain ⟨l, ls, rfl⟩ := List.exists_cons_of_ne_nil h
  cases l <;> rfl

/-- Texts are cut one after the other where no word goes on. -/
theorem cut_append (h : Stops r) : cut (cs ++ r) = cut cs ++ cut r := by
  induction cs with
  | nil => rfl
  | cons c cs ih =>
    rw [List.cons_append]
    by_cases hinner : isInner c = true
    · have hhead : (cs ++ r).head?.any isInner = cs.head?.any isInner := by
        cases cs with
        | nil => exact h
        | cons d cs => rfl
      rw [cut_inner hinner, cut_inner hinner, hhead, ih]
      split
      · rename_i hgoes
        exact prepend_append (cut_ne_nil hgoes)
      · rfl
    · by_cases hblank : Text.isBlank c = true
      · rw [cut_blank hblank, cut_blank hblank, ih]
      · have hparen : c = '(' ∨ c = ')' := by
          by_contra hneither
          rw [not_or] at hneither
          exact hinner (by simp [isInner, hblank, hneither.1, hneither.2])
        rcases hparen with rfl | rfl
        · rw [cut_opening, cut_opening, ih, List.cons_append]
        · rw [cut_closing, cut_closing, ih, List.cons_append]

/-- Blanks before a text are not seen. -/
theorem cut_append_of_blank (h : ∀ c ∈ w, Text.isBlank c = true) : cut (w ++ r) = cut r := by
  induction w with
  | nil => rfl
  | cons c w ih =>
    rw [List.cons_append, cut_blank (h c List.mem_cons_self)]
    exact ih fun d hd => h d (List.mem_cons_of_mem _ hd)

/-- A run of characters of words is one word. -/
theorem cut_word (hne : w ≠ []) (h : ∀ c ∈ w, isInner c = true) : cut w = [.word w] := by
  induction w with
  | nil => exact absurd rfl hne
  | cons c w ih =>
    rw [cut_inner (h c List.mem_cons_self)]
    cases w with
    | nil => rfl
    | cons d w =>
      have hd : (d :: w).head?.any isInner = true := h d (by simp)
      rw [if_pos hd, ih (List.cons_ne_nil _ _) fun e he => h e (List.mem_cons_of_mem _ he)]
      rfl

end Lexeme

open Lexeme

-- ---------------------------------------------------------------------------
-- Layout
-- ---------------------------------------------------------------------------

namespace SExpr

mutual

/-- The form on one line, with the leaves of the form over several lines. -/
def oneLine : SExpr → String
  | symbol s => s
  | text s => quoteText s
  | number n => toString n
  | truth b => if b then "True" else "False"
  | absent => "None"
  | list parts => "(" ++ " ".intercalate (oneLines parts) ++ ")"

def oneLines : List SExpr → List String
  | [] => []
  | p :: ps => oneLine p :: oneLines ps

end

/-- What some written parts are cut into. -/
def cutAll (parts : List String) : List Lexeme :=
  parts.flatMap fun p => cut p.toList

/-- Parts are cut one after the other if blanks stand between them. -/
theorem cut_intercalate {gap : String} (hne : gap ≠ "")
    (hblank : gap.toList.all Text.isBlank = true) (parts : List String) :
    cut (gap.intercalate parts).toList = cutAll parts := by
  have hgap := List.all_eq_true.1 hblank
  have hstops : ∀ r, Stops (gap.toList ++ r) := by
    intro r
    obtain ⟨c, cs, hc⟩ := List.exists_cons_of_ne_nil (mt String.toList_eq_nil_iff.1 hne)
    rw [hc]
    exact stops_cons (by simp [isInner, hgap c (by simp [hc])])
  induction parts with
  | nil => rfl
  | cons p ps ih =>
    cases ps with
    | nil => simp [cutAll]
    | cons q ps =>
      rw [String.intercalate_cons_cons, String.toList_append, String.toList_append,
        List.append_assoc, cut_append (hstops _), cut_append_of_blank hgap, ih]
      rfl

/-- Parts in parentheses. -/
theorem cut_parenthesized (inner : List Char) :
    cut ('(' :: (inner ++ [')'])) = .opening :: (cut inner ++ [.closing]) := by
  rw [cut_opening, cut_append (stops_cons rfl)]
  rfl

/-- Parts on one line, in parentheses. -/
theorem cut_spaced (parts : List String) :
    cut ("(" ++ " ".intercalate parts ++ ")").toList = .opening :: (cutAll parts ++ [.closing]) := by
  have hparts : cut (" ".intercalate parts).toList = cutAll parts :=
    cut_intercalate (by decide) (by decide) parts
  rw [← hparts, ← cut_parenthesized]
  simp

theorem isBlank_of_mem_indentation {depth : Nat} {c : Char} (h : c ∈ (indentation depth).toList) :
    Text.isBlank c = true := by
  rw [indentation, String.toList_ofList, List.mem_replicate] at h
  rw [h.2]
  rfl

/-- Indentation is not seen. -/
theorem cutAll_map_indentation (depth : Nat) (parts : List String) :
    cutAll (parts.map (indentation depth ++ ·)) = cutAll parts := by
  rw [cutAll, cutAll, List.flatMap_map]
  refine List.flatMap_congr fun p _ => ?_
  rw [String.toList_append]
  exact cut_append_of_blank fun _ => isBlank_of_mem_indentation

/-- However a list is laid out, it is cut into what its parts are cut into, in parentheses. -/
theorem cut_layout (depth : Nat) (parts : List String) :
    cut (layout depth parts).toList = .opening :: (cutAll parts ++ [.closing]) := by
  unfold layout
  dsimp only
  split
  · exact cut_spaced parts
  · split
    · rfl
    · rename_i first rest _
      have hlines : cut ("\n".intercalate
          (first :: rest.map (indentation (depth + 1) ++ ·))).toList = cutAll (first :: rest) := by
        rw [cut_intercalate (by decide) (by decide)]
        exact congrArg (cut first.toList ++ ·) (cutAll_map_indentation _ rest)
      have hend : cut ('\n' :: ((indentation depth).toList ++ [')'])) = [.closing] := by
        rw [cut_blank rfl, cut_append_of_blank fun _ => isBlank_of_mem_indentation]
        rfl
      simp only [String.toList_append, List.append_assoc]
      show cut ('(' :: (_ ++ '\n' :: ((indentation depth).toList ++ [')']))) = _
      rw [cut_opening, cut_append (stops_cons rfl), hlines, hend]

mutual

/-- A tree in lines is cut like the tree on one line. -/
theorem cut_pretty (depth : Nat) :
    (e : SExpr) → cut (e.pretty depth).toList = cut e.oneLine.toList
  | symbol _ | text _ | number _ | truth _ | absent => by rw [pretty, oneLine]
  | list ps => by
    rw [pretty, cut_layout, cutAll_pretties (depth + 1) ps, oneLine, cut_spaced]

theorem cutAll_pretties (depth : Nat) :
    (ps : List SExpr) → cutAll (pretties depth ps) = cutAll (oneLines ps)
  | [] => rfl
  | p :: ps => by
    rw [pretties, oneLines, cutAll, cutAll, List.flatMap_cons, List.flatMap_cons, cut_pretty depth p]
    exact congrArg (cut p.oneLine.toList ++ ·) (cutAll_pretties depth ps)

end

-- ---------------------------------------------------------------------------
-- Plain trees
-- ---------------------------------------------------------------------------

/-- A text that is cut into one word, without quotation marks. -/
def IsWord (s : String) : Prop :=
  s ≠ "" ∧ ∀ c ∈ s.toList, Text.isBlank c = false ∧ c ≠ '(' ∧ c ≠ ')' ∧ c ≠ '"'

instance (s : String) : Decidable (IsWord s) :=
  -- The characters are those of the text, and not all that there are.
  @instDecidableAnd _ _ _ (List.decidableBAll _ s.toList)

/-- A text that is a word, and written as it is, in quotation marks. -/
def IsQuotable (s : String) : Prop :=
  IsWord s ∧ '\\' ∉ s.toList

/-- Trees whose leaves are words. -/
inductive Plain : SExpr → Prop
  | symbol {s : String} (word : IsWord s) : Plain (.symbol s)
  | text {s : String} (quotable : IsQuotable s) : Plain (.text s)
  | list {ps : List SExpr} (parts : ∀ p ∈ ps, Plain p) : Plain (.list ps)

/-- What a tree is cut into. -/
def lexemes (e : SExpr) : List Lexeme :=
  cut e.oneLine.toList

theorem IsWord.isInner {s : String} (h : IsWord s) : ∀ c ∈ s.toList, isInner c = true := by
  intro c hc
  obtain ⟨hblank, hopening, hclosing, -⟩ := h.2 c hc
  simp [Lexeme.isInner, hblank, hopening, hclosing]

theorem IsWord.lexemes_symbol {s : String} (h : IsWord s) :
    (symbol s).lexemes = [.word s.toList] :=
  cut_word (mt String.toList_eq_nil_iff.1 h.1) h.isInner

theorem IsQuotable.lexemes_text {s : String} (h : IsQuotable s) :
    (text s).lexemes = [.word ('"' :: (s.toList ++ ['"']))] := by
  have hquoted : (quoteText s).toList = '"' :: (s.toList ++ ['"']) := by
    have hchars : (s.toList.flatMap fun c => if c = '"' ∨ c = '\\' then ['\\', c] else [c]) =
        s.toList := by
      conv_rhs => rw [← List.flatMap_singleton' s.toList]
      refine List.flatMap_congr fun c hc => if_neg ?_
      rintro (rfl | rfl)
      · exact (h.1.2 _ hc).2.2.2 rfl
      · exact h.2 hc
    simp [quoteText, hchars]
  rw [lexemes, oneLine, hquoted]
  refine cut_word (List.cons_ne_nil _ _) fun c hc => ?_
  simp only [List.mem_cons, List.mem_append, List.not_mem_nil, or_false] at hc
  rcases hc with rfl | hc | rfl
  · rfl
  · exact h.1.isInner c hc
  · rfl

theorem cutAll_oneLines (ps : List SExpr) : cutAll (oneLines ps) = ps.flatMap lexemes := by
  induction ps with
  | nil => rfl
  | cons p ps ih =>
    rw [oneLines, List.flatMap_cons, ← ih]
    rfl

theorem lexemes_list (ps : List SExpr) :
    (list ps).lexemes = .opening :: (ps.flatMap lexemes ++ [.closing]) := by
  rw [lexemes, oneLine, cut_spaced, cutAll_oneLines]

/-- No plain tree can be taken for this one, whatever stands behind them. -/
def IsTold (e : SExpr) : Prop :=
  ∀ {e' : SExpr}, e'.Plain → ∀ {ls ls' : List Lexeme}, e.lexemes ++ ls = e'.lexemes ++ ls' →
    e = e' ∧ ls = ls'

/-- A plain tree does not start with the end of a list. -/
theorem Plain.lexemes_ne {e : SExpr} (h : e.Plain) {ls ls' : List Lexeme} :
    e.lexemes ++ ls ≠ .closing :: ls' := by
  intro heq
  cases h with
  | symbol word => rw [word.lexemes_symbol] at heq; cases heq
  | text quotable => rw [quotable.lexemes_text] at heq; cases heq
  | list parts => rw [lexemes_list] at heq; cases heq

/-- The parts of a list are told up to its end. -/
theorem told_parts {ps ps' : List SExpr} {ls ls' : List Lexeme} (hps : ∀ p ∈ ps, p.Plain)
    (htold : ∀ p ∈ ps, p.IsTold) (hps' : ∀ p ∈ ps', p.Plain)
    (h : ps.flatMap lexemes ++ .closing :: ls = ps'.flatMap lexemes ++ .closing :: ls') :
    ps = ps' ∧ ls = ls' := by
  induction ps generalizing ps' with
  | nil =>
    cases ps' with
    | nil => exact ⟨rfl, (List.cons.inj h).2⟩
    | cons p' ps' =>
      rw [List.flatMap_cons, List.append_assoc] at h
      exact absurd h.symm (hps' p' List.mem_cons_self).lexemes_ne
  | cons p ps ih =>
    rw [List.flatMap_cons, List.append_assoc] at h
    cases ps' with
    | nil => exact absurd h (hps p List.mem_cons_self).lexemes_ne
    | cons p' ps' =>
      rw [List.flatMap_cons, List.append_assoc] at h
      obtain ⟨rfl, hrest⟩ := htold p List.mem_cons_self (hps' p' List.mem_cons_self) h
      obtain ⟨rfl, hls⟩ := ih (fun q hq => hps q (List.mem_cons_of_mem _ hq))
        (fun q hq => htold q (List.mem_cons_of_mem _ hq))
        (fun q hq => hps' q (List.mem_cons_of_mem _ hq)) hrest
      exact ⟨rfl, hls⟩

/-- A symbol has no quotation marks, and a text starts with one. -/
theorem symbol_ne_text {s s' : String} (h : IsWord s) (h' : IsQuotable s') {ls ls' : List Lexeme} :
    (symbol s).lexemes ++ ls ≠ (text s').lexemes ++ ls' := by
  rw [h.lexemes_symbol, h'.lexemes_text]
  intro heq
  have hs : s.toList = '"' :: (s'.toList ++ ['"']) := Lexeme.word.inj (List.cons.inj heq).1
  exact (h.2 '"' (by simp [hs])).2.2.2 rfl

theorem Plain.told {e : SExpr} (h : e.Plain) : e.IsTold := by
  induction h with
  | symbol word =>
    intro e' h' ls ls' heq
    cases h' with
    | symbol word' =>
      rw [word.lexemes_symbol, word'.lexemes_symbol] at heq
      obtain ⟨hword, hls⟩ := List.cons.inj heq
      exact ⟨congrArg _ (String.toList_injective (Lexeme.word.inj hword)), hls⟩
    | text quotable' => exact absurd heq (symbol_ne_text word quotable')
    | list parts' =>
      rw [word.lexemes_symbol, lexemes_list] at heq
      cases heq
  | text quotable =>
    intro e' h' ls ls' heq
    cases h' with
    | symbol word' => exact absurd heq.symm (symbol_ne_text word' quotable)
    | text quotable' =>
      rw [quotable.lexemes_text, quotable'.lexemes_text] at heq
      obtain ⟨hword, hls⟩ := List.cons.inj heq
      have hs := List.append_cancel_right (List.cons.inj (Lexeme.word.inj hword)).2
      exact ⟨congrArg _ (String.toList_injective hs), hls⟩
    | list parts' =>
      rw [quotable.lexemes_text, lexemes_list] at heq
      cases heq
  | list parts ih =>
    intro e' h' ls ls' heq
    cases h' with
    | symbol word' =>
      rw [word'.lexemes_symbol, lexemes_list] at heq
      cases heq
    | text quotable' =>
      rw [quotable'.lexemes_text, lexemes_list] at heq
      cases heq
    | list parts' =>
      rw [lexemes_list, lexemes_list, List.cons_append, List.cons_append, List.append_assoc,
        List.append_assoc] at heq
      obtain ⟨rfl, hls⟩ := told_parts parts ih parts' (List.cons.inj heq).2
      exact ⟨rfl, hls⟩

/-- Plain trees are told apart by what they are cut into. -/
theorem Plain.eq_of_lexemes_eq {e e' : SExpr} (h : e.Plain) (h' : e'.Plain)
    (heq : e.lexemes = e'.lexemes) : e = e' :=
  (h.told h' (congrArg (· ++ []) heq)).1

end SExpr

end GraphPattern
