import GraphPattern.Proofs.Respelled

/-!
# GraphPattern — names are only names

However the names of a pattern and of its arguments are spelled, as long as no two are spelled alike,
the compilation comes to the same end: the same plan with other names, or a refusal of the same kind at
the same element. No name of a pattern is one of the hidden variables, so these stay what they are.

That a plan has no variables but names and hidden ones is proved by a spelling too. It marks whatever
is neither; as a pattern has nothing to mark, its plan is the same with the marks, and has none.

## Results

* `Context.respelled_eq_self` — the variables of a compiled plan are names or hidden.
* `Context.compile_respelled` — the compilation of a pattern with other names.
-/

namespace GraphPattern

variable {ρ : String → String} {cx cx' : Context}

-- ---------------------------------------------------------------------------
-- Spellings of all texts
-- ---------------------------------------------------------------------------

theorem isName_of_isHiddenName {name : String} (h : isHiddenName name = true) :
    isName name = false := by
  rw [Bool.eq_false_iff]
  intro hname
  rw [isHiddenName_of_isName hname] at h
  cases h

namespace Respelling

variable (r : Respelling)

/-- The spelling of a name; any other text stays as it is. -/
def everywhere (name : String) : String :=
  if isName name then r.spell name else name

theorem everywhere_of_isName {name : String} (h : isName name = true) :
    r.everywhere name = r.spell name :=
  if_pos h

theorem faithful_everywhere : Faithful r.everywhere where
  injective := by
    intro x y heq
    unfold everywhere at heq
    split at heq <;> split at heq
    case isTrue.isTrue hx hy => exact r.distinct x y hx hy heq
    case isTrue.isFalse hx hy => exact absurd (heq ▸ r.isName_spell x hx) hy
    case isFalse.isTrue hx hy => exact absurd (heq ▸ r.isName_spell y hy) hx
    case isFalse.isFalse => exact heq
  hidden := by
    intro name h
    rw [everywhere, isName_of_isHiddenName h]
    rfl

/-- For names and hidden variables, only the spelling of the names counts. -/
theorem everywhere_eq_visibly {name : String}
    (h : (isName name || isHiddenName name) = true) : r.everywhere name = r.visibly name := by
  unfold everywhere visibly
  cases hname : isName name with
  | true =>
    rw [isHiddenName_of_isName hname]
    rfl
  | false =>
    rw [hname, Bool.false_or] at h
    rw [h]
    rfl

end Respelling

/-- A mark on every text that is neither a name nor a hidden variable. -/
def marked (name : String) : String :=
  if isName name || isHiddenName name then name else "-" ++ name

theorem marked_of_isName {name : String} (h : isName name = true) : marked name = name := by
  rw [marked, h]
  rfl

theorem faithful_marked : Faithful marked where
  injective := by
    have hmark : ∀ name, (isName ("-" ++ name) || isHiddenName ("-" ++ name)) = false := by
      intro name
      simp [isName, isHiddenName, isNameChar]
    intro x y heq
    unfold marked at heq
    split at heq <;> split at heq
    case isTrue.isTrue => exact heq
    case isTrue.isFalse hx _ =>
      rw [heq, hmark] at hx
      cases hx
    case isFalse.isTrue _ hy =>
      rw [← heq, hmark] at hy
      cases hy
    case isFalse.isFalse => simpa using heq
  hidden := by
    intro name h
    rw [marked, h, Bool.or_true]
    rfl

theorem eq_of_marked_eq {name : String} (h : marked name = name) :
    (isName name || isHiddenName name) = true := by
  unfold marked at h
  split at h
  · assumption
  · have hlength := congrArg String.length h
    simp at hlength

-- ---------------------------------------------------------------------------
-- Elements and plans that stay the same
-- ---------------------------------------------------------------------------

/-- What is read from a text has a name that is a name, so that no other spelling counts. -/
theorem Element.Respelled.congr {ρ' : String → String} {e e' : Element}
    (h : Element.Respelled ρ e e') (hρ : ∀ name, isName name = true → ρ' name = ρ name) :
    Element.Respelled ρ' e e' := by
  obtain @⟨s, s', t, reads, respelled⟩ := h
  have hnames : ∀ name ∈ t.name?, ρ name = ρ' name := fun name hname =>
    (hρ name (Token.isName_of_readChars? reads hname)).symm
  refine .text reads (respelled.trans (congrArg some ?_))
  cases t with
  | node t => exact congrArg (fun name? => Token.node { t with name? }) (Option.map_congr hnames)
  | edge t => exact congrArg (fun name? => Token.edge { t with name? }) (Option.map_congr hnames)
  | constraint t => cases Token.held?_of_read? reads

theorem Element.Respelled.self {es es' : List Element}
    (h : List.Forall₂ (Element.Respelled ρ) es es') :
    List.Forall₂ (Element.Respelled id) es es := by
  induction h with
  | nil => exact .nil
  | cons he _ ih =>
    obtain @⟨s, s', t, reads, -⟩ := he
    refine .cons (.text reads ?_) ih
    rw [reads]
    cases t with
    | node t | edge t =>
      simp only [Token.respelled, NodeToken.respelled, EdgeToken.respelled, Option.map_id, id_eq]
    | constraint t => cases Token.held?_of_read? reads

section Congruence

variable {τ ρ' : String → String} (hρ : ∀ name, τ name = name → ρ name = ρ' name)
include hρ

/-- Two spellings that agree on what a third one leaves alone agree on what it leaves alone. -/
theorem Expr.respelled_congr {e : Expr} (h : e.respelled τ = e) :
    e.respelled ρ = e.respelled ρ' := by
  induction e <;> simp_all [Expr.respelled]

theorem Step.respelled_congr {s : Step} (h : s.respelled τ = s) :
    s.respelled ρ = s.respelled ρ' := by
  cases s with
  | generate name e | assign name e =>
    injection h with hname he
    rw [Step.respelled, hρ name hname, Expr.respelled_congr hρ he]
    rfl
  | assignAll bs =>
    injection h with hbs
    have hfixed := List.map_eq_map_iff.1 (hbs.trans (List.map_id bs).symm)
    refine congrArg Step.assignAll (List.map_congr_left fun b hb => ?_)
    obtain ⟨hname, he⟩ := Prod.mk.inj (hfixed b hb)
    rw [hρ b.1 hname, Expr.respelled_congr hρ he]
  | guard e | whilst e =>
    injection h with he
    rw [Step.respelled, Expr.respelled_congr hρ he]
    rfl
  | foreign kind => rfl

theorem Plan.respelled_congr {p : Plan} (h : p.respelled τ = p) :
    p.respelled ρ = p.respelled ρ' := by
  obtain ⟨hsteps, harguments, -⟩ := Plan.mk.inj h
  have hstep := List.map_eq_map_iff.1 (hsteps.trans (List.map_id p.steps).symm)
  have hargument := List.map_eq_map_iff.1 (harguments.trans (List.map_id p.arguments).symm)
  simp only [Plan.respelled]
  rw [List.map_congr_left fun s hs => Step.respelled_congr hρ (hstep s hs),
    List.map_congr_left fun name hname => hρ name (hargument name hname)]

end Congruence

-- ---------------------------------------------------------------------------
-- Compilation
-- ---------------------------------------------------------------------------

namespace Context

/-- The variables of a compiled plan are names or hidden. -/
theorem respelled_eq_self {p : Plan} (hargs : ∀ name ∈ cx.arguments, isName name = true)
    (hcx : Context.Respelled ρ cx cx') (h : cx.compile = .ok p) : p.respelled marked = p := by
  have hself : Context.Respelled marked cx cx :=
    { arguments := by
        rw [List.map_congr_left fun name hname => marked_of_isName (hargs name hname)]
        exact (List.map_id cx.arguments).symm
      elements := (Element.Respelled.self hcx.elements).imp fun _ _ he =>
        he.congr fun _ => marked_of_isName
      engine := rfl }
  have hsame := hself.compile faithful_marked
  rw [h] at hsame
  exact (Except.ok.inj hsame.eq_ok).symm

/-- The compilation of a pattern with other names gives the plan with other names, or fails in the same
way. -/
theorem compile_respelled (r : Respelling) (hargs : ∀ name ∈ cx.arguments, isName name = true)
    (hcx : Context.Respelled r.spell cx cx') :
    Corresponds (Plan.respelled r.visibly) cx.compile cx'.compile := by
  have heverywhere : Context.Respelled r.everywhere cx cx' :=
    { arguments := by
        rw [hcx.arguments]
        exact List.map_congr_left fun name hname =>
          (r.everywhere_of_isName (hargs name hname)).symm
      elements := hcx.elements.imp fun _ _ he => he.congr fun _ => r.everywhere_of_isName
      engine := hcx.engine }
  refine (heverywhere.compile r.faithful_everywhere).congr fun p hp => ?_
  exact Plan.respelled_congr (fun _ hname => r.everywhere_eq_visibly (eq_of_marked_eq hname))
    (respelled_eq_self hargs hcx hp)

/-- Two names in each other's place. -/
def exchanged : Respelling where
  spell name := if name = "a" then "b" else if name = "b" then "a" else name
  isName_spell := by
    intro name h
    split
    · rfl
    · split
      · rfl
      · exact h
  distinct := by
    intro x y _ _ h
    split_ifs at h <;> simp_all

/-- A way from an argument against a named edge, through a node without a name. -/
def oncoming : Context :=
  { arguments := ["b"]
    elements := [.text "b", .text "<-a-", .text "<>", .text "-c->", .text "d<T>"]
    engine := .graph }

/-- The same way with both names exchanged, written with blanks. -/
def oncomingToo : Context :=
  { arguments := ["a"]
    elements := [.text "a<>", .text " <-b-", .text "<>", .text "-c-> ", .text "d<T>"]
    engine := .graph }

def oncomingPlan : Plan :=
  { steps := [.assign "b" (.argument "b"), .generate "a" (.adjacent (.var "b") .any .into),
      .generate "#2" (.reachable (.edgeEnd (.var "a") .into true) []),
      .generate "c" (.adjacent (.var "#2") .any .out),
      .assign "d" (.edgeEnd (.var "c") .out true), .guard (.present (.var "d")),
      .guard (.isInstance (.var "d") (.spec "T"))]
    arguments := ["b"], engine := .graph }

theorem compile_oncoming : oncoming.compile = .ok oncomingPlan := by
  cbv

theorem respelled_oncoming : Context.Respelled exchanged.spell oncoming oncomingToo where
  arguments := rfl
  elements :=
    .cons (.text (t := .node { name? := "b", typeName? := none }) (by cbv) (by cbv)) <|
    .cons (.text (t := .edge { name? := "a", typeName? := none, direction := .into }) (by cbv)
      (by cbv)) <|
    .cons (.text (t := .node { name? := none, typeName? := none }) (by cbv) (by cbv)) <|
    .cons (.text (t := .edge { name? := "c", typeName? := none, direction := .out }) (by cbv)
      (by cbv)) <|
    .cons (.text (t := .node { name? := "d", typeName? := "T" }) (by cbv) (by cbv)) .nil
  engine := rfl

/-- The plan of the way has the names exchanged, and the hidden variable as it was. -/
theorem compile_respelled_oncoming :
    (∀ name ∈ oncoming.arguments, isName name = true) ∧
      Context.Respelled exchanged.spell oncoming oncomingToo ∧
      oncoming.compile = .ok oncomingPlan ∧
      oncomingToo.compile = .ok (oncomingPlan.respelled exchanged.visibly) ∧
      (oncomingPlan.respelled exchanged.visibly).boundNames = ["a", "b", "#2", "c", "d"] := by
  have hargs : ∀ name ∈ oncoming.arguments, isName name = true := by
    intro name hname
    rw [List.mem_singleton.1 hname]
    rfl
  have h := compile_respelled exchanged hargs respelled_oncoming
  rw [compile_oncoming] at h
  exact ⟨hargs, respelled_oncoming, compile_oncoming, h.eq_ok, by cbv⟩

end Context

end GraphPattern
