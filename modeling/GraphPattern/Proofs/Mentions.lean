import GraphPattern.Proofs.Juxtaposed
import GraphPattern.Proofs.Respellings

/-!
# GraphPattern — patterns that mention a node again

Two patterns of which the second one has one more element: a text that mentions a node by its name.
Both are compiled side by side. What is compared are outcomes: answers that belong together, or
failures of the same class, whatever they say and wherever in the pattern they say it.

## Results

* `Concurs.bind` — computations in steps that concur concur.
* `Token.classify_mention` — the tokens of the two patterns.
* `Plan.check_akin` — the checks of a finished plan look at the arguments only.
-/

namespace GraphPattern

open PatternGraph

-- ---------------------------------------------------------------------------
-- Outcomes
-- ---------------------------------------------------------------------------

/-- Two failures of one class: refusals of the same kind, or the same fault. -/
inductive Failure.SameClass : Failure → Failure → Prop
  | refused {d d' : Diagnostic} (kind : d'.kind = d.kind) : SameClass (.refused d) (.refused d')
  | fault (f : Fault) : SameClass (.fault f) (.fault f)

/-- Both succeed with answers that belong together, or both fail with failures of one class. -/
inductive Concurs {α β : Type} (R : α → β → Prop) : Except Failure α → Except Failure β → Prop
  | ok {a : α} {b : β} (related : R a b) : Concurs R (.ok a) (.ok b)
  | error {f f' : Failure} (same : f.SameClass f') : Concurs R (.error f) (.error f')

theorem Failure.SameClass.trans {f f' f'' : Failure} (h : f.SameClass f')
    (h' : f'.SameClass f'') : f.SameClass f'' := by
  cases h with
  | refused kind =>
    cases h' with
    | refused kind' => exact .refused (kind'.trans kind)
  | fault f => exact h'

namespace Concurs

theorem refl {α : Type} (x : Except Failure α) : Concurs Eq x x := by
  cases x with
  | ok a => exact .ok rfl
  | error f =>
    cases f with
    | refused d => exact .error (.refused rfl)
    | fault f => exact .error (.fault f)

theorem trans {α : Type} {x y z : Except Failure α} (h : Concurs Eq x y) (h' : Concurs Eq y z) :
    Concurs Eq x z := by
  cases h with
  | ok related =>
    rw [related]
    exact h'
  | error same =>
    cases h' with
    | error same' => exact .error (same.trans same')

/-- What concurs with an answer is this answer. -/
theorem eq_ok {α : Type} {a : α} {y : Except Failure α} (h : Concurs Eq (.ok a) y) : y = .ok a := by
  cases h with
  | ok related => rw [related]

variable {α β α' β' : Type} {R R' : α → β → Prop} {S : α' → β' → Prop} {x : Except Failure α}
  {y : Except Failure β}

theorem fault (f : Fault) :
    Concurs R (.error (.fault f) : Except Failure α) (.error (.fault f)) :=
  .error (.fault f)

/-- Refusals of the same kind, wherever the pattern is refused. -/
theorem refuse (cx cx' : Context) {p p' : Problem} (index? index'? : Option Int)
    (hkind : p'.kind = p.kind := by rfl) :
    Concurs R (.error (cx.refuse p index?) : Except Failure α) (.error (cx'.refuse p' index'?)) :=
  .error (.refused hkind)

theorem mono (h : Concurs R x y) (hsub : ∀ a b, x = .ok a → y = .ok b → R a b → R' a b) :
    Concurs R' x y := by
  cases h with
  | ok related => exact .ok (hsub _ _ rfl rfl related)
  | error same => exact .error same

/-- What goes on from answers that belong together concurs. -/
theorem bind {k : α → Except Failure α'} {k' : β → Except Failure β'} (h : Concurs R x y)
    (hk : ∀ a b, x = .ok a → y = .ok b → R a b → Concurs S (k a) (k' b)) :
    Concurs S (x >>= k) (y >>= k') := by
  cases h with
  | ok related => exact hk _ _ rfl rfl related
  | error same => exact .error same

theorem map {α β : Type} {x y : Except Failure α} (h : Concurs Eq x y) (f : α → β) :
    Concurs Eq (x.map f) (y.map f) := by
  cases h with
  | ok related => exact .ok (congrArg f related)
  | error same => exact .error same

end Concurs

/-- Two compilations for the same arguments and the same engine. -/
structure Context.Akin (cx cx' : Context) : Prop where
  arguments : cx'.arguments = cx.arguments
  engine : cx'.engine = cx.engine

-- ---------------------------------------------------------------------------
-- Tokens
-- ---------------------------------------------------------------------------

namespace Token

/-- The last node of some tokens. -/
def lastNode? : List Token → Option NodeToken
  | [] => none
  | .node t :: rest => some ((lastNode? rest).getD t)
  | .edge _ :: rest | .constraint _ :: rest => lastNode? rest

theorem lastNode?_append (ts us : List Token) :
    lastNode? (ts ++ us) = (lastNode? us).or (lastNode? ts) := by
  fun_induction lastNode? ts with
  | case1 => exact Option.or_none.symm
  | case2 t rest ih =>
    rw [List.cons_append, lastNode?, ih]
    cases lastNode? us <;> rfl
  | case3 u rest ih | case4 u rest ih => exact ih

/-- Elements further on are units further on, or fail for the same reason. -/
theorem units_later (d i : Nat) (es : List Element) :
    units (i + d) es =
      ((units i es).map (List.map (later d))).mapError fun e => (e.1, e.2 + d) := by
  fun_induction units i es with
  | case1 i => rfl
  | case2 i s rest hs hm => rw [units.eq_def]; simp only [if_pos hs, hm]; rfl
  | case3 i s hs m hm => rw [units.eq_def]; simp only [if_pos hs, hm]; rfl
  | case4 i s hs m payload rest hm p hp =>
    rw [units.eq_def]
    simp only [if_pos hs, hm, hp, Nat.add_right_comm i d 1]
    rfl
  | case5 i s hs m payload rest hm c hc ih =>
    rw [units.eq_def]
    simp only [if_pos hs, hm, hc, Nat.add_right_comm i d 2, ih]
    cases units (i + 2) rest <;> rfl
  | case6 i s rest hs hread => rw [units.eq_def]; simp only [if_neg hs, hread]; rfl
  | case7 i s rest hs t hread ih =>
    rw [units.eq_def]
    simp only [if_neg hs, hread, Nat.add_right_comm i d 1, ih]
    cases units (i + 1) rest with
    | error e => rfl
    | ok ts =>
      simp [Except.map, Except.mapError, bind, Except.bind, later_atIndex, pure, Except.pure]
  | case8 i e rest htext =>
    cases e with
    | text s => exact (htext s rfl).elim
    | _ => rfl

/-- A text that is a node or an edge is a unit of its own. -/
theorem units_text {s : String} {t : Token} (hs : read? s = some t) (i : Nat)
    (rest : List Element) :
    units i (.text s :: rest) = do return t.atIndex i :: (← units (i + 1) rest) := by
  rw [units.eq_def]
  simp only [startsMarker_of_read? hs, Bool.false_eq_true, if_false, hs]

/-- The tokens of a pattern and of the same pattern with one more text, a node, in between. -/
theorem classify_mention {first : List Element} {ts : List Token} (hts : classify first = .ok ts)
    {s : String} {t : NodeToken} (hs : read? s = some (.node t)) (second : List Element) :
    Concurs (fun us us' => ∃ rest, us = ts ++ rest ∧
        us' = ts ++ .node { t with index := first.length } :: rest.map (later 1))
      (classify (first ++ second)) (classify (first ++ .text s :: second)) := by
  have hunits := classify_eq_ok_iff.1 hts
  have hshort := hunits.units_append second
  have hlong := hunits.units_append (.text s :: second)
  rw [Nat.zero_add] at hshort hlong
  rw [units_text hs, units_later] at hlong
  cases hu : units first.length second with
  | ok rest =>
    rw [hu] at hshort hlong
    rw [classify, classify, hshort, hlong]
    exact .ok ⟨rest, rfl, rfl⟩
  | error e =>
    obtain ⟨p, i⟩ := e
    rw [hu] at hshort hlong
    rw [classify, classify, hshort, hlong]
    exact .error (.refused rfl)

end Token

-- ---------------------------------------------------------------------------
-- Checks
-- ---------------------------------------------------------------------------

namespace Plan

variable {cx cx' : Context} (g? g'? : Option PatternGraph)

theorem checkForm_akin (bound : List String) (e : Expr) :
    Concurs Eq (checkForm cx g? bound e) (checkForm cx' g'? bound e) := by
  cases e with
  | call f =>
    simp only [checkForm]
    cases missingParameter? f bound with
    | none => exact .ok rfl
    | some p => exact .refuse cx cx' _ _
  | _ => exact .ok rfl

theorem checkBindings_akin (bound : List String) (bs : List (String × Expr)) :
    Concurs Eq (checkBindings cx g? bound bs) (checkBindings cx' g'? bound bs) := by
  induction bs generalizing bound with
  | nil => exact .ok rfl
  | cons b bs ih => exact (checkForm_akin g? g'? bound b.2).bind fun _ _ _ _ _ => ih (b.1 :: bound)

theorem checkStep_akin (bound : List String) (s : Step) :
    Concurs Eq (checkStep cx g? bound s) (checkStep cx' g'? bound s) := by
  cases s with
  | generate name e => exact .ok rfl
  | assign name e => exact (checkForm_akin g? g'? bound e).bind fun _ _ _ _ _ => .ok rfl
  | assignAll bs => exact checkBindings_akin g? g'? bound bs
  | guard e | whilst e => exact (checkForm_akin g? g'? bound e).bind fun _ _ _ _ _ => .ok rfl
  | foreign kind => exact .ok rfl

theorem checkSteps_akin (steps : List Step) (bound : List String) :
    Concurs Eq (steps.foldlM (checkStep cx g?) bound) (steps.foldlM (checkStep cx' g'?) bound) := by
  induction steps generalizing bound with
  | nil => exact .ok rfl
  | cons s steps ih =>
    rw [List.foldlM_cons, List.foldlM_cons]
    refine (checkStep_akin g? g'? bound s).bind fun a b _ _ hab => ?_
    rw [hab]
    exact ih b

/-- Of its context, the check of a finished plan only looks at the arguments. -/
theorem check_akin (hcx : cx.Akin cx') (p : Plan) :
    Concurs Eq (p.check cx g?) (p.check cx' g'?) := by
  unfold check
  rw [hcx.arguments]
  cases repeated p.boundNames with
  | cons c cs => exact .refuse cx cx' none none
  | nil =>
    cases p.steps.findSome? (reboundArgument? cx.arguments) with
    | some name => exact .refuse cx cx' none none
    | none => exact (checkSteps_akin g? g'? p.steps cx.arguments).bind fun _ _ _ _ _ => .ok rfl

end Plan

end GraphPattern
