import GraphPattern.Proofs.Reading

/-!
# GraphPattern — patterns without their constraints

A pattern is bare if it has no constraints. Taking the markers and their payloads away from a pattern
that can be read leaves a pattern that can be read as well: its tokens are those of the pattern in
their order, at other positions, without the constraints.

## Results

* `Token.bared_of_classify` — the tokens of a bare pattern.
-/

namespace GraphPattern

-- ---------------------------------------------------------------------------
-- Elements
-- ---------------------------------------------------------------------------

/-- The element opens a constraint. -/
def Element.isMarker : Element → Bool
  | .text s => Token.startsMarker s
  | _ => false

/-- The elements without the constraint markers and their payloads. -/
def Pattern.bare : List Element → List Element
  | [] => []
  | [e] => if e.isMarker then [] else [e]
  | e :: payload :: rest => if e.isMarker then bare rest else e :: bare (payload :: rest)

/-- The pattern without its constraints. -/
def Context.bare (cx : Context) : Context :=
  { cx with elements := Pattern.bare cx.elements }

namespace Pattern

theorem bare_marker {e payload : Element} {rest : List Element} (h : e.isMarker = true) :
    bare (e :: payload :: rest) = bare rest := by
  rw [bare, if_pos h]

theorem bare_cons {e : Element} {rest : List Element} (h : e.isMarker = false) :
    bare (e :: rest) = e :: bare rest := by
  cases rest with
  | nil => simp [bare, h]
  | cons payload rest => simp [bare, h]

end Pattern

-- ---------------------------------------------------------------------------
-- Tokens
-- ---------------------------------------------------------------------------

namespace Token

/-- The constraint that a token stands for. -/
def held? : Token → Option Constraint
  | .constraint t => some t.constraint
  | _ => none

/-- The constraints of a pattern, in their order. -/
def constraints (ts : List Token) : List Constraint :=
  ts.filterMap held?

/-- The second tokens are the first ones without the constraints, at positions of their own. -/
inductive Bared : List Token → List Token → Prop
  | nil : Bared [] []
  | constraint {t : ConstraintToken} {ts ts' : List Token} (more : Bared ts ts') :
      Bared (.constraint t :: ts) ts'
  | node {t : NodeToken} {ts ts' : List Token} (i : Nat) (more : Bared ts ts') :
      Bared (.node t :: ts) (.node { t with index := i } :: ts')
  | edge {t : EdgeToken} {ts ts' : List Token} (i : Nat) (more : Bared ts ts') :
      Bared (.edge t :: ts) (.edge { t with index := i } :: ts')

/-- What a text is read as holds no constraint. -/
theorem held?_of_read? {s : String} {t : Token} (h : read? s = some t) :
    t.held? = none := by
  unfold read? readChars? at h
  split at h <;> simp only [Option.bind_eq_bind, Option.bind_eq_some_iff] at h
  · obtain ⟨_, -, _, -, ht⟩ := h
    cases ht
    rfl
  · obtain ⟨_, -, _, -, ht⟩ := h
    cases ht
    rfl
  · obtain ⟨_, -, ht⟩ := h
    cases ht
    rfl

theorem Bared.read {t : Token} {ts ts' : List Token} (i j : Nat) (ht : t.held? = none)
    (h : Bared ts ts') : Bared (t.atIndex i :: ts) (t.atIndex j :: ts') := by
  cases t with
  | node t => exact .node j h
  | edge t => exact .edge j h
  | constraint t => cases ht

theorem Units.bared {i : Nat} {es : List Element} {ts : List Token} (h : Units i es ts) (j : Nat) :
    ∃ ts', Units j (Pattern.bare es) ts' ∧ Bared ts ts' := by
  induction h generalizing j with
  | nil i => exact ⟨[], .nil j, .nil⟩
  | @marker i s m payload c es ts starts marker taken rest ih =>
    obtain ⟨ts', hts', hbared⟩ := ih j
    have hmarker : (Element.text s).isMarker = true := starts
    exact ⟨ts', by rwa [Pattern.bare_marker hmarker], .constraint hbared⟩
  | @token i s t es ts starts text rest ih =>
    obtain ⟨ts', hts', hbared⟩ := ih (j + 1)
    have hmarker : (Element.text s).isMarker = false := Bool.eq_false_iff.2 starts
    refine ⟨t.atIndex j :: ts', ?_, hbared.read i j (held?_of_read? text)⟩
    rw [Pattern.bare_cons hmarker]
    exact .token starts text hts'

/-- The tokens of a bare pattern are those of the pattern without the constraints. -/
theorem bared_of_classify {es : List Element} {ts : List Token} (h : classify es = .ok ts) :
    ∃ ts', classify (Pattern.bare es) = .ok ts' ∧ Bared ts ts' := by
  obtain ⟨ts', hts', hbared⟩ := (classify_eq_ok_iff.1 h).bared 0
  exact ⟨ts', classify_eq_ok_iff.2 hts', hbared⟩

end Token

end GraphPattern
