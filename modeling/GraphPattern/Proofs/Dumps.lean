import GraphPattern.Proofs.Legible
import GraphPattern.Plan.Dump

/-!
# GraphPattern — what dumps tell

The dump of a plan says everything about it but what its forms are: of a form it has only the text
that shows it. A plan in which nothing else is left of the forms can be read back from the dump, and
the dump from its compact form.

## Results

* `Expr.ofDump?_dump`, `Step.ofDump?_dump`, `Plan.ofDump?_dump` — dumps are read back.
* `Plan.legible_dump` — dumps are legible.
* `Plan.compact_eq_iff` — two plans have one compact form exactly if they differ in their forms only,
  and no two of these are shown differently.
-/

namespace GraphPattern

-- ---------------------------------------------------------------------------
-- Dumpable plans
-- ---------------------------------------------------------------------------

/-- A type is named. -/
def TypeMark.IsSpec (t : TypeMark) : Prop :=
  ∃ s, t = .spec s

/-- A type is named, or none is meant. -/
def TypeMark.IsOptionalSpec (t : TypeMark) : Prop :=
  t = .any ∨ t.IsSpec

/-- Nothing is of a foreign kind, and types are named where they cannot be left out. -/
def Segment.Dumpable : Segment → Prop
  | .restrict t => t.IsSpec
  | .step _ t => t.IsOptionalSpec
  | .foreign _ => False

/-- Nothing is of a foreign kind, everything has a name, and types are named where they cannot be
left out. -/
def Expr.Dumpable : Expr → Prop
  | .var _ | .argument _ | .call _ => True
  | .unnamed | .foreign _ => False
  | .instances t => t.IsOptionalSpec
  | .adjacent s t _ => s.Dumpable ∧ t.IsOptionalSpec
  | .edgeEnd e _ _ => e.Dumpable
  | .reachable s p => s.Dumpable ∧ ∀ x ∈ p, x.Dumpable
  | .equal l r => l.Dumpable ∧ r.Dumpable
  | .isInstance v t => v.Dumpable ∧ t.IsSpec
  | .nonEmpty c => c.Dumpable
  | .member e c => e.Dumpable ∧ c.Dumpable
  | .present v => v.Dumpable

def Step.Dumpable : Step → Prop
  | .generate _ e | .assign _ e | .guard e | .whilst e => e.Dumpable
  | .assignAll bs => ∀ b ∈ bs, b.2.Dumpable
  | .foreign _ => False

/-- A plan of dumpable steps whose arguments have names that are not empty. -/
structure Plan.Dumpable (p : Plan) : Prop where
  steps : ∀ s ∈ p.steps, s.Dumpable
  arguments : ∀ a ∈ p.arguments, a ≠ ""

/-! ## Forms by their texts -/

/-- What is left of a form in a dump. -/
def Form.label (s : String) : Form :=
  { id := "", name? := some s }

/-- The expression with nothing left of its forms but the texts that show them. -/
def Expr.labelled : Expr → Expr
  | .call f => .call (.label f.displayed)
  | .adjacent s t d => .adjacent s.labelled t d
  | .edgeEnd e d far => .edgeEnd e.labelled d far
  | .reachable s p => .reachable s.labelled p
  | .equal l r => .equal l.labelled r.labelled
  | .isInstance v t => .isInstance v.labelled t
  | .nonEmpty c => .nonEmpty c.labelled
  | .member e c => .member e.labelled c.labelled
  | .present v => .present v.labelled
  | .var n => .var n
  | .argument n => .argument n
  | .unnamed => .unnamed
  | .instances t => .instances t
  | .foreign k => .foreign k

def Step.labelled : Step → Step
  | .generate n e => .generate n e.labelled
  | .assign n e => .assign n e.labelled
  | .assignAll bs => .assignAll (bs.map fun b => (b.1, b.2.labelled))
  | .guard e => .guard e.labelled
  | .whilst e => .whilst e.labelled
  | .foreign k => .foreign k

def Plan.labelled (p : Plan) : Plan :=
  { p with steps := p.steps.map Step.labelled }

theorem Expr.dump_labelled (e : Expr) : e.labelled.dump = e.dump := by
  induction e <;> simp_all [labelled, dump, Form.displayed, Form.label]

theorem Step.dump_labelled (s : Step) : s.labelled.dump = s.dump := by
  cases s <;> simp [labelled, dump, Expr.dump_labelled]

theorem Plan.dump_labelled (p : Plan) : p.labelled.dump = p.dump := by
  simp [labelled, dump, Step.dump_labelled]

-- ---------------------------------------------------------------------------
-- Reading dumps
-- ---------------------------------------------------------------------------

def TypeMark.ofDump? : SExpr → Option TypeMark
  | .symbol "nil" => some .any
  | .text s => some (.spec s)
  | _ => none

def Direction.ofDump? : SExpr → Option Direction
  | .symbol ":out" => some .out
  | .symbol ":in" => some .into
  | _ => none

def Segment.ofDump? : SExpr → Option Segment
  | .list [.symbol "p-restr", t] => do return .restrict (← TypeMark.ofDump? t)
  | .list [.symbol "-->", t] => do return .step .out (← TypeMark.ofDump? t)
  | .list [.symbol "<--", t] => do return .step .into (← TypeMark.ofDump? t)
  | _ => none

def Path.ofDump? : SExpr → Option Path
  | .list (.symbol "p-seq" :: segments) => segments.mapM Segment.ofDump?
  | _ => none

def Expr.ofDump? : SExpr → Option Expr
  | .symbol n => some (.var n)
  | .list [.symbol "arg", .symbol n] => some (.argument n)
  | .list [.symbol "form", .symbol s] => some (.call (.label s))
  | .list [.symbol "instances-of", t] => do return .instances (← TypeMark.ofDump? t)
  | .list [.symbol "adjacent-by-edge", s, t, d] => do
    return .adjacent (← ofDump? s) (← TypeMark.ofDump? t) (← Direction.ofDump? d)
  | .list [.symbol "that", e, d] => do return .edgeEnd (← ofDump? e) (← Direction.ofDump? d) true
  | .list [.symbol "this", e, d] => do return .edgeEnd (← ofDump? e) (← Direction.ofDump? d) false
  | .list [.symbol "reachables", s, p] => do return .reachable (← ofDump? s) (← Path.ofDump? p)
  | .list [.symbol "=", l, r] => do return .equal (← ofDump? l) (← ofDump? r)
  | .list [.symbol "instance?", v, t] => do return .isInstance (← ofDump? v) (← TypeMark.ofDump? t)
  | .list [.symbol "seq", c] => do return .nonEmpty (← ofDump? c)
  | .list [.symbol "member?", e, c] => do return .member (← ofDump? e) (← ofDump? c)
  | .list [.symbol "some?", v] => do return .present (← ofDump? v)
  | _ => none

def Step.bindingOfDump? : SExpr → Option (String × Expr)
  | .list [.symbol n, e] => do return (n, ← Expr.ofDump? e)
  | _ => none

def Step.ofDump? : SExpr → Option Step
  | .list [.symbol "generator", .symbol n, e] => do return .generate n (← Expr.ofDump? e)
  | .list [.symbol "let", .symbol n, e] => do return .assign n (← Expr.ofDump? e)
  | .list [.symbol "guard", e] => do return .guard (← Expr.ofDump? e)
  | .list [.symbol "while", e] => do return .whilst (← Expr.ofDump? e)
  | .list (.symbol "let*" :: bindings) => do return .assignAll (← bindings.mapM bindingOfDump?)
  | _ => none

def Plan.argumentOfDump? : SExpr → Option String
  | .symbol n => some n
  | _ => none

def Plan.ofDump? : SExpr → Option Plan
  | .list (.symbol "plan" :: .symbol ":backend" :: .symbol engine :: .symbol ":args" ::
      .list arguments :: steps) => do
    return { steps := ← steps.mapM Step.ofDump?, arguments := ← arguments.mapM argumentOfDump?
             engine := ← Engine.ofName? engine }
  | _ => none

/-- A list is read back if each of its members is. -/
theorem mapM_dump {α β : Type} {dump : α → SExpr} {ofDump? : SExpr → Option β} {f : α → β}
    {xs : List α} (h : ∀ x ∈ xs, ofDump? (dump x) = some (f x)) :
    (xs.map dump).mapM ofDump? = some (xs.map f) := by
  induction xs with
  | nil => rfl
  | cons x xs ih =>
    rw [List.map_cons, List.mapM_cons, h x List.mem_cons_self,
      ih fun y hy => h y (List.mem_cons_of_mem _ hy)]
    rfl

theorem TypeMark.ofDump?_ofType {t : TypeMark} (h : t.IsOptionalSpec) :
    ofDump? (.ofType t) = some t := by
  obtain rfl | ⟨s, rfl⟩ := h <;> rfl

theorem TypeMark.ofDump?_ofRequiredType {t : TypeMark} (h : t.IsSpec) :
    ofDump? (.ofRequiredType t) = some t := by
  obtain ⟨s, rfl⟩ := h
  rfl

theorem Direction.ofDump?_ofDirection (d : Direction) : ofDump? (.ofDirection d) = some d := by
  cases d <;> rfl

theorem Segment.ofDump?_dump {x : Segment} (h : x.Dumpable) : ofDump? x.dump = some x := by
  cases x with
  | restrict t => simp [dump, ofDump?, TypeMark.ofDump?_ofRequiredType h]
  | step d t => cases d <;> simp [dump, ofDump?, TypeMark.ofDump?_ofType h]
  | foreign k => exact h.elim

theorem Path.ofDump?_dump {p : Path} (h : ∀ x ∈ p, x.Dumpable) : ofDump? (dump p) = some p := by
  have hp : ∀ x ∈ p, Segment.ofDump? x.dump = some (id x) := fun x hx =>
    Segment.ofDump?_dump (h x hx)
  rw [dump, ofDump?, mapM_dump hp, List.map_id]

theorem Expr.ofDump?_dump {e : Expr} (h : e.Dumpable) : ofDump? e.dump = some e.labelled := by
  induction e with
  | var n | argument n | call f => simp [dump, ofDump?, labelled]
  | unnamed | foreign k => exact h.elim
  | instances t => simp [dump, ofDump?, labelled, TypeMark.ofDump?_ofType h]
  | adjacent s t d ih =>
    simp [dump, ofDump?, labelled, ih h.1, TypeMark.ofDump?_ofType h.2,
      Direction.ofDump?_ofDirection]
  | edgeEnd e d far ih =>
    cases far <;> simp [dump, ofDump?, labelled, ih h, Direction.ofDump?_ofDirection]
  | reachable s p ih => simp [dump, ofDump?, labelled, ih h.1, Path.ofDump?_dump h.2]
  | equal l r ihl ihr => simp [dump, ofDump?, labelled, ihl h.1, ihr h.2]
  | isInstance v t ih => simp [dump, ofDump?, labelled, ih h.1, TypeMark.ofDump?_ofRequiredType h.2]
  | nonEmpty c ih => simp [dump, ofDump?, labelled, ih h]
  | member e c ihe ihc => simp [dump, ofDump?, labelled, ihe h.1, ihc h.2]
  | present v ih => simp [dump, ofDump?, labelled, ih h]

theorem Step.ofDump?_dump {s : Step} (h : s.Dumpable) : ofDump? s.dump = some s.labelled := by
  cases s with
  | generate n e | assign n e | guard e | whilst e =>
    simp [dump, ofDump?, labelled, Expr.ofDump?_dump h]
  | assignAll bs =>
    have hbs : ∀ b ∈ bs, bindingOfDump? (.list [.symbol b.1, b.2.dump]) =
        some (b.1, b.2.labelled) := fun b hb => by
      simp [bindingOfDump?, Expr.ofDump?_dump (h b hb)]
    simp [dump, ofDump?, labelled, mapM_dump hbs]
  | foreign k => exact h.elim

/-- The plan of a dump is the dumped one, with nothing left of its forms but the texts that show
them. -/
theorem Plan.ofDump?_dump {p : Plan} (h : p.Dumpable) : ofDump? p.dump = some p.labelled := by
  have hsteps : ∀ s ∈ p.steps, Step.ofDump? s.dump = some s.labelled := fun s hs =>
    Step.ofDump?_dump (h.steps s hs)
  have harguments : ∀ a ∈ p.arguments, argumentOfDump? (.symbol a) = some (id a) := fun _ _ => rfl
  simp [dump, ofDump?, labelled, mapM_dump hsteps, mapM_dump harguments]

-- ---------------------------------------------------------------------------
-- Dumps are legible
-- ---------------------------------------------------------------------------

theorem SExpr.Legible.tagged {tag : String} {ps : List SExpr} (htag : tag ≠ "")
    (h : ∀ p ∈ ps, p.Legible) : (SExpr.list (.symbol tag :: ps)).Legible := by
  refine .list (fun p hp => ?_) fun heq => htag (by simpa using (List.cons.inj heq).1)
  rcases List.mem_cons.1 hp with rfl | hp
  · exact .symbol tag
  · exact h p hp

theorem SExpr.legible_ofType {t : TypeMark} (h : t.IsOptionalSpec) : (ofType t).Legible := by
  obtain rfl | ⟨s, rfl⟩ := h
  · exact .symbol _
  · exact .text _

theorem SExpr.legible_ofRequiredType {t : TypeMark} (h : t.IsSpec) :
    (ofRequiredType t).Legible := by
  obtain ⟨s, rfl⟩ := h
  exact .text _

theorem Segment.legible_dump {x : Segment} (h : x.Dumpable) : x.dump.Legible := by
  cases x with
  | restrict t => exact .tagged (by decide) (by simpa using SExpr.legible_ofRequiredType h)
  | step d t =>
    cases d <;> exact .tagged (by decide) (by simpa using SExpr.legible_ofType h)
  | foreign k => exact h.elim

theorem Path.legible_dump {p : Path} (h : ∀ x ∈ p, x.Dumpable) : (dump p).Legible :=
  .tagged (by decide) (by simpa using fun x hx => Segment.legible_dump (h x hx))

theorem Expr.legible_dump {e : Expr} (h : e.Dumpable) : e.dump.Legible := by
  induction e with
  | var n => exact .symbol n
  | argument n => exact .tagged (by decide) (by simpa using .symbol n)
  | call f => exact .tagged (by decide) (by simpa using .symbol _)
  | unnamed | foreign k => exact h.elim
  | instances t => exact .tagged (by decide) (by simpa using SExpr.legible_ofType h)
  | adjacent s t d ih =>
    exact .tagged (by decide) (by simpa using ⟨ih h.1, SExpr.legible_ofType h.2, .symbol _⟩)
  | edgeEnd e d far ih =>
    exact .tagged (by cases far <;> decide) (by simpa using ⟨ih h, .symbol _⟩)
  | reachable s p ih =>
    exact .tagged (by decide) (by simpa using ⟨ih h.1, Path.legible_dump h.2⟩)
  | equal l r ihl ihr => exact .tagged (by decide) (by simpa using ⟨ihl h.1, ihr h.2⟩)
  | isInstance v t ih =>
    exact .tagged (by decide) (by simpa using ⟨ih h.1, SExpr.legible_ofRequiredType h.2⟩)
  | nonEmpty c ih => exact .tagged (by decide) (by simpa using ih h)
  | member e c ihe ihc => exact .tagged (by decide) (by simpa using ⟨ihe h.1, ihc h.2⟩)
  | present v ih => exact .tagged (by decide) (by simpa using ih h)

theorem Step.legible_dump {s : Step} (h : s.Dumpable) : s.dump.Legible := by
  cases s with
  | generate n e | assign n e =>
    exact .tagged (by decide) (by simpa using ⟨.symbol n, Expr.legible_dump h⟩)
  | guard e | whilst e => exact .tagged (by decide) (by simpa using Expr.legible_dump h)
  | assignAll bs =>
    refine .tagged (by decide) fun p hp => ?_
    obtain ⟨b, hb, rfl⟩ := List.mem_map.1 hp
    exact .list (by simpa using ⟨.symbol b.1, Expr.legible_dump (h b hb)⟩) (by simp)
  | foreign k => exact h.elim

theorem Plan.dump_eq (p : Plan) : p.dump = .list (.symbol "plan" :: .symbol ":backend" ::
    .symbol p.engine.name :: .symbol ":args" :: .list (p.arguments.map .symbol) ::
    p.steps.map Step.dump) :=
  rfl

theorem Plan.legible_dump {p : Plan} (h : p.Dumpable) : p.dump.Legible := by
  have harguments : (SExpr.list (p.arguments.map .symbol)).Legible := by
    refine .list (fun x hx => ?_) fun heq => ?_
    · obtain ⟨a, -, rfl⟩ := List.mem_map.1 hx
      exact .symbol a
    · obtain ⟨a, ha, heq⟩ := List.map_eq_singleton_iff.1 heq
      cases heq
      exact h.arguments "" (by simp [ha]) rfl
  rw [Plan.dump_eq]
  refine .tagged (by decide) fun x hx => ?_
  simp only [List.mem_cons, List.mem_map] at hx
  rcases hx with rfl | rfl | rfl | rfl | ⟨s, hs, rfl⟩
  · exact .symbol _
  · exact .symbol _
  · exact .symbol _
  · exact harguments
  · exact Step.legible_dump (h.steps s hs)

/-- Two plans have one compact form exactly if they are equal with nothing left of their forms but
the texts that show them. -/
theorem Plan.compact_eq_iff {p q : Plan} (hp : p.Dumpable) (hq : q.Dumpable) :
    p.compact = q.compact ↔ p.labelled = q.labelled := by
  constructor
  · intro h
    have hdump : p.dump = q.dump := (legible_dump hp).eq_of_compact_eq (legible_dump hq) h
    have hread : some p.labelled = some q.labelled := by
      rw [← ofDump?_dump hp, hdump, ofDump?_dump hq]
    exact Option.some.inj hread
  · intro h
    rw [compact, compact, ← p.dump_labelled, h, q.dump_labelled]

/-- A plan with an empty name, names that have to be marked, and a type that could be taken for no
type at all. -/
def awkward (type : TypeMark) (form : Form) : Plan :=
  { steps := [.generate "" (.instances type),
      .assign "#1 (x)" (.reachable (.var "\\") [.step .into type, .restrict (.spec "\"")]),
      .guard (.call form)]
    arguments := ["nil"], engine := .graph }

theorem dumpable_awkward {type : TypeMark} (h : type.IsOptionalSpec) (form : Form) :
    (awkward type form).Dumpable where
  steps := by
    have hquote : TypeMark.IsSpec (.spec "\"") := ⟨_, rfl⟩
    simp [awkward, Step.Dumpable, Expr.Dumpable, Segment.Dumpable, h, hquote]
  arguments := by simp [awkward]

/-- A type is told from none, and a form is told by how it is shown only. -/
theorem Plan.compact_eq_iff_awkward :
    (awkward .any { id := "f", name? := "p" }).compact ≠
        (awkward (.spec "nil") { id := "f", name? := "p" }).compact ∧
      (awkward .any { id := "f", name? := "p" }).compact =
        (awkward .any { id := "g", name? := "p", params? := none }).compact := by
  have hany : ∀ form, (awkward .any form).Dumpable := dumpable_awkward (.inl rfl)
  have hnil : ∀ form, (awkward (.spec "nil") form).Dumpable := dumpable_awkward (.inr ⟨_, rfl⟩)
  exact ⟨fun h => absurd ((compact_eq_iff (hany _) (hnil _)).1 h) (by decide),
    (compact_eq_iff (hany _) (hany _)).2 rfl⟩

end GraphPattern
