import GraphPattern.Plan.OfGraph

/-!
# GraphPattern — the paths of a plan

The paths in the expressions of a plan, taken together: the parts of all of them, in the order of the
steps. Expanding a plan leaves them as they are.

* `Plan.segments` — the parts of all paths of a plan.
* `Plan.Forward` — no part of a path follows edges against their direction.
-/

namespace GraphPattern

/-- The parts of the paths in an expression. -/
def Expr.segments : Expr → Path
  | .reachable e p => e.segments ++ p
  | .adjacent e _ _ | .edgeEnd e _ _ | .isInstance e _ | .nonEmpty e | .present e => e.segments
  | .equal l r | .member l r => l.segments ++ r.segments
  | .var _ | .argument _ | .unnamed | .instances _ | .call _ | .foreign _ => []

/-- The parts of the paths in the expressions of a step. -/
def Step.segments : Step → Path
  | .generate _ e | .assign _ e | .guard e | .whilst e => e.segments
  | .assignAll bs => bs.flatMap fun b => b.2.segments
  | .foreign _ => []

/-- A part that follows edges against their direction. -/
def Segment.backward : Segment → Bool
  | .step .into _ => true
  | .step .out _ | .restrict _ | .foreign _ => false

/-- No part follows edges against their direction. -/
def Path.Forward (p : Path) : Prop :=
  ∀ s ∈ p, s.backward = false

theorem Path.forward_append {p q : Path} : Path.Forward (p ++ q) ↔ p.Forward ∧ q.Forward := by
  simp only [Forward, List.mem_append, or_imp, forall_and]

theorem Path.forward_cons {s : Segment} {p : Path} :
    Path.Forward (s :: p) ↔ s.backward = false ∧ p.Forward := by
  simp only [Forward, List.mem_cons, forall_eq_or_imp]

/-- What is expanded has the paths of the step. -/
theorem Step.segments_expanded (s : Step) : s.expanded.flatMap Step.segments = s.segments := by
  cases s with
  | assignAll bs => induction bs <;> simp_all [expanded, segments, Expr.segments]
  | _ => simp [expanded]

/-- The parts of the paths of some steps. -/
def pathsOf (steps : List Step) : Path :=
  steps.flatMap Step.segments

theorem pathsOf_append (first second : List Step) :
    pathsOf (first ++ second) = pathsOf first ++ pathsOf second :=
  List.flatMap_append

namespace Plan

theorem pathsOf_constraintStep (c : Constraint) : (constraintStep c).segments = [] := by
  cases c with
  | bind bs => simp [constraintStep, Step.segments, List.flatMap_map, Expr.segments]
  | _ => rfl

/-- The parts of all paths of a plan. -/
def segments (p : Plan) : Path :=
  pathsOf p.steps

/-- A plan that never follows edges against their direction. -/
def Forward (p : Plan) : Prop :=
  p.segments.Forward

/-- Expansion leaves the paths as they are. -/
theorem segments_expanded (p : Plan) : p.expanded.segments = p.segments := by
  simp only [segments, pathsOf, expanded, List.flatMap_assoc, Step.segments_expanded]

end Plan

end GraphPattern
