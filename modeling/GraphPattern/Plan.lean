import GraphPattern.Path

/-!
# GraphPattern — plans

The compiled form of a pattern: a sequence of steps that bind and test variables, over a small
expression language. Steps are nested in one another: each is run once for every way in which the
steps before it succeed. Plans are data and can be compared.

* `Plan.boundNames` — the names that the steps bind, in order.
* `Plan.resultNames` — the names that make up a match: the bound names without the hidden ones.
* `Plan.expanded` — the plan with bindings that are declared together bound one after the other, each
  followed by a test that its value is not absent. An attempt then ends at the first absent value.
-/

namespace GraphPattern

/-- What a step computes. -/
inductive Expr where
  /-- A variable bound by an earlier step, or an argument. -/
  | var (name : String)
  /-- The value supplied for an argument. -/
  | argument (name : String)
  /-- The value of something that has no name, which nothing can be bound to. -/
  | unnamed
  /-- The elements of the model that match a type. -/
  | instances (type : TypeMark)
  /-- The edges at an element that leave it in a direction. -/
  | adjacent (source : Expr) (type : TypeMark) (direction : Direction)
  /-- The end of an edge that it leads to (`far`) or comes from, followed in a direction. -/
  | edgeEnd (edge : Expr) (direction : Direction) (far : Bool)
  /-- The elements a path leads to. -/
  | reachable (start : Expr) (path : Path)
  | equal (left right : Expr)
  | isInstance (value : Expr) (type : TypeMark)
  | nonEmpty (collection : Expr)
  | member (element collection : Expr)
  /-- Whether a value is not absent. -/
  | present (value : Expr)
  /-- The value of a form. -/
  | call (form : Form)
  /-- An expression of a kind that nothing here can compute. -/
  | foreign (kind : String)
deriving DecidableEq, Repr, Inhabited

/-- A step of a plan. -/
inductive Step where
  /-- Binds a name to each of some candidates in turn. -/
  | generate (name : String) (source : Expr)
  /-- Binds a name to a value. -/
  | assign (name : String) (value : Expr)
  /-- Several bindings that are declared together. -/
  | assignAll (bindings : List (String × Expr))
  /-- Drops what does not pass a test. -/
  | guard (test : Expr)
  /-- Ends the innermost enumeration around it once a test fails. -/
  | whilst (test : Expr)
  /-- A step of a kind that nothing here can run. -/
  | foreign (kind : String)
deriving DecidableEq, Repr

/-- Whether two expressions are equal. Marks are compared by what they amount to, and a part of a
foreign kind is equal to nothing. -/
def Expr.same : Expr → Expr → Bool
  | .reachable e p, .reachable e' p' => e.same e' && Path.same p p'
  | .instances t, .instances t' => t.same t'
  | .adjacent e t d, .adjacent e' t' d' => e.same e' && t.same t' && d == d'
  | .edgeEnd e d far, .edgeEnd e' d' far' => e.same e' && d == d' && far == far'
  | .equal l r, .equal l' r' => l.same l' && r.same r'
  | .isInstance e t, .isInstance e' t' => e.same e' && t.same t'
  | .nonEmpty e, .nonEmpty e' => e.same e'
  | .member e c, .member e' c' => e.same e' && c.same c'
  | .present e, .present e' => e.same e'
  | .foreign _, _ => false
  | e, e' => decide (e = e')

/-- Whether two steps are equal. -/
def Step.same : Step → Step → Bool
  | .generate n e, .generate n' e' | .assign n e, .assign n' e' => n == n' && e.same e'
  | .assignAll bs, .assignAll bs' =>
    bs.length == bs'.length && (bs.zip bs').all fun (b, b') => b.1 == b'.1 && b.2.same b'.2
  | .guard e, .guard e' | .whilst e, .whilst e' => e.same e'
  | _, _ => false

/-- The names that a step binds. -/
def Step.boundNames : Step → List String
  | .generate n _ | .assign n _ => [n]
  | .assignAll bs => bs.map (·.1)
  | .guard _ | .whilst _ | .foreign _ => []

/-- Names of this form stand for anonymous nodes. No name of a pattern has it. -/
def isHiddenName (name : String) : Bool :=
  name.toList.head? = some '#'

/-- The compiled form of a pattern. -/
structure Plan where
  steps : List Step
  arguments : List String
  engine : Engine
deriving DecidableEq, Repr

namespace Plan

/-- Whether two plans are equal. -/
def same (p q : Plan) : Bool :=
  p.steps.length == q.steps.length && (p.steps.zip q.steps).all (fun (s, t) => s.same t) &&
    p.arguments == q.arguments && p.engine == q.engine

/-- The names that the steps bind, in order. -/
def boundNames (p : Plan) : List String :=
  p.steps.flatMap Step.boundNames

/-- The names that make up a match, each once. -/
def resultNames (p : Plan) : List String :=
  (p.boundNames.filter fun n => !isHiddenName n).eraseDups

/-- The paths of the steps that enumerate what a path leads to. -/
def paths (p : Plan) : List Path :=
  p.steps.filterMap fun
    | .generate _ (.reachable _ path) => some path
    | _ => none

end Plan

/-! ## Expanded plans -/

/-- The steps a step is expanded to. -/
def Step.expanded : Step → List Step
  | .assignAll bs => bs.flatMap fun b => [.assign b.1 b.2, .guard (.present (.var b.1))]
  | s => [s]

/-- A plan without bindings that are declared together. -/
def Plan.expanded (p : Plan) : Plan :=
  { p with steps := p.steps.flatMap Step.expanded }

theorem Step.boundNames_expanded (s : Step) :
    s.expanded.flatMap Step.boundNames = s.boundNames := by
  cases s with
  | assignAll bs => induction bs <;> simp_all [expanded, boundNames]
  | _ => simp [expanded, boundNames]

/-- Expansion binds the same names in the same order. -/
theorem Plan.boundNames_expanded (p : Plan) : p.expanded.boundNames = p.boundNames := by
  obtain ⟨steps, arguments, engine⟩ := p
  simp only [boundNames, expanded]
  induction steps with
  | nil => rfl
  | cons s steps ih => simp [List.flatMap_append, Step.boundNames_expanded, ih]

end GraphPattern
