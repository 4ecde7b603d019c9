import GraphPattern.Plan
import GraphPattern.PatternGraph
import GraphPattern.Problem

/-!
# GraphPattern — checked plans

A finished plan binds no name twice, binds no argument to anything but its supplied value, and
calls no form before everything the form requires is bound. `Plan.check` refuses every other plan.
-/

namespace GraphPattern.Plan

/-- The names that occur more than once, with their counts, in the order of first occurrence. -/
def repeated (names : List String) : List (String × Nat) :=
  (names.eraseDups.map fun n => (n, names.count n)).filter fun c => decide (1 < c.2)

/-- An argument that a step binds to something else. -/
def reboundArgument? (arguments : List String) : Step → Option String
  | .assign _ (.argument _) => none
  | .assign n _ => if arguments.contains n then some n else none
  | _ => none

/-- The place of the first constraint of the pattern that holds a form. -/
def formPosition? (f : Form) : List PatternNode → Option (Option Int)
  | [] => none
  | n :: rest =>
    match n.constraint? with
    | some c =>
      if c.forms.any (·.id == f.id) then some n.tokenIndex? else formPosition? f rest
    | none => formPosition? f rest

/-- The first required parameter of a form that is not bound. -/
def missingParameter? (f : Form) (bound : List String) : Option String :=
  match f.params? with
  | none => none
  | some params =>
    if Form.takesKeywords params then none
    else (Form.requires params).find? fun p => !bound.contains p

/-- Refuses a form that requires something unbound. Forms whose parameters cannot be found out
are left to the execution. -/
def checkForm (cx : Context) (g? : Option PatternGraph) (bound : List String) :
    Expr → Except Failure Unit
  | .call f =>
    match missingParameter? f bound with
    | none => .ok ()
    | some p =>
      .error (cx.refuse (.unboundFormName f.displayed p)
        (g?.bind fun g => (formPosition? f g.nodes).join))
  | _ => .ok ()

/-- Checks bindings that are declared together; later ones see the earlier ones. -/
def checkBindings (cx : Context) (g? : Option PatternGraph) (bound : List String) :
    List (String × Expr) → Except Failure (List String)
  | [] => .ok bound
  | (n, e) :: rest => do
    checkForm cx g? bound e
    checkBindings cx g? (n :: bound) rest

/-- Checks the forms of a step and gives what is bound after it. -/
def checkStep (cx : Context) (g? : Option PatternGraph) (bound : List String) :
    Step → Except Failure (List String)
  | .generate n _ => .ok (n :: bound)
  | .assign n e => do
    checkForm cx g? bound e
    return n :: bound
  | .assignAll bs => checkBindings cx g? bound bs
  | .guard e | .whilst e => do
    checkForm cx g? bound e
    return bound
  | .foreign _ => .ok bound

/-- Checks a finished plan. The pattern graph, if it is known, gives forms their places. -/
def check (cx : Context) (g? : Option PatternGraph) (p : Plan) : Except Failure Unit := do
  match repeated p.boundNames with
  | [] => .ok ()
  | counts => .error (cx.refuse (.boundRepeatedly counts) none)
  match p.steps.findSome? (reboundArgument? cx.arguments) with
  | none => .ok ()
  | some n => .error (cx.refuse (.argumentRebound n) none)
  discard (p.steps.foldlM (checkStep cx g?) cx.arguments)

end GraphPattern.Plan
