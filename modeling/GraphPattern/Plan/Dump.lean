import GraphPattern.Plan
import GraphPattern.SExpr

/-!
# GraphPattern — dumps

A plan is shown as an S-expression, for logs and comparison: every step, expression and path has
its own list, headed by a keyword.
-/

namespace GraphPattern

/-- A type in a position where it may be left out, which a symbol stands for. -/
def SExpr.ofType : TypeMark → SExpr
  | .any => .symbol "nil"
  | .spec s => .text s
  | .number n => .number n
  | .float _ => .list [.symbol "float", .symbol "..."]
  | .truth b => .symbol (if b then "true" else "false")

/-- A type in a position where one is always meant to stand. -/
def SExpr.ofRequiredType : TypeMark → SExpr
  | .any => .absent
  | .spec s => .text s
  | .number n => .number n
  | .float x => .symbol x.text
  | .truth b => .truth b

/-- A thing of a foreign kind. -/
def SExpr.ofForeign (kind : String) : SExpr :=
  .list [.symbol kind, .symbol "..."]

def SExpr.ofDirection (d : Direction) : SExpr :=
  .symbol (":" ++ d.name)

def Segment.dump : Segment → SExpr
  | .restrict t => .list [.symbol "p-restr", .ofRequiredType t]
  | .step .out t => .list [.symbol "-->", .ofType t]
  | .step .into t => .list [.symbol "<--", .ofType t]
  | .foreign k => .ofForeign k

def Path.dump (p : Path) : SExpr :=
  .list (.symbol "p-seq" :: p.map Segment.dump)

def Expr.dump : Expr → SExpr
  | .var n => .symbol n
  | .argument n => .list [.symbol "arg", .symbol n]
  | .unnamed => .symbol "None"
  | .instances t => .list [.symbol "instances-of", .ofType t]
  | .adjacent s t d => .list [.symbol "adjacent-by-edge", s.dump, .ofType t, .ofDirection d]
  | .edgeEnd e d far => .list [.symbol (if far then "that" else "this"), e.dump, .ofDirection d]
  | .reachable s p => .list [.symbol "reachables", s.dump, Path.dump p]
  | .equal l r => .list [.symbol "=", l.dump, r.dump]
  | .isInstance v t => .list [.symbol "instance?", v.dump, .ofRequiredType t]
  | .nonEmpty c => .list [.symbol "seq", c.dump]
  | .member e c => .list [.symbol "member?", e.dump, c.dump]
  | .present v => .list [.symbol "some?", v.dump]
  | .call f => .list [.symbol "form", .symbol f.displayed]
  | .foreign k => .ofForeign k

def Step.dump : Step → SExpr
  | .generate n e => .list [.symbol "generator", .symbol n, e.dump]
  | .assign n e => .list [.symbol "let", .symbol n, e.dump]
  | .assignAll bs => .list (.symbol "let*" :: bs.map fun b => .list [.symbol b.1, b.2.dump])
  | .guard e => .list [.symbol "guard", e.dump]
  | .whilst e => .list [.symbol "while", e.dump]
  | .foreign k => .ofForeign k

namespace Plan

def dump (p : Plan) : SExpr :=
  .list ([.symbol "plan", .symbol ":backend", .symbol p.engine.name, .symbol ":args",
    .list (p.arguments.map .symbol)] ++ p.steps.map Step.dump)

/-- The plan on one line. -/
def compact (p : Plan) : String :=
  p.dump.compact

/-- The plan over several lines. -/
def pretty (p : Plan) : String :=
  p.dump.pretty 0

end Plan

end GraphPattern
