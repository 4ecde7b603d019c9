import GraphPattern.Proofs.Phrases
import GraphPattern.Proofs.Promises
import GraphPattern.Proofs.ScopedPlans
import GraphPattern.Proofs.Tracking

/-!
# GraphPattern — types that are written

A type that is written at a name of a pattern holds of what the name stands for in every match. Tokens
leave their types in the graph, the walk turns the types of the graph into steps that vouch for them,
and a match has come past these steps. Only for the edges that are given as arguments there is no such
step: they are compared with the node they leave, whatever type is written at them.

## Results

* `Token.isEmpty_of_classify` — a type that is written is not empty.
* `PatternGraph.Reading.Reads.holds` — tokens leave their names and types in the graph.
* `Matches.typed_of_compile` — in a match, a name stands for an element of the type written at it.
-/

namespace GraphPattern

open PatternGraph

-- ---------------------------------------------------------------------------
-- Types of tokens
-- ---------------------------------------------------------------------------

namespace Token

/-- The type of a node or an edge. -/
def typeName? : Token → Option String
  | .node t => t.typeName?
  | .edge t => t.typeName?
  | .constraint _ => none

theorem typeName?_atIndex (i : Nat) (t : Token) : (t.atIndex i).typeName? = t.typeName? := by
  cases t <;> rfl

theorem IsWritable.ne_nil_of_typeName? {t : Token} (h : t.IsWritable) {type : String}
    (htype : t.typeName? = some type) : type.toList ≠ [] := by
  cases t with
  | node t => exact (h.2 type htype).1
  | edge t => exact (h.2 type htype).1
  | constraint t => cases htype

/-- A type that is written is not empty. -/
theorem isEmpty_of_classify {es : List Element} {ts : List Token} (h : classify es = .ok ts)
    {t : Token} (ht : t ∈ ts) {type : String} (htype : t.typeName? = some type) :
    type.isEmpty = false := by
  rcases (classify_eq_ok_iff.1 h).cases_of_mem ht with ⟨c, rfl⟩ | ⟨s, u, k, hread, rfl⟩
  · cases htype
  · rw [typeName?_atIndex] at htype
    rw [← Bool.not_eq_true, String.isEmpty_iff, ← String.toList_eq_nil_iff]
    exact (isWritable_of_read? hread).ne_nil_of_typeName? htype

end Token

-- ---------------------------------------------------------------------------
-- Types in the graph
-- ---------------------------------------------------------------------------

namespace PatternGraph

variable {cx : Context} {g g' g₀ : PatternGraph} {name type : String}

/-- A token has left its node or its edge in the graph, with its name and its type. -/
def Holds (g : PatternGraph) : Token → Prop
  | .node t => ∃ b, g.TokenNode t b
  | .edge t => ∃ k e, g.edge? k = some e ∧ e.name? = t.name? ∧ e.typeName? = t.typeName?
  | .constraint _ => True

theorem Holds.mono (h : g.Extends g') {t : Token} (ht : g.Holds t) : g'.Holds t := by
  cases t with
  | node t =>
    obtain ⟨b, hb⟩ := ht
    exact ⟨b, hb.mono h⟩
  | edge t =>
    obtain ⟨k, e, he, hrest⟩ := ht
    exact ⟨k, e, h.edge? he, hrest⟩
  | constraint t => trivial

/-- An edge token leaves its edge. -/
theorem holds_of_connect {t : EdgeToken} {current next : NodeId}
    (h : Reading.connect cx g t current next = .ok g') : g'.Holds (.edge t) := by
  obtain ⟨-, k, hadd⟩ := Reading.connect_ok h
  refine ⟨⟨g.edges.length⟩, placeEdge cx t current next, ?_, rfl, rfl⟩
  show g'.edges[g.edges.length]? = _
  rw [edges_of_addEdge hadd]
  simp

/-- Tokens leave their names and types in the graph, and nothing that is in it goes away. -/
theorem Reading.Reads.holds {r : Reading} {ts : List Token} {hs : List Handle}
    (h : Reading.Reads cx r ts hs g) (hr : Reading.Sound cx r) (hts : Token.Visible ts) :
    r.graph.Extends g ∧ ∀ t ∈ ts, g.Holds t := by
  induction h with
  | done => exact ⟨.refl _, nofun⟩
  | @constraint r r' t ts hs g step _ ih =>
    obtain ⟨hsound, hext⟩ := hr.constrain step
    obtain ⟨hgrown, hrest⟩ := ih hsound fun t ht => hts t (List.mem_cons_of_mem _ ht)
    exact ⟨hext.trans hgrown, List.forall_mem_cons.2 ⟨trivial, hrest⟩⟩
  | @node r t n g₁ g ts hs step _ ih =>
    obtain ⟨hreg, hext, hplace⟩ := hr.regular.resolve (hts (.node t) (by simp)) step
    obtain ⟨hgrown, hrest⟩ := ih ⟨hreg, .inr hplace, nofun⟩
      fun t ht => hts t (List.mem_cons_of_mem _ ht)
    have hnode : g₁.Holds (.node t) := ⟨_, (hr.regular.resolved step).node⟩
    exact ⟨hext.trans hgrown, List.forall_mem_cons.2 ⟨hnode.mono hgrown, hrest⟩⟩
  | @edge r t next n g₁ g₂ g ts hs source target step _ ih =>
    obtain ⟨hreg₁, hext, hplace⟩ := hr.regular.resolve (hts (.node next) (by simp)) target
    have hcur : g₁.IsPlace r.current := hext.isPlace (hr.isPlace_current source)
    obtain ⟨hreg₂, hext₂⟩ := hreg₁.connect hcur hplace (hts (.edge t) (by simp)) step
    obtain ⟨hgrown, hrest⟩ := ih ⟨hreg₂, .inr (hext₂.isPlace hplace), nofun⟩
      fun t ht => hts t (by simp [ht])
    have hnode : g₁.Holds (.node next) := ⟨_, (hr.regular.resolved target).node⟩
    refine ⟨(hext.trans hext₂).trans hgrown, List.forall_mem_cons.2 ⟨?_, ?_⟩⟩
    · exact (holds_of_connect step).mono hgrown
    · exact List.forall_mem_cons.2 ⟨hnode.mono (hext₂.trans hgrown), hrest⟩

/-- What has a name and a type in a pattern has them in the graph. A node with a type is no argument,
and neither is an edge, unless its name is that of one. -/
theorem Regular.exists_of_holds (hg : g.Regular cx) {t : Token} (ht : g.Holds t)
    (hname : t.name? = some name) (htype : t.typeName? = some type)
    (hedge : ∀ e, t = .edge e → name ∉ cx.arguments) :
    ∃ b, g.HasName b name ∧ ¬ g.IsArgument b ∧ g.typeOf? b = some type := by
  cases t with
  | node t =>
    obtain ⟨_, n, nd, rfl, hplace, hnd, hown, htyped⟩ := ht
    have hname : nd.name? = some name := hown.trans hname
    have htype' : t.typeName? = some type := htype
    have htype : nd.typeName? = some type := by
      rcases htyped with hnone | heq
      · rw [hnone] at htype'
        cases htype'
      · rw [← heq, htype']
    refine ⟨.node n, ⟨hplace.1, by rw [hnd]; exact hname⟩, ?_, by rw [typeOf?, hnd]; exact htype⟩
    rintro ⟨-, nd', hnd', hkind⟩
    rw [hnd] at hnd'
    cases hnd'
    have hfits := hg.node n nd hplace.1 hnd
    rw [NodeFits, hkind] at hfits
    rw [hfits.1] at htype
    cases htype
  | edge t =>
    obtain ⟨k, e, he, hown, htyped⟩ := ht
    have hname : e.name? = some name := hown.trans hname
    have hhas : g.HasName (.edge k) name := (hasName_edge_iff he).2 hname
    refine ⟨.edge k, hhas, fun harg => ?_, by rw [typeOf?, he]; exact htyped.trans htype⟩
    obtain ⟨other, hmem, hother⟩ := hg.name_of_isArgument harg
    obtain rfl : name = other :=
      Option.some.inj (hname.symm.trans ((hasName_edge_iff he).1 hother))
    exact hedge t rfl hmem
  | constraint t => cases hname

end PatternGraph

/-- A step of a compiled plan vouches for the type that is written at a name. -/
theorem Plan.vouched_of_compile {cx : Context} {ts : List Token} {plan : Plan}
    (hts : Token.classify cx.elements = .ok ts) (h : cx.compile = .ok plan) {t : Token} (ht : t ∈ ts)
    {name type : String} (hname : t.name? = some name) (htype : t.typeName? = some type)
    (hedge : ∀ e, t = .edge e → name ∉ cx.arguments) :
    name ∈ plan.resultNames ∧ Plan.Vouched name type plan.steps := by
  obtain ⟨g, p, hg, hp, -, rfl⟩ := Context.compile_ok h
  obtain ⟨ts', g₀, hts', hg₀, hr⟩ := Context.rooted_of_anchoredGraph hg
  rw [hts] at hts'
  cases hts'
  obtain ⟨hs, hreads⟩ := Reading.reads_of_run hg₀
  obtain ⟨-, hholds⟩ := hreads.holds (.start cx) (Token.visible_of_classify hts)
  obtain ⟨b, hb, harg, htypeOf⟩ := hr.regular.exists_of_holds
    ((hholds t ht).mono hr.anchors.extended) hname htype hedge
  have hvouched := vouched_of_ofGraph hr hp hb harg type htypeOf
    (Token.isEmpty_of_classify hts ht htype)
  rw [variable_named hb] at hvouched
  exact ⟨mem_resultNames_of_hasName hr hp hb harg, hvouched⟩

-- ---------------------------------------------------------------------------
-- Types in matches
-- ---------------------------------------------------------------------------

/-- The value at the place of a name, where all names have values. -/
theorem ensures_lookup {f : String → Except Fault Value} {name : String} {v : Value}
    (hv : f name = .ok v) {names : List String} (hname : name ∈ names) :
    Ensures (names.mapM f) fun vs => (names.zip vs).lookup name = some v := by
  induction names with
  | nil => cases hname
  | cons n names ih =>
    rw [List.mapM_cons]
    refine Ensures.bind (P := fun w => f n = .ok w) (fun w hw => hw) fun w hw => ?_
    by_cases heq : name = n
    · subst heq
      rw [hv] at hw
      cases hw
      exact Ensures.map (P := fun _ => True) (fun _ _ => trivial) fun vs _ => by simp
    · have hmem := (List.mem_cons.1 hname).resolve_left heq
      refine (ih hmem).map fun vs hvs => ?_
      rw [List.zip_cons_cons, List.lookup_cons, beq_eq_false_iff_ne.2 heq]
      exact hvs

namespace Matches

variable {m : Matches}

/-- What a name stands for in a match. -/
def valueIn? (m : Matches) (name : String) : Value → Option Value
  | .list vs _ => (m.plan.resultNames.zip vs).lookup name
  | _ => none

theorem promises_emit (hnone : m.result? = none) {name : String} (hname : name ∈ m.plan.resultNames)
    {ctx : Bindings} {v : Value} (hv : ctx.get? name = some v) :
    Promises (m.emit ctx) fun r => m.valueIn? name r = some v := by
  have hbound : boundValue ctx name = .ok v := by
    rw [boundValue, hv]
  rw [emit, hnone]
  exact .bind (.ask (ensures_lookup hbound hname)) fun vs hvs => .pure hvs

theorem of?_eq {s : Setting} {plan : Plan} {args : Bindings} {result? : Option Form}
    (h : of? s plan args result? = .ok m) : m = ⟨plan, s, args, result?⟩ := by
  unfold of? at h
  split at h
  · cases h
  · split at h
    · cases h
      rfl
    · cases h

/-- In every match of a compiled plan, a name stands for an element of the type that is written at it,
wherever it is written in the pattern; the names of edges that are given are left out. -/
theorem typed_of_compile {cx : Context} {ts : List Token} {plan : Plan} {s : Setting}
    {args : Bindings} (hts : Token.classify cx.elements = .ok ts) (hcompile : cx.compile = .ok plan)
    (hof : of? s plan args none = .ok m) {t : Token} (ht : t ∈ ts) {name type : String}
    (hname : t.name? = some name) (htype : t.typeName? = some type)
    (hedge : ∀ e, t = .edge e → name ∉ cx.arguments) :
    ∀ r ∈ m.all.results, ∃ v, m.valueIn? name r = some v ∧ s.model.IsOf v type := by
  obtain rfl := of?_eq hof
  obtain ⟨hmem, hvouched⟩ := Plan.vouched_of_compile hts hcompile ht hname htype hedge
  obtain ⟨g, p, -, -, hcheck, rfl⟩ := Context.compile_ok hcompile
  have hnodup := Plan.repeated_eq_nil_iff.1 (Plan.check_ok hcheck).1
  refine hvouched.bears hnodup (fun c hc => ?_) args {}
  obtain ⟨v, hv, hof⟩ := hc
  exact fun j r hr => ⟨v, promises_emit (m := ⟨p.expanded, s, args, none⟩) rfl hmem hv j r hr, hof⟩

end Matches

/-- Two towns, a village, which is a town as well, and what leads from one to another. -/
def country : TypedGraph :=
  let town : ElementClass := ⟨.mk "Town" [], false⟩
  let village : ElementClass := ⟨.mk "Village" [town.lineage], false⟩
  let road : ElementClass := ⟨.mk "Road" [], true⟩
  let rail : ElementClass := ⟨.mk "Rail" [], true⟩
  { schema := ⟨[town, village, road, rail]⟩
    elements := [.vertex ⟨town, [], [(4, .out), (6, .out)]⟩,
      .vertex ⟨village, [], [(4, .into), (5, .out)]⟩, .vertex ⟨town, [], [(5, .into), (6, .into)]⟩,
      .edge ⟨road, 1, 2, []⟩, .edge ⟨road, 2, 3, []⟩, .edge ⟨rail, 1, 3, []⟩] }

def travels : Setting :=
  { engine := .graph, model := .graph country, behaviour := fun _ _ => .ok .null }

/-- By road to a village and on to a town. -/
def excursion : Context :=
  { arguments := []
    elements := ["x<Town!>", "-e<Road>->", "y<Village>", "-->", "z<!Village>"].map .text
    engine := .graph }

def excursionTokens : List Token :=
  [.node { name? := "x", typeName? := "Town!" },
    .edge { name? := "e", typeName? := "Road", direction := .out, index := 1 },
    .node { name? := "y", typeName? := "Village", index := 2 },
    .edge { name? := none, typeName? := none, direction := .out, index := 3 },
    .node { name? := "z", typeName? := "!Village", index := 4 }]

def excursionPlan : Plan :=
  { steps := [.generate "x" (.instances (.spec "Town!")),
      .generate "e" (.adjacent (.var "x") (.spec "Road") .out),
      .assign "y" (.edgeEnd (.var "e") .out true), .guard (.present (.var "y")),
      .guard (.isInstance (.var "y") (.spec "Village")),
      .generate "z" (.reachable (.var "y") [.step .out .any, .restrict (.spec "!Village")])]
    arguments := [], engine := .graph }

/-- Types are matched where an enumeration starts, along an edge, at its end and at the end of a path. -/
theorem Matches.typed_of_compile_excursion :
    ∃ m, excursion.compile = .ok excursionPlan ∧ of? travels excursionPlan [] none = .ok m ∧
      m.all.results = [.list [.vertex 1, .edge 4, .vertex 2, .vertex 3] (.made [])] ∧
      ∀ t ∈ excursionTokens, ∀ name type, t.name? = some name → t.typeName? = some type →
        ∀ r ∈ m.all.results, ∃ v, m.valueIn? name r = some v ∧ travels.model.IsOf v type := by
  have hts : Token.classify excursion.elements = .ok excursionTokens := by rfl
  have hcompile : excursion.compile = .ok excursionPlan := by
    rw [Context.compile, Context.anchoredGraph, Context.graph, hts]
    cbv
  refine ⟨⟨excursionPlan, travels, [], none⟩, hcompile, rfl, by rfl, fun t ht name type hn htype => ?_⟩
  exact typed_of_compile hts hcompile rfl ht hn htype fun _ _ => List.not_mem_nil

/-- By a railway that is given. -/
def givenRailway : Context :=
  { arguments := ["e"], elements := ["x<Town>", "-e<Rail>->", "y<Town>"].map .text, engine := .graph }

/-- The type that is written at a given edge does not count: there is a match with a road. -/
theorem Matches.typed_givenRailway :
    ∃ ts plan m, Token.classify givenRailway.elements = .ok ts ∧
      (∃ t ∈ ts, t.name? = some "e" ∧ t.typeName? = some "Rail") ∧
      givenRailway.compile = .ok plan ∧ of? travels plan [("e", .edge 4)] none = .ok m ∧
      m.all.results = [.list [.vertex 1, .vertex 2] (.made [])] ∧
      ¬ travels.model.IsOf (.edge 4) "Rail" := by
  have hts : Token.classify givenRailway.elements = .ok
      [.node ⟨some "x", some "Town", 0⟩, .edge ⟨some "e", some "Rail", .out, 1⟩,
        .node ⟨some "y", some "Town", 2⟩] := by rfl
  have hcompile : givenRailway.compile = .ok
      { steps := [.generate "x" (.instances (.spec "Town")),
          .guard (.equal (.var "x") (.edgeEnd (.var "e") .out false)),
          .assign "y" (.edgeEnd (.var "e") .out true), .guard (.present (.var "y")),
          .guard (.isInstance (.var "y") (.spec "Town"))]
        arguments := ["e"], engine := .graph } := by
    rw [Context.compile, Context.anchoredGraph, Context.graph, hts]
    cbv
  refine ⟨_, _, _, hts, ⟨_, List.mem_cons_of_mem _ List.mem_cons_self, rfl, rfl⟩, hcompile, rfl,
    by rfl, ?_⟩
  rintro ⟨c, attributes, helement, htype⟩
  cases helement
  exact absurd htype (by decide)

end GraphPattern
