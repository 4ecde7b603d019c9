import GraphPattern.Proofs.BarePatterns
import GraphPattern.Proofs.Phrases
import Mathlib.Data.List.Basic

/-!
# GraphPattern — respelled patterns

The names of a pattern can be spelled in another way, as long as different names stay different. What
is read from a pattern is then the same with other names: tokens of the same sort at the same places, a
graph of the same shape, or a refusal of the same kind at the same place. Only the wording of a refusal
shows the names.

## Results

* `Token.classify_respelled` — the tokens of a respelled pattern.
* `PatternGraph.Reading.run_respelled` — the graph of respelled tokens.
* `PatternGraph.anchored_respelled` — anchoring does not look at names.
-/

namespace GraphPattern

open PatternGraph

-- ---------------------------------------------------------------------------
-- Respelling
-- ---------------------------------------------------------------------------

/-- A way to spell names: names become names, and no two become the same. -/
structure Respelling where
  spell : String → String
  isName_spell : ∀ name, isName name = true → isName (spell name) = true
  distinct : ∀ name name', isName name = true → isName name' = true →
    spell name = spell name' → name = name'

/-- The variable as it is spelled in a plan: hidden variables have no spelling of their own. -/
def Respelling.visibly (r : Respelling) (name : String) : String :=
  if isHiddenName name then name else r.spell name

section Definitions

variable (ρ : String → String)

def NodeToken.respelled (t : NodeToken) : NodeToken :=
  { t with name? := t.name?.map ρ }

def EdgeToken.respelled (t : EdgeToken) : EdgeToken :=
  { t with name? := t.name?.map ρ }

/-- The constraint with other names for what it binds. Its forms are the same. -/
def Constraint.respelled : Constraint → Constraint
  | .when f => .when f
  | .bind bs => .bind (bs.map fun b => (ρ b.1, b.2))
  | .whilst f => .whilst f

/-- The token with other names. -/
def Token.respelled : Token → Token
  | .node t => .node (t.respelled ρ)
  | .edge t => .edge (t.respelled ρ)
  | .constraint t => .constraint { t with constraint := t.constraint.respelled ρ }

/-- The second element is a text that is read as the token of the first one with another name. -/
inductive Element.Respelled : Element → Element → Prop
  | text {s s' : String} {t : Token} (reads : Token.read? s = some t)
      (respelled : Token.read? s' = some (t.respelled ρ)) : Respelled (.text s) (.text s')

def PatternNode.respelled (nd : PatternNode) : PatternNode :=
  { nd with name? := nd.name?.map ρ, constraint? := nd.constraint?.map (·.respelled ρ) }

def PatternEdge.respelled (e : PatternEdge) : PatternEdge :=
  { e with name? := e.name?.map ρ }

/-- The graph with other names. -/
def PatternGraph.respelled (g : PatternGraph) : PatternGraph where
  nodes := g.nodes.map (·.respelled ρ)
  edges := g.edges.map (·.respelled ρ)
  incidences := g.incidences
  names := g.names.map fun entry => (ρ entry.1, entry.2)

/-- The expression with other names for variables and arguments. -/
def Expr.respelled : Expr → Expr
  | .var name => .var (ρ name)
  | .argument name => .argument (ρ name)
  | .unnamed => .unnamed
  | .instances t => .instances t
  | .adjacent e t d => .adjacent e.respelled t d
  | .edgeEnd e d far => .edgeEnd e.respelled d far
  | .reachable e p => .reachable e.respelled p
  | .equal l r => .equal l.respelled r.respelled
  | .isInstance e t => .isInstance e.respelled t
  | .nonEmpty e => .nonEmpty e.respelled
  | .member e c => .member e.respelled c.respelled
  | .present e => .present e.respelled
  | .call f => .call f
  | .foreign kind => .foreign kind

/-- The step with other names for variables and arguments. -/
def Step.respelled : Step → Step
  | .generate name e => .generate (ρ name) (e.respelled ρ)
  | .assign name e => .assign (ρ name) (e.respelled ρ)
  | .assignAll bs => .assignAll (bs.map fun b => (ρ b.1, b.2.respelled ρ))
  | .guard e => .guard (e.respelled ρ)
  | .whilst e => .whilst (e.respelled ρ)
  | .foreign kind => .foreign kind

/-- The plan with other names for variables and arguments. -/
def Plan.respelled (p : Plan) : Plan :=
  { p with steps := p.steps.map (Step.respelled ρ), arguments := p.arguments.map ρ }

/-- Nothing is lost by the spelling, and hidden variables keep theirs. -/
structure Faithful : Prop where
  injective : Function.Injective ρ
  hidden : ∀ name, isHiddenName name = true → ρ name = name

/-- The second pattern is the first one with other names for arguments and in its elements. It has no
constraints, and is compiled for the same engine. -/
structure Context.Respelled (cx cx' : Context) : Prop where
  arguments : cx'.arguments = cx.arguments.map ρ
  elements : List.Forall₂ (Element.Respelled ρ) cx.elements cx'.elements
  engine : cx'.engine = cx.engine

end Definitions

-- ---------------------------------------------------------------------------
-- Outcomes
-- ---------------------------------------------------------------------------

/-- Two failures that differ at most in their wording. -/
inductive Failure.Like : Failure → Failure → Prop
  /-- Refusals of the same kind, at the same element. -/
  | refused {d d' : Diagnostic} (kind : d'.kind = d.kind)
      (place : d'.location?.map (·.index) = d.location?.map (·.index)) :
      Like (.refused d) (.refused d')
  | fault (f : Fault) : Like (.fault f) (.fault f)

/-- Both succeed, and the second answer is made from the first one, or both fail in the same way. -/
inductive Corresponds {α β : Type} (φ : α → β) : Except Failure α → Except Failure β → Prop
  | ok {a : α} {b : β} (made : b = φ a) : Corresponds φ (.ok a) (.ok b)
  | error {f f' : Failure} (like : f.Like f') : Corresponds φ (.error f) (.error f')

namespace Corresponds

theorem refl {α : Type} (x : Except Failure α) : Corresponds id x x := by
  cases x with
  | ok a => exact .ok rfl
  | error f =>
    cases f with
    | refused d => exact .error (.refused rfl rfl)
    | fault f => exact .error (.fault f)

variable {α β α' β' : Type} {φ : α → β} {ψ : α' → β'} {x : Except Failure α}
  {y : Except Failure β}

theorem fault (f : Fault) :
    Corresponds φ (.error (.fault f) : Except Failure α) (.error (.fault f)) :=
  .error (.fault f)

/-- Refusals of the same kind at the same element, whatever they say. -/
theorem refuse (cx cx' : Context) {p p' : Problem} (index? : Option Int)
    (hkind : p'.kind = p.kind := by rfl) :
    Corresponds φ (.error (cx.refuse p index?) : Except Failure α)
      (.error (cx'.refuse p' index?)) := by
  refine .error (.refused hkind ?_)
  cases index? with
  | none => rfl
  | some i =>
    simp only [Problem.diagnostic, Context.locate, Option.map_some, Pattern.locate]
    split <;> rfl

theorem bind {k : α → Except Failure α'} {k' : β → Except Failure β'} (h : Corresponds φ x y)
    (hk : ∀ a, x = .ok a → Corresponds ψ (k a) (k' (φ a))) :
    Corresponds ψ (x >>= k) (y >>= k') := by
  cases h with
  | @ok a b made =>
    rw [made]
    exact hk a rfl
  | error like => exact .error like

theorem eq_ok {a : α} (h : Corresponds φ (.ok a) y) : y = .ok (φ a) := by
  cases h with
  | ok made => rw [made]

theorem congr {φ' : α → β} (h : Corresponds φ x y) (hφ : ∀ a, x = .ok a → φ a = φ' a) :
    Corresponds φ' x y := by
  cases h with
  | ok made => exact .ok (made.trans (hφ _ rfl))
  | error like => exact .error like

end Corresponds

variable {ρ : String → String} {cx cx' : Context}

-- ---------------------------------------------------------------------------
-- Tokens
-- ---------------------------------------------------------------------------

namespace Token

theorem respelled_atIndex (i : Nat) (t : Token) :
    (t.atIndex i).respelled ρ = (t.respelled ρ).atIndex i := by
  cases t <;> rfl

/-- What is read as a token is no marker. -/
theorem startsMarker_of_read? {s : String} {t : Token} (h : read? s = some t) :
    startsMarker s = false := by
  obtain ⟨p, ⟨before, after, hbefore, -, hs⟩, -⟩ := read?_eq_some_iff.1 h
  rw [startsMarker, hs, decide_eq_false_iff_not]
  intro hhead
  cases before with
  | cons c before =>
    obtain rfl : c = ':' := Option.some.inj hhead
    cases hbefore ':' List.mem_cons_self
  | nil =>
    obtain ⟨c, cs, hp⟩ := List.exists_cons_of_ne_nil p.chars_ne_nil
    rw [hp] at hhead
    obtain rfl : c = ':' := Option.some.inj hhead
    have hread := readChars?_eq_some_iff.2 ⟨p, hp, rfl⟩
    cases hread

/-- The tokens of a respelled pattern are those of the pattern with other names. No constraint is among
them. -/
theorem units_respelled {es es' : List Element} (h : List.Forall₂ (Element.Respelled ρ) es es')
    (i : Nat) : ∃ ts, Units i es ts ∧ Units i es' (ts.map (Token.respelled ρ)) ∧
      constraints ts = [] := by
  induction h generalizing i with
  | nil => exact ⟨[], .nil i, .nil i, rfl⟩
  | @cons e e' es es' he _ ih =>
    obtain ⟨reads, respelled⟩ := he
    rename_i s s' t
    obtain ⟨ts, hts, hts', hnone⟩ := ih (i + 1)
    refine ⟨t.atIndex i :: ts, .token ?_ reads hts, ?_, ?_⟩
    · rw [startsMarker_of_read? reads]
      decide
    · rw [List.map_cons, respelled_atIndex]
      exact .token (by rw [startsMarker_of_read? respelled]; decide) respelled hts'
    · have ht := held?_of_read? reads
      rw [constraints, List.filterMap_cons_none (by cases t <;> exact ht)]
      exact hnone

theorem classify_respelled {es es' : List Element}
    (h : List.Forall₂ (Element.Respelled ρ) es es') : ∃ ts, classify es = .ok ts ∧
      classify es' = .ok (ts.map (Token.respelled ρ)) ∧ constraints ts = [] := by
  obtain ⟨ts, hts, hts', hnone⟩ := units_respelled h 0
  exact ⟨ts, classify_eq_ok_iff.2 hts, classify_eq_ok_iff.2 hts', hnone⟩

end Token

-- ---------------------------------------------------------------------------
-- Graphs
-- ---------------------------------------------------------------------------

theorem Context.Respelled.contains (h : Context.Respelled ρ cx cx')
    (hρ : Function.Injective ρ) (name : String) :
    cx'.arguments.contains (ρ name) = cx.arguments.contains name := by
  rw [h.arguments, Bool.eq_iff_iff, List.contains_iff_mem, List.contains_iff_mem]
  exact List.mem_map_of_injective hρ

@[simp] theorem PatternNode.kind_respelled (nd : PatternNode) :
    (nd.respelled ρ).kind = nd.kind :=
  rfl

@[simp] theorem PatternNode.typeName?_respelled (nd : PatternNode) :
    (nd.respelled ρ).typeName? = nd.typeName? :=
  rfl

@[simp] theorem PatternNode.anonymous_respelled (nd : PatternNode) :
    (nd.respelled ρ).anonymous = nd.anonymous :=
  Option.isNone_map

@[simp] theorem PatternEdge.anonymous_respelled (e : PatternEdge) :
    (e.respelled ρ).anonymous = e.anonymous :=
  Option.isNone_map

namespace PatternGraph

variable (g : PatternGraph)

@[simp] theorem nodes_respelled :
    (g.respelled ρ).nodes = g.nodes.map (PatternNode.respelled ρ) :=
  rfl

@[simp] theorem edges_respelled :
    (g.respelled ρ).edges = g.edges.map (PatternEdge.respelled ρ) :=
  rfl

@[simp] theorem node?_respelled (n : NodeId) :
    (g.respelled ρ).node? n = (g.node? n).map (PatternNode.respelled ρ) := by
  simp only [node?, placeOf?, nodes_respelled, List.length_map]
  cases position? g.nodes.length n.index <;> simp

@[simp] theorem edge?_respelled (k : EdgeId) :
    (g.respelled ρ).edge? k = (g.edge? k).map (PatternEdge.respelled ρ) := by
  simp only [edge?, edges_respelled, List.getElem?_map]

variable {g} in
theorem node?_respelled_of_eq {n : NodeId} {nd : PatternNode} (h : g.node? n = some nd) :
    (g.respelled ρ).node? n = some (nd.respelled ρ) := by
  rw [node?_respelled, h, Option.map_some]

variable {g} in
theorem edge?_respelled_of_eq {k : EdgeId} {e : PatternEdge} (h : g.edge? k = some e) :
    (g.respelled ρ).edge? k = some (e.respelled ρ) := by
  rw [edge?_respelled, h, Option.map_some]

@[simp] theorem incidencesAt_respelled (place : Nat) :
    (g.respelled ρ).incidencesAt place = g.incidencesAt place :=
  rfl

@[simp] theorem incidencesOf_respelled (n : NodeId) :
    (g.respelled ρ).incidencesOf n = g.incidencesOf n := by
  simp only [incidencesOf, nodes_respelled, List.length_map, incidencesAt_respelled]

theorem named?_respelled (hρ : Function.Injective ρ) (name : String) :
    (g.respelled ρ).named? (ρ name) = g.named? name := by
  simp only [named?, respelled]
  induction g.names with
  | nil => rfl
  | cons entry names ih =>
    have hkey : (ρ name == ρ entry.1) = (name == entry.1) := by
      rw [Bool.eq_iff_iff, beq_iff_eq, beq_iff_eq, hρ.eq_iff]
    rw [List.map_cons, List.lookup_cons, List.lookup_cons, hkey, ih]

theorem alpha_respelled (e : PatternEdge) : (e.respelled ρ).alpha = e.alpha :=
  rfl

theorem omega_respelled (e : PatternEdge) : (e.respelled ρ).omega = e.omega :=
  rfl

theorem addNode_respelled (nd : PatternNode) :
    (g.respelled ρ).addNode (nd.respelled ρ) =
      ((g.addNode nd).1, (g.addNode nd).2.respelled ρ) := by
  cases hname : nd.name? <;>
    simp [addNode, respelled, PatternNode.respelled, hname]

theorem addEdge_respelled (e : PatternEdge) :
    (g.respelled ρ).addEdge (e.respelled ρ) =
      ((g.addEdge e).1, (g.addEdge e).2.respelled ρ) := by
  have hpush : { g.respelled ρ with edges := (g.respelled ρ).edges ++ [e.respelled ρ] } =
      ({ g with edges := g.edges ++ [e] } : PatternGraph).respelled ρ := by
    simp only [respelled, List.map_append, List.map_cons, List.map_nil]
  have hlength : (g.respelled ρ).edges.length = g.edges.length := List.length_map _
  have hnote : ∀ (b : PatternGraph) (i : Incidence),
      (b.respelled ρ).addIncidence i = (b.addIncidence i).respelled ρ := fun _ _ => rfl
  unfold addEdge
  simp only [hpush, hlength, hnote, incidencesOf_respelled, alpha_respelled, omega_respelled]
  split
  · rfl
  · split
    · rfl
    · cases hname : e.name? <;> simp [respelled, PatternEdge.respelled, hname]

/-- The search for what is connected looks at incidences only. -/
theorem spread_respelled (seen stack : List NodeId) :
    (g.respelled ρ).spread seen stack = g.spread seen stack := by
  fun_induction spread g seen stack with
  | case1 seen => rw [spread]
  | case2 seen n rest f hf =>
    rw [spread]
    split
    · rename_i f' hf'
      rw [incidencesOf_respelled, hf] at hf'
      cases hf'
      rfl
    · rename_i l hl
      rw [incidencesOf_respelled, hf] at hl
      cases hl
  | case3 seen n rest l hl fresh ih =>
    rw [spread]
    split
    · rename_i f hf
      rw [incidencesOf_respelled, hl] at hf
      cases hf
    · rename_i l' hl'
      rw [incidencesOf_respelled, hl] at hl'
      cases hl'
      exact ih

theorem reachableFrom_respelled :
    (g.respelled ρ).reachableFrom (g.respelled ρ).anchor = g.reachableFrom g.anchor :=
  spread_respelled g _ _

theorem linkStarts_respelled (ns : List NodeId) :
    linkStarts ns (g.respelled ρ) = ((linkStarts ns g).1, (linkStarts ns g).2.respelled ρ) := by
  induction ns generalizing g with
  | nil =>
    simp only [linkStarts, reachableFrom_respelled]
    split <;> rfl
  | cons n ns ih =>
    have hadd := addEdge_respelled (ρ := ρ) g { kind := .start, alpha := g.anchor, omega := n }
    simp only [linkStarts, reachableFrom_respelled]
    split
    · rfl
    · split
      · exact ih g
      · have hsame : (g.respelled ρ).addEdge
            { kind := .start, alpha := (g.respelled ρ).anchor, omega := n } = _ := hadd
        rw [hsame]
        cases g.addEdge { kind := .start, alpha := g.anchor, omega := n } with
        | mk added g' =>
          cases added with
          | error f => rfl
          | ok k => exact ih g'

/-- Anchoring does not look at names. -/
theorem anchored_respelled :
    (g.respelled ρ).anchored = (g.anchored.1, g.anchored.2.respelled ρ) := by
  simp only [anchored, nodeIds, nodes_respelled, List.length_map, linkStarts_respelled]

-- ---------------------------------------------------------------------------
-- Readings
-- ---------------------------------------------------------------------------

namespace Reading

/-- The reading with other names. -/
def respelled (ρ : String → String) (r : Reading) : Reading :=
  { r with graph := r.graph.respelled ρ }

/-- A node with another name is the same node. -/
theorem resolve_respelled (hcx : Context.Respelled ρ cx cx') (hρ : Function.Injective ρ)
    (t : NodeToken) :
    Corresponds (fun found => (found.1, found.2.respelled ρ)) (resolve cx g t)
      (resolve cx' (g.respelled ρ) (t.respelled ρ)) := by
  -- what is added, and what a name was declared as, correspond
  have hadd : ∀ nd : PatternNode,
      Corresponds (fun found => (found.1, found.2.respelled ρ)) (.ok (g.addNode nd))
        (.ok ((g.respelled ρ).addNode (nd.respelled ρ))) :=
    fun nd => .ok (addNode_respelled g nd)
  have hdeclared : ∀ n : NodeId,
      ((g.respelled ρ).node? n).bind (·.typeName?) = (g.node? n).bind (·.typeName?) := by
    intro n
    rw [node?_respelled, Option.bind_map]
    rfl
  -- the name's case is the same on both sides
  unfold resolve
  cases hname : t.name? with
  | none =>
    simp only [NodeToken.respelled, hname, Option.map_none]
    exact hadd { kind := .pattern, typeName? := t.typeName?, tokenIndex? := some t.index }
  | some name =>
    simp only [NodeToken.respelled, hname, Option.map_some, hcx.contains hρ,
      named?_respelled g hρ, hdeclared]
    split
    · exact .refuse cx cx' _
    · cases g.named? name with
      | none =>
        exact hadd { kind := if cx.arguments.contains name then .argument else .pattern,
                     name? := name, typeName? := t.typeName?, tokenIndex? := some t.index }
      | some h =>
        cases h with
        | edge k => exact .refuse cx cx' _
        | node n =>
          cases t.typeName? with
          | none => exact .ok rfl
          | some typeName =>
            by_cases htype : (g.node? n).bind (·.typeName?) = some typeName
            · simp only [if_pos htype]
              exact .ok rfl
            · simp only [if_neg htype]
              exact .refuse cx cx' _

theorem link_respelled (e : PatternEdge) :
    Corresponds (PatternGraph.respelled ρ) (link g e) (link (g.respelled ρ) (e.respelled ρ)) := by
  simp only [link, addEdge_respelled]
  cases g.addEdge e with
  | mk added g' =>
    cases added with
    | error f => exact .fault f
    | ok k => exact .ok rfl

theorem connect_respelled (hcx : Context.Respelled ρ cx cx') (hρ : Function.Injective ρ)
    (t : EdgeToken) (current next : NodeId) :
    Corresponds (PatternGraph.respelled ρ) (connect cx g t current next)
      (connect cx' (g.respelled ρ) (t.respelled ρ) current next) := by
  -- the edges drawn differ in their names alone
  have hlink : ∀ (kind : EdgeKind) (alpha omega : NodeId), Corresponds (PatternGraph.respelled ρ)
      (link g
        { kind, alpha, omega, name? := t.name?, typeName? := t.typeName?,
          tokenIndex? := some t.index })
      (link (g.respelled ρ)
        { kind, alpha, omega, name? := t.name?.map ρ, typeName? := t.typeName?,
          tokenIndex? := some t.index }) :=
    fun kind alpha omega => link_respelled g
      { kind, alpha, omega, name? := t.name?, typeName? := t.typeName?,
        tokenIndex? := some t.index }
  unfold connect
  cases hname : t.name? with
  | none =>
    rw [hname] at hlink
    simp only [EdgeToken.respelled, hname, Option.map_none]
    exact hlink _ _ _
  | some name =>
    rw [hname] at hlink
    simp only [EdgeToken.respelled, hname, Option.map_some, hcx.contains hρ,
      named?_respelled g hρ]
    split
    · exact .refuse cx cx' _
    · exact hlink _ _ _

theorem constrain_respelled (r : Reading) (t : ConstraintToken) :
    Corresponds (respelled ρ) (r.constrain t)
      ((r.respelled ρ).constrain { t with constraint := t.constraint.respelled ρ }) := by
  have hadd : (r.respelled ρ).graph.addNode
      { kind := .constraint, constraint? := t.constraint.respelled ρ, tokenIndex? := some t.index } =
        ((r.graph.addNode (constraintNode t)).1,
          (r.graph.addNode (constraintNode t)).2.respelled ρ) :=
    addNode_respelled r.graph (constraintNode t)
  simp only [constrain, hadd]
  exact (link_respelled _ (precedesEdge (r.lastConstraint?.getD r.current) _)).bind
    fun g _ => .ok rfl

/-- The graph of respelled tokens is the graph of the tokens with other names. -/
theorem run_respelled (hcx : Context.Respelled ρ cx cx') (hρ : Function.Injective ρ)
    (r : Reading) (ts : List Token) :
    Corresponds (PatternGraph.respelled ρ) (run cx r ts)
      (run cx' (r.respelled ρ) (ts.map (Token.respelled ρ))) := by
  -- along the run; what is refused on one side is refused on the other
  fun_induction run cx r ts with
  | case1 r => exact .ok rfl
  | case2 r t ts ih =>
    exact (constrain_respelled r t).bind fun r' _ => ih r'
  | case3 r t ts ih =>
    exact (resolve_respelled r.graph hcx hρ t).bind fun found _ => ih found.1 found.2
  | case4 r t ts hsource =>
    have hsource' : (r.respelled ρ).current = (r.respelled ρ).graph.anchor := hsource
    rw [List.map_cons, Token.respelled, run.eq_def]
    simp only [if_pos hsource']
    exact .refuse cx cx' _
  | case5 r t hsource next ts ih =>
    have hsource' : (r.respelled ρ).current ≠ (r.respelled ρ).graph.anchor := hsource
    rw [List.map_cons, Token.respelled, List.map_cons, Token.respelled, run, if_neg hsource']
    refine (resolve_respelled r.graph hcx hρ next).bind fun found _ => ?_
    exact (connect_respelled found.2 hcx hρ t r.current found.1).bind fun g _ => ih found.1 g
  | case6 r t ts hsource hnext =>
    have hsource' : (r.respelled ρ).current ≠ (r.respelled ρ).graph.anchor := hsource
    rw [List.map_cons, Token.respelled, run.eq_def]
    simp only [if_neg hsource']
    split
    · rename_i next' rest heq
      rw [List.map_eq_cons_iff] at heq
      obtain ⟨u, us, rfl, hu, -⟩ := heq
      cases u with
      | node next => exact (hnext next us rfl).elim
      | edge | constraint => cases hu
    · exact .refuse cx cx' _

end Reading

end PatternGraph

/-- The graph of a respelled pattern is the graph of the pattern with other names. -/
theorem Context.Respelled.anchoredGraph (hcx : Context.Respelled ρ cx cx')
    (hρ : Function.Injective ρ) :
    Corresponds (PatternGraph.respelled ρ) cx.anchoredGraph cx'.anchoredGraph := by
  obtain ⟨ts, hts, hts', -⟩ := Token.classify_respelled hcx.elements
  have hgraph : Corresponds (PatternGraph.respelled ρ) cx.graph cx'.graph := by
    rw [Context.graph, Context.graph, hts, hts']
    exact Reading.run_respelled hcx hρ {} ts
  refine hgraph.bind fun g _ => ?_
  rw [anchored_respelled]
  cases g.anchored with
  | mk linked g' =>
    cases linked with
    | error f => exact .fault f
    | ok u => exact .ok rfl

end GraphPattern
