import GraphPattern.Proofs.Itineraries

/-!
# GraphPattern — places of unbound names

A plan is refused at the first step that calls a form before everything the form requires is bound.
The diagnostic then points at the first constraint of the pattern that holds this form. As the walk
may come to constraints in another order than the one in which they are written, the step may belong
to a later constraint that holds the form as well. The place is that of the step's own constraint
exactly if no constraint in front of it holds the form.

## Results

* `PatternGraph.Drawing.Drawn.formPosition?_eq` — the place of a form is looked up in the tokens.
* `Context.unbound_of_compile` — what is known where a name is found to be unbound.
* `compile_located` — the place in the diagnostic, and when it is the right one.
* `doubled_misplaced` — a form that is refused at its second place, and reported at its first.
-/

namespace GraphPattern

open PatternGraph PatternGraph.Drawing

/-! ## The place of a form -/

/-- The constraint has this form, which is told by its identity. -/
def Constraint.holds (f : Form) (c : Constraint) : Bool :=
  c.forms.any (·.id == f.id)

def PatternNode.holds (f : Form) (n : PatternNode) : Bool :=
  n.constraint?.any (·.holds f)

def Token.holds (f : Form) : Token → Bool
  | .constraint t => t.constraint.holds f
  | .node _ | .edge _ => false

/-- Tokens stand in the order of their positions. -/
theorem Token.Units.pairwise {i : Nat} {es : List Element} {ts : List Token} (h : Units i es ts) :
    (∀ t ∈ ts, i ≤ t.index) ∧ ts.Pairwise fun t u => t.index < u.index := by
  have hcons : ∀ {i k : Nat} {t : Token} {ts : List Token}, t.index = i → i < k →
      (∀ u ∈ ts, k ≤ u.index) ∧ ts.Pairwise (fun t u => t.index < u.index) →
      (∀ u ∈ t :: ts, i ≤ u.index) ∧ (t :: ts).Pairwise fun t u => t.index < u.index := by
    rintro i k t ts rfl hk ⟨hle, hpairs⟩
    have hlt : ∀ u ∈ ts, t.index < u.index := fun u hu => Nat.lt_of_lt_of_le hk (hle u hu)
    refine ⟨fun u hu => ?_, List.pairwise_cons.2 ⟨hlt, hpairs⟩⟩
    rcases List.mem_cons.1 hu with rfl | hu
    · exact Nat.le_refl _
    · exact Nat.le_of_lt (hlt u hu)
  induction h with
  | nil => exact ⟨fun _ ht => (List.not_mem_nil ht).elim, List.Pairwise.nil⟩
  | marker starts marker taken rest ih => exact hcons rfl (by omega) ih
  | token starts text rest ih => exact hcons (Token.index_atIndex _ _) (by omega) ih

theorem Token.pairwise_of_classify {es : List Element} {ts : List Token}
    (h : classify es = .ok ts) : ts.Pairwise fun t u => t.index < u.index :=
  (classify_eq_ok_iff.1 h).pairwise.2

/-- What is found first is what has no other one in front of it. -/
theorem Token.find?_eq_some_iff {ts : List Token} (h : ts.Pairwise fun t u => t.index < u.index)
    {p : Token → Bool} {t : Token} : ts.find? p = some t ↔
      t ∈ ts ∧ p t = true ∧ ∀ u ∈ ts, u.index < t.index → p u = false := by
  rw [List.find?_eq_some_iff_append]
  constructor
  · rintro ⟨hp, before, after, rfl, hbefore⟩
    refine ⟨by simp, hp, fun u hu hlt => ?_⟩
    rcases List.mem_append.1 hu with hu | hu
    · simpa using hbefore u hu
    · exfalso
      rcases List.mem_cons.1 hu with rfl | hu
      · exact Nat.lt_irrefl _ hlt
      · have hlater := (List.pairwise_cons.1 (List.pairwise_append.1 h).2.1).1 u hu
        exact Nat.lt_asymm hlt hlater
  · rintro ⟨ht, hp, hfirst⟩
    obtain ⟨before, after, rfl⟩ := List.append_of_mem ht
    refine ⟨hp, before, after, rfl, fun u hu => ?_⟩
    have hlt := (List.pairwise_append.1 h).2.2 u hu t List.mem_cons_self
    rw [hfirst u (List.mem_append_left _ hu) hlt]
    rfl

/-- Tokens at one position are one token. -/
theorem Token.eq_of_index_eq {es : List Element} {ts : List Token} (h : classify es = .ok ts)
    {t u : Token} (ht : t ∈ ts) (hu : u ∈ ts) (heq : t.index = u.index) : t = u := by
  have hnodup : (ts.map Token.index).Nodup :=
    List.pairwise_map.2 ((pairwise_of_classify h).imp Nat.ne_of_lt)
  exact List.inj_on_of_nodup_map hnodup ht hu heq

theorem Pattern.locate_index (es : List Element) (i : Int) : (locate es i).index = i := by
  unfold locate
  split <;> rfl

namespace Plan

theorem formPosition?_eq (f : Form) (nodes : List PatternNode) :
    formPosition? f nodes = (nodes.find? (PatternNode.holds f)).map (·.tokenIndex?) := by
  induction nodes with
  | nil => rfl
  | cons n rest ih =>
    rw [formPosition?, List.find?_cons, PatternNode.holds]
    cases hn : n.constraint? with
    | none => exact ih
    | some c =>
      rw [Option.any_some, Constraint.holds]
      simp only
      split
      · rename_i hholds
        rw [hholds]
        rfl
      · rename_i hholds
        rw [Bool.eq_false_iff.2 hholds]
        exact ih

end Plan

namespace PatternGraph.Drawing

variable {cx : Context} {ts : List Token} {g₀ g : PatternGraph}

/-- Among what is made before a position, the first node with a form is made by the first token
with it. -/
theorem find?_nodesBefore (f : Form) (k : Nat) :
    ((nodesBefore cx ts k).find? (PatternNode.holds f)).map (·.tokenIndex?) =
      ((ts.take k).find? (Token.holds f)).map fun t => some (t.index : Int) := by
  -- along the tokens: one node at most for each, made from the token itself
  induction k with
  | zero => rfl
  | succ k ih =>
    have hmade : nodesBefore cx ts (k + 1) =
        nodesBefore cx ts k ++ (madeNode? cx ts k).toList := by
      cases hnode : madeNode? cx ts k with
      | none => rw [nodesBefore_succ_none hnode, Option.toList_none, List.append_nil]
      | some nd => exact nodesBefore_succ_some hnode
    -- only a constraint's node holds a form, and it holds its token's
    have hone : ((madeNode? cx ts k).toList.find? (PatternNode.holds f)).map (·.tokenIndex?) =
        (ts[k]?.toList.find? (Token.holds f)).map fun t => some (t.index : Int) := by
      rw [madeNode?]
      cases ts[k]? with
      | none => rfl
      | some t =>
        cases t with
        | node t =>
          simp only
          split
          · rw [placeNode]
            split <;> rfl
          · rfl
        | edge t => rfl
        | constraint t =>
          simp only [Option.toList_some, List.find?_singleton]
          rw [PatternNode.holds, constraintNode, Option.any_some, Token.holds]
          split <;> rfl
    rw [hmade, List.take_add_one, List.find?_append, List.find?_append, Option.map_or,
      Option.map_or, ih, hone]

/-- A form is looked up in the tokens, though it is the nodes that are searched. -/
theorem Drawn.formPosition?_eq (h : Drawn cx ts g₀ g) (f : Form) :
    (Plan.formPosition? f g.nodes).join =
      (ts.find? (Token.holds f)).map fun t => (t.index : Int) := by
  rw [Plan.formPosition?_eq, h.nodes_eq, find?_nodesBefore, List.take_length]
  cases ts.find? (Token.holds f) <;> rfl

end PatternGraph.Drawing

/-! ## The step that is refused -/

/-- A refusal of another kind comes from what follows. -/
theorem Refuses.of_bind {α β : Type _} {kinds : List DiagnosticKind} {r : Except Failure α}
    {k : α → Except Failure β} {d : Diagnostic} (h : Refuses kinds r) (hkind : d.kind ∉ kinds)
    (heq : (r >>= k) = .error (.refused d)) : ∃ a, r = .ok a ∧ k a = .error (.refused d) := by
  cases hr : r with
  | ok a =>
    rw [hr] at heq
    exact ⟨a, rfl, heq⟩
  | error f =>
    rw [hr] at heq
    obtain rfl : f = .refused d := Except.error.inj heq
    obtain ⟨d', hd', hin⟩ := h _ hr
    obtain rfl := Failure.refused.inj hd'
    exact absurd hin hkind

/-- What cannot fail any more does not fail. -/
theorem eq_error_of_bind_ok {ε α β : Type _} {r : Except ε α} {k : α → β} {e : ε}
    (h : (r >>= fun a => .ok (k a)) = .error e) : r = .error e := by
  cases r with
  | ok a => exact nomatch h
  | error e' => exact congrArg _ (Except.error.inj h)

/-- Where a sequence of steps fails, the steps before succeed. -/
theorem foldlM_eq_error {ε α β : Type _} {f : β → α → Except ε β} {l : List α} {b : β} {e : ε}
    (h : l.foldlM f b = .error e) : ∃ before x after b', l = before ++ x :: after ∧
      before.foldlM f b = .ok b' ∧ f b' x = .error e := by
  induction l generalizing b with
  | nil => exact nomatch h
  | cons x l ih =>
    rw [List.foldlM_cons] at h
    cases hx : f b x with
    | error e' =>
      rw [hx] at h
      obtain rfl : e' = e := Except.error.inj h
      exact ⟨[], x, l, b, rfl, rfl, hx⟩
    | ok b₁ =>
      rw [hx] at h
      obtain ⟨before, y, after, b', rfl, hbefore, hy⟩ := ih h
      refine ⟨x :: before, y, after, b', rfl, ?_, hy⟩
      rw [List.foldlM_cons, hx]
      exact hbefore

namespace Plan

variable {cx : Context} {g? : Option PatternGraph} {bound : List String}

theorem checkForm_eq_error {e : Expr} {x : Failure} (h : checkForm cx g? bound e = .error x) :
    ∃ f name, e = .call f ∧ missingParameter? f bound = some name ∧
      x = cx.refuse (.unboundFormName f.displayed name)
        (g?.bind fun g => (formPosition? f g.nodes).join) := by
  cases e with
  | call f =>
    rw [checkForm] at h
    cases hmissing : missingParameter? f bound with
    | none =>
      rw [hmissing] at h
      cases h
    | some name =>
      rw [hmissing] at h
      exact ⟨f, name, rfl, hmissing, (Except.error.inj h).symm⟩
  | _ => cases h

/-- A step on its own is refused for the form that it calls. -/
theorem checkStep_eq_error {s : Step} {x : Failure} (hs : ∀ bs, s ≠ .assignAll bs)
    (h : checkStep cx g? bound s = .error x) :
    ∃ f name, s.forms = [f] ∧ missingParameter? f bound = some name ∧
      x = cx.refuse (.unboundFormName f.displayed name)
        (g?.bind fun g => (formPosition? f g.nodes).join) := by
  have hform : ∀ {e : Expr} {more : List String},
      (checkForm cx g? bound e >>= fun _ => .ok more) = .error x →
      ∃ f name, e.forms = [f] ∧ missingParameter? f bound = some name ∧
        x = cx.refuse (.unboundFormName f.displayed name)
          (g?.bind fun g => (formPosition? f g.nodes).join) := by
    intro e more he
    obtain ⟨f, name, rfl, hrest⟩ := checkForm_eq_error (eq_error_of_bind_ok he)
    exact ⟨f, name, rfl, hrest⟩
  cases s with
  | generate | foreign => exact nomatch h
  | assignAll bs => exact absurd rfl (hs bs)
  | assign n e => exact hform h
  | guard e | whilst e => exact hform h

/-- A plan that is refused for an unbound name is refused for its forms. -/
theorem check_eq_error {p : Plan} {d : Diagnostic} (hkind : d.kind = .unboundFormName)
    (h : p.check cx g? = .error (.refused d)) :
    p.steps.foldlM (checkStep cx g?) cx.arguments = .error (.refused d) := by
  cases hrepeated : repeated p.boundNames with
  | cons c cs =>
    simp only [check, hrepeated, bind, Except.bind] at h
    obtain rfl := Failure.refused.inj (Except.error.inj h)
    cases hkind
  | nil =>
    cases hrebound : p.steps.findSome? (reboundArgument? cx.arguments) with
    | some n =>
      simp only [check, hrepeated, hrebound, bind, Except.bind] at h
      obtain rfl := Failure.refused.inj (Except.error.inj h)
      cases hkind
    | none =>
      rw [check, hrepeated, hrebound] at h
      exact eq_error_of_bind_ok h

end Plan

namespace Context

/-- A pattern that is refused for an unbound name has a plan, which is refused for its forms. -/
theorem checkSteps_of_compile {cx : Context} {d : Diagnostic} (hkind : d.kind = .unboundFormName)
    (h : cx.compile = .error (.refused d)) :
    ∃ g p, cx.anchoredGraph = .ok g ∧ Plan.ofGraph cx g = .ok p ∧
      p.expanded.steps.foldlM (Plan.checkStep cx g) cx.arguments = .error (.refused d) := by
  obtain ⟨g, hg, h⟩ := cx.anchoredGraph_refuses.of_bind (by simp [hkind]) h
  obtain ⟨-, g₀, -, -, hr⟩ := rooted_of_anchoredGraph hg
  obtain ⟨p, hp, h⟩ :=
    (Plan.ofGraph_refuses hr (sparse_of_anchoredGraph hg)).of_bind (by simp [hkind]) h
  exact ⟨g, p, hg, hp, Plan.check_eq_error hkind (eq_error_of_bind_ok h)⟩

end Context

/-! ## The place of the diagnostic -/

/-- A name is found to be unbound: the first step that calls a form without all that the form
requires, the node that the step was spliced from, and the token that made this node. -/
structure Unbound (cx : Context) (ts : List Token) (g : PatternGraph)
    (steps : List (Step × Option NodeId)) (t : ConstraintToken) (f : Form) (name : String) :
    Prop where
  step : ∃ before s n after bound, steps = before ++ (s, some n) :: after ∧
    (before.map Prod.fst).foldlM (Plan.checkStep cx g) cx.arguments = .ok bound ∧
    s.forms = [f] ∧ Plan.missingParameter? f bound = some name ∧
    s ∈ (Plan.constraintStep t.constraint).expanded ∧ g.node? n = some (constraintNode t)
  token : .constraint t ∈ ts

theorem Plan.forms_constraintStep {c : Constraint} {s : Step} {f : Form}
    (hs : s ∈ (constraintStep c).expanded) (hf : f ∈ s.forms) : f ∈ c.forms := by
  cases c with
  | when f' | whilst f' =>
    obtain rfl := List.mem_singleton.1 hs
    exact hf
  | bind bs =>
    obtain ⟨b, hb, hsb⟩ := List.mem_flatMap.1 hs
    obtain ⟨b', hb', rfl⟩ := List.mem_map.1 hb
    simp only [List.mem_cons, List.not_mem_nil, or_false] at hsb
    rcases hsb with rfl | rfl
    · obtain rfl := List.mem_singleton.1 hf
      exact List.mem_map_of_mem hb'
    · exact nomatch hf

theorem Unbound.holds {cx : Context} {ts : List Token} {g : PatternGraph}
    {steps : List (Step × Option NodeId)} {t : ConstraintToken} {f : Form} {name : String}
    (h : Unbound cx ts g steps t f name) : t.constraint.holds f = true := by
  obtain ⟨before, s, n, after, bound, -, -, hforms, -, hs, -⟩ := h.step
  have hf := Plan.forms_constraintStep hs (f := f) (by simp [hforms])
  exact List.any_eq_true.2 ⟨f, hf, beq_self_eq_true _⟩

theorem Context.unbound_of_compile {cx : Context} {d : Diagnostic}
    (hkind : d.kind = .unboundFormName) (h : cx.compile = .error (.refused d)) :
    ∃ ts g p visits t f name, Token.classify cx.elements = .ok ts ∧ cx.anchoredGraph = .ok g ∧
      Plan.ofGraph cx g = .ok p ∧ Plan.itinerary cx g [] [.node g.anchor] = .ok visits ∧
      (Plan.sourced g visits).map Prod.fst = p.expanded.steps ∧
      Unbound cx ts g (Plan.sourced g visits) t f name ∧
      d = (Problem.unboundFormName f.displayed name).diagnostic
        ((ts.find? (Token.holds f)).map fun u => Pattern.locate cx.elements u.index)
        (some (Pattern.shown cx.elements)) := by
  obtain ⟨g, p, hg, hp, hcheck⟩ := checkSteps_of_compile hkind h
  obtain ⟨ts, g₀, hts, hdrawn⟩ := drawn_of_anchoredGraph hg
  obtain ⟨-, -, -, visited, binds, hexplores, -⟩ := Plan.explores_of_ofGraph hdrawn.rooted hp
  obtain ⟨us, htour, hsteps⟩ := hexplores.tour
  have hfst : (Plan.sourced g (us.map fun u => (u.entry, u.emission))).map Prod.fst =
      p.expanded.steps := by
    rw [htour.fst_sourced]
    show _ = Plan.expandAll p.steps
    rw [hsteps, Plan.expandAll, List.flatMap_assoc]
    rfl
  -- the check failed at one step, all before it having passed
  obtain ⟨front, s, back, bound, hsplit, hfront, hstep⟩ := foldlM_eq_error hcheck
  have hmem : s ∈ p.expanded.steps := by rw [hsplit]; simp
  obtain ⟨s₀, -, hs₀⟩ := List.mem_flatMap.1 hmem
  -- that step calls a form whose name is not bound there
  obtain ⟨f, name, hforms, hmissing, hd⟩ :=
    Plan.checkStep_eq_error (Plan.ne_assignAll_of_mem_expanded hs₀) hstep
  rw [← hfst] at hsplit
  obtain ⟨before, rest, hsource, rfl, hrest⟩ := List.map_eq_append_iff.1 hsplit
  obtain ⟨⟨s', source⟩, after, rfl, rfl, rfl⟩ := List.map_eq_cons_iff.1 hrest
  have hcalls : Step.callsForm s' = true := by rw [Step.callsForm, hforms]; rfl
  have hin : (s', source) ∈ Plan.sourced g (us.map fun u => (u.entry, u.emission)) := by
    rw [hsource]
    exact List.mem_append_right _ List.mem_cons_self
  -- a step that calls a form was sourced at the node of the constraint that it came from
  obtain ⟨n, t, rfl, ht, hnode, hs⟩ := htour.source_of_call hdrawn hin hcalls
  refine ⟨ts, g, p, _, t, f, name, hts, hg, hp, htour.itinerary_eq hdrawn.rooted, hfst,
    ⟨⟨before, s', n, after, bound, hsource, hfront, hforms, hmissing, hs, hnode⟩, ht⟩, ?_⟩
  obtain rfl := Failure.refused.inj hd
  rw [Option.bind_some, hdrawn.formPosition?_eq, locate, Option.map_map]
  rfl

/-- What a plan that was walked is compiled to, with the places of its forms. -/
theorem Context.places_of_walkedPlan {cx : Context} {p : Plan} {ts : List Token}
    (hts : Token.classify cx.elements = .ok ts) (hp : cx.walkedPlan = .ok p) :
    ∃ g, cx.compile = (do Plan.check cx (some g) p.expanded; return p.expanded) ∧
      ∀ f, (Plan.formPosition? f g.nodes).join =
        (ts.find? (Token.holds f)).map fun t => (t.index : Int) := by
  obtain ⟨g, hg, hp⟩ := anchoredGraph_of_walkedPlan hp
  obtain ⟨us, g₀, hus, hdrawn⟩ := drawn_of_anchoredGraph hg
  obtain rfl := Except.ok.inj (hts.symm.trans hus)
  exact ⟨g, compile_of_ofGraph hg hp, hdrawn.formPosition?_eq⟩

/-- A request that is refused for an unbound name is refused at the first step that calls a form
before all that it requires is bound. The place in the diagnostic is that of the first constraint
with this form. This is the constraint that the step was spliced from exactly if no constraint
before it has the form. -/
theorem compile_located {arguments : List String} {pattern engine : Element} {d : Diagnostic}
    (h : compile arguments pattern engine = .error (.refused d))
    (hkind : d.kind = .unboundFormName) :
    ∃ cx ts g p visits t f name, Context.ofRequest arguments pattern engine = .ok cx ∧
      Token.classify cx.elements = .ok ts ∧ cx.anchoredGraph = .ok g ∧
      Plan.ofGraph cx g = .ok p ∧ Plan.itinerary cx g [] [.node g.anchor] = .ok visits ∧
      (Plan.sourced g visits).map Prod.fst = p.expanded.steps ∧
      Unbound cx ts g (Plan.sourced g visits) t f name ∧
      d = (Problem.unboundFormName f.displayed name).diagnostic
        ((ts.find? (Token.holds f)).map fun u => Pattern.locate cx.elements u.index)
        (some (Pattern.shown cx.elements)) ∧
      (d.location? = some (Pattern.locate cx.elements t.index) ↔
        ∀ u ∈ ts, u.index < t.index → u.holds f = false) := by
  cases hrequest : Context.ofRequest arguments pattern engine with
  | error x =>
    rw [compile, hrequest] at h
    obtain rfl : x = .refused d := Except.error.inj h
    rw [Context.kind_of_ofRequest hrequest] at hkind
    cases hkind
  | ok cx =>
    rw [compile_of_ofRequest hrequest] at h
    obtain ⟨ts, g, p, visits, t, f, name, hts, hg, hp, hvisits, hfst, hunbound, hd⟩ :=
      Context.unbound_of_compile hkind h
    refine ⟨cx, ts, g, p, visits, t, f, name, rfl, hts, hg, hp, hvisits, hfst, hunbound, hd, ?_⟩
    -- the token is the first that holds the form when it is the one found
    have hfirst := (Token.find?_eq_some_iff (Token.pairwise_of_classify hts)
      (p := Token.holds f) (t := .constraint t)).trans
      ((and_iff_right hunbound.token).trans (and_iff_right hunbound.holds))
    refine Iff.trans ?_ hfirst
    rw [hd]
    constructor
    · -- places are told apart by their indices, and those are in order
      intro hlocated
      obtain ⟨u, hu, hsame⟩ := Option.map_eq_some_iff.1 hlocated
      have hindex := congrArg Location.index hsame
      rw [Pattern.locate_index, Pattern.locate_index] at hindex
      rw [hu, Token.eq_of_index_eq hts (List.mem_of_find?_eq_some hu) hunbound.token
        (Int.ofNat.inj hindex)]
    · intro hfind
      exact Option.map_eq_some_iff.2 ⟨_, hfind, rfl⟩

/-- A form about a name that the pattern does not have. -/
def single : Context :=
  { arguments := []
    elements := [.text "a", .text ":when", .form (formAbout "b")]
    engine := .graph }

def singlePlan : Plan :=
  { steps := [.generate "a" (.instances .any), .guard (.call (formAbout "b"))]
    arguments := [], engine := .graph }

theorem compile_located_single :
    ∃ d, compile [] (.list single.elements) (.text "graph") = .error (.refused d) ∧
      d.kind = .unboundFormName ∧
      ∃ cx ts g p visits t f name,
        Context.ofRequest [] (.list single.elements) (.text "graph") = .ok cx ∧
        Token.classify cx.elements = .ok ts ∧ cx.anchoredGraph = .ok g ∧
        Plan.ofGraph cx g = .ok p ∧ Plan.itinerary cx g [] [.node g.anchor] = .ok visits ∧
        (Plan.sourced g visits).map Prod.fst = p.expanded.steps ∧
        Unbound cx ts g (Plan.sourced g visits) t f name ∧
        d = (Problem.unboundFormName f.displayed name).diagnostic
          ((ts.find? (Token.holds f)).map fun u => Pattern.locate cx.elements u.index)
          (some (Pattern.shown cx.elements)) ∧
        (d.location? = some (Pattern.locate cx.elements t.index) ↔
          ∀ u ∈ ts, u.index < t.index → u.holds f = false) := by
  have hrequest : Context.ofRequest [] (.list single.elements) (.text "graph") = .ok single := rfl
  have hwalked : single.walkedPlan = .ok singlePlan := by cbv
  have htokens : Token.classify single.elements = .ok
      [.node ⟨"a", none, 0⟩, .constraint ⟨.when (formAbout "b"), 1⟩] := by cbv
  obtain ⟨g, hcompile, hplaces⟩ := Context.places_of_walkedPlan htokens hwalked
  have hrepeated : Plan.repeated singlePlan.expanded.boundNames = [] := by cbv
  have hcheck : Plan.check single (some g) singlePlan.expanded =
      .error (single.refuse (.unboundFormName (formAbout "b").displayed "b") (some 1)) := by
    have hplace : (Plan.formPosition? (formAbout "b") g.nodes).join = some 1 := hplaces _
    rw [Plan.check, hrepeated, ← hplace]
    rfl
  have hrefused : compile [] (.list single.elements) (.text "graph") =
      .error (single.refuse (.unboundFormName (formAbout "b").displayed "b") (some 1)) := by
    rw [compile_of_ofRequest hrequest, hcompile, hcheck]
    rfl
  exact ⟨_, hrefused, rfl, compile_located hrefused rfl⟩

/-- `a b :when f a :when f`, with a form about `b`: the walk comes to the second constraint before
it enumerates `b`. -/
def doubled : Context :=
  { arguments := []
    elements := [.text "a", .text "b", .text ":when", .form (formAbout "b"), .text "a",
      .text ":when", .form (formAbout "b")]
    engine := .graph }

def doubledPlan : Plan :=
  { steps := [.generate "a" (.instances .any), .guard (.call (formAbout "b")),
      .generate "b" (.instances .any), .guard (.call (formAbout "b"))]
    arguments := [], engine := .graph }

/-- The first step that calls the form is that of the second constraint, and `b` is not bound there.
The diagnostic points at the first constraint, which stands behind `b`. -/
theorem doubled_misplaced :
    (do
      let g ← doubled.anchoredGraph
      let visits ← Plan.itinerary doubled g [] [.node g.anchor]
      return (Plan.sourced g visits).map fun x =>
        (x.1, x.2.bind fun n => (g.node? n).bind (·.tokenIndex?)) :
      Except Failure (List (Step × Option Int))) =
      .ok [(.generate "a" (.instances .any), none), (.guard (.call (formAbout "b")), some 5),
        (.generate "b" (.instances .any), none), (.guard (.call (formAbout "b")), some 2)] ∧
    Plan.missingParameter? (formAbout "b") ["a"] = some "b" ∧
    ∃ d, compile [] (.list doubled.elements) (.text "graph") = .error (.refused d) ∧
      d.kind = .unboundFormName ∧ d.location? = some (Pattern.locate doubled.elements 2) ∧
      d.location? ≠ some (Pattern.locate doubled.elements 5) := by
  refine ⟨by cbv, by decide, ?_⟩
  have hrequest : Context.ofRequest [] (.list doubled.elements) (.text "graph") = .ok doubled := rfl
  have hwalked : doubled.walkedPlan = .ok doubledPlan := by cbv
  have htokens : Token.classify doubled.elements = .ok
      [.node ⟨"a", none, 0⟩, .node ⟨"b", none, 1⟩, .constraint ⟨.when (formAbout "b"), 2⟩,
        .node ⟨"a", none, 4⟩, .constraint ⟨.when (formAbout "b"), 5⟩] := by cbv
  obtain ⟨g, hcompile, hplaces⟩ := Context.places_of_walkedPlan htokens hwalked
  have hrepeated : Plan.repeated doubledPlan.expanded.boundNames = [] := by cbv
  have hcheck : Plan.check doubled (some g) doubledPlan.expanded =
      .error (doubled.refuse (.unboundFormName (formAbout "b").displayed "b") (some 2)) := by
    have hplace : (Plan.formPosition? (formAbout "b") g.nodes).join = some 2 := hplaces _
    rw [Plan.check, hrepeated, ← hplace]
    rfl
  refine ⟨(Problem.unboundFormName (formAbout "b").displayed "b").diagnostic
    (some (Pattern.locate doubled.elements 2)) (some (Pattern.shown doubled.elements)),
    ?_, rfl, rfl, by decide⟩
  rw [compile_of_ofRequest hrequest, hcompile, hcheck]
  rfl

end GraphPattern
