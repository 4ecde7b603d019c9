import GraphPattern.Proofs.UnboundNames

/-!
# GraphPattern — places in a pattern

Diagnostics show a pattern as one line and mark the element they are about. Where an element stands
in this line is found by counting widths, apart from how the line is put together; both have to
agree. And whatever a compilation complains about, it has to know at which element it came up: the
positions go from the elements through the tokens into the nodes and edges of the graph, from where
the later stages take them.

## Results

* `Pattern.shown_at` — at its column, the shown pattern shows the element.
* `Pattern.column_lt` — columns grow along the pattern.
* `Diagnostic.render_marked` — the lines of a plain diagnostic with a place.
* `PatternGraph.Drawing.Drawn.indexed` — positions in the graph are positions of elements.
* `compileTo_marks` — every diagnostic with a place marks an element of the pattern.
-/

namespace GraphPattern

open PatternGraph PatternGraph.Drawing

/-! ## Columns -/

namespace Pattern

@[simp] theorem column_natCast (es : List Element) (i : Nat) :
    (locate es i).column = columnOf es i := by
  rw [locate, if_neg (by omega)]
  rfl

theorem length_natCast {es : List Element} {i : Nat} {e : Element} (h : es[i]? = some e) :
    (locate es i).length = (max 1 e.shown.length : Nat) := by
  rw [locate, if_neg (by omega)]
  simp [h]

theorem widthOf_append (es fs : List Element) :
    widthOf (es ++ fs) = widthOf es + widthOf fs := by
  induction es with
  | nil => rw [List.nil_append, widthOf, Nat.zero_add]
  | cons e es ih =>
    rw [List.cons_append, widthOf, widthOf, ih]
    omega

/-- An element is followed by a space, unless it is the last one. -/
theorem toList_shown_cons (e : Element) {es : List Element} (h : es ≠ []) :
    (shown (e :: es)).toList = e.shown.toList ++ ' ' :: (shown es).toList := by
  have hne : es.map Element.shown ≠ [] := fun hnil => h (List.map_eq_nil_iff.1 hnil)
  rw [shown, List.map_cons, String.intercalate_cons_of_ne_nil hne, ← shown]
  simp

/-- An element stands behind all before it, each with the space that follows it. -/
theorem exists_shown_append (before : List Element) (e : Element) (after : List Element) :
    ∃ front back, (shown (before ++ e :: after)).toList = front ++ (e.shown.toList ++ back) ∧
      front.length = widthOf before := by
  induction before with
  | nil =>
    by_cases hafter : after = []
    · exact ⟨[], [], by simp [hafter, shown], rfl⟩
    · exact ⟨[], ' ' :: (shown after).toList, toList_shown_cons e hafter, rfl⟩
  | cons b before ih =>
    obtain ⟨front, back, htext, hlength⟩ := ih
    refine ⟨b.shown.toList ++ ' ' :: front, back, ?_, ?_⟩
    · rw [List.cons_append, toList_shown_cons b (by simp), htext, List.append_assoc,
        List.cons_append]
    · rw [widthOf, List.length_append, List.length_cons, hlength, String.length_toList]
      omega

/-- At its column, the shown pattern shows the element. -/
theorem shown_at {es : List Element} {i : Nat} {e : Element} (h : es[i]? = some e) :
    ((shown es).toList.drop ((locate es i).column - 1).toNat).take e.shown.length =
      e.shown.toList := by
  obtain ⟨hi, he⟩ := List.getElem?_eq_some_iff.1 h
  have hsplit : es.take i ++ e :: es.drop (i + 1) = es := by
    rw [← he, List.cons_getElem_drop_succ, List.take_append_drop]
  obtain ⟨front, back, htext, hlength⟩ :=
    exists_shown_append (es.take i) e (es.drop (i + 1))
  have hcolumn : ((locate es i).column - 1).toNat = front.length := by
    rw [column_natCast, columnOf, hlength]
    omega
  rw [hsplit] at htext
  rw [hcolumn, htext, List.drop_left, List.take_left' String.length_toList]

/-- Columns grow along the pattern. -/
theorem column_lt {es : List Element} {i j : Nat} (hij : i < j) (hj : j < es.length) :
    (locate es i).column < (locate es j).column := by
  have hi : i < es.length := Nat.lt_trans hij hj
  -- before `j` stand what is before `i`, the element at `i` with its space, and what is between
  have hsplit : es.take (i + 1) ++ (es.take j).drop (i + 1) = es.take j := by
    have htake : (es.take j).take (i + 1) = es.take (i + 1) := by
      rw [List.take_take, Nat.min_eq_left hij]
    rw [← htake, List.take_append_drop]
  have hwidth : widthOf (es.take i) < widthOf (es.take j) := by
    rw [← hsplit, widthOf_append, List.take_succ_eq_append_getElem hi, widthOf_append, widthOf]
    omega
  rw [column_natCast, column_natCast, columnOf, columnOf]
  omega

end Pattern

/-! ## The marked line -/

/-- What stands beside a mark is not empty. -/
theorem Problem.label_ne_empty {p : Problem} {label : String} (h : p.label? = some label) :
    label.isEmpty = false := by
  cases p with
  | conflictingType name typeName declared? =>
    cases declared? with
    | none => rw [← Option.some.inj h]; rfl
    | some t =>
      rw [← Option.some.inj h]
      simp [toString]
  | unboundFormName form param =>
    rw [← Option.some.inj h]
    simp [toString]
  | engineUnset | boundRepeatedly | argumentRebound => cases h
  | _ => rw [← Option.some.inj h]; rfl

namespace Diagnostic

/-- The first line of a plain diagnostic. -/
def headline (d : Diagnostic) : String :=
  "error" ++ (d.kind.code?.elim "" fun c => "[" ++ c ++ "]") ++ (": " ++ d.message)

/-- The line under the shown pattern: spaces up to the place, a caret for every column of it, and
the label. -/
def markLine (l : Location) (label : String) : String :=
  gutter false ++ " " ++ String.ofList (List.replicate (l.column - 1).toNat ' ') ++
    String.ofList (List.replicate l.length.toNat '^') ++ " " ++ label

/-- The lines of a plain diagnostic with a place. -/
theorem render_marked {d : Diagnostic} {l : Location} {text label : String}
    (hlocation : d.location? = some l) (htext : d.patternText? = some text)
    (hlabel : d.label? = some label) (hne : label.isEmpty = false) (hlength : 1 ≤ l.length) :
    d.render false = "\n".intercalate
      ([d.headline, " --> " ++ sourceName ++ ":" ++ l.text, gutter false,
        gutter false ++ " " ++ text, markLine l label] ++ d.annotations false) := by
  have hcarets : carets l = String.ofList (List.replicate (l.column - 1).toNat ' ') ++
      String.ofList (List.replicate l.length.toNat '^') := by
    rw [carets, max_eq_right hlength, String.ofList_append]
  have hmark : markLine l label = gutter false ++ " " ++ (carets l ++ (" " ++ label)) := by
    rw [markLine, hcarets]
    simp only [String.append_assoc]
  rw [headline, hmark, render, body, hlocation, htext, hlabel]
  simp only [hne, Bool.false_eq_true, if_false]
  cases d.kind.code? <;> rfl

end Diagnostic

/-! ## Positions that are handed on -/

variable {cx : Context} {g g₀ : PatternGraph}

/-- A position, if there is one, is that of an element of the pattern. -/
def Context.Covers (cx : Context) (index? : Option Int) : Prop :=
  ∀ i ∈ index?, ∃ k : Nat, i = k ∧ k < cx.elements.length

theorem Context.Covers.none (cx : Context) : cx.Covers none := by
  intro i hi
  cases hi

theorem Context.covers_natCast {k : Nat} (h : k < cx.elements.length) : cx.Covers (k : Int) := by
  rintro _ ⟨⟩
  exact ⟨k, rfl, h⟩

/-- A refusal with a place is about an element of the pattern, and has something to say there. -/
def Placed {α : Type _} (cx : Context) (r : Except Failure α) : Prop :=
  ∀ d, r = .error (.refused d) → d.location? = none ∨
    ∃ (p : Problem) (k : Nat), p.label?.isSome = true ∧ k < cx.elements.length ∧
      d = p.diagnostic (some (Pattern.locate cx.elements k)) (some (Pattern.shown cx.elements))

namespace Placed

variable {α β : Type _} {r : Except Failure α}

theorem ok (a : α) : Placed cx (.ok a : Except Failure α) := by
  intro d h
  cases h

theorem fault (f : Fault) : Placed cx (.error (.fault f) : Except Failure α) := by
  intro d h
  cases h

theorem refuse {p : Problem} {index? : Option Int} (h : cx.Covers index?)
    (hp : p.label?.isSome = true) :
    Placed cx (.error (cx.refuse p index?) : Except Failure α) := by
  rintro _ ⟨⟩
  cases index? with
  | none => exact .inl rfl
  | some i =>
    obtain ⟨k, rfl, hk⟩ := h i rfl
    exact .inr ⟨p, k, hp, hk, rfl⟩

/-- A refusal of the whole pattern has no place. -/
theorem refuse_whole (p : Problem) : Placed cx (.error (cx.refuse p none) : Except Failure α) := by
  rintro _ ⟨⟩
  exact .inl rfl

theorem bind {k : α → Except Failure β} (h : Placed cx r)
    (hk : ∀ a, r = .ok a → Placed cx (k a)) : Placed cx (r >>= k) := by
  cases hr : r with
  | error f =>
    rintro d ⟨⟩
    exact h d hr
  | ok a => exact hk a hr

theorem map {k : α → β} (h : Placed cx r) : Placed cx (do return k (← r)) :=
  h.bind fun _ _ => .ok _

theorem ofFault (r : Except Fault α) : Placed cx (Failure.ofFault r) := by
  cases r with
  | ok a => exact .ok a
  | error f => exact .fault f

end Placed

namespace Token

theorem label_of_constraint? {m : Marker} {e : Element} {p : Problem}
    (h : constraint? m e = .error p) : p.label?.isSome = true := by
  unfold constraint? at h
  split at h
  · cases h
  · cases h; rfl
  · cases h
  · cases h; rfl
  · split at h
    · cases h
    · cases h; rfl

/-- The element that starts no unit, or the payload after it, is one of the elements. -/
theorem place_of_units {i : Nat} {es : List Element} {p : Problem} {k : Nat}
    (h : units i es = .error (p, k)) :
    p.label?.isSome = true ∧ k < i + es.length := by
  fun_induction units i es with
  | case1 => cases h
  | case2 => cases h; exact ⟨rfl, by simp⟩
  | case3 => cases h; exact ⟨rfl, by simp⟩
  | case4 i s hs m payload rest hm q hq =>
    cases h
    exact ⟨label_of_constraint? hq, by simp⟩
  | case5 i s hs m payload rest hm c hc ih =>
    cases hu : units (i + 2) rest with
    | error e =>
      rw [hu] at h
      cases h
      obtain ⟨hlabel, hk⟩ := ih hu
      exact ⟨hlabel, by simp only [List.length_cons]; omega⟩
    | ok ts => rw [hu] at h; cases h
  | case6 => cases h; exact ⟨rfl, by simp⟩
  | case7 i s rest hs t ht ih =>
    cases hu : units (i + 1) rest with
    | error e =>
      rw [hu] at h
      cases h
      obtain ⟨hlabel, hk⟩ := ih hu
      exact ⟨hlabel, by simp only [List.length_cons]; omega⟩
    | ok ts => rw [hu] at h; cases h
  | case8 => cases h; exact ⟨rfl, by simp⟩

theorem classify_placed (cx : Context) : Placed cx (classify cx.elements) := by
  unfold classify
  split
  · exact .ok _
  · rename_i p k h
    obtain ⟨hlabel, hk⟩ := place_of_units h
    rintro _ ⟨⟩
    exact .inr ⟨p, k, hlabel, by omega, rfl⟩

/-- The position of a token is that of an element. -/
theorem Units.index_lt {i : Nat} {es : List Element} {ts : List Token} (h : Units i es ts) :
    ∀ t ∈ ts, t.index < i + es.length := by
  induction h with
  | nil => exact fun _ ht => absurd ht List.not_mem_nil
  | marker starts marker taken rest ih =>
    intro t ht
    simp only [List.length_cons]
    rcases List.mem_cons.1 ht with rfl | ht
    · exact Nat.lt_add_of_pos_right (by omega)
    · have hlt := ih t ht
      omega
  | token starts text rest ih =>
    intro t ht
    simp only [List.length_cons]
    rcases List.mem_cons.1 ht with rfl | ht
    · rw [index_atIndex]
      omega
    · have hlt := ih t ht
      omega

theorem covers_of_classify {ts : List Token} (h : classify cx.elements = .ok ts) :
    ∀ t ∈ ts, cx.Covers (t.index : Int) := by
  intro t ht
  have hlt := (classify_eq_ok_iff.1 h).index_lt t ht
  exact Context.covers_natCast (by omega)

end Token

/-! ## The graph -/

namespace PatternGraph

namespace Reading

theorem resolve_placed (g : PatternGraph) {t : NodeToken} (ht : cx.Covers (t.index : Int)) :
    Placed cx (resolve cx g t) := by
  unfold resolve
  split
  · exact .ok _
  · split
    · exact .refuse ht rfl
    · split
      · exact .refuse ht rfl
      · split
        · exact .ok _
        · dsimp only
          split
          · exact .ok _
          · refine .refuse ht ?_
            cases (g.node? _).bind (·.typeName?) <;> rfl
      · exact .ok _

theorem link_placed (cx : Context) (g : PatternGraph) (e : PatternEdge) :
    Placed cx (link g e) := by
  unfold link
  split
  · exact .fault _
  · exact .ok _

theorem connect_placed (g : PatternGraph) {t : EdgeToken} (ht : cx.Covers (t.index : Int))
    (current next : NodeId) : Placed cx (connect cx g t current next) := by
  unfold connect
  split
  split
  · exact link_placed cx g _
  · split
    · exact .refuse ht rfl
    · exact link_placed cx g _

theorem run_placed (r : Reading) {ts : List Token} (hts : ∀ t ∈ ts, cx.Covers (t.index : Int)) :
    Placed cx (run cx r ts) := by
  fun_induction run cx r ts with
  | case1 => exact .ok _
  | case2 r t rest ih =>
    refine Placed.bind ?_ fun r' _ => ih r' fun u hu => hts u (List.mem_cons_of_mem _ hu)
    exact (link_placed cx _ _).map
  | case3 r t rest ih =>
    refine (resolve_placed r.graph (hts (.node t) List.mem_cons_self)).bind ?_
    exact fun x _ => ih x.1 x.2 fun u hu => hts u (List.mem_cons_of_mem _ hu)
  | case4 r t rest hsource => exact .refuse (hts (.edge t) List.mem_cons_self) rfl
  | case5 r t hsource next rest ih =>
    refine (resolve_placed r.graph (hts (.node next) (by simp))).bind fun x _ => ?_
    refine (connect_placed x.2 (hts (.edge t) List.mem_cons_self) r.current x.1).bind fun g _ => ?_
    exact ih x.1 g fun u hu => hts u (List.mem_cons_of_mem _ (List.mem_cons_of_mem _ hu))
  | case6 r t => exact .refuse (hts (.edge t) List.mem_cons_self) rfl

end Reading

/-- Every node and every edge that has a position has that of an element. -/
structure Indexed (cx : Context) (g : PatternGraph) : Prop where
  node : ∀ nd ∈ g.nodes, cx.Covers nd.tokenIndex?
  edge : ∀ e ∈ g.edges, cx.Covers e.tokenIndex?

namespace Drawing

theorem covers_of_madeNode {ts : List Token} (hts : ∀ t ∈ ts, cx.Covers (t.index : Int)) {p : Nat}
    {nd : PatternNode} (h : madeNode? cx ts p = some nd) : cx.Covers nd.tokenIndex? := by
  rcases madeNode?_cases h with ⟨t, ht, -, rfl⟩ | ⟨t, ht, rfl⟩
  · exact hts _ (List.mem_of_getElem? ht)
  · exact hts _ (List.mem_of_getElem? ht)

theorem covers_of_madeEdge {ts : List Token} (hts : ∀ t ∈ ts, cx.Covers (t.index : Int)) {p : Nat}
    {e : PatternEdge} (h : madeEdge? cx ts p = some e) : cx.Covers e.tokenIndex? := by
  rcases madeEdge?_cases h with ⟨t, ht, rfl⟩ | ⟨t, -, rfl⟩
  · exact hts _ (List.mem_of_getElem? ht)
  · exact .none cx

/-- Nodes and edges get their positions from the tokens that make them. -/
theorem Drawn.indexed {ts : List Token} (h : Drawn cx ts g₀ g)
    (hts : ∀ t ∈ ts, cx.Covers (t.index : Int)) : g.Indexed cx where
  node nd hnd := by
    rw [h.nodes_eq] at hnd
    rcases List.mem_cons.1 hnd with rfl | hnd
    · exact .none cx
    · obtain ⟨p, -, hmade⟩ := List.mem_filterMap.1 hnd
      exact covers_of_madeNode hts hmade
  edge e he := by
    rw [h.rooted.anchors.edges, h.draws.edges] at he
    rcases List.mem_append.1 he with he | he
    · obtain ⟨p, -, hmade⟩ := List.mem_filterMap.1 he
      exact covers_of_madeEdge hts hmade
    · obtain ⟨n, -, rfl⟩ := List.mem_map.1 he
      exact .none cx

end Drawing

theorem Indexed.edge? (h : g.Indexed cx) {k : EdgeId} {e : PatternEdge} (he : g.edge? k = some e) :
    cx.Covers e.tokenIndex? :=
  h.edge e (List.mem_of_getElem? he)

end PatternGraph

theorem Context.indexed_of_anchoredGraph (h : cx.anchoredGraph = .ok g) : g.Indexed cx := by
  obtain ⟨ts, g₀, hts, hdrawn⟩ := drawn_of_anchoredGraph h
  exact hdrawn.indexed (Token.covers_of_classify hts)

/-! ## The walk -/

theorem Context.edgeSegment_placed {e : PatternEdge} (he : cx.Covers e.tokenIndex?)
    (d : Direction) : Placed cx (cx.edgeSegment e d) := by
  unfold edgeSegment
  split
  · exact .ok _
  · exact .ok _
  · exact .refuse he rfl

namespace Chain

theorem walk_placed (h : g.Indexed cx) (n : NodeId) (visited : List Handle) :
    Placed cx (walk cx g n visited) := by
  -- on how much of the graph is not visited yet: the walk visits a node before it goes on
  induction hm : unseen g.handles visited using Nat.strongRecOn generalizing n visited with
  | ind m ih =>
    cases hnode : g.node? n with
    | none =>
      rw [walk_missing hnode]
      exact .fault _
    | some nd =>
      by_cases hknown : nd.anonymous = false ∨ .node n ∈ visited
      · rw [walk_known hnode hknown]
        exact .ok _
      · rw [walk_fresh hnode hknown]
        refine (Placed.ofFault _).bind fun left hleft => ?_
        rw [Failure.ofFault_eq_ok_iff] at hleft
        unfold onward
        split
        · exact .ok _
        · rename_i j e honly
          have hmem : (j, e) ∈ left.filter (·.2.kind.structural) := by rw [honly]; simp
          have he : g.edge? j.edge = some e := edge?_of_pending hleft (List.mem_filter.1 hmem).1
          split
          · refine (cx.edgeSegment_placed (h.edge? he) j.direction).bind fun _ _ => .map ?_
            refine ih _ ?_ j.that _ rfl
            rw [← hm]
            exact unseen_lt (PatternGraph.mem_handles_of_node? hnode)
              (fun hmem => hknown (.inr hmem)) (by simp) (fun y hy => by simp [hy])
          · exact .ok _
        · exact .refuse (h.node nd (Plan.mem_nodes_of_node? hnode)) rfl

theorem fromEdge_placed (h : g.Indexed cx) (i : Incidence) (visited : List Handle) :
    Placed cx (fromEdge cx g i visited) := by
  unfold fromEdge
  split
  · exact .fault _
  · rename_i e he
    exact (cx.edgeSegment_placed (h.edge? he) i.direction).bind fun _ _ => (walk_placed h _ _).map

end Chain

namespace Plan

theorem pendingEntries_placed (cx : Context) (g : PatternGraph) (n : NodeId)
    (visited : List Handle) : Placed cx (pendingEntries g n visited) :=
  (Placed.ofFault _).map

theorem emitChain_placed (cx : Context) (g : PatternGraph) (start : Expr) (c : Chain)
    (visited : List Handle) : Placed cx (emitChain g start c visited) := by
  unfold emitChain
  split
  · exact .fault _
  · exact (pendingEntries_placed cx g _ _).map

theorem bindFarEnd_placed (h : g.Indexed cx) (i : Incidence) (edge : Expr)
    (visited : List Handle) : Placed cx (bindFarEnd cx g i edge visited) := by
  unfold bindFarEnd
  split
  · exact .fault _
  · dsimp only
    split
    · exact (pendingEntries_placed cx g _ _).map
    · split
      · exact (Chain.walk_placed h _ _).bind fun c _ => emitChain_placed cx g _ c visited
      · exact (pendingEntries_placed cx g _ _).map

/-- Constraints are spliced, or something is missing. -/
theorem spliceConstraints_placed (cx : Context) (g : PatternGraph) (n : NodeId)
    (visited : List Handle) : Placed cx (spliceConstraints g n visited) := by
  -- on how much of the graph is not visited yet: only fresh edges are followed
  induction hm : unseen g.handles visited using Nat.strongRecOn generalizing n visited with
  | ind m ih =>
    cases hnode : g.node? n with
    | none =>
      rw [spliceConstraints_missing visited hnode]
      exact .fault _
    | some nd =>
      cases hform : nd.constraint? with
      | none =>
        rw [spliceConstraints_formless visited hnode hform]
        exact .fault _
      | some c =>
        rw [spliceConstraints_of_form visited hnode hform]
        split
        · exact .ok _
        · rename_i i hi
          obtain ⟨-, ⟨e, he, -⟩, hfresh⟩ := nextConstraint?_some hi
          refine (ih _ ?_ i.that _ rfl).map
          rw [← hm]
          exact unseen_lt (PatternGraph.mem_handles_of_edge? he) hfresh (by simp)
            (fun y hy => by simp [hy])

theorem visitIncidence_placed (h : g.Indexed cx) (i : Incidence) (e : PatternEdge)
    (visited : List Handle) : Placed cx (visitIncidence cx g i e visited) := by
  unfold visitIncidence
  split
  · exact .ok _
  · exact (spliceConstraints_placed cx g _ _).map
  · exact (bindFarEnd_placed h _ _ _).map
  · exact (Chain.fromEdge_placed h _ _).bind fun c _ => emitChain_placed cx g _ c visited
  · split
    · exact (bindFarEnd_placed h _ _ _).map
    · exact .fault _

theorem explore_placed (h : g.Indexed cx) (visited : List Handle) (stack : List Entry) :
    Placed cx (explore cx g visited stack) := by
  fun_induction explore cx g visited stack with
  | case1 => exact .ok _
  | case2 visited n rest seen ih => exact ih
  | case3 => exact .fault _
  | case4 visited n rest fresh nd hnd ih =>
    exact (pendingEntries_placed cx g _ _).map.bind fun em _ => (ih em).map
  | case5 visited i rest seen ih => exact ih
  | case6 => exact .fault _
  | case7 visited i rest fresh e he ih =>
    exact (visitIncidence_placed h i e _).bind fun em _ => (ih em).map

theorem checkEdges_placed (h : g.Indexed cx) : Placed cx (checkEdges cx g) := by
  have hedges : ∀ es : List PatternEdge, (∀ e ∈ es, cx.Covers e.tokenIndex?) →
      Placed cx (es.forM (checkEdge cx)) := by
    intro es hes
    induction es with
    | nil => exact .ok _
    | cons e es ih =>
      refine Placed.bind ?_ fun _ _ => ih fun e' he' => hes e' (List.mem_cons_of_mem _ he')
      unfold checkEdge
      split
      · exact .refuse (hes e List.mem_cons_self) rfl
      · exact .refuse (hes e List.mem_cons_self) rfl
      · exact .ok _
  unfold checkEdges
  split
  · exact .ok _
  · exact hedges g.edges h.edge

theorem ofGraph_placed (h : g.Indexed cx) : Placed cx (ofGraph cx g) := by
  refine (checkEdges_placed h).bind fun _ _ => ?_
  refine (explore_placed h [] [.node g.anchor]).bind fun steps _ => ?_
  dsimp only
  split
  · exact .fault _
  · exact .ok _

/-! ## The plan -/

/-- Where a form is looked up, there is an element. -/
theorem covers_formPosition? {nodes : List PatternNode} (h : ∀ nd ∈ nodes, cx.Covers nd.tokenIndex?)
    (f : Form) : cx.Covers (formPosition? f nodes).join := by
  rw [formPosition?_eq]
  cases hfound : nodes.find? (PatternNode.holds f) with
  | none => exact .none cx
  | some nd => exact h nd (List.mem_of_find?_eq_some hfound)

theorem checkForm_placed (h : g.Indexed cx) (bound : List String) (e : Expr) :
    Placed cx (checkForm cx g bound e) := by
  unfold checkForm
  split
  · split
    · exact .ok _
    · exact .refuse (covers_formPosition? h.node _) rfl
  · exact .ok _

theorem checkBindings_placed (h : g.Indexed cx) (bound : List String)
    (bs : List (String × Expr)) : Placed cx (checkBindings cx g bound bs) := by
  induction bs generalizing bound with
  | nil => exact .ok _
  | cons b bs ih => exact (checkForm_placed h bound b.2).bind fun _ _ => ih _

theorem checkStep_placed (h : g.Indexed cx) (bound : List String) (s : Step) :
    Placed cx (checkStep cx g bound s) := by
  cases s with
  | generate | foreign => exact .ok _
  | assign n e => exact (checkForm_placed h bound e).map
  | assignAll bs => exact checkBindings_placed h bound bs
  | guard e | whilst e => exact (checkForm_placed h bound e).bind fun _ _ => .ok _

theorem check_placed (h : g.Indexed cx) (p : Plan) : Placed cx (p.check cx g) := by
  -- the names that are bound grow from step to step
  have hsteps : ∀ (steps : List Step) (bound : List String),
      Placed cx (steps.foldlM (checkStep cx g) bound) := by
    intro steps
    induction steps with
    | nil => exact fun _ => .ok _
    | cons s steps ih =>
      intro bound
      rw [List.foldlM_cons]
      exact (checkStep_placed h bound s).bind fun _ _ => ih _
  cases hrepeated : repeated p.boundNames with
  | cons c cs =>
    -- a name that is bound twice has no single place
    simp only [check, hrepeated, bind, Except.bind]
    exact .refuse_whole _
  | nil =>
    cases hrebound : p.steps.findSome? (reboundArgument? cx.arguments) with
    | some n =>
      simp only [check, hrepeated, hrebound, bind, Except.bind]
      exact .refuse_whole _
    | none =>
      simp only [check, hrepeated, hrebound, bind, Except.bind]
      exact (hsteps p.steps cx.arguments).bind fun _ _ => .ok _

end Plan

/-! ## The compilation -/

namespace Context

theorem graph_placed (cx : Context) : Placed cx cx.graph :=
  (Token.classify_placed cx).bind fun _ hts =>
    Reading.run_placed {} (Token.covers_of_classify hts)

theorem anchoredGraph_placed (cx : Context) : Placed cx cx.anchoredGraph := by
  refine cx.graph_placed.bind fun g _ => ?_
  split
  · exact .fault _
  · exact .ok _

theorem walkedPlan_placed (cx : Context) : Placed cx cx.walkedPlan :=
  cx.anchoredGraph_placed.bind fun _ hg => Plan.ofGraph_placed (indexed_of_anchoredGraph hg)

theorem compile_placed (cx : Context) : Placed cx cx.compile := by
  refine cx.anchoredGraph_placed.bind fun g hg => ?_
  have hindexed := indexed_of_anchoredGraph hg
  refine (Plan.ofGraph_placed hindexed).bind fun p _ => ?_
  exact (Plan.check_placed hindexed p.expanded).bind fun _ _ => .ok _

theorem compileTo_placed (cx : Context) (stage : Stage) : Placed cx (cx.compileTo stage) := by
  cases stage with
  | graph => exact cx.graph_placed.map
  | anchored => exact cx.anchoredGraph_placed.map
  | walked => exact cx.walkedPlan_placed.map
  | expanded => exact cx.walkedPlan_placed.map
  | checked => exact cx.compile_placed.map

end Context

/-- A diagnostic with a place marks an element of the pattern: the place is the element's, as wide as
it is shown, and in the plain form carets stand under it. -/
structure Diagnostic.Marks (es : List Element) (d : Diagnostic) (l : Location) : Prop where
  inside : 0 ≤ l.index ∧ l.index < es.length
  located : l = Pattern.locate es l.index
  wide : 1 ≤ l.length
  text : d.patternText? = some (Pattern.shown es)
  rendered : ∃ label, d.label? = some label ∧ label.isEmpty = false ∧
    d.render false = "\n".intercalate
      ([d.headline, " --> " ++ sourceName ++ ":" ++ l.text, gutter false,
        gutter false ++ " " ++ Pattern.shown es, markLine l label] ++ d.annotations false)

theorem Placed.marks {α : Type _} {r : Except Failure α} (h : Placed cx r) {d : Diagnostic}
    (hr : r = .error (.refused d)) {l : Location} (hl : d.location? = some l) :
    d.Marks cx.elements l := by
  rcases h d hr with hnone | ⟨p, k, hlabel, hk, rfl⟩
  · rw [hnone] at hl
    cases hl
  · obtain rfl : Pattern.locate cx.elements k = l := Option.some.inj hl
    obtain ⟨label, hlabel⟩ := Option.isSome_iff_exists.1 hlabel
    have hwide : 1 ≤ (Pattern.locate cx.elements k).length := by
      rw [Pattern.length_natCast (List.getElem?_eq_getElem hk)]
      omega
    have hne := Problem.label_ne_empty hlabel
    exact
      { inside := by rw [Pattern.locate_index]; omega
        located := by rw [Pattern.locate_index]
        wide := hwide
        text := rfl
        rendered := ⟨label, hlabel, hne, Diagnostic.render_marked rfl rfl hlabel hne hwide⟩ }

/-- A request that is refused before its pattern is looked at is refused without a place. -/
theorem Context.location_of_ofRequest {arguments : List String} {pattern engine : Element}
    {d : Diagnostic} (h : Context.ofRequest arguments pattern engine = .error (.refused d)) :
    d.location? = none := by
  -- only the engine can be refused by a diagnostic here
  have hengine : ∀ d', resolveEngine engine = .error (.refused d') → d'.location? = none := by
    intro d' hd'
    unfold resolveEngine at hd'
    split at hd'
    · rename_i s
      cases hs : Engine.ofName? s with
      | none => rw [hs] at hd'; cases hd'; rfl
      | some e => rw [hs] at hd'; cases hd'
    · cases hd'; rfl
  unfold ofRequest at h
  cases hresolve : resolveEngine engine with
  | error x =>
    rw [hresolve] at h
    obtain rfl : x = .refused d := Except.error.inj h
    exact hengine d hresolve
  | ok e =>
    rw [hresolve] at h
    cases pattern <;> cases h

/-- Every element is shown at its column, later ones further on, and every diagnostic with a place
marks an element of the pattern, whatever stage it comes from. -/
theorem compileTo_marks (es : List Element) :
    (∀ (i : Nat) (e : Element), es[i]? = some e →
      ((Pattern.shown es).toList.drop ((Pattern.locate es i).column - 1).toNat).take
        e.shown.length = e.shown.toList) ∧
    (∀ i j : Nat, i < j → j < es.length →
      (Pattern.locate es i).column < (Pattern.locate es j).column) ∧
    ∀ (arguments : List String) (pattern engine : Element) (d : Diagnostic) (l : Location),
      Pattern.elements? pattern = .ok es →
      ((∃ stage, compileTo stage arguments pattern engine = .error (.refused d)) ∨
        compile arguments pattern engine = .error (.refused d)) →
      d.location? = some l → d.Marks es l := by
  refine ⟨fun i e => Pattern.shown_at, fun i j => Pattern.column_lt, ?_⟩
  intro arguments pattern engine d l hes hfails hl
  cases hrequest : Context.ofRequest arguments pattern engine with
  | error x =>
    have hx : x = .refused d := by
      rcases hfails with ⟨stage, hfails⟩ | hfails
      · rw [compileTo, hrequest] at hfails
        exact Except.error.inj hfails
      · rw [compile, hrequest] at hfails
        exact Except.error.inj hfails
    rw [Context.location_of_ofRequest (hx ▸ hrequest)] at hl
    cases hl
  | ok cx =>
    have helements : cx.elements = es := by
      unfold Context.ofRequest at hrequest
      rw [hes] at hrequest
      cases hresolve : resolveEngine engine with
      | error x => rw [hresolve] at hrequest; cases hrequest
      | ok e => rw [hresolve] at hrequest; cases hrequest; rfl
    rw [← helements]
    rcases hfails with ⟨stage, hfails⟩ | hfails
    · rw [compileTo, hrequest] at hfails
      exact (cx.compileTo_placed stage).marks hfails hl
    · rw [compile, hrequest] at hfails
      exact cx.compile_placed.marks hfails hl

/-- An edge that leads nowhere. -/
def dangling : Context :=
  { arguments := [], elements := [.text "a", .text ":when", .form (formAbout "a"), .text "-->"]
    engine := .graph }

theorem compileTo_marks_dangling :
    ((Pattern.shown dangling.elements).toList.drop
      ((Pattern.locate dangling.elements 3).column - 1).toNat).take 3 = "-->".toList ∧
    (Pattern.locate dangling.elements 0).column < (Pattern.locate dangling.elements 3).column ∧
    ∃ d l, compile [] (.list dangling.elements) (.text "graph") = .error (.refused d) ∧
      d.location? = some l ∧ d.Marks dangling.elements l := by
  have htokens : Token.classify dangling.elements = .ok [.node ⟨"a", none, 0⟩,
      .constraint ⟨.when (formAbout "a"), 1⟩, .edge ⟨none, none, .out, 3⟩] := by cbv
  have hgraph : dangling.anchoredGraph =
      .error (dangling.refuse .edgeWithoutTarget (some 3)) := by
    rw [Context.anchoredGraph, Context.graph, htokens]
    rfl
  have hrequest : Context.ofRequest [] (.list dangling.elements) (.text "graph") = .ok dangling :=
    rfl
  have hrefused : compile [] (.list dangling.elements) (.text "graph") =
      .error (dangling.refuse .edgeWithoutTarget (some 3)) := by
    rw [compile_of_ofRequest hrequest, Context.compile, hgraph]
    rfl
  obtain ⟨hshown, hcolumns, hmarks⟩ := compileTo_marks dangling.elements
  exact ⟨hshown 3 (.text "-->") rfl, hcolumns 0 3 (by decide) (by decide), _, _, hrefused, rfl,
    hmarks [] (.list dangling.elements) (.text "graph") _ _ rfl (.inr hrefused) rfl⟩

end GraphPattern
