import GraphPattern.Proofs.WalkCourse
import GraphPattern.Proofs.Realize

/-!
# GraphPattern — solutions of a pattern graph

A solution assigns to every node of the pattern an element of the world and to every named edge an
edge of it, such that arguments get what is supplied, types match and edges lead from end to end.
At every stage of the walk, what is still to be solved is what was not visited yet.

## Results

* `PatternGraph.Regular.eq_of_variable_eq` — no two things of a pattern share a variable.
* `Solves.mono` — what is visited only ever leaves less to be solved.
* `Bound.variable_ne` — what is bound next has a variable of its own.
-/

namespace GraphPattern

open PatternGraph

-- ---------------------------------------------------------------------------
-- Variables
-- ---------------------------------------------------------------------------

namespace PatternGraph

variable {cx : Context} {g g₀ : PatternGraph}

/-- A node of the model, or an edge of the model that has a name. -/
def HasVariable (g : PatternGraph) : Handle → Prop
  | .node n => g.IsPlace n
  | .edge k => ∃ name, g.HasName (.edge k) name

theorem exists_name {h : Handle} (hu : ¬ g.Unnamed h) : ∃ name, g.HasName h name :=
  Classical.byContradiction fun hnone => hu fun name hname => hnone ⟨name, hname⟩

theorem natRepr_injective {i j : Nat} (h : Nat.repr i = Nat.repr j) : i = j := by
  have hl : Nat.toDigits 10 i = Nat.toDigits 10 j := by
    rw [← Nat.toList_repr, h, Nat.toList_repr]
  have hback : ∀ n, Nat.ofDigitChars 10 (Nat.toDigits 10 n) 0 = n := fun n =>
    Nat.ofDigitChars_toDigits (by decide) (by decide)
  rw [← hback i, hl, hback]

theorem varOf_named {n : NodeId} {name : String} (h : g.HasName (.node n) name) :
    Plan.varOf g n = name := by
  rw [Plan.varOf, h.2]

/-- The variable of an unnamed node is hidden. -/
theorem varOf_unnamed {n : NodeId} (hn : g.IsNode n) (h : g.Unnamed (.node n)) :
    Plan.varOf g n = "#" ++ toString n.index := by
  have hnone : (g.node? n).bind (·.name?) = none := by
    rw [Option.eq_none_iff_forall_ne_some]
    exact fun name hname => h name ⟨hn, hname⟩
  rw [Plan.varOf, hnone]
  rfl

theorem isHiddenName_varOf {n : NodeId} (hn : g.IsNode n) (h : g.Unnamed (.node n)) :
    isHiddenName (Plan.varOf g n) = true := by
  rw [varOf_unnamed hn h, isHiddenName, String.toList_append]
  rfl

theorem variable_edge {k : EdgeId} {name : String} (h : g.HasName (.edge k) name) :
    (Handle.edge k).variable g = name := by
  show ((g.edge? k).bind (·.name?)).getD "" = name
  rw [show (g.edge? k).bind (·.name?) = some name from h]
  rfl

theorem variable_named {h : Handle} {name : String} (hname : g.HasName h name) :
    h.variable g = name := by
  cases h with
  | node n => exact varOf_named hname
  | edge k => exact variable_edge hname

/-- What has a name has it as its variable, and everything else has a hidden one. -/
theorem variable_cases {h : Handle} (hv : g.HasVariable h) :
    g.HasName h (h.variable g) ∨
      ∃ n, h = .node n ∧ g.Unnamed h ∧ g.IsNode n ∧ h.variable g = "#" ++ toString n.index := by
  cases h with
  | edge k =>
    obtain ⟨name, hname⟩ := hv
    rw [variable_edge hname]
    exact .inl hname
  | node n =>
    by_cases hu : g.Unnamed (.node n)
    · exact .inr ⟨n, rfl, hu, hv.1, varOf_unnamed hv.1 hu⟩
    · left
      obtain ⟨name, hname⟩ := exists_name hu
      rw [show (Handle.node n).variable g = name from varOf_named hname]
      exact hname

/-- No two things of a pattern share a variable. -/
theorem Regular.eq_of_variable_eq (hg : g.Regular cx) {h h' : Handle} (hv : g.HasVariable h)
    (hv' : g.HasVariable h') (heq : h.variable g = h'.variable g) : h = h' := by
  have hhidden : ∀ n : NodeId, isHiddenName ("#" ++ toString n.index) = true := by
    intro n
    rw [isHiddenName, String.toList_append]
    rfl
  rcases variable_cases hv with hn | ⟨n, rfl, -, ⟨i, rfl, -⟩, hn⟩ <;>
    rcases variable_cases hv' with hn' | ⟨n', rfl, -, ⟨i', rfl, -⟩, hn'⟩
  · exact hg.eq_of_hasName hn (heq ▸ hn')
  · have hvis := hg.visible h _ hn
    rw [heq, hn', hhidden] at hvis
    cases hvis
  · have hvis := hg.visible h' _ hn'
    rw [← heq, hn, hhidden] at hvis
    cases hvis
  · rw [hn, hn', String.append_right_inj] at heq
    have : i = i' := natRepr_injective heq
    rw [this]

theorem hasVariable_of_bindable {h : Handle} (hb : g.Bindable h) : g.HasVariable h := by
  cases h with
  | node n => exact hb
  | edge k =>
    obtain ⟨e, he, -, hname⟩ := hb
    obtain ⟨name, hname⟩ := Option.isSome_iff_exists.1 hname
    exact ⟨name, (hasName_edge_iff he).2 hname⟩

theorem Regular.hasVariable_of_isArgument (hg : g.Regular cx) {h : Handle} (ha : g.IsArgument h) :
    g.HasVariable h := by
  cases h with
  | node n =>
    obtain ⟨hn, nd, hnd, hkind⟩ := ha
    exact ⟨hn, nd, hnd, .inr hkind⟩
  | edge k =>
    exact exists_name (hg.not_unnamed_of_isArgument ha)

end PatternGraph

-- ---------------------------------------------------------------------------
-- Solutions
-- ---------------------------------------------------------------------------

section

variable (w : World) (args : Bindings)

/-- What a node of the pattern can stand for. -/
def NodeSuits (nd : PatternNode) (v : Value) : Prop :=
  match nd.kind with
  | .argument => w.element v ∧ ∃ name, nd.name? = some name ∧ args.get? name = some v
  | _ => w.candidate v ∧ w.typed v nd.typeName?

/-- What a named edge of the pattern can stand for. -/
def EdgeSuits (e : PatternEdge) (v : Value) : Prop :=
  match e.kind with
  | .argument => w.edge v none ∧ ∃ name, e.name? = some name ∧ args.get? name = some v
  | _ => w.edge v e.typeName?

/-- What a node or a named edge of a pattern graph can stand for. -/
def Fits (g : PatternGraph) : Handle → Value → Prop
  | .node n, v => ∃ nd, g.node? n = some nd ∧ NodeSuits w args nd v
  | .edge k, v => ∃ e, g.edge? k = some e ∧ EdgeSuits w args e v

/-- An edge of the pattern is matched: by its own edge of the world if it has a name, else by
any. -/
def EdgeMatched (h : Handle → Value) (k : EdgeId) (e : PatternEdge) : Prop :=
  if e.anonymous then w.linked e.typeName? (h (.node e.alpha)) (h (.node e.omega))
  else EdgeSuits w args e (h (.edge k)) ∧
    ∀ d, w.ends (h (.edge k)) d = h (.node (e.seen k d).that)

/-- An assignment solves what was not visited yet. -/
structure Solves (g : PatternGraph) (visited : List Handle) (h : Handle → Value) : Prop where
  node : ∀ n, g.IsPlace n → Handle.node n ∉ visited → Fits w args g (.node n) (h (.node n))
  edge : ∀ k e, g.edge? k = some e → e.kind.structural = true → Handle.edge k ∉ visited →
    EdgeMatched w args h k e

/-- Where the walk is, with what it has visited and bound. -/
def Reached (g : PatternGraph) (visited binds : List Handle) : Standing where
  known := Plan.Known g binds
  covered := (· ∈ visited)
  solves := Solves w args g visited

end

variable {cx : Context} {g g₀ : PatternGraph} {w : World} {args : Bindings} {h : Handle → Value}
  {visited binds : List Handle}

theorem Solves.mono {more : List Handle} (hs : Solves w args g visited h)
    (hsub : ∀ b ∈ visited, b ∈ more) : Solves w args g more h where
  node := fun n hn hv => hs.node n hn fun hin => hv (hsub _ hin)
  edge := fun k e he hk hv => hs.edge k e he hk fun hin => hv (hsub _ hin)

/-- An edge stays matched as long as its own value and those of its ends stay as they are. -/
theorem EdgeMatched.congr {h' : Handle → Value} {k : EdgeId} {e : PatternEdge}
    (hm : EdgeMatched w args h' k e) (hk : h (.edge k) = h' (.edge k))
    (ha : h (.node e.alpha) = h' (.node e.alpha)) (ho : h (.node e.omega) = h' (.node e.omega)) :
    EdgeMatched w args h k e := by
  unfold EdgeMatched at *
  rw [hk, ha, ho]
  split
  · rename_i hanon
    rwa [if_pos hanon] at hm
  · rename_i hnamed
    rw [if_neg hnamed] at hm
    refine ⟨hm.1, fun d => ?_⟩
    rw [hm.2 d]
    cases d
    · exact ho.symm
    · exact ha.symm

/-- What holds of an edge as it is seen from one of its ends. -/
theorem edgeMatched_iff (w : World) (args : Bindings) (h : Handle → Value) {i : Incidence}
    {e : PatternEdge} (hi : g.Incident i) (he : g.edge? i.edge = some e) : EdgeMatched w args h i.edge e ↔
      if e.anonymous then w.along e.typeName? i.direction (h (.node i.this)) (h (.node i.that))
      else EdgeSuits w args e (h (.edge i.edge)) ∧
        w.ends (h (.edge i.edge)) i.direction.reverse = h (.node i.this) ∧
        w.ends (h (.edge i.edge)) i.direction = h (.node i.that) := by
  have hseen := hi.eq_seen he
  have hthis : i.this = (e.seen i.edge i.direction).this := congrArg Incidence.this hseen
  have hthat : i.that = (e.seen i.edge i.direction).that := congrArg Incidence.that hseen
  rw [EdgeMatched, hthis, hthat]
  cases e.anonymous with
  | true => cases i.direction <;> exact Iff.rfl
  | false =>
    simp only [Bool.false_eq_true, if_false]
    refine and_congr_right fun _ => ?_
    constructor
    · intro hall
      refine ⟨?_, hall _⟩
      rw [hall, PatternEdge.seen_reverse]
      rfl
    · rintro ⟨hthis, hthat⟩ d
      by_cases hd : d = i.direction
      · rw [hd, hthat]
      · rw [Direction.eq_reverse_of_ne hd, hthis, PatternEdge.seen_reverse]
        rfl

/-- A node of the model that is known stands for an element. -/
theorem Fits.element {s : Setting} (hw : Serves s w) {n : NodeId} {v : Value}
    (hf : Fits w args g (.node n) v) : w.element v := by
  obtain ⟨nd, -, hfit⟩ := hf
  unfold NodeSuits at hfit
  split at hfit
  · exact hfit.1
  · exact hw.element_of_candidate v hfit.1

/-- A named edge that is known stands for an edge. -/
theorem Fits.edge {s : Setting} (hw : Serves s w) {k : EdgeId} {v : Value}
    (hf : Fits w args g (.edge k) v) : w.edge v none := by
  obtain ⟨e, -, hfit⟩ := hf
  unfold EdgeSuits at hfit
  split at hfit
  · exact hfit.1
  · exact hw.edge_none v _ hfit

theorem Fits.settled {s : Setting} (hw : Serves s w) {b : Handle} {v : Value}
    (hf : Fits w args g b v) (k : Nat) : v.settled k = v := by
  cases b with
  | node n => exact hw.settled v k (.inl (hf.element hw))
  | edge n => exact hw.settled v k (.inr (hf.edge hw))

/-- What a node of the model stands for matches its type. Arguments have none. -/
theorem Fits.typed {s : Setting} (hw : Serves s w) (hg : g.Regular cx) {n : NodeId}
    {nd : PatternNode} (hn : g.IsPlace n) (hnode : g.node? n = some nd) {v : Value}
    (hf : Fits w args g (.node n) v) : w.typed v nd.typeName? := by
  obtain ⟨nd', hnd', hfit⟩ := hf
  rw [hnode] at hnd'
  cases hnd'
  cases hk : nd.kind <;> simp only [NodeSuits, hk] at hfit
  case argument =>
    have hfits := hg.node n nd hn.1 hnode
    rw [NodeFits, hk] at hfits
    rw [hfits.1]
    exact (hw.typed_void v).1
  all_goals exact hfit.2

/-- A node that is no argument stands for any candidate of its type. -/
theorem fits_of_kind {n : NodeId} {nd : PatternNode} (hnode : g.node? n = some nd)
    (hk : nd.kind ≠ .argument) {v : Value} (hc : w.candidate v) (ht : w.typed v nd.typeName?) :
    Fits w args g (.node n) v := by
  refine ⟨nd, hnode, ?_⟩
  unfold NodeSuits
  split
  · rename_i hkind
    exact absurd hkind hk
  · exact ⟨hc, ht⟩

theorem fits_of_unnamed (hg : g.Regular cx) {n : NodeId} {nd : PatternNode} (hn : g.IsPlace n)
    (hnode : g.node? n = some nd) (hu : g.Unnamed (.node n)) {v : Value} (hc : w.candidate v)
    (ht : w.typed v nd.typeName?) : Fits w args g (.node n) v :=
  fits_of_kind hnode (fun hk => hg.not_unnamed_of_isArgument (hn.isArgument hnode hk) hu) hc ht

-- ---------------------------------------------------------------------------
-- What is bound
-- ---------------------------------------------------------------------------

/-- What is bound was visited, and can be bound. -/
structure Bound (g : PatternGraph) (visited binds : List Handle) : Prop where
  visited : ∀ b ∈ binds, b ∈ visited
  bindable : ∀ b ∈ binds, g.Bindable b

theorem Plan.Frontier.isBound {rest : List Plan.Entry}
    (hf : Plan.Frontier g₀ g visited binds rest) : Bound g visited binds :=
  ⟨fun b hb => (hf.bound b hb).1, fun b hb => (hf.bound b hb).2.1⟩

namespace Bound

theorem cons {x : Handle} (hb : Bound g visited binds) : Bound g (x :: visited) binds :=
  ⟨fun b h => List.mem_cons_of_mem _ (hb.visited b h), hb.bindable⟩

theorem cons_cons {x : Handle} (hb : Bound g visited binds) (hx : g.Bindable x) :
    Bound g (x :: visited) (x :: binds) where
  visited := by
    intro b h
    rcases List.mem_cons.1 h with rfl | h
    · simp
    · exact List.mem_cons_of_mem _ (hb.visited b h)
  bindable := by
    intro b h
    rcases List.mem_cons.1 h with rfl | h
    · exact hx
    · exact hb.bindable b h

theorem hasVariable (hb : Bound g visited binds) (hg : g.Regular cx) {b : Handle}
    (h : Plan.Known g binds b) : g.HasVariable b := by
  rcases h with h | h
  · exact hasVariable_of_bindable (hb.bindable b h)
  · exact hg.hasVariable_of_isArgument h

/-- What is bound next has a variable of its own. -/
theorem variable_ne (hb : Bound g visited binds) (hg : g.Regular cx) {x : Handle}
    (hx : g.HasVariable x) (hfresh : ¬ Plan.Known g binds x) (b : Handle)
    (h : Plan.Known g binds b) : b.variable g ≠ x.variable g := by
  intro heq
  rw [hg.eq_of_variable_eq (hb.hasVariable hg h) hx heq] at h
  exact hfresh h

/-- What is unnamed and was not visited is not known. -/
theorem not_known (hb : Bound g visited binds) (hg : g.Regular cx) {b : Handle}
    (hu : g.Unnamed b) (hv : b ∉ visited) : ¬ Plan.Known g binds b := by
  rintro (h | h)
  · exact hv (hb.visited b h)
  · exact hg.not_unnamed_of_isArgument h hu

end Bound

end GraphPattern
