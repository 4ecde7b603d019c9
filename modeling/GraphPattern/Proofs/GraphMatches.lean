import GraphPattern.Proofs.Assignments
import GraphPattern.Proofs.TypedGraphs

/-!
# GraphPattern — matches in typed graphs

A pattern of nodes and edges asks a typed graph for homomorphisms: vertices for its nodes and edges
for its edges, such that types match and every edge leads between the vertices of its ends. The
matches of its plan are these homomorphisms as far as the names of the pattern and the first nodes
of its components tell them apart.

## Results

* `TypedGraph.represent_homomorphisms` — the matches of a plan represent the homomorphisms.
-/

namespace GraphPattern

namespace TypedGraph

variable (G : TypedGraph)

/-- A homomorphism from a pattern to a typed graph. -/
structure Homomorphism (cx : Context) (args : Bindings) (ts : List Token) (a : Item → Value) :
    Prop where
  node : ∀ (i : Nat) t, ts[i]? = some (.node t) → ∃ n v, a ((Token.node t).item i) = .vertex n ∧
    G.vertex? n = some v ∧ typeMatches v.cls.lineage t.typeName? = true
  edge : ∀ i s t d, Token.Between ts i s t d → ∃ k e, a ((Token.edge t).item (i + 1)) = .edge k ∧
    G.edge? k = some e ∧ typeMatches e.cls.lineage t.typeName? = true ∧
    a (Token.alpha i s t d) = .vertex e.alpha ∧ a (Token.omega i s t d) = .vertex e.omega
  argument : ∀ t ∈ ts, ∀ name ∈ cx.arguments, t.name? = some name →
    args.get? name = some (a (.named name))

/-- All arguments are given, vertices for argument nodes and edges for argument edges. -/
structure Supplies (cx : Context) (args : Bindings) (ts : List Token) : Prop where
  given : ∀ name ∈ cx.arguments, ∃ v, args.get? name = some v
  node : ∀ t, .node t ∈ ts → ∀ name ∈ cx.arguments, t.name? = some name →
    ∃ n v, args.get? name = some (.vertex n) ∧ G.vertex? n = some v
  edge : ∀ t, .edge t ∈ ts → ∀ name ∈ cx.arguments, t.name? = some name →
    ∃ k e, args.get? name = some (.edge k) ∧ G.edge? k = some e

variable {G} {cx : Context} {s : Setting} {ts : List Token} {plan : Plan} {args : Bindings}

theorem Supplies.world (h : G.Supplies cx args ts) : G.world.Supplies cx args ts where
  given := h.given
  node := by
    intro t ht name hmem hname v hv
    obtain ⟨n, x, hn, hx⟩ := h.node t ht name hmem hname
    rw [hv] at hn
    exact ⟨n, x, Option.some.inj hn, hx⟩
  edge := by
    intro t ht name hmem hname v hv
    obtain ⟨k, e, hk, he⟩ := h.edge t ht name hmem hname
    rw [hv] at hk
    exact ⟨k, e, Option.some.inj hk, he, rfl⟩

-- ---------------------------------------------------------------------------
-- Homomorphisms and assignments
-- ---------------------------------------------------------------------------

/-- A node has another place than an edge without a name. -/
theorem item_ne_unnamed {i j : Nat} {t : NodeToken} {t' : EdgeToken}
    (hi : ts[i]? = some (.node t)) (hj : ts[j]? = some (.edge t')) :
    (Token.node t).item i ≠ .unnamed j := by
  intro heq
  rw [Token.item] at heq
  cases hn : (Token.node t).name? with
  | some name => rw [hn] at heq; cases heq
  | none =>
    rw [hn] at heq
    obtain rfl := Item.unnamed.inj heq
    rw [hi] at hj
    cases hj

/-- A homomorphism meets the tokens. -/
theorem Homomorphism.meets {a : Item → Value} (h : G.Homomorphism cx args ts a) :
    G.world.Meets cx args ts a where
  node := by
    intro i t hi
    obtain ⟨n, v, hn, hv, htype⟩ := h.node i t hi
    have helement : G.world.element (a ((Token.node t).item i)) := ⟨n, v, hn, hv⟩
    refine ⟨by split <;> exact helement, fun m x hm hx => ?_⟩
    rw [hn] at hm
    obtain rfl := Value.vertex.inj hm
    rw [hv] at hx
    obtain rfl := Option.some.inj hx
    exact htype
  linked := by
    intro i s t d hb _
    obtain ⟨k, e, -, he, htype, halpha, homega⟩ := h.edge i s t d hb
    unfold Token.alpha at halpha
    unfold Token.omega at homega
    cases hd : t.direction <;> rw [hd] at halpha homega
    · exact ⟨k, e, ⟨he, htype⟩, halpha, homega⟩
    · exact ⟨k, e, ⟨he, htype⟩, halpha, homega⟩
  edge := by
    intro i s t d name hb hname
    obtain ⟨k, e, hk, he, htype, halpha, homega⟩ := h.edge i s t d hb
    rw [Token.item_named (t := .edge t) hname] at hk
    rw [hk, world_ends he, world_ends he]
    unfold Token.alpha at halpha
    unfold Token.omega at homega
    cases hd : t.direction <;> rw [hd] at halpha homega
    · exact ⟨⟨k, e, rfl, he, htype⟩, halpha.symm, homega.symm⟩
    · exact ⟨⟨k, e, rfl, he, htype⟩, homega.symm, halpha.symm⟩
  argument := h.argument

/-- A value that completes an assignment at a place: an edge that leads from end to end for an edge
without a name, and the value that is there for everything else. -/
structure Completes (G : TypedGraph) (ts : List Token) (a : Item → Value) (x : Item) (v : Value) :
    Prop where
  same : (∀ i s t d, Token.Between ts i s t d → t.name? = none → x ≠ .unnamed (i + 1)) → v = a x
  edge : ∀ i s t d, Token.Between ts i s t d → t.name? = none → x = .unnamed (i + 1) →
    ∃ k e, v = .edge k ∧ G.edge? k = some e ∧ typeMatches e.cls.lineage t.typeName? = true ∧
      a (Token.alpha i s t d) = .vertex e.alpha ∧ a (Token.omega i s t d) = .vertex e.omega

theorem exists_completes {a : Item → Value} (h : G.world.Meets cx args ts a) (x : Item) :
    ∃ v, G.Completes ts a x v := by
  by_cases hx : ∃ i s t d, Token.Between ts i s t d ∧ t.name? = none ∧ x = .unnamed (i + 1)
  · obtain ⟨i, s, t, d, hb, hnone, rfl⟩ := hx
    have hlinked := h.linked i s t d hb hnone
    have hex : ∃ k e, G.EdgeMatches k t.typeName? e ∧
        a (Token.alpha i s t d) = .vertex e.alpha ∧
        a (Token.omega i s t d) = .vertex e.omega := by
      unfold Token.alpha Token.omega
      cases hd : t.direction <;> rw [hd] at hlinked <;> exact hlinked
    obtain ⟨k, e, ⟨he, htype⟩, halpha, homega⟩ := hex
    refine ⟨.edge k, fun hno => absurd rfl (hno i s t d hb hnone), ?_⟩
    intro i' s' t' d' hb' _ heq
    obtain rfl : i = i' := Nat.succ.inj (Item.unnamed.inj heq)
    obtain ⟨rfl, rfl, rfl⟩ := hb.unique hb'
    exact ⟨k, e, rfl, he, htype, halpha, homega⟩
  · refine ⟨a x, fun _ => rfl, fun i s t d hb hnone heq => ?_⟩
    exact absurd ⟨i, s, t, d, hb, hnone, heq⟩ hx

/-- What meets the tokens becomes a homomorphism once it has edges for the edges without names. -/
theorem exists_homomorphism {a : Item → Value} (h : G.world.Meets cx args ts a) :
    ∃ a', G.Homomorphism cx args ts a' ∧ ∀ x, Token.Chosen ts x → a' x = a x := by
  obtain ⟨a', ha'⟩ := Classical.axiomOfChoice (exists_completes h)
  have hnamed : ∀ name, a' (.named name) = a (.named name) :=
    fun name => (ha' _).same fun i s t d _ _ => Item.noConfusion
  have hnode : ∀ (i : Nat) t, ts[i]? = some (.node t) →
      a' ((Token.node t).item i) = a ((Token.node t).item i) :=
    fun i t hi => (ha' _).same fun j s t' d hb _ => item_ne_unnamed hi hb.edge
  have halpha : ∀ i s t d, Token.Between ts i s t d →
      a' (Token.alpha i s t d) = a (Token.alpha i s t d) := by
    intro i s t d hb
    unfold Token.alpha
    split
    · exact hnode i s hb.before
    · exact hnode (i + 2) d hb.after
  have homega : ∀ i s t d, Token.Between ts i s t d →
      a' (Token.omega i s t d) = a (Token.omega i s t d) := by
    intro i s t d hb
    unfold Token.omega
    split
    · exact hnode (i + 2) d hb.after
    · exact hnode i s hb.before
  refine ⟨a', { node := ?_, edge := ?_, argument := ?_ }, ?_⟩
  · intro i t hi
    obtain ⟨hsuits, htyped⟩ := h.node i t hi
    have helement : G.world.element (a ((Token.node t).item i)) := by
      split at hsuits <;> exact hsuits
    obtain ⟨n, v, hn, hv⟩ := helement
    exact ⟨n, v, by rw [hnode i t hi, hn], hv, htyped n v hn hv⟩
  · intro i s t d hb
    rw [halpha i s t d hb, homega i s t d hb]
    cases hown : t.name? with
    | none =>
      rw [Token.item_unnamed (t := .edge t) hown]
      exact (ha' _).edge i s t d hb hown rfl
    | some name =>
      obtain ⟨⟨k, e, hk, he, htype⟩, hsource, htarget⟩ := h.edge i s t d name hb hown
      rw [hk, world_ends he] at hsource htarget
      rw [Token.item_named (t := .edge t) hown]
      refine ⟨k, e, (hnamed name).trans hk, he, htype, ?_⟩
      unfold Token.alpha Token.omega
      cases hd : t.direction <;> rw [hd] at hsource htarget
      · exact ⟨hsource.symm, htarget.symm⟩
      · exact ⟨htarget.symm, hsource.symm⟩
  · intro t ht name hmem hname
    rw [hnamed]
    exact h.argument t ht name hmem hname
  · rintro x (⟨t, -, name, -, rfl⟩ | ⟨i, t, ⟨t', ht', -⟩, ht, rfl⟩)
    · exact hnamed name
    · rw [ht'] at ht
      cases ht
      exact hnode i t' ht'

-- ---------------------------------------------------------------------------
-- Matches
-- ---------------------------------------------------------------------------

/-- The matches of a plan are the homomorphisms of its pattern: one for every choice of elements for
what has a name and for the first nodes of components that extends to a homomorphism, and no match
twice if all these nodes have names. -/
theorem represent_homomorphisms (h : Compiles cx s ts plan) (huntyped : Token.Untyped cx ts)
    (hs : s.engine = .graph) (hm : s.model = .graph G) (hG : G.Consistent)
    (hsupply : G.Supplies cx args ts) :
    ∃ m, Matches.of? s plan args none = .ok m ∧ m.plan = plan ∧
      m.Represent ts (G.Homomorphism cx args ts) ∧
      (∀ r, r ∈ m.all.results ↔
        ∃ a, G.Homomorphism cx args ts a ∧ r = tuple plan.resultNames a) ∧
      ((∀ (i : Nat) t, Token.Opens ts i → ts[i]? = some t → t.name?.isSome) →
        m.all.results.Nodup) := by
  obtain ⟨m, hof, hplan, hrep⟩ := World.exists_matches (serves hG hs hm) h huntyped hsupply.world
  have hhom : m.Represent ts (G.Homomorphism cx args ts) :=
    hrep.transfer (fun a ha => exists_homomorphism ha) fun a ha => ha.meets
  refine ⟨m, hof, hplan, hhom, fun r => ?_, fun hopens => ?_⟩
  · rw [← hplan]
    exact hhom.mem_iff
  · have hargs : ∀ a, G.Homomorphism cx args ts a → ∀ t ∈ ts, ∀ name ∈ m.plan.arguments,
        t.name? = some name → args.get? name = some (a (.named name)) := by
      intro a ha t ht name hname hown
      rw [hplan, (Context.plan_of_compile h.compiled).1] at hname
      exact ha.argument t ht name hname hown
    exact hhom.nodup hargs hopens

/-- A vertex that is linked to another one, which has a loop. -/
def linked : TypedGraph :=
  let item : ElementClass := ⟨.mk "Item" [], false⟩
  let link : ElementClass := ⟨.mk "Link" [], true⟩
  { schema := ⟨[item, link]⟩
    elements := [
      .vertex { cls := item, attributes := [], incidences := [(3, .out)] },
      .vertex { cls := item, attributes := [], incidences := [(3, .into), (4, .out), (4, .into)] },
      .edge { cls := link, alpha := 1, omega := 2, attributes := [] },
      .edge { cls := link, alpha := 2, omega := 2, attributes := [] }] }

theorem consistent_linked : linked.Consistent := by
  let commands : List GraphCommand := [.defineClass "Item" [] false, .defineClass "Link" [] true,
    .createVertex "Item" [], .createVertex "Item" [], .createEdge "Link" 1 2 [],
    .createEdge "Link" 2 2 []]
  have hbuild : GraphWork.build commands = .ok linked := rfl
  exact consistent_of_build hbuild

/-- The matches in the linked pair, for its first vertex. -/
theorem represent_homomorphisms_linked :
    ∃ m, Matches.of? ⟨.graph, .graph linked, fun _ _ => .ok .null⟩ (successorPlan .graph)
        [("x", .vertex 1)] none = .ok m ∧
      m.all.results.Nodup ∧ ∀ r, r ∈ m.all.results ↔ ∃ a,
        linked.Homomorphism (successors .graph) [("x", .vertex 1)] successorTokens a ∧
          r = tuple ["x", "y"] a := by
  have hsupply : linked.Supplies (successors .graph) [("x", .vertex 1)] successorTokens := by
    have hx : Bindings.get? [("x", .vertex 1)] "x" = some (.vertex 1) := rfl
    refine { given := ?_, node := ?_, edge := ?_ }
    · intro name hname
      obtain rfl : name = "x" := List.mem_singleton.1 hname
      exact ⟨_, hx⟩
    · intro t _ name hname _
      obtain rfl : name = "x" := List.mem_singleton.1 hname
      exact ⟨1, _, hx, rfl⟩
    · intro t ht name _ hown
      rw [eq_of_edge_mem_successorTokens ht] at hown
      cases hown
  have huntyped : Token.Untyped (successors .graph) successorTokens := by
    intro t ht _
    rw [eq_of_edge_mem_successorTokens ht]
  have hcompiles := compiles_successors ⟨.graph, .graph linked, fun _ _ => .ok .null⟩
  obtain ⟨m, hof, -, -, hset, hnodup⟩ := represent_homomorphisms hcompiles huntyped
    rfl rfl consistent_linked hsupply
  exact ⟨m, hof, hnodup fun i t hopens ht => name?_of_opens_successorTokens hopens ht, hset⟩

end TypedGraph

end GraphPattern
