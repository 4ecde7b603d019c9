import GraphPattern.Proofs.ChainDepartures
import GraphPattern.Proofs.Expressions

/-!
# GraphPattern — the steps of a course realize the pattern

What is emitted for a visit realizes the part of a solution that the visit is about: the steps
lead to exactly the bindings that can be extended to a solution, each once. So the steps of a whole
course realize the pattern.

## Results

* `Plan.Emits.realizes` — the steps of one visit.
* `Plan.Explores.realizes` — the steps of a course.
-/

namespace GraphPattern

open PatternGraph

variable {cx : Context} {g g₀ : PatternGraph} {s : Setting} {w : World} {args : Bindings}
  {visited binds : List Handle} {i : Incidence} {e : PatternEdge}

/-- The edges of the model that have names, or are arguments, can be told apart by the engine. -/
def Identified (cx : Context) (g : PatternGraph) : Prop :=
  ∀ e ∈ g.edges, e.kind.structural = true → e.anonymous = false →
    cx.engine.edgesHaveIdentity = true

namespace Plan

-- ---------------------------------------------------------------------------
-- Nodes
-- ---------------------------------------------------------------------------

/-- Visiting what does not stand for anything in the model solves nothing. -/
theorem realizes_silent {x : Handle} (hx : (∀ n, x = .node n → ¬ g.IsPlace n) ∧
      ∀ k e, x = .edge k → g.edge? k = some e → e.kind.structural = false) :
    Realizes g (Fits w args g) s (Reached w args g visited binds) []
      (Reached w args g (x :: visited) binds) := by
  have hsol : ∀ h, Solves w args g (x :: visited) h → Solves w args g visited h := by
    intro h hs
    refine ⟨fun n hn hv => hs.node n hn ?_, fun k e he hk hv => hs.edge k e he hk ?_⟩
    · rw [List.mem_cons, not_or]
      exact ⟨fun heq => hx.1 n heq.symm hn, hv⟩
    · rw [List.mem_cons, not_or]
      refine ⟨fun heq => ?_, hv⟩
      have := hx.2 k e heq.symm he
      rw [hk] at this
      cases this
  refine .silent (fun b => Iff.rfl) (fun b hb => List.mem_cons_of_mem _ hb) ?_ ?_
  · intro ctx _ h' hs _
    exact ⟨h', hsol h' hs, fun b _ => rfl⟩
  · intro h hs
    exact hs.mono fun b hb => List.mem_cons_of_mem _ hb

/-- With a node that fits, a solution of what is left solves the node as well. -/
theorem solves_of_node {n : NodeId} {h : Handle → Value}
    (hsol : Solves w args g (.node n :: visited) h) (hn : Fits w args g (.node n) (h (.node n))) :
    Solves w args g visited h where
  node := by
    intro m hm hv
    by_cases hmn : m = n
    · rw [hmn]
      exact hn
    · exact hsol.node m hm (by simp [hmn, hv])
  edge := fun k e he hk hv => hsol.edge k e he hk (by simp [hv])

/-- With an edge that is matched, a solution of what is left solves the edge as well. -/
theorem solves_of_edge {h : Handle → Value} (he : g.edge? i.edge = some e)
    (hsol : Solves w args g (.edge i.edge :: visited) h) (hm : EdgeMatched w args h i.edge e) :
    Solves w args g visited h where
  node := fun m hm hv => hsol.node m hm (by simp [hv])
  edge := by
    intro k e' he' hk hv
    by_cases hki : k = i.edge
    · rw [hki, he] at he'
      cases he'
      rw [hki]
      exact hm
    · exact hsol.edge k e' he' hk (by simp [hki, hv])

/-- Candidates are enumerated for a node at which a component starts. -/
theorem realizes_place (hw : Serves s w) (hg : g.Regular cx) (hb : Bound g visited binds)
    {n : NodeId} {nd : PatternNode} (hn : g.IsPlace n) (hnode : g.node? n = some nd)
    (hkind : nd.kind = .pattern) (hfresh : Handle.node n ∉ visited) :
    Realizes g (Fits w args g) s (Reached w args g visited binds)
      [.generate (varOf g n) (.instances (.ofName? nd.typeName?))]
      (Reached w args g (.node n :: visited) (.node n :: binds)) := by
  have hnotknown : ¬ Known g binds (.node n) := by
    rintro (h | ⟨-, nd', hnd', hk⟩)
    · exact hfresh (hb.visited _ h)
    · rw [hnode] at hnd'
      cases hnd'
      rw [hkind] at hk
      cases hk
  have hfits : ∀ v, w.candidate v ∧ w.typed v nd.typeName? ↔ Fits w args g (.node n) v := by
    intro v
    constructor
    · rintro ⟨hc, ht⟩
      exact fits_of_kind hnode (by rw [hkind]; exact NodeKind.noConfusion) hc ht
    · rintro ⟨nd', hnd', hf⟩
      rw [hnode] at hnd'
      cases hnd'
      rw [NodeSuits, hkind] at hf
      exact hf
  refine .generate (fun _ v => w.candidate v ∧ w.typed v nd.typeName?) rfl ?_ hfresh
    (fun b h => List.mem_cons_of_mem _ h) (hb.variable_ne hg hn hnotknown) ?_ ?_
    (fun v k hf => hf.settled hw k) ?_ ?_
  · -- one more node is known
    intro b
    show (b ∈ .node n :: binds ∨ _) ↔ (b ∈ binds ∨ _) ∨ b = _
    rw [List.mem_cons]
    grind
  · -- the values are the candidates of its type
    exact fun ctx _ => hw.source_instances ctx _
  · exact fun ctx _ v hP => (hfits v).1 hP
  · -- what solves the rest solves the whole, since the node is a candidate
    intro ctx _ v hP h' hsol _ hv
    exact ⟨h', solves_of_node hsol (hv ▸ (hfits v).1 hP), fun b _ => rfl⟩
  · -- what solves the whole makes the node a candidate
    intro ctx _ h hsol _
    exact ⟨(hfits _).2 (hsol.node n hn hfresh), hsol.mono fun b h => List.mem_cons_of_mem _ h⟩

/-- An argument is bound again at which a component starts. -/
theorem realizes_argument (hw : Serves s w) {n : NodeId} {nd : PatternNode} {name : String}
    (hn : g.IsPlace n) (hnode : g.node? n = some nd) (hkind : nd.kind = .argument)
    (hname : nd.name? = some name) :
    Realizes g (Fits w args g) s (Reached w args g visited binds) [.assign name (.argument name)]
      (Reached w args g (.node n :: visited) binds) := by
  have hknown : Known g binds (.node n) := .inr (hn.isArgument hnode hkind)
  have hvar : (Handle.node n).variable g = name := by
    refine varOf_named ⟨hn.1, ?_⟩
    rw [hnode]
    exact hname
  have hagain : Realizes g (Fits w args g) s (Reached w args g visited binds)
      [.assign ((Handle.node n).variable g) (.argument name)]
      (Reached w args g (.node n :: visited) binds) := by
    refine .again hknown (fun b => Iff.rfl) (fun b h => List.mem_cons_of_mem _ h) ?_
      (fun v k hf => hf.settled hw k) ?_ (fun h hsol => hsol.mono fun b h =>
        List.mem_cons_of_mem _ h)
    · intro ctx v hv
      rw [hvar] at hv
      exact (Stands.argument hv).evaluate
    · intro ctx hctx h' hsol hag
      exact ⟨h', solves_of_node hsol (hag.fit hctx hknown), fun b _ => rfl⟩
  rwa [hvar] at hagain

-- ---------------------------------------------------------------------------
-- Far ends
-- ---------------------------------------------------------------------------

/-- The end at which an edge that is bound has to arrive. -/
def Arrives (w : World) (i : Incidence) (h : Handle → Value) (v : Value) : Prop :=
  w.ends (h (.edge i.edge)) i.direction = v

/-- An edge that is bound is known under its name. -/
theorem stands_edgeEnd (hw : Serves s w) (hid : s.engine.edgesHaveIdentity = true) {name : String}
    (hname : g.HasName (.edge i.edge) name) (hknown : Known g binds (.edge i.edge)) (far : Bool)
    {ctx : Bindings} (hctx : Holds g (Fits w args g) (Known g binds) ctx) :
    ∃ v, Fits w args g (.edge i.edge) v ∧ ctx.get? ((Handle.edge i.edge).variable g) = some v ∧
      Stands s ctx (.edgeEnd (.var name) i.direction far)
        (w.ends v (if far then i.direction else i.direction.reverse)) := by
  obtain ⟨v, hv, hfit⟩ := hctx _ hknown
  refine ⟨v, hfit, hv, ?_⟩
  rw [variable_edge hname] at hv
  exact hw.stands_edgeEnd hid (Stands.var hv) (hfit.edge hw) _ _

theorem agrees_edge {known : Handle → Prop} {ctx : Bindings} {h : Handle → Value}
    (hag : Agrees g known h ctx) {b : Handle} {v : Value} (hb : known b)
    (hv : ctx.get? (b.variable g) = some v) : h b = v :=
  Option.some.inj ((hag b hb).symm.trans hv)

/-- A chain leaves from the far end of an edge that is bound. -/
theorem departs_bound (hw : Serves s w) (hid : s.engine.edgesHaveIdentity = true) {c : Chain}
    {n : NodeId} {seen : List Handle} (hs : s.engine = cx.engine)
    (hwalks : Chain.Walks cx g n seen c) {name : String}
    (hname : g.HasName (.edge i.edge) name) (hknown : Known g binds (.edge i.edge)) :
    Departs s w args g binds (.edgeEnd (.var name) i.direction true) c.path c (Arrives w i) where
  followed := by
    rw [hs]
    exact hwalks.followed
  local_known := by
    intro h h' m heq hm
    unfold Arrives
    rw [← heq _ hknown]
    exact hm
  candidate := by
    intro ctx h m hctx hag hm
    rw [← show w.ends _ _ = m from hm]
    exact hw.candidate_of_ends _ _ ((hag.fit hctx hknown).edge hw)
  stands := by
    intro ctx hctx
    obtain ⟨v, hfit, hv, hstands⟩ := stands_edgeEnd hw hid hname hknown true hctx
    refine ⟨_, hstands, ?_, ?_⟩
    · exact hw.element_of_candidate _ (hw.candidate_of_ends _ _ (hfit.edge hw))
    · intro h hag u
      -- the place to set out from is where the edge ends
      rw [if_pos rfl]
      constructor
      · intro hl
        refine ⟨_, ?_, hl⟩
        unfold Arrives
        rw [agrees_edge hag hknown hv]
      · rintro ⟨m, hm, hl⟩
        unfold Arrives at hm
        rw [agrees_edge hag hknown hv] at hm
        rwa [hm]

/-- A far end that is known is compared. -/
theorem realizes_known (hw : Serves s w) (hid : s.engine.edgesHaveIdentity = true) {name : String}
    (hname : g.HasName (.edge i.edge) name) (hedge : Known g binds (.edge i.edge))
    (hthat : Known g binds (.node i.that)) :
    Realizes g (Fits w args g) s (Toward w args g visited binds (Arrives w i) i.that)
      [.guard (.equal (.var (varOf g i.that)) (.edgeEnd (.var name) i.direction true))]
      (Reached w args g (.node i.that :: visited) binds) := by
  refine .guard (fun ctx => ∀ h, Agrees g (Known g binds) h ctx →
    Arrives w i h (h (.node i.that))) (fun b => Iff.rfl) (fun b h => List.mem_cons_of_mem _ h)
    ?_ ?_ ?_
  · intro ctx hctx
    obtain ⟨v, hfit, hv, hstands⟩ := stands_edgeEnd hw hid hname hedge true hctx
    obtain ⟨u, hu, hufit⟩ := hctx _ hthat
    have hend : w.element (w.ends v i.direction) :=
      hw.element_of_candidate _ (hw.candidate_of_ends _ _ (hfit.edge hw))
    obtain ⟨b, hb, hiff⟩ := hw.holds_equal (Stands.var hu) hstands (hufit.element hw) hend
    refine ⟨b, hb, hiff.trans ⟨?_, ?_⟩⟩
    · intro heq h hag
      rw [Arrives, agrees_edge hag hedge hv, agrees_edge hag hthat hu]
      exact heq.symm
    · intro hall
      obtain ⟨h, hag⟩ := hctx.exists_agrees
      have harr := hall h hag
      rw [Arrives, agrees_edge hag hedge hv, agrees_edge hag hthat hu] at harr
      exact harr.symm
  · intro ctx hctx hP h' hsol hag
    exact ⟨h', ⟨solves_of_node hsol (hag.fit hctx hthat), hP h' hag⟩, fun b _ => rfl⟩
  · intro ctx hctx h hsol hag
    refine ⟨fun h₁ hag₁ => ?_, hsol.1.mono fun b hb => List.mem_cons_of_mem _ hb⟩
    rw [Arrives, ← Option.some.inj ((hag _ hedge).symm.trans (hag₁ _ hedge)),
      ← Option.some.inj ((hag _ hthat).symm.trans (hag₁ _ hthat))]
    exact hsol.2

/-- The test of a type passes or drops. -/
theorem ends_typeTest (hw : Serves s w) {ctx : Bindings} {name : String} {v : Value}
    (hv : ctx.get? name = some v) (he : w.element v) (t : Option String) (k : Nat) :
    (w.typed v t ∧ s.Ends k (typeTest name t) ctx [ctx]) ∨
      (¬ w.typed v t ∧ s.Ends k (typeTest name t) ctx []) := by
  obtain ⟨hnone, hempty⟩ := hw.typed_void v
  cases t with
  | none => exact .inl ⟨hnone, .nil⟩
  | some t =>
    unfold typeTest
    simp only
    split
    · rename_i hemp
      rw [String.isEmpty_iff] at hemp
      exact .inl ⟨hemp ▸ hempty, .nil⟩
    · obtain ⟨b, hb, hiff⟩ := hw.holds_isInstance (Stands.var hv) he t
      cases b with
      | true => exact .inl ⟨hiff.1 rfl, .pass hb .nil⟩
      | false => exact .inr ⟨fun ht => Bool.false_ne_true (hiff.2 ht), .drop hb⟩

/-- A far end that has a name is bound, and its type is tested. -/
theorem realizes_named (hw : Serves s w) (hid : s.engine.edgesHaveIdentity = true)
    (hg : g.Regular cx) (hb : Bound g visited binds) {name far : String} {nd : PatternNode}
    (hname : g.HasName (.edge i.edge) name) (hedge : Known g binds (.edge i.edge))
    (hplace : g.IsPlace i.that) (hnode : g.node? i.that = some nd) (hkind : nd.kind ≠ .argument)
    (hfar : nd.name? = some far) (hfresh : Handle.node i.that ∉ visited) :
    Realizes g (Fits w args g) s (Toward w args g visited binds (Arrives w i) i.that)
      (.assignAll [(far, .edgeEnd (.var name) i.direction true)] :: typeTest far nd.typeName?)
      (Reached w args g (.node i.that :: visited) (.node i.that :: binds)) := by
  have hvar : (Handle.node i.that).variable g = far := by
    refine varOf_named ⟨hplace.1, ?_⟩
    rw [hnode]
    exact hfar
  have hnotknown : ¬ Known g binds (.node i.that) := by
    rintro (h | ⟨-, nd', hnd', hk⟩)
    · exact hfresh (hb.visited _ h)
    · rw [hnode] at hnd'
      cases hnd'
      exact hkind hk
  let value : Bindings → Value := fun ctx =>
    w.ends ((ctx.get? ((Handle.edge i.edge).variable g)).getD .null) i.direction
  -- the end of the edge, in whatever context the edge is bound
  have hvalue : ∀ ctx, Holds g (Fits w args g) (Known g binds) ctx →
      Stands s ctx (.edgeEnd (.var name) i.direction true) (value ctx) ∧
        w.candidate (value ctx) ∧
        ∀ h, Agrees g (Known g binds) h ctx → w.ends (h (.edge i.edge)) i.direction = value ctx := by
    intro ctx hctx
    obtain ⟨v, hfit, hv, hstands⟩ := stands_edgeEnd hw hid hname hedge true hctx
    have heq : value ctx = w.ends v i.direction := by
      show w.ends ((ctx.get? _).getD .null) _ = _
      rw [hv]
      rfl
    rw [heq]
    refine ⟨hstands, hw.candidate_of_ends _ _ (hfit.edge hw), fun h hag => ?_⟩
    rw [agrees_edge hag hedge hv]
  have htests : (typeTest far nd.typeName?).flatMap Step.expanded = typeTest far nd.typeName? := by
    unfold typeTest
    split
    · split <;> rfl
    · rfl
  refine .assign value (fun ctx => w.typed (value ctx) nd.typeName?)
    (by rw [List.flatMap_cons, htests]; rfl) hvar.symm ?_ hfresh
    (fun b h => List.mem_cons_of_mem _ h) (hb.variable_ne hg hplace hnotknown) ?_ ?_ ?_ ?_ ?_
  · intro b
    show (b ∈ .node i.that :: binds ∨ _) ↔ (b ∈ binds ∨ _) ∨ b = _
    rw [List.mem_cons]
    grind
  · intro ctx hctx
    obtain ⟨hstands, hcand, -⟩ := hvalue ctx hctx
    exact ⟨hstands.evaluate, fun k => hw.settled _ _ (.inl (hw.element_of_candidate _ hcand))⟩
  · intro ctx k hctx
    obtain ⟨-, hcand, -⟩ := hvalue ctx hctx
    have helem := hw.element_of_candidate _ hcand
    have hget : (ctx.set ((Handle.node i.that).variable g) (value ctx)).get? far =
        some (value ctx) := by
      rw [← hvar, get?_set_variable, if_pos rfl]
    have hpresent := hw.holds_present (Stands.var hget) helem
    rcases ends_typeTest hw hget helem nd.typeName? k with ⟨ht, hends⟩ | ⟨ht, hends⟩
    · exact .inl ⟨ht, .pass hpresent hends⟩
    · exact .inr ⟨ht, .pass hpresent hends⟩
  · intro ctx hctx ht
    exact fits_of_kind hnode hkind (hvalue ctx hctx).2.1 ht
  · intro ctx hctx ht h' hsol hag hv
    obtain ⟨-, hcand, hends⟩ := hvalue ctx hctx
    refine ⟨h', ⟨solves_of_node hsol ?_, ?_⟩, fun b _ => rfl⟩
    · rw [hv]
      exact fits_of_kind hnode hkind hcand ht
    · rw [Arrives, hends h' hag, hv]
  · intro ctx hctx h hsol hag
    have heq : h (.node i.that) = value ctx := by
      rw [← (hvalue ctx hctx).2.2 h hag]
      exact hsol.2.symm
    refine ⟨?_, heq, hsol.1.mono fun b hb => List.mem_cons_of_mem _ hb⟩
    rw [← heq]
    exact (hsol.1.node _ hplace hfresh).typed hw hg hplace hnode

/-- The far end of an edge that is bound. -/
theorem FarEmits.realizes (hw : Serves s w) (hs : s.engine = cx.engine) (hr : Rooted cx g₀ g)
    (hid : s.engine.edgesHaveIdentity = true) (hb : Bound g visited binds) {name : String}
    {em : Emission} {more : List Handle} (hplace : g.IsPlace i.that)
    (hname : g.HasName (.edge i.edge) name) (hedge : Known g binds (.edge i.edge))
    (hthat : Handle.node i.that ∈ visited → Known g binds (.node i.that))
    (hterm : ∀ c, Chain.Walks cx g i.that visited c → Handle.node c.terminal ∈ visited →
      Known g binds (.node c.terminal))
    (h : FarEmits cx g i (.var name) visited em more) :
    Realizes g (Fits w args g) s (Toward w args g visited binds (Arrives w i) i.that) em.steps
      (Reached w args g (em.marks ++ visited) (more ++ binds)) := by
  cases h with
  | @known nd es node pending known =>
    refine realizes_known hw hid hname hedge ?_
    rcases known with hv | hk
    · exact hthat hv
    · exact .inr (hplace.isArgument node hk)
  | @named nd es far node pending fresh named =>
    rw [not_or] at fresh
    exact realizes_named hw hid hr.regular hb hname hedge hplace node fresh.2 named fresh.1
  | @chain nd c em bs node fresh anonymous walks emits =>
    obtain ⟨hmarks, -⟩ := Frontier.ChainEmits.parts emits
    refine ChainEmits.realizes ⟨hw, hs, hr, ⟨hplace, walks, hb, hterm c walks⟩,
      departs_bound hw hid hs walks hname hedge, fun b => ?_⟩ emits rfl rfl (fun m => Iff.rfl)
    rw [hmarks, List.mem_append]

-- ---------------------------------------------------------------------------
-- Edges
-- ---------------------------------------------------------------------------

/-- What the near end of a named edge has to be. -/
theorem matched_of_arrives {h : Handle → Value} (hi : g.Incident i)
    (he : g.edge? i.edge = some e) (hanon : e.anonymous = false)
    (hfit : Fits w args g (.edge i.edge) (h (.edge i.edge)))
    (hnear : w.ends (h (.edge i.edge)) i.direction.reverse = h (.node i.this))
    (hfar : Arrives w i h (h (.node i.that))) : EdgeMatched w args h i.edge e := by
  obtain ⟨e', he', hsuits⟩ := hfit
  rw [he] at he'
  cases he'
  rw [edgeMatched_iff w args h hi he, hanon]
  exact ⟨hsuits, hnear, hfar⟩

theorem arrives_of_matched {h : Handle → Value} (hi : g.Incident i)
    (he : g.edge? i.edge = some e) (hanon : e.anonymous = false)
    (hm : EdgeMatched w args h i.edge e) :
    Fits w args g (.edge i.edge) (h (.edge i.edge)) ∧
      w.ends (h (.edge i.edge)) i.direction.reverse = h (.node i.this) ∧
      Arrives w i h (h (.node i.that)) := by
  rw [edgeMatched_iff w args h hi he, hanon] at hm
  exact ⟨⟨e, he, hm.1⟩, hm.2⟩

/-- An argument edge is compared with the node it is followed from. -/
theorem realizes_nearArgument (hw : Serves s w) (hid : s.engine.edgesHaveIdentity = true)
    {name : String} (hi : g.Incident i) (he : g.edge? i.edge = some e)
    (hk : e.kind = .argument) (hname : g.HasName (.edge i.edge) name)
    (hthis : Known g binds (.node i.this)) (hfresh : Handle.edge i.edge ∉ visited) :
    Realizes g (Fits w args g) s (Reached w args g visited binds)
      [.guard (.equal (.var (varOf g i.this)) (.edgeEnd (.var name) i.direction false))]
      (Toward w args g (.edge i.edge :: visited) binds (Arrives w i) i.that) := by
  have hedge : Known g binds (.edge i.edge) := .inr ⟨e, he, hk⟩
  have hanon : e.anonymous = false := by
    rw [PatternEdge.anonymous, (hasName_edge_iff he).1 hname]
    rfl
  refine .guard (fun ctx => ∀ h, Agrees g (Known g binds) h ctx →
    w.ends (h (.edge i.edge)) i.direction.reverse = h (.node i.this)) (fun b => Iff.rfl)
    (fun b h => List.mem_cons_of_mem _ h) ?_ ?_ ?_
  · -- the test compares the near end of the edge with its node
    intro ctx hctx
    obtain ⟨v, hfit, hv, hstands⟩ := stands_edgeEnd hw hid hname hedge false hctx
    obtain ⟨u, hu, hufit⟩ := hctx _ hthis
    have hend : w.element (w.ends v i.direction.reverse) :=
      hw.element_of_candidate _ (hw.candidate_of_ends _ _ (hfit.edge hw))
    obtain ⟨b, hb, hiff⟩ := hw.holds_equal (Stands.var hu) hstands (hufit.element hw) hend
    refine ⟨b, hb, hiff.trans ⟨?_, ?_⟩⟩
    · intro heq h hag
      rw [agrees_edge hag hedge hv, agrees_edge hag hthis hu]
      exact heq.symm
    · -- some assignment agrees with the bindings, so the condition is not void
      intro hall
      obtain ⟨h, hag⟩ := hctx.exists_agrees
      have hnear := hall h hag
      rw [agrees_edge hag hedge hv, agrees_edge hag hthis hu] at hnear
      exact hnear.symm
  · -- an edge that arrives on both sides is matched
    intro ctx hctx hP h' hsol hag
    refine ⟨h', solves_of_edge he hsol.1 ?_, fun b _ => rfl⟩
    exact matched_of_arrives hi he hanon (hag.fit hctx hedge) (hP h' hag) hsol.2
  · -- all assignments that agree have one edge and one node
    intro ctx hctx h hsol hag
    obtain ⟨-, hnear, hfar⟩ := arrives_of_matched hi he hanon
      (hsol.edge i.edge e he (by rw [hk]; rfl) hfresh)
    refine ⟨fun h₁ hag₁ => ?_, hsol.mono fun b hb => List.mem_cons_of_mem _ hb, hfar⟩
    rw [← Option.some.inj ((hag _ hedge).symm.trans (hag₁ _ hedge)),
      ← Option.some.inj ((hag _ hthis).symm.trans (hag₁ _ hthis))]
    exact hnear

/-- A named edge is enumerated at the node it is followed from. -/
theorem realizes_nearNamed (hw : Serves s w) (hid : s.engine.edgesHaveIdentity = true)
    (hg : g.Regular cx) (hb : Bound g visited binds) {name : String} (hi : g.Incident i)
    (he : g.edge? i.edge = some e) (hk : e.kind = .pattern)
    (hname : g.HasName (.edge i.edge) name) (hthis : Known g binds (.node i.this))
    (hfresh : Handle.edge i.edge ∉ visited) :
    Realizes g (Fits w args g) s (Reached w args g visited binds)
      [.generate name (.adjacent (.var (varOf g i.this)) (.ofName? e.typeName?) i.direction)]
      (Toward w args g (.edge i.edge :: visited) (.edge i.edge :: binds) (Arrives w i) i.that) := by
  have hsome : e.name? = some name := (hasName_edge_iff he).1 hname
  have hanon : e.anonymous = false := by
    rw [PatternEdge.anonymous, hsome]
    rfl
  have hnotknown : ¬ Known g binds (.edge i.edge) := by
    rintro (h | ⟨e', he', hk'⟩)
    · exact hfresh (hb.visited _ h)
    · rw [he] at he'
      cases he'
      rw [hk] at hk'
      cases hk'
  have hfits : ∀ v, w.edge v e.typeName? ↔ Fits w args g (.edge i.edge) v := by
    intro v
    constructor
    · intro hv
      refine ⟨e, he, ?_⟩
      rw [EdgeSuits, hk]
      exact hv
    · rintro ⟨e', he', hf⟩
      rw [he] at he'
      cases he'
      rw [EdgeSuits, hk] at hf
      exact hf
  refine .generate (fun ctx v => w.edge v e.typeName? ∧ ∀ h, Agrees g (Known g binds) h ctx →
    w.ends v i.direction.reverse = h (.node i.this)) (variable_edge hname).symm ?_ hfresh
    (fun b h => List.mem_cons_of_mem _ h) (hb.variable_ne hg ⟨name, hname⟩ hnotknown) ?_ ?_
    (fun v k hf => hf.settled hw k) ?_ ?_
  · -- one more edge is known
    intro b
    show (b ∈ .edge i.edge :: binds ∨ _) ↔ (b ∈ binds ∨ _) ∨ b = _
    rw [List.mem_cons]
    grind
  · -- the values are the edges at the near node
    intro ctx hctx
    obtain ⟨u, hu, hufit⟩ := hctx _ hthis
    obtain ⟨vs, hvs, hnd, hmem⟩ := hw.source_adjacent hid (Stands.var hu) (hufit.element hw)
      e.typeName? i.direction
    refine ⟨vs, hvs, hnd, fun v => (hmem v).trans (and_congr_right fun _ => ?_)⟩
    constructor
    · intro heq h hag
      rw [agrees_edge hag hthis hu]
      exact heq
    · -- some assignment agrees with the bindings, so the condition is not void
      intro hall
      obtain ⟨h, hag⟩ := hctx.exists_agrees
      rw [hall h hag, agrees_edge hag hthis hu]
  · exact fun ctx _ v hP => (hfits v).1 hP.1
  · -- an edge that arrives on both sides is matched
    intro ctx hctx v hP h' hsol hag hv
    refine ⟨h', solves_of_edge he hsol.1 ?_, fun b _ => rfl⟩
    refine matched_of_arrives hi he hanon (hv ▸ (hfits v).1 hP.1) ?_ hsol.2
    rw [hv]
    exact hP.2 h' hag
  · -- all assignments that agree have one near node
    intro ctx hctx h hsol hag
    obtain ⟨hfit, hnear, hfar⟩ := arrives_of_matched hi he hanon
      (hsol.edge i.edge e he (by rw [hk]; rfl) hfresh)
    refine ⟨⟨(hfits _).2 hfit, fun h₁ hag₁ => ?_⟩,
      hsol.mono fun b hb => List.mem_cons_of_mem _ hb, hfar⟩
    rw [← Option.some.inj ((hag _ hthis).symm.trans (hag₁ _ hthis))]
    exact hnear

/-- Where an unnamed edge may lead. -/
def Onward (w : World) (i : Incidence) (e : PatternEdge) (h : Handle → Value) (v : Value) : Prop :=
  w.along e.typeName? i.direction (h (.node i.this)) v

/-- An unnamed edge is left to the path of a chain. -/
theorem realizes_onward (hi : g.Incident i) (he : g.edge? i.edge = some e)
    (hk : e.kind = .pattern) (hanon : e.anonymous = true) (hfresh : Handle.edge i.edge ∉ visited) :
    Realizes g (Fits w args g) s (Reached w args g visited binds) []
      (Toward w args g (.edge i.edge :: visited) binds (Onward w i e) i.that) := by
  have hmatch : ∀ h, EdgeMatched w args h i.edge e ↔ Onward w i e h (h (.node i.that)) := by
    intro h
    rw [edgeMatched_iff w args h hi he, hanon, if_pos rfl]
    rfl
  refine .silent (fun b => Iff.rfl) (fun b h => List.mem_cons_of_mem _ h) ?_ ?_
  · intro ctx _ h' hsol _
    exact ⟨h', solves_of_edge he hsol.1 ((hmatch h').2 hsol.2), fun b _ => rfl⟩
  · intro h hsol
    exact ⟨hsol.mono fun b hb => List.mem_cons_of_mem _ hb,
      (hmatch h).1 (hsol.edge i.edge e he (by rw [hk]; rfl) hfresh)⟩

/-- The path of an unnamed edge and a chain leaves from the node the edge is followed from. -/
theorem departs_onward (hw : Serves s w) (hs : s.engine = cx.engine) {c : Chain} {n : NodeId}
    {seen : List Handle} (hwalks : Chain.Walks cx g n seen c) {segment : Segment}
    (hsegment : cx.edgeSegment e i.direction = .ok segment)
    (hthis : Known g binds (.node i.this)) :
    Departs s w args g binds (.var (varOf g i.this)) (segment :: c.path) c (Onward w i e) := by
  obtain ⟨rfl, hd⟩ := edgeSegment_ok hsegment
  refine ⟨?_, ?_, ?_, ?_⟩
  · intro q hq
    rcases List.mem_cons.1 hq with rfl | hq
    · exact ⟨⟨_, rfl⟩, hs ▸ hd⟩
    · rw [hs]
      exact hwalks.followed q hq
  · intro h h' m heq hm
    unfold Onward
    rw [← heq _ hthis]
    exact hm
  · intro ctx h m hctx hag hm
    exact hw.candidate_of_along _ _ _ m (hs ▸ hd) ((hag.fit hctx hthis).element hw) hm
  · intro ctx hctx
    obtain ⟨u, hu, hufit⟩ := hctx _ hthis
    refine ⟨u, Stands.var hu, hufit.element hw, fun h hag v => ?_⟩
    unfold Onward
    rw [agrees_edge hag hthis hu, World.leads, TypeMark.name?_ofName?]

-- ---------------------------------------------------------------------------
-- Visits and courses
-- ---------------------------------------------------------------------------

theorem solves_congr {V V' : List Handle} (hV : ∀ b, b ∈ V ↔ b ∈ V') :
    Solves w args g V = Solves w args g V' :=
  funext fun _ => propext
    ⟨fun hs => hs.mono fun b => (hV b).1, fun hs => hs.mono fun b => (hV b).2⟩

theorem reached_congr {V V' B B' : List Handle} (hV : ∀ b, b ∈ V ↔ b ∈ V')
    (hB : ∀ b, b ∈ B ↔ b ∈ B') : Reached w args g V B = Reached w args g V' B' := by
  have hknown : Known g B = Known g B' := by
    funext b
    rw [Known, Known, hB]
  have hcov : (fun b => b ∈ V) = (fun b => b ∈ V') := funext fun b => propext (hV b)
  rw [Reached, Reached, hknown, solves_congr hV, hcov]

theorem toward_congr {V V' : List Handle} {Q : (Handle → Value) → Value → Prop} {n : NodeId}
    (hV : ∀ b, b ∈ V ↔ b ∈ V') : Toward w args g V binds Q n = Toward w args g V' binds Q n := by
  have hcov : (fun b => b ∈ V) = (fun b => b ∈ V') := funext fun b => propext (hV b)
  rw [Toward, Toward, solves_congr hV, hcov]

/-- An edge without a name is followed together with the chain that it starts. -/
theorem realizes_chain (hw : Serves s w) (hs : s.engine = cx.engine) (hr : Rooted cx g₀ g)
    {rest : List Entry} (hf : Frontier g₀ g visited binds (.along i :: rest))
    (hfresh : Handle.edge i.edge ∉ visited) {segment : Segment} {c : Chain} {em : Emission}
    {more : List Handle} (he : g.edge? i.edge = some e) (hk : e.kind = .pattern)
    (hanon : e.name? = none) (hsegment : cx.edgeSegment e i.direction = .ok segment)
    (hwalks : Chain.Walks cx g i.that (.edge i.edge :: .edge i.edge :: visited) c)
    (hemits : ChainEmits g (.var (varOf g i.this))
      { c with path := segment :: c.path, elements := .edge i.edge :: c.elements }
      (.edge i.edge :: visited) em more) :
    Realizes g (Fits w args g) s (Reached w args g visited binds) em.steps
      (Reached w args g (em.marks ++ .edge i.edge :: visited) (more ++ binds)) := by
  have hg : g.Regular cx := hr.regular
  obtain ⟨hi, hvthis, -⟩ := hf.along i (by simp)
  have hst : g.Structural i := structural_of_pattern he hk
  have hplace : g.IsPlace i.that := hg.isPlace_that hi hst
  have hthis : Known g binds (.node i.this) := hf.live i hi hvthis hfresh hst
  have hseen : ∀ h, h ∈ Handle.edge i.edge :: Handle.edge i.edge :: visited ↔
      h = .edge i.edge ∨ h ∈ visited := by
    intro h
    simp
  have hc := hr.consumed hwalks hplace
  have hfollowing : Following cx g₀ g (.edge i.edge :: .edge i.edge :: visited) binds i.that c :=
    ⟨hplace, hwalks, hf.isBound.cons.cons, fun hv => hf.known_terminal hst hfresh hseen hc (by
      simpa using hv)⟩
  have honward : Realizes g (Fits w args g) s (Reached w args g visited binds) []
      (Toward w args g (.edge i.edge :: visited) binds (Onward w i e) i.that) :=
    realizes_onward hi he hk (by rw [PatternEdge.anonymous, hanon]; rfl) hfresh
  -- the chain counts its first edge as visited once more
  have htwice : Toward w args g (.edge i.edge :: visited) binds (Onward w i e) i.that =
      Toward w args g (.edge i.edge :: .edge i.edge :: visited) binds (Onward w i e) i.that :=
    toward_congr (by simp)
  rw [htwice] at honward
  refine honward.trans (ChainEmits.realizes ⟨hw, hs, hr, hfollowing,
    departs_onward hw hs hwalks hsegment hthis, fun b => ?_⟩ hemits rfl rfl (by simp))
  rw [(Frontier.ChainEmits.parts hemits).1]
  simp only [List.mem_append, List.mem_cons]
  grind

/-- An edge that is supplied is tested at its near end, and then followed to its far end. -/
theorem realizes_argumentEdge (hw : Serves s w) (hs : s.engine = cx.engine) (hr : Rooted cx g₀ g)
    {rest : List Entry} (hf : Frontier g₀ g visited binds (.along i :: rest))
    (hfresh : Handle.edge i.edge ∉ visited) (hid : s.engine.edgesHaveIdentity = true)
    {name : String} {em : Emission} {more : List Handle} (he : g.edge? i.edge = some e)
    (hk : e.kind = .argument) (hsome : e.name? = some name)
    (hfar : FarEmits cx g i (.var name) (.edge i.edge :: visited) em more) :
    Realizes g (Fits w args g) s (Reached w args g visited binds)
      (.guard (.equal (.var (varOf g i.this)) (.edgeEnd (.var name) i.direction false)) ::
        em.steps)
      (Reached w args g (em.marks ++ .edge i.edge :: visited) (more ++ binds)) := by
  obtain ⟨hi, hvthis, -⟩ := hf.along i (by simp)
  have hst : g.Structural i := structural_of_argument he hk
  have hplace : g.IsPlace i.that := hr.regular.isPlace_that hi hst
  have hname : g.HasName (.edge i.edge) name := (hasName_edge_iff he).2 hsome
  refine (realizes_nearArgument hw hid hi he hk hname
    (hf.live i hi hvthis hfresh hst) hfresh).trans ?_
  exact FarEmits.realizes hw hs hr hid hf.isBound.cons hplace hname (.inr ⟨e, he, hk⟩)
    (fun hv => hf.known_that hst hfresh (Frontier.mem_edge_cons.1 hv))
    (fun c hwalks hv => hf.known_far hr hst hfresh hwalks (Frontier.mem_edge_cons.1 hv)) hfar

/-- A named edge is found at its near end, and then followed to its far end. -/
theorem realizes_namedEdge (hw : Serves s w) (hs : s.engine = cx.engine) (hr : Rooted cx g₀ g)
    {rest : List Entry} (hf : Frontier g₀ g visited binds (.along i :: rest))
    (hfresh : Handle.edge i.edge ∉ visited) (hid : s.engine.edgesHaveIdentity = true)
    {name : String} {em : Emission} {more : List Handle} (he : g.edge? i.edge = some e)
    (hk : e.kind = .pattern) (hsome : e.name? = some name)
    (hfar : FarEmits cx g i (.var name) (.edge i.edge :: visited) em more) :
    Realizes g (Fits w args g) s (Reached w args g visited binds)
      (.generate name (.adjacent (.var (varOf g i.this)) (.ofName? e.typeName?) i.direction) ::
        em.steps)
      (Reached w args g (em.marks ++ .edge i.edge :: visited) (.edge i.edge :: more ++ binds)) := by
  have hg : g.Regular cx := hr.regular
  have hb : Bound g visited binds := hf.isBound
  obtain ⟨hi, hvthis, -⟩ := hf.along i (by simp)
  have hst : g.Structural i := structural_of_pattern he hk
  have hplace : g.IsPlace i.that := hg.isPlace_that hi hst
  have hname : g.HasName (.edge i.edge) name := (hasName_edge_iff he).2 hsome
  have hb' : Bound g (.edge i.edge :: visited) (.edge i.edge :: binds) :=
    hb.cons_cons ⟨e, he, hk, by rw [hsome]; rfl⟩
  have hmore : ∀ {b}, Known g binds b → Known g (.edge i.edge :: binds) b :=
    fun h => h.imp (List.mem_cons_of_mem _) id
  have hcongr : Reached w args g (em.marks ++ .edge i.edge :: visited)
      (more ++ .edge i.edge :: binds) = Reached w args g (em.marks ++ .edge i.edge :: visited)
      (.edge i.edge :: more ++ binds) :=
    reached_congr (fun b => Iff.rfl) (by intro b; simp [or_left_comm])
  rw [← hcongr]
  refine (realizes_nearNamed hw hid hg hb hi he hk hname
    (hf.live i hi hvthis hfresh hst) hfresh).trans ?_
  exact FarEmits.realizes hw hs hr hid hb' hplace hname (.inl (by simp))
    (fun hv => hmore (hf.known_that hst hfresh (Frontier.mem_edge_cons.1 hv)))
    (fun c hwalks hv => hmore (hf.known_far hr hst hfresh hwalks (Frontier.mem_edge_cons.1 hv)))
    hfar

/-- The steps of a visit realize what the visit is about. -/
theorem Emits.realizes (hw : Serves s w) (hs : s.engine = cx.engine) (hr : Rooted cx g₀ g)
    (hplain : ∀ e ∈ g.edges, e.kind ≠ .precedes) (hid : Identified cx g) {x : Entry}
    {rest : List Entry} {em : Emission} {more : List Handle}
    (hf : Frontier g₀ g visited binds (x :: rest)) (hfresh : x.handle ∉ visited)
    (h : Emits cx g (x.handle :: visited) x em more) :
    Realizes g (Fits w args g) s (Reached w args g visited binds) em.steps
      (Reached w args g (em.marks ++ x.handle :: visited) (more ++ binds)) := by
  have hg : g.Regular cx := hr.regular
  -- what is entered is the anchor or the start of a component
  have henter : ∀ {n nd}, x = .node n → g.node? n = some nd → nd.kind ≠ .anchor →
      g.IsPlace n := by
    rintro n nd rfl hnode hkind
    have hne : n ≠ g.anchor := by
      rintro rfl
      obtain ⟨nd', hnd', hk⟩ := hg.anchor
      rw [hnode] at hnd'
      cases hnd'
      exact hkind hk
    have hstart := (hf.enter n (by simp)).resolve_left hne
    exact hr.anchors.extended.isPlace (hr.before.place_of_isStart hstart)
  cases h with
  | @anchor n nd es node kind pending =>
    refine realizes_silent ⟨?_, (by intro k e hk; cases hk)⟩
    rintro m hm ⟨-, nd', hnd', hk⟩
    cases hm
    rw [node] at hnd'
    cases hnd'
    rcases kind with h | h <;> rcases hk with h' | h' <;> rw [h] at h' <;> cases h'
  | @place n nd es node kind pending =>
    have hplace : g.IsPlace n := henter rfl node (by rw [kind]; exact NodeKind.noConfusion)
    exact realizes_place hw hg hf.isBound hplace node kind hfresh
  | @argument n nd name es node kind named pending =>
    have hplace : g.IsPlace n := henter rfl node (by rw [kind]; exact NodeKind.noConfusion)
    exact realizes_argument hw hplace node kind named
  | @start i e edge kind =>
    refine realizes_silent ⟨(by intro n hn; cases hn), ?_⟩
    intro k e' hk he'
    cases hk
    rw [edge] at he'
    cases he'
    rw [kind]
    rfl
  | @constraints i e steps marks edge kind splices =>
    exact absurd kind (hplain e (List.mem_of_getElem? edge))
  | chain edge kind anonymous segment_ok walks emits =>
    exact realizes_chain hw hs hr hf hfresh edge kind anonymous segment_ok walks emits
  | argumentEdge edge kind named far =>
    have hid' : s.engine.edgesHaveIdentity = true := by
      rw [hs]
      exact hid _ (List.mem_of_getElem? edge) (by rw [kind]; rfl)
        (by rw [PatternEdge.anonymous, named]; rfl)
    exact realizes_argumentEdge hw hs hr hf hfresh hid' edge kind named far
  | namedEdge edge kind named identity far =>
    exact realizes_namedEdge hw hs hr hf hfresh (by rw [hs]; exact identity) edge kind named far

/-- The steps of a course realize all that is visited on it. -/
theorem Explores.realizes (hw : Serves s w) (hs : s.engine = cx.engine) (hr : Rooted cx g₀ g)
    (hplain : ∀ e ∈ g.edges, e.kind ≠ .precedes) (hid : Identified cx g) {stack : List Entry}
    {steps : List Step} {visited' binds' : List Handle}
    (h : Explores cx g₀ g visited binds stack steps visited' binds') :
    Realizes g (Fits w args g) s (Reached w args g visited binds) steps
      (Reached w args g visited' binds') := by
  induction h with
  | done =>
    refine .silent (fun b => Iff.rfl) (fun b hb => hb) ?_ (fun h hs => hs)
    exact fun ctx _ h' hs _ => ⟨h', hs, fun b _ => rfl⟩
  | skip seen _ ih => exact ih
  | visit frontier fresh emits _ ih =>
    exact (Emits.realizes hw hs hr hplain hid frontier fresh emits).trans ih

end Plan

end GraphPattern
