import GraphPattern.Proofs.Concatenated
import GraphPattern.Proofs.SeamReadings
import GraphPattern.Proofs.SeamVisits

/-!
# GraphPattern — mentioning the current node

A node that is mentioned again by its name, where it is the current node anyway, is not read as
another node, and a row of constraints that comes apart there is visited in one go all the same. So
the pattern compiles to the plan to which it compiles without the mention, or is refused for a
reason of the same kind. A path may therefore be written edge by edge.

## Results

* `Context.Mentions.anchoredGraph` — the anchored graphs, up to a row that comes apart.
* `Context.Mentions.compile` — the compilation with the mention and without it.
* `Context.compile_oneByOne` — the compilation of a path that is written edge by edge.
-/

namespace GraphPattern

open PatternGraph

variable {cx cx' : Context} {first second : List Element} {ts : List Token} {s : String}

/-- A text mentions, by its name and without a type, the node that some tokens end with. -/
structure Token.Mentions (ts : List Token) (s : String) : Prop where
  /-- The tokens do not end with an edge that still needs its node. -/
  settled : ∀ u, ts.getLast? ≠ some (.edge u)
  named : ∃ name, (lastNode? ts).bind (·.name?) = some name ∧
    read? s = some (.node { name? := some name, typeName? := none })

/-- Two compilations, of which the second one has a text more in its pattern: it mentions the node
that was read last. -/
structure Context.Mentions (cx cx' : Context) (first second : List Element) (s : String) :
    Prop where
  akin : cx.Akin cx'
  elements : cx.elements = first ++ second
  elements' : cx'.elements = first ++ .text s :: second
  mention : ∃ ts, Token.classify first = .ok ts ∧ Token.Mentions ts s

theorem Context.exists_rooted {g₀ : PatternGraph} (h : cx.graph = .ok g₀) :
    ∃ g, g₀.anchored = (.ok (), g) ∧ Rooted cx g₀ g := by
  unfold Context.graph at h
  cases hts : Token.classify cx.elements with
  | error f => rw [hts] at h; cases h
  | ok ts =>
    rw [hts] at h
    obtain ⟨hreg, hunanchored⟩ := Reading.regular_of_run h (Token.visible_of_classify hts)
    obtain ⟨g, hrun, hanchors⟩ := anchored_ok hreg.consistent
    exact ⟨g, hrun, hreg, hunanchored, hanchors, hreg.anchors hanchors⟩

namespace Context.Mentions

/-- The graphs of both patterns, before they are anchored. -/
theorem graph (h : cx.Mentions cx' first second s) :
    Concurs Loosened cx.graph cx'.graph := by
  obtain ⟨ts, hts, hsettled, name, hname, hread⟩ := h.mention
  obtain ⟨u, hlast, hu⟩ := Option.bind_eq_some_iff.1 hname
  unfold Context.graph
  rw [h.elements, h.elements']
  refine (Token.classify_mention hts hread second).bind fun us us' hus _ hsplit => ?_
  obtain ⟨rest, rfl, rfl⟩ := hsplit
  have hvisible := Token.visible_of_classify hus
  have hstart : Reading.Twin cx cx' none {} {} :=
    { rehung := .refl _, seam := fun s hs => absurd hs (Option.not_mem_none s), current := rfl,
      last := rfl, sound := .start cx, sound' := .start cx' }
  refine hstart.mention h.akin ⟨_, Seam.At.empty _ _⟩ (Token.visible_of_classify hts) hsettled ?_
    rfl rfl (fun t ht => hvisible t (List.mem_append_right _ ht)) 1
  rw [hlast]
  exact hu

/-- The graphs of both patterns, each with every component linked to the anchor. -/
theorem anchoredGraph (h : cx.Mentions cx' first second s) :
    Concurs (fun g g' => ∃ seam? g₀ g₀', Parted cx cx' seam? g₀ g g₀' g') cx.anchoredGraph
      cx'.anchoredGraph := by
  refine h.graph.bind fun g₀ g₀' hg₀ hg₀' hsame => ?_
  obtain ⟨seam?, hrehung, hseam⟩ := hsame
  obtain ⟨g, hanchored, hrooted⟩ := Context.exists_rooted hg₀
  obtain ⟨g', hanchored', hrooted'⟩ := Context.exists_rooted hg₀'
  rw [hanchored, hanchored']
  exact .ok ⟨seam?, g₀, g₀', h.akin, hrooted, hrooted',
    hrehung.anchors hseam hrooted.anchors hrooted'.anchors,
    fun s hs => (hseam s hs).mono hrooted.anchors.extended⟩

/-- The plans of both patterns are the same, or both are refused for reasons of one kind. -/
theorem compile (h : cx.Mentions cx' first second s) : Concurs Eq cx.compile cx'.compile := by
  refine h.anchoredGraph.bind fun g g' _ _ hparted => ?_
  obtain ⟨seam?, g₀, g₀', hparted⟩ := hparted
  refine hparted.ofGraph.bind fun p p' _ _ hp => ?_
  rw [hp]
  exact (Plan.check_akin (some g) (some g') h.akin p'.expanded).bind fun _ _ _ _ _ => .ok rfl

end Context.Mentions

-- ---------------------------------------------------------------------------
-- Paths
-- ---------------------------------------------------------------------------

/-- A step of a path as it is written: an edge, the node to which it leads, and a mention of this
node. -/
structure Link where
  edge : String
  node : String
  mention : String

namespace Link

/-- The texts of a step are what they are meant to be. -/
structure Reads (l : Link) : Prop where
  edge : ∃ u, Token.read? l.edge = some (.edge u)
  node : ∃ t name, Token.read? l.node = some (.node t) ∧ t.name? = some name ∧
    Token.read? l.mention = some (.node { name? := some name, typeName? := none })

/-- The steps of a path in a row. -/
def path : List Link → List Element
  | [] => []
  | l :: ls => .text l.edge :: .text l.node :: path ls

/-- The edges of a path one by one: each but the first starts with a mention of the node that it
leaves. -/
def oneByOne : List Link → List Element
  | [] => []
  | [l] => [.text l.edge, .text l.node]
  | l :: m :: ls => .text l.edge :: .text l.node :: .text l.mention :: oneByOne (m :: ls)

/-- A step ends with its node. -/
theorem Reads.classify {l : Link} (hl : l.Reads) {first : List Element} {ts : List Token}
    (hts : Token.classify first = .ok ts) :
    ∃ us, Token.classify (first ++ [.text l.edge, .text l.node]) = .ok us ∧
      Token.Mentions us l.mention := by
  obtain ⟨u, hu⟩ := hl.edge
  obtain ⟨t, name, ht, hname, hmention⟩ := hl.node
  have hstep : Token.classify [.text l.edge, .text l.node] =
      .ok [.edge { u with index := 0 }, .node { t with index := 1 }] := by
    rw [Token.classify, Token.units_text hu, Token.units_text ht]
    rfl
  refine ⟨_, Token.classify_append hts hstep, fun v hlast => ?_, name, ?_, hmention⟩
  · rw [List.getLast?_append] at hlast
    cases hlast
  · rw [Token.lastNode?_append]
    exact hname

/-- After a mention the tokens go on. -/
theorem Reads.classify_mention {l : Link} (hl : l.Reads) {first : List Element} {ts : List Token}
    (hts : Token.classify first = .ok ts) :
    ∃ us, Token.classify (first ++ [.text l.mention]) = .ok us := by
  obtain ⟨t, name, -, -, hmention⟩ := hl.node
  have hone : Token.classify [.text l.mention] =
      .ok [.node { name? := some name, typeName? := none }] := by
    rw [Token.classify, Token.units_text hmention]
    rfl
  exact ⟨_, Token.classify_append hts hone⟩

end Link

/-- Behind any tokens, a path may be written edge by edge. The node at its end needs no name. -/
theorem Context.compile_oneByOne (cx : Context) {links : List Link}
    (hlinks : ∀ l ∈ links.dropLast, l.Reads) (hts : Token.classify first = .ok ts) :
    Concurs Eq (cx.withElements (first ++ Link.path links ++ second)).compile
      (cx.withElements (first ++ Link.oneByOne links ++ second)).compile := by
  fun_induction Link.oneByOne links generalizing first ts with
  | case1 => exact .refl _
  | case2 l => exact .refl _
  | case3 l m ls ih =>
    have hl := hlinks l List.mem_cons_self
    obtain ⟨us, hus, hmentions⟩ := hl.classify hts
    obtain ⟨vs, hvs⟩ := hl.classify_mention hus
    have hmention : Context.Mentions
        (cx.withElements (first ++ [.text l.edge, .text l.node] ++
          (Link.path (m :: ls) ++ second)))
        (cx.withElements (first ++ [.text l.edge, .text l.node] ++
          .text l.mention :: (Link.path (m :: ls) ++ second)))
        (first ++ [.text l.edge, .text l.node]) (Link.path (m :: ls) ++ second) l.mention :=
      ⟨⟨rfl, rfl⟩, rfl, rfl, us, hus, hmentions⟩
    have hrest := ih (fun k hk => hlinks k (List.mem_cons_of_mem _ hk)) hvs
    have hwhole := hmention.compile
    simp only [List.append_assoc, List.cons_append, List.nil_append] at hwhole hrest
    simp only [Link.path, List.append_assoc, List.cons_append] at hwhole hrest ⊢
    exact hwhole.trans hrest

-- ---------------------------------------------------------------------------
-- Requests
-- ---------------------------------------------------------------------------

section Requests

variable {arguments : List String} {p p' engine : Element} {es es' : List Element}

/-- Requests with the same arguments and the same engine concur where their patterns do. -/
theorem compile_concurs (hp : Pattern.elements? p = .ok es) (hp' : Pattern.elements? p' = .ok es')
    (h : ∀ e : Engine, Concurs Eq (Context.compile { arguments, elements := es, engine := e })
      (Context.compile { arguments, elements := es', engine := e })) :
    Concurs Eq (compile arguments p engine) (compile arguments p' engine) := by
  unfold GraphPattern.compile Context.ofRequest
  rw [hp, hp']
  cases resolveEngine engine with
  | error f => exact .refl (.error f)
  | ok e => exact h e

/-- Mentioning the current node again changes nothing: with the mention and without it, a pattern
compiles to the same plan, or is refused for a reason of the same kind. So a path is compiled like
its edges one by one. -/
theorem compile_mention (arguments : List String) (engine : Element) :
    (∀ p p' first second s ts, Pattern.elements? p = .ok (first ++ second) →
      Pattern.elements? p' = .ok (first ++ .text s :: second) →
      Token.classify first = .ok ts → Token.Mentions ts s →
      Concurs Eq (compile arguments p engine) (compile arguments p' engine)) ∧
    ∀ p p' first links second ts,
      Pattern.elements? p = .ok (first ++ Link.path links ++ second) →
      Pattern.elements? p' = .ok (first ++ Link.oneByOne links ++ second) →
      Token.classify first = .ok ts → (∀ l ∈ links.dropLast, l.Reads) →
      Concurs Eq (compile arguments p engine) (compile arguments p' engine) := by
  constructor
  · intro p p' first second s ts hp hp' hts hmentions
    refine compile_concurs hp hp' fun e => ?_
    have h : Context.Mentions { arguments, elements := first ++ second, engine := e }
        { arguments, elements := first ++ .text s :: second, engine := e } first second s :=
      ⟨⟨rfl, rfl⟩, rfl, rfl, ts, hts, hmentions⟩
    exact h.compile
  · intro p p' first links second ts hp hp' hts hlinks
    exact compile_concurs hp hp' fun e => Context.compile_oneByOne
      { arguments, elements := [], engine := e } hlinks hts

end Requests

/-- Two constraints in a row. -/
def inOneRow : Context :=
  { arguments := []
    elements := [.text "a<A>", .text ":when", .form (inquiry "a"), .text ":when",
      .form (inquiry "a")]
    engine := .graph }

/-- The same with a mention of their node in between. -/
def inTwoRows : List Element :=
  [.text "a<A>", .text ":when", .form (inquiry "a"), .text "a", .text ":when", .form (inquiry "a")]

def inOneRowPlan : Plan :=
  { steps := [.generate "a" (.instances (.spec "A")), .guard (.call (inquiry "a")),
      .guard (.call (inquiry "a"))]
    arguments := [], engine := .graph }

/-- A path of two edges. -/
def straight : Context :=
  { arguments := []
    elements := [.text "a", .text "-->", .text "b", .text "-->", .text "c"]
    engine := .graph }

def straightPlan : Plan :=
  { steps := [.generate "a" (.instances .any),
      .generate "b" (.reachable (.var "a") [.step .out .any]),
      .generate "c" (.reachable (.var "b") [.step .out .any])]
    arguments := [], engine := .graph }

/-- A row of constraints that comes apart, and a path that is written edge by edge. -/
theorem compile_mention_inTwoRows :
    compile [] (.list inOneRow.elements) (.text "graph") = .ok inOneRowPlan ∧
      compile [] (.list inTwoRows) (.text "graph") = .ok inOneRowPlan ∧
      compile [] (.text "a --> b --> c") (.text "graph") = .ok straightPlan ∧
      compile [] (.text "a --> b b --> c") (.text "graph") = .ok straightPlan := by
  have hrow : compile [] (.list inOneRow.elements) (.text "graph") = .ok inOneRowPlan := by
    have hcompile : inOneRow.compile = .ok inOneRowPlan := by cbv
    exact (compile_of_ofRequest rfl).trans hcompile
  have hwords : Pattern.elements? (.text "a --> b --> c") = .ok straight.elements := by cbv
  have hpath : compile [] (.text "a --> b --> c") (.text "graph") = .ok straightPlan := by
    have hcompile : straight.compile = .ok straightPlan := by cbv
    have hrequest : Context.ofRequest [] (.text "a --> b --> c") (.text "graph") =
        .ok straight := by
      rw [Context.ofRequest, hwords]
      rfl
    exact (compile_of_ofRequest hrequest).trans hcompile
  have hmentions : Token.Mentions
      [.node { name? := some "a", typeName? := some "A", index := 0 },
        .constraint { constraint := .when (inquiry "a"), index := 1 }] "a" := by
    refine ⟨fun u hu => ?_, "a", rfl, by cbv⟩
    cases hu
  have hlink : Link.Reads { edge := "-->", node := "b", mention := "b" } :=
    ⟨⟨_, by cbv⟩, _, "b", by cbv, rfl, by cbv⟩
  have hrows := (compile_mention [] (.text "graph")).1 (.list inOneRow.elements) (.list inTwoRows)
    (inTwoRows.take 3) (inTwoRows.drop 4) "a" _ rfl rfl (by cbv) hmentions
  have hpaths := (compile_mention [] (.text "graph")).2 (.text "a --> b --> c")
    (.text "a --> b b --> c") [.text "a"] [⟨"-->", "b", "b"⟩, ⟨"-->", "c", "c"⟩] [] _ hwords
    (by cbv) (by cbv) ?_
  · rw [hrow] at hrows
    rw [hpath] at hpaths
    exact ⟨hrow, hrows.eq_ok, hpath, hpaths.eq_ok⟩
  · rintro l hl
    rw [List.mem_singleton.1 hl]
    exact hlink

end GraphPattern
