import GraphPattern.Proofs.Declared
import GraphPattern.Proofs.Dumps
import GraphPattern.Proofs.Juxtaposed
import GraphPattern.Proofs.Lexemes
import GraphPattern.Proofs.Phrases
import GraphPattern.Proofs.EdgeTallies

/-!
# GraphPattern — plans in lines

The pretty form of a plan escapes nothing in a symbol, so that it could not be read back if there were
anything to escape. In the plan of a pattern there is not: names and types are those of its tokens,
hidden names are numbers behind a mark, and what is left are the names of arguments and the texts that
show forms. Where these are words, the dump is a plain tree, and the form over several lines says as
much as the form on one line.

## Results

* `Token.spelled_of_classify`, `PatternGraph.Drawing.Drawn.spelled` — names and types can be written.
* `Context.spelled_of_compile` — and so can all that a compiled plan has from the pattern.
* `Plan.plain_dump` — dumps of such plans are plain.
* `compile_pretty` — what the pretty forms of compiled plans tell.
-/

namespace GraphPattern

open SExpr PatternGraph PatternGraph.Drawing

-- ---------------------------------------------------------------------------
-- Words
-- ---------------------------------------------------------------------------

namespace SExpr

/-- What types and hidden names consist of are no blanks, and no marks of written trees. -/
theorem isQuotable_of_letters {s : String} (hne : s ≠ "")
    (h : ∀ c ∈ s.toList, IsTypeLetter c ∨ c = '-' ∨ c = '#') : IsQuotable s := by
  have hblank : ∀ c ∈ s.toList, Text.isBlank c = false := by
    intro c hc
    rcases h c hc with hletter | rfl | rfl
    · exact isBlank_of_isTypeLetter hletter
    · rfl
    · rfl
  have hmark : ∀ d, isTypeChar d = false → d ≠ '-' → d ≠ '#' → ∀ c ∈ s.toList, c ≠ d := by
    rintro d hd hminus hhash c hc rfl
    rcases h c hc with hletter | rfl | rfl
    · rw [isTypeChar_iff.2 hletter] at hd
      cases hd
    · exact hminus rfl
    · exact hhash rfl
  refine ⟨⟨hne, fun c hc => ⟨hblank c hc, ?_, ?_, ?_⟩⟩, fun hslash => ?_⟩
  · exact hmark '(' (by decide) (by decide) (by decide) c hc
  · exact hmark ')' (by decide) (by decide) (by decide) c hc
  · exact hmark '"' (by decide) (by decide) (by decide) c hc
  · exact hmark '\\' (by decide) (by decide) (by decide) _ hslash rfl

theorem isWord_of_isName {s : String} (h : isName s = true) : IsWord s := by
  rw [isName, Bool.and_eq_true, List.all_eq_true] at h
  refine (isQuotable_of_letters ?_ fun c hc => .inl (.inl (isNameChar_iff.1 (h.2 c hc)))).1
  rintro rfl
  exact absurd h.1 (by decide)

/-- A hidden name is a mark and a number. -/
theorem isWord_hidden (i : Int) : IsWord ("#" ++ toString i) := by
  have hdigit : ∀ (n : Nat), ∀ c ∈ n.repr.toList, IsTypeLetter c := by
    intro n c hc
    rw [Nat.repr, String.toList_ofList] at hc
    have hc := Nat.isDigit_of_mem_toDigits (by decide) (by decide) hc
    rw [← isTypeChar_iff, isTypeChar, isNameChar, Char.isAlphanum, hc, Bool.or_true, Bool.true_or,
      Bool.true_or, Bool.true_or]
  have hnumber : ∀ c ∈ (toString i).toList, IsTypeLetter c ∨ c = '-' := by
    intro c hc
    cases i with
    | ofNat n => exact .inl (hdigit n c hc)
    | negSucc n =>
      have hsplit : (toString (Int.negSucc n)).toList = '-' :: (n.succ.repr).toList := by
        show ("-" ++ n.succ.repr).toList = _
        rw [String.toList_append]
        rfl
      rw [hsplit] at hc
      rcases List.mem_cons.1 hc with rfl | hc
      · exact .inr rfl
      · exact .inl (hdigit _ c hc)
  refine (isQuotable_of_letters ?_ fun c hc => ?_).1
  · intro hempty
    have := congrArg String.toList hempty
    rw [String.toList_append] at this
    cases this
  · rw [String.toList_append] at hc
    rcases List.mem_cons.1 hc with rfl | hc
    · exact .inr (.inr rfl)
    · exact (hnumber c hc).imp_right .inl

/-- A list that is headed by a keyword. -/
theorem Plain.tagged {tag : String} {ps : List SExpr} (htag : IsWord tag) (h : ∀ p ∈ ps, p.Plain) :
    (SExpr.list (.symbol tag :: ps)).Plain :=
  .list (by simpa using ⟨.symbol htag, h⟩)

end SExpr

-- ---------------------------------------------------------------------------
-- Plans that are spelled out
-- ---------------------------------------------------------------------------

/-- A type that is named and can be quoted. -/
def TypeMark.Spelled (t : TypeMark) : Prop :=
  ∃ s, t = .spec s ∧ IsQuotable s

/-- Nothing is of a foreign kind, and types can be quoted. -/
inductive Segment.Spelled : Segment → Prop
  | restrict {t : TypeMark} (type : t.Spelled) : Spelled (.restrict t)
  | step {d : Direction} {t : TypeMark} (type : t = .any ∨ t.Spelled) : Spelled (.step d t)

/-- Nothing is of a foreign kind, everything has a name that is a word, and types can be quoted. -/
inductive Expr.Spelled : Expr → Prop
  | var {n : String} (name : IsWord n) : Spelled (.var n)
  | argument {n : String} (name : IsWord n) : Spelled (.argument n)
  | call (f : Form) : Spelled (.call f)
  | instances {t : TypeMark} (type : t = .any ∨ t.Spelled) : Spelled (.instances t)
  | adjacent {s : Expr} {t : TypeMark} {d : Direction} (source : Spelled s)
      (type : t = .any ∨ t.Spelled) : Spelled (.adjacent s t d)
  | edgeEnd {e : Expr} {d : Direction} {far : Bool} (edge : Spelled e) : Spelled (.edgeEnd e d far)
  | reachable {s : Expr} {p : Path} (start : Spelled s) (path : ∀ x ∈ p, x.Spelled) :
      Spelled (.reachable s p)
  | equal {l r : Expr} (left : Spelled l) (right : Spelled r) : Spelled (.equal l r)
  | isInstance {v : Expr} {t : TypeMark} (value : Spelled v) (type : t.Spelled) :
      Spelled (.isInstance v t)
  | nonEmpty {c : Expr} (collection : Spelled c) : Spelled (.nonEmpty c)
  | member {e c : Expr} (element : Spelled e) (collection : Spelled c) : Spelled (.member e c)
  | present {v : Expr} (value : Spelled v) : Spelled (.present v)

inductive Step.Spelled : Step → Prop
  | generate {n : String} {e : Expr} (name : IsWord n) (source : e.Spelled) :
      Spelled (.generate n e)
  | assign {n : String} {e : Expr} (name : IsWord n) (value : e.Spelled) : Spelled (.assign n e)
  | assignAll {bs : List (String × Expr)} (bindings : ∀ b ∈ bs, IsWord b.1 ∧ b.2.Spelled) :
      Spelled (.assignAll bs)
  | guard {e : Expr} (test : e.Spelled) : Spelled (.guard e)
  | whilst {e : Expr} (test : e.Spelled) : Spelled (.whilst e)

theorem TypeMark.Spelled.isSpec {t : TypeMark} (h : t.Spelled) : t.IsSpec :=
  h.imp fun _ => And.left

theorem TypeMark.Spelled.plain {t : TypeMark} (h : t.Spelled) : (SExpr.ofRequiredType t).Plain := by
  obtain ⟨s, rfl, hs⟩ := h
  exact .text hs

theorem TypeMark.plain_ofType {t : TypeMark} (h : t = .any ∨ t.Spelled) :
    (SExpr.ofType t).Plain := by
  obtain rfl | ⟨s, rfl, hs⟩ := h
  · exact .symbol (by decide)
  · exact .text hs

theorem TypeMark.isOptionalSpec {t : TypeMark} (h : t = .any ∨ t.Spelled) : t.IsOptionalSpec :=
  h.imp_right TypeMark.Spelled.isSpec

theorem SExpr.plain_ofDirection (d : Direction) : (SExpr.ofDirection d).Plain := by
  cases d <;> exact .symbol (by decide)

theorem Segment.Spelled.dumpable {x : Segment} (h : x.Spelled) : x.Dumpable := by
  cases h with
  | restrict type => exact type.isSpec
  | step type => exact TypeMark.isOptionalSpec type

theorem Segment.Spelled.plain {x : Segment} (h : x.Spelled) : x.dump.Plain := by
  cases h with
  | restrict type => exact .tagged (by decide) (by simpa using type.plain)
  | @step d t type =>
    cases d <;> exact .tagged (by decide) (by simpa using TypeMark.plain_ofType type)

namespace Expr.Spelled

theorem dumpable {e : Expr} (h : e.Spelled) : e.Dumpable := by
  induction h with
  | var | argument | call => trivial
  | instances type => exact TypeMark.isOptionalSpec type
  | adjacent _ type ih => exact ⟨ih, TypeMark.isOptionalSpec type⟩
  | edgeEnd _ ih | nonEmpty _ ih | present _ ih => exact ih
  | reachable _ path ih => exact ⟨ih, fun x hx => (path x hx).dumpable⟩
  | equal _ _ ih ih' | member _ _ ih ih' => exact ⟨ih, ih'⟩
  | isInstance _ type ih => exact ⟨ih, type.isSpec⟩

theorem plain {e : Expr} (h : e.Spelled) (hforms : ∀ f ∈ e.forms, IsWord f.displayed) :
    e.dump.Plain := by
  induction h with
  | var name => exact .symbol name
  | argument name => exact .tagged (by decide) (by simpa using .symbol name)
  | call f => exact .tagged (by decide) (by simpa using .symbol (hforms f (by simp [forms])))
  | instances type => exact .tagged (by decide) (by simpa using TypeMark.plain_ofType type)
  | adjacent _ type ih =>
    exact .tagged (by decide)
      (by simpa using ⟨ih hforms, TypeMark.plain_ofType type, SExpr.plain_ofDirection _⟩)
  | @edgeEnd e d far _ ih =>
    exact .tagged (by cases far <;> decide)
      (by simpa using ⟨ih hforms, SExpr.plain_ofDirection d⟩)
  | @reachable s p _ path ih =>
    have hpath : (Path.dump p).Plain :=
      .tagged (by decide) (by simpa using fun x hx => (path x hx).plain)
    exact .tagged (by decide) (by simpa using ⟨ih hforms, hpath⟩)
  | equal _ _ ih ih' | member _ _ ih ih' =>
    rw [forms, List.forall_mem_append] at hforms
    exact .tagged (by decide) (by simpa using ⟨ih hforms.1, ih' hforms.2⟩)
  | isInstance _ type ih => exact .tagged (by decide) (by simpa using ⟨ih hforms, type.plain⟩)
  | nonEmpty _ ih | present _ ih => exact .tagged (by decide) (by simpa using ih hforms)

end Expr.Spelled

namespace Step.Spelled

theorem dumpable {s : Step} (h : s.Spelled) : s.Dumpable := by
  cases h with
  | generate _ e | assign _ e | guard e | whilst e => exact e.dumpable
  | assignAll bindings => exact fun b hb => (bindings b hb).2.dumpable

theorem plain {s : Step} (h : s.Spelled) (hforms : ∀ f ∈ s.forms, IsWord f.displayed) :
    s.dump.Plain := by
  cases h with
  | generate name e | assign name e =>
    exact .tagged (by decide) (by simpa using ⟨.symbol name, e.plain hforms⟩)
  | guard e | whilst e => exact .tagged (by decide) (by simpa using e.plain hforms)
  | @assignAll bs bindings =>
    refine .tagged (by decide) fun p hp => ?_
    obtain ⟨b, hb, rfl⟩ := List.mem_map.1 hp
    have hvalue : b.2.dump.Plain := (bindings b hb).2.plain fun f hf =>
      hforms f (List.mem_flatMap.2 ⟨b, hb, hf⟩)
    exact .list (by simpa using ⟨.symbol (bindings b hb).1, hvalue⟩)

/-- What is declared together is spelled out one by one. -/
theorem expanded {s : Step} (h : s.Spelled) : ∀ x ∈ s.expanded, x.Spelled := by
  cases h with
  | generate name e =>
    simpa [Step.expanded] using .generate name e
  | assign name e => simpa [Step.expanded] using .assign name e
  | guard e => simpa [Step.expanded] using .guard e
  | whilst e => simpa [Step.expanded] using .whilst e
  | @assignAll bs bindings =>
    intro x hx
    obtain ⟨b, hb, hx⟩ := List.mem_flatMap.1 hx
    obtain ⟨hname, hvalue⟩ := bindings b hb
    simp only [List.mem_cons, List.not_mem_nil, or_false] at hx
    rcases hx with rfl | rfl
    · exact .assign hname hvalue
    · exact .guard (.present (.var hname))

end Step.Spelled

-- ---------------------------------------------------------------------------
-- What patterns hand on
-- ---------------------------------------------------------------------------

/-- The name and the type of a token, and the names that it binds, can be written. -/
def Token.Spelled (t : Token) : Prop :=
  t.IsWritable ∨ ∃ c i, t = .constraint ⟨c, i⟩ ∧ ∀ name ∈ c.names, isName name = true

/-- The tokens of a pattern can be written. -/
theorem Token.spelled_of_classify {es : List Element} {ts : List Token} (h : classify es = .ok ts) :
    ∀ t ∈ ts, t.Spelled := by
  rw [classify_eq_ok_iff] at h
  generalize 0 = i at h
  induction h with
  | nil i => simp
  | marker starts marker taken rest ih =>
    exact List.forall_mem_cons.2 ⟨.inr ⟨_, _, rfl, isName_of_constraint? taken⟩, ih⟩
  | @token i s t es ts starts text rest ih =>
    refine List.forall_mem_cons.2 ⟨.inl ?_, ih⟩
    have hwritable := isWritable_of_read? text
    cases t <;> exact hwritable

/-- The names and types of a graph, and the names that its constraints bind, can be written. -/
structure PatternGraph.Spelled (g : PatternGraph) : Prop where
  node : ∀ nd ∈ g.nodes, Writable nd.name? nd.typeName? ∧
    ∀ c, nd.constraint? = some c → ∀ name ∈ c.names, isName name = true
  edge : ∀ e ∈ g.edges, Writable e.name? e.typeName?

namespace PatternGraph.Drawing

variable {cx : Context} {g g₀ : PatternGraph} {ts : List Token}

/-- A node gets its name and type from the token that makes it. -/
theorem writable_of_madeNode? (hts : ∀ t ∈ ts, t.Spelled) {i : Nat} {nd : PatternNode}
    (h : madeNode? cx ts i = some nd) : Writable nd.name? nd.typeName? ∧
      ∀ c, nd.constraint? = some c → ∀ name ∈ c.names, isName name = true := by
  rcases madeNode?_cases h with ⟨t, ht, -, rfl⟩ | ⟨t, ht, rfl⟩
  · rcases hts _ (List.mem_of_getElem? ht) with hwritable | ⟨c, i, hc, -⟩
    · refine ⟨hwritable, fun c hc => ?_⟩
      cases hc
    · cases hc
  · rcases hts _ (List.mem_of_getElem? ht) with hwritable | ⟨c, i, hc, hnames⟩
    · exact hwritable.elim
    · cases hc
      exact ⟨writable_none, fun c' hc' => Option.some.inj hc' ▸ hnames⟩

/-- An edge gets its name and type from the token that makes it. -/
theorem writable_of_madeEdge? (hts : ∀ t ∈ ts, t.Spelled) {i : Nat} {e : PatternEdge}
    (h : madeEdge? cx ts i = some e) : Writable e.name? e.typeName? := by
  rcases madeEdge?_cases h with ⟨t, ht, rfl⟩ | ⟨t, -, rfl⟩
  · rcases hts _ (List.mem_of_getElem? ht) with hwritable | ⟨c, i, hc, -⟩
    · exact hwritable
    · cases hc
  · exact writable_none

/-- The anchor and its edges have no names and no types, and all others have those of tokens. -/
theorem Drawn.spelled (h : Drawn cx ts g₀ g) (hts : ∀ t ∈ ts, t.Spelled) : g.Spelled where
  node nd hnd := by
    rw [h.nodes_eq] at hnd
    rcases List.mem_cons.1 hnd with rfl | hnd
    · refine ⟨writable_none, fun c hc => ?_⟩
      cases hc
    · obtain ⟨i, -, hmade⟩ := List.mem_filterMap.1 hnd
      exact writable_of_madeNode? hts hmade
  edge e he := by
    rw [h.rooted.anchors.edges, h.draws.edges] at he
    rcases List.mem_append.1 he with he | he
    · obtain ⟨i, -, hmade⟩ := List.mem_filterMap.1 he
      exact writable_of_madeEdge? hts hmade
    · obtain ⟨n, -, rfl⟩ := List.mem_map.1 he
      exact writable_none

end PatternGraph.Drawing

theorem Writable.isWord {name? typeName? : Option String} (h : Writable name? typeName?)
    {name : String} (hname : name? = some name) : IsWord name := by
  obtain ⟨hne, hletters⟩ := h.1 name hname
  exact (isQuotable_of_letters (mt String.toList_eq_nil_iff.2 hne) fun c hc =>
    .inl (.inl (hletters c hc))).1

theorem Writable.isQuotable {name? typeName? : Option String} (h : Writable name? typeName?)
    {type : String} (htype : typeName? = some type) : IsQuotable type := by
  obtain ⟨hne, hletters⟩ := h.2 type htype
  exact isQuotable_of_letters (mt String.toList_eq_nil_iff.2 hne) fun c hc => .inl (hletters c hc)

theorem Writable.spelled {name? typeName? : Option String} (h : Writable name? typeName?) :
    TypeMark.ofName? typeName? = .any ∨ (TypeMark.ofName? typeName?).Spelled := by
  cases typeName? with
  | none => exact .inl rfl
  | some type => exact .inr ⟨type, rfl, h.isQuotable rfl⟩

-- ---------------------------------------------------------------------------
-- What visits emit
-- ---------------------------------------------------------------------------

namespace PatternGraph.Spelled

variable {cx : Context} {g : PatternGraph}
variable (h : g.Spelled)
include h

theorem node? {n : NodeId} {nd : PatternNode} (hnd : g.node? n = some nd) :
    Writable nd.name? nd.typeName? :=
  (h.node nd (Plan.mem_nodes_of_node? hnd)).1

theorem edge? {k : EdgeId} {e : PatternEdge} (he : g.edge? k = some e) :
    Writable e.name? e.typeName? :=
  h.edge e (List.mem_of_getElem? he)

theorem var (n : NodeId) : (Expr.var (Plan.varOf g n)).Spelled := by
  refine .var ?_
  rw [Plan.varOf]
  split
  · rename_i name hname
    obtain ⟨nd, hnd, hname⟩ := Option.bind_eq_some_iff.1 hname
    exact (h.node? hnd).isWord hname
  · exact isWord_hidden _

end PatternGraph.Spelled

namespace Chain

theorem spelled_restriction {nd : PatternNode} (h : Writable nd.name? nd.typeName?) :
    ∀ x ∈ restriction nd, x.Spelled := by
  unfold restriction
  split
  · rename_i t _ ht
    split
    · simp
    · exact List.forall_mem_singleton.2 (.restrict ⟨t, rfl, h.isQuotable ht⟩)
  · simp

theorem spelled_segment {cx : Context} {e : PatternEdge} {d : Direction} {segment : Segment}
    (h : Writable e.name? e.typeName?) (hs : cx.edgeSegment e d = .ok segment) :
    segment.Spelled := by
  rw [(edgeSegment_ok hs).1]
  exact .step h.spelled

theorem Walks.spelled {cx : Context} {g : PatternGraph} {n : NodeId} {visited : List Handle}
    {c : Chain} (h : Walks cx g n visited c) (hg : g.Spelled) : ∀ x ∈ c.path, x.Spelled := by
  induction h with
  | stop node | last node | openEnd node => exact spelled_restriction (hg.node? node)
  | @step n nd visited left i e segment rest node _ pending only _ segment_ok _ ih =>
    have hmem : (i, e) ∈ left := (List.mem_filter.1 (only ▸ List.mem_singleton_self (i, e))).1
    have he : Writable e.name? e.typeName? := hg.edge? (edge?_of_pending pending hmem)
    exact List.forall_mem_append.2 ⟨spelled_restriction (hg.node? node),
      List.forall_mem_cons.2 ⟨spelled_segment he segment_ok, ih⟩⟩

end Chain

namespace Plan

variable {cx : Context} {g g₀ : PatternGraph} {em : Emission} {visited more : List Handle}

theorem spelled_constraintStep {c : Constraint} (h : ∀ name ∈ c.names, isName name = true) :
    (constraintStep c).Spelled := by
  cases c with
  | when f => exact .guard (.call f)
  | whilst f => exact .whilst (.call f)
  | bind bs =>
    refine .assignAll fun x hx => ?_
    obtain ⟨b, hb, rfl⟩ := List.mem_map.1 hx
    exact ⟨isWord_of_isName (h _ (List.mem_map_of_mem hb)), .call b.2⟩

theorem Splices.spelled {n : NodeId} {marks : List Handle} {steps : List Step}
    (h : Splices g n visited steps marks) (hg : g.Spelled) : ∀ s ∈ steps, s.Spelled := by
  have hstep : ∀ {n : NodeId} {nd : PatternNode} {c : Constraint}, g.node? n = some nd →
      nd.constraint? = some c → (constraintStep c).Spelled := fun node form =>
    spelled_constraintStep ((hg.node _ (mem_nodes_of_node? node)).2 _ form)
  induction h with
  | last node form => exact List.forall_mem_singleton.2 (hstep node form)
  | next node form _ _ ih => exact List.forall_mem_cons.2 ⟨hstep node form, ih⟩

theorem ChainEmits.spelled {start : Expr} {c : Chain} (h : ChainEmits g start c visited em more)
    (hg : g.Spelled) (hstart : start.Spelled) (hpath : ∀ x ∈ c.path, x.Spelled) :
    ∀ s ∈ em.steps, s.Spelled := by
  have hreach : (Expr.reachable start c.path).Spelled := .reachable hstart hpath
  have hvar := hg.var c.terminal
  cases h with
  | known => exact List.forall_mem_singleton.2 (.guard (.member hvar hreach))
  | closed => exact List.forall_mem_singleton.2 (.guard (.nonEmpty hreach))
  | bound =>
    cases hvar with
    | var name => exact List.forall_mem_singleton.2 (.generate name hreach)

theorem spelled_typeTest {name : String} {t? : Option String} (hname : IsWord name)
    (ht : Writable none t?) : ∀ s ∈ typeTest name t?, s.Spelled := by
  unfold typeTest
  split
  · rename_i t
    split
    · simp
    · exact List.forall_mem_singleton.2 (.guard (.isInstance (.var hname) ⟨t, rfl, ht.isQuotable rfl⟩))
  · simp

theorem FarEmits.spelled {i : Incidence} {edge : Expr} (h : FarEmits cx g i edge visited em more)
    (hg : g.Spelled) (hedge : edge.Spelled) : ∀ s ∈ em.steps, s.Spelled := by
  cases h with
  | known => exact List.forall_mem_singleton.2 (.guard (.equal (hg.var _) (.edgeEnd hedge)))
  | named node _ _ named =>
    have hnode := hg.node? node
    refine List.forall_mem_cons.2 ⟨.assignAll (List.forall_mem_singleton.2
      ⟨hnode.isWord named, .edgeEnd hedge⟩), ?_⟩
    exact spelled_typeTest (hnode.isWord named) ⟨nofun, hnode.2⟩
  | chain _ _ _ walks emits => exact ChainEmits.spelled emits hg (.edgeEnd hedge) (walks.spelled hg)

theorem Emits.spelled {x : Entry} (h : Emits cx g visited x em more) (hg : g.Spelled) :
    ∀ s ∈ em.steps, s.Spelled := by
  cases h with
  | anchor | start => simp
  | @place n nd es node =>
    have hvar := hg.var n
    cases hvar with
    | var name =>
      exact List.forall_mem_singleton.2 (.generate name (.instances (hg.node? node).spelled))
  | argument node _ named =>
    have hname := (hg.node? node).isWord named
    exact List.forall_mem_singleton.2 (.assign hname (.argument hname))
  | constraints _ _ splices => exact splices.spelled hg
  | chain edge _ _ segment_ok walks emits =>
    exact ChainEmits.spelled emits hg (hg.var _) (List.forall_mem_cons.2
      ⟨Chain.spelled_segment (hg.edge? edge) segment_ok, walks.spelled hg⟩)
  | argumentEdge edge _ named far =>
    have hvar : (Expr.var _).Spelled := .var ((hg.edge? edge).isWord named)
    exact List.forall_mem_cons.2
      ⟨.guard (.equal (hg.var _) (.edgeEnd hvar)), FarEmits.spelled far hg hvar⟩
  | namedEdge edge _ named _ far =>
    have hname := (hg.edge? edge).isWord named
    exact List.forall_mem_cons.2 ⟨.generate hname (.adjacent (hg.var _) (hg.edge? edge).spelled),
      FarEmits.spelled far hg (.var hname)⟩

theorem Explores.spelled {binds visited' binds' : List Handle} {stack : List Entry}
    {steps : List Step} (h : Explores cx g₀ g visited binds stack steps visited' binds')
    (hg : g.Spelled) : ∀ s ∈ steps, s.Spelled := by
  induction h with
  | done => simp
  | skip _ _ ih => exact ih
  | visit _ _ emits _ ih => exact List.forall_mem_append.2 ⟨Emits.spelled emits hg, ih⟩

end Plan

/-- All that a compiled plan has from the pattern is spelled out. -/
theorem Context.spelled_of_compile {cx : Context} {p : Plan} (h : cx.compile = .ok p) :
    ∀ s ∈ p.steps, s.Spelled := by
  obtain ⟨g, q, hg, hq, -, rfl⟩ := compile_ok h
  obtain ⟨ts, g₀, hts, hdrawn⟩ := drawn_of_anchoredGraph hg
  obtain ⟨-, -, -, visited, binds, hexplores, -⟩ := Plan.explores_of_ofGraph hdrawn.rooted hq
  have hsteps := Plan.Explores.spelled hexplores (hdrawn.spelled (Token.spelled_of_classify hts))
  intro s hs
  obtain ⟨t, ht, hs⟩ := List.mem_flatMap.1 hs
  exact (hsteps t ht).expanded s hs

-- ---------------------------------------------------------------------------
-- Dumps
-- ---------------------------------------------------------------------------

namespace Plan

/-- The arguments are named by words, and forms are shown by words. -/
structure Worded (p : Plan) : Prop where
  arguments : ∀ a ∈ p.arguments, IsWord a
  forms : ∀ s ∈ p.steps, ∀ f ∈ s.forms, IsWord f.displayed

variable {p q : Plan}

theorem dumpable_of_spelled (h : ∀ s ∈ p.steps, s.Spelled) (hp : p.Worded) : p.Dumpable where
  steps s hs := (h s hs).dumpable
  arguments a ha := (hp.arguments a ha).1

/-- Dumps of plans that are spelled out are plain. -/
theorem plain_dump (h : ∀ s ∈ p.steps, s.Spelled) (hp : p.Worded) : p.dump.Plain := by
  rw [dump_eq]
  refine .tagged (by decide) fun x hx => ?_
  simp only [List.mem_cons, List.mem_map] at hx
  rcases hx with rfl | rfl | rfl | rfl | ⟨s, hs, rfl⟩
  · exact .symbol (by decide)
  · exact .symbol (by cases p.engine <;> decide)
  · exact .symbol (by decide)
  · refine .list fun x hx => ?_
    obtain ⟨a, ha, rfl⟩ := List.mem_map.1 hx
    exact .symbol (hp.arguments a ha)
  · exact (h s hs).plain (hp.forms s hs)

/-- Plans with one pretty form are equal but for their forms, and these are shown alike. -/
theorem pretty_eq_iff (h : ∀ s ∈ p.steps, s.Spelled) (hp : p.Worded)
    (h' : ∀ s ∈ q.steps, s.Spelled) (hq : q.Worded) :
    p.pretty = q.pretty ↔ p.labelled = q.labelled := by
  constructor
  · intro heq
    have htext : p.dump.pretty 0 = q.dump.pretty 0 := heq
    have hlexemes : p.dump.lexemes = q.dump.lexemes := by
      rw [lexemes, lexemes, ← cut_pretty 0, ← cut_pretty 0, htext]
    have hdump : p.dump = q.dump :=
      (plain_dump h hp).eq_of_lexemes_eq (plain_dump h' hq) hlexemes
    have hread : some p.labelled = some q.labelled := by
      rw [← ofDump?_dump (dumpable_of_spelled h hp), hdump, ofDump?_dump (dumpable_of_spelled h' hq)]
    exact Option.some.inj hread
  · intro heq
    rw [pretty, pretty, ← p.dump_labelled, heq, q.dump_labelled]

end Plan

theorem spelled_of_compile {arguments : List String} {pattern engine : Element} {p : Plan}
    (h : compile arguments pattern engine = .ok p) : ∀ s ∈ p.steps, s.Spelled := by
  cases hrequest : Context.ofRequest arguments pattern engine with
  | error f =>
    rw [compile, hrequest] at h
    cases h
  | ok cx => exact Context.spelled_of_compile ((compile_of_ofRequest hrequest).symm.trans h)

/-- If arguments and forms are shown by words, the pretty form of a compiled plan is cut into the same
parentheses and words as the dump on one line, however it is laid out; and compiled plans with one
pretty form are equal with nothing left of their forms but the words that show them. -/
theorem compile_pretty {arguments arguments' : List String}
    {pattern pattern' engine engine' : Element} {p q : Plan}
    (hp : compile arguments pattern engine = .ok p)
    (hq : compile arguments' pattern' engine' = .ok q) (hpw : p.Worded) (hqw : q.Worded) :
    Lexeme.cut p.pretty.toList = Lexeme.cut p.dump.oneLine.toList ∧
      (p.pretty = q.pretty ↔ p.labelled = q.labelled) :=
  ⟨cut_pretty 0 p.dump,
    Plan.pretty_eq_iff (spelled_of_compile hp) hpw (spelled_of_compile hq) hqw⟩

/-- A way between two nodes, with a test of the second one. -/
def testedWay (form : Form) : Context :=
  { arguments := ["k"]
    elements := [.text "a<A>", .text "-->", .text "b<A>", .text ":when", .form form]
    engine := .graph }

def testedPlan (form : Form) : Plan :=
  { steps := [.generate "a" (.instances (.spec "A")),
      .generate "b" (.reachable (.var "a") [.step .out .any, .restrict (.spec "A")]),
      .guard (.call form)]
    arguments := ["k"], engine := .graph }

/-- Functions of one name. -/
def steep (id : String) : Form :=
  { id, name? := some "steep" }

theorem worded_testedPlan (id : String) : (testedPlan (steep id)).Worded where
  arguments := by
    rw [testedPlan, List.forall_mem_singleton]
    decide
  forms := by
    have hsteep : IsWord (steep id).displayed := by
      show IsWord "steep"
      decide
    simp [testedPlan, Step.forms, Expr.forms, hsteep]

/-- Another function of the same name gives another plan, which has the same pretty form. -/
theorem compile_pretty_testedPlan :
    compile ["k"] (.list (testedWay (steep "f")).elements) (.text "graph") =
        .ok (testedPlan (steep "f")) ∧
      compile ["k"] (.list (testedWay (steep "g")).elements) (.text "graph") =
        .ok (testedPlan (steep "g")) ∧
      testedPlan (steep "f") ≠ testedPlan (steep "g") ∧
      (testedPlan (steep "f")).pretty = (testedPlan (steep "g")).pretty ∧
      Lexeme.cut (testedPlan (steep "f")).pretty.toList =
        Lexeme.cut (testedPlan (steep "f")).dump.oneLine.toList := by
  have hf : (testedWay (steep "f")).compile = .ok (testedPlan (steep "f")) := by cbv
  have hg : (testedWay (steep "g")).compile = .ok (testedPlan (steep "g")) := by cbv
  have hf : compile ["k"] (.list (testedWay (steep "f")).elements) (.text "graph") =
      .ok (testedPlan (steep "f")) := (compile_of_ofRequest rfl).trans hf
  have hg : compile ["k"] (.list (testedWay (steep "g")).elements) (.text "graph") =
      .ok (testedPlan (steep "g")) := (compile_of_ofRequest rfl).trans hg
  obtain ⟨hcut, hpretty⟩ := compile_pretty hf hg (worded_testedPlan "f") (worded_testedPlan "g")
  exact ⟨hf, hg, by decide, hpretty.2 rfl, hcut⟩

end GraphPattern
