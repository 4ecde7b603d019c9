import GraphPattern.Proofs.WalkCourse
import GraphPattern.Proofs.Segments

/-!
# GraphPattern — what the walk makes of each edge

Every edge of the graph is passed once, in one direction, and leaves its trace among the steps: an
unnamed edge of the model is a part of a path, an argument edge is tested at its near end, and the edge
to a constraint gives the steps of the constraint. Nothing else leaves traces of these kinds, so the
traces in a plan can be counted by the edges that were passed.

## Results

* `Plan.Emits.passes` — the passages of one visit, and their traces.
* `Plan.Explores.passes` — the passages of the walk from one state to another, each new.
-/

namespace GraphPattern

open PatternGraph

-- ---------------------------------------------------------------------------
-- Traces
-- ---------------------------------------------------------------------------

/-- The forms in an expression. -/
def Expr.forms : Expr → List Form
  | .call f => [f]
  | .reachable e _ | .adjacent e _ _ | .edgeEnd e _ _ | .isInstance e _ | .nonEmpty e | .present e =>
    e.forms
  | .equal l r | .member l r => l.forms ++ r.forms
  | .var _ | .argument _ | .unnamed | .instances _ | .foreign _ => []

/-- The forms in the expressions of a step. -/
def Step.forms : Step → List Form
  | .generate _ e | .assign _ e | .guard e | .whilst e => e.forms
  | .assignAll bs => bs.flatMap fun b => b.2.forms
  | .foreign _ => []

/-- The step calls a form. -/
def Step.callsForm (s : Step) : Bool :=
  !s.forms.isEmpty

/-- The step tests what an edge comes from. -/
def Step.testsNearEnd : Step → Bool
  | .guard (.equal _ (.edgeEnd _ _ false)) => true
  | _ => false

/-- The part follows edges. -/
def Segment.follows : Segment → Bool
  | .step _ _ => true
  | .restrict _ | .foreign _ => false

/-- The steps that call the forms of a constraint. -/
def Constraint.steps : Constraint → List Step
  | .when f => [.guard (.call f)]
  | .whilst f => [.whilst (.call f)]
  | .bind bs => bs.map fun b => .assign b.1 (.call b.2)

/-- The end of an edge at which it is followed in a direction. -/
def PatternEdge.near (e : PatternEdge) : Direction → NodeId
  | .out => e.alpha
  | .into => e.omega

/-- The part of a path that an edge becomes if it has no name. -/
def PatternEdge.segment? (e : PatternEdge) (d : Direction) : Option Segment :=
  if e.structural && e.anonymous then some (.step d (.ofName? e.typeName?)) else none

namespace PatternGraph

/-- The test of the near end of an argument edge. -/
def nearEndTest? (g : PatternGraph) (e : PatternEdge) (d : Direction) : Option Step :=
  match e.kind, e.name? with
  | .argument, some name =>
    some (.guard (.equal (.var (Plan.varOf g (e.near d))) (.edgeEnd (.var name) d false)))
  | _, _ => none

/-- The constraint that an edge leads to. -/
def hung? (g : PatternGraph) (e : PatternEdge) : Option Constraint :=
  if e.kind = .precedes then (g.node? e.omega).bind (·.constraint?) else none

end PatternGraph

/-- An edge that is passed in a direction. -/
structure Passage where
  id : EdgeId
  edge : PatternEdge
  direction : Direction

namespace Plan

/-- The steps that some steps are expanded to. -/
def expandAll (steps : List Step) : List Step :=
  steps.flatMap Step.expanded

theorem expandAll_append (steps steps' : List Step) :
    expandAll (steps ++ steps') = expandAll steps ++ expandAll steps' :=
  List.flatMap_append

theorem callsForm_constraintStep (c : Constraint) :
    (constraintStep c).expanded.filter Step.callsForm = c.steps := by
  cases c with
  | when f | whilst f => rfl
  | bind bs =>
    induction bs with
    | nil => rfl
    | cons b bs ih =>
      simp only [constraintStep, Step.expanded, Constraint.steps, List.map_cons, List.flatMap_cons,
        List.filter_append] at ih ⊢
      rw [ih]
      rfl

theorem testsNearEnd_constraintStep (c : Constraint) :
    (constraintStep c).expanded.filter Step.testsNearEnd = [] := by
  cases c with
  | when f | whilst f => rfl
  | bind bs =>
    induction bs with
    | nil => rfl
    | cons b bs ih =>
      simp only [constraintStep, Step.expanded, List.map_cons, List.flatMap_cons,
        List.filter_append] at ih ⊢
      rw [ih]
      rfl

/-- The traces in some steps are those of some passages. -/
structure Traced (g : PatternGraph) (ps : List Passage) (steps : List Step) : Prop where
  segments : ((pathsOf steps).filter Segment.follows).Perm
    (ps.filterMap fun p => p.edge.segment? p.direction)
  nearEnds : ((expandAll steps).filter Step.testsNearEnd).Perm
    (ps.filterMap fun p => g.nearEndTest? p.edge p.direction)
  forms : ((expandAll steps).filter Step.callsForm).Perm
    ((ps.filterMap fun p => g.hung? p.edge).flatMap Constraint.steps)

/-- Passages that are new, each of another edge, and pass exactly the edges among some marks. -/
structure Passes (g : PatternGraph) (visited marks : List Handle) (ps : List Passage) : Prop where
  edge : ∀ p ∈ ps, g.edge? p.id = some p.edge
  fresh : ∀ p ∈ ps, Handle.edge p.id ∉ visited
  nodup : (ps.map (·.id)).Nodup
  marked : ∀ k, .edge k ∈ marks ↔ k ∈ ps.map (·.id)

namespace Traced

variable {g : PatternGraph} {ps ps' : List Passage} {steps steps' : List Step}

theorem nil : Traced g [] [] :=
  ⟨.nil, .nil, .nil⟩

theorem append (h : Traced g ps steps) (h' : Traced g ps' steps') :
    Traced g (ps ++ ps') (steps ++ steps') := by
  constructor
  · rw [pathsOf_append, List.filter_append, List.filterMap_append]
    exact h.segments.append h'.segments
  · rw [expandAll_append, List.filter_append, List.filterMap_append]
    exact h.nearEnds.append h'.nearEnds
  · rw [expandAll_append, List.filter_append, List.filterMap_append, List.flatMap_append]
    exact h.forms.append h'.forms

/-- Steps without traces. -/
theorem untraced (hseg : pathsOf steps = [])
    (hnear : (expandAll steps).filter Step.testsNearEnd = [])
    (hforms : (expandAll steps).filter Step.callsForm = []) : Traced g [] steps := by
  refine ⟨?_, ?_, ?_⟩
  · rw [hseg]
    exact .nil
  · rw [hnear]
    exact .nil
  · rw [hforms]
    exact .nil

/-- A passage that leaves no trace. -/
theorem silent {p : Passage} (h : Traced g ps steps)
    (hseg : p.edge.segment? p.direction = none)
    (hnear : g.nearEndTest? p.edge p.direction = none) (hhung : g.hung? p.edge = none) :
    Traced g (p :: ps) steps := by
  refine ⟨?_, ?_, ?_⟩
  · simp only [List.filterMap_cons, hseg]
    exact h.segments
  · simp only [List.filterMap_cons, hnear]
    exact h.nearEnds
  · simp only [List.filterMap_cons, hhung]
    exact h.forms

end Traced

namespace Passes

variable {g : PatternGraph} {visited marks marks' : List Handle} {ps ps' : List Passage}

theorem none (hmarks : ∀ k, Handle.edge k ∉ marks) : Passes g visited marks [] :=
  ⟨by simp, by simp, by simp, fun k => by simp [hmarks k]⟩

/-- One more passage before the others. -/
theorem cons {p : Passage} (hp : g.edge? p.id = some p.edge) (hfresh : Handle.edge p.id ∉ visited)
    (h : Passes g (.edge p.id :: visited) marks ps)
    (hmarks : ∀ k, .edge k ∈ marks' ↔ k = p.id ∨ .edge k ∈ marks) :
    Passes g visited marks' (p :: ps) where
  edge := by
    intro q hq
    rcases List.mem_cons.1 hq with rfl | hq
    · exact hp
    · exact h.edge q hq
  fresh := by
    intro q hq
    rcases List.mem_cons.1 hq with rfl | hq
    · exact hfresh
    · exact fun hv => h.fresh q hq (List.mem_cons_of_mem _ hv)
  nodup := by
    rw [List.map_cons, List.nodup_cons]
    refine ⟨fun hmem => ?_, h.nodup⟩
    obtain ⟨q, hq, heq⟩ := List.mem_map.1 hmem
    exact h.fresh q hq (by rw [heq]; simp)
  marked := by
    intro k
    rw [hmarks, h.marked, List.map_cons, List.mem_cons]

/-- What is new after some nodes were visited is new. -/
theorem weaken {seen : List Handle} (h : Passes g seen marks ps)
    (hsub : ∀ k, Handle.edge k ∈ visited → Handle.edge k ∈ seen)
    (hmarks : ∀ k, Handle.edge k ∈ marks' ↔ .edge k ∈ marks) : Passes g visited marks' ps :=
  ⟨h.edge, fun p hp hv => h.fresh p hp (hsub _ hv), h.nodup, fun k => by rw [hmarks, h.marked]⟩

end Passes

-- ---------------------------------------------------------------------------
-- Chains
-- ---------------------------------------------------------------------------

variable {cx : Context} {g g₀ : PatternGraph} {visited binds : List Handle} {rest : List Entry}

/-- Passages along unnamed edges of the model. -/
def Plain (ps : List Passage) : Prop :=
  ∀ p ∈ ps, p.edge.structural = true ∧ p.edge.anonymous = true

theorem Plain.nearEnds {ps : List Passage} (h : Plain ps) :
    (ps.filterMap fun p => g.nearEndTest? p.edge p.direction) = [] := by
  rw [List.filterMap_eq_nil_iff]
  intro p hp
  have hanon := (h p hp).2
  rw [PatternEdge.anonymous, Option.isNone_iff_eq_none] at hanon
  rw [nearEndTest?, hanon]
  cases p.edge.kind <;> rfl

theorem Plain.hung {ps : List Passage} (h : Plain ps) :
    (ps.filterMap fun p => g.hung? p.edge) = [] := by
  rw [List.filterMap_eq_nil_iff]
  intro p hp
  have hs := (h p hp).1
  rw [hung?, if_neg]
  intro hk
  rw [PatternEdge.structural, hk] at hs
  cases hs

theorem follows_restriction (nd : PatternNode) :
    (Chain.restriction nd).filter Segment.follows = [] := by
  unfold Chain.restriction
  split
  · split <;> rfl
  · rfl

/-- The path of a chain follows the edges that the chain passes. -/
theorem passes_of_walks (hg : g.Regular cx) {n : NodeId} {c : Chain} (hn : g.IsPlace n)
    (h : Chain.Walks cx g n visited c) : ∃ ps, Passes g visited c.elements ps ∧ Plain ps ∧
      c.path.filter Segment.follows = ps.filterMap fun p => p.edge.segment? p.direction := by
  induction h with
  | stop => exact ⟨[], .none (by simp), by simp [Plain], follows_restriction _⟩
  | last => exact ⟨[], .none (by simp), by simp [Plain], follows_restriction _⟩
  | openEnd => exact ⟨[], .none (by simp), by simp [Plain], follows_restriction _⟩
  | @step n nd visited left i e segment rest node fresh pending only anonymous segment_ok _ ih =>
    obtain ⟨hi, -, hnew, he, hs⟩ := Chain.incident_of_only hg.consistent hn.1 pending only
    obtain ⟨ps, hpasses, hplain, hpath⟩ := ih (hg.isPlace_that hi hs)
    have hstruct : e.structural = true := by
      obtain ⟨e', he', hk⟩ := hs
      rw [he] at he'
      cases he'
      exact hk
    refine ⟨⟨i.edge, e, i.direction⟩ :: ps, ?_, ?_, ?_⟩
    · refine .cons he hnew (hpasses.weaken ?_ fun k => Iff.rfl) ?_
      · exact fun k hk => by simpa using hk
      · intro k
        simp
    · intro p hp
      rcases List.mem_cons.1 hp with rfl | hp
      · exact ⟨hstruct, anonymous⟩
      · exact hplain p hp
    · rw [List.filter_append, follows_restriction, List.nil_append,
        (edgeSegment_ok segment_ok).1, List.filter_cons_of_pos rfl, hpath, List.filterMap_cons_some]
      simp [PatternEdge.segment?, hstruct, anonymous]

/-- A chain leaves the traces of its edges, whatever it becomes. -/
theorem ChainEmits.traced {start : Expr} {c : Chain} {em : Emission} {bs : List Handle}
    {ps : List Passage} (h : ChainEmits g start c visited em bs) (hsegments : start.segments = [])
    (hforms : start.forms = []) (hplain : Plain ps)
    (hpath : c.path.filter Segment.follows = ps.filterMap fun p => p.edge.segment? p.direction) :
    Traced g ps em.steps := by
  have hall : ∀ s : Step, s.segments = c.path → s.expanded = [s] → s.testsNearEnd = false →
      s.forms = [] → Traced g ps [s] := by
    intro s hseg hexp hnear hno
    have hone : expandAll [s] = [s] := by
      rw [expandAll, List.flatMap_singleton, hexp]
    constructor
    · rw [pathsOf, List.flatMap_singleton, hseg, hpath]
    · rw [hone, hplain.nearEnds, List.filter_cons_of_neg (by simp [hnear])]
      exact .nil
    · rw [hone, hplain.hung, List.filter_cons_of_neg (by simp [Step.callsForm, hno])]
      exact .nil
  cases h <;> exact hall _ (by simp [Step.segments, Expr.segments, hsegments]) rfl rfl
    (by simp [Step.forms, Expr.forms, hforms])

-- ---------------------------------------------------------------------------
-- Visits
-- ---------------------------------------------------------------------------

/-- The far end of an edge that is bound leaves no trace, but the chain behind it does. -/
theorem FarEmits.passes (hg : g.Regular cx) {i : Incidence} {name : String} {em : Emission}
    {bs : List Handle} (hthat : g.IsPlace i.that)
    (h : FarEmits cx g i (.var name) visited em bs) :
    ∃ ps, Passes g visited em.marks ps ∧ Traced g ps em.steps := by
  cases h with
  | known => exact ⟨[], .none (by simp), .untraced rfl rfl rfl⟩
  | @named nd es own node pending fresh named =>
    refine ⟨[], .none (by simp), ?_⟩
    have htest : ∀ type?, Traced g [] (typeTest own type?) := by
      intro type?
      unfold typeTest
      split
      · split
        · exact .nil
        · exact .untraced rfl rfl rfl
      · exact .nil
    have hbind : Traced g [] [.assignAll [(own, .edgeEnd (.var name) i.direction true)]] :=
      .untraced rfl rfl rfl
    exact hbind.append (htest nd.typeName?)
  | @chain nd c em bs node fresh anonymous walks emits =>
    obtain ⟨ps, hpasses, hplain, hpath⟩ := passes_of_walks hg hthat walks
    have hmarks := (Frontier.ChainEmits.parts emits).1
    exact ⟨ps, hmarks ▸ hpasses, emits.traced rfl rfl hplain hpath⟩

/-- What hangs on an edge is the constraint that the edge is followed to. -/
theorem hung?_of_incident {i : Incidence} {e : PatternEdge} (hi : g.Incident i)
    (he : g.edge? i.edge = some e) (hk : e.kind = .precedes) (hd : i.direction = .out) :
    g.hung? e = (g.node? i.that).bind (·.constraint?) := by
  have homega : e.omega = i.that := by
    rw [hi.eq_seen he, hd]
    rfl
  rw [hung?, if_pos hk, homega]

/-- Constraints that are spliced are passed one by one. -/
theorem Splices.passes (hr : Rooted cx g₀ g) {n : NodeId} {steps : List Step}
    {marks : List Handle} (h : Splices g n visited steps marks) (hn : g.IsConstraint n)
    (hled : LedTo g n visited) :
    ∃ c ps, (g.node? n).bind (·.constraint?) = some c ∧ Passes g visited marks ps ∧
      (∀ p ∈ ps, p.edge.kind = .precedes) ∧
      steps = (c :: ps.filterMap fun p => g.hung? p.edge).map constraintStep := by
  induction h with
  | @last n nd c visited node form next =>
    exact ⟨c, [], by rw [node]; exact form, .none (by simp), by simp, rfl⟩
  | @next n nd c visited i steps marks node form next rest ih =>
    obtain ⟨hi, hthis, hp, hnew, hd⟩ := leads_on hr hn hled next
    obtain ⟨c', ps, hc', hpasses, hprecedes, rfl⟩ :=
      ih (isConstraint_that hr hi hp hd) (ledTo_that hi hd (by simp))
    obtain ⟨e, he, hk⟩ := hp
    refine ⟨c, ⟨i.edge, e, i.direction⟩ :: ps, by rw [node]; exact form, ?_, ?_, ?_⟩
    · refine .cons he hnew (hpasses.weaken ?_ fun k => Iff.rfl) ?_
      · exact fun k hk => by simpa using hk
      · intro k
        simp
    · intro p hp
      rcases List.mem_cons.1 hp with rfl | hp
      · exact hk
      · exact hprecedes p hp
    · rw [List.filterMap_cons_some (b := c')]
      · rfl
      · exact (hung?_of_incident hi he hk hd).trans hc'

/-- The steps of some constraints, and the edges that lead to them. -/
theorem traced_constraints {ps : List Passage} {cs : List Constraint}
    (hprecedes : ∀ p ∈ ps, p.edge.kind = .precedes)
    (hcs : (ps.filterMap fun p => g.hung? p.edge) = cs) : Traced g ps (cs.map constraintStep) := by
  have hnone : ∀ p ∈ ps, p.edge.segment? p.direction = none ∧
      g.nearEndTest? p.edge p.direction = none := by
    intro p hp
    have hk := hprecedes p hp
    constructor
    · rw [PatternEdge.segment?, PatternEdge.structural, hk]
      rfl
    · simp only [nearEndTest?, hk]
  constructor
  · rw [List.filterMap_eq_nil_iff.2 fun p hp => (hnone p hp).1]
    have : pathsOf (cs.map constraintStep) = [] := by
      rw [pathsOf, List.flatMap_map]
      exact List.flatMap_eq_nil_iff.2 fun c _ => pathsOf_constraintStep c
    rw [this]
    exact .nil
  · rw [List.filterMap_eq_nil_iff.2 fun p hp => (hnone p hp).2]
    simp only [expandAll, List.flatMap_map, List.filter_flatMap, testsNearEnd_constraintStep]
    simp
  · rw [hcs]
    simp only [expandAll, List.flatMap_map, List.filter_flatMap, callsForm_constraintStep]
    exact .refl _

theorem near_of_incident {i : Incidence} {e : PatternEdge} (hi : g.Incident i)
    (he : g.edge? i.edge = some e) : e.near i.direction = i.this := by
  have hseen := hi.eq_seen he
  rw [hseen]
  cases i.direction <;> rfl

/-- An edge that is supplied leaves the test of its near end. -/
theorem traced_argument {i : Incidence} {e : PatternEdge} {name : String} (hi : g.Incident i)
    (he : g.edge? i.edge = some e) (hk : e.kind = .argument) (hname : e.name? = some name) :
    Traced g [⟨i.edge, e, i.direction⟩]
      [.guard (.equal (.var (varOf g i.this)) (.edgeEnd (.var name) i.direction false))] := by
  have hnear : g.nearEndTest? e i.direction =
      some (.guard (.equal (.var (varOf g i.this)) (.edgeEnd (.var name) i.direction false))) := by
    simp only [nearEndTest?, hk, hname, near_of_incident hi he]
  refine ⟨?_, ?_, ?_⟩
  · simp [PatternEdge.segment?, PatternEdge.anonymous, hname, pathsOf, Step.segments,
      Expr.segments]
  · simp only [List.filterMap_cons, hnear, List.filterMap_nil]
    exact .refl _
  · simp only [List.filterMap_cons, hung?, hk, List.filterMap_nil]
    exact .nil

/-- A named edge leaves nothing behind but its name. -/
theorem traced_named {e : PatternEdge} {k : EdgeId} {d : Direction} {name near : String}
    (hk : e.kind = .pattern) (hname : e.name? = some name) :
    Traced g [⟨k, e, d⟩] [.generate name (.adjacent (.var near) (.ofName? e.typeName?) d)] := by
  refine Traced.silent (.untraced rfl rfl rfl) ?_ ?_ ?_
  · simp [PatternEdge.segment?, PatternEdge.anonymous, hname]
  · simp only [nearEndTest?, hk]
  · simp [hung?, hk]

/-- The passages of one visit, and their traces. -/
theorem Emits.passes (hr : Rooted cx g₀ g) {x : Entry} {em : Emission} {bs : List Handle}
    (hf : Frontier g₀ g visited binds (x :: rest)) (hfresh : x.handle ∉ visited)
    (h : Emits cx g (x.handle :: visited) x em bs) :
    ∃ ps, Passes g visited (em.marks ++ [x.handle]) ps ∧ Traced g ps em.steps := by
  -- the edge itself comes before those that its visit passes
  have hfirst : ∀ {i : Incidence} {e : PatternEdge} {ps : List Passage},
      g.edge? i.edge = some e → Handle.edge i.edge ∉ visited →
      Passes g (.edge i.edge :: visited) em.marks ps →
      Passes g visited (em.marks ++ [.edge i.edge]) (⟨i.edge, e, i.direction⟩ :: ps) := by
    intro i e ps he hnew hps
    refine .cons he hnew hps fun k => ?_
    simp [or_comm]
  cases h with
  | anchor | place | argument =>
    exact ⟨[], .none (by simp [Entry.handle]), .untraced rfl rfl rfl⟩
  | @start i e edge kind =>
    refine ⟨_, hfirst edge hfresh (.none (by simp)), Traced.nil.silent ?_ ?_ ?_⟩
    · rw [PatternEdge.segment?, PatternEdge.structural, kind]
      rfl
    · simp only [nearEndTest?, kind]
    · simp [hung?, kind]
  | @constraints i e steps marks edge kind splices =>
    obtain ⟨hi, -, hthis⟩ := hf.along i (by simp)
    have hp : g.Precedes i := ⟨e, edge, kind⟩
    have hd := direction_of_precedes hr hi hp hthis
    obtain ⟨c, ps, hc, hpasses, hprecedes, rfl⟩ :=
      splices.passes hr (isConstraint_that hr hi hp hd) (ledTo_that hi hd (by simp [Entry.handle]))
    refine ⟨_, hfirst edge hfresh hpasses, traced_constraints ?_ ?_⟩
    · intro p hp
      rcases List.mem_cons.1 hp with rfl | hp
      · exact kind
      · exact hprecedes p hp
    · exact List.filterMap_cons_some ((hung?_of_incident hi edge kind hd).trans hc)
  | @chain i e segment c em bs edge kind anonymous segment_ok walks emits =>
    obtain ⟨hi, -, -⟩ := hf.along i (by simp)
    have hs : e.structural = true := by rw [PatternEdge.structural, kind]; rfl
    obtain ⟨ps, hpasses, hplain, hpath⟩ :=
      passes_of_walks hr.regular (hr.regular.isPlace_that hi ⟨e, edge, hs⟩) walks
    have hanon : e.anonymous = true := by simp [PatternEdge.anonymous, anonymous]
    refine ⟨⟨i.edge, e, i.direction⟩ :: ps, ?_, emits.traced rfl rfl ?_ ?_⟩
    · rw [(Frontier.ChainEmits.parts emits).1]
      refine .cons edge hfresh (hpasses.weaken ?_ fun k => Iff.rfl) fun k => ?_
      · exact fun k hk => List.mem_cons_of_mem _ hk
      · simp [Entry.handle, or_comm]
    · intro p hp
      rcases List.mem_cons.1 hp with rfl | hp
      · exact ⟨hs, hanon⟩
      · exact hplain p hp
    · rw [(edgeSegment_ok segment_ok).1, List.filter_cons_of_pos rfl, hpath,
        List.filterMap_cons_some]
      simp [PatternEdge.segment?, hs, hanon]
  | @argumentEdge i e name em bs edge kind named far =>
    obtain ⟨hi, -, -⟩ := hf.along i (by simp)
    obtain ⟨ps, hpasses, htraced⟩ :=
      far.passes hr.regular (hr.regular.isPlace_that hi (structural_of_argument edge kind))
    exact ⟨_, hfirst edge hfresh hpasses, (traced_argument hi edge kind named).append htraced⟩
  | @namedEdge i e name em bs edge kind named identity far =>
    obtain ⟨hi, -, -⟩ := hf.along i (by simp)
    obtain ⟨ps, hpasses, htraced⟩ :=
      far.passes hr.regular (hr.regular.isPlace_that hi (structural_of_pattern edge kind))
    exact ⟨_, hfirst edge hfresh hpasses, (traced_named kind named).append htraced⟩

-- ---------------------------------------------------------------------------
-- The walk
-- ---------------------------------------------------------------------------

/-- The passages of two stretches of the walk, one after the other. -/
theorem Passes.append {marks later : List Handle} {ps ps' : List Passage}
    (h : Passes g visited marks ps) (h' : Passes g (marks ++ visited) later ps') :
    Passes g visited (later ++ marks) (ps ++ ps') where
  edge := by
    intro p hp
    exact (List.mem_append.1 hp).elim (h.edge p) (h'.edge p)
  fresh := by
    intro p hp hv
    rcases List.mem_append.1 hp with hp | hp
    · exact h.fresh p hp hv
    · exact h'.fresh p hp (List.mem_append_right _ hv)
  nodup := by
    rw [List.map_append, List.nodup_append]
    refine ⟨h.nodup, h'.nodup, ?_⟩
    rintro k hk _ hk' rfl
    obtain ⟨p, hp, rfl⟩ := List.mem_map.1 hk'
    exact h'.fresh p hp (List.mem_append_left _ ((h.marked p.id).2 hk))
  marked := by
    intro k
    rw [List.mem_append, h.marked, h'.marked, List.map_append, List.mem_append, or_comm]

/-- The passages of the walk from one state to another, each new. -/
theorem Explores.passes (hr : Rooted cx g₀ g) {stack : List Entry} {steps : List Step}
    {visited' binds' : List Handle}
    (h : Explores cx g₀ g visited binds stack steps visited' binds') :
    ∃ marks ps, visited' = marks ++ visited ∧ Passes g visited marks ps ∧ Traced g ps steps := by
  induction h with
  | done => exact ⟨[], [], rfl, .none (by simp), .nil⟩
  | skip _ _ ih => exact ih
  | @visit visited binds visited' binds' own x em rest steps frontier fresh emits _ ih =>
    obtain ⟨ps, hpasses, htraced⟩ := emits.passes hr frontier fresh
    obtain ⟨marks, ps', rfl, hpasses', htraced'⟩ := ih
    refine ⟨marks ++ (em.marks ++ [x.handle]), ps ++ ps', by simp, ?_, htraced.append htraced'⟩
    refine hpasses.append ?_
    rw [List.append_assoc, List.singleton_append]
    exact hpasses'

end Plan

end GraphPattern
