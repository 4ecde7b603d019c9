import GraphPattern.Proofs.Assignments
import GraphPattern.Proofs.ObjectModels

/-!
# GraphPattern — matches in object models

A pattern of nodes and edges asks an object model for objects whose references lead from one to
another. References have no identity, so only the nodes of a pattern stand for something. The
matches of its plan are these choices of objects as far as the names of the pattern and the first
nodes of its components tell them apart.

## Results

* `ObjectModel.represent_assignments` — the matches of a plan represent the assignments of objects.
-/

namespace GraphPattern

open PatternGraph

namespace ObjectModel

variable (M : ObjectModel)

/-- An assignment of objects as a pattern asks for it. -/
structure Assignment (cx : Context) (args : Bindings) (ts : List Token) (a : Item → Value) :
    Prop where
  node : ∀ (i : Nat) t, ts[i]? = some (.node t) → ∃ n o, a ((Token.node t).item i) = .object n ∧
    M.object? n = some o ∧ typeMatches o.cls.lineage t.typeName? = true ∧
    (namesArgument cx t.name? = false → n ∈ M.allObjects none)
  edge : ∀ i s t d, Token.Between ts i s t d → ∃ n m o, a (Token.alpha i s t d) = .object n ∧
    a (Token.omega i s t d) = .object m ∧ M.object? n = some o ∧ m ∈ o.targets t.typeName?
  argument : ∀ t ∈ ts, ∀ name ∈ cx.arguments, t.name? = some name →
    args.get? name = some (a (.named name))

/-- All arguments are given, objects for argument nodes. -/
structure Supplies (cx : Context) (args : Bindings) (ts : List Token) : Prop where
  given : ∀ name ∈ cx.arguments, ∃ v, args.get? name = some v
  node : ∀ t, .node t ∈ ts → ∀ name ∈ cx.arguments, t.name? = some name →
    ∃ n o, args.get? name = some (.object n) ∧ M.object? n = some o

variable {M} {cx : Context} {s : Setting} {ts : List Token} {plan : Plan} {args : Bindings}

/-- Edges have no names, so none is given. -/
theorem Supplies.world (h : M.Supplies cx args ts)
    (hnone : ∀ t, .edge t ∈ ts → t.name? = none) : M.world.Supplies cx args ts where
  given := h.given
  node := by
    intro t ht name hmem hname v hv
    obtain ⟨n, o, hn, ho⟩ := h.node t ht name hmem hname
    rw [hv] at hn
    exact ⟨n, o, Option.some.inj hn, ho⟩
  edge := by
    intro t ht name _ hname
    rw [hnone t ht] at hname
    cases hname

/-- An assignment of objects is one that meets the tokens. -/
theorem meets_iff (hM : M.Consistent) (hr : M.Rooted) (hnone : ∀ t, .edge t ∈ ts → t.name? = none)
    {a : Item → Value} : M.world.Meets cx args ts a ↔ M.Assignment cx args ts a := by
  constructor
  · intro h
    refine { node := ?_, edge := ?_, argument := h.argument }
    · intro i t hi
      obtain ⟨hsuits, htyped⟩ := h.node i t hi
      cases harg : namesArgument cx t.name? with
      | true =>
        rw [if_pos harg] at hsuits
        obtain ⟨n, o, hn, ho⟩ := hsuits
        exact ⟨n, o, hn, ho, htyped n o hn ho, Bool.noConfusion⟩
      | false =>
        rw [if_neg (by rw [harg]; exact Bool.false_ne_true)] at hsuits
        obtain ⟨n, hn, hbelow⟩ := hsuits
        obtain ⟨o, ho⟩ := Option.isSome_iff_exists.1 (hM.isSome_of_below hbelow)
        exact ⟨n, o, hn, ho, htyped n o hn ho, fun _ => (mem_allObjects_none hM hr).2 hbelow⟩
    · intro i s t d hb
      have hlinked := h.linked i s t d hb (hnone t (List.mem_of_getElem? hb.edge))
      unfold Token.alpha Token.omega
      cases hd : t.direction <;> rw [hd] at hlinked <;> exact hlinked
  · intro h
    refine { node := ?_, linked := ?_, edge := ?_, argument := h.argument }
    · intro i t hi
      obtain ⟨n, o, hn, ho, htype, hmem⟩ := h.node i t hi
      refine ⟨?_, fun n' o' hn' ho' => ?_⟩
      · cases harg : namesArgument cx t.name? with
        | true => exact ⟨n, o, hn, ho⟩
        | false => exact ⟨n, hn, (mem_allObjects_none hM hr).1 (hmem harg)⟩
      · rw [hn] at hn'
        obtain rfl := Value.object.inj hn'
        rw [ho] at ho'
        obtain rfl := Option.some.inj ho'
        exact htype
    · intro i s t d hb _
      have hedge := h.edge i s t d hb
      unfold Token.alpha Token.omega at hedge
      cases hd : t.direction <;> rw [hd] at hedge <;> exact hedge
    · intro i s t d name hb hname
      rw [hnone t (List.mem_of_getElem? hb.edge)] at hname
      cases hname

-- ---------------------------------------------------------------------------
-- Matches
-- ---------------------------------------------------------------------------

/-- The matches of a plan are the assignments of objects that its pattern asks for: one for every
choice of objects for what has a name and for the first nodes of components that extends to an
assignment, and no match twice if all these nodes have names. -/
theorem represent_assignments (h : Compiles cx s ts plan) (hs : s.engine = .containment)
    (hm : s.model = .objects M) (hM : M.Consistent) (hr : M.Rooted) (hc : M.Closed)
    (hsupply : M.Supplies cx args ts) :
    ∃ m, Matches.of? s plan args none = .ok m ∧ m.plan = plan ∧
      m.Represent ts (M.Assignment cx args ts) ∧
      (∀ r, r ∈ m.all.results ↔
        ∃ a, M.Assignment cx args ts a ∧ r = tuple plan.resultNames a) ∧
      ((∀ (i : Nat) t, Token.Opens ts i → ts[i]? = some t → t.name?.isSome) →
        m.all.results.Nodup) := by
  have hnone : ∀ t, .edge t ∈ ts → t.name? = none := by
    intro t ht
    refine h.name?_of_edge ?_ ht
    rw [← h.engine, hs]
    rfl
  have huntyped : Token.Untyped cx ts := by
    intro t ht harg
    rw [hnone t ht] at harg
    cases harg
  obtain ⟨m, hof, hplan, hrep⟩ :=
    World.exists_matches (serves hM hr hc hs hm) h huntyped (hsupply.world hnone)
  have hassign : m.Represent ts (M.Assignment cx args ts) :=
    hrep.transfer (fun a ha => ⟨a, (meets_iff hM hr hnone).1 ha, fun _ _ => rfl⟩)
      fun a ha => (meets_iff hM hr hnone).2 ha
  refine ⟨m, hof, hplan, hassign, fun r => ?_, fun hopens => ?_⟩
  · rw [← hplan]
    exact hassign.mem_iff
  · have hargs : ∀ a, M.Assignment cx args ts a → ∀ t ∈ ts, ∀ name ∈ m.plan.arguments,
        t.name? = some name → args.get? name = some (a (.named name)) := by
      intro a ha t ht name hname hown
      rw [hplan, (Context.plan_of_compile h.compiled).1] at hname
      exact ha.argument t ht name hname hown
    exact hassign.nodup hargs hopens

/-- A root that contains an object, which refers back to it. -/
def nested : ObjectModel :=
  let box : ObjectClass := ⟨.mk "Box" [], ["parts"]⟩
  { objects := [
      { cls := box, attributes := [], references := [("parts", [1])] },
      { cls := box, attributes := [], container? := some 0, references := [("owner", [0])] }]
    roots := [0] }

theorem consistent_nested : nested.Consistent := by
  let commands : List ObjectCommand := [.defineClass "Box" [] ["parts"], .create "Box" [],
    .create "Box" [], .add 0 "parts" 1, .add 1 "owner" 0, .addRoot 0]
  have hbuild : ObjectWork.build commands = .ok nested := rfl
  exact consistent_of_build hbuild

theorem rooted_nested : nested.Rooted where
  distinct := by decide
  uncontained := by
    intro r hr
    obtain rfl : r = 0 := List.mem_singleton.1 hr
    rfl

theorem closed_nested : nested.Closed := by
  intro n o ho m hm
  rw [mem_allObjects_none consistent_nested rooted_nested]
  have hroot : nested.Below 0 := .root (by decide)
  have hpart : nested.Below 1 := .inside hroot (by decide)
  match n, ho with
  | 0, rfl =>
    obtain rfl : m = 1 := List.mem_singleton.1 hm
    exact hpart
  | 1, rfl =>
    obtain rfl : m = 0 := List.mem_singleton.1 hm
    exact hroot

/-- The matches in the nested objects, for the root. -/
theorem represent_assignments_nested :
    ∃ m, Matches.of? ⟨.containment, .objects nested, fun _ _ => .ok .null⟩
        (successorPlan .containment) [("x", .object 0)] none = .ok m ∧
      m.all.results.Nodup ∧ ∀ r, r ∈ m.all.results ↔ ∃ a,
        nested.Assignment (successors .containment) [("x", .object 0)] successorTokens a ∧
          r = tuple ["x", "y"] a := by
  have hsupply : nested.Supplies (successors .containment) [("x", .object 0)] successorTokens := by
    have hx : Bindings.get? [("x", .object 0)] "x" = some (.object 0) := rfl
    refine { given := ?_, node := ?_ }
    · intro name hname
      obtain rfl : name = "x" := List.mem_singleton.1 hname
      exact ⟨_, hx⟩
    · intro t _ name hname _
      obtain rfl : name = "x" := List.mem_singleton.1 hname
      exact ⟨0, _, hx, rfl⟩
  have hcompiles := compiles_successors ⟨.containment, .objects nested, fun _ _ => .ok .null⟩
  obtain ⟨m, hof, -, -, hset, hnodup⟩ := represent_assignments hcompiles rfl rfl
    consistent_nested rooted_nested closed_nested hsupply
  exact ⟨m, hof, hnodup fun i t hopens ht => name?_of_opens_successorTokens hopens ht, hset⟩

end ObjectModel

end GraphPattern
