import GraphPattern.Proofs.TypedGraphs

/-!
# GraphPattern — the edges at a vertex

The elements of a typed graph get their ids from one counter, and an edge is listed at its ends as it
is made. So the list of a vertex is in the order of the ids, and what the engine finds there in a
direction is neither more nor less than the edges of the graph that leave the vertex in it. Steps that
fail neither take an id nor leave anything in a list.

## Results

* `GraphWork.range_append_created` — elements are numbered as they are made.
* `TypedGraph.Ordered`, `GraphWork.ordered_after` — the lists of vertices are in this order.
* `GraphWork.adjacent_after` — what the engine finds at a vertex.
-/

namespace GraphPattern

-- ---------------------------------------------------------------------------
-- The order of the edges at a vertex
-- ---------------------------------------------------------------------------

namespace TypedGraph

variable {G G' : TypedGraph}

/-- Every vertex lists the edges at it in the order of their ids. -/
def Ordered (G : TypedGraph) : Prop :=
  ∀ n v, G.vertex? n = some v → v.incidences.Pairwise fun p q => p.1 ≤ q.1

theorem ordered_of_elements (helements : G.elements = []) : G.Ordered := by
  intro n v hv
  cases n with
  | zero => cases hv
  | succ n => simp [vertex?, element?, helements] at hv

theorem le_length_of_edge? {k : Nat} {e : Edge} (h : G.edge? k = some e) :
    k ≤ G.elements.length := by
  by_contra hlt
  have hnone : G.element? k = none := by
    cases k with
    | zero => rfl
    | succ k => exact List.getElem?_eq_none (by omega)
  rw [edge?, hnone] at h
  cases h

theorem Ordered.createVertex (hO : G.Ordered) {name : String} {attributes : Bindings} {id : Nat}
    (h : G.createVertex name attributes = .ok (id, G')) : G'.Ordered := by
  obtain ⟨-, cls, rfl⟩ := createVertex_ok h
  intro n v hv
  rw [vertex?_append] at hv
  split at hv
  · cases hv
    exact .nil
  · exact hO n v hv

/-- A new edge has a higher id than all that are listed before it. -/
theorem Ordered.createEdge (hO : G.Ordered) (hG : G.Consistent) {name : String} {alpha omega id : Nat}
    {attributes : Bindings} (h : G.createEdge name alpha omega attributes = (.ok id, G')) :
    G'.Ordered := by
  obtain ⟨rfl, -, e, -, -, -, -, hvertex⟩ := createEdge_ok h
  intro n v hv
  rw [hvertex] at hv
  obtain ⟨old, hold, rfl⟩ := Option.map_eq_some_iff.1 hv
  have hids : ∀ p ∈ endsAt (G.elements.length + 1) e n, p.1 = G.elements.length + 1 := by
    intro p hp
    rcases List.mem_pair.1 (List.mem_of_mem_filter hp) with rfl | rfl <;> rfl
  refine List.pairwise_append.2 ⟨hO n old hold, ?_, ?_⟩
  · exact List.Pairwise.filter _ (by simp)
  · rintro ⟨k, d⟩ hk q hq
    obtain ⟨e', he', -⟩ := (hG.listed n old hold k d).1 hk
    rw [hids q hq]
    exact Nat.le_succ_of_le (le_length_of_edge? he')

/-- In a direction an edge is listed once, so that ids do not only not fall there. -/
theorem Ordered.pairwise_incident (hO : G.Ordered) (hG : G.Consistent) {n : Nat} {v : Vertex}
    (hv : G.vertex? n = some v) {t : Option String} {d : Direction} {ks : List Nat}
    (h : G.incident n t (some d) = .ok ks) : ks.Pairwise (· < ·) := by
  have hpair : v.incidences.Pairwise fun p q => p.2 = d → q.2 = d → p.1 < q.1 := by
    refine ((hO n v hv).and (hG.nodup n v hv)).imp ?_
    rintro ⟨k, c⟩ ⟨k', c'⟩ ⟨hle, hne⟩ hc hc'
    exact Nat.lt_of_le_of_ne hle fun hk => hne (Prod.ext hk (hc.trans hc'.symm))
  rw [incident, hv] at h
  cases h
  refine List.Pairwise.filterMap _ ?_ hpair
  rintro ⟨k, c⟩ ⟨k', c'⟩ hlt x hx y hy
  simp only [Option.all_some, decide_eq_true_eq, Bool.and_eq_true,
    Option.ite_none_right_eq_some, Option.some.injEq] at hx hy
  obtain ⟨⟨hc, -⟩, rfl⟩ := hx
  obtain ⟨⟨hc', -⟩, rfl⟩ := hy
  exact hlt hc.symm hc'.symm

end TypedGraph

-- ---------------------------------------------------------------------------
-- Steps
-- ---------------------------------------------------------------------------

namespace GraphWork

variable {w w' : GraphWork} {c : GraphCommand} {commands : List GraphCommand}

theorem after_cons (w : GraphWork) (c : GraphCommand) (commands : List GraphCommand) :
    w.after (c :: commands) = (w.perform c).2.after commands :=
  rfl

/-- What a step does that succeeds: it defines a class, or it hands out a new element, which has the
next id. -/
theorem perform_cases {x : GraphItem} (h : w.perform c = (.ok x, w')) :
    (∃ cls, x = .cls cls ∧ w'.graph.elements = w.graph.elements) ∨
      x = .element (w.graph.elements.length + 1) ∧
        w'.graph.elements.length = w.graph.elements.length + 1 ∧
        ((∃ name attributes, w.graph.createVertex name attributes =
            .ok (w.graph.elements.length + 1, w'.graph)) ∨
          ∃ name alpha omega attributes, w.graph.createEdge name alpha omega attributes =
            (.ok (w.graph.elements.length + 1), w'.graph)) := by
  cases performs_of_perform h with
  | defined => exact .inl ⟨_, rfl, rfl⟩
  | @vertex name attributes _ _ made =>
    obtain ⟨rfl, cls, hG⟩ := TypedGraph.createVertex_ok made
    exact .inr ⟨rfl, by simp [hG], .inl ⟨name, attributes, made⟩⟩
  | @edge name _ _ source target attributes _ _ _ _ made =>
    obtain ⟨rfl, hlength, -⟩ := TypedGraph.createEdge_ok made
    exact .inr ⟨rfl, hlength, .inr ⟨name, source, target, attributes, made⟩⟩

theorem ordered_of_perform {x : GraphItem} (hG : w.graph.Consistent) (hO : w.graph.Ordered)
    (h : w.perform c = (.ok x, w')) : w'.graph.Ordered := by
  rcases perform_cases h with ⟨cls, -, helements⟩ |
    ⟨-, -, ⟨name, attributes, hmade⟩ | ⟨name, alpha, omega, attributes, hmade⟩⟩
  · have hvertex : ∀ n, w'.graph.vertex? n = w.graph.vertex? n := by
      intro n
      cases n <;> simp [TypedGraph.vertex?, TypedGraph.element?, helements]
    intro n v hv
    exact hO n v ((hvertex n).symm.trans hv)
  · exact hO.createVertex hmade
  · exact hO.createEdge hG hmade

/-- Whatever steps are performed, with the edges between vertices of the graph, the lists of its
vertices are in order. -/
theorem ordered_after (hown : w.ownsAll commands = true) (hG : w.graph.Consistent)
    (hO : w.graph.Ordered) : (w.after commands).graph.Ordered := by
  induction commands generalizing w with
  | nil => exact hO
  | cons c commands ih =>
    rw [ownsAll, Bool.and_eq_true] at hown
    rw [after_cons]
    rcases hrun : w.perform c with ⟨f | x, w'⟩ <;> rw [hrun] at hown
    · obtain rfl := eq_of_perform_error hown.1 hrun
      exact ih hown.2 hG hO
    · exact ih hown.2 (TypedGraph.consistent_of_perform hG hrun) (ordered_of_perform hG hO hrun)

/-- The elements that some steps hand out, in this order. -/
def created (w : GraphWork) : List GraphCommand → List Nat
  | [] => []
  | c :: rest =>
    match w.perform c with
    | (.ok (.element id), w) => id :: w.created rest
    | (.ok (.cls _), w) | (.error _, w) => w.created rest

/-- Elements get the ids from the first free one on, in the order in which they are handed out. -/
theorem range_append_created (hown : w.ownsAll commands = true) :
    List.range' 1 w.graph.elements.length ++ w.created commands =
      List.range' 1 (w.after commands).graph.elements.length := by
  induction commands generalizing w with
  | nil => exact List.append_nil _
  | cons c commands ih =>
    rw [ownsAll, Bool.and_eq_true] at hown
    rw [after_cons, created]
    rcases hrun : w.perform c with ⟨f | x, w'⟩ <;> rw [hrun] at hown
    · obtain rfl := eq_of_perform_error hown.1 hrun
      exact ih hown.2
    · rw [← ih hown.2]
      rcases perform_cases hrun with ⟨cls, rfl, helements⟩ | ⟨rfl, hlength, -⟩
      · rw [helements]
      · rw [hlength, List.range'_1_concat, List.append_assoc, Nat.add_comm 1]
        rfl

theorem ownsAll_append (w : GraphWork) (commands rest : List GraphCommand) :
    w.ownsAll (commands ++ rest) = (w.ownsAll commands && (w.after commands).ownsAll rest) := by
  induction commands generalizing w with
  | nil => rfl
  | cons c commands ih => rw [List.cons_append, ownsAll, ih, ownsAll, Bool.and_assoc, after_cons]

/-- Whatever is made in an empty graph, with its edges between vertices of its own, steps that fail
among it: what is made is numbered from one, in this order and without gaps, what fails changes
nothing, and the engine finds at a vertex, in a direction, exactly the edges of the graph that match the
type and leave the vertex in the direction, each once and in the order in which they were made. -/
theorem adjacent_after (schema : Schema) (commands : List GraphCommand)
    (hown : ownsAll { graph := { schema } } commands = true) :
    let start : GraphWork := { graph := { schema } }
    let G := (start.after commands).graph
    start.created commands = List.range' 1 G.elements.length ∧
    (∀ before c rest f w, commands = before ++ c :: rest →
      (start.after before).perform c = (.error f, w) → w = start.after before) ∧
    ∀ n v, G.vertex? n = some v → ∀ t d, ∃ ks : List Nat,
      Engine.adjacent (.graph G) (.vertex n) (.ofName? t) d = .ok (.values (ks.map .edge)) ∧
        ks.Pairwise (· < ·) ∧
        ∀ k, k ∈ ks ↔
          ∃ e, G.edge? k = some e ∧ typeMatches e.cls.lineage t = true ∧ e.source d = n := by
  intro start G
  have hempty : start.graph.Consistent := by
    refine ⟨fun k e h => ?_, fun n v h => ?_, fun n v h => ?_⟩
    · cases k <;> cases h
    · cases n <;> cases h
    · cases n <;> cases h
  have hG : G.Consistent := consistent_after hown hempty
  have hO : G.Ordered := ordered_after hown hempty (TypedGraph.ordered_of_elements rfl)
  refine ⟨range_append_created hown, ?_, ?_⟩
  · rintro before c rest f w rfl hrun
    rw [ownsAll_append, Bool.and_eq_true, ownsAll, Bool.and_eq_true] at hown
    exact eq_of_perform_error hown.2.1 hrun
  · intro n v hv t d
    obtain ⟨ks, hks, -, hmem⟩ := TypedGraph.incident_ok hG hv t d
    refine ⟨ks, ?_, hO.pairwise_incident hG hv hks, fun k => (hmem k).trans ?_⟩
    · simp only [Engine.adjacent, TypeMark.select, TypeMark.spec?_ofName?, hks, bind, Except.bind,
        pure, Except.pure, Supply.ofSearch]
    · simp only [TypedGraph.EdgeMatches, and_assoc]

/-- Classes of an edge and its ends. -/
def roads : Schema where
  classes := [⟨.mk "City" [], false⟩, ⟨.mk "Road" [], true⟩]

/-- A loop between two parallel edges, a way back, and steps that fail in between: there is no such
class, an edge class makes no vertices, and a vertex class makes no edges. -/
def ringRoad : List GraphCommand :=
  [.createVertex "City" [], .createVertex "Town" [], .createVertex "City" [],
    .createEdge "Road" 1 2 [], .createVertex "Road" [], .createEdge "Road" 1 1 [],
    .createEdge "City" 1 2 [], .createEdge "Road" 1 2 [], .createEdge "Road" 2 1 []]

/-- The loop is found in either direction, once in each, among the edges that were made before and
after it. -/
theorem adjacent_ringRoad :
    let start : GraphWork := { graph := { schema := roads } }
    let G := (start.after ringRoad).graph
    start.ownsAll ringRoad = true ∧ start.created ringRoad = [1, 2, 3, 4, 5, 6] ∧
      Engine.adjacent (.graph G) (.vertex 1) (.ofName? none) .out =
        .ok (.values [.edge 3, .edge 4, .edge 5]) ∧
      Engine.adjacent (.graph G) (.vertex 1) (.ofName? none) .into = .ok (.values [.edge 4, .edge 6]) ∧
      ∃ ks : List Nat, Engine.adjacent (.graph G) (.vertex 1) (.ofName? none) .into =
          .ok (.values (ks.map .edge)) ∧
        ∀ k, k ∈ ks ↔
          ∃ e, G.edge? k = some e ∧ typeMatches e.cls.lineage none = true ∧ e.source .into = 1 := by
  have hown : ownsAll { graph := { schema := roads } } ringRoad = true := by rfl
  obtain ⟨hcreated, -, hadjacent⟩ := adjacent_after roads ringRoad hown
  obtain ⟨ks, hks, -, hmem⟩ := hadjacent 1 _ rfl none .into
  exact ⟨hown, hcreated, rfl, rfl, ks, hks, hmem⟩

end GraphWork

end GraphPattern
