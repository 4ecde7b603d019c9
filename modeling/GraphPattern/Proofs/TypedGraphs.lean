import GraphPattern.Proofs.World
import GraphPattern.Model.Building

/-!
# GraphPattern — typed graphs as worlds

In a typed graph that was built step by step, every edge leads between vertices, and every vertex
lists exactly the edges at it, each once for each of its ends. Such a graph is a world: elements are
its vertices, and what is linked is linked by an edge.

## Results

* `TypedGraph.consistent_of_build` — graphs that are built are consistent.
* `GraphWork.eq_of_perform_error` — a step that fails changes nothing.
* `GraphWork.consistent_after` — so are graphs that are built on behind steps that failed.
* `TypedGraph.serves` — the graph engine serves the world of a consistent graph.
-/

namespace GraphPattern

/-- The end at which an edge lies if it leaves there in a direction. -/
def Edge.source (e : Edge) : Direction → Nat
  | .out => e.alpha
  | .into => e.omega

-- ---------------------------------------------------------------------------
-- Steps
-- ---------------------------------------------------------------------------

namespace GraphWork

variable {w w' : GraphWork} {c : GraphCommand}

/-- What a step makes, if it succeeds, and what is there then. -/
inductive Performs (w : GraphWork) : GraphCommand → GraphItem → GraphWork → Prop
  | defined {name : String} {supers : List String} {isEdge : Bool} {cls : ElementClass}
      {schema : Schema} (defines : w.graph.schema.define name supers isEdge = .ok (cls, schema)) :
      Performs w (.defineClass name supers isEdge) (.cls cls)
        { w with graph := { w.graph with schema } }
  | vertex {name : String} {attributes : Bindings} {id : Nat} {G : TypedGraph}
      (made : w.graph.createVertex name attributes = .ok (id, G)) :
      Performs w (.createVertex name attributes) (.element id)
        { graph := G, handed := id :: w.handed }
  | edge {name : String} {alpha omega : Int} {source target : Nat} {attributes : Bindings}
      {id : Nat} {G : TypedGraph} (leaves : w.find alpha = .ok source)
      (arrives : w.find omega = .ok target)
      (made : w.graph.createEdge name source target attributes = (.ok id, G)) :
      Performs w (.createEdge name alpha omega attributes) (.element id)
        { graph := G, handed := id :: w.handed }

theorem performs_of_perform {x : GraphItem} (h : w.perform c = (.ok x, w')) :
    w.Performs c x w' := by
  -- the command's own checks passed, which is what each constructor records
  cases c with
  | defineClass name supers isEdge =>
    rw [perform] at h
    split at h <;> cases h
    rename_i hdefine
    exact .defined hdefine
  | createVertex name attributes =>
    rw [perform] at h
    split at h
    · rename_i hmade
      cases h
      exact .vertex hmade
    · cases h
  | createEdge name alpha omega attributes =>
    rw [perform] at h
    split at h
    · rename_i source target hsource htarget
      rcases hmade : w.graph.createEdge name source target attributes with ⟨f | id, G⟩ <;>
        rw [hmade] at h <;> cases h
      exact .edge hsource htarget hmade
    · cases h
    · cases h

/-- A step that fails changes nothing, unless it is the making of an edge that gets stuck. -/
theorem eq_or_stuck_of_perform {f : Fault} (h : w.perform c = (.error f, w')) :
    w' = w ∨ ∃ name alpha omega attributes source target G,
      c = .createEdge name alpha omega attributes ∧ w.find alpha = .ok source ∧
      w.find omega = .ok target ∧
      w.graph.createEdge name source target attributes = (.error f, G) ∧
      w' = { w with graph := G } := by
  -- only an edge of a class that is refused can leave the graph changed
  cases c with
  | defineClass name supers isEdge =>
    rw [perform] at h
    split at h <;> cases h
    exact .inl rfl
  | createVertex name attributes =>
    rw [perform] at h
    split at h <;> cases h
    exact .inl rfl
  | createEdge name alpha omega attributes =>
    rw [perform] at h
    split at h
    · rename_i source target hsource htarget
      rcases hmade : w.graph.createEdge name source target attributes with ⟨f | id, G⟩ <;>
        rw [hmade] at h <;> cases h
      exact .inr ⟨_, _, _, _, _, _, _, rfl, hsource, htarget, hmade, rfl⟩
    · cases h
      exact .inl rfl
    · cases h
      exact .inl rfl

end GraphWork

namespace TypedGraph

/-- Every edge leads between vertices, and every vertex lists the edges at it. -/
structure Consistent (G : TypedGraph) : Prop where
  ends : ∀ k e, G.edge? k = some e → ∀ d, (G.vertex? (e.source d)).isSome
  nodup : ∀ n v, G.vertex? n = some v → v.incidences.Nodup
  listed : ∀ n v, G.vertex? n = some v → ∀ k d,
    (k, d) ∈ v.incidences ↔ ∃ e, G.edge? k = some e ∧ e.source d = n

/-- The edge is of a class that matches a type. -/
def EdgeMatches (G : TypedGraph) (k : Nat) (t : Option String) (e : Edge) : Prop :=
  G.edge? k = some e ∧ typeMatches e.cls.lineage t = true

/-- What a typed graph offers to patterns. -/
def world (G : TypedGraph) : World where
  element := fun x => ∃ n v, x = .vertex n ∧ G.vertex? n = some v
  candidate := fun x => ∃ n v, x = .vertex n ∧ G.vertex? n = some v
  typed := fun x t => ∀ n v, x = .vertex n → G.vertex? n = some v →
    typeMatches v.cls.lineage t = true
  edge := fun x t => ∃ k e, x = .edge k ∧ G.EdgeMatches k t e
  ends := fun x d =>
    match x with
    | .edge k => ((G.edge? k).map fun e => Value.vertex (e.source d.reverse)).getD .null
    | _ => .null
  linked := fun t u v => ∃ k e, G.EdgeMatches k t e ∧ u = .vertex e.alpha ∧ v = .vertex e.omega

variable {G : TypedGraph}

-- ---------------------------------------------------------------------------
-- Looking things up
-- ---------------------------------------------------------------------------

theorem not_edge_of_vertex {n : Nat} {v : Vertex} (h : G.vertex? n = some v) :
    G.edge? n = none := by
  unfold vertex? at h
  unfold edge?
  split at h
  · rename_i x hx
    rw [hx]
  · cases h

theorem valueOf_vertex {n : Nat} {v : Vertex} (h : G.vertex? n = some v) :
    G.valueOf n = .vertex n := by
  rw [valueOf, not_edge_of_vertex h]
  rfl

theorem mem_numbered {id : Nat} {x : GraphElement} :
    (id, x) ∈ G.numbered ↔ G.element? id = some x := by
  rw [numbered, List.mem_iff_getElem?]
  constructor
  · rintro ⟨i, hi⟩
    obtain ⟨hid, hx⟩ := List.getElem?_zip_eq_some.1 hi
    have hlt : i < G.elements.length := (List.getElem?_eq_some_iff.1 hx).1
    rw [List.getElem?_range' hlt] at hid
    obtain rfl : 1 + 1 * i = id := Option.some.inj hid
    rw [Nat.one_mul, Nat.add_comm]
    exact hx
  · intro h
    cases id with
    | zero => cases h
    | succ i =>
      have hx : G.elements[i]? = some x := h
      have hlt : i < G.elements.length := (List.getElem?_eq_some_iff.1 hx).1
      refine ⟨i, List.getElem?_zip_eq_some.2 ⟨?_, hx⟩⟩
      rw [List.getElem?_range' hlt]
      congr 1
      omega

theorem nodup_numbered_filterMap {f : Nat × GraphElement → Option Nat}
    (hf : ∀ p n, f p = some n → n = p.1) : (G.numbered.filterMap f).Nodup := by
  have hids : (G.numbered.map (·.1)).Nodup := by
    rw [numbered, List.map_fst_zip (by simp)]
    exact List.nodup_range'
  refine List.Pairwise.filterMap _ ?_ (List.pairwise_map.1 hids)
  intro p q hne n hn m hm
  rw [hf p n hn, hf q m hm]
  exact hne

theorem mem_vertices {t : Option String} {n : Nat} :
    n ∈ G.vertices t ↔ ∃ v, G.vertex? n = some v ∧ typeMatches v.cls.lineage t = true := by
  rw [vertices, List.mem_filterMap]
  constructor
  · rintro ⟨⟨id, x⟩, hmem, hx⟩
    rw [mem_numbered] at hmem
    cases x with
    | edge e => cases hx
    | vertex v =>
      simp only [Option.ite_none_right_eq_some, Option.some.injEq] at hx
      obtain ⟨ht, rfl⟩ := hx
      exact ⟨v, by rw [vertex?, hmem], ht⟩
  · rintro ⟨v, hv, ht⟩
    refine ⟨(n, .vertex v), mem_numbered.2 ?_, by simp [ht]⟩
    unfold vertex? at hv
    split at hv
    · rename_i x hx
      cases hv
      exact hx
    · cases hv

theorem nodup_vertices (t : Option String) : (G.vertices t).Nodup := by
  refine nodup_numbered_filterMap fun p n hp => ?_
  obtain ⟨id, x⟩ := p
  cases x with
  | edge e => cases hp
  | vertex v =>
    simp only [Option.ite_none_right_eq_some, Option.some.injEq] at hp
    exact hp.2.symm

/-- The edges at a vertex that match a type and leave it in a direction, each once. -/
theorem incident_ok (hG : G.Consistent) {n : Nat} {v : Vertex} (hv : G.vertex? n = some v)
    (t : Option String) (d : Direction) :
    ∃ ks, G.incident n t (some d) = .ok ks ∧ ks.Nodup ∧
      ∀ k, k ∈ ks ↔ ∃ e, G.EdgeMatches k t e ∧ e.source d = n := by
  refine ⟨_, by rw [incident, hv], ?_, ?_⟩
  · -- edges are told apart by their ids among those that leave in one direction
    have hpair : v.incidences.Pairwise fun p q => p.2 = d → q.2 = d → p.1 ≠ q.1 := by
      refine (hG.nodup n v hv).imp ?_
      rintro ⟨k, c⟩ ⟨k', c'⟩ hne rfl hc hk
      exact hne (Prod.ext hk hc.symm)
    refine List.Pairwise.filterMap _ ?_ hpair
    rintro ⟨k, c⟩ ⟨k', c'⟩ hne x hx y hy
    simp only [Option.all_some, decide_eq_true_eq, Bool.and_eq_true,
      Option.ite_none_right_eq_some, Option.some.injEq] at hx hy
    obtain ⟨⟨hc, -⟩, rfl⟩ := hx
    obtain ⟨⟨hc', -⟩, rfl⟩ := hy
    exact hne hc.symm hc'.symm
  · intro k
    simp only [List.mem_filterMap, Prod.exists, Option.all_some, Bool.and_eq_true,
      decide_eq_true_eq, Option.ite_none_right_eq_some, Option.some.injEq]
    constructor
    · rintro ⟨k', c, hmem, ⟨rfl, hany⟩, rfl⟩
      obtain ⟨e, he, hs⟩ := (hG.listed n v hv k' d).1 hmem
      rw [he] at hany
      exact ⟨e, ⟨he, hany⟩, hs⟩
    · rintro ⟨e, ⟨he, ht⟩, hs⟩
      refine ⟨k, d, (hG.listed n v hv k d).2 ⟨e, he, hs⟩, ⟨rfl, ?_⟩, rfl⟩
      rw [he]
      exact ht

-- ---------------------------------------------------------------------------
-- Serving the world of a graph
-- ---------------------------------------------------------------------------

theorem source_reverse_reverse (e : Edge) (d : Direction) :
    e.source d.reverse.reverse = e.source d := by
  rw [Direction.reverse_reverse]

theorem farEnd_ok {k : Nat} {e : Edge} (h : G.edge? k = some e) (d : Direction) :
    G.farEnd k d = .ok (e.source d.reverse) := by
  unfold farEnd
  cases d <;> rw [h] <;> rfl

theorem world_ends {k : Nat} {e : Edge} (h : G.edge? k = some e) (d : Direction) :
    G.world.ends (.edge k) d = .vertex (e.source d.reverse) := by
  show ((G.edge? k).map fun e => Value.vertex (e.source d.reverse)).getD .null = _
  rw [h]
  rfl

/-- What an edge leads to is what it is linked to. -/
theorem along_iff {t : Option String} {d : Direction} {n : Nat} {v : Value} :
    G.world.along t d (.vertex n) v ↔
      ∃ k e, G.EdgeMatches k t e ∧ e.source d = n ∧ v = .vertex (e.source d.reverse) := by
  cases d with
  | out =>
    constructor
    · rintro ⟨k, e, he, hn, hv⟩
      exact ⟨k, e, he, (Value.vertex.inj hn).symm, hv⟩
    · rintro ⟨k, e, he, rfl, hv⟩
      exact ⟨k, e, he, rfl, hv⟩
  | into =>
    constructor
    · rintro ⟨k, e, he, hv, hn⟩
      exact ⟨k, e, he, (Value.vertex.inj hn).symm, hv⟩
    · rintro ⟨k, e, he, rfl, hv⟩
      exact ⟨k, e, he, hv, rfl⟩

/-- The neighbours of a vertex are what it is linked to. -/
theorem neighbours_ok (hG : G.Consistent) {n : Nat} {v : Vertex} (hv : G.vertex? n = some v)
    (t : Option String) (d : Direction) :
    ∃ ns, G.neighbours n t d = .ok ns ∧ (∀ m ∈ ns, ∃ x, G.vertex? m = some x) ∧
      ∀ u, u ∈ ns.map Value.vertex ↔ G.world.along t d (.vertex n) u := by
  obtain ⟨ks, hks, -, hmem⟩ := incident_ok hG hv t d
  -- every edge that is listed has its other end
  have hend : ∀ k ∈ ks, ∃ e, G.EdgeMatches k t e ∧ e.source d = n ∧
      ((G.edge? k).map fun e => e.source d.reverse).getD 0 = e.source d.reverse := by
    intro k hk
    obtain ⟨e, he, hs⟩ := (hmem k).1 hk
    exact ⟨e, he, hs, by rw [he.1]; rfl⟩
  refine ⟨ks.map fun k => ((G.edge? k).map fun e => e.source d.reverse).getD 0, ?_, ?_, ?_⟩
  · simp only [neighbours, hks, bind, Except.bind]
    refine mapM_ok fun k hk => ?_
    obtain ⟨e, he, -, heq⟩ := hend k hk
    rw [heq, farEnd_ok he.1]
  · intro m hm
    obtain ⟨k, hk, rfl⟩ := List.mem_map.1 hm
    obtain ⟨e, he, -, heq⟩ := hend k hk
    rw [heq]
    exact Option.isSome_iff_exists.1 (hG.ends k e he.1 _)
  · intro u
    rw [along_iff, List.map_map, List.mem_map]
    constructor
    · rintro ⟨k, hk, rfl⟩
      obtain ⟨e, he, hs, heq⟩ := hend k hk
      exact ⟨k, e, he, hs, congrArg Value.vertex heq⟩
    · rintro ⟨k, e, he, hs, rfl⟩
      refine ⟨k, (hmem k).2 ⟨e, he, hs⟩, congrArg Value.vertex ?_⟩
      show ((G.edge? k).map fun e => e.source d.reverse).getD 0 = _
      rw [he.1]
      rfl

theorem typed_vertex_iff {n : Nat} {x : Vertex} (hx : G.vertex? n = some x) {t : Option String} :
    G.world.typed (.vertex n) t ↔ typeMatches x.cls.lineage t = true := by
  constructor
  · intro h
    exact h n x rfl hx
  · intro ht n' x' hn' hx'
    cases hn'
    rw [hx] at hx'
    cases hx'
    exact ht

/-- The vertices of a type are the candidates that match it. -/
theorem mem_instances_iff {t : Option String} {v : Value} :
    v ∈ (G.vertices t).map .vertex ↔ G.world.candidate v ∧ G.world.typed v t := by
  rw [List.mem_map]
  constructor
  · rintro ⟨n, hn, rfl⟩
    obtain ⟨x, hx, ht⟩ := mem_vertices.1 hn
    exact ⟨⟨n, x, rfl, hx⟩, (typed_vertex_iff hx).2 ht⟩
  · rintro ⟨⟨n, x, rfl, hx⟩, ht⟩
    exact ⟨n, mem_vertices.2 ⟨x, hx, (typed_vertex_iff hx).1 ht⟩, rfl⟩

/-- The edges that are found at a vertex are those that have it as their end. -/
theorem mem_adjacent_iff {ks : List Nat} {t : Option String} {d : Direction} {n : Nat}
    (hks : ∀ k, k ∈ ks ↔ ∃ e, G.EdgeMatches k t e ∧ e.source d = n) {v : Value} :
    v ∈ ks.map .edge ↔ G.world.edge v t ∧ G.world.ends v d.reverse = .vertex n := by
  rw [List.mem_map]
  constructor
  · rintro ⟨k, hk, rfl⟩
    obtain ⟨e, he, hsrc⟩ := (hks k).1 hk
    refine ⟨⟨k, e, rfl, he⟩, ?_⟩
    rw [world_ends he.1, source_reverse_reverse, hsrc]
  · rintro ⟨⟨k, e, rfl, he⟩, hends⟩
    rw [world_ends he.1, source_reverse_reverse] at hends
    exact ⟨k, (hks k).2 ⟨e, he, Value.vertex.inj hends⟩, rfl⟩

theorem edgeEnd_ok (hG : G.Consistent) {k : Nat} {e : Edge} (he : G.edge? k = some e)
    (d : Direction) (far : Bool) : Engine.edgeEnd (.graph G) (.edge k) d far =
      .ok (G.world.ends (.edge k) (if far then d else d.reverse)) := by
  have hvertex : ∀ c, G.valueOf (e.source c) = .vertex (e.source c) := by
    intro c
    obtain ⟨y, hy⟩ := Option.isSome_iff_exists.1 (hG.ends k e he c)
    exact valueOf_vertex hy
  cases far with
  | true =>
    simp only [Engine.edgeEnd, if_true, farEnd_ok he, bind, Except.bind, pure, Except.pure,
      hvertex, world_ends he]
  | false =>
    simp only [Engine.edgeEnd, Bool.false_eq_true, if_false, nearEnd, farEnd_ok he, bind,
      Except.bind, pure, Except.pure, hvertex, world_ends he]

/-- The graph engine serves the world of a consistent graph. -/
theorem serves (hG : G.Consistent) {s : Setting} (hs : s.engine = .graph)
    (hm : s.model = .graph G) : Serves s G.world where
  element_of_candidate := fun v h => h
  settled := by
    rintro v k (⟨n, v', rfl, -⟩ | ⟨n, e, rfl, -⟩) <;> rfl
  present := by
    rintro v ⟨n, v', rfl, -⟩
    rfl
  same := by
    rintro u v ⟨n, u', rfl, -⟩ ⟨m, v', rfl, -⟩
    exact decide_eq_true_iff
  typed_void := by
    intro v
    exact ⟨fun n x _ _ => rfl, fun n x _ _ => rfl⟩
  edge_none := by
    rintro v t ⟨k, e, rfl, he, -⟩
    exact ⟨k, e, rfl, he, rfl⟩
  candidate_of_along := by
    rintro t d u v - ⟨n, x, rfl, -⟩ h
    obtain ⟨k, e, ⟨he, -⟩, -, rfl⟩ := along_iff.1 h
    obtain ⟨y, hy⟩ := Option.isSome_iff_exists.1 (hG.ends k e he d.reverse)
    exact ⟨_, y, rfl, hy⟩
  candidate_of_ends := by
    rintro v d ⟨k, e, rfl, he, -⟩
    obtain ⟨y, hy⟩ := Option.isSome_iff_exists.1 (hG.ends k e he d.reverse)
    exact ⟨_, y, world_ends he d, hy⟩
  instances := by
    intro t
    refine ⟨(G.vertices t).map .vertex, ?_, ?_, fun v => mem_instances_iff⟩
    · rw [hs, hm]
      simp only [Engine.instances, TypeMark.select, TypeMark.spec?_ofName?, Supply.ofSearch]
    · refine List.pairwise_map.2 ((nodup_vertices t).imp ?_)
      exact fun hne heq => hne (Value.vertex.inj heq)
  isInstance := by
    rintro v t ⟨n, x, rfl, hx⟩
    refine ⟨typeMatches x.cls.lineage t, ?_, (typed_vertex_iff hx).symm⟩
    rw [hs, hm]
    simp only [Engine.isInstance, Model.element?, hx, Option.map_some, TypeMark.spec?_ofName?]
    rfl
  neighbours := by
    -- what the vertex's incidences name are vertices, so they are shown as such
    rintro u t d ⟨n, x, rfl, hx⟩ -
    obtain ⟨ns, hns, hvertex, hmem⟩ := neighbours_ok hG hx t d
    have hvalue : ns.map G.valueOf = ns.map Value.vertex := by
      refine List.map_congr_left fun m hm => ?_
      obtain ⟨y, hy⟩ := hvertex m hm
      exact valueOf_vertex hy
    refine ⟨ns.map Value.vertex, ?_, hmem⟩
    rw [hs, hm]
    simp only [Engine.neighbours, Model.adjacentElements, TypeMark.select, TypeMark.spec?_ofName?,
      hns, bind, Except.bind, pure, Except.pure, hvalue]
  adjacent := by
    rintro - u t d ⟨n, x, rfl, hx⟩
    obtain ⟨ks, hks, hnd, hmem⟩ := incident_ok hG hx t d
    refine ⟨ks.map .edge, ?_, ?_, fun v => mem_adjacent_iff hmem⟩
    · rw [hm]
      simp only [Engine.adjacent, TypeMark.select, TypeMark.spec?_ofName?, hks, bind, Except.bind,
        pure, Except.pure, Supply.ofSearch]
    · refine List.pairwise_map.2 (hnd.imp ?_)
      exact fun hne heq => hne (Value.edge.inj heq)
  edgeEnd := by
    rintro - v d far ⟨k, e, rfl, he, -⟩
    rw [hm]
    exact edgeEnd_ok hG he d far

-- ---------------------------------------------------------------------------
-- Building
-- ---------------------------------------------------------------------------

theorem element?_append (x : GraphElement) (n : Nat) :
    element? { G with elements := G.elements ++ [x] } n =
      if n = G.elements.length + 1 then some x else G.element? n := by
  cases n with
  | zero => rfl
  | succ n =>
    show (G.elements ++ [x])[n]? = if n + 1 = _ then _ else G.elements[n]?
    rw [List.getElem?_append]
    by_cases hlt : n < G.elements.length
    · rw [if_pos hlt, if_neg (by omega)]
    · rw [if_neg hlt]
      by_cases heq : n = G.elements.length
      · subst heq
        simp
      · rw [if_neg (by omega), List.getElem?_eq_none (by simp; omega),
          List.getElem?_eq_none (by omega)]

theorem element?_length_succ : G.element? (G.elements.length + 1) = none :=
  List.getElem?_eq_none (Nat.le_refl _)

theorem edge?_append (x : GraphElement) (n : Nat) :
    edge? { G with elements := G.elements ++ [x] } n =
      if n = G.elements.length + 1 then (match x with | .edge e => some e | .vertex _ => none)
      else G.edge? n := by
  unfold edge?
  rw [element?_append]
  by_cases hn : n = G.elements.length + 1
  · rw [if_pos hn, if_pos hn]
    cases x <;> rfl
  · rw [if_neg hn, if_neg hn]

theorem vertex?_append (x : GraphElement) (n : Nat) :
    vertex? { G with elements := G.elements ++ [x] } n =
      if n = G.elements.length + 1 then (match x with | .vertex v => some v | .edge _ => none)
      else G.vertex? n := by
  unfold vertex?
  rw [element?_append]
  by_cases hn : n = G.elements.length + 1
  · rw [if_pos hn, if_pos hn]
    cases x <;> rfl
  · rw [if_neg hn, if_neg hn]

theorem edge?_length_succ : G.edge? (G.elements.length + 1) = none := by
  rw [edge?, element?_length_succ]

theorem vertex?_length_succ : G.vertex? (G.elements.length + 1) = none := by
  rw [vertex?, element?_length_succ]

/-- A new edge is no vertex. -/
theorem vertex?_append_edge (e : Edge) (n : Nat) :
    vertex? { G with elements := G.elements ++ [.edge e] } n = G.vertex? n := by
  rw [vertex?_append]
  split
  · rename_i hn
    rw [hn, vertex?_length_succ]
  · rfl

theorem element?_attach (m k : Nat) (d : Direction) {x : Vertex} (hm : G.vertex? m = some x)
    (n : Nat) : (G.attach m k d).element? n = (G.element? n).map fun
      | .vertex v => .vertex (if n = m then { v with incidences := v.incidences ++ [(k, d)] } else v)
      | .edge e => .edge e := by
  cases m with
  | zero => cases hm
  | succ m =>
    cases n with
    | zero => rfl
    | succ n =>
      show (G.elements.modify m _)[n]? = (G.elements[n]?).map _
      rw [List.getElem?_modify]
      cases G.elements[n]? with
      | none => rfl
      | some y =>
        by_cases hmn : m = n
        · subst hmn
          cases y <;> simp
        · cases y <;> simp [hmn, Ne.symm hmn]

theorem edge?_attach {m k : Nat} {d : Direction} {x : Vertex} (hm : G.vertex? m = some x)
    (n : Nat) : (G.attach m k d).edge? n = G.edge? n := by
  unfold edge?
  rw [element?_attach m k d hm]
  cases G.element? n with
  | none => rfl
  | some y => cases y <;> rfl

theorem vertex?_attach {m k : Nat} {d : Direction} {x : Vertex} (hm : G.vertex? m = some x)
    (n : Nat) : (G.attach m k d).vertex? n = (G.vertex? n).map fun v =>
      if n = m then { v with incidences := v.incidences ++ [(k, d)] } else v := by
  unfold vertex?
  rw [element?_attach m k d hm]
  cases G.element? n with
  | none => rfl
  | some y => cases y <;> rfl

/-- What an edge adds to the list of a vertex. -/
def endsAt (k : Nat) (e : Edge) (n : Nat) : List (Nat × Direction) :=
  [(k, .out), (k, .into)].filter fun p => e.source p.2 = n

/-- A new edge between vertices that is listed at its ends keeps a graph consistent. -/
theorem Consistent.grow {G' : TypedGraph} (hG : G.Consistent) (k : Nat) (e : Edge)
    (hnew : G.edge? k = none) (hends : ∀ d, (G.vertex? (e.source d)).isSome)
    (hedge : ∀ n, G'.edge? n = if n = k then some e else G.edge? n)
    (hvertex : ∀ n, G'.vertex? n = (G.vertex? n).map fun v =>
      { v with incidences := v.incidences ++ endsAt k e n }) : G'.Consistent := by
  -- the new number was free, so no vertex lists it yet
  have hold : ∀ n v d, G.vertex? n = some v → (k, d) ∉ v.incidences := by
    intro n v d hv hmem
    obtain ⟨e', he', -⟩ := (hG.listed n v hv k d).1 hmem
    rw [hnew] at he'
    cases he'
  have hadded : ∀ n j d, (j, d) ∈ endsAt k e n ↔ j = k ∧ e.source d = n := by
    intro n j d
    unfold endsAt
    cases d <;> simp [eq_comm]
  refine ⟨?_, ?_, ?_⟩
  · -- ends
    intro n e' he' d
    rw [hvertex, Option.isSome_map]
    rw [hedge] at he'
    split at he'
    · cases he'
      exact hends d
    · exact hG.ends n e' he' d
  · -- nodup: an end is listed once, and the new edge's ends are new to the list
    intro n v hv
    rw [hvertex] at hv
    obtain ⟨v', hv', rfl⟩ := Option.map_eq_some_iff.1 hv
    refine List.nodup_append.2 ⟨hG.nodup n v' hv', ?_, ?_⟩
    · exact List.Nodup.sublist List.filter_sublist (by simp)
    · rintro ⟨j, d⟩ hj ⟨j', d'⟩ hj' heq
      cases heq
      obtain ⟨rfl, -⟩ := (hadded n j d).1 hj'
      exact hold n v' d hv' hj
  · -- listed
    intro n v hv j d
    rw [hvertex] at hv
    obtain ⟨v', hv', rfl⟩ := Option.map_eq_some_iff.1 hv
    rw [List.mem_append, hadded, hG.listed n v' hv', hedge]
    by_cases hj : j = k
    · subst hj
      rw [hnew, if_pos rfl]
      simp
    · rw [if_neg hj]
      simp [hj]

theorem consistent_empty : TypedGraph.Consistent {} where
  ends := by
    intro k e h
    cases k <;> cases h
  nodup := by
    intro n v h
    cases n <;> cases h
  listed := by
    intro n v h
    cases n <;> cases h

/-- A vertex that is made is added behind the other elements, and lists nothing. -/
theorem createVertex_ok {name : String} {attributes : Bindings} {id : Nat} {G' : TypedGraph}
    (h : G.createVertex name attributes = .ok (id, G')) :
    id = G.elements.length + 1 ∧
      ∃ cls, G' = { G with elements := G.elements ++ [.vertex { cls, attributes }] } := by
  simp only [TypedGraph.createVertex, bind, Except.bind] at h
  split at h
  · cases h
  · split at h
    · cases h
    · rename_i cls hcls
      split at h
      · cases h
      · cases h
        exact ⟨rfl, cls, rfl⟩

theorem Consistent.createVertex (hG : G.Consistent) {name : String} {attributes : Bindings}
    {id : Nat} {G' : TypedGraph} (h : G.createVertex name attributes = .ok (id, G')) :
    G'.Consistent := by
  obtain ⟨-, cls, rfl⟩ := createVertex_ok h
  have hedge : ∀ n, TypedGraph.edge?
      { G with elements := G.elements ++ [.vertex { cls, attributes }] } n = G.edge? n := by
    intro n
    rw [edge?_append]
    split
    · rename_i hn
      rw [hn, edge?_length_succ]
    · rfl
  refine ⟨?_, ?_, ?_⟩
  · intro k e he d
    rw [hedge] at he
    rw [vertex?_append]
    split
    · rfl
    · exact hG.ends k e he d
  · intro n v hv
    rw [vertex?_append] at hv
    split at hv
    · cases hv
      exact List.nodup_nil
    · exact hG.nodup n v hv
  · intro n v hv k d
    rw [vertex?_append] at hv
    simp only [hedge]
    split at hv
    · -- nothing leads to the new vertex
      rename_i hn
      cases hv
      constructor
      · intro hmem
        cases hmem
      · rintro ⟨e, he, hs⟩
        have hsome := hG.ends k e he d
        rw [hs, hn, vertex?_length_succ] at hsome
        cases hsome
    · exact hG.listed n v hv k d

/-- An edge that is made leads between vertices. It is added behind the other elements, and its ends
list it. -/
theorem createEdge_ok {name : String} {alpha omega : Nat} {attributes : Bindings} {id : Nat}
    {G' : TypedGraph} (h : G.createEdge name alpha omega attributes = (.ok id, G')) :
    id = G.elements.length + 1 ∧ G'.elements.length = id ∧
      ∃ e : Edge, e.alpha = alpha ∧ e.omega = omega ∧
        (∀ d, (G.vertex? (e.source d)).isSome) ∧
        (∀ n, G'.edge? n = if n = id then some e else G.edge? n) ∧
        ∀ n, G'.vertex? n = (G.vertex? n).map fun v =>
          { v with incidences := v.incidences ++ endsAt id e n } := by
  unfold TypedGraph.createEdge at h
  split at h
  · cases h
  · rename_i cls hcls
    simp only at h
    split at h
    · cases h
    · rename_i halpha
      split at h
      · cases h
      · rename_i homega
        cases h
        -- the edge is in the graph when its ends are looked up, which adds no vertex
        let G₁ : TypedGraph :=
          { G with elements := G.elements ++ [.edge { cls, alpha, omega, attributes }] }
        have hvertex : ∀ n, G₁.vertex? n = G.vertex? n := vertex?_append_edge _
        have hex : ∀ {H : TypedGraph} {n : Nat}, ¬ (H.vertex? n).isNone = true →
            ∃ v, H.vertex? n = some v := by
          intro H n hn
          cases hv : H.vertex? n with
          | none => rw [hv] at hn; exact absurd rfl hn
          | some v => exact ⟨v, rfl⟩
        obtain ⟨a, ha⟩ := hex halpha
        obtain ⟨o, ho⟩ := hex homega
        have ha : G₁.vertex? alpha = some a := ha
        have ho : (G₁.attach alpha (G.elements.length + 1) .out).vertex? omega = some o := ho
        have ho' : ∃ v, G.vertex? omega = some v := by
          rw [vertex?_attach ha, hvertex] at ho
          obtain ⟨v, hv, -⟩ := Option.map_eq_some_iff.1 ho
          exact ⟨v, hv⟩
        refine ⟨rfl, by simp [attach], { cls, alpha, omega, attributes }, rfl, rfl, ?_, ?_, ?_⟩
        · -- ends: both were found before anything was changed
          intro d
          cases d with
          | out =>
            rw [hvertex] at ha
            show (G.vertex? alpha).isSome
            rw [ha]
            rfl
          | into =>
            obtain ⟨v, hv⟩ := ho'
            show (G.vertex? omega).isSome
            rw [hv]
            rfl
        · -- edges: attaching it to its ends touches vertices only
          intro n
          rw [edge?_attach ho, edge?_attach ha]
          exact edge?_append _ n
        · -- vertices: it is listed at its source, then at its target
          intro n
          rw [vertex?_attach ho, vertex?_attach ha, hvertex, Option.map_map]
          refine congrArg (Option.map · _) (funext fun v => ?_)
          have hends : endsAt (G.elements.length + 1) { cls, alpha, omega, attributes } n =
              (if n = alpha then [(G.elements.length + 1, .out)] else []) ++
                if n = omega then [(G.elements.length + 1, .into)] else [] := by
            simp only [endsAt, @eq_comm _ n]
            by_cases ha : alpha = n <;> by_cases ho : omega = n <;> simp [Edge.source, ha, ho]
          rw [hends]
          -- a loop lists it twice at the same vertex
          show (if n = omega then _ else _) = _
          split <;> split <;> simp_all

theorem Consistent.createEdge (hG : G.Consistent) {name : String} {alpha omega : Nat}
    {attributes : Bindings} {id : Nat} {G' : TypedGraph}
    (h : G.createEdge name alpha omega attributes = (.ok id, G')) : G'.Consistent := by
  obtain ⟨rfl, -, e, -, -, hends, hedge, hvertex⟩ := createEdge_ok h
  exact hG.grow _ e edge?_length_succ hends hedge hvertex

/-- Steps that succeed keep a graph consistent. -/
theorem consistent_of_perform {work work' : GraphWork} {c : GraphCommand} {x : GraphItem}
    (hG : work.graph.Consistent) (h : work.perform c = (.ok x, work')) :
    work'.graph.Consistent := by
  cases GraphWork.performs_of_perform h with
  | defined => exact ⟨hG.ends, hG.nodup, hG.listed⟩
  | vertex made => exact hG.createVertex made
  | edge leaves arrives made => exact hG.createEdge made

/-- Commands that are all performed leave a consistent graph consistent. -/
theorem consistent_of_performAll {commands : List GraphCommand} {work work' : GraphWork}
    (hG : work.graph.Consistent) (h : work.performAll commands = .ok work') :
    work'.graph.Consistent := by
  induction commands generalizing work with
  | nil =>
    cases h
    exact hG
  | cons c commands ih =>
    rw [GraphWork.performAll] at h
    split at h
    · rename_i x w hstep
      exact ih (consistent_of_perform hG hstep) h
    · cases h

/-- Graphs that are built are consistent. -/
theorem consistent_of_build {commands : List GraphCommand} {G : TypedGraph}
    (h : GraphWork.build commands = .ok G) : G.Consistent := by
  simp only [GraphWork.build, bind, Except.bind] at h
  split at h
  · cases h
  · rename_i work hwork
    cases h
    exact consistent_of_performAll consistent_empty hwork

-- ---------------------------------------------------------------------------
-- Building on behind steps that fail
-- ---------------------------------------------------------------------------

/-- An edge between vertices that is refused leaves nothing behind. -/
theorem createEdge_error {name : String} {alpha omega : Nat} {attributes : Bindings} {f : Fault}
    {G' : TypedGraph} (ha : (G.vertex? alpha).isSome) (ho : (G.vertex? omega).isSome)
    (h : G.createEdge name alpha omega attributes = (.error f, G')) : G' = G := by
  unfold TypedGraph.createEdge at h
  split at h
  · cases h
    rfl
  · rename_i cls hcls
    obtain ⟨a, ha⟩ := Option.isSome_iff_exists.1 ha
    simp only at h
    rw [vertex?_append_edge, ha, if_neg (by simp)] at h
    have hattached : ((TypedGraph.attach
        { G with elements := G.elements ++ [.edge { cls, alpha, omega, attributes }] } alpha
        (G.elements.length + 1) .out).vertex? omega).isSome := by
      rw [vertex?_attach ((vertex?_append_edge _ _).trans ha), vertex?_append_edge, Option.isSome_map]
      exact ho
    obtain ⟨o, ho⟩ := Option.isSome_iff_exists.1 hattached
    rw [ho, if_neg (by simp)] at h
    cases h

end TypedGraph

namespace GraphWork

/-- A number names a vertex of the graph, if it names anything. -/
def ownsVertex (w : GraphWork) (n : Int) : Bool :=
  match w.find n with
  | .ok id => (w.graph.vertex? id).isSome
  | .error _ => true

/-- The edge that a step makes, if it makes one, leads between vertices of the graph. -/
def owns (w : GraphWork) : GraphCommand → Bool
  | .createEdge _ alpha omega _ => w.ownsVertex alpha && w.ownsVertex omega
  | .defineClass .. | .createVertex .. => true

/-- The work behind some steps. Steps that fail are passed over. -/
def after (w : GraphWork) (commands : List GraphCommand) : GraphWork :=
  commands.foldl (fun w c => (w.perform c).2) w

/-- All edges that some steps make lead between vertices that the graph has then. -/
def ownsAll (w : GraphWork) : List GraphCommand → Bool
  | [] => true
  | c :: rest => w.owns c && (w.perform c).2.ownsAll rest

variable {w w' : GraphWork}

/-- A step that fails changes nothing. -/
theorem eq_of_perform_error {c : GraphCommand} {f : Fault} (hown : w.owns c = true)
    (h : w.perform c = (.error f, w')) : w' = w := by
  rcases eq_or_stuck_of_perform h with
    hsame | ⟨name, alpha, omega, attributes, source, target, G, rfl, hsource, htarget, hmade, rfl⟩
  · exact hsame
  · simp only [owns, ownsVertex, hsource, htarget, Bool.and_eq_true] at hown
    rw [TypedGraph.createEdge_error hown.1 hown.2 hmade]

/-- Whatever steps are performed, with the edges between vertices of the graph, it stays consistent. -/
theorem consistent_after {commands : List GraphCommand} (hown : w.ownsAll commands = true)
    (hG : w.graph.Consistent) : (w.after commands).graph.Consistent := by
  induction commands generalizing w with
  | nil => exact hG
  | cons c commands ih =>
    simp only [ownsAll, Bool.and_eq_true] at hown
    have hstep : (w.perform c).2.graph.Consistent := by
      rcases hrun : w.perform c with ⟨f | x, w'⟩
      · rw [eq_of_perform_error hown.1 hrun]
        exact hG
      · exact TypedGraph.consistent_of_perform hG hrun
    exact ih hown.2 hstep

end GraphWork

end GraphPattern
