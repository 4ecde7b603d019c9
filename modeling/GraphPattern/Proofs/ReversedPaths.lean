import GraphPattern.Proofs.TypedGraphs

/-!
# GraphPattern — ways back

Edges of a typed graph can be followed in both directions, so every path has a way back: its parts in
reverse order, each edge against the direction in which the path follows it. A path leads from one
vertex to another exactly if its way back leads from there to the first. What the engine finds agrees,
whatever loops and parallel edges there are.

* `World.leads_reversed` — in a world, ways back lead back.
* `GraphWork.reachable_reversed` — the same of what is found in a graph that was built step by step.
-/

namespace GraphPattern

/-! ## Paths from their far ends -/

/-- The same part of a path, followed from its other end. -/
def Segment.flipped : Segment → Segment
  | .restrict t => .restrict t
  | .step d t => .step d.reverse t
  | .foreign k => .foreign k

/-- The way back along a path. -/
def Path.reversed (p : Path) : Path :=
  (p.map Segment.flipped).reverse

theorem Path.reversed_cons (s : Segment) (p : Path) :
    Path.reversed (s :: p) = p.reversed ++ [s.flipped] := by
  rw [reversed, List.map_cons, List.reverse_cons]
  rfl

/-- Edges of a graph can be followed in both directions. -/
theorem Segment.followed_flipped {s : Segment} (h : s.Followed .graph) : s.flipped.Followed .graph := by
  cases s with
  | restrict t => exact h
  | step d t => exact ⟨h.1, .inr rfl⟩
  | foreign k => exact h

theorem Path.followed_reversed {p : Path} (h : ∀ s ∈ p, s.Followed .graph) :
    ∀ s ∈ p.reversed, s.Followed .graph := by
  intro s hs
  obtain ⟨s', hs', rfl⟩ := List.mem_map.1 (List.mem_reverse.1 hs)
  exact Segment.followed_flipped (h s' hs')

/-! ## Ways back in a world -/

namespace World

variable {w : World} {u v : Value}

theorem along_reverse {t : Option String} {d : Direction} :
    w.along t d.reverse u v ↔ w.along t d v u := by
  cases d <;> exact Iff.rfl

/-- Two paths one behind the other lead over an element between them. -/
theorem leads_append {p q : Path} :
    w.leads (p ++ q) u v ↔ ∃ m, w.leads p u m ∧ w.leads q m v := by
  induction p generalizing u with
  | nil =>
    constructor
    · exact fun h => ⟨u, rfl, h⟩
    · rintro ⟨_, rfl, h⟩
      exact h
  | cons s p ih =>
    cases s with
    | restrict t =>
      simp only [List.cons_append, leads, ih]
      constructor
      · rintro ⟨ht, m, hp, hq⟩
        exact ⟨m, ⟨ht, hp⟩, hq⟩
      · rintro ⟨m, ⟨ht, hp⟩, hq⟩
        exact ⟨ht, m, hp, hq⟩
    | step d t =>
      simp only [List.cons_append, leads, ih]
      constructor
      · rintro ⟨k, hk, m, hp, hq⟩
        exact ⟨m, ⟨k, hk, hp⟩, hq⟩
      · rintro ⟨m, ⟨k, hk, hp⟩, hq⟩
        exact ⟨k, hk, m, hp, hq⟩
    | foreign k =>
      simp only [List.cons_append, leads, false_and, exists_false]

/-- One part of a path leads back from where it leads to. -/
theorem leads_flipped {s : Segment} : w.leads [s.flipped] v u ↔ w.leads [s] u v := by
  cases s with
  | restrict t =>
    constructor <;>
    · rintro ⟨ht, rfl⟩
      exact ⟨ht, rfl⟩
  | step d t =>
    constructor
    · rintro ⟨_, hm, rfl⟩
      exact ⟨_, along_reverse.1 hm, rfl⟩
    · rintro ⟨_, hm, rfl⟩
      exact ⟨_, along_reverse.2 hm, rfl⟩
  | foreign k => exact Iff.rfl

/-- The way back leads back. -/
theorem leads_reversed {p : Path} : w.leads p.reversed v u ↔ w.leads p u v := by
  induction p generalizing u with
  | nil => exact eq_comm
  | cons s p ih =>
    rw [Path.reversed_cons, leads_append, show s :: p = [s] ++ p from rfl, leads_append]
    simp only [ih, leads_flipped]
    constructor <;>
    · rintro ⟨m, h, h'⟩
      exact ⟨m, h', h⟩

end World

/-! ## Ways back in a graph -/

/-- The engine finds one vertex from another along a path exactly if the path leads there, and exactly
if it finds the other from the one along the way back. -/
theorem TypedGraph.reachable_reversed_of_consistent {G : TypedGraph} (hG : G.Consistent) {x y : Nat}
    (hx : (G.vertex? x).isSome) (hy : (G.vertex? y).isSome) {p : Path}
    (hp : ∀ s ∈ p, s.Followed .graph) :
    ∃ there back, Engine.graph.reachable (.graph G) (.vertex x) p = .ok there ∧
      Engine.graph.reachable (.graph G) (.vertex y) p.reversed = .ok back ∧
      (.vertex y ∈ there ↔ G.world.leads p (.vertex x) (.vertex y)) ∧
      (.vertex y ∈ there ↔ .vertex x ∈ back) := by
  obtain ⟨u, hu⟩ := Option.isSome_iff_exists.1 hx
  obtain ⟨v, hv⟩ := Option.isSome_iff_exists.1 hy
  have hserves : Serves ⟨.graph, .graph G, fun _ _ => .ok .null⟩ G.world := serves hG rfl rfl
  obtain ⟨there, hthere, -, hmem⟩ := hserves.reachable_ok hp ⟨x, u, rfl, hu⟩
  obtain ⟨back, hback, -, hmem'⟩ := hserves.reachable_ok (Path.followed_reversed hp) ⟨y, v, rfl, hv⟩
  exact ⟨there, back, hthere, hback, hmem _, by rw [hmem, hmem', World.leads_reversed]⟩

/-- Whatever steps built a graph, the failing ones included, as long as its edges lead between its own
vertices: along every path, one vertex is found from another exactly if edges of the path's types lead
there, and exactly if that one is found from the first along the way back. -/
theorem GraphWork.reachable_reversed {commands : List GraphCommand} {G : TypedGraph}
    (hown : GraphWork.ownsAll {} commands = true) (hG : (GraphWork.after {} commands).graph = G)
    {x y : Nat} (hx : (G.vertex? x).isSome) (hy : (G.vertex? y).isSome) {p : Path}
    (hp : ∀ s ∈ p, s.Followed .graph) :
    ∃ there back, Engine.graph.reachable (.graph G) (.vertex x) p = .ok there ∧
      Engine.graph.reachable (.graph G) (.vertex y) p.reversed = .ok back ∧
      (.vertex y ∈ there ↔ G.world.leads p (.vertex x) (.vertex y)) ∧
      (.vertex y ∈ there ↔ .vertex x ∈ back) := by
  subst hG
  exact TypedGraph.reachable_reversed_of_consistent
    (consistent_after hown TypedGraph.consistent_empty) hx hy hp

/-- Two stations with roads both ways, one of them twice, and a loop. An edge between classes of
vertices is refused on the way. -/
def roundTrips : List GraphCommand :=
  [.defineClass "Station" [] false, .defineClass "Road" [] true, .createVertex "Station" [],
    .createVertex "Station" [], .createEdge "Station" 1 2 [], .createEdge "Road" 1 2 [],
    .createEdge "Road" 1 2 [], .createEdge "Road" 2 1 [], .createEdge "Road" 2 2 []]

theorem GraphWork.reachable_reversed_roundTrips :
    let G := (GraphWork.after {} roundTrips).graph
    let p : Path := [.step .out (.spec "Road"), .restrict (.spec "Station"), .step .into .any]
    GraphWork.ownsAll {} roundTrips = true ∧ (G.vertex? 1).isSome ∧ (G.vertex? 2).isSome ∧
      (∀ s ∈ p, s.Followed .graph) ∧ ∃ there back,
        Engine.graph.reachable (.graph G) (.vertex 1) p = .ok there ∧
        Engine.graph.reachable (.graph G) (.vertex 2) p.reversed = .ok back ∧
        (.vertex 2 ∈ there ↔ G.world.leads p (.vertex 1) (.vertex 2)) ∧
        (.vertex 2 ∈ there ↔ .vertex 1 ∈ back) := by
  have hown : GraphWork.ownsAll {} roundTrips = true := rfl
  have hx : ((GraphWork.after {} roundTrips).graph.vertex? 1).isSome := rfl
  have hy : ((GraphWork.after {} roundTrips).graph.vertex? 2).isSome := rfl
  have hp : ∀ s ∈ [.step .out (.spec "Road"), .restrict (.spec "Station"), .step .into .any],
      Segment.Followed .graph s := by
    intro s hs
    simp only [List.mem_cons, List.not_mem_nil, or_false] at hs
    obtain rfl | rfl | rfl := hs
    · exact ⟨⟨some "Road", rfl⟩, .inl rfl⟩
    · exact ⟨"Station", rfl⟩
    · exact ⟨⟨none, rfl⟩, .inr rfl⟩
  exact ⟨hown, hx, hy, hp, GraphWork.reachable_reversed hown rfl hx hy hp⟩

end GraphPattern
