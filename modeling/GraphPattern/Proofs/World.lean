import GraphPattern.Proofs.Routes
import GraphPattern.Proofs.Sweeps
import GraphPattern.Plan.Chain

/-!
# GraphPattern — what a model offers to patterns

Both engines answer the same few questions about a model: which elements there are, which types
they match, which edges or references lead from one to another. A `World` is the answers, and a
setting serves a world if the engine's operations give them. What is proved about matches is proved
of worlds; typed graphs and object models come in where they are shown to serve one.

## Results

* `Serves.reachable_ok` — the elements found along a path are those that the path leads to, each
  once.
-/

namespace GraphPattern

/-- The type that a mark names. -/
def TypeMark.name? : TypeMark → Option String
  | .spec s => some s
  | _ => none

@[simp] theorem TypeMark.name?_ofName? (t : Option String) : (TypeMark.ofName? t).name? = t := by
  cases t <;> rfl

@[simp] theorem TypeMark.spec?_ofName? (t : Option String) :
    (TypeMark.ofName? t).spec? = .ok t := by
  cases t <;> rfl

/-- What a model offers to patterns. -/
structure World where
  /-- What an argument node can stand for. -/
  element : Value → Prop
  /-- What any other node can stand for. -/
  candidate : Value → Prop
  /-- An element matches a type. -/
  typed : Value → Option String → Prop
  /-- An edge that matches a type. -/
  edge : Value → Option String → Prop
  /-- The end that an edge leads to in a direction. -/
  ends : Value → Direction → Value
  /-- An edge or reference of a type leads from one element to another. -/
  linked : Option String → Value → Value → Prop

namespace World

variable (w : World)

/-- An edge or reference of a type leads in a direction from one element to another. -/
def along (t : Option String) : Direction → Value → Value → Prop
  | .out, u, v => w.linked t u v
  | .into, u, v => w.linked t v u

/-- A path leads from one element to another. -/
def leads : Path → Value → Value → Prop
  | [], u, v => u = v
  | .restrict t :: p, u, v => w.typed u t.name? ∧ leads p u v
  | .step d t :: p, u, v => ∃ m, w.along t.name? d u m ∧ leads p m v
  | .foreign _ :: _, _, _ => False

end World

/-- A segment as chains have it, which the engine can follow. -/
def Segment.Followed (engine : Engine) : Segment → Prop
  | .restrict t => ∃ s, t = .spec s
  | .step d t => (∃ t?, t = .ofName? t?) ∧ (d = .out ∨ engine = .graph)
  | .foreign _ => False

/-- The engine's operations give the answers of a world. -/
structure Serves (s : Setting) (w : World) : Prop where
  element_of_candidate : ∀ v, w.candidate v → w.element v
  settled : ∀ v k, w.element v ∨ w.edge v none → v.settled k = v
  present : ∀ v, w.element v → v.isNull = false
  same : ∀ u v, w.element u → w.element v → (u.same v = true ↔ u = v)
  typed_void : ∀ v, w.typed v none ∧ w.typed v (some "")
  edge_none : ∀ v t, w.edge v t → w.edge v none
  candidate_of_along : ∀ t d u v, d = .out ∨ s.engine = .graph → w.element u → w.along t d u v →
    w.candidate v
  candidate_of_ends : ∀ v d, w.edge v none → w.candidate (w.ends v d)
  instances : ∀ t, ∃ vs, s.engine.instances s.model (.ofName? t) = .ok (.values vs) ∧ vs.Nodup ∧
    ∀ v, v ∈ vs ↔ w.candidate v ∧ w.typed v t
  isInstance : ∀ v t, w.element v → ∃ b, s.engine.isInstance s.model v (.ofName? t) = .ok b ∧
    (b = true ↔ w.typed v t)
  neighbours : ∀ u t d, w.element u → d = .out ∨ s.engine = .graph →
    ∃ vs, s.engine.neighbours s.model u (.ofName? t) d = .ok vs ∧ ∀ v, v ∈ vs ↔ w.along t d u v
  adjacent : s.engine.edgesHaveIdentity = true → ∀ u t d, w.element u →
    ∃ vs, Engine.adjacent s.model u (.ofName? t) d = .ok (.values vs) ∧ vs.Nodup ∧
      ∀ v, v ∈ vs ↔ w.edge v t ∧ w.ends v d.reverse = u
  edgeEnd : s.engine.edgesHaveIdentity = true → ∀ v d far, w.edge v none →
    Engine.edgeEnd s.model v d far = .ok (w.ends v (if far then d else d.reverse))

namespace Serves

variable {s : Setting} {w : World} (hs : Serves s w)

-- ---------------------------------------------------------------------------
-- Following paths
-- ---------------------------------------------------------------------------

/-- From an element, the engine can follow a path wherever it leads, and its chains lead where the
path leads in the world. -/
theorem follows (hs : Serves s w) {p : Path} (hp : ∀ g ∈ p, g.Followed s.engine) {u : Value}
    (hu : w.element u) :
    p.Clear (s.engine.neighbours s.model) (s.engine.isInstance s.model) u ∧
      ∀ v, p.Leads (s.engine.neighbours s.model) (s.engine.isInstance s.model) u v ↔ w.leads p u v := by
  induction p generalizing u with
  | nil => exact ⟨trivial, fun v => Iff.rfl⟩
  | cons g p ih =>
    have hrest := fun {m} (hm : w.element m) => ih (fun g hg => hp g (List.mem_cons_of_mem _ hg)) hm
    have hfirst := hp g (by simp)
    cases g with
    | foreign k => exact absurd hfirst id
    | restrict t =>
      obtain ⟨t, rfl⟩ := hfirst
      obtain ⟨b, hb, hq⟩ := hs.isInstance u (some t) hu
      have hb : s.engine.isInstance s.model u (.spec t) = .ok b := hb
      refine ⟨⟨⟨b, hb⟩, fun y hy => ?_⟩, fun v => ?_⟩
      · cases b with
        | true =>
          rw [Path.onward, hb, List.mem_singleton] at hy
          exact hy ▸ (hrest hu).1
        | false =>
          rw [Path.onward, hb] at hy
          cases hy
      · rw [Path.Leads, hb, Except.ok.injEq, hq, (hrest hu).2]
        rfl
    | step d t =>
      obtain ⟨⟨t, rfl⟩, hd⟩ := hfirst
      obtain ⟨vs, hvs, hmem⟩ := hs.neighbours u t d hu hd
      have hnext : ∀ m ∈ vs, w.element m := fun m hm =>
        hs.element_of_candidate m (hs.candidate_of_along t d u m hd hu ((hmem m).1 hm))
      refine ⟨⟨⟨vs, hvs⟩, fun y hy => ?_⟩, fun v => ?_⟩
      · rw [Path.onward, hvs] at hy
        exact (hrest (hnext y hy)).1
      · simp only [Path.Leads, World.leads, TypeMark.name?_ofName?, hvs, Except.ok.injEq,
          exists_eq_left']
        constructor
        · rintro ⟨m, hm, hp⟩
          exact ⟨m, (hmem m).1 hm, ((hrest (hnext m hm)).2 v).1 hp⟩
        · rintro ⟨m, hm, hp⟩
          have hm := (hmem m).2 hm
          exact ⟨m, hm, ((hrest (hnext m hm)).2 v).2 hp⟩

/-- The elements found along a path are those that it leads to, each once. -/
theorem reachable_ok (hs : Serves s w) {p : Path} (hp : ∀ g ∈ p, g.Followed s.engine) {u : Value}
    (hu : w.element u) :
    ∃ out, s.engine.reachable s.model u p = .ok out ∧ out.Nodup ∧
      ∀ v, v ∈ out ↔ w.leads p u v := by
  obtain ⟨hclear, hleads⟩ := hs.follows hp hu
  refine ⟨_, (Path.evaluate_eq_ok_iff (.of_lawful _ _)).2 ⟨hclear, rfl⟩, nodup_eraseDups _, fun v => ?_⟩
  rw [distinct, List.mem_eraseDups, Path.mem_ends, hleads]

end Serves

end GraphPattern
