import GraphPattern.Proofs.World

/-!
# GraphPattern — what engines complain about

An engine that is asked for what it can do complains about values that are no elements of its model,
and about nothing else. That a variable is not bound, that a plan was made for another engine, or
that a reference would have to be followed backwards is never a complaint of this kind: such faults
are those of a plan that goes wrong.

## Results

* `Engine.fair_reachable`, `Engine.fair_instances`, `Engine.fair_adjacent` — what the operations of
  an engine complain about.
-/

namespace GraphPattern

/-- A fault of a plan that goes wrong: it is run against its rules, or reads what is not bound. -/
def Fault.Misuse (f : Fault) : Prop :=
  f.category = .misuse ∨ ∃ name, f = .missingArgument name

/-- The model is one of the engine's sort. -/
def Engine.Takes : Engine → Model → Prop
  | .graph, .graph _ => True
  | .containment, .objects _ => True
  | _, _ => False

/-- An answer that is no complaint about the plan. -/
def Fair {α : Type _} (e : Except Fault α) : Prop :=
  ∀ f, e = .error f → ¬ f.Misuse

namespace Fair

variable {α β : Type} {e : Except Fault α} {k : α → Except Fault β}

theorem ok (x : α) : Fair (.ok x : Except Fault α) := by
  intro f h
  cases h

theorem error {f : Fault} (h : ¬ f.Misuse) : Fair (.error f : Except Fault α) := by
  rintro _ ⟨⟩
  exact h

theorem noSuchProperty : Fair (.error .noSuchProperty : Except Fault α) := by
  refine .error ?_
  rintro (h | ⟨_, h⟩) <;> cases h

theorem bind (h : Fair e) (hk : ∀ x, e = .ok x → Fair (k x)) : Fair (e >>= k) := by
  cases he : e with
  | error f =>
    rintro _ ⟨⟩
    exact h f he
  | ok x => exact hk x he

theorem mapM {f : α → Except Fault β} {xs : List α} (h : ∀ x ∈ xs, Fair (f x)) :
    Fair (xs.mapM f) := by
  induction xs with
  | nil => exact .ok _
  | cons x xs ih =>
    rw [List.mapM_cons]
    refine (h x (by simp)).bind fun y _ => ?_
    exact (ih fun z hz => h z (List.mem_cons_of_mem _ hz)).bind fun ys _ => .ok _

theorem filterAuxM {f : α → Except Fault Bool} {xs acc : List α} (h : ∀ x ∈ xs, Fair (f x)) :
    Fair (List.filterAuxM f xs acc) := by
  induction xs generalizing acc with
  | nil => exact .ok _
  | cons x xs ih =>
    rw [List.filterAuxM]
    refine (h x (by simp)).bind fun b _ => ?_
    exact ih fun z hz => h z (List.mem_cons_of_mem _ hz)

theorem filterM {f : α → Except Fault Bool} {xs : List α} (h : ∀ x ∈ xs, Fair (f x)) :
    Fair (xs.filterM f) :=
  (filterAuxM h).bind fun _ _ => .ok _

end Fair

-- ---------------------------------------------------------------------------
-- Types
-- ---------------------------------------------------------------------------

theorem TypeMark.fair_spec? (t : TypeMark) : Fair t.spec? := by
  unfold spec?
  split
  · exact .ok _
  · exact .ok _
  · split
    · exact .ok _
    · exact .noSuchProperty

theorem TypeMark.fair_select {α : Type} (t : TypeMark)
    {matching : Option String → Except Fault (List α)} (h : ∀ t, Fair (matching t)) :
    Fair (t.select matching) := by
  unfold select
  cases hs : t.spec? with
  | ok spec? => exact h spec?
  | error f =>
    refine (h none).bind fun xs _ => ?_
    split
    · exact .ok _
    · exact .error (t.fair_spec? f hs)

-- ---------------------------------------------------------------------------
-- Models
-- ---------------------------------------------------------------------------

theorem TypedGraph.fair_incident (G : TypedGraph) (n : Nat) (t : Option String)
    (d? : Option Direction) : Fair (G.incident n t d?) := by
  unfold incident
  split
  · exact .noSuchProperty
  · exact .ok _

theorem TypedGraph.fair_farEnd (G : TypedGraph) (k : Nat) (d : Direction) : Fair (G.farEnd k d) := by
  unfold farEnd
  split
  · exact .noSuchProperty
  · exact .ok _
  · exact .ok _

theorem Model.fair_adjacentElements (m : Model) (v : Value) (t : TypeMark) (d : Direction) :
    Fair (m.adjacentElements v t d) := by
  unfold adjacentElements
  split
  · refine Fair.bind (t.fair_select fun spec? => ?_) fun ns _ => .ok _
    refine (TypedGraph.fair_incident _ _ _ _).bind fun ks _ => ?_
    exact .mapM fun k _ => TypedGraph.fair_farEnd _ _ _
  · exact .noSuchProperty

theorem Model.fair_references (m : Model) (v : Value) (t : TypeMark) : Fair (m.references v t) := by
  have hrefs : ∀ (M : ObjectModel) n name?, Fair (M.references n name?) := by
    intro M n name?
    unfold ObjectModel.references
    split
    · exact .noSuchProperty
    · exact .ok _
  unfold references
  split
  · split
    · exact (hrefs _ _ _).bind fun ns _ => .ok _
    · exact (hrefs _ _ _).bind fun ns _ => .ok _
    · exact .ok _
  · exact .noSuchProperty

-- ---------------------------------------------------------------------------
-- Engines
-- ---------------------------------------------------------------------------

namespace Engine

variable {e : Engine} {m : Model}

theorem fair_isInstance (v : Value) (t : TypeMark) : Fair (e.isInstance m v t) := by
  have htest : ∀ c : Lineage, Fair (do return typeMatches c (← t.spec?)) :=
    fun c => t.fair_spec?.bind fun s _ => .ok _
  unfold isInstance
  split
  · split
    · exact htest _
    · exact .ok _
  · split
    · exact htest _
    · exact .ok _
  · split
    · exact htest _
    · exact .ok _
  · exact .ok _

/-- Candidates are found, or the search for them is fair. -/
def FairSupply (s : Except Fault Supply) : Prop :=
  Fair s ∧ ∀ f, s = .ok (.broken f) → ¬ f.Misuse

theorem fairSupply_ofSearch {search : Except Fault (List Value)} (h : Fair search) :
    FairSupply (.ok (.ofSearch search)) := by
  refine ⟨.ok _, fun f hf => ?_⟩
  cases search with
  | ok vs => cases hf
  | error f' =>
    cases hf
    exact h f rfl

theorem fair_instances (hm : e.Takes m) (t : TypeMark) : FairSupply (e.instances m t) := by
  cases e <;> cases m <;> first | exact absurd hm id | skip
  · exact fairSupply_ofSearch (t.fair_select fun _ => .ok _)
  · exact fairSupply_ofSearch (t.fair_select fun _ => .ok _)

theorem fair_adjacent (v : Value) (t : TypeMark) (d : Direction) :
    FairSupply (Engine.adjacent m v t d) := by
  unfold adjacent
  split
  · refine fairSupply_ofSearch (t.fair_select fun spec? => ?_)
    exact (TypedGraph.fair_incident _ _ _ _).bind fun ks _ => .ok _
  · exact ⟨.noSuchProperty, fun f hf => by cases hf⟩

theorem fair_edgeEnd (v : Value) (d : Direction) (far : Bool) : Fair (Engine.edgeEnd m v d far) := by
  unfold edgeEnd
  split
  · cases far with
    | true => exact (TypedGraph.fair_farEnd _ _ _).bind fun n _ => .ok _
    | false => exact (TypedGraph.fair_farEnd _ _ _).bind fun n _ => .ok _
  · exact .noSuchProperty

theorem fair_neighbours {d : Direction} (hd : d = .out ∨ e = .graph) (v : Value) (t : TypeMark) :
    Fair (e.neighbours m v t d) := by
  unfold neighbours
  split
  · exact m.fair_adjacentElements v t _
  · exact m.fair_references v t
  · rcases hd with hd | hd <;> cases hd

/-- A path that the engine can follow is followed as far as it leads. -/
theorem fair_reachable {p : Path} (hp : ∀ g ∈ p, g.Followed e) (v : Value) :
    Fair (e.reachable m v p) := by
  have hall : ∀ (p : Path) (current : List Value), (∀ g ∈ p, g.Followed e) →
      Fair (Path.evaluateFrom (e.neighbours m) (e.isInstance m) current p) := by
    intro p
    induction p with
    | nil =>
      intro current _
      rw [Path.evaluateFrom]
      exact .ok _
    | cons g p ih =>
      intro current hp
      cases current with
      | nil =>
        rw [Path.evaluateFrom]
        exact .ok _
      | cons x current =>
        rw [Path.evaluateFrom]
        refine Fair.bind ?_ fun next _ => ih next fun q hq => hp q (List.mem_cons_of_mem _ hq)
        have hg := hp g (by simp)
        cases g with
        | foreign k => exact absurd hg id
        | restrict t => exact .filterM fun y _ => fair_isInstance y t
        | step d t =>
          refine Fair.bind (.mapM fun y _ => fair_neighbours hg.2 y t) fun ys _ => .ok _
  exact hall p [v] hp

end Engine

end GraphPattern
