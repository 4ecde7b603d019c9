import GraphPattern.Proofs.World

/-!
# GraphPattern — what expressions stand for

The expressions of compiled plans are few. In a setting that serves a world, each of them stands
for a value that is described by the world, and the tests among them hold exactly if the world says
so.

## Results

* `Serves.stands_reachable`, `Serves.stands_edgeEnd` — the two ways of getting at other elements.
* `Serves.holds_member`, `Serves.holds_nonEmpty`, `Serves.holds_equal`, `Serves.holds_isInstance` —
  the tests.
* `Serves.source_instances`, `Serves.source_adjacent`, `Serves.source_reachable` — the candidates.
-/

namespace GraphPattern

-- every proof of this module opens `compute` by its equations
attribute [grind =] Setting.compute

/-- The expression stands for a value, whatever the journal. -/
def Stands (s : Setting) (ctx : Bindings) (e : Expr) (v : Value) : Prop :=
  Gives (s.compute ctx e) (.ok (.value v))

namespace Stands

variable {s : Setting} {ctx : Bindings} {e c l r : Expr} {u v : Value}

theorem evaluate (h : Stands s ctx e v) : Gives (s.evaluate ctx e) (.ok v) :=
  Setting.gives_evaluate h

theorem var {n : String} (h : ctx.get? n = some v) : Stands s ctx (.var n) v := by
  unfold Stands
  rw [Setting.compute, h]
  exact .pure _

theorem argument {n : String} (h : ctx.get? n = some v) : Stands s ctx (.argument n) v := by
  unfold Stands
  rw [Setting.compute, h]
  exact .pure _

theorem equal (hl : Stands s ctx l u) (hr : Stands s ctx r v) :
    Stands s ctx (.equal l r) (.bool (u.same v)) := by
  unfold Stands
  rw [Setting.compute]
  exact hl.bind ((Gives.value u).bind (hr.bind ((Gives.value v).bind (.pure _))))

theorem present (h : Stands s ctx e v) : Stands s ctx (.present e) (.bool (!v.isNull)) := by
  unfold Stands
  rw [Setting.compute]
  exact h.bind ((Gives.value v).bind (.pure _))

theorem member {vs : List Value} {o : Origin} (he : Stands s ctx e v)
    (hc : Stands s ctx c (.list vs o)) :
    Stands s ctx (.member e c) (.bool (vs.any (·.fits v))) := by
  unfold Stands
  rw [Setting.compute]
  exact he.bind ((Gives.value v).bind (hc.bind (Gives.bind (.pure _) (.pure _))))

theorem nonEmpty {vs : List Value} {o : Origin} (hc : Stands s ctx c (.list vs o)) :
    Stands s ctx (.nonEmpty c) (.bool (!vs.isEmpty)) := by
  unfold Stands
  rw [Setting.compute]
  refine hc.bind (Gives.bind ?_ (.pure _))
  exact Gives.bind (x := .own vs) (fun _ => rfl) (.pure _)

/-- The members of a list are candidates. -/
theorem source {vs : List Value} {o : Origin} (hc : Stands s ctx c (.list vs o)) :
    Gives (s.source ctx c) (.ok (.own vs)) :=
  hc.bind (.ask _)

end Stands

namespace Serves

variable {s : Setting} {w : World} {ctx : Bindings} {e : Expr} {u v : Value}

theorem stands_edgeEnd (hs : Serves s w) (hid : s.engine.edgesHaveIdentity = true)
    (he : Stands s ctx e v) (hv : w.edge v none) (d : Direction) (far : Bool) :
    Stands s ctx (.edgeEnd e d far) (w.ends v (if far then d else d.reverse)) := by
  unfold Stands
  rw [Setting.compute]
  refine Gives.bind (x := ()) ?_ (he.bind ((Gives.value v).bind (Gives.bind ?_ (.pure _))))
  · rw [Setting.needEdges, if_pos hid]
    exact .pure _
  · rw [← hs.edgeEnd hid v d far hv]
    exact .ask _

theorem stands_reachable (hs : Serves s w) (he : Stands s ctx e u) (hu : w.element u) {p : Path}
    (hp : ∀ g ∈ p, g.Followed s.engine) :
    ∃ out, Stands s ctx (.reachable e p) (.list out (.made [])) ∧ out.Nodup ∧
      ∀ v, v ∈ out ↔ w.leads p u v := by
  obtain ⟨out, hout, hnd, hmem⟩ := hs.reachable_ok hp hu
  refine ⟨out, ?_, hnd, hmem⟩
  unfold Stands
  rw [Setting.compute]
  refine he.bind ((Gives.value u).bind (Gives.bind (x := out) ?_ (.pure _)))
  rw [← hout]
  exact .ask _

-- ---------------------------------------------------------------------------
-- Tests
-- ---------------------------------------------------------------------------

theorem holds_equal (hs : Serves s w) {l r : Expr} (hl : Stands s ctx l u) (hr : Stands s ctx r v)
    (hu : w.element u) (hv : w.element v) :
    ∃ b, Gives (s.holds ctx (.equal l r)) (.ok b) ∧ (b = true ↔ u = v) :=
  ⟨_, Setting.gives_holds (hl.equal hr), hs.same u v hu hv⟩

theorem holds_present (hs : Serves s w) (he : Stands s ctx e v) (hv : w.element v) :
    Gives (s.holds ctx (.present e)) (.ok true) := by
  have h := Setting.gives_holds he.present
  rwa [hs.present v hv] at h

theorem holds_isInstance (hs : Serves s w) (he : Stands s ctx e v) (hv : w.element v)
    (t : String) :
    ∃ b, Gives (s.holds ctx (.isInstance e (.spec t))) (.ok b) ∧
      (b = true ↔ w.typed v (some t)) := by
  obtain ⟨b, hb, hiff⟩ := hs.isInstance v (some t) hv
  refine ⟨b, Setting.gives_holds ?_, hiff⟩
  rw [Setting.compute]
  refine he.bind ((Gives.value v).bind (Gives.bind (x := b) ?_ (.pure _)))
  rw [show (.spec t : TypeMark) = .ofName? (some t) from rfl, ← hb]
  exact .ask _

/-- Among elements, only the same element fits. -/
theorem any_fits_iff (hs : Serves s w) {vs : List Value} (hv : w.element v)
    (hvs : ∀ u ∈ vs, w.element u) : vs.any (·.fits v) = true ↔ v ∈ vs := by
  rw [List.any_eq_true]
  constructor
  · rintro ⟨u, hu, hfits⟩
    rw [Value.fits, Bool.or_eq_true, decide_eq_true_eq] at hfits
    rcases hfits with rfl | hsame
    · exact hu
    · rw [hs.same u v (hvs u hu) hv] at hsame
      rwa [← hsame]
  · intro hmem
    exact ⟨v, hmem, by rw [Value.fits, decide_eq_true rfl, Bool.true_or]⟩

/-- The elements that a path leads to from an element are candidates, unless it leads nowhere. -/
theorem element_of_leads (hs : Serves s w) {p : Path} (hp : ∀ g ∈ p, g.Followed s.engine)
    (hu : w.element u) (h : w.leads p u v) : w.element v := by
  induction p generalizing u with
  | nil =>
    obtain rfl : u = v := h
    exact hu
  | cons g p ih =>
    have htail : ∀ g ∈ p, g.Followed s.engine := fun g hg => hp g (List.mem_cons_of_mem _ hg)
    cases g with
    | restrict t => exact ih htail hu h.2
    | step d t =>
      obtain ⟨m, hum, hmv⟩ := h
      obtain ⟨-, hd⟩ := hp (.step d t) (by simp)
      exact ih htail (hs.element_of_candidate m (hs.candidate_of_along _ d u m hd hu hum)) hmv
    | foreign k => exact absurd h id

theorem holds_member (hs : Serves s w) {c : Expr} (hc : Stands s ctx c v) (hv : w.element v)
    (he : Stands s ctx e u) (hu : w.element u) {p : Path} (hp : ∀ g ∈ p, g.Followed s.engine) :
    ∃ b, Gives (s.holds ctx (.member c (.reachable e p))) (.ok b) ∧
      (b = true ↔ w.leads p u v) := by
  obtain ⟨out, hout, -, hmem⟩ := hs.stands_reachable he hu hp
  refine ⟨_, Setting.gives_holds (hc.member hout), ?_⟩
  rw [hs.any_fits_iff hv fun x hx => hs.element_of_leads hp hu ((hmem x).1 hx), hmem]

theorem holds_nonEmpty (hs : Serves s w) (he : Stands s ctx e u) (hu : w.element u) {p : Path}
    (hp : ∀ g ∈ p, g.Followed s.engine) :
    ∃ b, Gives (s.holds ctx (.nonEmpty (.reachable e p))) (.ok b) ∧
      (b = true ↔ ∃ v, w.leads p u v) := by
  obtain ⟨out, hout, -, hmem⟩ := hs.stands_reachable he hu hp
  refine ⟨_, Setting.gives_holds hout.nonEmpty, ?_⟩
  simp only [← hmem]
  cases out <;> simp

-- ---------------------------------------------------------------------------
-- Candidates
-- ---------------------------------------------------------------------------

theorem source_instances (hs : Serves s w) (ctx : Bindings) (t : Option String) :
    ∃ vs, Gives (s.source ctx (.instances (.ofName? t))) (.ok (.own vs)) ∧ vs.Nodup ∧
      ∀ v, v ∈ vs ↔ w.candidate v ∧ w.typed v t := by
  obtain ⟨vs, hvs, hnd, hmem⟩ := hs.instances t
  refine ⟨vs, ?_, hnd, hmem⟩
  refine Gives.bind (x := .candidates (.values vs)) ?_ (.ask _)
  rw [Setting.compute]
  refine Gives.bind (x := .values vs) ?_ (.pure _)
  rw [← hvs]
  exact .ask _

theorem source_adjacent (hs : Serves s w) (hid : s.engine.edgesHaveIdentity = true)
    (he : Stands s ctx e u) (hu : w.element u) (t : Option String) (d : Direction) :
    ∃ vs, Gives (s.source ctx (.adjacent e (.ofName? t) d)) (.ok (.own vs)) ∧ vs.Nodup ∧
      ∀ v, v ∈ vs ↔ w.edge v t ∧ w.ends v d.reverse = u := by
  obtain ⟨vs, hvs, hnd, hmem⟩ := hs.adjacent hid u t d hu
  refine ⟨vs, ?_, hnd, hmem⟩
  refine Gives.bind (x := .candidates (.values vs)) ?_ (.ask _)
  rw [Setting.compute]
  refine Gives.bind (x := ()) ?_
    (he.bind ((Gives.value u).bind (Gives.bind (x := .values vs) ?_ (.pure _))))
  · rw [Setting.needEdges, if_pos hid]
    exact .pure _
  · rw [← hvs]
    exact .ask _

theorem source_reachable (hs : Serves s w) (he : Stands s ctx e u) (hu : w.element u) {p : Path}
    (hp : ∀ g ∈ p, g.Followed s.engine) :
    ∃ vs, Gives (s.source ctx (.reachable e p)) (.ok (.own vs)) ∧ vs.Nodup ∧
      ∀ v, v ∈ vs ↔ w.leads p u v := by
  obtain ⟨out, hout, hnd, hmem⟩ := hs.stands_reachable he hu hp
  exact ⟨out, hout.source, hnd, hmem⟩

end Serves

end GraphPattern
