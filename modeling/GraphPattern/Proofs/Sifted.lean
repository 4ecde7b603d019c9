import GraphPattern.Proofs.Sweeps
import GraphPattern.Proofs.Steady

/-!
# GraphPattern — sifted sweeps

One sweep sifts another if it goes through the same rounds but leaves some results out: each result of
the second sweep stands in a row with what the first one makes of it, and the first sweep has the
results of those rows that are kept, in their order. Where the second sweep ends with a fault, the
first one may have left that part out and go on.

## Results

* `Sifts.after`, `Sifts.eachOwn` — what two sweeps have in common.
* `Sifts.drop` — where the first sweep ends early, no row is kept.
-/

namespace GraphPattern

-- ---------------------------------------------------------------------------
-- Rows
-- ---------------------------------------------------------------------------

variable {ρ : Type} {kept kept' : ρ → Bool} {out out' : ρ → Value} {good good' : ρ → Prop}

/-- The results of the second sweep are those of all rows, the results of the first one those of the
rows that are kept. -/
structure Thins (kept : ρ → Bool) (out out' : ρ → Value) (rows : List ρ) (r r' : Swept) :
    Prop where
  whole : r'.results = rows.map out'
  part : (rows.filter kept).map out <+: r.results
  running : r.ending ≠ .halted ∧ r'.ending ≠ .halted
  done : r'.ending = .done → r.results = (rows.filter kept).map out ∧ r.ending = .done

theorem Thins.andThen {rows more : List ρ} {r r' o o' : Swept}
    (h : Thins kept out out' rows r r') (hmore : Thins kept out out' more o o') :
    ∃ all, (∀ x ∈ all, x ∈ rows ∨ x ∈ more) ∧
      Thins kept out out' all (r.andThen o) (r'.andThen o') := by
  obtain ⟨results, ending⟩ := r
  obtain ⟨results', ending'⟩ := r'
  cases ending' with
  | halted => exact absurd rfl h.running.2
  | done =>
    obtain ⟨hresults, hending⟩ := h.done rfl
    have hwhole : results' = rows.map out' := h.whole
    dsimp only at hresults hending
    subst hresults hending hwhole
    refine ⟨rows ++ more, fun x hx => List.mem_append.1 hx, ?_⟩
    refine { whole := ?_, part := ?_, running := hmore.running, done := fun hdone => ?_ }
    · show rows.map out' ++ o'.results = _
      rw [hmore.whole, List.map_append]
    · show _ <+: (rows.filter kept).map out ++ o.results
      rw [List.filter_append, List.map_append]
      exact (List.prefix_append_right_inj _).2 hmore.part
    · obtain ⟨hall, hend⟩ := hmore.done hdone
      refine ⟨?_, hend⟩
      show (rows.filter kept).map out ++ o.results = _
      rw [hall, List.filter_append, List.map_append]
  | failed f =>
    -- the first sweep may go on where the second one does not
    refine ⟨rows, fun x hx => .inl hx, ?_⟩
    refine { whole := h.whole, part := ?_, running := ⟨?_, Ending.noConfusion⟩, done := nofun }
    · cases ending with
      | done => exact h.part.trans (List.prefix_append _ _)
      | halted => exact h.part
      | failed f => exact h.part
    · cases ending with
      | done => exact hmore.running.1
      | halted => exact absurd rfl h.running.1
      | failed f => exact Ending.noConfusion

/-- The first sweep has the results of the rows of the second one that are kept. -/
def Sifts (kept : ρ → Bool) (out out' : ρ → Value) (good : ρ → Prop) (m m' : Sweep) : Prop :=
  ∃ rows r r', Comes m r ∧ Comes m' r' ∧ Thins kept out out' rows r r' ∧ ∀ x ∈ rows, good x

namespace Sifts

variable {m m' : Sweep}

theorem nothing : Sifts kept out out' good (pure ⟨[], .done⟩) (pure ⟨[], .done⟩) := by
  refine ⟨[], _, _, .pure _, .pure _, ?_, fun x hx => absurd hx List.not_mem_nil⟩
  exact { whole := rfl, part := List.prefix_refl _, running := ⟨Ending.noConfusion, Ending.noConfusion⟩
          done := fun _ => ⟨rfl, rfl⟩ }

/-- Both sweeps have a single result, which is kept. -/
theorem single {a a' : Action Value} {row : ρ} (ha : Gives a (.ok (out row)))
    (ha' : Gives a' (.ok (out' row))) (hkept : kept row = true) (hgood : good row) :
    Sifts kept out out' good (Sweep.after a fun v => pure ⟨[v], .done⟩)
      (Sweep.after a' fun v => pure ⟨[v], .done⟩) := by
  refine ⟨[row], _, _, .after ha (.pure _), .after ha' (.pure _), ?_,
    fun x hx => List.mem_singleton.1 hx ▸ hgood⟩
  have hfilter : [row].filter kept = [row] := List.filter_eq_self.2 fun x hx => by
    rw [List.mem_singleton.1 hx, hkept]
  exact { whole := rfl, part := by rw [hfilter]; exact List.prefix_refl _
          running := ⟨Ending.noConfusion, Ending.noConfusion⟩
          done := fun _ => ⟨by rw [hfilter]; rfl, rfl⟩ }

theorem andThen {next next' : Sweep} (h : Sifts kept out out' good m m')
    (hnext : Sifts kept out out' good next next') :
    Sifts kept out out' good (Sweep.andThen m next) (Sweep.andThen m' next') := by
  obtain ⟨rows, r, r', hm, hm', hthins, hgood⟩ := h
  obtain ⟨more, o, o', hn, hn', hthins', hgood'⟩ := hnext
  obtain ⟨all, hall, hthins⟩ := hthins.andThen hthins'
  exact ⟨all, _, _, hm.andThen hn, hm'.andThen hn', hthins,
    fun x hx => (hall x hx).elim (hgood x) (hgood' x)⟩

theorem eachOwn {body body' : Value → Sweep} {vs : List Value}
    (h : ∀ v ∈ vs, Sifts kept out out' good (body v) (body' v)) :
    Sifts kept out out' good (Sweep.eachOwn body vs) (Sweep.eachOwn body' vs) := by
  induction vs with
  | nil => exact nothing
  | cons v vs ih =>
    obtain ⟨hv, hvs⟩ := List.forall_mem_cons.1 h
    exact hv.andThen (ih hvs)

/-- Both sweeps go on with the same answer. -/
theorem after {α : Type} {a a' : Action α} {P : α → Prop} {k k' : α → Sweep} (heq : a = a')
    (ha : Answers a' P) (hk : ∀ x, P x → Sifts kept out out' good (k x) (k' x)) :
    Sifts kept out out' good (Sweep.after a k) (Sweep.after a' k') := by
  obtain ⟨r, hgives, hpost⟩ := ha
  cases r with
  | ok x =>
    obtain ⟨rows, r, r', hm, hm', hrows⟩ := hk x (hpost x rfl)
    exact ⟨rows, r, r', .after (heq ▸ hgives) hm, .after hgives hm', hrows⟩
  | error f =>
    refine ⟨[], _, _, .after_error (heq ▸ hgives), .after_error hgives, ?_,
      fun x hx => absurd hx List.not_mem_nil⟩
    exact { whole := rfl, part := List.prefix_refl _
            running := ⟨Ending.noConfusion, Ending.noConfusion⟩, done := nofun }

/-- The first sweep does something more before it goes on. -/
theorem first {α : Type} {a : Action α} {x : α} {k : α → Sweep} (ha : Gives a (.ok x))
    (hk : Sifts kept out out' good (k x) m') :
    Sifts kept out out' good (Sweep.after a k) m' := by
  obtain ⟨rows, r, r', hm, hrows⟩ := hk
  exact ⟨rows, r, r', .after ha hm, hrows⟩

theorem congr (h : Sifts kept out out' good m m')
    (hgood : ∀ x, good x → good' x ∧ kept' x = kept x) : Sifts kept' out out' good' m m' := by
  obtain ⟨rows, r, r', hm, hm', hthins, hrows⟩ := h
  refine ⟨rows, r, r', hm, hm', ?_, fun x hx => (hgood x (hrows x hx)).1⟩
  have hfilter : rows.filter kept' = rows.filter kept :=
    List.filter_congr fun x hx => (hgood x (hrows x hx)).2
  exact { whole := hthins.whole, part := hfilter ▸ hthins.part, running := hthins.running
          done := hfilter ▸ hthins.done }

/-- The first sweep ends where it would go on with rows of which none is kept. -/
theorem drop (h : Sifts kept out out' good m m')
    (hgood : ∀ x, good x → good' x ∧ kept' x = false) :
    Sifts kept' out out' good' (pure ⟨[], .done⟩) m' := by
  obtain ⟨rows, r, r', -, hm', hthins, hrows⟩ := h
  refine ⟨rows, _, r', .pure _, hm', ?_, fun x hx => (hgood x (hrows x hx)).1⟩
  have hfilter : rows.filter kept' = [] :=
    List.filter_eq_nil_iff.2 fun x hx => Bool.eq_false_iff.1 (hgood x (hrows x hx)).2
  exact { whole := hthins.whole, part := by rw [hfilter]; exact List.prefix_refl _
          running := ⟨Ending.noConfusion, hthins.running.2⟩
          done := fun _ => ⟨by rw [hfilter]; rfl, rfl⟩ }

end Sifts

end GraphPattern
