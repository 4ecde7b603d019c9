import GraphPattern.Schedule
import Mathlib.Data.List.Perm.Basic
import Mathlib.Order.WellFoundedSet

/-!
# GraphPattern — orders of jobs

Jobs have an order exactly if they are distinct, all that is required is given, and requirements do
not go round in a circle. `Schedule.order` then finds one: each job is in it exactly once, behind all
it requires. If there is none, nothing is done at all.

The order is taken from a queue. A job gets onto it as soon as all it requires was taken; so what
is taken stands behind its requirements. What never gets onto it still requires something that is
not taken either, and among finitely many jobs this goes round in a circle.

## Results

* `Schedule.drain_behind` — what is taken from the queue stands behind all it requires.
* `Schedule.exists_left_of_drain` — what is never taken requires something that is never taken.
* `Schedule.isOrder_of_order` — the order that is found is one.
* `Schedule.exists_order` — one is found if there can be one.
* `Schedule.run_or_refuse` — a run does the jobs in such an order, or does nothing.
-/

namespace GraphPattern

@[simp] theorem Job.name_without (j : Job) (done : String) : (j.without done).name = j.name :=
  rfl

theorem Job.mem_requires_without {j : Job} {done r : String} :
    r ∈ (j.without done).requires ↔ r ∈ j.requires ∧ r ≠ done := by
  simp [without]

theorem Job.ready_iff {j : Job} : j.ready = true ↔ ∀ r, r ∉ j.requires := by
  rw [ready, List.isEmpty_iff, List.eq_nil_iff_forall_not_mem]

namespace Schedule

/-! ## Orders -/

/-- The first job requires the second one. -/
def Requires (jobs : List Job) (a b : String) : Prop :=
  ∃ j ∈ jobs, j.name = a ∧ b ∈ j.requires

/-- Jobs are distinct, all they require is given, and no job has to be done before itself. -/
structure Orderable (jobs : List Job) : Prop where
  distinct : (jobs.map (·.name)).Nodup
  given : ∀ j ∈ jobs, ∀ r ∈ j.requires, r ∈ jobs.map (·.name)
  acyclic : ∀ a, ¬Relation.TransGen (Requires jobs) a a

/-- Every job is in the order exactly once, behind all it requires. -/
structure IsOrder (jobs : List Job) (names : List String) : Prop where
  once : names.Nodup
  all : names.Perm (jobs.map (·.name))
  behind : ∀ j ∈ jobs, ∀ before after, names = before ++ j.name :: after →
    ∀ r ∈ j.requires, r ∈ before

theorem IsOrder.not_mem_before {jobs : List Job} {names : List String} (h : IsOrder jobs names)
    {before after : List String} {a : String} (hnames : names = before ++ a :: after) :
    a ∉ before := by
  have honce := h.once
  rw [hnames, List.nodup_append] at honce
  exact fun hmem => honce.2.2 a hmem a List.mem_cons_self rfl

/-- What is required comes earlier. -/
theorem IsOrder.idxOf_lt {jobs : List Job} {names : List String} (h : IsOrder jobs names)
    {a b : String} (hab : Requires jobs a b) : names.idxOf b < names.idxOf a := by
  obtain ⟨j, hj, rfl, hb⟩ := hab
  obtain ⟨before, after, hnames⟩ :=
    List.append_of_mem (h.all.mem_iff.2 (List.mem_map_of_mem hj))
  have hbefore : b ∈ before := h.behind j hj before after hnames b hb
  rw [hnames, List.idxOf_append_of_mem hbefore,
    List.idxOf_append_of_notMem (h.not_mem_before hnames)]
  exact Nat.lt_add_right _ (List.idxOf_lt_length_iff.2 hbefore)

/-- Only such jobs can have an order. -/
theorem IsOrder.orderable {jobs : List Job} {names : List String} (h : IsOrder jobs names) :
    Orderable jobs where
  distinct := h.all.nodup_iff.1 h.once
  given j hj r hr := by
    obtain ⟨before, after, hnames⟩ :=
      List.append_of_mem (h.all.mem_iff.2 (List.mem_map_of_mem hj))
    refine h.all.mem_iff.1 ?_
    rw [hnames]
    exact List.mem_append_left _ (h.behind j hj before after hnames r hr)
  acyclic a ha := by
    have hlt : ∀ {b}, Relation.TransGen (Requires jobs) a b → names.idxOf b < names.idxOf a := by
      intro b hb
      induction hb with
      | single hab => exact h.idxOf_lt hab
      | tail _ hbc ih => exact (h.idxOf_lt hbc).trans ih
    exact Nat.lt_irrefl _ (hlt ha)

/-! ## The queue -/

/-- A job that waits becomes ready or goes on waiting. -/
theorem released_append_held (waiting : List Job) (done : String) :
    (released waiting done ++ (held waiting done).map (·.name)).Perm
      (waiting.map (·.name)) := by
  rw [released, held, ← List.map_append]
  have hsplit := (List.filter_append_perm (·.ready) (waiting.map (·.without done))).map (·.name)
  rwa [List.map_map] at hsplit

/-- Names change their places only when the next name is taken. -/
theorem perm_of_taken (waiting : List Job) (name : String) (queue : List String) :
    ((queue ++ released waiting name) ++ (held waiting name).map (·.name)).Perm
      (queue ++ waiting.map (·.name)) := by
  rw [List.append_assoc]
  exact (released_append_held waiting name).append_left queue

/-- What is taken from the queue stands behind all it requires. -/
theorem drain_behind (waiting : List Job) (queue : List String)
    (honce : (queue ++ waiting.map (·.name)).Nodup) {j : Job} (hj : j ∈ waiting)
    {before after : List String} (h : drain waiting queue = before ++ j.name :: after) :
    ∀ r ∈ j.requires, r ∈ before := by
  induction waiting, queue using drain.induct generalizing j before with
  | case1 waiting =>
    rw [drain] at h
    simp at h
  | case2 waiting name queue ih =>
    rw [drain] at h
    have hrest := List.nodup_cons.1 honce
    cases before with
    | nil =>
      have hname : name = j.name := (List.cons.inj h).1
      exact absurd (List.mem_append_right _ (hname ▸ List.mem_map_of_mem hj)) hrest.1
    | cons first before =>
      obtain ⟨rfl, hdrain⟩ := List.cons.inj h
      intro r hr
      by_cases hfirst : r = name
      · exact hfirst ▸ List.mem_cons_self
      refine List.mem_cons_of_mem _ ?_
      -- it still requires `r`, and so it goes on waiting
      have hleft : r ∈ (j.without name).requires := Job.mem_requires_without.2 ⟨hr, hfirst⟩
      have hheld : j.without name ∈ held waiting name := by
        refine List.mem_filter.2 ⟨List.mem_map_of_mem hj, ?_⟩
        rw [Bool.not_eq_true', Bool.eq_false_iff]
        exact fun hready => Job.ready_iff.1 hready r hleft
      exact ih ((perm_of_taken waiting name queue).nodup_iff.2 hrest.2) hheld hdrain r hleft

/-- What is never taken requires something that is never taken. -/
theorem exists_left_of_drain (waiting : List Job) (queue : List String)
    (hwaiting : ∀ j ∈ waiting, j.ready = false) :
    ∃ left : List Job,
      (drain waiting queue ++ left.map (·.name)).Perm (queue ++ waiting.map (·.name)) ∧
      ∀ k ∈ left, k.ready = false ∧ ∃ j ∈ waiting, j.name = k.name ∧
        ∀ r ∈ k.requires, r ∈ j.requires ∧ r ∉ drain waiting queue := by
  induction waiting, queue using drain.induct with
  | case1 waiting =>
    -- what waits when the queue is empty is never taken
    refine ⟨waiting, by rw [drain], fun k hk => ⟨hwaiting k hk, k, hk, rfl, fun r hr => ⟨hr, ?_⟩⟩⟩
    rw [drain]
    exact List.not_mem_nil
  | case2 waiting name queue ih =>
    have hheld : ∀ j ∈ held waiting name, j.ready = false := fun j hj => by
      simpa using (List.mem_filter.1 hj).2
    obtain ⟨left, hperm, hleft⟩ := ih hheld
    rw [drain]
    refine ⟨left, (hperm.trans (perm_of_taken waiting name queue)).cons name, fun k hk => ?_⟩
    obtain ⟨hready, j', hj', hname, hrequires⟩ := hleft k hk
    obtain ⟨j, hj, rfl⟩ := List.mem_map.1 (List.mem_filter.1 hj').1
    refine ⟨hready, j, hj, hname, fun r hr => ?_⟩
    obtain ⟨hmem, hnot⟩ := hrequires r hr
    obtain ⟨hmem, hne⟩ := Job.mem_requires_without.1 hmem
    exact ⟨hmem, List.not_mem_cons_of_ne_of_not_mem hne hnot⟩

/-! ## The order -/

/-- Everything is on the queue, or waits. -/
theorem perm_of_filter_ready (jobs : List Job) :
    ((jobs.filter (·.ready)).map (·.name) ++ (jobs.filter (!·.ready)).map (·.name)).Perm
      (jobs.map (·.name)) := by
  rw [← List.map_append]
  exact (List.filter_append_perm (·.ready) jobs).map _

/-- What `order` takes from the queue. -/
def taken (jobs : List Job) : List String :=
  drain (jobs.filter (!·.ready)) ((jobs.filter (·.ready)).map (·.name))

theorem order_eq (jobs : List Job) : order jobs =
    if (jobs.map (·.name)).Nodup ∧ (taken jobs).length = jobs.length then .ok (taken jobs)
    else .error .unorderedStages :=
  rfl

/-- The jobs that are never taken. -/
theorem exists_left (jobs : List Job) : ∃ left : List Job,
    (taken jobs ++ left.map (·.name)).Perm (jobs.map (·.name)) ∧
    ∀ k ∈ left, k.ready = false ∧ ∃ j ∈ jobs, j.name = k.name ∧
      ∀ r ∈ k.requires, r ∈ j.requires ∧ r ∉ taken jobs := by
  obtain ⟨left, hperm, hleft⟩ := exists_left_of_drain (jobs.filter (!·.ready))
    ((jobs.filter (·.ready)).map (·.name)) (fun j hj => by simpa using (List.mem_filter.1 hj).2)
  refine ⟨left, hperm.trans (perm_of_filter_ready jobs), fun k hk => ?_⟩
  obtain ⟨hready, j, hj, hrest⟩ := hleft k hk
  exact ⟨hready, j, (List.mem_filter.1 hj).1, hrest⟩

/-- The order that is found is one. -/
theorem isOrder_of_order {jobs : List Job} {names : List String} (h : order jobs = .ok names) :
    IsOrder jobs names := by
  rw [order_eq] at h
  split at h
  · rename_i hfound
    obtain rfl := Except.ok.inj h
    obtain ⟨left, hperm, -⟩ := exists_left jobs
    have hleft : left = [] := by
      have hlength := hperm.length_eq
      rw [List.length_append, List.length_map, List.length_map, hfound.2] at hlength
      exact List.length_eq_zero_iff.1 (by omega)
    rw [hleft, List.map_nil, List.append_nil] at hperm
    refine ⟨hperm.nodup_iff.2 hfound.1, hperm, fun j hj before after hnames r hr => ?_⟩
    refine drain_behind _ _ ((perm_of_filter_ready jobs).nodup_iff.2 hfound.1) ?_ hnames r hr
    refine List.mem_filter.2 ⟨hj, ?_⟩
    rw [Bool.not_eq_true', Bool.eq_false_iff]
    exact fun hready => Job.ready_iff.1 hready r hr
  · cases h

/-- Where requirements do not go round in a circle, not each of finitely many jobs requires another
one of them. -/
theorem eq_nil_of_requires {jobs : List Job} (h : ∀ a, ¬Relation.TransGen (Requires jobs) a a)
    {names : List String} (hnames : ∀ a ∈ names, ∃ b ∈ names, Requires jobs a b) : names = [] := by
  -- from a name to one it requires, and so on, never leads back, and so comes to an end
  have : IsStrictOrder String fun b a => Relation.TransGen (Requires jobs) a b :=
    { irrefl := h, trans := fun _ _ _ hba hcb => hcb.trans hba }
  have hwell := Set.Finite.wellFoundedOn (r := fun b a => Relation.TransGen (Requires jobs) a b)
    names.finite_toSet
  refine List.eq_nil_iff_forall_not_mem.2 fun a ha => ?_
  refine hwell.induction (P := fun _ => False) ha fun b hb ih => ?_
  obtain ⟨c, hc, hbc⟩ := hnames b hb
  exact ih c hc (.single hbc)

/-- An order is found where there can be one. -/
theorem exists_order {jobs : List Job} (h : Orderable jobs) : ∃ names, order jobs = .ok names := by
  obtain ⟨left, hperm, hleft⟩ := exists_left jobs
  have hnil : left.map (·.name) = [] := by
    refine eq_nil_of_requires h.acyclic fun a ha => ?_
    obtain ⟨k, hk, rfl⟩ := List.mem_map.1 ha
    obtain ⟨hready, j, hj, hname, hrequires⟩ := hleft k hk
    obtain ⟨r, hr⟩ : ∃ r, r ∈ k.requires := by
      by_contra hnone
      rw [Job.ready_iff.2 fun r hr => hnone ⟨r, hr⟩] at hready
      cases hready
    obtain ⟨hrequired, hnot⟩ := hrequires r hr
    refine ⟨r, ?_, j, hj, hname, hrequired⟩
    exact (List.mem_append.1 (hperm.mem_iff.2 (h.given j hj r hrequired))).resolve_left hnot
  -- nothing is left over, so everything was taken
  refine ⟨taken jobs, ?_⟩
  rw [hnil, List.append_nil] at hperm
  rw [order_eq, if_pos ⟨h.distinct, by rw [hperm.length_eq, List.length_map]⟩]

/-- No other jobs are ordered. -/
theorem order_of_not_orderable {jobs : List Job} (h : ¬Orderable jobs) :
    order jobs = .error .unorderedStages := by
  cases hfound : order jobs with
  | ok names => exact absurd (isOrder_of_order hfound).orderable h
  | error x =>
    rw [order_eq] at hfound
    split at hfound
    · cases hfound
    · rw [← Except.error.inj hfound]

/-! ## Runs -/

theorem upTo_of_not_mem {stop? : Option String} {names : List String}
    (h : ∀ s ∈ stop?, s ∉ names) : upTo stop? names = names := by
  induction names with
  | nil => rfl
  | cons name rest ih =>
    have hne : stop? ≠ some name := fun hstop => h name hstop List.mem_cons_self
    rw [upTo, if_neg hne, ih fun s hs hmem => h s hs (List.mem_cons_of_mem _ hmem)]

theorem upTo_append_cons {stop : String} {before : List String} (h : stop ∉ before)
    (after : List String) : upTo (some stop) (before ++ stop :: after) = before ++ [stop] := by
  induction before with
  | nil => exact if_pos rfl
  | cons name rest ih =>
    have hne : some stop ≠ some name := fun hsome =>
      h (Option.some.inj hsome ▸ List.mem_cons_self)
    rw [List.cons_append, upTo, if_neg hne, ih fun hmem => h (List.mem_cons_of_mem _ hmem),
      List.cons_append]

theorem runM_of_order {jobs : List Job} {names : List String} (h : order jobs = .ok names)
    {m : Type → Type} [Monad m] {α : Type} (perform : String → α → m α) (stop? : Option String)
    (start : α) : runM perform jobs stop? start =
      .ok <$> (upTo stop? names).foldlM (fun unit name => perform name unit) start := by
  rw [runM, h]

/-- Jobs that have an order are done in one: all of them, or all up to the one after which to stop.
Of other jobs none is done, whatever effect it would have had. -/
theorem run_or_refuse (jobs : List Job) :
    (Orderable jobs ∧ ∃ names, IsOrder jobs names ∧
      ∀ {m : Type → Type} [Monad m] {α : Type} (perform : String → α → m α) (start : α),
        (∀ stop?, (∀ s ∈ stop?, s ∉ names) →
          runM perform jobs stop? start =
            .ok <$> names.foldlM (fun unit name => perform name unit) start) ∧
        ∀ before stop after, names = before ++ stop :: after →
          runM perform jobs (some stop) start =
            .ok <$> (before ++ [stop]).foldlM (fun unit name => perform name unit) start) ∨
    (¬Orderable jobs ∧
      ∀ {m : Type → Type} [Monad m] {α : Type} (perform : String → α → m α) stop? (start : α),
        runM perform jobs stop? start = pure (.error .unorderedStages)) := by
  by_cases h : Orderable jobs
  · obtain ⟨names, hnames⟩ := exists_order h
    have horder := isOrder_of_order hnames
    refine .inl ⟨h, names, horder, fun perform start => ⟨fun stop? hstop => ?_, ?_⟩⟩
    · rw [runM_of_order hnames, upTo_of_not_mem hstop]
    · intro before stop after hsplit
      rw [runM_of_order hnames, hsplit, upTo_append_cons (horder.not_mem_before hsplit)]
  · refine .inr ⟨h, fun perform stop? start => ?_⟩
    rw [runM, order_of_not_orderable h]

end Schedule

end GraphPattern
