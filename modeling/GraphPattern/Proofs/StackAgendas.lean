import GraphPattern.Proofs.WalkFrontier

/-!
# GraphPattern — what comes first on the stack

The stack of the walk collects entries about edges that are followed from elsewhere in the
meantime, and lists edges again when it comes back to a node. Neither matters to what the walk does
next: this is up to the first entry that is about something new. Two stacks *agree* if they have the
same such entry, and will go on having the same whatever is visited next.

* `Plan.Agree` — stacks that the walk does not tell apart.
* `Plan.agenda` — the entries of some nodes, one node after the other.
* `Plan.agree_erase`, `Plan.agree_cut` — ways of listing the same agenda.
-/

namespace GraphPattern

open PatternGraph

namespace Plan

variable {g : PatternGraph} {visited more : List Handle} {a b c l l' : List Entry} {x : Entry}

/-! ## Agreement -/

/-- The first entry about something that was not visited. -/
def firstNew? (visited : List Handle) (l : List Entry) : Option Entry :=
  l.find? fun x => decide (x.handle ∉ visited)

/-- The same entries come first, whatever is visited besides. -/
def Agree (visited : List Handle) (l l' : List Entry) : Prop :=
  ∀ more, visited ⊆ more → firstNew? more l = firstNew? more l'

theorem firstNew?_append (visited : List Handle) (a b : List Entry) :
    firstNew? visited (a ++ b) = (firstNew? visited a).or (firstNew? visited b) :=
  List.find?_append

theorem firstNew?_eq_none : firstNew? visited l = none ↔ ∀ x ∈ l, x.handle ∈ visited := by
  simp [firstNew?]

theorem firstNew?_cons (hx : x.handle ∉ visited) : firstNew? visited (x :: l) = some x := by
  simp [firstNew?, hx]

theorem firstNew?_some (h : firstNew? visited l = some x) : x ∈ l ∧ x.handle ∉ visited :=
  ⟨List.mem_of_find?_eq_some h, by simpa using List.find?_some h⟩

namespace Agree

theorem refl (visited : List Handle) (l : List Entry) : Agree visited l l :=
  fun _ _ => rfl

theorem symm (h : Agree visited l l') : Agree visited l' l :=
  fun more hsub => (h more hsub).symm

theorem trans (h : Agree visited a b) (h' : Agree visited b c) : Agree visited a c :=
  fun more hsub => (h more hsub).trans (h' more hsub)

theorem mono (h : Agree visited l l') (hsub : visited ⊆ more) : Agree more l l' :=
  fun _ hmore => h _ (List.Subset.trans hsub hmore)

theorem append {a' b' : List Entry} (ha : Agree visited a a') (hb : Agree visited b b') :
    Agree visited (a ++ b) (a' ++ b') := by
  intro more hsub
  rw [firstNew?_append, firstNew?_append, ha more hsub, hb more hsub]

/-- Entries that were visited or stand further in front are no loss. -/
theorem absorb (c b : List Entry) (ha : ∀ x ∈ a, x.handle ∈ visited ∨ x ∈ c) :
    Agree visited (c ++ (a ++ b)) (c ++ b) := by
  intro more hsub
  rw [firstNew?_append, firstNew?_append, firstNew?_append]
  cases hc : firstNew? more c with
  | some y => rfl
  | none =>
    have hnone : firstNew? more a = none := by
      refine firstNew?_eq_none.2 fun x hx => ?_
      rcases ha x hx with hv | hin
      · exact hsub hv
      · exact firstNew?_eq_none.1 hc x hin
    rw [hnone]
    rfl

theorem drop (b : List Entry) (ha : ∀ x ∈ a, x.handle ∈ visited) : Agree visited (a ++ b) b :=
  absorb [] b fun x hx => .inl (ha x hx)

/-- Once the first entry is visited, the rest goes on in its place. -/
theorem tail (h : Agree visited (x :: l) l') (hsub : visited ⊆ more) (hx : x.handle ∈ more) :
    Agree more l l' :=
  (drop (a := [x]) l (by simpa using hx)).symm.trans (h.mono hsub)

theorem firstNew? (h : Agree visited (x :: l) l') (hx : x.handle ∉ visited) :
    firstNew? visited l' = some x := by
  rw [← h visited (List.Subset.refl _), firstNew?_cons hx]

theorem filter (visited : List Handle) (l : List Entry) :
    Agree visited (l.filter fun x => decide (x.handle ∉ visited)) l := by
  intro more hsub
  induction l with
  | nil => rfl
  | cons x l ih =>
    by_cases hx : x.handle ∈ visited
    · have hx' : x.handle ∈ more := hsub hx
      simpa [Plan.firstNew?, hx, hx'] using ih
    · by_cases hx' : x.handle ∈ more
      · simpa [Plan.firstNew?, hx, hx'] using ih
      · simp [Plan.firstNew?, hx, hx']

end Agree

/-! ## Agendas -/

/-- The entries of a node, in the order of its edges. -/
def entriesAt (g : PatternGraph) (n : NodeId) : List Entry :=
  (g.incidencesAt n.index.toNat).map .along

/-- The entries of some nodes, one node after the other. -/
def agenda (g : PatternGraph) (way : List NodeId) : List Entry :=
  way.flatMap (entriesAt g)

@[simp] theorem agenda_nil : agenda g [] = [] :=
  rfl

@[simp] theorem agenda_cons (n : NodeId) (way : List NodeId) :
    agenda g (n :: way) = entriesAt g n ++ agenda g way :=
  List.flatMap_cons

@[simp] theorem agenda_append (way way' : List NodeId) :
    agenda g (way ++ way') = agenda g way ++ agenda g way' :=
  List.flatMap_append

theorem mem_entriesAt (hg : g.Consistent) {n : NodeId} (hn : g.IsNode n) :
    x ∈ entriesAt g n ↔ ∃ i, x = .along i ∧ g.Incident i ∧ i.this = n := by
  obtain ⟨k, rfl, hk⟩ := hn
  rw [entriesAt, List.mem_map]
  constructor
  · rintro ⟨i, hi, rfl⟩
    obtain ⟨hinc, hthis⟩ := (hg.mem_incidencesAt hk).1 hi
    exact ⟨i, rfl, hinc, hthis⟩
  · rintro ⟨i, rfl, hinc, hthis⟩
    exact ⟨i, (hg.mem_incidencesAt hk).2 ⟨hinc, hthis⟩, rfl⟩

/-- A node that comes first is not needed further behind. -/
theorem agree_erase (visited : List Handle) (n : NodeId) (way : List NodeId) :
    Agree visited (entriesAt g n ++ agenda g way) (agenda g (n :: way.erase n)) := by
  rw [agenda_cons]
  by_cases hn : n ∈ way
  · obtain ⟨front, back, -, rfl, herase⟩ := List.exists_erase_eq hn
    rw [herase, agenda_append, agenda_append, agenda_cons, ← List.append_assoc,
      ← List.append_assoc (entriesAt g n)]
    exact Agree.absorb _ _ fun x hx => .inr (List.mem_append_left _ hx)
  · rw [List.erase_of_not_mem hn]
    exact Agree.refl _ _

/-- Nodes at which nothing is left are not needed. -/
theorem agree_cut {way : List NodeId} (rest : List NodeId)
    (h : ∀ n ∈ way, ∀ x ∈ entriesAt g n, x.handle ∈ visited) :
    Agree visited (agenda g (way ++ rest)) (agenda g rest) := by
  rw [agenda_append]
  refine Agree.drop _ fun x hx => ?_
  obtain ⟨n, hn, hin⟩ := List.mem_flatMap.1 hx
  exact h n hn x hin

/-- What a node leaves behind are its entries, as far as they are new. -/
theorem agree_pendingEntries {n : NodeId} (hn : g.IsNode n)
    {es : List Entry} (hes : pendingEntries g n visited = .ok es) :
    Agree visited es (entriesAt g n) := by
  obtain ⟨k, rfl, hk⟩ := hn
  simp only [pendingEntries, incidencesOf_natCast hk, Failure.ofFault, bind, Except.bind] at hes
  cases hes
  have hfilter := Agree.filter visited (entriesAt g ⟨k⟩)
  rwa [entriesAt, List.filter_map] at hfilter

/-- The first new entry of a node is about the first of its edges that are new. -/
theorem firstNew?_entriesAt (hg : g.Consistent) {n : NodeId} (hn : g.IsNode n)
    {j : Incidence} (hj : g.Incident j) (hthis : j.this = n) (hnew : Handle.edge j.edge ∉ visited) :
    ∃ i, firstNew? visited (entriesAt g n) = some (.along i) ∧ g.Incident i ∧ i.this = n ∧
      Handle.edge i.edge ∉ visited ∧ i.edge.index ≤ j.edge.index := by
  obtain ⟨k, rfl, hk⟩ := hn
  rw [firstNew?, entriesAt, List.find?_map]
  have hmem : j ∈ g.incidencesAt k := (hg.mem_incidencesAt hk).2 ⟨hj, hthis⟩
  have hsorted : (g.incidencesAt k).Pairwise Before :=
    hg.incidencesOf_pairwise ⟨k, rfl, hk⟩ (incidencesOf_natCast hk)
  cases hfirst : (g.incidencesAt k).find? fun i => decide (Handle.edge i.edge ∉ visited) with
  | none =>
    have hseen := List.find?_eq_none.1 hfirst j hmem
    rw [decide_eq_true_eq] at hseen
    exact absurd hnew hseen
  | some i =>
    obtain ⟨hinew, front, back, hsplit, hfront⟩ := List.find?_eq_some_iff_append.1 hfirst
    have hi : i ∈ g.incidencesAt k := List.mem_of_find?_eq_some hfirst
    obtain ⟨hinc, hithis⟩ := (hg.mem_incidencesAt hk).1 hi
    refine ⟨i, congrArg (Option.map Entry.along) hfirst, hinc, hithis, of_decide_eq_true hinew, ?_⟩
    rw [hsplit] at hmem hsorted
    rcases List.mem_append.1 hmem with hmem | hmem
    · have hseen := hfront j hmem
      simp [hnew] at hseen
    · rcases List.mem_cons.1 hmem with rfl | hmem
      · exact Nat.le_refl _
      · have hbefore := List.rel_of_pairwise_cons (List.pairwise_append.1 hsorted).2.1 hmem
        rcases hbefore with hlt | ⟨heq, -⟩
        · exact Nat.le_of_lt hlt
        · exact Nat.le_of_eq (congrArg EdgeId.index heq)

end Plan

end GraphPattern
