import GraphPattern.Proofs.GraphMatches
import GraphPattern.Proofs.Weaves
import GraphPattern.Proofs.Sifted
import GraphPattern.Proofs.Renamed
import GraphPattern.Proofs.Juxtaposed

/-!
# GraphPattern — constraints filter and extend

A row says what every name stands for in a match of the bare pattern, the names that constraints bind
included: each has the value that its form computes from the row. A row is kept if every test of a
constraint holds in it and no value is absent. Running the plan of a pattern alongside that of the bare
one, the matches of the bare pattern are those of all rows, and the matches of the pattern are those of
the rows that are kept, in the same order. Where a constraint ends a round early, it does so for rows
of which none is kept.

## Results

* `Plan.Weave.sifts` — the sweep of a plan sifts that of the bare plan.
* `Matches.sift_bare` — the matches of a pattern and those of the bare pattern.
-/

namespace GraphPattern

/-- What every name stands for. -/
abbrev Row := String → Value

-- ---------------------------------------------------------------------------
-- What forms compute from a row
-- ---------------------------------------------------------------------------

namespace Form

/-- Every parameter is required, and none takes what others leave over. -/
def Strict (f : Form) : Prop :=
  ∃ params, f.params? = some params ∧ ∀ p ∈ params, p.required = true

/-- What a form is called with. -/
def sees (f : Form) (row : Row) : Bindings :=
  (f.params?.getD []).map fun p => (p.name, row p.name)

theorem requires_of_required {params : List Param} (h : ∀ p ∈ params, p.required = true) :
    requires params = params.map (·.name) := by
  have hdemanded : ∀ p ∈ params, p.demanded = true := by
    intro p hp
    rw [Param.demanded, h p hp, Bool.true_or]
  rw [requires, List.filter_eq_self.2 hdemanded]

theorem single_of_required {p : Param} (h : p.required = true) : p.single = true := by
  rw [Param.required, Bool.and_eq_true] at h
  exact h.1

theorem takesKeywords_of_required {params : List Param} (h : ∀ p ∈ params, p.required = true) :
    takesKeywords params = false := by
  rw [takesKeywords, List.any_eq_false]
  intro p hp hkind
  have hsingle := single_of_required (h p hp)
  simp only [decide_eq_true_eq] at hkind
  simp [Param.single, hkind] at hsingle

theorem gather_ok {f : Form} {ctx : Bindings} {row : Row} {params : List Param}
    (h : ∀ p ∈ params, ctx.get? p.name = some (row p.name)) :
    keywordsFor.gather f ctx params = .ok (params.map fun p => (p.name, row p.name)) := by
  have hsight : inSight params ctx = params.map fun p => (p.name, row p.name) := by
    rw [inSight, ← List.filterMap_eq_map]
    refine List.filterMap_congr fun p hp => ?_
    rw [h p hp]
    rfl
  rw [gather_eq fun p hp _ => ⟨_, h p hp⟩, hsight]

theorem get?_passed {row : Row} {params : List Param} {p : Param} (hp : p ∈ params) :
    Bindings.get? (params.map fun p => (p.name, row p.name)) p.name = some (row p.name) := by
  induction params with
  | nil => cases hp
  | cons q params ih =>
    rw [List.map_cons, Bindings.get?]
    by_cases heq : q.name = p.name
    · rw [if_pos heq, heq]
    · rw [if_neg heq]
      rcases List.mem_cons.1 hp with rfl | hp
      · exact absurd rfl heq
      · exact ih hp

theorem fill?_passed {passed : Bindings} {row : Row} {params : List Param}
    (h : ∀ p ∈ params, p.required = true ∧ passed.get? p.name = some (row p.name)) :
    fill? passed params = some (params.map fun p => (p.name, row p.name)) := by
  induction params with
  | nil => rfl
  | cons p params ih =>
    obtain ⟨⟨hrequired, hpassed⟩, hps⟩ := List.forall_mem_cons.1 h
    rw [fill?, if_pos (single_of_required hrequired), hpassed, Option.some_or, ih hps]
    rfl

/-- A form that requires all its parameters sees the keywords as they are passed. -/
theorem environment?_passed {row : Row} {params : List Param}
    (h : ∀ p ∈ params, p.required = true) :
    environment? params (params.map fun p => (p.name, row p.name)) =
      some (params.map fun p => (p.name, row p.name)) := by
  have hfill : fill? (params.map fun p => (p.name, row p.name)) params =
      some (params.map fun p => (p.name, row p.name)) :=
    fill?_passed fun p hp => ⟨h p hp, get?_passed hp⟩
  have hleft : leftover (params.map fun p => (p.name, row p.name)) params = [] := by
    rw [leftover_eq_nil_iff]
    intro b hb
    obtain ⟨p, hp, rfl⟩ := List.mem_map.1 hb
    exact ⟨p, hp, single_of_required (h p hp), rfl⟩
  have hrest : params.filter (·.kind = .rest) = [] := by
    rw [List.filter_eq_nil_iff]
    intro p hp hkind
    have hsingle := single_of_required (h p hp)
    simp only [decide_eq_true_eq] at hkind
    simp [Param.single, hkind] at hsingle
  simp only [environment?, hfill, hleft, hrest, Option.bind_eq_bind, Option.bind_some,
    List.isEmpty_nil, Bool.true_or, if_true, List.map_nil, List.foldl_nil, List.append_nil]

end Form

/-- The value of a form in a row. -/
def Setting.valueOf (s : Setting) (f : Form) (row : Row) : Value :=
  match s.behaviour f (f.sees row) with
  | .ok v => v
  | .error _ => .null

/-- The form takes nothing but names that it requires, and computes a value whatever they stand
for. -/
structure Form.Total (s : Setting) (f : Form) : Prop where
  strict : f.Strict
  legible : f.Legible
  value : ∀ env, ∃ v, s.behaviour f env = .ok v

namespace Form

variable {s : Setting} {f : Form} {bound : List String} {ctx : Bindings} {row : Row}

/-- The names a form requires are in sight. -/
theorem Strict.mem_of_missingParameter? (h : f.Strict)
    (hmissing : Plan.missingParameter? f bound = none) {params : List Param}
    (hparams : f.params? = some params) : ∀ p ∈ params, p.name ∈ bound := by
  obtain ⟨params', hparams', hrequired⟩ := h
  obtain rfl : params' = params := Option.some.inj (hparams'.symm.trans hparams)
  intro p hp
  refine mem_bound_of_missingParameter? hparams (takesKeywords_of_required hrequired) hmissing p hp ?_
  rw [Param.demanded, hrequired p hp, Bool.true_or]

/-- Two rows that agree on what is in sight. -/
theorem Total.sees_congr {row' : Row} (h : f.Total s)
    (hmissing : Plan.missingParameter? f bound = none)
    (hrow : ∀ n ∈ bound, isHiddenName n = false → row n = row' n) : f.sees row = f.sees row' := by
  obtain ⟨params, hparams, hrequired⟩ := h.strict
  rw [sees, sees, hparams]
  refine List.map_congr_left fun p hp => ?_
  have hmem : p.name ∈ bound := h.strict.mem_of_missingParameter? hmissing hparams p hp
  have hvisible : isHiddenName p.name = false := by
    refine h.legible params hparams p.name ?_
    rw [requires_of_required hrequired]
    exact List.mem_map_of_mem hp
  rw [hrow p.name hmem hvisible]

/-- A form is called with what it sees. -/
theorem Total.gives_evaluate (h : f.Total s)
    (hmissing : Plan.missingParameter? f bound = none)
    (hrow : ∀ n ∈ bound, ctx.get? n = some (row n)) :
    Gives (s.evaluate ctx (.call f)) (.ok (s.valueOf f row)) := by
  obtain ⟨params, hparams, hrequired⟩ := h.strict
  have hmem := h.strict.mem_of_missingParameter? hmissing hparams
  -- the form requires all that it takes, and the row has all of it
  have hgather := gather_ok (f := f) fun p hp => hrow p.name (hmem p hp)
  have hsees : f.sees row = params.map fun p => (p.name, row p.name) := by
    rw [sees, hparams]
    rfl
  have hkeywords : f.keywordsFor params ctx = .ok (f.sees row) := by
    rw [keywordsFor, takesKeywords_of_required hrequired, hsees]
    exact hgather
  have henv : environment? params (f.sees row) = some (f.sees row) := by
    rw [hsees, environment?_passed hrequired]
  obtain ⟨v, hv⟩ := h.value (f.sees row)
  have hvalue : s.valueOf f row = v := by rw [Setting.valueOf, hv]
  have hcall : Gives (s.callForm ctx f) (.ok v) := by
    -- the call is told what it sees, and answers with the form's value there
    simp only [Setting.callForm, hparams, hkeywords]
    refine (Gives.ask (.ok (f.sees row))).bind ?_
    simp only [henv, hv]
    exact Gives.bind (x := ()) (fun _ => rfl) (.ask _)
  rw [hvalue]
  refine Setting.gives_evaluate ?_
  rw [Setting.compute]
  exact hcall.map

end Form

-- ---------------------------------------------------------------------------
-- What rows have to say
-- ---------------------------------------------------------------------------

/-- The number of steps after the one that binds a name. -/
def Plan.stepsAfter (name : String) : List Step → Nat
  | [] => 0
  | s :: steps => if name ∈ s.boundNames then steps.length else stepsAfter name steps

/-- A test holds, or a value is not absent. -/
def Clause.passes (s : Setting) (row : Row) : Clause → Bool
  | .test f => (s.valueOf f row).truthy
  | .value _ f => !(s.valueOf f row).isNull

/-- The tests of a constraint hold, and its values are not absent. One that ends an enumeration has
nothing to say about a row. -/
def Constraint.passes (s : Setting) (row : Row) : Constraint → Bool
  | .when f => (s.valueOf f row).truthy
  | .bind bs => bs.all fun b => !(s.valueOf b.2 row).isNull
  | .whilst _ => true

theorem Constraint.passes_eq (s : Setting) (row : Row) {c : Constraint} :
    c.passes s row = c.clauses.all (Clause.passes s row) := by
  cases c with
  | when f => simp [passes, clauses, Clause.passes]
  | bind bs => simp [passes, clauses, Clause.passes, List.all_map, Function.comp_def]
  | whilst f => rfl

theorem Constraint.form_mem_forms {c : Constraint} {x : Clause} (h : x ∈ c.clauses) :
    x.form ∈ c.forms := by
  cases c with
  | when f => simp_all [clauses, forms, Clause.form]
  | bind bs =>
    obtain ⟨b, hb, rfl⟩ := List.mem_map.1 h
    exact List.mem_map_of_mem hb
  | whilst f => cases h

theorem Constraint.mem_names_of_value {c : Constraint} {n : String} {f : Form}
    (h : .value n f ∈ c.clauses) : n ∈ c.names := by
  cases c with
  | when f => simp [clauses] at h
  | bind bs =>
    obtain ⟨b, hb, heq⟩ := List.mem_map.1 h
    cases heq
    exact List.mem_map_of_mem hb
  | whilst f => cases h

/-- The match that a row is. -/
def Row.tuple (names : List String) (row : Row) : Value :=
  .list (names.map row) (.made [])

/-- The row has the values of visible variables. -/
def Row.Shows (row : Row) (bound : List String) (ctx : Bindings) : Prop :=
  ∀ n ∈ bound, isHiddenName n = false → ctx.get? n = some (row n)

theorem Value.isNull_settled (v : Value) (k : Nat) : (v.settled k).isNull = v.isNull := by
  cases v <;> rfl

theorem Row.Shows.of_set {row : Row} {bound : List String} {ctx : Bindings} {n : String} {v : Value}
    (h : row.Shows (n :: bound) (ctx.set n v))
    (hn : isHiddenName n = true ∨ n ∉ bound ∨ ctx.get? n = some v) : row.Shows bound ctx := by
  intro m hm hvisible
  have hset := h m (List.mem_cons_of_mem _ hm) hvisible
  rw [Bindings.get?_set] at hset
  split at hset
  · rename_i heq
    subst heq
    rcases hn with hhidden | hfresh | hsame
    · exact absurd (hhidden.symm.trans hvisible) Bool.noConfusion
    · exact absurd hm hfresh
    · exact hsame.trans hset
  · exact hset

namespace Plan

variable {V : String → String → Prop} {s : Setting} {bound bound' : List String}
  {ctx ctx' : Bindings} {steps steps' : List Step} {cs : List Clause}

/-- The row has the value of every form that is bound by the steps, as it is bound there. -/
def Fills (s : Setting) (steps : List Step) (cs : List Clause) (row : Row) : Prop :=
  ∀ n f, .value n f ∈ cs → row n = (s.valueOf f row).settled (stepsAfter n steps)

/-- What is bound next to each other on the way: what has the same meaning has the same value. -/
structure Abreast (V : String → String → Prop) (bound bound' : List String)
    (ctx ctx' : Bindings) : Prop where
  twin : ∀ {a a'}, V a a' → a' ∈ bound' → a ∈ bound ∧ ctx.get? a = ctx'.get? a'
  visible : ∀ n ∈ bound', isHiddenName n = false → n ∈ bound ∧ ctx.get? n = ctx'.get? n
  given : ∀ n ∈ bound, ∃ v, ctx.get? n = some v
  lasting : ctx'.Lasting

namespace Abreast

theorem compute_eq (h : Abreast V bound bound' ctx ctx') {e e' : Expr} (htwin : e.Twin V e')
    (hreads : e'.Scoped .graph bound') : s.compute ctx e = s.compute ctx' e' := by
  -- along the two expressions: a name read on one side has the value its twin has
  induction htwin with
  | @var a a' name =>
    cases hreads with
    | var mem =>
      obtain ⟨v, hv⟩ := h.given a (h.twin name mem).1
      simp only [Setting.compute, hv, ← (h.twin name mem).2]
  | @argument n name =>
    cases hreads with
    | argument mem =>
      obtain ⟨v, hv⟩ := h.given n (h.twin name mem).1
      simp only [Setting.compute, hv, ← (h.twin name mem).2]
  | instances => rfl
  | adjacent source ih =>
    cases hreads with
    | adjacent _ source => simp only [Setting.compute, ih source]
  | edgeEnd edge ih =>
    cases hreads with
    | edgeEnd _ edge => simp only [Setting.compute, ih edge]
  | reachable start ih =>
    cases hreads with
    | reachable start _ => simp only [Setting.compute, ih start]
  | equal left right ihl ihr =>
    cases hreads with
    | equal left right => simp only [Setting.compute, ihl left, ihr right]
  | isInstance value ih =>
    cases hreads with
    | isInstance value => simp only [Setting.compute, ih value]
  | nonEmpty collection ih =>
    cases hreads with
    | nonEmpty collection => simp only [Setting.compute, ih collection]
  | member element collection ihe ihc =>
    cases hreads with
    | member element collection => simp only [Setting.compute, ihe element, ihc collection]
  | present value ih =>
    cases hreads with
    | present value => simp only [Setting.compute, ih value]

/-- Both plans bind what has the same meaning. -/
theorem bind (hV : Naming V) (h : Abreast V bound bound' ctx ctx') {a a' : String} (name : V a a')
    {v : Value} (hv : v.Lasting) :
    Abreast V (a :: bound) (a' :: bound') (ctx.set a v) (ctx'.set a' v) where
  twin := by
    intro c c' hc hmem
    rw [Bindings.get?_set, Bindings.get?_set]
    -- the names bound now are twins, and the others were before
    by_cases heq : a' = c'
    · have hac : a = c := (hV.injective name hc).2 heq
      rw [if_pos hac, if_pos heq, ← hac]
      exact ⟨List.mem_cons_self, rfl⟩
    · have hac : a ≠ c := fun hac => heq ((hV.injective name hc).1 hac)
      rw [if_neg hac, if_neg heq]
      have hbound' : c' ∈ bound' := (List.mem_cons.1 hmem).resolve_left (Ne.symm heq)
      exact ⟨List.mem_cons_of_mem _ (h.twin hc hbound').1, (h.twin hc hbound').2⟩
  visible := by
    intro n hn hvisible
    have hhidden : isHiddenName a = true → isHiddenName a' = true := hV.hidden name
    rw [Bindings.get?_set, Bindings.get?_set]
    -- a hidden name stands for a hidden one, so no visible name is bound here
    by_cases ha : isHiddenName a = true
    · have hne : a ≠ n := fun heq => by rw [heq, hvisible] at ha; cases ha
      have hne' : a' ≠ n := fun heq => by
        have hhid := hhidden ha
        rw [heq, hvisible] at hhid
        cases hhid
      rw [if_neg hne, if_neg hne']
      have hbound' : n ∈ bound' := (List.mem_cons.1 hn).resolve_left (Ne.symm hne')
      exact ⟨List.mem_cons_of_mem _ (h.visible n hbound' hvisible).1, (h.visible n hbound' hvisible).2⟩
    · -- a visible name stands for itself
      obtain rfl : a' = a := hV.visible name (Bool.eq_false_iff.2 ha)
      by_cases heq : a' = n
      · rw [if_pos heq, if_pos heq, heq]
        exact ⟨List.mem_cons_self, rfl⟩
      · rw [if_neg heq, if_neg heq]
        have hbound' : n ∈ bound' := (List.mem_cons.1 hn).resolve_left (Ne.symm heq)
        exact ⟨List.mem_cons_of_mem _ (h.visible n hbound' hvisible).1,
          (h.visible n hbound' hvisible).2⟩
  given := by
    intro n hn
    rw [Bindings.get?_set]
    split
    · exact ⟨v, rfl⟩
    · rename_i hne
      exact h.given n ((List.mem_cons.1 hn).resolve_left (Ne.symm hne))
  lasting := h.lasting.set _ hv

/-- The plan of the pattern binds a name of its own. -/
theorem extend (h : Abreast V bound bound' ctx ctx') {n : String} (hn : n ∉ bound) (v : Value) :
    Abreast V (n :: bound) bound' (ctx.set n v) ctx' where
  twin := by
    intro a a' ha hmem
    obtain ⟨hbound, heq⟩ := h.twin ha hmem
    have hne : n ≠ a := fun heq => hn (heq ▸ hbound)
    rw [Bindings.get?_set, if_neg hne]
    exact ⟨List.mem_cons_of_mem _ hbound, heq⟩
  visible := by
    intro m hm hvisible
    obtain ⟨hbound, heq⟩ := h.visible m hm hvisible
    have hne : n ≠ m := fun heq => hn (heq ▸ hbound)
    rw [Bindings.get?_set, if_neg hne]
    exact ⟨List.mem_cons_of_mem _ hbound, heq⟩
  given := by
    intro m hm
    rw [Bindings.get?_set]
    split
    · exact ⟨v, rfl⟩
    · rename_i hne
      exact h.given m ((List.mem_cons.1 hm).resolve_left (Ne.symm hne))
  lasting := h.lasting

end Abreast

-- ---------------------------------------------------------------------------
-- The sweeps of both plans
-- ---------------------------------------------------------------------------

theorem stepsAfter_cons {n : String} {x : Step} (h : n ∉ x.boundNames) :
    stepsAfter n (x :: steps) = stepsAfter n steps := by
  rw [stepsAfter, if_neg h]

theorem Fills.skip {row : Row} {x : Step} (hx : x.boundNames = [])
    (h : Fills s steps cs row) : Fills s (x :: steps) cs row := by
  intro n f hc
  rw [stepsAfter_cons (by simp [hx])]
  exact h n f hc

theorem Fills.bind {row : Row} {x : Step} {a : String} (hx : x.boundNames = [a])
    (hfresh : ∀ n f, .value n f ∈ cs → n ∉ a :: bound) (h : Fills s steps cs row) :
    Fills s (x :: steps) cs row := by
  intro n f hc
  have hne : n ∉ x.boundNames := by
    rw [hx]
    exact fun hn => hfresh n f hc (by simp [List.mem_singleton.1 hn])
  rw [stepsAfter_cons hne]
  exact h n f hc

theorem Fills.test {row : Row} {e : Expr} {f : Form} (h : Fills s steps cs row) :
    Fills s (.guard e :: steps) (.test f :: cs) row := by
  intro n g hc
  exact h.skip rfl n g ((List.mem_cons.1 hc).resolve_left Clause.noConfusion)

theorem Fills.value {row : Row} {n : String} {f : Form} {e : Expr}
    (hfresh : ∀ m g, .value m g ∈ cs → m ∉ n :: bound) (h : Fills s steps cs row)
    (hn : row n = (s.valueOf f row).settled (steps.length + 1)) :
    Fills s (.assign n (.call f) :: .guard e :: steps) (.value n f :: cs) row := by
  intro m g hc
  rcases List.mem_cons.1 hc with heq | hc
  · cases heq
    rw [hn, stepsAfter, if_pos (by simp [Step.boundNames])]
    rfl
  · exact (h.skip rfl).bind rfl hfresh m g hc

/-- Names that are bound to the values of forms are not in sight before. -/
theorem Weave.fresh (h : Weave V bound bound' steps steps' cs) :
    ∀ n f, .value n f ∈ cs → n ∉ bound := by
  induction h with
  | done => exact fun n f hc => absurd hc List.not_mem_nil
  | generate _ _ _ _ _ _ ih =>
    exact fun n f hc hn => ih n f hc (List.mem_cons_of_mem _ hn)
  | assign _ _ _ _ _ _ ih =>
    exact fun n f hc hn => ih n f hc (List.mem_cons_of_mem _ hn)
  | guard _ _ _ _ ih => exact ih
  | test _ _ ih =>
    intro n f hc
    exact ih n f ((List.mem_cons.1 hc).resolve_left Clause.noConfusion)
  | value fresh _ _ ih =>
    intro n f hc hn
    rcases List.mem_cons.1 hc with heq | hc
    · cases heq
      exact fresh hn
    · exact ih n f hc (List.mem_cons_of_mem _ hn)

/-- What is assigned is new, or an argument that stays what was supplied for it. -/
theorem Abreast.answers_assigned (h : Abreast V bound bound' ctx ctx') {n : String} {e e' : Expr}
    (name : V n n) (fresh : e = .argument n ∨ n ∉ bound) (value : e.Twin V e')
    (reads : e'.Scoped .graph bound') (direct : e'.Direct) :
    Answers (s.evaluate ctx' e') fun v => v.Lasting ∧ (n ∉ bound ∨ ctx.get? n = some v) := by
  rcases fresh with rfl | hnew
  · cases value
    cases reads with
    | argument mem =>
      obtain ⟨hbound, heq⟩ := h.twin name mem
      obtain ⟨v, hv⟩ := h.given n hbound
      have hgives : Gives (s.evaluate ctx' (.argument n)) (.ok v) := by
        refine Setting.gives_evaluate ?_
        rw [Setting.compute, ← heq, hv]
        exact .pure _
      exact ⟨_, hgives, .ok ⟨h.lasting n v (heq ▸ hv), .inr hv⟩⟩
  · obtain ⟨r, hgives, hlasting⟩ :=
      Setting.answers_evaluate (Setting.answers_direct (s := s) h.lasting direct)
    exact ⟨r, hgives, fun v hv => ⟨hlasting v hv, .inl hnew⟩⟩

theorem Abreast.exists_row (h : Abreast V bound bound' ctx ctx') :
    ∃ row : Row, ∀ n ∈ bound, ctx.get? n = some (row n) := by
  refine ⟨fun n => (ctx.get? n).getD .null, fun n hn => ?_⟩
  obtain ⟨v, hv⟩ := h.given n hn
  simp only [hv, Option.getD_some]

/-- The value of a form is the same in every row that shows what is in sight. -/
theorem valueOf_eq {f : Form} {row row' : Row} (hf : f.Total s)
    (hmissing : missingParameter? f bound = none)
    (hrow : ∀ n ∈ bound, ctx.get? n = some (row n)) (hshows : row'.Shows bound ctx) :
    s.valueOf f row' = s.valueOf f row := by
  have hsees : f.sees row' = f.sees row := by
    refine hf.sees_congr hmissing fun n hn hvisible => ?_
    exact Option.some.inj ((hshows n hn hvisible).symm.trans (hrow n hn))
  rw [Setting.valueOf, Setting.valueOf, hsees]

theorem holds_present {n : String} {v : Value} (h : ctx.get? n = some v) :
    Gives (s.holds ctx (.present (.var n))) (.ok (!v.isNull)) := by
  refine Setting.gives_holds ?_
  simp only [Setting.compute, h]
  exact Gives.bind (.pure _) (Gives.bind (.value v) (.pure _))

variable {names names' : List String} {emit emit' : Bindings → Action Value}

/-- Names that are bound by the next step are in sight after it. -/
theorem in_sight_after {x : Step} {a : String} (hx : x.boundNames = [a])
    (h : ∀ n ∈ names, n ∈ bound ∨ n ∈ (x :: steps).flatMap Step.boundNames) :
    ∀ n ∈ names, n ∈ a :: bound ∨ n ∈ steps.flatMap Step.boundNames := by
  intro n hn
  have hmem := h n hn
  rw [List.flatMap_cons, hx, List.mem_append, List.mem_singleton] at hmem
  rw [List.mem_cons]
  tauto

/-- The results of matches are the tuples of some names. -/
def GivesTuples (emit : Bindings → Action Value) (names : List String) : Prop :=
  ∀ ctx (row : Row), (∀ n ∈ names, ctx.get? n = some (row n)) →
    Gives (emit ctx) (.ok (row.tuple names))

/-- A form that is called for its truth keeps the rows at which it passes. -/
theorem sifts_test {f : Form} {cs : List Clause} {m' : Sweep} (hf : f.Total s)
    (hrequired : missingParameter? f bound = none) (hctx : Abreast V bound bound' ctx ctx')
    (hrest : Sifts (fun row => cs.all (Clause.passes s row)) (Row.tuple names) (Row.tuple names')
      (fun row => row.Shows bound ctx ∧ Fills s steps cs row) (s.sweep emit steps ctx) m') :
    Sifts (fun row => (Clause.test f :: cs).all (Clause.passes s row)) (Row.tuple names)
      (Row.tuple names')
      (fun row => row.Shows bound ctx ∧ Fills s (.guard (.call f) :: steps) (.test f :: cs) row)
      (s.sweep emit (.guard (.call f) :: steps) ctx) m' := by
  obtain ⟨row, hrow⟩ := hctx.exists_row
  have hholds : Gives (s.holds ctx (.call f)) (.ok (s.valueOf f row).truthy) :=
    (hf.gives_evaluate hrequired hrow).map
  have hpasses : ∀ r : Row, r.Shows bound ctx →
      Clause.passes s r (.test f) = (s.valueOf f row).truthy := fun r hshows => by
    rw [Clause.passes, valueOf_eq hf hrequired hrow hshows]
  refine .first hholds ?_
  cases hpass : (s.valueOf f row).truthy with
  | true =>
    refine hrest.congr fun r hgood => ⟨⟨hgood.1, hgood.2.test⟩, ?_⟩
    rw [List.all_cons, hpasses r hgood.1, hpass, Bool.true_and]
  | false =>
    refine hrest.drop fun r hgood => ⟨⟨hgood.1, hgood.2.test⟩, ?_⟩
    rw [List.all_cons, hpasses r hgood.1, hpass, Bool.false_and]

/-- A form that is called for a value keeps the rows at which there is one. -/
theorem sifts_value {n : String} {f : Form} {cs : List Clause} {m' : Sweep} (hf : f.Total s)
    (hvisible : isHiddenName n = false) (hfresh : n ∉ bound)
    (hlater : ∀ m g, .value m g ∈ cs → m ∉ n :: bound)
    (hrequired : missingParameter? f bound = none)
    (hctx : Abreast V bound bound' ctx ctx')
    (hrest : ∀ v, Sifts (fun row => cs.all (Clause.passes s row)) (Row.tuple names)
      (Row.tuple names') (fun row => row.Shows (n :: bound) (ctx.set n v) ∧ Fills s steps cs row)
      (s.sweep emit steps (ctx.set n v)) m') :
    Sifts (fun row => (Clause.value n f :: cs).all (Clause.passes s row)) (Row.tuple names)
      (Row.tuple names')
      (fun row => row.Shows bound ctx ∧
        Fills s (.assign n (.call f) :: .guard (.present (.var n)) :: steps) (.value n f :: cs) row)
      (s.sweep emit (.assign n (.call f) :: .guard (.present (.var n)) :: steps) ctx) m' := by
  obtain ⟨row, hrow⟩ := hctx.exists_row
  let v := (s.valueOf f row).settled (steps.length + 1)
  have hpasses : ∀ r : Row, r.Shows bound ctx →
      Clause.passes s r (.value n f) = !v.isNull := fun r hshows => by
    rw [Clause.passes, valueOf_eq hf hrequired hrow hshows, Value.isNull_settled]
  have hgood : ∀ r : Row, r.Shows (n :: bound) (ctx.set n v) ∧ Fills s steps cs r →
      r.Shows bound ctx ∧ Fills s (.assign n (.call f) :: .guard (.present (.var n)) :: steps)
        (.value n f :: cs) r := by
    rintro r ⟨hshows, hfills⟩
    have hbefore : r.Shows bound ctx := hshows.of_set (.inr (.inl hfresh))
    have hset := hshows n List.mem_cons_self hvisible
    rw [Bindings.get?_set, if_pos rfl] at hset
    refine ⟨hbefore, hfills.value hlater ?_⟩
    rw [valueOf_eq hf hrequired hrow hbefore]
    exact (Option.some.inj hset).symm
  have hpresent : Gives (s.holds (ctx.set n v) (.present (.var n))) (.ok (!v.isNull)) :=
    holds_present (by rw [Bindings.get?_set, if_pos rfl])
  refine .first (hf.gives_evaluate hrequired hrow) (.first hpresent ?_)
  -- where the value is absent, the match is dropped and the clause fails
  cases hnull : v.isNull with
  | false =>
    refine (hrest v).congr fun r hr => ⟨hgood r hr, ?_⟩
    rw [List.all_cons, hpasses r (hgood r hr).1, hnull, Bool.not_false, Bool.true_and]
  | true =>
    refine (hrest v).drop fun r hr => ⟨hgood r hr, ?_⟩
    rw [List.all_cons, hpasses r (hgood r hr).1, hnull, Bool.not_true, Bool.false_and]

/-- The sweep of a plan sifts that of the bare plan. -/
theorem Weave.sifts (hV : Naming V) (hemit : GivesTuples emit names)
    (hemit' : GivesTuples emit' names') (hvisible' : ∀ n ∈ names', isHiddenName n = false)
    (h : Weave V bound bound' steps steps' cs) (htotal : ∀ c ∈ cs, c.form.Total s)
    (hnamed : ∀ n f, .value n f ∈ cs → isHiddenName n = false)
    (hnames : ∀ n ∈ names, n ∈ bound ∨ n ∈ steps.flatMap Step.boundNames)
    (hnames' : ∀ n ∈ names', n ∈ bound' ∨ n ∈ steps'.flatMap Step.boundNames)
    (hctx : Abreast V bound bound' ctx ctx') :
    Sifts (fun row => cs.all (Clause.passes s row)) (Row.tuple names) (Row.tuple names')
      (fun row => row.Shows bound ctx ∧ Fills s steps cs row)
      (s.sweep emit steps ctx) (s.sweep emit' steps' ctx') := by
  -- along the weave: the steps of one plan, with those of constraints between them
  induction h generalizing ctx ctx' with
  | @done bound bound' =>
    obtain ⟨row, hrow⟩ := hctx.exists_row
    have hin : ∀ n ∈ names, ctx.get? n = some (row n) := fun n hn =>
      hrow n ((hnames n hn).resolve_right List.not_mem_nil)
    have hin' : ∀ n ∈ names', ctx'.get? n = some (row n) := fun n hn => by
      have hbound' := (hnames' n hn).resolve_right List.not_mem_nil
      obtain ⟨hbound, heq⟩ := hctx.visible n hbound' (hvisible' n hn)
      rw [← heq, hrow n hbound]
    exact .single (hemit ctx row hin) (hemit' ctx' row hin') rfl
      ⟨fun n hn _ => hrow n hn, fun n f hc => absurd hc List.not_mem_nil⟩
  | @generate bound bound' a a' e e' steps steps' cs name fresh source reads ranging more ih =>
    have hfresh := more.fresh
    refine Sifts.after (by rw [Setting.source, Setting.source, hctx.compute_eq source reads])
      (Setting.answers_source hctx.lasting ranging) ?_
    rintro _ ⟨vs, rfl, hvs⟩
    refine Sifts.eachOwn fun v hv => ?_
    rw [hvs v hv, hvs v hv]
    refine (ih htotal hnamed (in_sight_after rfl hnames) (in_sight_after rfl hnames')
      (hctx.bind hV name (hvs v hv))).congr fun row hgood => ⟨⟨?_, ?_⟩, rfl⟩
    · exact hgood.1.of_set (fresh.imp_right .inl)
    · exact hgood.2.bind rfl hfresh
  | @assign bound bound' n e e' steps steps' cs name fresh value reads direct more ih =>
    have hfresh := more.fresh
    refine Sifts.after (by rw [Setting.evaluate, Setting.evaluate, hctx.compute_eq value reads])
      (hctx.answers_assigned name fresh value reads direct) fun v hv => ?_
    rw [hv.1, hv.1]
    refine (ih htotal hnamed (in_sight_after rfl hnames) (in_sight_after rfl hnames')
      (hctx.bind hV name hv.1)).congr fun row hgood => ⟨⟨?_, ?_⟩, rfl⟩
    · exact hgood.1.of_set (.inr hv.2)
    · exact hgood.2.bind rfl hfresh
  | @guard bound bound' e e' steps steps' cs test reads testing more ih =>
    refine Sifts.after (by
      rw [Setting.holds, Setting.holds, Setting.evaluate, Setting.evaluate,
        hctx.compute_eq test reads]) (Setting.answers_holds hctx.lasting testing) fun b _ => ?_
    cases b with
    | false => exact .nothing
    | true =>
      refine (ih htotal hnamed hnames hnames' hctx).congr fun row hgood => ⟨⟨hgood.1, ?_⟩, rfl⟩
      exact hgood.2.skip rfl
  | @test bound bound' f steps steps' cs required more ih =>
    have htotal' := (List.forall_mem_cons.1 htotal).2
    have hnamed := fun n f hc => hnamed n f (List.mem_cons_of_mem _ hc)
    exact sifts_test (htotal (.test f) List.mem_cons_self) required hctx
      (ih htotal' hnamed hnames hnames' hctx)
  | @value bound bound' n f steps steps' cs fresh required more ih =>
    have htotal' := (List.forall_mem_cons.1 htotal).2
    have hnamed' := fun n f hc => hnamed n f (List.mem_cons_of_mem _ hc)
    exact sifts_value (htotal (.value n f) List.mem_cons_self) (hnamed n f List.mem_cons_self) fresh
      more.fresh required hctx fun v =>
        ih htotal' hnamed' (in_sight_after rfl hnames) hnames' (hctx.extend fresh v)

-- ---------------------------------------------------------------------------
-- Names of both plans
-- ---------------------------------------------------------------------------

theorem boundNames_constraintStep (c : Constraint) : (constraintStep c).boundNames = c.names := by
  cases c with
  | when f => rfl
  | bind bs => simp [constraintStep, Step.boundNames, Constraint.names, Function.comp_def]
  | whilst f => rfl

/-- A plan gives out the names of the bare plan, and those that constraints bind. -/
theorem Woven.mem_visible_iff {args : List String} {cs : List Constraint} (hV : Naming V)
    (h : Woven args V steps steps' cs) {n : String} (hn : isHiddenName n = false) :
    n ∈ steps.flatMap Step.boundNames ↔
      n ∈ steps'.flatMap Step.boundNames ∨ ∃ c ∈ cs, n ∈ c.names := by
  induction h with
  | done => simp
  | @step x x' steps steps' cs twin _ ih =>
    rw [List.flatMap_cons, List.flatMap_cons, List.mem_append, List.mem_append, ih, or_assoc]
    refine or_congr_left ?_
    rcases twin.boundNames with ⟨hnone, hnone'⟩ | ⟨a, a', ha, hone, hone'⟩
    · rw [hnone, hnone']
    · rw [hone, hone', List.mem_singleton, List.mem_singleton]
      by_cases hidden : isHiddenName a = true
      · have hidden' := hV.hidden ha hidden
        constructor
        · rintro rfl
          exact absurd (hidden.symm.trans hn) Bool.noConfusion
        · rintro rfl
          exact absurd (hidden'.symm.trans hn) Bool.noConfusion
      · rw [hV.visible ha (Bool.eq_false_iff.2 hidden)]
  | @constraint c steps steps' cs _ ih =>
    rw [List.flatMap_cons, List.mem_append, ih, boundNames_constraintStep]
    simp only [List.mem_cons, exists_eq_or_imp]
    tauto

end Plan

-- ---------------------------------------------------------------------------
-- Matches of both patterns
-- ---------------------------------------------------------------------------

/-- The steps of both plans, expanded. -/
theorem Plan.Interwoven.weave {cx : Context} {V : String → String → Prop} {p p₀ : Plan}
    {cs : List Constraint} (h : Plan.Interwoven cx V p p₀ cs)
    (hbare : cx.bare.compile = .ok p₀.expanded) (hengine : cx.engine = .graph)
    (hplain : ∀ c ∈ cs, ∀ f, c ≠ .whilst f) :
    Plan.Weave V cx.arguments (cx.arguments.filter fun n => !isHiddenName n) p.expanded.steps
      p₀.expanded.steps (cs.flatMap Constraint.clauses) := by
  have hreads := h.reads
  have hbareReads := h.bareReads
  rw [hengine] at hreads hbareReads
  have horderly : Plan.Orderly cx.arguments cx.arguments p.expanded.steps :=
    { reads := hreads
      nodup := by
        have hnodup := h.nodup
        rwa [← Plan.boundNames_expanded] at hnodup
      kept := List.findSome?_eq_none_iff.1 h.kept
      fresh := fun n hn _ => hn }
  exact h.woven.weave horderly hbareReads (Context.shaped_of_compile hbare) hplain

/-- Both plans start with what is supplied. -/
theorem Plan.Abreast.start {V : String → String → Prop} {names : List String} {args : Bindings}
    (hV : Naming V) (hlasting : args.Lasting) (hgiven : ∀ n ∈ names, ∃ v, args.get? n = some v) :
    Plan.Abreast V names (names.filter fun n => !isHiddenName n) args args where
  twin := by
    intro a a' ha hmem
    obtain ⟨hmem, hvisible⟩ := List.mem_filter.1 hmem
    have hvisible' : isHiddenName a = false := by
      refine Bool.eq_false_iff.2 fun hidden => ?_
      rw [hV.hidden ha hidden] at hvisible
      cases hvisible
    obtain rfl := hV.visible ha hvisible'
    exact ⟨hmem, rfl⟩
  visible n hn _ := ⟨(List.mem_filter.1 hn).1, rfl⟩
  given := hgiven
  lasting := hlasting

/-- All matches, where it is known what the sweep comes to. -/
theorem Matches.all_of_comes {m : Matches} {r : Swept}
    (h : Comes (m.setting.sweep m.emit m.plan.steps m.arguments) r) :
    m.all.results = r.results ∧
      (m.all.fault? = none ↔ r.ending = .done ∨ r.ending = .halted) := by
  have hrun := h {}
  simp only [all]
  rcases hswept : (m.setting.sweep m.emit m.plan.steps m.arguments).run {} with ⟨swept, j⟩
  rw [hswept] at hrun
  obtain rfl : swept = r := hrun
  refine ⟨rfl, ?_⟩
  cases hending : swept.ending <;> simp [hending]

theorem Matches.givesTuples {m : Matches} (h : m.result? = none) :
    Plan.GivesTuples m.emit m.plan.resultNames :=
  fun _ _ hrow => gives_emit h hrow

/-- Arguments stand for what is supplied, and every name that a constraint of a pattern binds stands
for the value of its form, as the plan binds it. -/
structure Row.Extends (row : Row) (s : Setting) (cx : Context) (args : Bindings) (ts : List Token)
    (plan : Plan) : Prop where
  supplied : row.Shows cx.arguments args
  bound : ∀ bs, .bind bs ∈ Token.constraints ts → ∀ b ∈ bs,
    row b.1 = (s.valueOf b.2 row).settled (Plan.stepsAfter b.1 plan.steps)

/-- The row passes all constraints of a pattern. -/
def Row.kept (s : Setting) (ts : List Token) (row : Row) : Bool :=
  (Token.constraints ts).all (Constraint.passes s row)

open Plan in
/-- Constraints that end no enumeration only filter and extend matches. The matches of the bare
pattern are rows; those of the pattern are the rows that are kept, in the same order and with the
values that constraints bind. Where the bare pattern meets a fault, the rows before it are still the
first ones. -/
theorem Matches.sift_bare {cx : Context} {ts : List Token} {plan : Plan} {s : Setting}
    {args : Bindings} (hts : Token.classify cx.elements = .ok ts) (hcompile : cx.compile = .ok plan)
    (hengine : cx.engine = .graph) (hs : s.engine = .graph)
    (hplain : ∀ c ∈ Token.constraints ts, ∀ f, c ≠ .whilst f)
    (htotal : ∀ c ∈ Token.constraints ts, ∀ f ∈ c.forms, f.Total s)
    (hlasting : args.Lasting) (hgiven : ∀ name ∈ cx.arguments, ∃ v, args.get? name = some v) :
    ∃ bare m m', cx.bare.compile = .ok bare ∧ Matches.of? s plan args none = .ok m ∧
      Matches.of? s bare args none = .ok m' ∧
      (∀ n, n ∈ plan.resultNames ↔
        n ∈ bare.resultNames ∨ ∃ c ∈ Token.constraints ts, n ∈ c.names) ∧
      ∃ rows : List Row, (∀ row ∈ rows, row.Extends s cx args ts plan) ∧
        m'.all.results = rows.map (Row.tuple bare.resultNames) ∧
        (rows.filter (Row.kept s ts)).map (Row.tuple plan.resultNames) <+: m.all.results ∧
        (m'.all.fault? = none → m.all.fault? = none ∧
          m.all.results = (rows.filter (Row.kept s ts)).map (Row.tuple plan.resultNames)) := by
  -- the bare pattern compiles, and its plan is woven into the plan
  obtain ⟨V, p, p₀, cs, rfl, hbare, hwoven, hcs⟩ := cx.bare_compile hcompile hengine hts
  obtain ⟨m, hm, rfl⟩ : ∃ m, Matches.of? s p.expanded args none = .ok m ∧
      m = { plan := p.expanded, setting := s, arguments := args, result? := none } :=
    ⟨_, of?_ok hcompile (hs.trans hengine.symm) hgiven none, rfl⟩
  obtain ⟨m', hm', rfl⟩ : ∃ m', Matches.of? s p₀.expanded args none = .ok m' ∧
      m' = { plan := p₀.expanded, setting := s, arguments := args, result? := none } :=
    ⟨_, of?_ok hbare (hs.trans hengine.symm) hgiven none, rfl⟩
  have hweave := hwoven.weave hbare hengine fun c hc => hplain c ((hcs c).1 hc)
  have hctx : Abreast V cx.arguments (cx.arguments.filter fun n => !isHiddenName n) args args :=
    .start hwoven.naming hlasting hgiven
  have hpassed : ∀ c ∈ cs.flatMap Constraint.clauses, c.form.Total s := by
    intro c hc
    obtain ⟨d, hd, hc⟩ := List.mem_flatMap.1 hc
    exact htotal d ((hcs d).1 hd) c.form (Constraint.form_mem_forms hc)
  have hvisible : ∀ c ∈ Token.constraints ts, ∀ n ∈ c.names, isHiddenName n = false :=
    Token.visible_of_constraints hts
  have hnamed : ∀ n f, .value n f ∈ cs.flatMap Constraint.clauses → isHiddenName n = false := by
    intro n f hc
    obtain ⟨d, hd, hc⟩ := List.mem_flatMap.1 hc
    exact hvisible d ((hcs d).1 hd) n (Constraint.mem_names_of_value hc)
  -- the sweeps of the two plans sift one list of rows
  obtain ⟨rows, r, r', hr, hr', hthins, hgood⟩ := hweave.sifts (s := s) hwoven.naming
    (givesTuples (m := ⟨p.expanded, s, args, none⟩) rfl)
    (givesTuples (m := ⟨p₀.expanded, s, args, none⟩) rfl)
    (fun n hn => (mem_resultNames.1 hn).2) hpassed hnamed
    (fun n hn => .inr (mem_resultNames.1 hn).1) (fun n hn => .inr (mem_resultNames.1 hn).1) hctx
  obtain ⟨hresults, hending⟩ := all_of_comes (m := ⟨p.expanded, s, args, none⟩) hr
  obtain ⟨hresults', hending'⟩ := all_of_comes (m := ⟨p₀.expanded, s, args, none⟩) hr'
  -- the clauses of the steps are those of the tokens, in another order
  have hkept : ∀ row : Row,
      (cs.flatMap Constraint.clauses).all (Clause.passes s row) = row.kept s ts := by
    intro row
    rw [Bool.eq_iff_iff, Row.kept, List.all_flatMap, List.all_eq_true, List.all_eq_true]
    exact forall_congr' fun c => by rw [hcs c, Constraint.passes_eq]
  rw [funext hkept] at hthins
  refine ⟨_, _, _, hbare, hm, hm', fun n => ?_, rows, fun row hrow => ?_, ?_, ?_, fun hfault => ?_⟩
  · -- the names that are given out
    rw [mem_resultNames, mem_resultNames, boundNames_expanded, boundNames_expanded]
    by_cases hn : isHiddenName n = false
    · have hiff := hwoven.woven.mem_visible_iff hwoven.naming hn
      simp only [hn, and_true, ← hcs]
      exact hiff
    · refine iff_of_false (fun h => hn h.2) ?_
      rintro (h | ⟨c, hc, hmem⟩)
      · exact hn h.2
      · exact hn (hvisible c hc n hmem)
  · -- what a row shows
    obtain ⟨hshows, hfills⟩ := hgood row hrow
    refine ⟨hshows, fun bs hbs b hb => hfills b.1 b.2 ?_⟩
    exact List.mem_flatMap.2 ⟨.bind bs, (hcs _).2 hbs, List.mem_map_of_mem hb⟩
  · -- the matches of the bare plan
    exact hresults'.trans hthins.whole
  · -- the matches of the plan, up to a fault
    rw [hresults]
    exact hthins.part
  · -- all of them, if the bare plan comes to no fault
    have hdone' : r'.ending = .done := (hending'.1 hfault).resolve_right hthins.running.2
    obtain ⟨hall, hdone⟩ := hthins.done hdone'
    exact ⟨hending.2 (.inl hdone), hresults.trans hall⟩

/-- A form that gives back where a link leads. -/
def copied : Form :=
  { id := "copied", params? := some [{ name := "y" }] }

/-- A form that tells a link from a loop. -/
def different : Form :=
  { id := "different", params? := some [{ name := "x" }, { name := "z" }] }

/-- A pattern that asks for links that are no loops. -/
def elsewhere : Context :=
  { arguments := []
    elements := [.text "x", .text "-->", .text "y", .text ":let",
      .list [.list [.text "z", .form copied]], .text ":when", .form different]
    engine := .graph }

def elsewhereTokens : List Token :=
  successorTokens ++ [.constraint { constraint := .bind [("z", copied)], index := 3 },
    .constraint { constraint := .when different, index := 5 }]

def linkSteps : List Step :=
  [.generate "x" (.instances .any), .generate "y" (.reachable (.var "x") [.step .out .any])]

def elsewherePlan : Plan :=
  { steps := linkSteps ++ [.assign "z" (.call copied), .guard (.present (.var "z")),
      .guard (.call different)]
    arguments := [], engine := .graph }

/-- The forms in the linked pair. -/
def told : Setting :=
  { engine := .graph, model := .graph TypedGraph.linked
    behaviour := fun f env =>
      .ok (if f.id = "copied" then (env.get? "y").getD .null
        else .bool (env.get? "x" != env.get? "z")) }

/-- There are two links in the linked pair, one of which is a loop. -/
theorem Matches.sift_bare_elsewhere :
    ∃ bare m m', elsewhere.bare.compile = .ok bare ∧
      Matches.of? told elsewherePlan [] none = .ok m ∧ Matches.of? told bare [] none = .ok m' ∧
      ∃ rows : List Row, m'.all.results = rows.map (Row.tuple ["x", "y"]) ∧
        m.all.results =
          (rows.filter (Row.kept told elsewhereTokens)).map (Row.tuple ["x", "y", "z"]) ∧
        m'.all.results.length = 2 ∧ m.all.results.length = 1 := by
  have hts : Token.classify elsewhere.elements = .ok elsewhereTokens := by cbv
  have hcompile : elsewhere.compile = .ok elsewherePlan := by cbv
  have hbare : elsewhere.bare.compile =
      .ok { steps := linkSteps, arguments := [], engine := .graph } := by cbv
  have hconstraints : Token.constraints elsewhereTokens = [.bind [("z", copied)], .when different] :=
    rfl
  have htotal : ∀ c ∈ Token.constraints elsewhereTokens, ∀ f ∈ c.forms, f.Total told := by
    rw [hconstraints]
    simp only [List.mem_cons, List.not_mem_nil, or_false, forall_eq_or_imp, forall_eq,
      Constraint.forms, List.map_cons, List.map_nil]
    refine ⟨⟨⟨_, rfl, by decide⟩, ?_, fun env => ⟨_, rfl⟩⟩,
      ⟨⟨_, rfl, by decide⟩, ?_, fun env => ⟨_, rfl⟩⟩⟩
    · simp only [Form.Legible, Form.Asks, copied, Option.some.injEq, forall_eq', Form.requires]
      decide
    · simp only [Form.Legible, Form.Asks, different, Option.some.injEq, forall_eq', Form.requires]
      decide
  have hlasting : Bindings.Lasting [] := fun _ _ h => by cases h
  have hgiven : ∀ name ∈ elsewhere.arguments, ∃ v, Bindings.get? [] name = some v :=
    fun _ hname => absurd hname List.not_mem_nil
  obtain ⟨bare, m, m', hbare', hm, hm', -, rows, -, hrows', -, hrows⟩ :=
    Matches.sift_bare hts hcompile rfl rfl (by rw [hconstraints]; simp) htotal hlasting hgiven
  obtain rfl := Except.ok.inj (hbare.symm.trans hbare')
  obtain rfl := Except.ok.inj (hm'.symm.trans (of?_ok hbare' rfl hgiven none))
  obtain rfl := Except.ok.inj (hm.symm.trans (of?_ok hcompile rfl hgiven none))
  have hresults := hrows (by decide)
  exact ⟨_, _, _, hbare, hm, hm', rows, hrows', hresults.2, by decide, by decide⟩

end GraphPattern
