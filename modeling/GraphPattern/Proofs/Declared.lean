import GraphPattern.Proofs.Exhaustive
import GraphPattern.Proofs.Filtering
import GraphPattern.Proofs.DepthFirstWalk
import GraphPattern.Proofs.Refusals

/-!
# GraphPattern — forms after what they name

A form is checked where the walk comes to its constraint. Where the walk keeps pace with the pattern,
everything that stands before the constraint was visited by then, so the names that it declares are
bound. A form that only requires such names is never refused for them.

## Results

* `Plan.KeepsPace.passed` — what stands before a row of constraints was visited before it.
* `Plan.Explores.supplied` — along the walk, forms find what they require.
* `compile_kind_ne_unboundFormName` — patterns whose forms stand after what they name.
* `detour_unboundFormName` — a pattern that does not keep the order, and is refused.
-/

namespace GraphPattern

open PatternGraph PatternGraph.Drawing

/-! ## Names and forms by position -/

/-- What a form has to be called with, as far as this can be found out. -/
def Form.needs (f : Form) : List String :=
  match f.params? with
  | some params => if takesKeywords params then [] else requires params
  | none => []

/-- The forms of bindings that are declared together, each with the names bound before it. -/
def Constraint.bindingCalls (own : List String) :
    List (String × Form) → List (Form × List String)
  | [] => []
  | (n, f) :: bs => (f, own) :: bindingCalls (n :: own) bs

/-- The forms of a constraint, each with the names that the constraint binds before it. -/
def Constraint.calls : Constraint → List (Form × List String)
  | .when f | .whilst f => [(f, [])]
  | .bind bs => bindingCalls [] bs

namespace PatternGraph.Drawing

section Positions

variable (cx : Context) (ts : List Token)

/-- The names that the token at a position declares. -/
def namesAt (i : Nat) : List String :=
  match ts[i]? with
  | some (.node t) => t.name?.toList
  | some (.edge t) => t.name?.toList
  | some (.constraint t) => t.constraint.names
  | none => []

/-- The forms that the token at a position calls, each with the names it binds before. -/
def callsAt (i : Nat) : List (Form × List String) :=
  match ts[i]? with
  | some (.constraint t) => t.constraint.calls
  | _ => []

/-- The name is that of an argument, or declared before a position. -/
def DeclaredBefore (i : Nat) (name : String) : Prop :=
  name ∈ cx.arguments ∨ ∃ j < i, name ∈ namesAt ts j

/-- Every form stands after what it requires by name. -/
def FormsFollow : Prop :=
  ∀ i < ts.length, ∀ c ∈ callsAt ts i, ∀ name ∈ c.1.needs,
    name ∈ c.2 ∨ DeclaredBefore cx ts i name

instance (i : Nat) (name : String) : Decidable (DeclaredBefore cx ts i name) :=
  inferInstanceAs (Decidable (_ ∨ _))

instance : Decidable (FormsFollow cx ts) :=
  inferInstanceAs (Decidable (∀ i < ts.length, ∀ c ∈ callsAt ts i, ∀ name ∈ c.1.needs,
    name ∈ c.2 ∨ DeclaredBefore cx ts i name))

end Positions

variable {cx : Context} {ts : List Token} {k : Nat} {name : String}

theorem declaredBefore_succ : DeclaredBefore cx ts (k + 1) name ↔
    name ∈ namesAt ts k ∨ DeclaredBefore cx ts k name := by
  simp only [DeclaredBefore, Nat.lt_succ_iff_lt_or_eq]
  constructor
  · rintro (hin | ⟨j, hj | rfl, hname⟩)
    · exact .inr (.inl hin)
    · exact .inr (.inr ⟨j, hj, hname⟩)
    · exact .inl hname
  · rintro (hname | hin | ⟨j, hj, hname⟩)
    · exact .inr ⟨k, .inr rfl, hname⟩
    · exact .inl hin
    · exact .inr ⟨j, .inl hj, hname⟩

end PatternGraph.Drawing

namespace Plan

variable {cx : Context} {ts : List Token} {g₀ g : PatternGraph} {visited binds : List Handle}
  {stack rest : List Entry} {bound : List String} {k : Nat}

/-! ## What was passed -/

/-- Everything that is made before a position was visited. -/
structure Passed (cx : Context) (ts : List Token) (s : Nat) (visited : List Handle) : Prop where
  nodes : ∀ j < s, ∀ t, ts[j]? = some (.node t) → .node (nodeAt cx ts j) ∈ visited
  edges : ∀ j < s, ∀ t, ts[j]? = some (.edge t) → .edge ⟨edgeIndex cx ts j⟩ ∈ visited
  constraints : ∀ j < s, ∀ t, ts[j]? = some (.constraint t) →
    .edge ⟨edgeIndex cx ts j⟩ ∈ visited

/-- Rows of constraints are visited as a whole. -/
theorem Frontier.follows_row (h : Drawn cx ts g₀ g) (hf : Frontier g₀ g visited binds stack)
    {t u : ConstraintToken} (ht : ts[k]? = some (.constraint t))
    (hu : ts[k + 1]? = some (.constraint u)) (hv : .edge ⟨edgeIndex cx ts k⟩ ∈ visited) :
    .edge ⟨edgeIndex cx ts (k + 1)⟩ ∈ visited := by
  have hcon := h.isConstraint_constraint ht
  obtain ⟨hi, -⟩ := h.incident_constraint ht
  obtain ⟨hnext, -⟩ := h.incident_constraint hu
  have howner : ownerAt cx ts (k + 1) = nodeAt cx ts k := by rw [ownerAt, ht]
  -- the constraint was visited, for nothing enters it from the stack
  have hself : .node (nodeAt cx ts k) ∈ visited := by
    refine (hf.ends _ hi.reverse hv).resolve_right fun hin => ?_
    rcases hf.enter _ hin with heq | hs
    · exact h.rooted.regular.not_isConstraint_anchor (heq ▸ hcon)
    · exact Regular.not_isPlace_of_isConstraint hcon
        (h.rooted.anchors.extended.isPlace (h.rooted.before.place_of_isStart hs))
  refine Classical.byContradiction fun hnew => ?_
  obtain ⟨-, -, hthis⟩ := hf.along _ (hf.pending _ hnext (howner ▸ hself) hnew)
  exact hthis (howner ▸ hcon)

/-- Up to the first of the deferred rows, everything was visited. -/
theorem WalkedTo.passed (h : Drawn cx ts g₀ g) {i s : Nat} {deferred : List Nat}
    (hf : Frontier g₀ g visited binds stack) (hw : WalkedTo cx ts g i deferred visited stack)
    (hle : s ≤ i) (hlater : ∀ d ∈ deferred, s ≤ d) : Passed cx ts s visited where
  nodes := by
    intro j hj t ht
    -- a name's node is visited since the token that first gave it, which stands before
    obtain ⟨first, hfirst, -⟩ := madeNode?_home cx ht
    have hin := (hw.nodes _ first hfirst (home_home ts j)).2
      (Nat.lt_of_le_of_lt (home_le ts j) (Nat.lt_of_lt_of_le hj hle))
    rwa [nodeAt, home_home] at hin
  edges := fun j hj t ht => (hw.edges j t ht).2 (Nat.lt_of_lt_of_le hj hle)
  constraints := by
    intro j
    -- along the row: a head is followed before the walk goes on, another after the one before it
    induction j with
    | zero =>
      intro hj t ht
      refine (hw.rows 0 t ht fun _ _ hj => absurd hj (Nat.zero_ne_add_one _)).2
        ⟨Nat.lt_of_lt_of_le hj hle, fun hin => ?_⟩
      exact Nat.not_le_of_lt hj (hlater 0 hin)
    | succ j ih =>
      intro hj t ht
      by_cases hrow : ∃ u, ts[j]? = some (.constraint u)
      · obtain ⟨u, hu⟩ := hrow
        exact hf.follows_row h hu ht (ih (Nat.lt_of_succ_lt hj) u hu)
      · refine (hw.rows _ t ht ?_).2 ⟨Nat.lt_of_lt_of_le hj hle, fun hin => ?_⟩
        · intro j' u hj' hu
          obtain rfl := Nat.succ.inj hj'
          exact hrow ⟨u, hu⟩
        · exact Nat.not_le_of_lt hj (hlater _ hin)

/-- What stands before a row of constraints was visited before it. -/
theorem KeepsPace.passed (h : Drawn cx ts g₀ g) (hdf : DepthFirst cx ts) {y : Incidence}
    (hs : KeepsPace cx ts g visited (.along y :: rest))
    (hf : Frontier g₀ g visited binds (.along y :: rest)) (hy : Handle.edge y.edge ∉ visited)
    (hp : g.Precedes y) :
    ∃ s t, ts[s]? = some (.constraint t) ∧ y = headAt cx ts s ∧ Passed cx ts s visited := by
  obtain ⟨e, he, hk⟩ := hp
  cases hs with
  | reached le walked =>
    -- the row was put off until now, or the walk has just come to it
    cases walked.ahead h hdf le hy with
    | @deferred i s more walked le entry =>
      obtain ⟨hsi, -, t, ht⟩ := walked.waiting s (by simp)
      refine ⟨s, t, ht, Entry.along.inj entry, walked.passed h hf (Nat.le_of_lt hsi) ?_⟩
      intro d hd
      rcases List.mem_cons.1 hd with rfl | hd
      · exact Nat.le_refl d
      · exact Nat.le_of_lt ((List.pairwise_cons.1 walked.sorted).1 d hd)
    | @row i t walked token entry =>
      exact ⟨i, t, token, Entry.along.inj entry, walked.passed h hf (Nat.le_refl i) (by simp)⟩
    -- a structural edge, or one to a start, is no edge into constraints
    | edge walked token entry structural =>
      cases entry
      obtain ⟨e', he', hk'⟩ := structural
      rw [he] at he'
      cases he'
      rw [hk] at hk'
      cases hk'
    | start walked token first entry that link =>
      cases entry
      rw [he] at link
      cases link
      cases hk

/-! ## Forms that find what they require -/

/-- If it is the call of a form, everything that the form requires is bound. -/
def Allowed (bound : List String) (e : Expr) : Prop :=
  ∀ f, e = .call f → ∀ name ∈ f.needs, name ∈ bound

/-- The forms of some steps find what they require. -/
abbrev Supplied : List String → List Step → Prop :=
  Throughout (fun _ _ => True) Allowed

theorem missingParameter?_eq_none {f : Form} (h : ∀ name ∈ f.needs, name ∈ bound) :
    missingParameter? f bound = none := by
  unfold missingParameter?
  unfold Form.needs at h
  split
  · rfl
  · rename_i params hparams
    rw [hparams] at h
    split
    · rfl
    · rename_i hkeywords
      simp only [hkeywords, if_false, Bool.false_eq_true] at h
      simpa using h

/-- The check passes forms that find what they require. -/
theorem checkForm_allowed (cx : Context) (g? : Option PatternGraph) {e : Expr}
    (h : Allowed bound e) : checkForm cx g? bound e = .ok () := by
  cases e with
  | call f => rw [checkForm, missingParameter?_eq_none (h f rfl)]
  | _ => rfl

theorem Supplied.checkSteps_ok (cx : Context) (g? : Option PatternGraph) {steps : List Step}
    (h : Supplied bound steps) : ∃ after, steps.foldlM (checkStep cx g?) bound = .ok after := by
  induction h with
  | done => exact ⟨_, rfl⟩
  | generate _ _ ih => exact ih
  | assign value _ ih =>
    rw [List.foldlM_cons, checkStep, checkForm_allowed cx g? value]
    exact ih
  | guard test _ ih =>
    rw [List.foldlM_cons, checkStep, checkForm_allowed cx g? test]
    exact ih
  | whilst test _ ih =>
    rw [List.foldlM_cons, checkStep, checkForm_allowed cx g? test]
    exact ih

/-! ## Steps of constraints -/

/-- Bindings find what they require if it is bound before them. -/
theorem supplied_bindings (own : List String) (bs : List (String × Form)) (hown : own ⊆ bound)
    (h : ∀ c ∈ Constraint.bindingCalls own bs, ∀ name ∈ c.1.needs, name ∈ c.2 ∨ name ∈ bound) :
    Supplied bound (constraintStep (.bind bs)).expanded := by
  induction bs generalizing own bound with
  | nil => exact .done
  | cons b bs ih =>
    refine .assign ?_ (.guard (fun _ hcall => nomatch hcall) (ih (b.1 :: own) ?_ ?_))
    · rintro _ ⟨⟩ name hname
      exact (h (b.2, own) (by simp [Constraint.bindingCalls]) name hname).elim (hown ·) id
    · exact List.cons_subset_cons _ hown
    · intro c hc name hname
      refine (h c ?_ name hname).imp id (List.mem_cons_of_mem _)
      exact List.mem_cons_of_mem _ hc

theorem supplied_constraintStep (c : Constraint)
    (h : ∀ call ∈ c.calls, ∀ name ∈ call.1.needs, name ∈ call.2 ∨ name ∈ bound) :
    Supplied bound (constraintStep c).expanded := by
  have hone : ∀ f, c.calls = [(f, [])] → Allowed bound (.call f) := by
    rintro f hcalls _ ⟨⟩ name hname
    exact (h (f, []) (by rw [hcalls]; simp) name hname).resolve_left (List.not_mem_nil)
  cases c with
  | when f => exact .guard (hone f rfl) .done
  | whilst f => exact .whilst (hone f rfl) .done
  | bind bs => exact supplied_bindings [] bs (List.nil_subset _) h

/-- From a constraint that was led to, the next one in the row stands right behind it. -/
theorem eq_succ_of_nextConstraint? (h : Drawn cx ts g₀ g) {t : ConstraintToken} {i : Incidence}
    (ht : ts[k]? = some (.constraint t)) (hled : LedTo g (nodeAt cx ts k) visited)
    (next : nextConstraint? g (nodeAt cx ts k) visited = some i) :
    i.edge = ⟨edgeIndex cx ts (k + 1)⟩ ∧ i.that = nodeAt cx ts (k + 1) ∧
      ∃ u, ts[k + 1]? = some (.constraint u) := by
  have hcon := h.isConstraint_constraint ht
  obtain ⟨hi, hthis, hp, -, hd⟩ := leads_on h.rooted hcon hled next
  obtain ⟨p, u, hu, hedge, -⟩ := h.exists_constraint hi hp
  obtain ⟨e, he, hseen⟩ := hi
  rw [hedge, h.edge?_made (madeEdge?_constraint cx hu)] at he
  cases he
  rw [hd] at hseen
  have howner : ownerAt cx ts p = nodeAt cx ts k := by rw [← hthis, hseen]; rfl
  rcases ownerAt_cases cx ts p with ⟨q, v, rfl, hv, heq⟩ | ⟨-, heq⟩
  · obtain rfl : q = k := eq_of_nodeAt_constraint hv ht (heq.symm.trans howner)
    exact ⟨hedge, by rw [hseen]; rfl, u, hu⟩
  · exact absurd hcon (howner ▸ heq ▸ h.not_isConstraint_currentBefore)

theorem constraint_eq (h : Drawn cx ts g₀ g) {t : ConstraintToken} {nd : PatternNode}
    {c : Constraint} (ht : ts[k]? = some (.constraint t))
    (hnode : g.node? (nodeAt cx ts k) = some nd) (hc : nd.constraint? = some c) :
    c = t.constraint := by
  rw [(h.node?_constraint ht).2] at hnode
  cases hnode
  exact (Option.some.inj hc).symm

/-- The forms of a row find what is declared before them. -/
theorem Splices.supplied (h : Drawn cx ts g₀ g) (hforms : FormsFollow cx ts) {n : NodeId}
    {steps : List Step} {marks : List Handle} (hs : Splices g n visited steps marks)
    {t : ConstraintToken} (ht : ts[k]? = some (.constraint t)) (hn : n = nodeAt cx ts k)
    (hled : LedTo g n visited) (hbound : ∀ name, DeclaredBefore cx ts k name → name ∈ bound) :
    Supplied bound (steps.flatMap Step.expanded) := by
  have hfirst : ∀ {k t} {bound : List String}, ts[k]? = some (.constraint t) →
      (∀ name, DeclaredBefore cx ts k name → name ∈ bound) →
      Supplied bound (constraintStep t.constraint).expanded := by
    intro k t bound ht hbound
    refine supplied_constraintStep _ fun call hcall name hname => ?_
    exact (hforms k (lt_length ht) call (by rwa [callsAt, ht]) name hname).imp id (hbound name)
  induction hs generalizing k t bound with
  | last node form =>
    subst hn
    rw [List.flatMap_singleton, constraint_eq h ht node form]
    exact hfirst ht hbound
  | @next n nd c visited i steps marks node form next rest ih =>
    subst hn
    obtain rfl := constraint_eq h ht node form
    obtain ⟨hi, -, -, -, hd⟩ := leads_on h.rooted (h.isConstraint_constraint ht) hled next
    obtain ⟨-, hthat, u, hu⟩ := eq_succ_of_nextConstraint? h ht hled next
    rw [List.flatMap_cons]
    refine Throughout.append (hfirst ht hbound) ?_
    rw [Step.boundNames_expanded, boundNames_constraintStep]
    refine ih hu hthat (ledTo_that hi hd (by simp)) fun name hname => ?_
    -- what the constraint binds is declared from here on
    rcases declaredBefore_succ.1 hname with hown | hbefore
    · refine List.mem_append_left _ (List.mem_reverse.2 ?_)
      simpa only [namesAt, ht] using hown
    · exact List.mem_append_right _ (hbound name hbefore)

/-! ## Steps without forms -/

theorem allowed_of_ne {e : Expr} (h : ∀ f, e ≠ .call f) : Allowed bound e :=
  fun f hf => absurd hf (h f)

theorem ChainEmits.supplied {start : Expr} {c : Chain} {em : Emission} {more : List Handle}
    (h : ChainEmits g start c visited em more) :
    Supplied bound (em.steps.flatMap Step.expanded) := by
  cases h with
  | known => exact .guard (allowed_of_ne nofun) .done
  | closed => exact .guard (allowed_of_ne nofun) .done
  | bound => exact .generate trivial .done

theorem FarEmits.supplied {i : Incidence} {edge : Expr} {em : Emission} {more : List Handle}
    (h : FarEmits cx g i edge visited em more) :
    Supplied bound (em.steps.flatMap Step.expanded) := by
  cases h with
  | known => exact .guard (allowed_of_ne nofun) .done
  | named =>
    refine .assign (allowed_of_ne nofun) (.guard (allowed_of_ne nofun) ?_)
    unfold typeTest
    split
    · split
      · exact .done
      · exact .guard (allowed_of_ne nofun) .done
    · exact .done
  | chain node fresh anonymous walks emits => exact emits.supplied

/-- Only constraints call forms. -/
theorem Emits.supplied {x : Entry} {em : Emission} {more : List Handle}
    (h : Emits cx g visited x em more) (hx : ∀ y, x = .along y → ¬ g.Precedes y) :
    Supplied bound (em.steps.flatMap Step.expanded) := by
  cases h with
  | anchor => exact .done
  | place => exact .generate trivial .done
  | argument => exact .assign (allowed_of_ne nofun) .done
  | start => exact .done
  | constraints edge kind => exact absurd ⟨_, edge, kind⟩ (hx _ rfl)
  | chain edge kind anonymous segment_ok walks emits => exact emits.supplied
  | argumentEdge edge kind named far => exact .guard (allowed_of_ne nofun) far.supplied
  | namedEdge edge kind named identity far => exact .generate trivial far.supplied

/-! ## The walk -/

/-- The names of a constraint that is passed are bound. -/
theorem Traced.mem_boundNames {ps : List Passage} {steps : List Step} (h : Traced g ps steps)
    {p : Passage} {c : Constraint} (hp : p ∈ ps) (hc : g.hung? p.edge = some c) {name : String}
    (hname : name ∈ c.names) : name ∈ steps.flatMap Step.boundNames := by
  cases c with
  | when | whilst => cases hname
  | bind bs =>
    obtain ⟨b, hb, rfl⟩ := List.mem_map.1 hname
    have hstep : Step.assign b.1 (.call b.2) ∈ (expandAll steps).filter Step.callsForm := by
      refine h.forms.mem_iff.2 (List.mem_flatMap.2 ⟨_, List.mem_filterMap.2 ⟨p, hp, hc⟩, ?_⟩)
      exact List.mem_map_of_mem (f := fun b => Step.assign b.1 (.call b.2)) hb
    rw [← boundNames_expanded_steps]
    exact List.mem_flatMap.2 ⟨_, (List.mem_filter.1 hstep).1, by simp [Step.boundNames]⟩

/-- What is known, the arguments, and the names of the constraints that were visited are bound. -/
structure NamesBound (cx : Context) (ts : List Token) (g : PatternGraph)
    (visited binds : List Handle) (bound : List String) : Prop where
  known : ∀ b, Known g binds b → b.variable g ∈ bound
  arguments : ∀ name ∈ cx.arguments, name ∈ bound
  constraints : ∀ k t, ts[k]? = some (.constraint t) → .edge ⟨edgeIndex cx ts k⟩ ∈ visited →
    ∀ name ∈ t.constraint.names, name ∈ bound

/-- Where everything before a position was visited, what is declared there is bound. -/
theorem NamesBound.of_declaredBefore (h : Drawn cx ts g₀ g)
    (hb : NamesBound cx ts g visited binds bound) (hf : Frontier g₀ g visited binds stack)
    (hp : Passed cx ts k visited) {name : String} (hname : DeclaredBefore cx ts k name) :
    name ∈ bound := by
  have hnamed : ∀ {x : Handle}, x ∈ visited → g.HasName x name → name ∈ bound := by
    intro x hx hown
    have hknown := hf.named x hx fun hu => hu name hown
    exact variable_named hown ▸ hb.known x hknown
  -- the name is an argument's, or a token before gave it: a node, an edge or a constraint
  rcases hname with harg | ⟨j, hj, hname⟩
  · exact hb.arguments name harg
  · unfold namesAt at hname
    split at hname
    · rename_i t ht
      obtain ⟨first, hfirst, hnode, hnd⟩ := h.node?_node ht
      refine hnamed (hp.nodes j hj t ht) ⟨hnode, ?_⟩
      rw [hnd, Option.bind_some]
      exact hfirst.trans (Option.mem_toList.1 hname)
    · rename_i t ht
      refine hnamed (hp.edges j hj t ht) ?_
      rw [HasName, h.edge?_made (madeEdge?_edge cx ht), Option.bind_some]
      exact Option.mem_toList.1 hname
    · rename_i t ht
      exact hb.constraints j t ht (hp.constraints j hj t ht) name hname
    · cases hname

/-- A visit binds what it has to. -/
theorem NamesBound.visit (h : Drawn cx ts g₀ g) {x : Entry} {em : Emission} {own : List Handle}
    (hb : NamesBound cx ts g visited binds bound)
    (hf : Frontier g₀ g visited binds (x :: rest)) (hx : x.handle ∉ visited)
    (hem : Emits cx g (x.handle :: visited) x em own) :
    NamesBound cx ts g (em.marks ++ x.handle :: visited) (own ++ binds)
      ((em.steps.flatMap Step.boundNames).reverse ++ bound) where
  known := by
    intro b hknown
    rw [List.mem_append, List.mem_reverse]
    rcases hknown with hin | harg
    · rcases List.mem_append.1 hin with hin | hin
      · exact .inl (Emits.mem_boundNames hem hin)
      · exact .inr (hb.known b (.inl hin))
    · exact .inr (hb.known b (.inr harg))
  arguments := fun name hname => List.mem_append_right _ (hb.arguments name hname)
  constraints := by
    intro k t ht hin name hname
    rw [List.mem_append, List.mem_reverse]
    -- a row visited before has bound its names; this visit passes the others
    by_cases hv : Handle.edge ⟨edgeIndex cx ts k⟩ ∈ visited
    · exact .inr (hb.constraints k t ht hv name hname)
    · -- the edge into the constraint is passed by this visit, whose steps bind what it names
      left
      obtain ⟨ps, hpasses, htraced⟩ := Emits.passes h.rooted hf hx hem
      have hmarked : Handle.edge ⟨edgeIndex cx ts k⟩ ∈ em.marks ++ [x.handle] := by
        simpa [hv] using hin
      obtain ⟨p, hp, hid⟩ := List.mem_map.1 ((hpasses.marked _).1 hmarked)
      have hedge := hpasses.edge p hp
      rw [hid, h.edge?_made (madeEdge?_constraint cx ht)] at hedge
      refine htraced.mem_boundNames hp ?_ hname
      rw [← Option.some.inj hedge, hung?]
      refine (if_pos rfl).trans ?_
      show (g.node? (nodeAt cx ts k)).bind (·.constraint?) = some t.constraint
      rw [(h.node?_constraint ht).2]
      rfl

/-- Along the walk, the forms of the constraints find what they require. -/
theorem Explores.supplied (h : Drawn cx ts g₀ g) (hdf : DepthFirst cx ts)
    (hforms : FormsFollow cx ts) {steps : List Step} {visited' binds' : List Handle}
    (hex : Explores cx g₀ g visited binds stack steps visited' binds')
    (hs : KeepsPace cx ts g visited stack) (hb : NamesBound cx ts g visited binds bound) :
    Supplied bound (steps.flatMap Step.expanded) := by
  induction hex generalizing bound with
  | done => exact .done
  | skip seen _ ih => exact ih (hs.skip seen) hb
  | @visit visited binds visited' binds' own x em rest steps frontier fresh emits _ ih =>
    refine Throughout.append_expanded ?_
      (ih (hs.visit h hdf frontier fresh emits) (hb.visit h frontier fresh emits))
    by_cases hx : ∃ y, x = .along y ∧ g.Precedes y
    · obtain ⟨y, rfl, hp⟩ := hx
      obtain ⟨s, t, ht, rfl, hpassed⟩ := hs.passed h hdf frontier fresh hp
      obtain ⟨hi, -, hthis⟩ := frontier.along (headAt cx ts s) (by simp)
      have hled := ledTo_that hi (direction_of_precedes h.rooted hi hp hthis)
        (List.mem_cons_self (l := visited))
      obtain ⟨-, hsplices⟩ := Emits.splices_of_precedes hp emits
      exact hsplices.supplied h hforms ht rfl hled fun name hname =>
        hb.of_declaredBefore h frontier hpassed hname
    · exact emits.supplied fun y hy hp => hx ⟨y, hy, hp⟩

end Plan

/-! ## The compilation -/

namespace Context

/-- A request that is not understood is refused for its engine. -/
theorem kind_of_ofRequest {arguments : List String} {pattern engine : Element} {d : Diagnostic}
    (h : ofRequest arguments pattern engine = .error (.refused d)) : d.kind = .engineUnset := by
  cases hengine : resolveEngine engine with
  | error f =>
    rw [ofRequest, hengine] at h
    cases h
    obtain ⟨d', hd', hkind⟩ := resolveEngine_refuses engine _ hengine
    cases hd'
    exact List.mem_singleton.1 hkind
  | ok _ =>
    rw [ofRequest, hengine] at h
    cases pattern <;> cases h

theorem drawn_of_anchoredGraph {cx : Context} {g : PatternGraph} (h : cx.anchoredGraph = .ok g) :
    ∃ ts g₀, Token.classify cx.elements = .ok ts ∧ Drawn cx ts g₀ g := by
  obtain ⟨ts, g₀, hts, hrun, hr⟩ := rooted_of_anchoredGraph h
  obtain ⟨hs, hreads⟩ := Reading.reads_of_run hrun
  obtain ⟨hfits, hdraws⟩ := (Stands.start cx ts).of_reads hreads rfl (Nat.zero_le _)
  exact ⟨ts, g₀, hts, hr, hdraws, wellFormed_iff.2 fun i => hfits i (Nat.zero_le i)⟩

theorem anchoredGraph_of_walkedPlan {cx : Context} {p : Plan} (h : cx.walkedPlan = .ok p) :
    ∃ g, cx.anchoredGraph = .ok g ∧ Plan.ofGraph cx g = .ok p := by
  cases hg : cx.anchoredGraph with
  | error f => rw [walkedPlan, hg] at h; cases h
  | ok g =>
    rw [walkedPlan, hg] at h
    exact ⟨g, rfl, h⟩

theorem compile_of_ofGraph {cx : Context} {g : PatternGraph} {p : Plan}
    (hg : cx.anchoredGraph = .ok g) (hp : Plan.ofGraph cx g = .ok p) :
    cx.compile = (do Plan.check cx (some g) p.expanded; return p.expanded) := by
  rw [compile, hg]
  show (do let p ← Plan.ofGraph cx g; _) = _
  rw [hp]
  rfl

/-- A plan that was walked is expanded and checked. -/
theorem compile_of_walkedPlan {cx : Context} {p : Plan} (h : cx.walkedPlan = .ok p) :
    ∃ g, cx.compile = (do Plan.check cx (some g) p.expanded; return p.expanded) := by
  obtain ⟨g, hg, hp⟩ := anchoredGraph_of_walkedPlan h
  exact ⟨g, compile_of_ofGraph hg hp⟩

/-- What the check of the forms starts with. -/
theorem namesBound_start {cx : Context} {ts : List Token} {g₀ g : PatternGraph}
    (h : Drawn cx ts g₀ g) : Plan.NamesBound cx ts g [] [] cx.arguments where
  known := by
    rintro b (hb | hb)
    · cases hb
    · obtain ⟨name, hmem, hname⟩ := h.rooted.regular.name_of_isArgument hb
      rwa [variable_named hname]
  arguments := fun _ hname => hname
  constraints := fun _ _ _ hin => nomatch hin

/-- In a pattern that is written depth first, forms after what they name are not refused. -/
theorem compile_refuses_of_formsFollow (cx : Context)
    (h : ∀ ts, Token.classify cx.elements = .ok ts → DepthFirst cx ts ∧ FormsFollow cx ts) :
    Refuses [.malformedToken, .conflictingName, .namedEdge, .argumentEdge, .edgeDirection]
      cx.compile := by
  refine cx.compile_refuses_of_check (List.Subset.refl _) fun g p hg hp => ?_
  obtain ⟨ts, g₀, hts, hdrawn⟩ := drawn_of_anchoredGraph hg
  obtain ⟨hdf, hforms⟩ := h ts hts
  obtain ⟨-, -, -, visited, binds, hexplores, -⟩ := Plan.explores_of_ofGraph hdrawn.rooted hp
  have hsupplied : Plan.Supplied cx.arguments p.expanded.steps :=
    hexplores.supplied hdrawn hdf hforms .outset (namesBound_start hdrawn)
  obtain ⟨after, hafter⟩ := hsupplied.checkSteps_ok cx g
  refine Plan.check_refuses_of_steps cx g (by simp) ?_
  rw [hafter]
  exact .ok after

end Context

theorem compile_of_ofRequest {arguments : List String} {pattern engine : Element} {cx : Context}
    (h : Context.ofRequest arguments pattern engine = .ok cx) :
    compile arguments pattern engine = cx.compile := by
  rw [compile, h]
  rfl

/-- Forms written after what they name are accepted: where every name that a form requires is that
of an argument or is declared by a node, an edge or a binding before it, no pattern that is written
depth first is refused for an unbound name. -/
theorem compile_kind_ne_unboundFormName (arguments : List String) (pattern engine : Element)
    (h : ∀ cx ts, Context.ofRequest arguments pattern engine = .ok cx →
      Token.classify cx.elements = .ok ts → DepthFirst cx ts ∧ FormsFollow cx ts) :
    ∀ d, compile arguments pattern engine = .error (.refused d) → d.kind ≠ .unboundFormName := by
  intro d hd hkind
  cases hrequest : Context.ofRequest arguments pattern engine with
  | error f =>
    rw [compile, hrequest] at hd
    cases hd
    rw [Context.kind_of_ofRequest hrequest] at hkind
    cases hkind
  | ok cx =>
    rw [compile_of_ofRequest hrequest] at hd
    obtain ⟨d', hd', hmem⟩ := cx.compile_refuses_of_formsFollow (fun ts => h cx ts hrequest) _ hd
    cases hd'
    rw [hkind] at hmem
    simp at hmem

/-- A form about one name. -/
def formAbout (name : String) : Form :=
  { id := name, params? := some [{ name := name }] }

/-- `a --> b --> a :when f b --> c :when g`: a form about `b` where the cycle is closed, and one
about `c` on the way that leads on from `b`. -/
def roundTrip : List Element :=
  [.text "a", .text "-->", .text "b", .text "-->", .text "a", .text ":when", .form (formAbout "b"),
    .text "b", .text "-->", .text "c", .text ":when", .form (formAbout "c")]

theorem compile_roundTrip_kind_ne :
    (∀ cx ts, Context.ofRequest [] (.list roundTrip) (.text "graph") = .ok cx →
      Token.classify cx.elements = .ok ts → DepthFirst cx ts ∧ FormsFollow cx ts) ∧
    ∀ d, compile [] (.list roundTrip) (.text "graph") = .error (.refused d) →
      d.kind ≠ .unboundFormName := by
  have hfollow : ∀ cx ts, Context.ofRequest [] (.list roundTrip) (.text "graph") = .ok cx →
      Token.classify cx.elements = .ok ts → DepthFirst cx ts ∧ FormsFollow cx ts := by
    intro cx ts hcx hts
    obtain rfl := Except.ok.inj hcx
    have htokens : Token.classify roundTrip = .ok
        [.node ⟨"a", none, 0⟩, .edge ⟨none, none, .out, 1⟩, .node ⟨"b", none, 2⟩,
          .edge ⟨none, none, .out, 3⟩, .node ⟨"a", none, 4⟩, .constraint ⟨.when (formAbout "b"), 5⟩,
          .node ⟨"b", none, 7⟩, .edge ⟨none, none, .out, 8⟩, .node ⟨"c", none, 9⟩,
          .constraint ⟨.when (formAbout "c"), 10⟩] := by cbv
    obtain rfl := Except.ok.inj (htokens.symm.trans hts)
    exact ⟨by decide, by decide⟩
  exact ⟨hfollow, compile_kind_ne_unboundFormName [] (.list roundTrip) (.text "graph") hfollow⟩

/-- `a --> b --> a b --> c a :when f`, with a form about `c`: the pattern has left `a` when it comes
back to it. The walk deals with the form as soon as it closes the cycle, before it binds `c`. -/
def detour : Context :=
  { arguments := []
    elements := [.text "a", .text "-->", .text "b", .text "-->", .text "a", .text "b", .text "-->",
      .text "c", .text "a", .text ":when", .form (formAbout "c")]
    engine := .graph }

def detourPlan : Plan :=
  { steps := [.generate "a" (.instances .any),
      .generate "b" (.reachable (.var "a") [.step .out .any]),
      .guard (.member (.var "a") (.reachable (.var "b") [.step .out .any])),
      .guard (.call (formAbout "c")), .generate "c" (.reachable (.var "b") [.step .out .any])]
    arguments := [], engine := .graph }

/-- Without the depth first order, a form that stands after what it names can be refused. -/
theorem detour_unboundFormName :
    (∀ cx ts, Context.ofRequest [] (.list detour.elements) (.text "graph") = .ok cx →
      Token.classify cx.elements = .ok ts → FormsFollow cx ts) ∧
    ∃ d, compile [] (.list detour.elements) (.text "graph") = .error (.refused d) ∧
      d.kind = .unboundFormName := by
  have hrequest : Context.ofRequest [] (.list detour.elements) (.text "graph") = .ok detour := rfl
  constructor
  · intro cx ts hcx hts
    obtain rfl := Except.ok.inj (hrequest.symm.trans hcx)
    have htokens : Token.classify detour.elements = .ok
        [.node ⟨"a", none, 0⟩, .edge ⟨none, none, .out, 1⟩, .node ⟨"b", none, 2⟩,
          .edge ⟨none, none, .out, 3⟩, .node ⟨"a", none, 4⟩, .node ⟨"b", none, 5⟩,
          .edge ⟨none, none, .out, 6⟩, .node ⟨"c", none, 7⟩, .node ⟨"a", none, 8⟩,
          .constraint ⟨.when (formAbout "c"), 9⟩] := by cbv
    obtain rfl := Except.ok.inj (htokens.symm.trans hts)
    decide
  · have hwalked : detour.walkedPlan = .ok detourPlan := by cbv
    obtain ⟨g, hcompile⟩ := Context.compile_of_walkedPlan hwalked
    have hrepeated : Plan.repeated detourPlan.expanded.boundNames = [] := by cbv
    have hcheck : Plan.check detour (some g) detourPlan.expanded =
        .error (detour.refuse (.unboundFormName (formAbout "c").displayed "c")
          (Plan.formPosition? (formAbout "c") g.nodes).join) := by
      rw [Plan.check, hrepeated]
      rfl
    refine ⟨(Problem.unboundFormName (formAbout "c").displayed "c").diagnostic
      (detour.locate (Plan.formPosition? (formAbout "c") g.nodes).join)
      (some (Pattern.shown detour.elements)), ?_, rfl⟩
    rw [compile_of_ofRequest hrequest, hcompile, hcheck]
    rfl

end GraphPattern
