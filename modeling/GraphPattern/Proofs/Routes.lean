import GraphPattern.Path
import GraphPattern.Proofs.Distinct
import Mathlib.Data.List.Nodup

/-!
# GraphPattern — paths as relations

A path relates the elements between which a chain leads: one neighbour after the other for each part
that follows edges, with the test passed wherever the path restricts. Following a path with a list of
the elements reached so far, each of them once, finds the far ends of all chains. Leaving out what
was reached before on the way neither loses an end nor changes the order in which the ends are first
found, so a path can be cut in two and its second half followed from each element on its own.

Elements are told apart by an equality that need not be identity: the number one and the truth value
are one key. All lemmas below assume that the equality is an equivalence, and that neighbours and test
respect it. Where they do not, an end is lost, as what is equal to an element that was reached is not
followed.

* `Path.Leads` — a chain leads from one element to another.
* `Path.ends` — where the chains from an element end, chain by chain.
* `Path.Respects` — neighbours and test treat equal elements alike.
* `Path.evaluateFrom_eq_ok_iff` — when following a path succeeds, and what it finds then.
* `Path.evaluate_composes` — following a path, in whole and in two halves.
* `Path.evaluate_fork` — ends that are lost where equal elements lead to different ones.
-/

namespace GraphPattern

namespace Path

variable {α : Type _} (step : α → TypeMark → Direction → Except Fault (List α))
  (test : α → TypeMark → Except Fault Bool)

/-! ## Chains -/

/-- A chain leads along a path from one element to another. -/
def Leads : Path → α → α → Prop
  | [], x, y => x = y
  | .step d t :: p, x, y => ∃ ms, step x t d = .ok ms ∧ ∃ m ∈ ms, Leads p m y
  | .restrict t :: p, x, y => test x t = .ok true ∧ Leads p x y
  | .foreign _ :: _, _, _ => False

/-- The elements that a part of a path leads on to from an element. Where the part cannot be followed
there are none. -/
def onward : Segment → α → List α
  | .step d t, x =>
    match step x t d with
    | .ok ys => ys
    | .error _ => []
  | .restrict t, x =>
    match test x t with
    | .ok true => [x]
    | _ => []
  | .foreign _, _ => []

/-- The far ends of all chains from an element along a path, one for each chain. The chains over the
first neighbour come first. -/
def ends : Path → α → List α
  | [], x => [x]
  | s :: p, x => (onward step test s x).flatMap (ends p)

/-- A part of a path can be followed from an element. -/
def Passable : Segment → α → Prop
  | .step d t, x => ∃ ys, step x t d = .ok ys
  | .restrict t, x => ∃ b, test x t = .ok b
  | .foreign _, _ => False

/-- A path can be followed from an element, wherever it leads. -/
def Clear : Path → α → Prop
  | [], _ => True
  | s :: p, x => Passable step test s x ∧ ∀ y ∈ onward step test s x, Clear p y

variable {step test}

theorem mem_ends {p : Path} {x y : α} : y ∈ p.ends step test x ↔ p.Leads step test x y := by
  induction p generalizing x with
  | nil => simp [ends, Leads, eq_comm]
  | cons s p ih =>
    simp only [ends, List.mem_flatMap, ih]
    cases s with
    | step d t => cases h : step x t d <;> simp [onward, Leads, h]
    | restrict t => rcases h : test x t with f | (_ | _) <;> simp [onward, Leads, h]
    | foreign k => simp [onward, Leads]

/-- Where neighbours and tests never fail, a path of known parts can be followed from anywhere. -/
theorem clear_of_total (hstep : ∀ x t d, ∃ ys, step x t d = .ok ys)
    (htest : ∀ x t, ∃ b, test x t = .ok b) {p : Path} (hp : ∀ s ∈ p, ∀ k, s ≠ .foreign k) (x : α) :
    p.Clear step test x := by
  induction p generalizing x with
  | nil => trivial
  | cons s p ih =>
    refine ⟨?_, fun y _ => ih (fun s hs => hp s (List.mem_cons_of_mem _ hs)) y⟩
    cases s with
    | step d t => exact hstep x t d
    | restrict t => exact htest x t
    | foreign k => exact absurd rfl (hp _ (by simp) k)

/-! ## Following one part -/

/-- Two steps succeed if the first does and the second does with what the first gave. -/
theorem bind_eq_ok_iff {β γ : Type _} {first : Except Fault β} {second : β → Except Fault γ} {z : γ} :
    first >>= second = .ok z ↔ ∃ y, first = .ok y ∧ second y = .ok z := by
  cases first with
  | error e => simp [bind, Except.bind]
  | ok y => simp [bind, Except.bind]

/-- What is found for each member of a list, where it is known for which members something is. -/
theorem mapM_eq_ok_iff {β γ : Type _} {f : β → Except Fault γ} {fine : β → Prop} {found : β → γ}
    (hf : ∀ x y, f x = .ok y ↔ fine x ∧ y = found x) {xs : List β} {ys : List γ} :
    xs.mapM f = .ok ys ↔ (∀ x ∈ xs, fine x) ∧ ys = xs.map found := by
  induction xs generalizing ys with
  | nil => simp [pure, Except.pure, eq_comm]
  | cons x xs ih =>
    simp only [List.mapM_cons, bind_eq_ok_iff, hf, ih, List.forall_mem_cons, List.map_cons, pure,
      Except.pure, Except.ok.injEq]
    constructor
    · rintro ⟨_, ⟨hx, rfl⟩, _, ⟨hxs, rfl⟩, rfl⟩
      exact ⟨⟨hx, hxs⟩, rfl⟩
    · rintro ⟨⟨hx, hxs⟩, rfl⟩
      exact ⟨_, ⟨hx, rfl⟩, _, ⟨hxs, rfl⟩, rfl⟩

theorem filterAuxM_eq_ok_iff (step : α → TypeMark → Direction → Except Fault (List α)) {t : TypeMark}
    {xs acc out : List α} :
    List.filterAuxM (fun x => test x t) xs acc = .ok out ↔
      (∀ x ∈ xs, Passable step test (.restrict t) x) ∧
        out = (xs.flatMap (onward step test (.restrict t))).reverse ++ acc := by
  induction xs generalizing acc with
  | nil => simp [List.filterAuxM, pure, Except.pure, eq_comm]
  | cons x xs ih =>
    rw [List.filterAuxM, List.forall_mem_cons, List.flatMap_cons, bind_eq_ok_iff]
    rcases hx : test x t with e | (_ | _)
    · simp [Passable, hx]
    · simp [Passable, onward, hx, ih]
    · simp [Passable, onward, hx, ih]

/-- Tests only leave elements out. -/
theorem onward_restrict_sublist (t : TypeMark) (xs : List α) :
    (xs.flatMap (onward step test (.restrict t))).Sublist xs := by
  induction xs with
  | nil => exact .slnil
  | cons x xs ih =>
    rw [List.flatMap_cons]
    rcases hx : test x t with e | (_ | _) <;> simp [onward, hx, ih]

/-! ## Equal elements -/

variable [BEq α]

/-- Neighbours and test treat equal elements alike: whatever one of them leads to is equal to something
that the other leads to, and both pass a test or both do not. -/
structure Respects (step : α → TypeMark → Direction → Except Fault (List α))
    (test : α → TypeMark → Except Fault Bool) : Prop where
  step : ∀ {x y}, x == y → ∀ {t d ys}, step x t d = .ok ys →
    ∃ zs, step y t d = .ok zs ∧ ∀ z ∈ ys, zs.contains z
  test : ∀ {x y}, x == y → ∀ t, test x t = test y t

namespace Respects

/-- Where equality is identity, there is nothing to ask. -/
theorem of_lawful [LawfulBEq α] (step : α → TypeMark → Direction → Except Fault (List α))
    (test : α → TypeMark → Except Fault Bool) : Respects step test where
  step {x y} hxy t d ys hys := by
    rw [eq_of_beq hxy] at hys
    exact ⟨ys, hys, fun z hz => by simpa using hz⟩
  test {x y} hxy t := by rw [eq_of_beq hxy]

variable [EquivBEq α] (h : Respects step test) {s : Segment} {p : Path} {x y z : α}
include h

omit [EquivBEq α] in
theorem passable (hxy : x == y) (hx : Passable step test s x) : Passable step test s y := by
  cases s with
  | step d t =>
    obtain ⟨ys, hys⟩ := hx
    obtain ⟨zs, hzs, -⟩ := h.step hxy hys
    exact ⟨zs, hzs⟩
  | restrict t =>
    obtain ⟨b, hb⟩ := hx
    exact ⟨b, h.test hxy t ▸ hb⟩
  | foreign k => exact hx

omit [EquivBEq α] in
theorem onward (hxy : x == y) (hz : z ∈ onward step test s x) :
    (Path.onward step test s y).contains z := by
  cases s with
  | step d t =>
    cases hys : step x t d with
    | error e => simp [Path.onward, hys] at hz
    | ok ys =>
      obtain ⟨zs, hzs, hall⟩ := h.step hxy hys
      simp only [Path.onward, hys] at hz
      simp only [Path.onward, hzs]
      exact hall z hz
  | restrict t =>
    rcases hx : test x t with e | (_ | _)
    · simp [Path.onward, hx] at hz
    · simp [Path.onward, hx] at hz
    · simp only [Path.onward, hx, List.mem_singleton] at hz
      subst hz
      simp [Path.onward, ← h.test hxy t, hx, hxy]
  | foreign k => cases hz

omit [EquivBEq α] in
/-- Where a chain from an element ends, one from an equal element ends as well, but for equality. -/
theorem ends (hxy : x == y) (hz : z ∈ p.ends step test x) : (p.ends step test y).contains z := by
  induction p generalizing x y with
  | nil =>
    rw [Path.ends, List.mem_singleton] at hz
    subst hz
    simp [Path.ends, hxy]
  | cons s p ih =>
    obtain ⟨m, hm, hz⟩ := List.mem_flatMap.1 hz
    obtain ⟨n, hn, hmn⟩ := List.contains_iff_exists_mem_beq.1 (h.onward hxy hm)
    obtain ⟨w, hw, hzw⟩ := List.contains_iff_exists_mem_beq.1 (ih hmn hz)
    exact List.contains_iff_exists_mem_beq.2 ⟨w, List.mem_flatMap.2 ⟨n, hn, hw⟩, hzw⟩

theorem clear (hxy : x == y) (hx : p.Clear step test x) : p.Clear step test y := by
  induction p generalizing x y with
  | nil => trivial
  | cons s p ih =>
    refine ⟨h.passable hxy hx.1, fun m hm => ?_⟩
    obtain ⟨n, hn, hmn⟩ := List.contains_iff_exists_mem_beq.1 (h.onward (BEq.symm hxy) hm)
    exact ih (BEq.symm hmn) (hx.2 n hn)

/-- It is enough that a path can be followed from each element once. -/
theorem clear_distinct_iff {xs : List α} :
    (∀ x ∈ distinct xs, p.Clear step test x) ↔ ∀ x ∈ xs, p.Clear step test x := by
  constructor
  · intro hall x hx
    have hkept : (distinct xs).contains x := by
      rw [distinct, contains_eraseDups]
      exact List.contains_iff_exists_mem_beq.2 ⟨x, hx, BEq.rfl⟩
    obtain ⟨y, hy, hxy⟩ := List.contains_iff_exists_mem_beq.1 hkept
    exact h.clear (BEq.symm hxy) (hall y hy)
  · exact fun hall x hx => hall x (mem_of_mem_eraseDups hx)

/-- Nor does it change what is found if the rest is followed from each element once. -/
theorem distinct_flatMap_distinct (xs : List α) :
    distinct ((distinct xs).flatMap (p.ends step test)) = distinct (xs.flatMap (p.ends step test)) :=
  eraseDups_flatMap_eraseDups (fun _ _ hxy _ hz => h.ends (BEq.symm hxy) hz) xs

end Respects

variable [EquivBEq α]

/-- What one part leads on to from some elements, each of them once. -/
theorem advance_eq_ok_iff {s : Segment} {x : α} {xs out : List α} (hunlike : Unlike (x :: xs)) :
    advance step test (x :: xs) s = .ok out ↔
      (∀ y ∈ x :: xs, Passable step test s y) ∧
        out = distinct ((x :: xs).flatMap (onward step test s)) := by
  cases s with
  | step d t =>
    have hf : ∀ x ys, step x t d = .ok ys ↔
        Passable step test (.step d t) x ∧ ys = onward step test (.step d t) x := by
      intro x ys
      cases hx : step x t d <;> simp [Passable, onward, hx, eq_comm]
    simp only [advance, bind_eq_ok_iff, mapM_eq_ok_iff hf, pure, Except.pure, Except.ok.injEq]
    constructor
    · rintro ⟨_, ⟨hall, rfl⟩, rfl⟩
      exact ⟨hall, by rw [List.flatMap_def]⟩
    · rintro ⟨hall, rfl⟩
      exact ⟨_, ⟨hall, rfl⟩, by rw [List.flatMap_def]⟩
  | restrict t =>
    have hdistinct : distinct ((x :: xs).flatMap (onward step test (.restrict t))) =
        (x :: xs).flatMap (onward step test (.restrict t)) :=
      eraseDups_of_unlike (hunlike.sublist (onward_restrict_sublist t _))
    simp only [advance, List.filterM, bind_eq_ok_iff, filterAuxM_eq_ok_iff step, hdistinct, pure,
      Except.pure, Except.ok.injEq]
    constructor
    · rintro ⟨_, ⟨hall, rfl⟩, rfl⟩
      exact ⟨hall, by simp⟩
    · rintro ⟨hall, rfl⟩
      exact ⟨_, ⟨hall, rfl⟩, by simp⟩
  | foreign k =>
    have hnot : ¬ ∀ y ∈ x :: xs, Passable step test (.foreign k) y := fun hall => hall x (by simp)
    simp only [advance, hnot, false_and, reduceCtorEq]

/-! ## Following a path -/

omit [BEq α] [EquivBEq α] in
/-- A path can be followed from some elements if its first part can, and the rest from where that
leads. -/
theorem clear_cons_iff {s : Segment} {p : Path} {current : List α} :
    (∀ x ∈ current, Clear step test (s :: p) x) ↔
      (∀ x ∈ current, Passable step test s x) ∧
        ∀ y ∈ current.flatMap (onward step test s), Clear step test p y := by
  simp only [Clear, List.mem_flatMap]
  constructor
  · intro h
    refine ⟨fun x hx => (h x hx).1, ?_⟩
    rintro y ⟨x, hx, hy⟩
    exact (h x hx).2 y hy
  · rintro ⟨hpass, hclear⟩ x hx
    exact ⟨hpass x hx, fun y hy => hclear y ⟨x, hx, hy⟩⟩

/-- Following a path from some elements, each of them once, succeeds exactly if it can be followed
from each. What is found are the far ends of the chains, first those from the first element. -/
theorem evaluateFrom_eq_ok_iff (h : Respects step test) {p : Path} {current out : List α}
    (hunlike : Unlike current) : evaluateFrom step test current p = .ok out ↔
      (∀ x ∈ current, Clear step test p x) ∧ out = distinct (current.flatMap (ends step test p)) := by
  induction p generalizing current with
  | nil =>
    have hends : current.flatMap (ends step test []) = current := by simp [ends]
    have hdistinct : distinct current = current := eraseDups_of_unlike hunlike
    simp [evaluateFrom, Clear, hends, hdistinct, eq_comm]
  | cons s p ih =>
    cases current with
    | nil => simp [evaluateFrom, distinct, eq_comm]
    | cons x current =>
      -- what the first part leads to is thinned out before the rest is followed
      have hrest : evaluateFrom step test (distinct ((x :: current).flatMap (onward step test s))) p =
          .ok out ↔ (∀ y ∈ (x :: current).flatMap (onward step test s), Clear step test p y) ∧
            out = distinct ((x :: current).flatMap (ends step test (s :: p))) := by
        have hthin : Unlike (distinct ((x :: current).flatMap (onward step test s))) :=
          unlike_eraseDups _
        rw [ih hthin, h.clear_distinct_iff, h.distinct_flatMap_distinct,
          List.flatMap_assoc]
        rfl
      rw [evaluateFrom, bind_eq_ok_iff, clear_cons_iff, and_assoc, ← hrest]
      simp only [advance_eq_ok_iff hunlike]
      constructor
      · rintro ⟨_, ⟨hpass, rfl⟩, hout⟩
        exact ⟨hpass, hout⟩
      · rintro ⟨hpass, hout⟩
        exact ⟨_, ⟨hpass, rfl⟩, hout⟩

theorem evaluate_eq_ok_iff (h : Respects step test) {p : Path} {start : α} {out : List α} :
    evaluate step test start p = .ok out ↔
      Clear step test p start ∧ out = distinct (ends step test p start) := by
  rw [evaluate, evaluateFrom_eq_ok_iff h (List.pairwise_singleton _ _)]
  simp

omit [EquivBEq α] in
/-- Following two paths one after the other. -/
theorem evaluateFrom_append (p q : Path) (current : List α) :
    evaluateFrom step test current (p ++ q) =
      evaluateFrom step test current p >>= fun mid => evaluateFrom step test mid q := by
  induction p generalizing current with
  | nil => rfl
  | cons s p ih =>
    cases current with
    | nil => cases q <;> rfl
    | cons x current =>
      rw [List.cons_append, evaluateFrom, evaluateFrom]
      cases advance step test (x :: current) s with
      | error e => rfl
      | ok mid => exact ih mid

/-- Following a path from some elements at once finds what is found from each of them on its own. -/
theorem evaluateFrom_eq_ok_iff_mapM (h : Respects step test) {q : Path} {current whole : List α}
    (hunlike : Unlike current) : evaluateFrom step test current q = .ok whole ↔
      ∃ parts, current.mapM (fun x => evaluate step test x q) = .ok parts ∧
        whole = distinct parts.flatten := by
  simp only [evaluateFrom_eq_ok_iff h hunlike, mapM_eq_ok_iff fun _ _ => evaluate_eq_ok_iff h]
  have hparts : distinct (current.map fun x => distinct (ends step test q x)).flatten =
      distinct (current.flatMap (ends step test q)) := by
    rw [← List.flatMap_def]
    exact eraseDups_flatMap_eraseDups_right _ _
  constructor
  · rintro ⟨hclear, rfl⟩
    exact ⟨_, ⟨hclear, rfl⟩, hparts.symm⟩
  · rintro ⟨_, ⟨hclear, rfl⟩, rfl⟩
    exact ⟨hclear, hparts⟩

/-- Where a path is followed, no two elements found are equal. What is found are far ends of chains,
and every end of a chain is equal to what is found. The elements stand in the order in which the chains
come to them first. Following one path behind another finds what the second finds from each element
that the first leads to, in that order. Nothing but neighbours, a test or a part of an unknown kind can
make it fail. The equality of elements is an equivalence that neighbours and test respect. -/
theorem evaluate_composes {step : α → TypeMark → Direction → Except Fault (List α)}
    {test : α → TypeMark → Except Fault Bool} (h : Respects step test) (start : α) (p q : Path) :
    (∀ out, evaluate step test start p = .ok out →
      Unlike out ∧ (∀ x ∈ out, p.Leads step test start x) ∧
        (∀ x, out.contains x ↔ ∃ y, p.Leads step test start y ∧ x == y) ∧
        out = distinct (p.ends step test start)) ∧
    (∀ whole, evaluate step test start (p ++ q) = .ok whole ↔
      ∃ out parts, evaluate step test start p = .ok out ∧
        out.mapM (fun x => evaluate step test x q) = .ok parts ∧ whole = distinct parts.flatten) ∧
    ((∀ x t d, ∃ ys, step x t d = .ok ys) → (∀ x t, ∃ b, test x t = .ok b) →
      (∀ s ∈ p, ∀ k, s ≠ .foreign k) → ∃ out, evaluate step test start p = .ok out) := by
  refine ⟨fun out hout => ?_, fun whole => ?_, fun hstep htest hp => ?_⟩
  · obtain ⟨-, rfl⟩ := (evaluate_eq_ok_iff h).1 hout
    refine ⟨unlike_eraseDups _, fun x hx => mem_ends.1 (mem_of_mem_eraseDups hx), fun x => ?_, rfl⟩
    rw [distinct, contains_eraseDups, List.contains_iff_exists_mem_beq]
    simp only [mem_ends]
  · rw [evaluate, evaluateFrom_append, bind_eq_ok_iff]
    have hunlike : ∀ {out}, evaluate step test start p = .ok out → Unlike out := by
      intro out hout
      rw [((evaluate_eq_ok_iff h).1 hout).2]
      exact unlike_eraseDups _
    constructor
    · rintro ⟨out, hout, hrest⟩
      obtain ⟨parts, hparts, hwhole⟩ := (evaluateFrom_eq_ok_iff_mapM h (hunlike hout)).1 hrest
      exact ⟨out, parts, hout, hparts, hwhole⟩
    · rintro ⟨out, parts, hout, hparts, hwhole⟩
      exact ⟨out, hout, (evaluateFrom_eq_ok_iff_mapM h (hunlike hout)).2 ⟨parts, hparts, hwhole⟩⟩
  · exact ⟨_, (evaluate_eq_ok_iff h).2 ⟨clear_of_total hstep htest hp start, rfl⟩⟩

end Path

/-! ## Values as keys -/

theorem Quantity.same_iff {x y : Quantity} : x.same y = true ↔ x = y ∧ x ≠ .undefined := by
  cases x <;> cases y <;> simp [same]

namespace Value

/-- What fits a value that is no list: the same thing, the same number of whatever type, or the same
text. What is no number equals nothing else. -/
theorem fits_iff {a b : Value} (ha : a.isList = false) :
    a.fits b = true ↔ a = b ∨
      (∃ x, a.quantity? = some x ∧ b.quantity? = some x ∧ x ≠ .undefined) ∨
        ∃ s o o', a = .text s o ∧ b = .text s o' := by
  rw [fits, Bool.or_eq_true, decide_eq_true_iff]
  cases a with
  | list vs o => cases ha
  | text s o => cases b <;> grind [same, quantity?, integer?]
  | _ =>
    simp only [same]
    cases b.quantity? <;> grind [quantity?, integer?, Quantity.same_iff]

/-- A value that can be looked up: any but a list. -/
structure Key where
  value : Value
  notList : value.isList = false

namespace Key

instance : BEq Key := ⟨fun k l => k.value.fits l.value⟩

theorem beq_def (k l : Key) : (k == l) = k.value.fits l.value := rfl

instance : EquivBEq Key where
  rfl := by simp [beq_def, fits]
  symm := by
    intro k l h
    rw [beq_def, fits_iff k.notList] at h
    rw [beq_def, fits_iff l.notList]
    rcases h with heq | ⟨x, hk, hl, hx⟩ | ⟨s, o, o', hk, hl⟩
    · exact .inl heq.symm
    · exact .inr (.inl ⟨x, hl, hk, hx⟩)
    · exact .inr (.inr ⟨s, o', o, hl, hk⟩)
  trans := by
    intro k l m hkl hlm
    rw [beq_def, fits_iff k.notList] at hkl
    rw [beq_def, fits_iff l.notList] at hlm
    rw [beq_def, fits_iff k.notList]
    grind [quantity?, integer?]

/-- Equal keys amount to the same number, or neither is a number. -/
theorem quantity?_eq {k l : Key} (h : k == l) : k.value.quantity? = l.value.quantity? := by
  rw [beq_def, fits_iff k.notList] at h
  rcases h with heq | ⟨x, hk, hl, -⟩ | ⟨s, o, o', hk, hl⟩
  · rw [heq]
  · rw [hk, hl]
  · rw [hk, hl]
    rfl

def number (n : Int) : Key := ⟨.int n .shared, rfl⟩

def truth : Key := ⟨.bool true, rfl⟩

end Key

/-- Values are told apart as keys are. -/
theorem distinct_map_value (ks : List Key) :
    Value.distinct (ks.map Key.value) = .ok ((GraphPattern.distinct ks).map Key.value) := by
  have hkeys : (ks.map Key.value).any Value.isList = false := by
    simpa using fun k _ => k.notList
  have hsame : ∀ ks : List Key, (ks.map Key.value).eraseDupsBy fits = ks.eraseDups.map Key.value := by
    intro ks
    induction ks using thinning_induction with
    | nil => rfl
    | cons k ks ih =>
      rw [List.map_cons, List.eraseDupsBy_cons, List.filter_map, List.eraseDups_cons, List.map_cons,
        ← ih]
      refine congrArg (fun ls : List Key => k.value :: (ls.map Key.value).eraseDupsBy fits)
        (List.filter_congr fun l _ => ?_)
      rw [Key.beq_def, Function.comp_apply]
      cases l.value.fits k.value <;> rfl
  rw [Value.distinct, hkeys, hsame]
  rfl

end Value

namespace Path

open Value.Key (number truth)

/-- To one, both as a number and as a truth value, and from there to the next two numbers. -/
def hop (x : Value.Key) (_ : TypeMark) : Direction → Except Fault (List Value.Key)
  | .out => .ok <| match x.value.quantity? with
    | some q => if q.same (.rational 1) then [number 2, number 3] else [number 1, truth]
    | none => []
  | .into => .ok [number 0]

def isNumber (x : Value.Key) (_ : TypeMark) : Except Fault Bool :=
  .ok x.value.quantity?.isSome

theorem respects_hop : Respects hop isNumber where
  step {x y} hxy t d ys hys := by
    have hsame : hop x t d = hop y t d := by cases d <;> simp only [hop, Value.Key.quantity?_eq hxy]
    exact ⟨ys, hsame ▸ hys, fun z hz => List.contains_iff_exists_mem_beq.2 ⟨z, hz, BEq.rfl⟩⟩
  test {x y} hxy t := by rw [isNumber, isNumber, Value.Key.quantity?_eq hxy]

theorem evaluate_composes_hops :
    evaluate hop isNumber (number 0) [.step .out .any] = .ok [number 1] ∧
      (Unlike [number 1] ∧ (∀ x ∈ [number 1], Leads hop isNumber [.step .out .any] (number 0) x) ∧
        (∀ x, [number 1].contains x ↔
          ∃ y, Leads hop isNumber [.step .out .any] (number 0) y ∧ x == y) ∧
        [number 1] = distinct (ends hop isNumber [.step .out .any] (number 0))) ∧
      (∃ out parts, evaluate hop isNumber (number 0) [.step .out .any] = .ok out ∧
        out.mapM (fun x => evaluate hop isNumber x [.step .out .any, .restrict .any]) = .ok parts ∧
        [number 2, number 3] = distinct parts.flatten) ∧
      ∃ out, evaluate hop isNumber (number 0) [.step .out .any] = .ok out := by
  obtain ⟨hfound, hcomposes, hsucceeds⟩ := evaluate_composes respects_hop (number 0)
    [.step .out .any] [.step .out .any, .restrict .any]
  have hstep : ∀ x t d, ∃ ys, hop x t d = .ok ys := fun x t d => by cases d <;> exact ⟨_, rfl⟩
  have htest : ∀ x t, ∃ b, isNumber x t = .ok b := fun x t => ⟨_, rfl⟩
  exact ⟨rfl, hfound _ rfl, (hcomposes _).1 rfl, hsucceeds hstep htest (by simp)⟩

/-- From zero two ways lead to one, as a number and as a truth value, and on to different numbers. -/
def fork (x : Value.Key) (_ : TypeMark) (_ : Direction) : Except Fault (List Value.Key) :=
  .ok <| match x.value with
  | .int 0 _ => [number 10, number 11]
  | .int 10 _ => [number 1]
  | .int 11 _ => [truth]
  | .int 1 _ => [number 100]
  | .bool true => [number 200]
  | _ => []

/-- The second way is lost where a path is followed as a whole. And a list, from which the empty path
leads to the list, cannot be told apart from anything afterwards. -/
theorem evaluate_fork :
    evaluate fork isNumber (number 0) ([.step .out .any] ++ [.step .out .any, .step .out .any]) =
        .ok [number 100] ∧
      Leads fork isNumber [.step .out .any, .step .out .any, .step .out .any] (number 0)
        (number 200) ∧ ¬ [number 100].contains (number 200) ∧
      (do
        let out ← evaluate fork isNumber (number 0) [.step .out .any]
        let parts ← out.mapM fun x => evaluate fork isNumber x [.step .out .any, .step .out .any]
        return distinct parts.flatten) = .ok [number 100, number 200] ∧
      evaluate (fun _ _ _ => .ok []) (fun _ _ => .ok true) (.list [] .shared) ([] ++ []) =
        .ok [Value.list [] .shared] ∧
      Value.distinct [.list [] .shared] = .error .wrongOperand := by
  refine ⟨rfl, ?_, Bool.false_ne_true, rfl, rfl, rfl⟩
  exact ⟨_, rfl, _, .tail _ (.head _), _, rfl, _, .head _, _, rfl, _, .head _, rfl⟩

end Path

end GraphPattern
