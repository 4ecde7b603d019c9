import GraphPattern.Proofs.Schedules
import Mathlib.Data.List.Dedup
import Mathlib.Data.Finset.Card

/-!
# GraphPattern — orders by counting

Instead of what a job still requires, one can keep how many things these are. Whenever a job is
taken, everything that requires it is counted down, and what comes to zero gets onto the queue. Jobs
may be given several times: then they are counted down several times, and may get onto the queue
too early, or never. But they get onto it only once, and so less is taken than is given.

## Results

* `Schedule.counted_eq_drain` — among distinct jobs, counts tell what waits.
* `Schedule.nodup_counted` — nothing is taken twice, whatever is given.
* `Schedule.order_eq_countedOrder` — the order by counting is the order.
-/

namespace GraphPattern

namespace Schedule

/-! ## Counts -/

/-- What a job requires, each thing once. Of a job that is given again, what is given last holds. -/
def requirements (jobs : List Job) (name : String) : List String :=
  ((jobs.reverse.find? (·.name = name)).elim [] (·.requires)).dedup

/-- How many things a job still requires, and what is ready. -/
structure Count where
  left : String → Int
  queue : List String

/-- Counts a job down if it requires the one that is done; at zero it gets onto the queue. -/
def Count.down (jobs : List Job) (done : String) (c : Count) (name : String) : Count :=
  if done ∈ requirements jobs name then
    { left := Function.update c.left name (c.left name - 1)
      queue := if c.left name - 1 = 0 then c.queue ++ [name] else c.queue }
  else c

/-- Counts everything down that requires the job that is done. -/
def Count.pass (jobs : List Job) (done : String) (c : Count) : Count :=
  (jobs.map (·.name)).foldl (Count.down jobs done) c

/-- What is on the queue, or may get onto it. -/
def Count.size (jobs : List Job) (c : Count) : Nat :=
  ((jobs.map (·.name)).toFinset.filter (0 < c.left ·)).card + c.queue.length

/-- What gets onto the queue has come to zero. -/
theorem Count.size_down {jobs : List Job} {done name : String} {c : Count}
    (hname : name ∈ jobs.map (·.name)) : (c.down jobs done name).size jobs = c.size jobs := by
  rw [down]
  split
  · rw [size, size]
    -- at zero the name passes from those still counted to the queue; else the same are counted
    by_cases hzero : c.left name - 1 = 0
    · have herase : (jobs.map (·.name)).toFinset.filter
            (0 < Function.update c.left name (c.left name - 1) ·) =
          ((jobs.map (·.name)).toFinset.filter (0 < c.left ·)).erase name := by
        ext p
        by_cases hp : p = name
        · subst hp
          simp [hzero]
        · simp [hp]
      have hmem : name ∈ (jobs.map (·.name)).toFinset.filter (0 < c.left ·) :=
        Finset.mem_filter.2 ⟨List.mem_toFinset.2 hname, by omega⟩
      have hpos := Finset.card_pos.2 ⟨name, hmem⟩
      rw [herase, Finset.card_erase_of_mem hmem, if_pos hzero, List.length_append,
        List.length_singleton]
      omega
    · have hsame : (jobs.map (·.name)).toFinset.filter
            (0 < Function.update c.left name (c.left name - 1) ·) =
          (jobs.map (·.name)).toFinset.filter (0 < c.left ·) := by
        ext p
        by_cases hp : p = name
        · subst hp
          simp only [Finset.mem_filter, Function.update_self]
          exact and_congr_right fun _ => by omega
        · simp [hp]
      rw [hsame, if_neg hzero]
  · rfl

theorem Count.size_pass (jobs : List Job) (done : String) (c : Count) :
    (c.pass jobs done).size jobs = c.size jobs := by
  have hall : ∀ names : List String, (∀ p ∈ names, p ∈ jobs.map (·.name)) → ∀ c : Count,
      (names.foldl (Count.down jobs done) c).size jobs = c.size jobs := by
    intro names hnames
    induction names with
    | nil => exact fun _ => rfl
    | cons p names ih =>
      intro c
      rw [List.foldl_cons, ih (fun q hq => hnames q (List.mem_cons_of_mem _ hq)),
        size_down (hnames p List.mem_cons_self)]
  exact hall _ (fun _ hp => hp) c

/-- Takes the jobs of the queue in turn, and counts down what requires them. -/
def counted (jobs : List Job) (left : String → Int) (queue : List String) : List String :=
  match queue with
  | [] => []
  | name :: queue =>
    let c := Count.pass jobs name ⟨left, queue⟩
    name :: counted jobs c.left c.queue
termination_by Count.size jobs ⟨left, queue⟩
decreasing_by
  have hpass := Count.size_pass jobs name ⟨left, queue⟩
  simp only [Count.size, List.length_cons] at hpass ⊢
  omega

/-- The names, each where it is given first. -/
def firsts (names : List String) : List String :=
  names.reverse.dedup.reverse

/-- The counts before anything is done. -/
def Count.start (jobs : List Job) : Count :=
  let left : String → Int := fun name => (requirements jobs name).length
  { left, queue := (firsts (jobs.map (·.name))).filter (left · = 0) }

theorem Count.left_start (jobs : List Job) (name : String) :
    (start jobs).left name = (requirements jobs name).length :=
  rfl

theorem Count.queue_start (jobs : List Job) : (start jobs).queue =
    (firsts (jobs.map (·.name))).filter fun name => ((requirements jobs name).length : Int) = 0 :=
  rfl

/-- The order by counting. -/
def countedOrder (jobs : List Job) : Except Fault (List String) :=
  let names := counted jobs (Count.start jobs).left (Count.start jobs).queue
  if names.length = jobs.length then .ok names else .error .unorderedStages

/-! ## Distinct jobs -/

theorem requirements_of_mem {jobs : List Job} (hdistinct : (jobs.map (·.name)).Nodup) {j : Job}
    (hj : j ∈ jobs) : requirements jobs j.name = j.requires.dedup := by
  have hfind : jobs.reverse.find? (·.name = j.name) = some j := by
    cases hfound : jobs.reverse.find? (·.name = j.name) with
    | none => simpa using List.find?_eq_none.1 hfound j (List.mem_reverse.2 hj)
    | some k =>
      have hname : k.name = j.name := by simpa using List.find?_some hfound
      have hk := List.mem_reverse.1 (List.mem_of_find?_eq_some hfound)
      rw [List.inj_on_of_nodup_map hdistinct hk hj hname]
  rw [requirements, hfind]
  rfl

/-- Among distinct names, each is counted down at most once. -/
theorem Count.foldl_down (jobs : List Job) (done : String) {names : List String}
    (hnames : names.Nodup) (c : Count) : names.foldl (Count.down jobs done) c =
      { left := fun p => if p ∈ names ∧ done ∈ requirements jobs p then c.left p - 1 else c.left p
        queue := c.queue ++
          names.filter fun p => done ∈ requirements jobs p ∧ c.left p = 1 } := by
  induction names generalizing c with
  | nil => simp
  | cons name names ih =>
    obtain ⟨hname, hnames⟩ := List.nodup_cons.1 hnames
    rw [List.foldl_cons, ih hnames, down]
    by_cases hdone : done ∈ requirements jobs name
    · -- the others keep their counts
      have hothers : ∀ p ∈ names, Function.update c.left name (c.left name - 1) p = c.left p :=
        fun p hp => Function.update_of_ne (fun h : p = name => hname (h ▸ hp)) _ _
      simp only [hdone, if_true]
      congr 1
      · funext p
        by_cases hp : p = name
        · subst hp
          simp [hname, hdone]
        · simp [hp]
      · rw [List.filter_congr fun p hp => by rw [hothers p hp]]
        by_cases hone : c.left name = 1
        · simp [hone, hdone]
        · have hne : c.left name - 1 ≠ 0 := by omega
          simp [hone, hne]
    · simp only [hdone, if_false]
      congr 1
      · funext p
        by_cases hp : p = name
        · subst hp
          simp [hdone]
        · simp [hp]
      · simp [hdone]

/-- The job once some others are done. -/
def after (done : List String) (j : Job) : Job :=
  { j with requires := j.requires.filter (· ∉ done) }

theorem without_after (done : List String) (j : Job) (name : String) :
    (after done j).without name = after (name :: done) j := by
  simp only [after, Job.without, List.filter_filter, Job.mk.injEq, true_and]
  exact List.filter_congr fun r _ => by rw [Bool.eq_iff_iff]; simp

theorem ready_after {done : List String} {j : Job} :
    (after done j).ready = true ↔ ∀ r ∈ j.requires, r ∈ done := by
  simp [Job.ready_iff, after]

/-- What still waits once some jobs are done. -/
def waitingAfter (jobs : List Job) (done : List String) : List Job :=
  (jobs.map (after done)).filter (!·.ready)

theorem held_waitingAfter (jobs : List Job) (done : List String) (name : String) :
    held (waitingAfter jobs done) name = waitingAfter jobs (name :: done) := by
  simp only [held, waitingAfter, List.filter_map, List.map_map, List.filter_filter,
    Function.comp_def, without_after]
  refine congrArg _ (List.filter_congr fun j _ => ?_)
  -- what is ready stays ready
  cases hready : (after done j).ready with
  | false => simp
  | true =>
    have hstill : (after (name :: done) j).ready = true :=
      ready_after.2 fun r hr => List.mem_cons_of_mem _ (ready_after.1 hready r hr)
    simp [hstill]

/-- A job becomes ready when the one thing it still requires is done. -/
theorem becomes_ready_iff {done : List String} {j : Job} {name : String} (hname : name ∉ done) :
    ((after (name :: done) j).ready = true ∧ (after done j).ready = false) ↔
      name ∈ j.requires.dedup ∧ (j.requires.dedup.filter (· ∉ done)).length = 1 := by
  have hmem : ∀ {r}, r ∈ j.requires.dedup.filter (· ∉ done) ↔ r ∈ j.requires ∧ r ∉ done := by
    intro r
    simp
  rw [← Bool.not_eq_true, ready_after, ready_after]
  constructor
  · -- made ready by the name: all it still lacked was this name, and it lacked something
    rintro ⟨hready, hnot⟩
    have honly : ∀ r ∈ j.requires.dedup.filter (· ∉ done), r = name := fun r hr =>
      (List.mem_cons.1 (hready r (hmem.1 hr).1)).resolve_right (hmem.1 hr).2
    obtain ⟨r, hr⟩ : ∃ r, r ∈ j.requires.dedup.filter (· ∉ done) := by
      by_contra hnone
      refine hnot fun r hr => ?_
      by_contra hrd
      exact hnone ⟨r, hmem.2 ⟨hr, hrd⟩⟩
    obtain rfl := honly r hr
    have hatmost := (((List.nodup_dedup _).filter _).subperm
      fun q hq => List.mem_singleton.2 (honly q hq)).length_le
    exact ⟨List.mem_dedup.2 (hmem.1 hr).1, Nat.le_antisymm hatmost (List.length_pos_of_mem hr)⟩
  · -- lacking this one name, it is ready with it and was not without it
    rintro ⟨hrequires, hlength⟩
    obtain ⟨r, hsingle⟩ := List.length_eq_one_iff.1 hlength
    have hr : name = r := List.mem_singleton.1
      (hsingle ▸ hmem.2 ⟨List.mem_dedup.1 hrequires, hname⟩)
    constructor
    · intro q hq
      by_cases hdone : q ∈ done
      · exact List.mem_cons_of_mem _ hdone
      · have hq' : q = r := List.mem_singleton.1 (hsingle ▸ hmem.2 ⟨hq, hdone⟩)
        exact hq' ▸ hr ▸ List.mem_cons_self
    · exact fun hall => hname (hall name (List.mem_dedup.1 hrequires))

theorem released_waitingAfter {jobs : List Job} (hdistinct : (jobs.map (·.name)).Nodup)
    {done : List String} {name : String} (hname : name ∉ done) {left : String → Int}
    (hleft : ∀ j ∈ jobs, left j.name = (j.requires.dedup.filter (· ∉ done)).length) :
    released (waitingAfter jobs done) name = (jobs.map (·.name)).filter fun p =>
      name ∈ requirements jobs p ∧ left p = 1 := by
  simp only [released, waitingAfter, List.filter_map, List.map_map, List.filter_filter,
    Function.comp_def, without_after]
  have hfilter : jobs.filter (fun j =>
        (after (name :: done) j).ready && !(after done j).ready) =
      jobs.filter fun j => name ∈ requirements jobs j.name ∧ left j.name = 1 := by
    refine List.filter_congr fun j hj => ?_
    rw [requirements_of_mem hdistinct hj, hleft j hj, Bool.eq_iff_iff, Bool.and_eq_true,
      Bool.not_eq_true', becomes_ready_iff hname, decide_eq_true_iff]
    norm_cast
  rw [hfilter]
  rfl

/-- Among distinct jobs, counts tell what waits. -/
theorem counted_eq_drain {jobs : List Job} (hdistinct : (jobs.map (·.name)).Nodup)
    (left : String → Int) (queue done : List String)
    (hleft : ∀ j ∈ jobs, left j.name = (j.requires.dedup.filter (· ∉ done)).length)
    (hqueue : (done ++ (queue ++ (waitingAfter jobs done).map (·.name))).Nodup) :
    counted jobs left queue = drain (waitingAfter jobs done) queue := by
  induction left, queue using counted.induct jobs generalizing done with
  | case1 left => rw [counted, drain]
  | case2 left name queue c ih =>
    have hname : name ∉ done := fun hmem =>
      (List.nodup_append.1 hqueue).2.2 name hmem name List.mem_cons_self rfl
    have hc : c = _ := Count.foldl_down jobs name hdistinct ⟨left, queue⟩
    have hcqueue : c.queue = queue ++ released (waitingAfter jobs done) name := by
      rw [hc, released_waitingAfter hdistinct hname hleft]
    have hrest : ((name :: done) ++ (c.queue ++
        (waitingAfter jobs (name :: done)).map (·.name))).Nodup := by
      have hmoved := (perm_of_taken (waitingAfter jobs done) name queue).append_left (name :: done)
      rw [held_waitingAfter] at hmoved
      rw [hcqueue, hmoved.nodup_iff]
      exact List.perm_middle.nodup_iff.1 hqueue
    -- the counts tell the requirements that are not done, now that one more is done
    rw [counted, drain, held_waitingAfter, ← hcqueue]
    refine congrArg (name :: ·) (ih (name :: done) (fun j hj => ?_) hrest)
    have hsplit : j.requires.dedup.filter (· ∉ name :: done) =
        (j.requires.dedup.filter (· ∉ done)).filter (· ≠ name) := by
      rw [List.filter_filter]
      exact List.filter_congr fun r _ => by rw [Bool.eq_iff_iff]; simp
    rw [hc, hsplit]
    simp only [requirements_of_mem hdistinct hj, List.mem_map_of_mem hj, true_and, hleft j hj]
    by_cases hmem : name ∈ j.requires.dedup
    · have hstill : name ∈ j.requires.dedup.filter (· ∉ done) :=
        List.mem_filter.2 ⟨hmem, decide_eq_true hname⟩
      have herase : (j.requires.dedup.filter (· ∉ done)).filter (· ≠ name) =
          (j.requires.dedup.filter (· ∉ done)).erase name := by
        rw [((List.nodup_dedup _).filter _).erase_eq_filter]
        exact List.filter_congr fun r _ => by rw [Bool.eq_iff_iff]; simp
      have hpos := List.length_pos_of_mem hstill
      rw [if_pos hmem, herase, List.length_erase_of_mem hstill]
      omega
    · have hall : (j.requires.dedup.filter (· ∉ done)).filter (· ≠ name) =
          j.requires.dedup.filter (· ∉ done) := by
        refine List.filter_eq_self.2 fun r hr => decide_eq_true ?_
        exact fun heq => hmem (heq ▸ (List.mem_filter.1 hr).1)
      rw [if_neg hmem, hall]

/-! ## Repeated jobs -/

/-- What was taken or is on the queue does not get onto it again. -/
structure Fresh (jobs : List Job) (seen : List String) (c : Count) : Prop where
  once : (seen ++ c.queue).Nodup
  zero : ∀ p ∈ seen ++ c.queue, c.left p ≤ 0
  given : ∀ p ∈ c.queue, p ∈ jobs.map (·.name)

theorem Fresh.down {jobs : List Job} {seen : List String} {c : Count} (h : Fresh jobs seen c)
    (done : String) {name : String} (hname : name ∈ jobs.map (·.name)) :
    Fresh jobs seen (c.down jobs done name) := by
  rw [Count.down]
  split
  · have hzero : ∀ p ∈ seen ++ c.queue,
        Function.update c.left name (c.left name - 1) p ≤ 0 := by
      intro p hp
      have hle := h.zero p hp
      by_cases heq : p = name
      · subst heq
        rw [Function.update_self]
        omega
      · rwa [Function.update_of_ne heq]
    by_cases hone : c.left name - 1 = 0
    · -- a count that comes down to zero was positive, so the name is not on the queue yet
      have hnew : name ∉ seen ++ c.queue := fun hmem => by
        have hle := h.zero name hmem
        omega
      have honce : ((seen ++ c.queue) ++ [name]).Nodup :=
        List.nodup_append.2 ⟨h.once, List.nodup_singleton _, fun p hp q hq => by
          rw [List.mem_singleton.1 hq]
          exact fun heq => hnew (heq ▸ hp)⟩
      simp only [hone, if_true]
      refine ⟨by rwa [← List.append_assoc], ?_, ?_⟩
      · intro p hp
        rw [← List.append_assoc] at hp
        rcases List.mem_append.1 hp with hp | hp
        · exact hone ▸ hzero p hp
        · obtain rfl := List.mem_singleton.1 hp
          exact (Function.update_self p (0 : Int) c.left).le
      · intro p hp
        rcases List.mem_append.1 hp with hp | hp
        · exact h.given p hp
        · exact List.mem_singleton.1 hp ▸ hname
    · simp only [hone, if_false]
      exact ⟨h.once, hzero, h.given⟩
  · exact h

theorem Fresh.pass {jobs : List Job} {seen : List String} {c : Count} (h : Fresh jobs seen c)
    (done : String) : Fresh jobs seen (c.pass jobs done) := by
  rw [Count.pass]
  exact List.foldlRecOn _ _ h fun c hc name hname => hc.down done hname

/-- Nothing is taken twice, whatever is given. -/
theorem nodup_counted {jobs : List Job} (left : String → Int) (queue seen : List String)
    (h : Fresh jobs seen ⟨left, queue⟩) : (seen ++ counted jobs left queue).Nodup ∧
      ∀ p ∈ counted jobs left queue, p ∈ jobs.map (·.name) := by
  induction left, queue using counted.induct jobs generalizing seen with
  | case1 left =>
    rw [counted]
    exact ⟨h.once, fun _ hp => absurd hp List.not_mem_nil⟩
  | case2 left name queue c ih =>
    have hperm : (seen ++ name :: queue).Perm (name :: seen ++ queue) := List.perm_middle
    -- from the queue the name moves to what was taken; its count stays at zero or below
    have htaken : Fresh jobs (name :: seen) ⟨left, queue⟩ :=
      ⟨hperm.nodup_iff.1 h.once, fun p hp => h.zero p (hperm.mem_iff.2 hp),
        fun p hp => h.given p (List.mem_cons_of_mem _ hp)⟩
    obtain ⟨honce, hgiven⟩ := ih (name :: seen) (htaken.pass name)
    rw [counted]
    refine ⟨List.perm_middle.nodup_iff.2 honce, fun p hp => ?_⟩
    rcases List.mem_cons.1 hp with rfl | hp
    · exact h.given p List.mem_cons_self
    · exact hgiven p hp

/-! ## The order -/

theorem mem_firsts {names : List String} {p : String} : p ∈ firsts names ↔ p ∈ names := by
  simp [firsts]

theorem nodup_firsts (names : List String) : (firsts names).Nodup :=
  List.nodup_reverse.2 (List.nodup_dedup _)

theorem firsts_of_nodup {names : List String} (h : names.Nodup) : firsts names = names := by
  rw [firsts, (List.nodup_reverse.2 h).dedup, List.reverse_reverse]

/-- Before anything is done, a job requires what it was given. -/
theorem after_nil (j : Job) : after [] j = j := by
  simp [after]

theorem counted_start {jobs : List Job} (hdistinct : (jobs.map (·.name)).Nodup) :
    counted jobs (Count.start jobs).left (Count.start jobs).queue = taken jobs := by
  have hwaiting : waitingAfter jobs [] = jobs.filter (!·.ready) := by
    rw [waitingAfter, List.map_congr_left fun j _ => after_nil j, List.map_id']
  have hqueue : (Count.start jobs).queue = (jobs.filter (·.ready)).map (·.name) := by
    rw [Count.queue_start, firsts_of_nodup hdistinct, List.filter_map]
    refine congrArg _ (List.filter_congr fun j hj => ?_)
    simp only [Function.comp, requirements_of_mem hdistinct hj]
    rw [Bool.eq_iff_iff, Job.ready_iff]
    simp [List.eq_nil_iff_forall_not_mem]
  rw [hqueue, taken, ← hwaiting]
  refine counted_eq_drain hdistinct _ _ [] (fun j hj => ?_) ?_
  · rw [Count.left_start, requirements_of_mem hdistinct hj, List.filter_eq_self.2 (by simp)]
  · rw [List.nil_append, hwaiting]
    exact (perm_of_filter_ready jobs).nodup_iff.2 hdistinct

theorem fresh_start (jobs : List Job) : Fresh jobs [] (Count.start jobs) where
  once := (nodup_firsts _).filter _
  zero _ hp := le_of_eq (of_decide_eq_true (List.mem_filter.1 hp).2)
  given _ hp := mem_firsts.1 (List.mem_filter.1 hp).1

/-- The order by counting is the order. -/
theorem order_eq_countedOrder (jobs : List Job) : order jobs = countedOrder jobs := by
  rw [order_eq, countedOrder]
  by_cases hdistinct : (jobs.map (·.name)).Nodup
  · rw [counted_start hdistinct]
    simp only [hdistinct, true_and]
  · obtain ⟨honce, hgiven⟩ :=
      nodup_counted (Count.start jobs).left (Count.start jobs).queue [] (fresh_start jobs)
    rw [List.nil_append] at honce
    have hless : (counted jobs (Count.start jobs).left (Count.start jobs).queue).length ≠
        jobs.length := by
      intro hlength
      have hperm := (honce.subperm hgiven).perm_of_length_le (by rw [hlength, List.length_map])
      exact hdistinct (hperm.nodup_iff.1 honce)
    simp only [hdistinct, hless, false_and, if_false]

end Schedule

end GraphPattern
