import GraphPattern.Fault

/-!
# GraphPattern — schedules

Jobs that require other jobs are put into an order in which every job comes after all it requires.
Among the jobs that are ready, the one that became ready first comes first; jobs that become ready
together keep the order in which they were given.

* `Schedule.order` — the order, or the fault of jobs that have none: a job is given twice, a
  requirement is not given, or requirements go round in a circle.
* `Schedule.runM` — does the jobs in their order, up to a job after which to stop.
* `Schedule.run` — the same where a job does nothing but hand on what it makes.
-/

namespace GraphPattern

/-- A job and the jobs that have to be done before it. -/
structure Job where
  name : String
  requires : List String
deriving DecidableEq, Repr

namespace Job

/-- Nothing has to be done before the job. -/
def ready (j : Job) : Bool :=
  j.requires.isEmpty

/-- The job once another one is done. -/
def without (j : Job) (done : String) : Job :=
  { j with requires := j.requires.filter (· != done) }

end Job

namespace Schedule

/-- The names of the jobs that become ready once a job is done. -/
def released (waiting : List Job) (done : String) : List String :=
  ((waiting.map (·.without done)).filter (·.ready)).map (·.name)

/-- The jobs that still wait once a job is done. -/
def held (waiting : List Job) (done : String) : List Job :=
  (waiting.map (·.without done)).filter (!·.ready)

theorem length_held_add_length_released (waiting : List Job) (done : String) :
    (held waiting done).length + (released waiting done).length = waiting.length := by
  induction waiting with
  | nil => rfl
  | cons j rest ih =>
    cases h : (j.without done).ready <;> simp_all [held, released] <;> omega

/-- Takes the jobs of a queue in turn, and appends to it the waiting jobs that become ready. -/
def drain (waiting : List Job) (queue : List String) : List String :=
  match queue with
  | [] => []
  | name :: queue => name :: drain (held waiting name) (queue ++ released waiting name)
termination_by waiting.length + queue.length
decreasing_by
  have := length_held_add_length_released waiting name
  simp only [List.length_append, List.length_cons]
  omega

/-- The names of the jobs in an order in which each comes after all it requires. -/
def order (jobs : List Job) : Except Fault (List String) :=
  let names := drain (jobs.filter (!·.ready)) ((jobs.filter (·.ready)).map (·.name))
  if (jobs.map (·.name)).Nodup ∧ names.length = jobs.length then .ok names
  else .error .unorderedStages

/-- The names up to the one after which to stop; all of them if it is not there. -/
def upTo (stop? : Option String) : List String → List String
  | [] => []
  | name :: rest => if stop? = some name then [name] else name :: upTo stop? rest

/-- Does the jobs in their order, each on what the one before it has left. A job may have effects:
it may fail, for one. -/
def runM {m : Type _ → Type _} [Monad m] {α : Type _} (perform : String → α → m α)
    (jobs : List Job) (stop? : Option String) (start : α) : m (Except Fault α) :=
  match order jobs with
  | .ok names => .ok <$> (upTo stop? names).foldlM (fun unit name => perform name unit) start
  | .error x => pure (.error x)

/-- Does the jobs in their order, where they have no effects. -/
def run {α : Type _} (perform : String → α → α) (jobs : List Job) (stop? : Option String)
    (start : α) : Except Fault α :=
  Id.run (runM (fun name unit => pure (perform name unit)) jobs stop? start)

end Schedule

end GraphPattern
