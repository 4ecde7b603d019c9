import GraphPattern.Matches

/-!
# GraphPattern — sessions

A client of a match sequence may start any number of iterations and go on with them in turns, and may
ask for all matches or the first ones in between. Everything that is called meanwhile is noted in one
log. The streams that were given with the arguments are the same for all iterations, and are read by
whoever comes first.

* `Matches.serve` — the reply to a request, and the session after it.
* `Matches.transcript` — the replies to the requests of a client.
* `Matches.driveOn` — the answers of an iteration that is driven alone.
-/

namespace GraphPattern

/-- What can be asked of a match sequence. -/
inductive Request where
  /-- A new iteration. Iterations are numbered in the order in which they are started. -/
  | start
  /-- The next match of the iteration of a number. -/
  | next (k : Nat)
  | all
  | take (n : Nat)
  | first (default : Value)
deriving Repr

inductive Reply where
  | started (k : Nat)
  | answered (a : Answer)
  | harvested (results : List Value) (fault? : Option Fault)
  | valued (r : Except Fault Value)
  /-- There is no iteration of that number yet. -/
  | unknown

/-- The iterations that are under way, and what they share: the calls of all that was asked for, and
what is left of the streams that were given with the arguments. -/
structure Session where
  shared : Journal := {}
  iterators : List Iterator := []
deriving Repr

/-- A request, its reply and the calls that were noted meanwhile. -/
structure Served where
  request : Request
  reply : Reply
  calls : List Call

namespace Served

/-- What the iteration of a number has answered. -/
def ofIteration? (k : Nat) : Served → Option (Answer × List Call)
  | ⟨.next i, .answered a, calls⟩ => if i = k then some (a, calls) else none
  | _ => none

/-- What was answered from an iteration of its own. -/
def ofItself? : Served → Option (Reply × List Call)
  | ⟨.all, reply, calls⟩ | ⟨.take _, reply, calls⟩ | ⟨.first _, reply, calls⟩ => some (reply, calls)
  | ⟨.start, _, _⟩ | ⟨.next _, _, _⟩ => none

end Served

/-- The fault that ends a sweep. -/
def Ending.fault? : Ending → Option Fault
  | .failed f => some f
  | .done | .halted => none

/-- How often an iteration is asked for a match, with some iterations under way at first. -/
def Request.asked (k : Nat) : Nat → List Request → Nat
  | _, [] => 0
  | started, .start :: rest => asked k (started + 1) rest
  | started, .next i :: rest => (if i = k ∧ i < started then 1 else 0) + asked k started rest
  | started, _ :: rest => asked k started rest

namespace Matches

/-- Up to `n` further matches of an iteration, and the fault that ended them. -/
def takeOn (m : Matches) (shared : Journal) (it : Iterator) :
    Nat → (List Value × Option Fault) × Journal
  | 0 => (([], none), shared)
  | n + 1 =>
    match m.nextOn shared it with
    | (.found v, shared, it) =>
      let ((results, fault?), shared) := m.takeOn shared it n
      ((v :: results, fault?), shared)
    | (.stop, shared, _) => (([], none), shared)
    | (.failed f, shared, _) => (([], some f), shared)

/-- The first match, or a default if there is none. -/
def firstOn (m : Matches) (shared : Journal) (default : Value) : Except Fault Value × Journal :=
  match m.nextOn shared m.iterator with
  | (.found v, shared, _) => (.ok v, shared)
  | (.stop, shared, _) => (.ok default, shared)
  | (.failed f, shared, _) => (.error f, shared)

/-- All matches, up to the first fault. -/
def allOn (m : Matches) (shared : Journal) : (List Value × Option Fault) × Journal :=
  let (swept, j) := (m.setting.sweep m.emit m.plan.steps m.arguments).run shared
  ((swept.results, swept.ending.fault?), { j with streams := j.streams.take shared.streams.length })

/-- The reply to a request, and the session after it. -/
def reply (m : Matches) (s : Session) : Request → Reply × Session
  | .start => (.started s.iterators.length, { s with iterators := s.iterators ++ [m.iterator] })
  | .next k =>
    match s.iterators[k]? with
    | none => (.unknown, s)
    | some it =>
      let (answer, shared, it) := m.nextOn s.shared it
      (.answered answer, { shared, iterators := s.iterators.set k it })
  | .all =>
    let ((results, fault?), shared) := m.allOn s.shared
    (.harvested results fault?, { s with shared })
  | .take n =>
    let ((results, fault?), shared) := m.takeOn s.shared m.iterator n
    (.harvested results fault?, { s with shared })
  | .first default =>
    let (r, shared) := m.firstOn s.shared default
    (.valued r, { s with shared })

/-- Serves a request. -/
def serve (m : Matches) (s : Session) (request : Request) : Served × Session :=
  let (reply, s') := m.reply s request
  (⟨request, reply, s'.shared.calls.drop s.shared.calls.length⟩, s')

/-- Serves one request after the other. -/
def transcript (m : Matches) (s : Session) : List Request → List Served
  | [] => []
  | request :: rest =>
    let (served, s') := m.serve s request
    served :: m.transcript s' rest

/-- The answers of an iteration to a number of requests, with the calls that each takes, when nobody
else reads the streams that were given. -/
def driveOn (m : Matches) (given : List Supply) (it : Iterator) : Nat → List (Answer × List Call)
  | 0 => []
  | n + 1 =>
    let (answer, shared, it) := m.nextOn { streams := given } it
    (answer, shared.calls) :: m.driveOn shared.streams it n

end Matches

end GraphPattern
