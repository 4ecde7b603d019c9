import GraphPattern.Proofs.EdgeTallies
import Mathlib.Data.List.Nodup
import Mathlib.Logic.Function.Iterate

/-!
# GraphPattern — the walk turn by turn

The walk through a pattern graph is three loops in one another: the stack is taken down entry by
entry, an entry may start a chain, which goes on from node to node, or a row of constraints, which
is spliced one by one. Here it is a machine that does one turn of one of these loops at a time, and
keeps a record: the nodes that were reached and the edges that were taken up in any of the loops,
and what was emitted for which edge.

On every graph the machine comes to an end, which is what `Plan.explore` gives. Every edge that is
taken up is new, whichever loop comes to it, as all of them look at what was visited before: a chain
and a row of constraints at a copy of it with their own edges in front, which are marked when the
loop ends.

## Results

* `Walker.ends_explore` — the machine ends, with the answer of the walk.
* `Walker.Tidy.turn` — what one turn keeps.
* `Walker.tidy_turns` — what holds after any number of turns.
* `Walker.turns_end` — both for the walk through a graph.
-/

namespace GraphPattern

theorem Chain.fresh_of_pending {g : PatternGraph} {n : NodeId} {visited : List Handle}
    {left : List (Incidence × PatternEdge)} (h : pending g n visited = .ok left)
    {x : Incidence × PatternEdge} (hx : x ∈ left) : .edge x.1.edge ∉ visited := by
  unfold pending at h
  cases hl : g.incidencesOf n with
  | error f =>
    rw [hl] at h
    cases h
  | ok l =>
    rw [hl] at h
    cases h
    obtain ⟨i, -, hi⟩ := List.mem_filterMap.1 hx
    split at hi
    · cases hi
    · rename_i hnew
      obtain ⟨e, he, rfl⟩ := Option.map_eq_some_iff.1 hi
      exact hnew

namespace Plan

/-! ## The machine -/

/-- A chain, as far as it was followed. -/
structure Strand where
  start : Expr
  path : Path
  current : NodeId
  /-- What was visited before, and what the chain has passed. -/
  done : List Handle
  elements : List Handle
  constraints : List Incidence

/-- A strand with what it goes on with. -/
def Strand.append (c : Strand) (rest : Chain) : Chain :=
  { rest with path := c.path ++ rest.path, elements := c.elements ++ rest.elements
              constraints := c.constraints ++ rest.constraints }

/-- A strand that goes on from its current node along an edge. -/
def Strand.onward (c : Strand) (nd : PatternNode) (i : Incidence) (s : Segment)
    (constraints : List Incidence) : Strand :=
  { start := c.start, path := c.path ++ (Chain.restriction nd ++ [s]), current := i.that
    done := .edge i.edge :: .node c.current :: c.done
    elements := c.elements ++ [.node c.current, .edge i.edge]
    constraints := c.constraints ++ constraints }

theorem Strand.append_onward (c : Strand) (nd : PatternNode) (i : Incidence) (s : Segment)
    (constraints : List Incidence) (rest : Chain) :
    (c.onward nd i s constraints).append rest =
      c.append { path := Chain.restriction nd ++ s :: rest.path, terminal := rest.terminal
                 elements := .node c.current :: .edge i.edge :: rest.elements
                 constraints := constraints ++ rest.constraints, openEnd := rest.openEnd } := by
  simp [append, onward]

/-- What the next turn does. -/
inductive Task where
  /-- Takes an entry from the stack. -/
  | next
  /-- Goes on with a chain. -/
  | follow (c : Strand)
  /-- Splices the constraint at a node that an edge leads to. -/
  | splice (k : EdgeId) (n : NodeId) (seen marks : List Handle)
  | ended (result : Except Failure (List Step))

/-- What is emitted for an edge: a part of a path, or a step, which enumerates the edge or comes
from the constraint that the edge leads to. -/
inductive Trace where
  | part (s : Segment)
  | step (s : Step)
deriving DecidableEq, Repr

def Trace.part? : Trace → Option Segment
  | .part s => some s
  | .step _ => none

def Trace.step? : Trace → Option Step
  | .part _ => none
  | .step s => some s

/-- The trace is one that an edge leaves: the part of a path that it becomes, the step that
enumerates it, or the step of the constraint that it leads to. -/
def Trace.Of (cx : Context) (g : PatternGraph) (k : EdgeId) : Trace → Prop
  | .part s => ∃ e d, g.edge? k = some e ∧ cx.edgeSegment e d = .ok s
  | .step s => ∃ e, g.edge? k = some e ∧
    ((∃ name source d, e.name? = some name ∧
        s = .generate name (.adjacent source (.ofName? e.typeName?) d)) ∨
      (e.kind = .precedes ∧ ∃ c, s = constraintStep c))

/-- The expression is the value of a form. -/
def calls : Expr → Bool
  | .call _ => true
  | _ => false

/-- A step enumerates an edge, or is the step of a constraint. -/
def forEdge : Step → Bool
  | .generate _ (.adjacent _ _ _) | .guard (.call _) | .whilst (.call _) => true
  | .assignAll bs => bs.all fun b => calls b.2
  | _ => false

/-- The walk as it stands, with its record. -/
structure Walker where
  visited : List Handle := []
  stack : List Entry
  steps : List Step := []
  task : Task := .next
  /-- The nodes that were reached and the edges that were taken up. -/
  record : List Handle := []
  /-- What was emitted for which edge. -/
  traces : List (EdgeId × Trace) := []

namespace Walker

def fail (w : Walker) (x : Failure) : Walker :=
  { w with task := .ended (.error x) }

/-- Records a node that is reached or an edge that is taken up. -/
def note (w : Walker) (h : Handle) : Walker :=
  { w with record := w.record ++ [h] }

/-- Records what is emitted for an edge. -/
def leave (w : Walker) (k : EdgeId) (t : Trace) : Walker :=
  { w with traces := w.traces ++ [(k, t)] }

/-- Emits a step that is no result of a chain. -/
def emit (w : Walker) (s : Step) : Walker :=
  { w with steps := w.steps ++ [s] }

/-- Takes over what a visit adds to the walk. -/
def take (w : Walker) (e : Emission) : Walker :=
  { w with
    visited := e.marks ++ w.visited, stack := e.entries ++ w.stack, steps := w.steps ++ e.steps
    task := .next }

def settle (w : Walker) : Except Failure Emission → Walker
  | .ok e => w.take e
  | .error x => w.fail x

/-- Goes on to the far end of an edge that has a name. -/
def reach (w : Walker) (cx : Context) (g : PatternGraph) (i : Incidence) (edge : Expr) : Walker :=
  match g.node? i.that with
  | none => w.fail (.fault .positionOutside)
  | some target =>
    if (Handle.node i.that ∈ w.visited ∨ target.kind = .argument) ∨ target.name?.isSome then
      w.settle (bindFarEnd cx g i edge w.visited)
    else
      { w with task := .follow { start := .edgeEnd edge i.direction true, path := []
                                 current := i.that, done := w.visited, elements := []
                                 constraints := [] } }

/-- Takes up an edge from the stack. -/
def enter (w : Walker) (cx : Context) (g : PatternGraph) (i : Incidence) (e : PatternEdge) :
    Walker :=
  let source := Expr.var (varOf g i.this)
  match e.kind, e.name? with
  | .start, _ => w.take { entries := [.node i.that] }
  | .precedes, _ => { w with task := .splice i.edge i.that w.visited [] }
  | .argument, name? =>
    let argument := (name?.map Expr.var).getD .unnamed
    let check := Step.guard (.equal source (.edgeEnd argument i.direction false))
    (w.emit check).reach cx g i argument
  | .pattern, none =>
    match cx.edgeSegment e i.direction with
    | .error x => w.fail x
    | .ok s =>
      { w.leave i.edge (.part s) with
        task := .follow { start := source, path := [s], current := i.that
                          done := .edge i.edge :: w.visited, elements := [.edge i.edge]
                          constraints := [] } }
  | .pattern, some name =>
    if cx.engine.edgesHaveIdentity then
      let enumerate := Step.generate name (.adjacent source (.ofName? e.typeName?) i.direction)
      ((w.emit enumerate).leave i.edge (.step enumerate)).reach cx g i (.var name)
    else w.fail (.fault .edgesNotEnumerable)

/-- One turn of the main loop. -/
def pop (w : Walker) (cx : Context) (g : PatternGraph) : Walker :=
  match w.stack with
  | [] => { w with task := .ended (.ok w.steps) }
  | .node n :: rest =>
    if Handle.node n ∈ w.visited then { w with stack := rest }
    else
      match g.node? n with
      | none => w.fail (.fault .positionOutside)
      | some nd =>
        { w.note (.node n) with visited := .node n :: w.visited, stack := rest }.settle
          (visitNode g n nd (.node n :: w.visited))
  | .along i :: rest =>
    if Handle.edge i.edge ∈ w.visited then { w with stack := rest }
    else
      match g.edge? i.edge with
      | none => w.fail (.fault .positionOutside)
      | some e =>
        { w.note (.edge i.edge) with visited := .edge i.edge :: w.visited, stack := rest }.enter
          cx g i e

/-- Ends a chain at its current node. -/
def stop (w : Walker) (g : PatternGraph) (c : Strand) (nd : PatternNode)
    (constraints : List Incidence) (openEnd : Bool) : Walker :=
  w.settle (emitChain g c.start
    { path := c.path ++ Chain.restriction nd, terminal := c.current
      elements := c.elements ++ [.node c.current], constraints := c.constraints ++ constraints
      openEnd } w.visited)

/-- One turn of the loop of a chain. -/
def follow (w : Walker) (cx : Context) (g : PatternGraph) (c : Strand) : Walker :=
  match g.node? c.current with
  | none => w.fail (.fault .positionOutside)
  | some nd =>
    if nd.anonymous = false ∨ Handle.node c.current ∈ c.done then w.stop g c nd [] false
    else
      match Failure.ofFault (Chain.pending g c.current (.node c.current :: c.done)) with
      | .error x => w.fail x
      | .ok left =>
        let constraints := (left.filter (·.2.kind = .precedes)).map (·.1)
        match left.filter (·.2.kind.structural) with
        | [] => w.stop g c nd constraints false
        | [(i, e)] =>
          if e.anonymous then
            match cx.edgeSegment e i.direction with
            | .error x => w.fail x
            | .ok s =>
              { (w.note (.edge i.edge)).leave i.edge (.part s) with
                task := .follow (c.onward nd i s constraints) }
          else w.stop g c nd constraints true
        | branches => w.fail (cx.refuse (.forkedChain branches.length) nd.tokenIndex?)

/-- One turn of the loop over a row of constraints. -/
def splice (w : Walker) (g : PatternGraph) (k : EdgeId) (n : NodeId) (seen marks : List Handle) :
    Walker :=
  match g.node? n with
  | none => w.fail (.fault .positionOutside)
  | some nd =>
    match nd.constraint? with
    | none => w.fail (.fault .formlessConstraint)
    | some c =>
      let w := w.leave k (.step (constraintStep c))
      match nextConstraint? g n seen with
      | none => w.take { steps := [constraintStep c], marks := marks ++ [.node n] }
      | some i =>
        { (w.emit (constraintStep c)).note (.edge i.edge) with
          task := .splice i.edge i.that (.edge i.edge :: .node n :: seen)
            (marks ++ [.node n, .edge i.edge]) }

/-- One turn of the loop that the walk is in. -/
def turn (cx : Context) (g : PatternGraph) (w : Walker) : Walker :=
  match w.task with
  | .next => w.pop cx g
  | .follow c => w.follow cx g c
  | .splice k n seen marks => w.splice g k n seen marks
  | .ended _ => w

/-- The walk before its first turn. -/
def start (g : PatternGraph) : Walker :=
  { stack := [.node g.anchor] }

/-- The walk after some turns. -/
def after (cx : Context) (g : PatternGraph) (n : Nat) : Walker :=
  (turn cx g)^[n] (start g)

/-! ## Where the machine comes -/

variable {cx : Context} {g : PatternGraph} {w w' : Walker}

/-- After some turns, the machine is over. -/
def Ends (cx : Context) (g : PatternGraph) (w : Walker) (r : Except Failure (List Step)) : Prop :=
  ∃ n, ((turn cx g)^[n] w).task = .ended r

/-- After some turns, the machine is in a certain state, whatever it has recorded. -/
def Comes (cx : Context) (g : PatternGraph) (w w' : Walker) : Prop :=
  ∃ n record traces, (turn cx g)^[n] w = { w' with record, traces }

/-- The machine does what a visit from a state adds, or ends if the visit fails. -/
structure Does (cx : Context) (g : PatternGraph) (w base : Walker) (r : Except Failure Emission) :
    Prop where
  ok : ∀ e, r = .ok e → Comes cx g w (base.take e)
  error : ∀ x, r = .error x → Ends cx g w (.error x)

theorem Ends.turn {r : Except Failure (List Step)} (h : Ends cx g (turn cx g w) r) :
    Ends cx g w r := by
  obtain ⟨n, hn⟩ := h
  exact ⟨n + 1, hn⟩

theorem Comes.turn (h : Comes cx g (turn cx g w) w') : Comes cx g w w' := by
  obtain ⟨n, record, traces, hn⟩ := h
  exact ⟨n + 1, record, traces, hn⟩

theorem Comes.ends {r : Except Failure (List Step)} (h : Comes cx g w w')
    (h' : ∀ record traces, Ends cx g { w' with record, traces } r) : Ends cx g w r := by
  obtain ⟨n, record, traces, hn⟩ := h
  obtain ⟨m, hm⟩ := h' record traces
  refine ⟨m + n, ?_⟩
  rw [Function.iterate_add_apply, hn, hm]

theorem Does.turn {base : Walker} {r : Except Failure Emission}
    (h : Does cx g (turn cx g w) base r) : Does cx g w base r where
  ok e he := (h.ok e he).turn
  error x hx := (h.error x hx).turn

/-- What is settled at once. -/
theorem Does.settle (base : Walker) {task : Task} {record : List Handle}
    {traces : List (EdgeId × Trace)} (r : Except Failure Emission) :
    Does cx g ({ base with task, record, traces }.settle r) base r where
  ok := by
    rintro e rfl
    exact ⟨0, record, traces, rfl⟩
  error := by
    rintro x rfl
    exact ⟨0, rfl⟩

theorem Does.fail {base w : Walker} (x : Failure) : Does cx g (w.fail x) base (.error x) where
  ok e he := by cases he
  error := by
    rintro y ⟨⟩
    exact ⟨0, rfl⟩

theorem take_emit (w : Walker) (s : Step) (e : Emission) :
    (w.emit s).take e = w.take { e with steps := s :: e.steps } := by
  simp [Walker.take, Walker.emit]

/-- A step that is emitted first is the first of the visit. -/
theorem Does.emit {base : Walker} {s : Step} {r : Except Failure Emission}
    (h : Does cx g w (base.emit s) r) :
    Does cx g w base (do
      let rest ← r
      return { rest with steps := s :: rest.steps }) := by
  cases r with
  | error x =>
    refine ⟨fun _ he => ?_, h.error⟩
    cases he
  | ok rest =>
    refine ⟨?_, fun _ hy => ?_⟩
    swap
    · cases hy
    rintro _ ⟨⟩
    obtain ⟨n, record, traces, hn⟩ := h.ok rest rfl
    refine ⟨n, record, traces, ?_⟩
    rw [hn, take_emit]

/-- A visit and what comes after it. -/
theorem Does.ends {base : Walker} {r : Except Failure Emission}
    {next : Emission → Except Failure (List Step)} (h : Does cx g w base r)
    (hnext : ∀ e record traces, Ends cx g { base.take e with record, traces }
      ((next e).map ((base.steps ++ e.steps) ++ ·))) :
    Ends cx g w ((do
      let e ← r
      let steps ← next e
      return e.steps ++ steps).map (base.steps ++ ·)) := by
  cases r with
  | error x => exact h.error x rfl
  | ok e =>
    have hrest := (h.ok e rfl).ends (hnext e)
    show Ends cx g w ((next e >>= _).map _)
    cases hsteps : next e with
    | error x =>
      rw [hsteps] at hrest
      exact hrest
    | ok steps =>
      rw [hsteps, Except.map, List.append_assoc] at hrest
      exact hrest

/-- The loop of a chain comes to the end of the chain, and emits it. -/
theorem does_follow (base : Walker) (c : Strand) (record : List Handle)
    (traces : List (EdgeId × Trace)) :
    Does cx g { base with task := .follow c, record, traces } base
      (Chain.walk cx g c.current c.done >>= fun rest =>
        emitChain g c.start (c.append rest) base.visited) := by
  -- by what the chain has not passed yet, which lessens with every node
  induction hm : unseen g.handles c.done using Nat.strongRecOn generalizing c record traces with
  | ind m ih =>
    refine Does.turn ?_
    show Does cx g ({ base with task := .follow c, record, traces }.follow cx g c) base _
    unfold Walker.follow
    cases hnode : g.node? c.current with
    | none =>
      rw [Chain.walk_missing hnode]
      exact .fail _
    | some nd =>
      by_cases hknown : nd.anonymous = false ∨ .node c.current ∈ c.done
      · rw [(Chain.Walks.stop hnode hknown).walk_eq]
        simp only [hknown, if_true]
        exact .settle base _
      · rw [Chain.walk_fresh hnode hknown]
        simp only [hknown, if_false]
        cases hleft : Failure.ofFault (Chain.pending g c.current (.node c.current :: c.done)) with
        | error x => exact .fail x
        | ok left =>
          show Does cx g _ base (Chain.onward cx g c.current nd c.done left >>= _)
          dsimp only
          unfold Chain.onward
          generalize left.filter (·.2.kind.structural) = structural
          rcases structural with _ | ⟨⟨i, e⟩, _ | ⟨y, rest⟩⟩
          · exact .settle base _
          · cases hanon : e.anonymous with
            | false =>
              simp only [hanon, Bool.false_eq_true, if_false]
              exact .settle base _
            | true =>
              simp only [hanon, if_true]
              cases cx.edgeSegment e i.direction with
              | error x => exact .fail x
              | ok s =>
                have hless : unseen g.handles (.edge i.edge :: .node c.current :: c.done) < m := by
                  rw [← hm]
                  exact unseen_lt (PatternGraph.mem_handles_of_node? hnode)
                    (fun hmem => hknown (.inr hmem)) (by simp) (fun y hy => by simp [hy])
                have hrest := ih _ hless
                  (c.onward nd i s ((left.filter (·.2.kind = .precedes)).map (·.1)))
                  (record ++ [.edge i.edge]) (traces ++ [(i.edge, .part s)]) rfl
                simp only [Strand.append_onward] at hrest
                show Does cx g _ base ((Chain.walk cx g i.that _ >>= _) >>= _)
                rw [bind_assoc]
                exact hrest
          · exact .fail _

/-- What comes to the far end of an edge binds it, or follows the chain behind it. -/
theorem does_reach (base : Walker) (i : Incidence) (edge : Expr) (task : Task)
    (record : List Handle) (traces : List (EdgeId × Trace)) :
    Does cx g ({ base with task, record, traces }.reach cx g i edge) base
      (bindFarEnd cx g i edge base.visited) := by
  unfold Walker.reach
  cases hnode : g.node? i.that with
  | none =>
    unfold bindFarEnd
    simp only [hnode]
    exact .fail _
  | some target =>
    by_cases hbound : (.node i.that ∈ base.visited ∨ target.kind = .argument) ∨
        target.name?.isSome
    · simp only [if_pos hbound]
      exact .settle base _
    · simp only [if_neg hbound]
      obtain ⟨hnew, hname⟩ := not_or.1 hbound
      rw [Option.not_isSome_iff_eq_none] at hname
      unfold bindFarEnd
      simp only [hnode, if_neg hnew, hname]
      exact does_follow base _ record traces

/-- The loop over a row of constraints comes to the end of the row, and has spliced them. -/
theorem does_splice (base : Walker) (k : EdgeId) (n : NodeId) (seen marks record : List Handle)
    (traces : List (EdgeId × Trace)) :
    Does cx g { base with task := .splice k n seen marks, record, traces } base
      ((spliceConstraints g n seen).map fun r => { steps := r.1, marks := marks ++ r.2 }) := by
  -- by what is not marked yet, which lessens with every constraint
  induction hm : unseen g.handles seen using Nat.strongRecOn
    generalizing base k n seen marks record traces with
  | ind m ih =>
    refine Does.turn ?_
    show Does cx g ({ base with task := .splice k n seen marks, record, traces }.splice g k n seen
      marks) base _
    unfold Walker.splice
    cases hnode : g.node? n with
    | none =>
      rw [spliceConstraints_missing seen hnode]
      exact .fail _
    | some nd =>
      cases hform : nd.constraint? with
      | none =>
        rw [spliceConstraints_formless seen hnode hform]
        simp only [hform]
        exact .fail _
      | some c =>
        rw [spliceConstraints_of_form seen hnode hform]
        simp only [hform]
        cases hnext : nextConstraint? g n seen with
        | none =>
          exact .settle base (.ok _)
        | some i =>
          obtain ⟨-, ⟨e, he, -⟩, hnew⟩ := nextConstraint?_some hnext
          have hless : unseen g.handles (.edge i.edge :: .node n :: seen) < m := by
            rw [← hm]
            exact unseen_lt (PatternGraph.mem_handles_of_edge? he) hnew (by simp)
              (fun y hy => by simp [hy])
          have hrest := (ih _ hless (base.emit (constraintStep c)) i.edge i.that _
            (marks ++ [.node n, .edge i.edge]) (record ++ [.edge i.edge])
            (traces ++ [(k, .step (constraintStep c))]) rfl).emit
          dsimp only
          cases hrow : spliceConstraints g i.that (.edge i.edge :: .node n :: seen) with
          | error x =>
            rw [hrow] at hrest
            exact hrest
          | ok r =>
            simp only [hrow, Except.map, List.append_assoc, List.cons_append, List.nil_append]
              at hrest
            exact hrest

/-- What takes up an edge does what its visit adds. -/
theorem does_enter (base : Walker) {i : Incidence} {e : PatternEdge}
    (edge : g.edge? i.edge = some e) (task : Task) (record : List Handle)
    (traces : List (EdgeId × Trace)) :
    Does cx g ({ base with task, record, traces }.enter cx g i e) base
      (visitIncidence cx g i e base.visited) := by
  unfold Walker.enter visitIncidence
  cases hkind : e.kind with
  | start => exact .settle base (.ok _)
  | precedes =>
    -- the walker splices by turns what the walk splices at once
    have hrow : Does cx g _ base _ := does_splice base i.edge i.that base.visited [] record traces
    cases hsteps : spliceConstraints g i.that base.visited with
    | error x =>
      rw [hsteps] at hrow
      exact hrow
    | ok r =>
      rw [hsteps] at hrow
      exact hrow
  | argument => exact (does_reach (base.emit _) i _ task record traces).emit
  | pattern =>
    cases hname : e.name? with
    | none =>
      dsimp only
      unfold Chain.fromEdge
      simp only [edge]
      cases cx.edgeSegment e i.direction with
      | error x => exact .fail x
      | ok s =>
        -- the walker starts on the chain where the walk goes through with it
        show Does cx g _ base ((Chain.walk cx g i.that _ >>= _) >>= _)
        rw [bind_assoc]
        exact does_follow base _ record _
    | some name =>
      dsimp only
      cases cx.engine.edgesHaveIdentity with
      | false => exact .fail _
      | true => exact (does_reach (base.emit _) i _ task record _).emit

/-- The machine ends, with the answer of the walk. -/
theorem ends_explore (cx : Context) (g : PatternGraph) (visited : List Handle)
    (stack : List Entry) (steps : List Step) (record : List Handle)
    (traces : List (EdgeId × Trace)) :
    Ends cx g { visited, stack, steps, record, traces }
      ((explore cx g visited stack).map (steps ++ ·)) := by
  -- along the walk; every entry it takes off the stack is one turn, or one and what it sets off
  fun_induction explore cx g visited stack generalizing steps record traces with
  | case1 visited =>
    refine ⟨1, ?_⟩
    simp [Walker.turn, Walker.pop, Except.map]
  | case2 visited n rest hv ih =>
    refine Ends.turn ?_
    simp only [Walker.turn, Walker.pop, if_pos hv]
    exact ih steps record traces
  | case3 visited n rest hv hnode =>
    refine ⟨1, ?_⟩
    simp [Walker.turn, Walker.pop, hv, hnode, Except.map, Walker.fail]
  | case4 visited n rest hv nd hnode ih =>
    refine Ends.turn ?_
    simp only [Walker.turn, Walker.pop, if_neg hv, hnode]
    exact (Does.settle { visited := .node n :: visited, stack := rest, steps } _).ends
      fun e => ih e (steps ++ e.steps)
  | case5 visited i rest hv ih =>
    refine Ends.turn ?_
    simp only [Walker.turn, Walker.pop, if_pos hv]
    exact ih steps record traces
  | case6 visited i rest hv hedge =>
    refine ⟨1, ?_⟩
    simp [Walker.turn, Walker.pop, hv, hedge, Except.map, Walker.fail]
  | case7 visited i rest hv edge hedge ih =>
    refine Ends.turn ?_
    simp only [Walker.turn, Walker.pop, if_neg hv, hedge]
    exact (does_enter { visited := .edge i.edge :: visited, stack := rest, steps } hedge .next _
      _).ends fun e => ih e (steps ++ e.steps)

/-! ## What every turn keeps -/

/-- The edges that something was emitted for. -/
def traced (w : Walker) : List Handle :=
  (w.traces.map (·.1)).map .edge

/-- The record of a walk: what is reached or taken up is new, and what was emitted for the edges is
in the order in which they were taken up. -/
structure Recorded (cx : Context) (g : PatternGraph) (w : Walker) : Prop where
  nodup : w.record.Nodup
  handles : ∀ h ∈ w.record, h ∈ g.handles
  sublist : w.traced.Sublist w.record
  own : ∀ t ∈ w.traces, t.2.Of cx g t.1
  passed : ∀ k, .edge k ∈ w.visited → .edge k ∈ w.record

/-- The record agrees with what a loop knows to be visited, and the steps with the traces. A path
that is not emitted yet counts as well. -/
structure Books (cx : Context) (g : PatternGraph) (w : Walker) (known : List Handle)
    (path : Path) : Prop extends Recorded cx g w where
  visited : ∀ h ∈ w.visited, h ∈ known
  complete : ∀ h ∈ w.record, h ∈ known
  edges : ∀ k, .edge k ∈ known → .edge k ∈ w.record
  parts : (pathsOf w.steps ++ path).filter Segment.follows = w.traces.filterMap (·.2.part?)
  steps : w.steps.filter forEdge = w.traces.filterMap (·.2.step?)

/-- The edge was taken up after those that something was emitted for. -/
def Owes (w : Walker) (k : EdgeId) : Prop :=
  (w.traced ++ [Handle.edge k]).Sublist w.record

/-- The invariant of the machine. The copy that a chain or a row of constraints looks at has what
was visited and what the chain or the row will mark. -/
def Tidy (cx : Context) (g : PatternGraph) (w : Walker) : Prop :=
  match w.task with
  | .next => Books cx g w w.visited []
  | .follow c =>
    Books cx g w c.done c.path ∧ c.start.segments = [] ∧
      ∀ h, h ∈ c.done ↔ h ∈ c.elements ++ w.visited
  | .splice k _ seen marks =>
    Books cx g w seen [] ∧ w.Owes k ∧ (∃ e, g.edge? k = some e ∧ e.kind = .precedes) ∧
      ∀ h, h ∈ seen ↔ h ∈ marks ++ w.visited
  | .ended (.ok steps) => Books cx g w w.visited [] ∧ steps = w.steps
  | .ended (.error _) => Recorded cx g w

section Bookkeeping

variable {known : List Handle} {path : Path} {k : EdgeId} {n : NodeId} {s : Step}

/-- What comes next is not in the books. -/
theorem Books.onto (h : Books cx g w known path) (stack : List Entry) (task : Task) :
    Books cx g { w with stack, task } known path :=
  ⟨⟨h.nodup, h.handles, h.sublist, h.own, h.passed⟩, h.visited, h.complete, h.edges, h.parts,
    h.steps⟩

theorem Books.congr {known' : List Handle} (h : Books cx g w known path)
    (hsame : ∀ x, x ∈ known' ↔ x ∈ known) : Books cx g w known' path :=
  { h with
    visited := fun x hx => (hsame x).2 (h.visited x hx)
    complete := fun x hx => (hsame x).2 (h.complete x hx)
    edges := fun k hk => h.edges k ((hsame _).1 hk) }

theorem Recorded.tidy_fail (h : Recorded cx g w) (x : Failure) : Tidy cx g (w.fail x) :=
  show Recorded cx g (w.fail x) from ⟨h.nodup, h.handles, h.sublist, h.own, h.passed⟩

/-- An edge that is taken up next is owed its trace. -/
theorem Recorded.owes_note (h : Recorded cx g w) (k : EdgeId) : (w.note (.edge k)).Owes k :=
  h.sublist.append (.refl _)

theorem Recorded.note {x : Handle} (h : Recorded cx g w) (fresh : x ∉ w.record)
    (mem : x ∈ g.handles) : Recorded cx g (w.note x) where
  nodup := by
    rw [Walker.note, List.nodup_append]
    refine ⟨h.nodup, by simp, ?_⟩
    rintro y hy z hz rfl
    exact fresh (List.mem_singleton.1 hz ▸ hy)
  handles y hy := (List.mem_append.1 hy).elim (h.handles y) fun hx => List.mem_singleton.1 hx ▸ mem
  sublist := h.sublist.trans (List.sublist_append_left _ _)
  own := h.own
  passed k hk := List.mem_append_left _ (h.passed k hk)

/-- What the main loop reaches or takes up. -/
theorem Books.see {x : Handle} (h : Books cx g w w.visited []) (fresh : x ∉ w.visited)
    (mem : x ∈ g.handles) (stack : List Entry) :
    Books cx g { w.note x with visited := x :: w.visited, stack } (x :: w.visited) [] :=
  have hr := h.toRecorded.note (fun hx => fresh (h.complete x hx)) mem
  have hedges : ∀ k, .edge k ∈ x :: w.visited → .edge k ∈ (w.note x).record := fun k hk =>
    (List.mem_cons.1 hk).elim (fun hk => List.mem_append_right _ (List.mem_singleton.2 hk))
      (hr.passed k)
  { nodup := hr.nodup
    handles := hr.handles
    sublist := hr.sublist
    own := hr.own
    passed := hedges
    visited := fun _ hy => hy
    complete := fun y hy => (List.mem_append.1 hy).elim
      (fun hy => List.mem_cons_of_mem _ (h.complete y hy))
      (fun hy => List.mem_singleton.1 hy ▸ List.mem_cons_self)
    edges := hedges
    parts := h.parts
    steps := h.steps }

/-- What a chain or a row takes up: an edge that it leaves a node along. -/
theorem Books.leaveAlong (h : Books cx g w known path) (fresh : .edge k ∉ known)
    (mem : .edge k ∈ g.handles) (n : NodeId) :
    Books cx g (w.note (.edge k)) (.edge k :: .node n :: known) path where
  toRecorded := h.toRecorded.note (fun hk => fresh (h.complete _ hk)) mem
  visited y hy := List.mem_cons_of_mem _ (List.mem_cons_of_mem _ (h.visited y hy))
  complete y hy := (List.mem_append.1 hy).elim
    (fun hy => List.mem_cons_of_mem _ (List.mem_cons_of_mem _ (h.complete y hy)))
    (fun hy => List.mem_singleton.1 hy ▸ List.mem_cons_self)
  edges j hj := by
    rcases List.mem_cons.1 hj with hj | hj
    · exact List.mem_append_right _ (List.mem_singleton.2 hj)
    · exact List.mem_append_left _ (h.edges j (by simpa using hj))
  parts := h.parts
  steps := h.steps

theorem Recorded.leave {t : Trace} (h : Recorded cx g w) (owes : w.Owes k) (own : t.Of cx g k) :
    Recorded cx g (w.leave k t) where
  nodup := h.nodup
  handles := h.handles
  sublist := by
    rw [traced, Walker.leave, List.map_append, List.map_append]
    exact owes
  own u hu := by
    rcases List.mem_append.1 hu with hu | hu
    · exact h.own u hu
    · exact List.mem_singleton.1 hu ▸ own
  passed := h.passed

/-- A part of a path is noted for an edge. -/
theorem Books.leavePart {s : Segment} {p : Path} (h : Books cx g w known path) (owes : w.Owes k)
    (own : (Trace.part s).Of cx g k) (hp : p.filter Segment.follows = [s]) :
    Books cx g (w.leave k (.part s)) known (path ++ p) where
  toRecorded := h.toRecorded.leave owes own
  visited := h.visited
  complete := h.complete
  edges := h.edges
  parts := by
    rw [← List.append_assoc, List.filter_append, hp, Walker.leave, List.filterMap_append, ← h.parts]
    rfl
  steps := by
    rw [Walker.leave, List.filterMap_append, ← h.steps]
    exact (List.append_nil _).symm

/-- A step is emitted for an edge. -/
theorem Books.leaveStep (h : Books cx g w known []) (owes : w.Owes k)
    (own : (Trace.step s).Of cx g k) (hseg : s.segments = []) (hfor : forEdge s = true) :
    Books cx g ((w.leave k (.step s)).emit s) known [] where
  toRecorded := 
    have hr := h.toRecorded.leave owes own
    ⟨hr.nodup, hr.handles, hr.sublist, hr.own, hr.passed⟩
  visited := h.visited
  complete := h.complete
  edges := h.edges
  parts := by
    have hparts := h.parts
    simp only [Walker.leave, Walker.emit, pathsOf_append, List.filterMap_append] at hparts ⊢
    rw [← hparts]
    simp [pathsOf, hseg, Trace.part?]
  steps := by
    simp only [Walker.leave, Walker.emit, List.filter_append, List.filterMap_append, h.steps]
    simp [hfor, Trace.step?]

/-- A step is emitted that no edge is owed. -/
theorem Books.emit (h : Books cx g w known []) (hseg : s.segments = []) (hfor : forEdge s = false) :
    Books cx g (w.emit s) known [] where
  toRecorded := ⟨h.nodup, h.handles, h.sublist, h.own, h.passed⟩
  visited := h.visited
  complete := h.complete
  edges := h.edges
  parts := by
    have hparts := h.parts
    simp only [Walker.emit, pathsOf_append] at hparts ⊢
    rw [← hparts]
    simp [pathsOf, hseg]
  steps := by
    simp [Walker.emit, List.filter_append, h.steps, hfor]

/-- A visit takes the books back to the main loop, if it marks what its loop knows and emits the
path. -/
theorem Books.take {e : Emission} (h : Books cx g w known path)
    (hknown : ∀ x ∈ known, x ∈ e.marks ++ w.visited)
    (hmarks : ∀ k, .edge k ∈ e.marks → .edge k ∈ known)
    (hpath : (pathsOf e.steps).filter Segment.follows = path.filter Segment.follows)
    (hsteps : e.steps.filter forEdge = []) : Tidy cx g (w.take e) :=
  have hedges : ∀ k, .edge k ∈ e.marks ++ w.visited → .edge k ∈ w.record := fun k hk =>
    (List.mem_append.1 hk).elim (fun hk => h.edges k (hmarks k hk)) (h.passed k)
  show Books cx g (w.take e) (e.marks ++ w.visited) [] from
  { nodup := h.nodup
    handles := h.handles
    sublist := h.sublist
    own := h.own
    passed := hedges
    visited := fun _ hy => hy
    complete := fun y hy => hknown y (h.complete y hy)
    edges := hedges
    parts := by
      have hparts := h.parts
      rw [List.filter_append] at hparts
      rw [List.append_nil, Walker.take, pathsOf_append, List.filter_append, hpath, hparts]
    steps := by
      rw [Walker.take, List.filter_append, hsteps, List.append_nil, h.steps] }

theorem Books.settle {r : Except Failure Emission} (h : Books cx g w known path)
    (hok : ∀ e, r = .ok e → (∀ x ∈ known, x ∈ e.marks ++ w.visited) ∧
      (∀ k, .edge k ∈ e.marks → .edge k ∈ known) ∧
      (pathsOf e.steps).filter Segment.follows = path.filter Segment.follows ∧
      e.steps.filter forEdge = []) : Tidy cx g (w.settle r) := by
  cases r with
  | error x => exact h.tidy_fail x
  | ok e =>
    obtain ⟨hknown, hmarks, hpath, hsteps⟩ := hok e rfl
    exact h.take hknown hmarks hpath hsteps

end Bookkeeping

/-! ## What one turn does to the books -/

theorem forEdge_constraintStep (c : Constraint) : forEdge (constraintStep c) = true := by
  cases c with
  | bind bs => simp [constraintStep, forEdge, calls]
  | _ => rfl

theorem chainEmits_steps {start : Expr} {c : Chain} {visited more : List Handle} {em : Emission}
    (h : ChainEmits g start c visited em more) :
    pathsOf em.steps = start.segments ++ c.path ∧ em.steps.filter forEdge = [] := by
  cases h <;> exact ⟨by simp [pathsOf, Step.segments, Expr.segments], rfl⟩

theorem typeTest_steps (name : String) (type? : Option String) :
    pathsOf (typeTest name type?) = [] ∧ (typeTest name type?).filter forEdge = [] := by
  unfold typeTest
  split
  · split <;> exact ⟨rfl, rfl⟩
  · exact ⟨rfl, rfl⟩

theorem nodeSteps_steps (g : PatternGraph) (n : NodeId) (nd : PatternNode) :
    pathsOf (nodeSteps g n nd) = [] ∧ (nodeSteps g n nd).filter forEdge = [] := by
  unfold nodeSteps
  split <;> exact ⟨rfl, rfl⟩

/-- The end of a chain. -/
theorem Books.stop {c : Strand} (h : Books cx g w c.done c.path) (hstart : c.start.segments = [])
    (hdone : ∀ x, x ∈ c.done ↔ x ∈ c.elements ++ w.visited) (nd : PatternNode)
    (constraints : List Incidence) (openEnd : Bool) :
    Tidy cx g (w.stop g c nd constraints openEnd) := by
  refine h.settle fun e he => ?_
  obtain ⟨more, hemits⟩ := emitChain_emits he
  obtain ⟨hmarks, -⟩ := Frontier.ChainEmits.parts hemits
  obtain ⟨hpaths, hsteps⟩ := chainEmits_steps hemits
  refine ⟨fun x hx => ?_, fun k hk => ?_, ?_, hsteps⟩
  · rw [hmarks]
    have := (hdone x).1 hx
    simp only [List.mem_append] at this ⊢
    tauto
  · rw [hmarks] at hk
    exact (hdone _).2 (List.mem_append_left _ (by simpa using hk))
  · rw [hpaths, hstart, List.nil_append, List.filter_append, follows_restriction, List.append_nil]

/-- What comes to the far end of an edge. -/
theorem Books.reach (h : Books cx g w w.visited []) {edge : Expr} (hedge : edge.segments = [])
    (i : Incidence) : Tidy cx g (w.reach cx g i edge) := by
  unfold Walker.reach
  cases hnode : g.node? i.that with
  | none => exact h.tidy_fail _
  | some target =>
    by_cases hbound : (.node i.that ∈ w.visited ∨ target.kind = .argument) ∨ target.name?.isSome
    · simp only [if_pos hbound]
      refine h.settle fun e he => ?_
      obtain ⟨more, hemits⟩ := bindFarEnd_emits he
      cases hemits with
      | known =>
        refine ⟨fun x hx => List.mem_cons_of_mem _ hx, by simp, ?_, rfl⟩
        simp [pathsOf, Step.segments, Expr.segments, hedge]
      | @named nd es own node pending fresh named =>
        obtain ⟨hpaths, hsteps⟩ := typeTest_steps own nd.typeName?
        refine ⟨fun x hx => List.mem_cons_of_mem _ hx, by simp, ?_, ?_⟩
        · rw [← List.singleton_append, pathsOf_append, hpaths]
          simp [pathsOf, Step.segments, Expr.segments, hedge]
        · rw [List.filter_cons_of_neg (by simp [forEdge, calls]), hsteps]
      | chain node fresh anonymous =>
        rw [hnode] at node
        cases node
        simp [fresh, anonymous] at hbound
    · simp only [if_neg hbound]
      exact ⟨h.onto _ _, hedge, fun x => by simp⟩

/-- An edge that is taken up from the stack. -/
theorem Books.enter (h : Books cx g w w.visited []) {i : Incidence} {e : PatternEdge}
    (owes : w.Owes i.edge) (edge : g.edge? i.edge = some e) (mem : .edge i.edge ∈ w.visited) :
    Tidy cx g (w.enter cx g i e) := by
  unfold Walker.enter
  cases hkind : e.kind with
  | start => exact h.take (by simp) (by simp) rfl rfl
  | precedes => exact ⟨h.onto _ _, owes, ⟨e, edge, hkind⟩, fun x => by simp⟩
  | argument =>
    refine Books.reach (h.emit ?_ rfl) ?_ i
    · cases e.name? <;> rfl
    · cases e.name? <;> rfl
  | pattern =>
    cases hname : e.name? with
    | none =>
      cases hsegment : cx.edgeSegment e i.direction with
      | error x => exact h.tidy_fail x
      | ok s =>
        obtain ⟨rfl, -⟩ := edgeSegment_ok hsegment
        have hpart := h.leavePart (p := [.step i.direction (.ofName? e.typeName?)]) owes
          ⟨e, i.direction, edge, hsegment⟩ rfl
        have hsame : ∀ x, x ∈ .edge i.edge :: w.visited ↔ x ∈ w.visited := fun x => by
          simp only [List.mem_cons, or_iff_right_iff_imp]
          rintro rfl
          exact mem
        exact ⟨(hpart.congr hsame).onto _ _, rfl, fun x => Iff.rfl⟩
    | some name =>
      dsimp only
      split
      · exact (h.leaveStep owes ⟨e, edge, .inl ⟨name, _, _, hname, rfl⟩⟩ rfl rfl).reach rfl i
      · exact h.tidy_fail _

/-- A turn of the main loop. -/
theorem Books.pop (h : Books cx g w w.visited []) (hw : w.task = .next) :
    Tidy cx g (w.pop cx g) := by
  unfold Walker.pop
  split
  · -- nothing is left
    exact ⟨h.onto _ _, rfl⟩
  · -- a node
    rename_i n rest hstack
    split
    · simp only [Tidy, hw]
      exact h.onto rest .next
    · rename_i hfresh
      cases hnode : g.node? n with
      | none => exact h.tidy_fail _
      | some nd =>
        -- a node leaves no trace, for its steps follow no edge
        refine (h.see hfresh (PatternGraph.mem_handles_of_node? hnode) rest).settle fun e he => ?_
        obtain ⟨hpaths, hsteps⟩ := nodeSteps_steps g n nd
        unfold visitNode at he
        cases hes : pendingEntries g n (.node n :: w.visited) with
        | error x =>
          rw [hes] at he
          cases he
        | ok es =>
          rw [hes] at he
          cases he
          exact ⟨fun x hx => hx, by simp, by rw [hpaths], hsteps⟩
  · -- an edge
    rename_i i rest hstack
    split
    · simp only [Tidy, hw]
      exact h.onto rest .next
    · rename_i hfresh
      cases hedge : g.edge? i.edge with
      | none => exact h.tidy_fail _
      | some e =>
        exact (h.see hfresh (PatternGraph.mem_handles_of_edge? hedge) rest).enter
          (h.toRecorded.owes_note _) hedge List.mem_cons_self

/-- A turn of the loop of a chain. -/
theorem Books.follow {c : Strand} (h : Books cx g w c.done c.path) (hstart : c.start.segments = [])
    (hdone : ∀ x, x ∈ c.done ↔ x ∈ c.elements ++ w.visited) : Tidy cx g (w.follow cx g c) := by
  unfold Walker.follow
  cases hnode : g.node? c.current with
  | none => exact h.tidy_fail _
  | some nd =>
    by_cases hknown : nd.anonymous = false ∨ .node c.current ∈ c.done
    · simp only [if_pos hknown]
      exact h.stop hstart hdone _ _ _
    · simp only [if_neg hknown]
      cases hleft : Failure.ofFault (Chain.pending g c.current (.node c.current :: c.done)) with
      | error x => exact h.tidy_fail x
      | ok left =>
        dsimp only
        rw [Failure.ofFault_eq_ok_iff] at hleft
        cases hs : left.filter (·.2.kind.structural) with
        | nil => exact h.stop hstart hdone _ _ _
        | cons x rest =>
          obtain ⟨i, e⟩ := x
          cases rest with
          | cons y rest => exact h.tidy_fail _
          | nil =>
            -- one edge goes on, and it was not passed before
            have hmem : (i, e) ∈ left :=
              (List.mem_filter.1 (hs ▸ List.mem_singleton_self (i, e))).1
            have hedge := Chain.edge?_of_pending hleft hmem
            have hfresh := Chain.fresh_of_pending hleft hmem
            cases hanon : e.anonymous with
            | false =>
              simp only [hanon, Bool.false_eq_true, if_false]
              exact h.stop hstart hdone _ _ _
            | true =>
              simp only [hanon, if_true]
              cases hsegment : cx.edgeSegment e i.direction with
              | error x => exact h.tidy_fail x
              | ok s =>
                obtain ⟨rfl, -⟩ := edgeSegment_ok hsegment
                -- the edge and its part of the path are taken down together
                have htaken := h.leaveAlong (fun hk => hfresh (List.mem_cons_of_mem _ hk))
                  (PatternGraph.mem_handles_of_edge? hedge) c.current
                have hpart := htaken.leavePart
                  (p := Chain.restriction nd ++ [.step i.direction (.ofName? e.typeName?)])
                  (h.toRecorded.owes_note _) ⟨e, i.direction, hedge, hsegment⟩
                  (by rw [List.filter_append, follows_restriction]; rfl)
                refine ⟨hpart.onto _ _, hstart, fun x => ?_⟩
                have hx := hdone x
                simp only [Strand.onward, Walker.leave, Walker.note, List.mem_cons,
                  List.mem_append, List.not_mem_nil, or_false] at hx ⊢
                rw [hx]
                tauto

/-- A turn of the loop over a row of constraints. -/
theorem Books.splice {k : EdgeId} {n : NodeId} {seen marks : List Handle} (h : Books cx g w seen [])
    (owes : w.Owes k) (precedes : ∃ e, g.edge? k = some e ∧ e.kind = .precedes)
    (hseen : ∀ x, x ∈ seen ↔ x ∈ marks ++ w.visited) :
    Tidy cx g (w.splice g k n seen marks) := by
  unfold Walker.splice
  cases hnode : g.node? n with
  | none => exact h.tidy_fail _
  | some nd =>
    cases hform : nd.constraint? with
    | none =>
      simp only [hform]
      exact h.tidy_fail _
    | some c =>
      simp only [hform]
      obtain ⟨e, he, hkind⟩ := precedes
      -- the step of the constraint stands for the edge that leads to it
      have hstep := h.leaveStep owes ⟨e, he, .inr ⟨hkind, c, rfl⟩⟩ (pathsOf_constraintStep c)
        (forEdge_constraintStep c)
      cases hnext : nextConstraint? g n seen with
      | none =>
        show Tidy cx g ((w.leave k (.step (constraintStep c))).take
          { steps := [constraintStep c], marks := marks ++ [.node n] })
        -- the row is at its end, and its marks are taken over
        rw [← take_emit (e := { marks := marks ++ [.node n] })]
        refine hstep.take (fun x hx => ?_) (fun j hj => ?_) rfl rfl
        · have hx := (hseen x).1 hx
          simp only [Walker.leave, Walker.emit, List.mem_append] at hx ⊢
          tauto
        · exact (hseen _).2 (List.mem_append_left _ (by simpa using hj))
      | some i =>
        obtain ⟨-, ⟨e', he', hkind'⟩, hnew⟩ := nextConstraint?_some hnext
        -- the next edge was not seen, so it is taken down for the first time
        have htaken := hstep.leaveAlong hnew (PatternGraph.mem_handles_of_edge? he') n
        refine ⟨htaken.onto _ _, hstep.toRecorded.owes_note _, ⟨e', he', hkind'⟩, fun x => ?_⟩
        have hx := hseen x
        simp only [Walker.leave, Walker.emit, Walker.note, List.mem_cons, List.mem_append,
          List.not_mem_nil, or_false] at hx ⊢
        rw [hx]
        tauto

/-- One turn keeps the invariant. -/
theorem Tidy.turn (h : Tidy cx g w) : Tidy cx g (turn cx g w) := by
  unfold Walker.turn
  unfold Tidy at h
  cases htask : w.task with
  | next =>
    rw [htask] at h
    exact h.pop htask
  | follow c =>
    rw [htask] at h
    exact h.1.follow h.2.1 h.2.2
  | splice k n seen marks =>
    rw [htask] at h
    exact h.1.splice h.2.1 h.2.2.1 h.2.2.2
  | ended r =>
    rw [htask] at h
    unfold Tidy
    rw [htask]
    exact h

/-! ## Every run of the machine -/

theorem tidy_start : Tidy cx g (start g) where
  nodup := List.nodup_nil
  handles _ hx := absurd hx List.not_mem_nil
  sublist := .slnil
  own _ ht := absurd ht List.not_mem_nil
  passed _ hk := hk
  visited _ hx := hx
  complete _ hx := hx
  edges _ hk := hk
  parts := rfl
  steps := rfl

/-- The invariant holds after any number of turns. -/
theorem tidy_turns (cx : Context) (g : PatternGraph) (n : Nat) : Tidy cx g (after cx g n) := by
  induction n with
  | zero => exact tidy_start
  | succ n ih =>
    rw [after, Function.iterate_succ_apply']
    exact ih.turn

theorem Tidy.recorded (h : Tidy cx g w) : Recorded cx g w := by
  unfold Tidy at h
  cases htask : w.task with
  | next =>
    rw [htask] at h
    exact h.toRecorded
  | follow c =>
    rw [htask] at h
    exact h.1.toRecorded
  | splice k n seen marks =>
    rw [htask] at h
    exact h.1.toRecorded
  | ended r =>
    rw [htask] at h
    cases r with
    | error x => exact h
    | ok steps => exact h.1.toRecorded

/-- The traces of a finished walk are those in its steps. -/
theorem Tidy.traces_of_ended {steps : List Step} (h : Tidy cx g w)
    (hended : w.task = .ended (.ok steps)) :
    (pathsOf steps).filter Segment.follows = w.traces.filterMap (·.2.part?) ∧
      steps.filter forEdge = w.traces.filterMap (·.2.step?) := by
  unfold Tidy at h
  rw [hended] at h
  obtain ⟨hbooks, rfl⟩ := h
  have hparts := hbooks.parts
  rw [List.append_nil] at hparts
  exact ⟨hparts, hbooks.steps⟩

/-- The walk through a graph, whatever its nodes and edges, comes to an end, with the steps or the
failure that it has. On the way to it no node is reached twice and no edge is taken up twice, by
whichever loop, and every edge that counts as visited was taken up. Something is emitted for an edge
once at most, and what is emitted for edges, the parts of paths and the steps that enumerate edges
or call forms, is in the steps of the walk exactly as it was emitted. -/
theorem turns_end (cx : Context) (g : PatternGraph) :
    (∃ n, (after cx g n).task = .ended (explore cx g [] [.node g.anchor])) ∧
    ∀ n, (after cx g n).record.Nodup ∧ (∀ x ∈ (after cx g n).record, x ∈ g.handles) ∧
      (∀ k, Handle.edge k ∈ (after cx g n).visited → .edge k ∈ (after cx g n).record) ∧
      ((after cx g n).traces.map (·.1)).Nodup ∧
      (∀ t ∈ (after cx g n).traces, .edge t.1 ∈ (after cx g n).record ∧ t.2.Of cx g t.1) ∧
      ∀ steps, (after cx g n).task = .ended (.ok steps) →
        (pathsOf steps).filter Segment.follows = (after cx g n).traces.filterMap (·.2.part?) ∧
        steps.filter forEdge = (after cx g n).traces.filterMap (·.2.step?) := by
  constructor
  · obtain ⟨n, hn⟩ := ends_explore cx g [] [.node g.anchor] [] [] []
    refine ⟨n, hn.trans ?_⟩
    cases explore cx g [] [.node g.anchor] <;> rfl
  · intro n
    have htidy := tidy_turns cx g n
    have hrec := htidy.recorded
    exact ⟨hrec.nodup, hrec.handles, hrec.passed,
      List.Nodup.of_map _ (hrec.sublist.nodup hrec.nodup), fun t ht =>
        ⟨hrec.sublist.subset (List.mem_map_of_mem (List.mem_map_of_mem ht)),
        hrec.own t ht⟩,
      fun steps => htidy.traces_of_ended⟩

end Walker

end Plan

end GraphPattern
