import GraphPattern.Proofs.Walk

/-!
# GraphPattern — what visits emit

A visit emits steps in a few shapes only. The relations of this module list them, each with what
it binds: the variable of a node that is enumerated or assigned, and that of an edge that is
enumerated. What is bound is not kept by the walk; it is what the proofs about plans turn on.

## Results

* `Plan.visitNode_emits`, `Plan.visitIncidence_emits` — every visit of a regular graph has one of
  these shapes.
* `Plan.Emits.visitNode_eq`, `Plan.Emits.visitIncidence_eq` — what has one of the shapes is emitted.
* `Plan.mem_pendingEntries` — the entries a node leaves behind are its unvisited incidences.
-/

namespace GraphPattern

namespace Plan

variable {cx : Context} {g : PatternGraph}

theorem pendingEntries_ok (hg : g.Consistent) {n : NodeId} (hn : g.IsNode n)
    (visited : List Handle) : ∃ es, pendingEntries g n visited = .ok es := by
  obtain ⟨l, hl, -⟩ := hg.incidencesOf_ok hn
  exact ⟨_, by simp only [pendingEntries, hl, Failure.ofFault, bind, Except.bind]; rfl⟩

theorem mem_pendingEntries (hg : g.Consistent) {n : NodeId} (hn : g.IsNode n)
    {visited : List Handle} {es : List Entry} (h : pendingEntries g n visited = .ok es)
    {x : Entry} :
    x ∈ es ↔ ∃ i, x = .along i ∧ g.Incident i ∧ i.this = n ∧ Handle.edge i.edge ∉ visited := by
  obtain ⟨l, hl, hmem⟩ := hg.incidencesOf_ok hn
  simp only [pendingEntries, hl, Failure.ofFault, bind, Except.bind] at h
  cases h
  simp only [List.mem_map, List.mem_filter, hmem, decide_eq_true_eq]
  constructor
  · rintro ⟨i, ⟨⟨hi, hthis⟩, hnew⟩, rfl⟩
    exact ⟨i, rfl, hi, hthis, hnew⟩
  · rintro ⟨i, rfl, hi, hthis, hnew⟩
    exact ⟨i, ⟨⟨hi, hthis⟩, hnew⟩, rfl⟩

/-- The test that a node reached by a named edge matches its type. -/
def typeTest (name : String) : Option String → List Step
  | some t => if t.isEmpty then [] else [.guard (.isInstance (.var name) (.spec t))]
  | none => []

/-- The shapes of what a chain emits, and what they bind. -/
inductive ChainEmits (g : PatternGraph) (start : Expr) (c : Chain) (visited : List Handle) :
    Emission → List Handle → Prop
  | known {nd : PatternNode} {es : List Entry} (node : g.node? c.terminal = some nd)
      (pending : pendingEntries g c.terminal (c.elements ++ visited) = .ok es)
      (known : .node c.terminal ∈ visited ∨ nd.kind = .argument) :
      ChainEmits g start c visited
        { steps := [.guard (.member (.var (varOf g c.terminal)) (.reachable start c.path))]
          marks := c.elements, entries := c.constraints.map .along ++ es } []
  | closed {nd : PatternNode} {es : List Entry} (node : g.node? c.terminal = some nd)
      (pending : pendingEntries g c.terminal (c.elements ++ visited) = .ok es)
      (fresh : ¬(.node c.terminal ∈ visited ∨ nd.kind = .argument))
      (anonymous : nd.anonymous = true) (closed : c.openEnd = false) :
      ChainEmits g start c visited
        { steps := [.guard (.nonEmpty (.reachable start c.path))]
          marks := c.elements, entries := c.constraints.map .along ++ es } []
  | bound {nd : PatternNode} {es : List Entry} (node : g.node? c.terminal = some nd)
      (pending : pendingEntries g c.terminal (c.elements ++ visited) = .ok es)
      (fresh : ¬(.node c.terminal ∈ visited ∨ nd.kind = .argument))
      (needed : nd.anonymous = false ∨ c.openEnd = true) :
      ChainEmits g start c visited
        { steps := [.generate (varOf g c.terminal) (.reachable start c.path)]
          marks := c.elements, entries := c.constraints.map .along ++ es } [.node c.terminal]

/-- The shapes of what is emitted for the far end of an edge that is bound. -/
inductive FarEmits (cx : Context) (g : PatternGraph) (i : Incidence) (edge : Expr)
    (visited : List Handle) : Emission → List Handle → Prop
  | known {nd : PatternNode} {es : List Entry} (node : g.node? i.that = some nd)
      (pending : pendingEntries g i.that (.node i.that :: visited) = .ok es)
      (known : .node i.that ∈ visited ∨ nd.kind = .argument) :
      FarEmits cx g i edge visited
        { steps := [.guard (.equal (.var (varOf g i.that)) (.edgeEnd edge i.direction true))]
          marks := [.node i.that], entries := es } []
  | named {nd : PatternNode} {es : List Entry} {name : String} (node : g.node? i.that = some nd)
      (pending : pendingEntries g i.that (.node i.that :: visited) = .ok es)
      (fresh : ¬(.node i.that ∈ visited ∨ nd.kind = .argument)) (named : nd.name? = some name) :
      FarEmits cx g i edge visited
        { steps := .assignAll [(name, .edgeEnd edge i.direction true)] ::
            typeTest name nd.typeName?
          marks := [.node i.that], entries := es } [.node i.that]
  | chain {nd : PatternNode} {c : Chain} {em : Emission} {bs : List Handle}
      (node : g.node? i.that = some nd) (fresh : ¬(.node i.that ∈ visited ∨ nd.kind = .argument))
      (anonymous : nd.name? = none) (walks : Chain.Walks cx g i.that visited c)
      (emits : ChainEmits g (.edgeEnd edge i.direction true) c visited em bs) :
      FarEmits cx g i edge visited em bs

/-- The shapes of what a visit emits, with what was visited before and the entry itself. -/
inductive Emits (cx : Context) (g : PatternGraph) (visited : List Handle) :
    Entry → Emission → List Handle → Prop
  | anchor {n : NodeId} {nd : PatternNode} {es : List Entry} (node : g.node? n = some nd)
      (kind : nd.kind = .anchor ∨ nd.kind = .constraint)
      (pending : pendingEntries g n visited = .ok es) :
      Emits cx g visited (.node n) { entries := es } []
  | place {n : NodeId} {nd : PatternNode} {es : List Entry} (node : g.node? n = some nd)
      (kind : nd.kind = .pattern) (pending : pendingEntries g n visited = .ok es) :
      Emits cx g visited (.node n)
        { steps := [.generate (varOf g n) (.instances (.ofName? nd.typeName?))], entries := es }
        [.node n]
  | argument {n : NodeId} {nd : PatternNode} {name : String} {es : List Entry}
      (node : g.node? n = some nd) (kind : nd.kind = .argument) (named : nd.name? = some name)
      (pending : pendingEntries g n visited = .ok es) :
      Emits cx g visited (.node n)
        { steps := [.assign name (.argument name)], entries := es } []
  | start {i : Incidence} {e : PatternEdge} (edge : g.edge? i.edge = some e)
      (kind : e.kind = .start) :
      Emits cx g visited (.along i) { entries := [.node i.that] } []
  | constraints {i : Incidence} {e : PatternEdge} {steps : List Step} {marks : List Handle}
      (edge : g.edge? i.edge = some e) (kind : e.kind = .precedes)
      (splices : Splices g i.that visited steps marks) :
      Emits cx g visited (.along i) { steps, marks } []
  | chain {i : Incidence} {e : PatternEdge} {segment : Segment} {c : Chain} {em : Emission}
      {bs : List Handle} (edge : g.edge? i.edge = some e) (kind : e.kind = .pattern)
      (anonymous : e.name? = none) (segment_ok : cx.edgeSegment e i.direction = .ok segment)
      (walks : Chain.Walks cx g i.that (.edge i.edge :: visited) c)
      (emits : ChainEmits g (.var (varOf g i.this))
        { c with path := segment :: c.path, elements := .edge i.edge :: c.elements }
        visited em bs) :
      Emits cx g visited (.along i) em bs
  | argumentEdge {i : Incidence} {e : PatternEdge} {name : String} {em : Emission}
      {bs : List Handle} (edge : g.edge? i.edge = some e) (kind : e.kind = .argument)
      (named : e.name? = some name) (far : FarEmits cx g i (.var name) visited em bs) :
      Emits cx g visited (.along i)
        { em with
          steps := .guard (.equal (.var (varOf g i.this))
            (.edgeEnd (.var name) i.direction false)) :: em.steps }
        bs
  | namedEdge {i : Incidence} {e : PatternEdge} {name : String} {em : Emission}
      {bs : List Handle} (edge : g.edge? i.edge = some e) (kind : e.kind = .pattern)
      (named : e.name? = some name) (identity : cx.engine.edgesHaveIdentity = true)
      (far : FarEmits cx g i (.var name) visited em bs) :
      Emits cx g visited (.along i)
        { em with
          steps := .generate name
            (.adjacent (.var (varOf g i.this)) (.ofName? e.typeName?) i.direction) :: em.steps }
        (.edge i.edge :: bs)

theorem emitChain_emits {start : Expr} {c : Chain} {visited : List Handle} {em : Emission}
    (h : emitChain g start c visited = .ok em) :
    ∃ bs, ChainEmits g start c visited em bs := by
  unfold emitChain at h
  split at h
  · cases h
  · rename_i nd hnode
    simp only [bind, Except.bind] at h
    split at h
    · cases h
    · rename_i es hes
      cases h
      by_cases hknown : .node c.terminal ∈ visited ∨ nd.kind = .argument
      · rw [if_pos hknown]
        exact ⟨_, .known hnode hes hknown⟩
      · rw [if_neg hknown]
        cases hanon : nd.anonymous <;> cases hopen : c.openEnd
        · exact ⟨_, .bound hnode hes hknown (.inl hanon)⟩
        · exact ⟨_, .bound hnode hes hknown (.inl hanon)⟩
        · exact ⟨_, .closed hnode hes hknown hanon hopen⟩
        · exact ⟨_, .bound hnode hes hknown (.inr hopen)⟩

theorem bindFarEnd_emits {i : Incidence} {edge : Expr} {visited : List Handle} {em : Emission}
    (h : bindFarEnd cx g i edge visited = .ok em) :
    ∃ bs, FarEmits cx g i edge visited em bs := by
  -- as the far end is bound: known, without a name, or by its name
  unfold bindFarEnd at h
  split at h
  · cases h
  · rename_i nd hnode
    simp only [bind, Except.bind] at h
    split at h
    · rename_i hknown
      split at h
      · cases h
      · rename_i es hes
        cases h
        exact ⟨_, .known hnode hes hknown⟩
    · rename_i hfresh
      split at h
      · rename_i hanon
        split at h
        · cases h
        · rename_i c hc
          obtain ⟨bs, hbs⟩ := emitChain_emits h
          exact ⟨bs, .chain hnode hfresh hanon (Chain.walk_eq_ok_iff.1 hc) hbs⟩
      · rename_i name hname
        split at h
        · cases h
        · rename_i es hes
          cases h
          exact ⟨_, .named hnode hes hfresh hname⟩

/-- Reaching a node has one of the shapes. -/
theorem visitNode_emits (hg : g.Regular cx) {n : NodeId} {nd : PatternNode}
    {visited : List Handle} {em : Emission} (hn : g.IsNode n) (hnode : g.node? n = some nd)
    (h : visitNode g n nd visited = .ok em) : ∃ bs, Emits cx g visited (.node n) em bs := by
  have hfits := hg.node n nd hn hnode
  simp only [visitNode, bind, Except.bind] at h
  split at h
  · cases h
  · rename_i es hes
    cases h
    rw [PatternGraph.NodeFits] at hfits
    cases hk : nd.kind <;> simp only [hk] at hfits
    case anchor =>
      rw [nodeSteps, hk]
      exact ⟨_, .anchor hnode (.inl hk) hes⟩
    case constraint =>
      rw [nodeSteps, hk]
      exact ⟨_, .anchor hnode (.inr hk) hes⟩
    case pattern =>
      rw [nodeSteps, hk]
      exact ⟨_, .place hnode hk hes⟩
    case argument =>
      obtain ⟨-, name, -, hname⟩ := hfits
      rw [nodeSteps, hk, hname]
      exact ⟨_, .argument hnode hk hname hes⟩

/-- Following an edge has one of the shapes. -/
theorem visitIncidence_emits (hg : g.Regular cx) {i : Incidence} {e : PatternEdge}
    {visited : List Handle} {em : Emission} (hedge : g.edge? i.edge = some e)
    (h : visitIncidence cx g i e visited = .ok em) :
    ∃ bs, Emits cx g visited (.along i) em bs := by
  have hfits := hg.edgeFits_of_edge? hedge
  -- the edge's kind and name decide which of the shapes it is
  unfold visitIncidence at h
  simp only at h
  split at h
  · rename_i hk
    cases h
    exact ⟨_, .start hedge hk⟩
  · rename_i hk
    simp only [bind, Except.bind] at h
    split at h
    · cases h
    · rename_i r hr
      cases h
      exact ⟨_, .constraints hedge hk (spliceConstraints_eq_ok_iff.1 hr)⟩
  · rename_i hk
    simp only [bind, Except.bind] at h
    split at h
    · cases h
    · rename_i rest hrest
      cases h
      rw [PatternGraph.EdgeFits, hk] at hfits
      obtain ⟨-, -, name, -, hname⟩ := hfits
      rw [hname] at hrest
      rw [hname]
      obtain ⟨bs, hbs⟩ := bindFarEnd_emits hrest
      exact ⟨bs, .argumentEdge hedge hk hname hbs⟩
  · rename_i hk hanon
    simp only [bind, Except.bind] at h
    split at h
    · cases h
    · rename_i c hc
      simp only [Chain.fromEdge, hedge, bind, Except.bind] at hc
      split at hc
      · cases hc
      · rename_i segment hsegment
        split at hc
        · cases hc
        · rename_i c' hc'
          cases hc
          obtain ⟨bs, hbs⟩ := emitChain_emits h
          exact ⟨bs, .chain hedge hk hanon hsegment (Chain.walk_eq_ok_iff.1 hc') hbs⟩
  · rename_i name hk hname
    split at h
    · rename_i hid
      simp only [bind, Except.bind] at h
      split at h
      · cases h
      · rename_i rest hrest
        cases h
        obtain ⟨bs, hbs⟩ := bindFarEnd_emits hrest
        exact ⟨_, .namedEdge hedge hk hname hid hbs⟩
    · cases h

-- ---------------------------------------------------------------------------
-- Every shape is emitted
-- ---------------------------------------------------------------------------

theorem ChainEmits.emitChain_eq {start : Expr} {c : Chain} {visited : List Handle} {em : Emission}
    {bs : List Handle} (h : ChainEmits g start c visited em bs) :
    emitChain g start c visited = .ok em := by
  cases h with
  | known node pending known =>
    simp only [emitChain, node, pending, if_pos known, bind, Except.bind, pure, Except.pure]
  | closed node pending fresh anonymous closed =>
    simp only [emitChain, node, pending, if_neg fresh, anonymous, closed, bind, Except.bind, pure,
      Except.pure, Bool.not_false, Bool.and_self, if_true]
  | @bound nd es node pending fresh needed =>
    have hopen : ¬ (nd.anonymous && !c.openEnd) = true := by
      rcases needed with h | h
      · rw [h]
        exact Bool.false_ne_true
      · rw [h, Bool.not_true, Bool.and_false]
        exact Bool.false_ne_true
    simp only [emitChain, node, pending, if_neg fresh, if_neg hopen, bind, Except.bind, pure,
      Except.pure]

theorem FarEmits.bindFarEnd_eq {i : Incidence} {edge : Expr} {visited : List Handle}
    {em : Emission} {bs : List Handle} (h : FarEmits cx g i edge visited em bs) :
    bindFarEnd cx g i edge visited = .ok em := by
  cases h with
  | known node pending known =>
    simp only [bindFarEnd, node, pending, if_pos known, bind, Except.bind, pure, Except.pure]
  | named node pending fresh named =>
    simp only [bindFarEnd, node, pending, if_neg fresh, named, bind, Except.bind, pure,
      Except.pure]
    rfl
  | chain node fresh anonymous walks emits =>
    simp only [bindFarEnd, node, if_neg fresh, anonymous, Chain.fromNode,
      Chain.walk_eq_ok_iff.2 walks, emits.emitChain_eq, bind, Except.bind]

/-- What has one of the shapes is emitted on reaching the node. -/
theorem Emits.visitNode_eq {n : NodeId} {nd : PatternNode} {visited : List Handle} {em : Emission}
    {bs : List Handle} (hnode : g.node? n = some nd)
    (h : Emits cx g visited (.node n) em bs) : visitNode g n nd visited = .ok em := by
  cases h with
  | anchor node kind pending =>
    rw [hnode] at node
    cases node
    simp only [visitNode, pending, bind, Except.bind, pure, Except.pure]
    rcases kind with hk | hk <;> rw [nodeSteps, hk]
  | place node kind pending =>
    rw [hnode] at node
    cases node
    simp only [visitNode, pending, nodeSteps, kind, bind, Except.bind, pure, Except.pure]
  | argument node kind named pending =>
    rw [hnode] at node
    cases node
    simp only [visitNode, pending, nodeSteps, kind, named, bind, Except.bind, pure, Except.pure]

/-- What has one of the shapes is emitted on following the edge. -/
theorem Emits.visitIncidence_eq {i : Incidence} {e : PatternEdge} {visited : List Handle}
    {em : Emission} {bs : List Handle} (hedge : g.edge? i.edge = some e)
    (h : Emits cx g visited (.along i) em bs) : visitIncidence cx g i e visited = .ok em := by
  -- each kind of visit is what the edge's kind and name make the search do
  cases h with
  | start edge kind =>
    rw [hedge] at edge
    cases edge
    simp only [visitIncidence, kind]
  | constraints edge kind splices =>
    rw [hedge] at edge
    cases edge
    simp only [visitIncidence, kind, splices.spliceConstraints_eq, bind, Except.bind, pure,
      Except.pure]
  | chain edge kind anonymous segment_ok walks emits =>
    rw [hedge] at edge
    cases edge
    simp only [visitIncidence, kind, anonymous, Chain.fromEdge, hedge, segment_ok,
      Chain.walk_eq_ok_iff.2 walks, emits.emitChain_eq, bind, Except.bind, pure, Except.pure]
  | argumentEdge edge kind named far =>
    rw [hedge] at edge
    cases edge
    simp only [visitIncidence, kind, named, far.bindFarEnd_eq, Option.map_some, Option.getD_some,
      bind, Except.bind, pure, Except.pure]
  | namedEdge edge kind named identity far =>
    rw [hedge] at edge
    cases edge
    simp only [visitIncidence, kind, named, identity, far.bindFarEnd_eq, if_true, bind,
      Except.bind, pure, Except.pure]

end Plan

end GraphPattern
