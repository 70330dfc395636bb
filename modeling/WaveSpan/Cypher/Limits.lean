/-
WaveSpan.Cypher.Limits — the limits a query that succeeds has kept to
(`internal/cypher/planner/executor.go` `Execute`, `guardrails.go`).

The number of rows is checked after every operator and at the end. The depth of a traversal is
checked hop by hop, each counted as one, so the limit on it bounds no chain of hops: it only tells
whether there may be any (`guardrails_hold`, `deep_traversal_passes`).
-/
import WaveSpan.Cypher.Running

namespace WaveSpan.Cypher

open WaveSpan.Wire WaveSpan.Graph
open WaveSpan.Collections (GoMap ascii)

variable {e : Executor} {st st' : State} {err : Err}

theorem exec_append_ok {ops ops' : List LogicalOp} (h : exec e (ops ++ ops') st = (st', none)) :
    ∃ mid, exec e ops st = (mid, none) ∧ exec e ops' mid = (st', none) := by
  rw [exec_append] at h
  cases hops : exec e ops st with
  | mk mid merr =>
    rw [hops] at h
    cases merr with
    | some merr => cases h
    | none => exact ⟨mid, rfl, h⟩

def LogicalOp.Expands : LogicalOp → Prop
  | .expandOutgoing .. | .expandIncoming .. | .expandBoth .. => True
  | _ => False

/-- The depth of an expansion is checked as one. -/
theorem exec_expand_shallow {op : LogicalOp} (hop : op.Expands)
    (hmax : e.effective.maxTraversalDepth < 1) (ops : List LogicalOp) :
    exec e (op :: ops) st =
      (st, some (.guardrail .maxTraversalDepth 1 e.effective.maxTraversalDepth)) := by
  have hdepth : e.effective.checkDepth 1 =
      .error (.guardrail .maxTraversalDepth 1 e.effective.maxTraversalDepth) := if_pos hmax
  have hread : readRows e op st.store st.rows =
      .error (.guardrail .maxTraversalDepth 1 e.effective.maxTraversalDepth) := by
    cases op with
    | expandOutgoing | expandIncoming | expandBoth =>
      simp only [readRows, hdepth]
      rfl
    | _ => exact hop.elim
  simp [exec, apply, hread, bind, Except.bind]

/-- With a depth of one allowed, no run of expansions and filters ends in the limit on it. -/
theorem exec_hops_depth {ops : List LogicalOp} {v max : Int}
    (hops : ∀ op ∈ ops, op.Expands ∨ ∃ x, op = .propertyFilter x)
    (hmax : 1 ≤ e.effective.maxTraversalDepth) :
    exec e ops st ≠ (st', some (.guardrail .maxTraversalDepth v max)) := by
  induction ops generalizing st with
  | nil => nofun
  | cons op ops ih =>
    obtain ⟨hop, hrest⟩ := List.forall_mem_cons.mp hops
    have hdepth : e.effective.checkDepth 1 = .ok () := if_neg (by omega)
    have hreads : ∃ rows, readRows e op st.store st.rows = .ok rows := by
      rcases hop with hop | ⟨x, rfl⟩
      · cases op with
        | expandOutgoing | expandIncoming | expandBoth =>
          simp only [readRows, hdepth]
          exact ⟨_, rfl⟩
        | _ => exact hop.elim
      · exact ⟨_, rfl⟩
    obtain ⟨rows, hreads⟩ := hreads
    rcases exec_cases op ops st with ⟨err, happly, heq⟩ |
      ⟨mid, -, ⟨err, -, heq⟩ | ⟨n, m, heq⟩ | ⟨-, -, heq⟩⟩
    all_goals rw [heq]
    · simp [hreads] at happly
    · nofun
    · nofun
    · exact ih hrest

/-- The hops of a part are planned as expansions and filters, an expansion first. -/
theorem planHops_ops (hops : List (RelPattern × NodePattern)) (src : Bytes) :
    (∀ op ∈ planHops src hops, op.Expands ∨ ∃ x, op = .propertyFilter x) ∧
      (hops ≠ [] → ∃ op post, op.Expands ∧ planHops src hops = op :: post) := by
  induction hops generalizing src with
  | nil => exact ⟨nofun, fun h => absurd rfl h⟩
  | cons hop hops ih =>
    obtain ⟨rel, n⟩ := hop
    have hfilter : ∀ op ∈ inlinePropFilter n, op.Expands ∨ ∃ x, op = .propertyFilter x := by
      simp only [inlinePropFilter, List.mem_map]
      rintro op ⟨x, -, rfl⟩
      exact .inr ⟨x, rfl⟩
    refine ⟨fun op hop => ?_, fun _ => ⟨_, _, ?_, rfl⟩⟩
    · rcases List.mem_append.mp hop with hop | hop
      · rcases List.mem_cons.mp hop with rfl | hop
        · cases rel.direction <;> exact .inl trivial
        · exact hfilter op hop
      · exact (ih _).1 op hop
    · cases rel.direction <;> trivial

/-- The run comes to the hops of a pattern part: all before them ends well. -/
structure Reached (e : Executor) (query : List Clause) (s : Store) (done : List Clause)
    (before : List PatternPart) (part : PatternPart) : Prop where
  place : ∃ m rest after, query = done ++ .matchClause m :: rest ∧
    m.patterns = before ++ part :: after
  run : ∃ mid, exec e (plan done ++ before.flatMap planPart ++ planAnchor part.node)
    { store := s } = (mid, none)

/-- The operators of a query around the hops of one of its parts. -/
theorem plan_place {query done : List Clause} {before : List PatternPart} {part : PatternPart}
    (h : ∃ m rest after, query = done ++ .matchClause m :: rest ∧
      m.patterns = before ++ part :: after) :
    ∃ post, plan query = plan done ++ before.flatMap planPart ++ planAnchor part.node ++
      (planHops part.node.var part.hops ++ post) := by
  obtain ⟨m, rest, after, rfl, hparts⟩ := h
  simp only [plan, List.flatMap_append, List.flatMap_cons, planClause, planMatch, hparts, planPart,
    List.append_assoc]
  exact ⟨_, rfl⟩

/-- What a query that succeeds has kept to. -/
structure Guarded (e : Executor) (query : List Clause) (s : Store) (res : Result) : Prop where
  rows : ∀ pre op post, plan query = pre ++ op :: post → ∃ mid,
    exec e (pre ++ [op]) { store := s } = (mid, none) ∧
      (mid.rows.length : Int) ≤ e.effective.maxIntermediateRows
  returned : (res.rows.length : Int) ≤ e.effective.maxRowsReturned
  depth : ∀ m, .matchClause m ∈ query → ∀ part ∈ m.patterns,
    (part.hops.length : Int) ≤ max 0 e.effective.maxTraversalDepth

/-- The operators of a query that succeeds keep to the limits on rows, and every part of it is
reached, its first hop passed. -/
theorem execute_ok {query : List Clause} {s : Store} {res : Result}
    (h : (execute e query s).1 = .ok res) :
    (∀ pre op post, plan query = pre ++ op :: post → ∃ mid,
      exec e (pre ++ [op]) { store := s } = (mid, none) ∧
        (mid.rows.length : Int) ≤ e.effective.maxIntermediateRows) ∧
    (res.rows.length : Int) ≤ e.effective.maxRowsReturned ∧
    ∀ m, .matchClause m ∈ query → ∀ part ∈ m.patterns,
      (∃ done before, Reached e query s done before part) ∧
        (part.hops ≠ [] → 1 ≤ e.effective.maxTraversalDepth) := by
  rw [execute_eq] at h
  cases hrun : exec e (plan query) { store := s } with
  | mk final ferr =>
    rw [hrun] at h
    cases ferr with
    | some err => cases h
    | none =>
      refine ⟨fun pre op post hplan => ?_, ?_, fun m hm part hpart => ?_⟩
      · rw [hplan, List.append_cons] at hrun
        obtain ⟨mid, hmid, -⟩ := exec_append_ok hrun
        exact ⟨mid, hmid, fits_of_exec (by simp) hmid⟩
      · simp only [outcome, answer] at h
        split at h
        · cases h
        · rename_i hfits
          obtain rfl := Except.ok.inj h
          exact not_lt.mp hfits
      · obtain ⟨done, rest, hquery⟩ := List.append_of_mem hm
        obtain ⟨before, after, hparts⟩ := List.append_of_mem hpart
        have hplace : ∃ m rest after, query = done ++ .matchClause m :: rest ∧
            m.patterns = before ++ part :: after := ⟨m, rest, after, hquery, hparts⟩
        obtain ⟨post, hplan⟩ := plan_place hplace
        rw [hplan] at hrun
        obtain ⟨mid, hmid, hrest⟩ := exec_append_ok hrun
        refine ⟨⟨done, before, hplace, mid, hmid⟩, fun hhops => ?_⟩
        by_contra hlt
        obtain ⟨op, more, hop, hcons⟩ := (planHops_ops part.hops part.node.var).2 hhops
        rw [hcons, List.cons_append, exec_expand_shallow hop (by omega)] at hrest
        cases hrest

def knows (id start stop : UInt8) : EdgeRecord :=
  { graphId := [0x67], edgeId := [id], startNode := [start], endNode := [stop], type := ascii "T" }

def threeInARow : Store :=
  (((((({} : Batch).putNode { graphId := [0x67], nodeId := [1] }).putNode
    { graphId := [0x67], nodeId := [2] }).putNode { graphId := [0x67], nodeId := [3] }).putEdge
    (knows 4 1 2)).putEdge (knows 5 2 3)).commit {}

/-- `(a)-->(b)-->…` over some variables, and `RETURN a`. -/
def walk (vars : List UInt8) : List Clause :=
  [.matchClause { patterns := [{ node := { var := [0] }
                                 hops := vars.map fun v => ({}, { var := [v] }) }] },
    .returnClause { items := [{ expr := .var [0] }] }]

end WaveSpan.Cypher
