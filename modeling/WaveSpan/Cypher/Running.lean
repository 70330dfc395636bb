/-
WaveSpan.Cypher.Running — operators one after the other, and what a query makes of the end of
their run (`internal/cypher/planner/executor.go` `Execute`).

After each operator the run looks for a recorded evaluation error and counts the rows
(`exec_cases`). A query answers the rows of the last operator, if they are not too many
(`execute_eq`).
-/
import WaveSpan.Cypher.Values

namespace WaveSpan.Cypher

open WaveSpan.Wire WaveSpan.Graph
open WaveSpan.Collections (GoMap)

variable {e : Executor} {st st' : State}

/-! ## Running operators -/

/-- Operators one after the other. -/
theorem exec_append (ops ops' : List LogicalOp) (st : State) :
    exec e (ops ++ ops') st =
      match exec e ops st with
      | (st', some err) => (st', some err)
      | (st', none) => exec e ops' st' := by
  induction ops generalizing st with
  | nil => rfl
  | cons op ops ih =>
    rw [List.cons_append, exec, exec]
    cases apply e op st with
    | error err => rfl
    | ok st' =>
      cases hev : st'.evalErr with
      | some err => simp only [hev]
      | none =>
        cases hchk : e.effective.checkIntermediate st'.rows.length with
        | error err => simp only [hev, hchk]
        | ok u => simp only [hev, hchk, ih]

/-- How the first operator goes: it fails, it records an error or leaves too many rows, or the rest
runs on what it leaves. -/
theorem exec_cases (op : LogicalOp) (ops : List LogicalOp) (st : State) :
    (∃ err, readRows e op st.store st.rows = .error err ∧ exec e (op :: ops) st = (st, some err)) ∨
      ∃ st', apply e op st = .ok st' ∧
        ((∃ err, st'.evalErr = some err ∧ exec e (op :: ops) st = (st', some (.eval err))) ∨
          (∃ n max, exec e (op :: ops) st = (st', some (.guardrail .maxIntermediateRows n max))) ∨
          st'.evalErr = none ∧ (st'.rows.length : Int) ≤ e.effective.maxIntermediateRows ∧
            exec e (op :: ops) st = exec e ops st') := by
  rw [exec]
  cases hread : readRows e op st.store st.rows with
  | error err => exact .inl ⟨err, rfl, by simp [apply, hread, bind, Except.bind]⟩
  | ok out =>
    obtain ⟨st', happly⟩ : ∃ st', apply e op st = .ok st' := by
      unfold apply
      rw [hread]
      exact ⟨_, rfl⟩
    refine .inr ⟨st', happly, ?_⟩
    simp only [happly, Limits.checkIntermediate]
    cases st'.evalErr with
    | some err => exact .inl ⟨err, rfl, rfl⟩
    | none =>
      by_cases hfits : e.effective.maxIntermediateRows < st'.rows.length
      · rw [if_pos hfits]
        exact .inr (.inl ⟨_, _, rfl⟩)
      · rw [if_neg hfits]
        exact .inr (.inr ⟨rfl, not_lt.mp hfits, rfl⟩)

/-! ## The end of a run -/

/-- Rows as a query answers them, if they are not too many. -/
def answer (e : Executor) (columns : List Bytes) (rows : List (GoMap Value)) : Except Err Result :=
  if e.effective.maxRowsReturned < rows.length then
    .error (.guardrail .maxRowsReturned rows.length e.effective.maxRowsReturned)
  else .ok { columns := columns, rows := rows }

/-- A run that ends well ends within the limit. -/
theorem fits_of_exec {ops : List LogicalOp} (hops : ops ≠ []) (h : exec e ops st = (st', none)) :
    (st'.rows.length : Int) ≤ e.effective.maxIntermediateRows := by
  induction ops generalizing st with
  | nil => exact absurd rfl hops
  | cons op ops ih =>
    rcases exec_cases op ops st with ⟨err, -, heq⟩ |
      ⟨mid, -, ⟨err, -, heq⟩ | ⟨n, max, heq⟩ | ⟨-, hfits, heq⟩⟩
    all_goals rw [heq] at h
    · cases h
    · cases h
    · cases h
    · cases ops with
      | nil =>
        obtain rfl : mid = st' := (Prod.mk.inj h).1
        exact hfits
      | cons op' ops' => exact ih (by simp) h

/-- What a query answers and leaves, of how its operators ended. -/
def outcome (e : Executor) (final : State × Option Err) : Except Err Result × Store :=
  match final with
  | (st, some err) => (.error err, st.store)
  | (st, none) => (answer e st.columns (st.rows.map (outputRow st.columns)), st.store)

/-- A query is the run of its plan. -/
theorem execute_eq (query : List Clause) (s : Store) :
    execute e query s = outcome e (exec e (plan query) { store := s }) := by
  unfold execute outcome
  cases exec e (plan query) { store := s } with
  | mk st err =>
    cases err with
    | some _ => rfl
    | none =>
      simp only [answer]
      rw [apply_ite (Prod.mk · st.store)]

end WaveSpan.Cypher
