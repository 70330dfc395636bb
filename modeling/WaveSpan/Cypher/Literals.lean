/-
WaveSpan.Cypher.Literals — what the literals of a query denote
(`internal/cypher/planner/eval.go`, `executor.go`, `internal/cypher/parser/parser.go`).

A list or map literal is evaluated by a path of its own: `literalValue` keeps those elements that
are literals themselves and leaves the others out, so that `[$p]` and `[-1]` come out empty, and
`[[$p]]` as `[[]]`. What a literal stands for is said by `denote`, from its parts. The two agree
exactly when nothing in the literal, at any depth, is anything but a literal; `UNWIND` then yields a
row for every element and `IN` compares with every one of them.

An integer token denotes its digits as long as they fit an int64. Beyond, the error of
`strconv.ParseInt` is not looked at, and the token denotes the largest int64.
-/
import WaveSpan.Cypher.Exec
import WaveSpan.Cypher.Render

namespace WaveSpan.Cypher

open WaveSpan.Wire WaveSpan.Descent WaveSpan.Graph
open WaveSpan.Collections (GoMap ascii digit? parseDigits)

/-! ## Lists and maps -/

section
variable {env : Env} {row : Row}

theorem evalScalar_of_isLiteral {e : Expr} (h : e.isLiteral = true) :
    evalScalar env row e = literalValue e := by
  cases e with
  | int | float | str | bool | null | list | map => rw [evalScalar] <;> simp
  | param | var | prop | unary | binary | call => cases h

/-- Only the literals among the elements are kept. -/
theorem literalItems_eq (items : List Expr) :
    literalItems items = (items.filter Expr.isLiteral).map literalValue := by
  induction items with
  | nil => rfl
  | cons e es ih =>
    rw [literalItems, List.filter_cons, ih]
    split <;> rfl

/-- The values of the elements that are literals, in order. -/
theorem evalScalar_list (items : List Expr) :
    evalScalar env row (.list items) =
      .list ((items.filter Expr.isLiteral).map (evalScalar env row)) := by
  rw [evalScalar_of_isLiteral rfl, literalValue, literalItems_eq]
  refine congrArg Value.list (List.map_congr_left fun e he => ?_)
  exact (evalScalar_of_isLiteral (List.mem_filter.mp he).2).symm

end

mutual

def denote (env : Env) (row : Row) : Expr → Value
  | .list items => .list (denoteItems env row items)
  | .map entries => .map (denoteEntries env row entries)
  | .unary op e => evalUnary op (denote env row e)
  | .binary op l r => evalBinary env.fl op (denote env row l) (denote env row r)
  | .call name args =>
    match env.funcs name with
    | none => vNull
    | some fn =>
      match fn (denoteItems env row args) with
      | .ok v => v
      | .error _ => vNull
  | e => evalScalar env row e

def denoteItems (env : Env) (row : Row) : List Expr → List Value
  | [] => []
  | e :: es => denote env row e :: denoteItems env row es

def denoteEntries (env : Env) (row : Row) : List (Bytes × Expr) → List (Bytes × Value)
  | [] => []
  | (k, e) :: es => (k, denote env row e) :: denoteEntries env row es

end

mutual

def Expr.Constant : Expr → Prop
  | .list items => itemsConstant items
  | .map entries => entriesConstant entries
  | e => e.isLiteral = true

def itemsConstant : List Expr → Prop
  | [] => True
  | e :: es => e.Constant ∧ itemsConstant es

def entriesConstant : List (Bytes × Expr) → Prop
  | [] => True
  | (_, e) :: es => e.Constant ∧ entriesConstant es

end

theorem denoteItems_eq (env : Env) (row : Row) (items : List Expr) :
    denoteItems env row items = items.map (denote env row) := by
  induction items with
  | nil => rfl
  | cons e es ih => rw [denoteItems, ih, List.map_cons]

theorem Expr.Constant.isLiteral {x : Expr} (h : x.Constant) : x.isLiteral = true := by
  cases x <;> first | rfl | exact h

theorem length_literalItems_le (items : List Expr) : (literalItems items).length ≤
    items.length := by
  rw [literalItems_eq, List.length_map]
  exact List.length_filter_le _ _

theorem length_literalEntries_le (entries : List (Bytes × Expr)) :
    (literalEntries entries).length ≤ entries.length := by
  induction entries with
  | nil => exact Nat.le_refl 0
  | cons kv es ih =>
    rw [literalEntries]
    split <;> simp only [List.length_cons] <;> omega

theorem length_denoteEntries (env : Env) (row : Row) (entries : List (Bytes × Expr)) :
    (denoteEntries env row entries).length = entries.length := by
  induction entries with
  | nil => rfl
  | cons kv es ih => rw [denoteEntries, List.length_cons, ih, List.length_cons]

mutual

/-- A literal comes out as what it stands for exactly when nothing in it is left out. -/
theorem literalValue_eq_denote (env : Env) (row : Row) : ∀ x : Expr, x.isLiteral = true →
    (literalValue x = denote env row x ↔ x.Constant)
  | .int _, h | .float _, h | .str _, h | .bool _, h | .null, h =>
    iff_of_true (by rw [denote, evalScalar] <;> simp) h
  | .list items, _ => by
    rw [literalValue, denote, Value.list.injEq, Expr.Constant]
    exact literalItems_eq_denote env row items
  | .map entries, _ => by
    rw [literalValue, denote, Value.map.injEq, Expr.Constant]
    exact literalEntries_eq_denote env row entries

/-- The two readings of a list agree exactly on constants. -/
theorem literalItems_eq_denote (env : Env) (row : Row) : ∀ items : List Expr,
    literalItems items = denoteItems env row items ↔ itemsConstant items
  | [] => iff_of_true rfl trivial
  | e :: es => by
    rw [literalItems, denoteItems, itemsConstant]
    split
    · rename_i h
      rw [List.cons.injEq, literalValue_eq_denote env row e h, literalItems_eq_denote env row es]
    · rename_i h
      refine iff_of_false (fun heq => ?_) fun hc => h hc.1.isLiteral
      -- an element is missing
      have hlen := congrArg List.length heq
      have hle := length_literalItems_le es
      rw [List.length_cons, denoteItems_eq, List.length_map] at hlen
      omega

theorem literalEntries_eq_denote (env : Env) (row : Row) : ∀ entries : List (Bytes × Expr),
    literalEntries entries = denoteEntries env row entries ↔ entriesConstant entries
  | [] => iff_of_true rfl trivial
  | (k, e) :: es => by
    rw [literalEntries, denoteEntries, entriesConstant]
    split
    · rename_i h
      rw [List.cons.injEq, Prod.mk.injEq, and_iff_right rfl, literalValue_eq_denote env row e h,
        literalEntries_eq_denote env row es]
    · rename_i h
      refine iff_of_false (fun heq => ?_) fun hc => h hc.1.isLiteral
      have hlen := congrArg List.length heq
      have hle := length_literalEntries_le es
      rw [List.length_cons, length_denoteEntries] at hlen
      omega

end

/-! ## Integers -/

/-- Digits denote their number if it fits. -/
theorem toInt_intLiteral {d : Bytes} {n : Nat} (h : parseDigits d = some n) :
    (intLiteral d).toInt = min n (2 ^ 63 - 1) := by
  have hfold : d.foldlM (fun n d => (digit? d).map (n * 10 + ·)) 0 = some n := by
    rw [parseDigits] at h
    split at h
    · cases h
    · exact h
  rw [intLiteral, (foldl_of_foldlM_digit hfold).2, Int64.toInt_ofNat_of_lt (by omega)]

theorem primary_digits (pf : Bytes → UInt64) (d : Bytes) :
    Primary pf [.int d] (.int (intLiteral d)) :=
  fun _ _ _ _ => primary_int d

/-- A list literal in use: it has the values of its elements, `UNWIND` yields a row for each, and
`IN` compares with each. -/
structure ListDenotes (e : Executor) (row : Row) (items : List Expr) : Prop where
  value : evalScalar e.toEnv row (.list items) = denote e.toEnv row (.list items)
  unwinds : ∀ v, unwindRow e (.list items) v row =
    items.map fun x => row.insert v (.value (denote e.toEnv row x))
  compares : ∀ l, evalScalar e.toEnv row (.binary .isIn l (.list items)) = .bool (items.any fun x =>
    compareValues e.fl (evalScalar e.toEnv row l) (denote e.toEnv row x) == .eq)

/-- Whatever its elements are, a list or map literal denotes the values of its elements exactly when
there are only literals in it; and wherever an integer token stands, it denotes its digits exactly
when they fit an int64. -/
theorem literals_denote (e : Executor) (row : Row) (items : List Expr)
    (entries : List (Bytes × Expr)) :
    (ListDenotes e row items ↔ (Expr.list items).Constant) ∧
    (evalScalar e.toEnv row (.map entries) = denote e.toEnv row (.map entries) ↔
      (Expr.map entries).Constant) ∧
    ∀ pf d n, parseDigits d = some n → ∃ i : Int64, (i.toInt = n ↔ n < 2 ^ 63) ∧
      evalScalar e.toEnv row (.int i) = .int i ∧
      (∀ text, Writes [word "RETURN", .int d] text →
        ∃ rest, parse pf text = .ok (returning (.int i)) rest) ∧
      ∀ m inner pos ts, primary pf (m + 1) inner (⟨.int, d, pos⟩ :: ts) = .ok (.int i) ts := by
  have hlist : evalScalar e.toEnv row (.list items) = denote e.toEnv row (.list items) ↔
      (Expr.list items).Constant := by
    rw [evalScalar_of_isLiteral rfl]
    exact literalValue_eq_denote e.toEnv row _ rfl
  refine ⟨⟨fun h => hlist.mp h.value, fun h => ?_⟩, ?_, fun pf d n hd => ?_⟩
  · have hvalue : evalScalar e.toEnv row (.list items) =
      .list (items.map (denote e.toEnv row)) := by
      rw [hlist.mpr h, denote, denoteItems_eq]
    refine ⟨hlist.mpr h, fun v => ?_, fun l => ?_⟩
    · rw [unwindRow, hvalue]
      simp only [List.map_map, Function.comp_def]
    · rw [evalScalar, hvalue]
      simp only [evalBinary, List.any_map, Function.comp_def]
  · rw [evalScalar_of_isLiteral rfl]
    exact literalValue_eq_denote e.toEnv row _ rfl
  · refine ⟨intLiteral d, ?_, evalScalar_of_isLiteral rfl, fun text htext => ?_,
      fun m inner pos ts => rfl⟩
    · rw [toInt_intLiteral hd]
      omega
    · exact parse_writes ((primary_digits pf d).reads ⟨_, _, rfl, rfl⟩) htext

/-- With `$p` the number 1, `[$p]` and `[-1]` are empty, and `[[$p]]` is `[[]]`: `UNWIND [$p]`
yields no row and `1 IN [$p]` is false. `RETURN 9223372036854775808` returns 9223372036854775807. -/
theorem listed_parameter_dropped :
    let e : Executor :=
      { graphID := [0x67], fl := default, params := (∅ : GoMap Value).insert (ascii "p") (.int 1) }
    evalScalar e.toEnv ∅ (.param (ascii "p")) = .int 1 ∧
      evalScalar e.toEnv ∅ (.list [.param (ascii "p")]) = .list [] ∧
      evalScalar e.toEnv ∅ (.list [.unary .neg (.int 1)]) = .list [] ∧
      evalScalar e.toEnv ∅ (.list [.list [.param (ascii "p")]]) = .list [.list []] ∧
      unwindRow e (.list [.param (ascii "p")]) (ascii "x") ∅ = [] ∧
      evalScalar e.toEnv ∅ (.binary .isIn (.int 1) (.list [.param (ascii "p")])) = .bool false ∧
      parseDigits (ascii "9223372036854775808") = some (2 ^ 63) ∧
      ∃ rest, parse (fun _ => 0) (ascii "RETURN 9223372036854775808") =
        .ok (returning (.int 9223372036854775807)) rest := by
  refine ⟨by simp [evalScalar], ?_, ?_, ?_, ?_, ?_, by decide +kernel, ?_⟩
  · exact evalScalar_list _
  · exact evalScalar_list _
  · rw [evalScalar_list]
    exact congrArg (fun v => Value.list [v]) (evalScalar_list _)
  · rw [unwindRow, evalScalar_list]
    rfl
  · rw [evalScalar, evalScalar_list]
    rfl
  · have hlast : Writes [.int (ascii "9223372036854775808")] (ascii " 9223372036854775808") :=
      .blank (.inl rfl) (@Writes.piece (.int _) [] [] ⟨by decide, by decide +kernel⟩
        (by simp [Piece.Apart]) .nil)
    have htext : Writes [word "RETURN", .int (ascii "9223372036854775808")]
        (ascii "RETURN 9223372036854775808") :=
      .piece (valid_word (by decide)) (apart_blank (valid_word (by decide)) _) hlast
    have h := parse_writes ((primary_digits (fun _ => 0) _).reads ⟨_, _, rfl, rfl⟩) htext
    rwa [show intLiteral (ascii "9223372036854775808") = 9223372036854775807 by decide +kernel] at h

end WaveSpan.Cypher
