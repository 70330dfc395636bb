/-
WaveSpan.Lib.Best — the first `n` of a list under a total order.

One more element goes into its place of the sorted list (`insertionSort_insert`), so among the first
`n` it pushes at most the last one out (`best_insert`), and one that is not among them can go
(`best_erase`).
-/
import Mathlib.Data.List.Sort

namespace WaveSpan.Best

variable {α : Type} (r : α → α → Prop) [DecidableRel r] [Std.Total r] [IsTrans α r] [Std.Antisymm r]
variable {l l' : List α} {x : α} {n : Nat}

theorem insertionSort_perm (h : l'.Perm l) : l'.insertionSort r = l.insertionSort r :=
  List.Perm.eq_of_pairwise (fun _ _ _ _ hab hba => Std.Antisymm.antisymm _ _ hab hba)
    (List.pairwise_insertionSort r l') (List.pairwise_insertionSort r l)
    (((List.perm_insertionSort r l').trans h).trans (List.perm_insertionSort r l).symm)

/-- Sorting in one more element. -/
theorem insertionSort_insert (h : l'.Perm (x :: l)) :
    ∃ pre post, l.insertionSort r = pre ++ post ∧ l'.insertionSort r = pre ++ x :: post := by
  refine ⟨_, _, (List.takeWhile_append_dropWhile (p := fun b => decide ¬ r x b)).symm, ?_⟩
  rw [insertionSort_perm r h, List.insertionSort_cons, List.orderedInsert_eq_take_drop]

def best (n : Nat) (l : List α) : List α := (l.insertionSort r).take n

/-- One more element among the best. -/
theorem best_insert (h : l'.Perm (x :: l)) :
    best r n l' = best r n l ∨
      ∃ pre post, best r n l = pre ++ post ∧
        (best r n l' = pre ++ x :: post ∨ best r n l' = pre ++ x :: post.dropLast) := by
  obtain ⟨pre, post, hl, hl'⟩ := insertionSort_insert r h
  rw [best, best, hl, hl']
  rcases Nat.lt_or_ge pre.length n with hlt | hge
  · obtain ⟨k, hk⟩ : ∃ k, n - pre.length = k + 1 := ⟨n - pre.length - 1, by omega⟩
    refine .inr ⟨pre, post.take (k + 1), ?_, ?_⟩
    · rw [List.take_append, List.take_of_length_le hlt.le, hk]
    · rw [List.take_append, List.take_of_length_le hlt.le, hk, List.take_succ_cons]
      rcases Nat.lt_or_ge k post.length with hroom | hall
      · right
        have hcut : min (min (k + 1) post.length - 1) (k + 1) = k := by omega
        rw [List.dropLast_eq_take, List.take_take, List.length_take, hcut]
      · left
        rw [List.take_of_length_le hall, List.take_of_length_le (by omega)]
  · left
    rw [List.take_append_of_le_length hge, List.take_append_of_le_length hge]

theorem best_erase [DecidableEq α] (h : x ∉ best r n l) : best r n (l.erase x) = best r n l := by
  by_cases hx : x ∈ l
  · obtain ⟨pre, post, hl, hl'⟩ := insertionSort_insert r (List.perm_cons_erase hx)
    rw [best, hl'] at h
    -- otherwise `x` is among the first `n`
    have hge : n ≤ pre.length := by
      refine Nat.le_of_not_lt fun hlt => h ?_
      rw [List.take_append, List.take_of_length_le hlt.le]
      obtain ⟨k, hk⟩ : ∃ k, n - pre.length = k + 1 := ⟨n - pre.length - 1, by omega⟩
      simp [hk]
    rw [best, best, hl, hl', List.take_append_of_le_length hge, List.take_append_of_le_length hge]
  · rw [List.erase_of_not_mem hx]

end WaveSpan.Best
