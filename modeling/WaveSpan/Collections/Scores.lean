/-
WaveSpan.Collections.Scores — the order of a sorted set (`internal/collections/command.go`
`sortableScore`, `statemachine.go` `zRangeQuery`).

A score-index row is keyed by the score's sort key and the member. The sort key turns a float's bits
into bytes that compare as the numbers do, apart from the two zeros, which it tells apart
(`compare_sortableScore_append`). Any eight bytes are the sort key of one score
(`sortableScore_unsortableScore`), so a listing is exactly the rows of the index, in the order of
score and member (`lookup_zRange`).
-/
import WaveSpan.Collections.Lookup
import WaveSpan.Lib.Binary64

namespace WaveSpan.Collections

open WaveSpan.Wire WaveSpan.Rows WaveSpan.Binary64

/-! ## Sort keys -/

theorem unsortBits_toNat (n : UInt64) :
    (if n &&& signBit ≠ 0 then n &&& ~~~signBit else ~~~n).toNat
      = if 2 ^ 63 ≤ n.toNat then n.toNat - 2 ^ 63 else 2 ^ 64 - 1 - n.toNat := by
  by_cases h : 2 ^ 63 ≤ n.toNat
  · rw [if_pos ((and_signBit_ne_zero n).mpr h), if_pos h]
    have hmask : (~~~signBit).toNat = 2 ^ 63 - 1 := by decide
    have hlt := n.toNat_lt
    rw [UInt64.toNat_and, hmask, Nat.and_two_pow_sub_one_eq_mod]
    omega
  · rw [if_neg fun hc => h ((and_signBit_ne_zero n).mp hc), if_neg h]
    simp

/-- A score is read back from its key. -/
theorem unsortableScore_sortableScore_append (a : UInt64) (rest : Bytes) :
    unsortableScore (sortableScore a ++ rest) = a := by
  have hlt := a.toNat_lt
  refine UInt64.toNat_inj.mp ?_
  rw [unsortableScore, sortableScore, getU64_u64_append]
  refine (unsortBits_toNat _).trans ?_
  rw [sortBits_toNat]
  split <;> split <;> omega

/-- Eight bytes are the sort key of the score read off them, whatever follows. -/
theorem sortableScore_unsortableScore {b : Bytes} (h : ¬ b.length < 8) :
    sortableScore (unsortableScore b) ++ b.drop 8 = b := by
  have hlt := (getU64 b).toNat_lt
  have hbits : (if unsortableScore b &&& signBit ≠ 0 then ~~~unsortableScore b
      else unsortableScore b ||| signBit) = getU64 b := by
    refine UInt64.toNat_inj.mp ((sortBits_toNat _).trans ?_)
    have hun : (unsortableScore b).toNat = _ := unsortBits_toNat (getU64 b)
    rw [hun]
    split <;> split <;> omega
  rw [sortableScore, hbits, u64_getU64_drop h]

/-- Where a score's sort key is among all. -/
def sortPlace (a : UInt64) : Nat :=
  if 2 ^ 63 ≤ a.toNat then 2 ^ 64 - 1 - a.toNat else a.toNat + 2 ^ 63

/-- Sort keys order as the numbers, -0 before 0. -/
theorem sortPlace_lt_iff {a b : UInt64} (ha : ¬ IsNaN a) (hb : ¬ IsNaN b) :
    sortPlace a < sortPlace b ↔ value a < value b ∨ a = signBit ∧ b = 0 := by
  have hzero : ∀ x : UInt64, x = signBit ↔ x.toNat = 2 ^ 63 := fun x => by
    rw [← UInt64.toNat_inj, signBit_toNat]
  have hzero' : b = 0 ↔ b.toNat = 0 := by
    rw [← UInt64.toNat_inj]
    rfl
  have hlta := a.toNat_lt
  have hltb := b.toNat_lt
  rw [value_lt_iff ha hb, hzero, hzero', sortPlace, sortPlace, place, place]
  split <;> split <;> omega

/-- Rows are ordered by score, then by member. -/
theorem compare_sortableScore_append {a b : UInt64} (m n : Bytes) :
    compare (sortableScore a ++ m) (sortableScore b ++ n) = .lt ↔
      sortPlace a < sortPlace b ∨ a = b ∧ compare m n = .lt := by
  have hkey : ∀ x y : UInt64, sortPlace x < sortPlace y → ∀ r t : Bytes,
      compare (sortableScore x ++ r) (sortableScore y ++ t) = .lt := fun x y h =>
    compare_u64_append (by rwa [sortBits_toNat, sortBits_toNat])
  rcases lt_trichotomy (sortPlace a) (sortPlace b) with h | h | h
  · simp [hkey a b h, h]
  · obtain rfl : a = b := by
      refine sortableScore_inj.mp (congrArg u64 (UInt64.toNat_inj.mp ?_))
      rwa [sortBits_toNat, sortBits_toNat]
    simp [compare_append_left]
  · have hne : a ≠ b := fun heq => absurd h (heq ▸ lt_irrefl _)
    simp [Std.OrientedCmp.gt_iff_lt.mpr (hkey b a h n m), hne, h.not_gt]

/-! ## Listings -/

section
variable {s : UInt64} {st : Store} {pfx ns coll : Bytes}

/-- A scan goes up in the keys. -/
theorem pairwise_scanSuffixes :
    (scanSuffixes st pfx 0).Pairwise fun x y => compare x.1 y.1 = .lt := by
  have hrows : (scan st pfx (prefixEnd pfx) 0).Pairwise fun x y => compare x.1 y.1 = .lt :=
    st.ordered_keys_toList.filter _
  refine List.pairwise_map.mpr (hrows.imp_of_mem fun hx hy hlt => ?_)
  obtain ⟨-, tx, hx⟩ := mem_scan_iff.mp hx
  obtain ⟨-, ty, hy⟩ := mem_scan_iff.mp hy
  rw [← hx, ← hy, compare_append_left] at hlt
  rw [← hx, ← hy, List.drop_left, List.drop_left]
  exact hlt

def scoredOf (r : Bytes × Bytes) : Option (Bytes × UInt64) :=
  if r.1.length < 8 then none else some (r.1.drop 8, unsortableScore r.1)

theorem scoredOf_eq_some {r : Bytes × Bytes} {x : Bytes × UInt64} :
    scoredOf r = some x ↔ r.1 = sortableScore x.2 ++ x.1 := by
  rw [scoredOf, Option.ite_none_left_eq_some, Option.some.injEq]
  constructor
  · rintro ⟨hlen, rfl⟩
    exact (sortableScore_unsortableScore hlen).symm
  · intro h
    refine ⟨?_, Prod.ext ?_ ?_⟩
    · rw [h, List.length_append, length_sortableScore]
      omega
    · show r.1.drop 8 = x.1
      rw [h, sortableScore, drop_u64_append]
    · show unsortableScore r.1 = x.2
      rw [h, unsortableScore_sortableScore_append]

def listing (s : UInt64) (st : Store) (ns coll : Bytes) : List (Bytes × UInt64) :=
  (scanSuffixes st (elemPrefix s ns coll) 0).filterMap scoredOf

/-- A listing has the rows of the score index. -/
theorem mem_listing {m : Bytes} {score : UInt64} :
    (m, score) ∈ listing s st ns coll ↔ zscoreKey s ns coll score m ∈ st := by
  simp only [listing, List.mem_filterMap, scoredOf_eq_some, Prod.exists, mem_scanSuffixes_iff,
    mem_iff_exists, zscoreKey, List.append_assoc]
  constructor
  · rintro ⟨suffix, v, hrow, rfl⟩
    exact ⟨v, hrow⟩
  · rintro ⟨v, hrow⟩
    exact ⟨_, v, hrow, rfl⟩

/-- A listing goes up in score and member. -/
theorem pairwise_listing :
    (listing s st ns coll).Pairwise fun x y =>
      sortPlace x.2 < sortPlace y.2 ∨ x.2 = y.2 ∧ compare x.1 y.1 = .lt := by
  refine List.pairwise_filterMap.mpr (pairwise_scanSuffixes.imp fun hlt x hx y hy => ?_)
  rw [scoredOf_eq_some.mp hx, scoredOf_eq_some.mp hy] at hlt
  exact (compare_sortableScore_append _ _).mp hlt

/-- A limited listing is the start of the whole. -/
theorem lookup_zRange (limit : Int) :
    ∃ l, lookup s st (.zRange ns coll limit) = .ok (.scored l) ∧ l <+: listing s st ns coll := by
  refine ⟨_, rfl, List.IsPrefix.filterMap _ (List.IsPrefix.map _ ?_)⟩
  show (if 0 < limit then _ else _) <+: _
  split
  · exact List.take_prefix _ _
  · exact List.prefix_rfl

end

end WaveSpan.Collections
