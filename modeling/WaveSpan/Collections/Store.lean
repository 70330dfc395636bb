/-
WaveSpan.Collections.Store — the local store one shard's state machine applies
into (`internal/storage/store.go`, `mem_store.go`).

All reads and writes of the replicated-collections tier go to one column family,
so a store is one ordered table from byte keys to byte values. `batchRC` is the
atomic batch write: the ops take effect in order, a later op on a key winning
over an earlier one. `scan` is the forward iterator over `[start, end)` in byte
order, `end = none` standing for no upper bound and a positive limit cutting the
rows off.

`prefixEnd` is the bound that turns a range scan into a scan of one key prefix;
`inRange_prefixEnd` says exactly that.
-/
import WaveSpan.Lib.Wire
import WaveSpan.Lib.Rows

namespace WaveSpan.Collections

open WaveSpan.Wire WaveSpan.Rows

/-- The rows of the replicated-data column family. -/
abbrev Store := Std.ExtTreeMap Bytes Bytes compare

abbrev GoMap (ν : Type) := Std.ExtTreeMap Bytes ν compare

/-- A single write within an atomic batch. -/
abbrev StoreOp := Op Bytes Bytes

def batchRC (st : Store) (ops : List StoreOp) : Store := runOps st ops

/-- The smallest key strictly greater than every key with the given prefix;
`none` when there is no such key. -/
def prefixEnd : Bytes → Option Bytes
  | [] => none
  | b :: bs =>
    match prefixEnd bs with
    | some e => some (b :: e)
    | none => if b = 0xff then none else some [b + 1]

/-- Whether a key lies in `[start, stop)`; a missing `stop` is no upper bound. -/
def inRange (start : Bytes) (stop : Option Bytes) (k : Bytes) : Bool :=
  (compare k start).isGE &&
    match stop with
    | none => true
    | some e => (compare k e).isLT

def scan (st : Store) (start : Bytes) (stop : Option Bytes) (limit : Int) :
    List (Bytes × Bytes) :=
  let rows := st.toList.filter (fun r => inRange start stop r.1)
  if 0 < limit then rows.take limit.toNat else rows

/-! ## Prefix scans -/

theorem compare_cons_cons (a b : UInt8) (as bs : Bytes) :
    compare (a :: as) (b :: bs) = (compare a b).then (compare as bs) := by
  simp [List.compare_eq_compareLex]

theorem compare_nil_ne_lt (cs : Bytes) : compare cs ([] : Bytes) ≠ .lt := by
  cases cs <;> simp

theorem compare_byte_lt {a b : UInt8} : compare a b = .lt ↔ a.toNat < b.toNat := by
  rw [Std.compare_eq_lt, UInt8.lt_iff_toNat_lt]

/-- No byte but `0xff` is the largest: its successor is the next number up. -/
theorem toNat_succ_of_ne {b : UInt8} (h : b ≠ 0xff) : (b + 1).toNat = b.toNat + 1 := by
  have h1 := b.toNat_lt
  have h2 : b.toNat ≠ 255 := fun hb => h (UInt8.toNat_inj.mp (by simpa using hb))
  rw [UInt8.toNat_add]
  simp only [UInt8.reduceToNat]
  omega

/-- A range scan up to `prefixEnd` reads exactly the keys with the prefix. -/
theorem inRange_prefixEnd (p k : Bytes) :
    inRange p (prefixEnd p) k = true ↔ p <+: k := by
  induction p generalizing k with
  | nil =>
    have hge : (compare k ([] : Bytes)).isGE = true := by
      cases k <;> simp
    simp [inRange, prefixEnd, hge]
  | cons b bs ih =>
    cases k with
    | nil => simp [inRange]
    | cons c cs =>
      rw [List.cons_prefix_cons, ← ih cs]
      unfold inRange
      rw [prefixEnd, compare_cons_cons]
      -- the head bytes decide unless they agree; then the tail's bound does
      cases hc : compare c b with
      | lt =>
        have hne : b ≠ c := fun h => by simp [h] at hc
        simp [hne]
      | eq =>
        have heq : c = b := Std.LawfulEqCmp.compare_eq_iff_eq.mp hc
        subst heq
        cases hbs : prefixEnd bs with
        | some e => simp
        | none =>
          by_cases hff : c = 0xff
          · simp [hff]
          · have hlt : compare c (c + 1) = .lt :=
              compare_byte_lt.mpr (by rw [toNat_succ_of_ne hff]; omega)
            simp [hff, hlt]
      | gt =>
        have hne : b ≠ c := fun h => by simp [h] at hc
        have hgt : b.toNat < c.toNat := by
          rw [← compare_byte_lt]; exact Std.OrientedCmp.gt_iff_lt.mp hc
        cases hbs : prefixEnd bs with
        | some e => simp [hc, hne]
        | none =>
          by_cases hff : b = 0xff
          · have := c.toNat_lt
            simp [hff] at hgt
            omega
          · -- the bound is `[b + 1]`, and `c` is at least `b + 1`
            have hnlt : compare c (b + 1) ≠ .lt := by
              rw [ne_eq, compare_byte_lt, toNat_succ_of_ne hff]; omega
            have hnil := compare_nil_ne_lt cs
            cases h1 : compare c (b + 1) with
            | lt => exact absurd h1 hnlt
            | gt => simp [hff, h1, hne]
            | eq =>
              cases h2 : compare cs ([] : Bytes) with
              | lt => exact absurd h2 hnil
              | eq => simp [hff, h1, h2, hne]
              | gt => simp [hff, h1, h2, hne]

/-- Behind a common prefix, byte strings compare as what follows it. -/
theorem compare_append_left (p a b : Bytes) : compare (p ++ a) (p ++ b) = compare a b := by
  induction p with
  | nil => rfl
  | cons c p ih =>
    rw [List.cons_append, List.cons_append, compare_cons_cons, ih]
    simp

/-- The first key of a prefix is the prefix itself. -/
theorem isGE_append (p a : Bytes) : (compare (p ++ a) p).isGE = true := by
  have h : compare (p ++ a) (p ++ []) = compare a [] := compare_append_left p a []
  rw [List.append_nil] at h
  rw [h]
  cases a <;> simp

/-- Big-endian numbers sort as numbers, whatever follows them. -/
theorem compare_beBytes_append {k m n : Nat} (h : m % 256 ^ k < n % 256 ^ k) (r s : Bytes) :
    compare (beBytes k m ++ r) (beBytes k n ++ s) = .lt := by
  induction k with
  | zero => simp [Nat.mod_one] at h
  | succ k ih =>
    have hdigit : ∀ x : Nat, (UInt8.ofNat (x / 256 ^ k)).toNat = x / 256 ^ k % 256 := by
      simp [UInt8.toNat_ofNat']
    simp only [beBytes, List.cons_append, compare_cons_cons]
    rw [Nat.pow_succ, Nat.mod_mul, Nat.mod_mul] at h
    rcases lt_trichotomy (m / 256 ^ k % 256) (n / 256 ^ k % 256) with hlt | heq | hgt
    · rw [compare_byte_lt.mpr (by rw [hdigit, hdigit]; exact hlt)]
      rfl
    · have hbyte : UInt8.ofNat (m / 256 ^ k) = UInt8.ofNat (n / 256 ^ k) :=
        UInt8.toNat_inj.mp (by rw [hdigit, hdigit, heq])
      rw [hbyte, Std.compare_self]
      exact ih (by rw [heq] at h; exact Nat.lt_of_add_lt_add_right h)
    · -- a larger digit outweighs everything below it
      have hm : m % 256 ^ k < 256 ^ k := Nat.mod_lt _ (Nat.pow_pos (by decide))
      have hn : n % 256 ^ k < 256 ^ k := Nat.mod_lt _ (Nat.pow_pos (by decide))
      have hstep : 256 ^ k * (n / 256 ^ k % 256) + 256 ^ k ≤ 256 ^ k * (m / 256 ^ k % 256) := by
        rw [← Nat.mul_succ]
        exact Nat.mul_le_mul_left _ hgt
      omega

/-- Numbers compare as their bytes do. -/
theorem compare_u64_append {m n : UInt64} (h : m.toNat < n.toNat) (r s : Bytes) :
    compare (u64 m ++ r) (u64 n ++ s) = .lt := by
  have hwidth : ∀ x : UInt64, x.toNat % 256 ^ 8 = x.toNat := fun x =>
    Nat.mod_eq_of_lt x.toNat_lt
  unfold u64
  exact compare_beBytes_append (by rw [hwidth, hwidth]; exact h) r s

/-- Between two keys of one prefix lie only keys of that prefix. -/
theorem inRange_append (p start k : Bytes) (stop : Option Bytes) :
    inRange (p ++ start)
        (match stop with | none => prefixEnd p | some e => some (p ++ e)) k = true ↔
      ∃ u, k = p ++ u ∧ inRange start stop u = true := by
  -- whatever the bounds, a key between them is one of the prefix's own
  have hprefix : inRange (p ++ start)
      (match stop with | none => prefixEnd p | some e => some (p ++ e)) k = true → p <+: k := by
    intro h
    rw [← inRange_prefixEnd]
    unfold inRange at h ⊢
    rw [Bool.and_eq_true] at h ⊢
    refine ⟨Std.TransCmp.isGE_trans h.1 (isGE_append p start), ?_⟩
    cases stop with
    | none => exact h.2
    | some e =>
      have hin := (inRange_prefixEnd p (p ++ e)).mpr (List.prefix_append p e)
      unfold inRange at hin
      rw [Bool.and_eq_true] at hin
      cases hp : prefixEnd p with
      | none => rfl
      | some b =>
        rw [hp] at hin
        simp only [Ordering.isLT_iff_eq_lt] at h hin ⊢
        exact Std.TransCmp.lt_trans h.2 hin.2
  constructor
  · intro h
    obtain ⟨u, rfl⟩ := hprefix h
    refine ⟨u, rfl, ?_⟩
    unfold inRange at h ⊢
    rw [compare_append_left] at h
    cases stop with
    | none => simp only [Bool.and_true, Bool.and_eq_true] at h ⊢; exact h.1
    | some e => simpa only [compare_append_left] using h
  · rintro ⟨u, rfl, h⟩
    unfold inRange at h ⊢
    rw [compare_append_left]
    cases stop with
    | none =>
      have hin := (inRange_prefixEnd p (p ++ u)).mpr (List.prefix_append p u)
      unfold inRange at hin
      simp only [Bool.and_true, Bool.and_eq_true] at h hin ⊢
      exact ⟨h, hin.2⟩
    | some e => simpa only [compare_append_left] using h

/-- The rows under a key prefix. -/
theorem mem_scan_iff {st : Store} {p : Bytes} {r : Bytes × Bytes} :
    r ∈ scan st p (prefixEnd p) 0 ↔ st[r.1]? = some r.2 ∧ p <+: r.1 := by
  obtain ⟨k, v⟩ := r
  simp [scan, List.mem_filter, Std.ExtTreeMap.mem_toList_iff_getElem?_eq_some,
    inRange_prefixEnd]

end WaveSpan.Collections
