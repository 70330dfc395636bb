/-
WaveSpan.Lib.Varint — base-128 numbers and strings behind their length.

`putUvarint` spells a number in groups of seven bits, lowest first, every byte
but the last with its top bit set. `getUvarint` reads one back off the front of a
buffer and refuses more than ten groups or a number beyond 64 bits.

A string behind its length (`lenPrefix`) is prefix-free: two buffers that start
with one agree exactly when the strings and the remainders agree
(`lenPrefix_append_inj`), so a key built from such strings can be taken apart
again.
-/
import WaveSpan.Lib.Wire

namespace WaveSpan.Wire

/-- A number in groups of seven bits, lowest first. -/
def putUvarint (n : Nat) : Bytes :=
  if n < 128 then [UInt8.ofNat n]
  else UInt8.ofNat (n % 128 + 128) :: putUvarint (n / 128)

def readGroups : Nat → Bytes → Option (Nat × Bytes)
  | 0, _ => none
  | _ + 1, [] => none
  | k + 1, b :: rest =>
    if b < 0x80 then
      -- the tenth group holds the one bit left of a 64-bit number
      if k = 0 ∧ 1 < b then none else some (b.toNat, rest)
    else (readGroups k rest).map fun r => (b.toNat - 128 + 128 * r.1, r.2)

/-- The 64-bit number at the front of a buffer and what follows it. -/
def getUvarint (b : Bytes) : Option (Nat × Bytes) := readGroups 10 b

theorem toNat_group {n : Nat} (h : n < 256) : (UInt8.ofNat n).toNat = n := by
  rw [UInt8.toNat_ofNat']
  omega

/-- Below 128 the spelling is the one byte. -/
theorem putUvarint_of_lt {n : Nat} (h : n < 128) : putUvarint n = [UInt8.ofNat n] := by
  rw [putUvarint, if_pos h]

/-- Numbers are prefix-free: two buffers that start with one agree exactly when
the numbers and the remainders agree. -/
theorem putUvarint_append_inj {m n : Nat} {r s : Bytes} :
    putUvarint m ++ r = putUvarint n ++ s ↔ m = n ∧ r = s := by
  constructor
  · intro h
    induction m using Nat.strong_induction_on generalizing n with
    | _ m ih =>
      rw [putUvarint, putUvarint.eq_def n] at h
      by_cases hm : m < 128
      · by_cases hn : n < 128
        · simp only [if_pos hm, if_pos hn, List.cons_append, List.nil_append,
            List.cons.injEq] at h
          have hv := congrArg UInt8.toNat h.1
          rw [toNat_group (by omega), toNat_group (by omega)] at hv
          exact ⟨hv, h.2⟩
        · simp only [if_pos hm, if_neg hn, List.cons_append, List.nil_append,
            List.cons.injEq] at h
          have hv := congrArg UInt8.toNat h.1
          rw [toNat_group (by omega), toNat_group (by omega)] at hv
          omega
      · by_cases hn : n < 128
        · simp only [if_neg hm, if_pos hn, List.cons_append, List.nil_append,
            List.cons.injEq] at h
          have hv := congrArg UInt8.toNat h.1
          rw [toNat_group (by omega), toNat_group (by omega)] at hv
          omega
        · simp only [if_neg hm, if_neg hn, List.cons_append, List.cons.injEq] at h
          have hv := congrArg UInt8.toNat h.1
          rw [toNat_group (by omega), toNat_group (by omega)] at hv
          obtain ⟨hdiv, hrest⟩ := ih (m / 128) (by omega) h.2
          exact ⟨by omega, hrest⟩
  · rintro ⟨rfl, rfl⟩
    rfl

/-- A spelled number is read back as long as the groups allowed hold it. -/
theorem readGroups_putUvarint (k n : Nat) (rest : Bytes) (h : n < 2 * 128 ^ k) :
    readGroups (k + 1) (putUvarint n ++ rest) = some (n, rest) := by
  induction k generalizing n with
  | zero =>
    have hn : n < 128 := by omega
    have hb : (UInt8.ofNat n) < 0x80 := UInt8.lt_iff_toNat_lt.mpr (by
      rw [toNat_group (by omega)]; exact hn)
    have hle : ¬ 1 < UInt8.ofNat n := by
      rw [UInt8.lt_iff_toNat_lt, toNat_group (by omega)]
      show ¬ 1 < n
      omega
    rw [putUvarint_of_lt hn, List.singleton_append, readGroups, if_pos hb,
      if_neg (fun hc => hle hc.2), toNat_group (by omega)]
  | succ k ih =>
    rw [putUvarint]
    by_cases hn : n < 128
    · have hb : (UInt8.ofNat n) < 0x80 := UInt8.lt_iff_toNat_lt.mpr (by
        rw [toNat_group (by omega)]; exact hn)
      rw [if_pos hn, List.singleton_append, readGroups, if_pos hb, if_neg (by simp),
        toNat_group (by omega)]
    · have hb : ¬ (UInt8.ofNat (n % 128 + 128)) < 0x80 := by
        rw [UInt8.lt_iff_toNat_lt, toNat_group (by omega)]
        show ¬ n % 128 + 128 < 128
        omega
      rw [if_neg hn, List.cons_append, readGroups, if_neg hb,
        ih (n / 128) (by rw [Nat.pow_succ] at h; omega), Option.map_some,
        toNat_group (by omega)]
      simp only [Option.some.injEq, Prod.mk.injEq, and_true]
      omega

/-- A varint is read back. -/
theorem getUvarint_putUvarint {n : Nat} (rest : Bytes) (h : n < 2 ^ 64) :
    getUvarint (putUvarint n ++ rest) = some (n, rest) :=
  readGroups_putUvarint 9 n rest (by omega)

/-! ## Strings behind their length -/

def lenPrefix (b : Bytes) : Bytes := putUvarint b.length ++ b

/-- The string behind its length at the front of a buffer, and what follows. -/
def takeLenPrefix (b : Bytes) : Option (Bytes × Bytes) := do
  let (n, rest) ← getUvarint b
  if rest.length < n then none else some (rest.take n, rest.drop n)

/-- A string behind its length is prefix-free. -/
theorem lenPrefix_append_inj {x y r s : Bytes} :
    lenPrefix x ++ r = lenPrefix y ++ s ↔ x = y ∧ r = s := by
  constructor
  · intro h
    rw [lenPrefix, lenPrefix, List.append_assoc, List.append_assoc,
      putUvarint_append_inj] at h
    exact List.append_inj h.2 h.1
  · rintro ⟨rfl, rfl⟩
    rfl

theorem lenPrefix_inj {x y : Bytes} : lenPrefix x = lenPrefix y ↔ x = y := by
  have h := lenPrefix_append_inj (x := x) (y := y) (r := []) (s := [])
  simpa using h

/-- A buffer that starts with a string behind its length is extended only by
buffers that start with the same string. -/
theorem lenPrefix_append_prefix {x y r s : Bytes} :
    lenPrefix x ++ r <+: lenPrefix y ++ s ↔ x = y ∧ r <+: s := by
  constructor
  · rintro ⟨t, ht⟩
    rw [List.append_assoc, lenPrefix_append_inj] at ht
    exact ⟨ht.1, t, ht.2⟩
  · rintro ⟨rfl, t, rfl⟩
    exact ⟨t, List.append_assoc _ _ _⟩

theorem lenPrefix_prefix {x y s : Bytes} : lenPrefix x <+: lenPrefix y ++ s ↔ x = y := by
  have h := lenPrefix_append_prefix (x := x) (y := y) (r := []) (s := s)
  simpa using h

/-- A string is read back from behind its length. -/
theorem takeLenPrefix_lenPrefix {x : Bytes} (rest : Bytes) (h : x.length < 2 ^ 64) :
    takeLenPrefix (lenPrefix x ++ rest) = some (x, rest) := by
  unfold takeLenPrefix lenPrefix
  rw [List.append_assoc, getUvarint_putUvarint _ h]
  simp

end WaveSpan.Wire
