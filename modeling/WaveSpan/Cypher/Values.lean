/-
WaveSpan.Cypher.Values — comparing values and telling rows apart
(`internal/cypher/planner/eval.go` `compareValues`, `valueKey`; `executor.go` `project`).

Two numbers are compared as floats, other values by a key that starts with a letter for their
type. On integers, booleans, strings, byte strings and null that is one lexicographic order, by
letter, place among the floats and text (`compareValues_eq`), so it is a total preorder. Floats
keep the order of the integers (`intPlace_mono`) and tell them apart up to 2^53; above, neighbours
may be level.

`DISTINCT` knows a row by its values' keys, each followed by the byte 0x1f. Lists and maps all
have the key of null, and a string may hold the byte, so rows that differ can be taken for one
(`distinct_loses_rows`). Where rows that share a key are the same, the rows kept are the first
occurrences of the different ones (`distinct_exact`); plain values without the byte are told apart
by their keys (`rowKey_inj`), and so is a single plain value.
-/
import WaveSpan.Cypher.Exec
import WaveSpan.Collections.Counters
import WaveSpan.Lib.Rows
import Mathlib.Data.List.Nodup
import Mathlib.Data.Nat.Bitwise

namespace WaveSpan.Cypher

open WaveSpan.Wire WaveSpan.Graph
open WaveSpan.Collections (GoMap ascii formatInt parseInt parseDigits digit? signBit
  parseInt_formatInt)

/-! ## Integers as floats -/

/-- A larger number has no fewer units. -/
theorem roundEven_mono {a b unit : Nat} (hab : a ≤ b) : roundEven a unit ≤ roundEven b unit := by
  have hq : a / unit ≤ b / unit := Nat.div_le_div_right hab
  have ha := Nat.div_add_mod a unit
  have hb := Nat.div_add_mod b unit
  unfold roundEven
  dsimp only
  rcases Nat.lt_or_ge (a / unit) (b / unit) with hlt | hge
  · split <;> split <;> omega
  · -- the same quotient, so the remainders are ordered
    have hsame : a / unit = b / unit := by omega
    rw [hsame] at ha ⊢
    generalize unit * (b / unit) = base at ha hb
    split <;> split <;> omega

/-- Rounding moves by less than one unit. -/
theorem roundEven_bounds (n unit : Nat) :
    n / unit ≤ roundEven n unit ∧ roundEven n unit ≤ n / unit + 1 := by
  unfold roundEven
  dsimp only
  split <;> omega

/-- The exponent and mantissa of a number's float; the mantissa has 53 bits, or is the next
power of two. -/
theorem floatOfNat_parts {n : Nat} (hn : n ≠ 0) (hlt : n ≤ 2 ^ 63) :
    ∃ m, 2 ^ 52 ≤ m ∧ m ≤ 2 ^ 53 ∧ (floatOfNat n).toNat = (n.log2 + 1022) * 2 ^ 52 + m ∧
      (n.log2 ≤ 52 → m = n * 2 ^ (52 - n.log2) ∧ m < 2 ^ 53) ∧
      (52 < n.log2 → m = roundEven n (2 ^ (n.log2 - 52))) := by
  have hlow := Nat.log2_self_le hn
  have hhigh : n < 2 ^ (n.log2 + 1) := Nat.lt_log2_self
  have hexp : n.log2 < 64 := (Nat.log2_lt hn).mpr (by omega)
  unfold floatOfNat
  simp only [if_neg hn]
  generalize he : n.log2 = e at *
  by_cases hsmall : e ≤ 52
  · simp only [if_pos hsmall]
    have hpow : 2 ^ e * 2 ^ (52 - e) = 2 ^ 52 := by rw [← Nat.pow_add]; congr 1; omega
    have hlo : 2 ^ 52 ≤ n * 2 ^ (52 - e) := hpow ▸ Nat.mul_le_mul_right _ hlow
    have hhi : n * 2 ^ (52 - e) < 2 ^ 53 := by
      calc n * 2 ^ (52 - e) < 2 ^ (e + 1) * 2 ^ (52 - e) :=
            Nat.mul_lt_mul_of_pos_right hhigh (Nat.two_pow_pos _)
        _ = 2 ^ 53 := by rw [← Nat.pow_add]; congr 1; omega
    refine ⟨n * 2 ^ (52 - e), hlo, hhi.le, ?_, fun _ => ⟨rfl, hhi⟩, fun h => by omega⟩
    rw [UInt64.toNat_ofNat']
    omega
  · simp only [if_neg hsmall]
    have hpow : 2 ^ 52 * 2 ^ (e - 52) = 2 ^ e := by rw [← Nat.pow_add]; congr 1; omega
    have hpow' : 2 ^ 53 * 2 ^ (e - 52) = 2 ^ (e + 1) := by rw [← Nat.pow_add]; congr 1; omega
    have hlo : 2 ^ 52 ≤ n / 2 ^ (e - 52) :=
      (Nat.le_div_iff_mul_le (Nat.two_pow_pos _)).mpr (hpow ▸ hlow)
    have hhi : n / 2 ^ (e - 52) < 2 ^ 53 :=
      (Nat.div_lt_iff_lt_mul (Nat.two_pow_pos _)).mpr (hpow' ▸ hhigh)
    have hround := roundEven_bounds n (2 ^ (e - 52))
    refine ⟨roundEven n (2 ^ (e - 52)), by omega, by omega, ?_, fun h => absurd h hsmall,
      fun _ => rfl⟩
    rw [UInt64.toNat_ofNat']
    omega

theorem floatOfNat_le {n : Nat} (hlt : n ≤ 2 ^ 63) : (floatOfNat n).toNat < 2047 * 2 ^ 52 := by
  by_cases hn : n = 0
  · subst hn
    decide
  · obtain ⟨m, -, hm, hbits, -, -⟩ := floatOfNat_parts hn hlt
    have hexp : n.log2 < 64 := (Nat.log2_lt hn).mpr (by omega)
    omega

/-- A larger number has no smaller float, and up to 2^53 a larger one. -/
theorem floatOfNat_mono {a b : Nat} (hab : a < b) (hb : b ≤ 2 ^ 63) :
    (floatOfNat a).toNat ≤ (floatOfNat b).toNat ∧
      (b ≤ 2 ^ 53 → (floatOfNat a).toNat < (floatOfNat b).toNat) := by
  obtain ⟨m, hm, hm', hbits, hexact, hround⟩ := floatOfNat_parts (n := b) (by omega) hb
  by_cases ha : a = 0
  · subst ha
    have : (floatOfNat 0).toNat = 0 := rfl
    omega
  obtain ⟨k, hk, hk', hbits', hexact', hround'⟩ := floatOfNat_parts ha (by omega)
  have hlog : a.log2 ≤ b.log2 :=
    (Nat.le_log2 (by omega)).mpr ((Nat.log2_self_le ha).trans hab.le)
  rcases Nat.lt_or_ge a.log2 b.log2 with hlt | hge
  · refine ⟨by omega, fun hsmall => ?_⟩
    -- The mantissa of `a` is exact, so it is below the next power of two.
    have := (Nat.log2_lt ha).mpr (show a < 2 ^ 53 by omega)
    have := (hexact' (by omega)).2
    omega
  have hsame : a.log2 = b.log2 := by omega
  rcases Nat.lt_or_ge 52 b.log2 with hbig | hsmall
  · have hkm : k ≤ m := by
      rw [hround' (hsame ▸ hbig), hround hbig, hsame]
      exact roundEven_mono hab.le
    have hlow := Nat.log2_self_le ha
    have hpow : 2 ^ 53 ≤ 2 ^ a.log2 := Nat.pow_le_pow_right (by decide) (by omega)
    exact ⟨by omega, fun h => by omega⟩
  · have hkm : k < m := by
      rw [(hexact' (hsame ▸ hsmall)).1, (hexact hsmall).1, ← hsame]
      exact Nat.mul_lt_mul_of_pos_right hab (Nat.two_pow_pos _)
    exact ⟨by omega, fun _ => by omega⟩

/-- A float's magnitude and sign, from its bits. -/
theorem floatPlace_eq {x : UInt64} (hx : x.toNat < 2 ^ 63) :
    floatPlace x = x.toNat ∧ floatPlace (signBit ||| x) = -x.toNat := by
  have hmask (y : UInt64) : (y &&& 0x7fffffffffffffff).toNat = y.toNat % 2 ^ 63 := by
    rw [UInt64.toNat_and]
    exact Nat.and_two_pow_sub_one_eq_mod _ 63
  have hor : (signBit ||| x).toNat = 2 ^ 63 + x.toNat := by
    rw [UInt64.toNat_or]
    exact (Nat.two_pow_add_eq_or_of_lt hx 1).symm
  have hsign (y : UInt64) : y &&& signBit ≠ 0 ↔ 2 ^ 63 ≤ y.toNat := by
    have hbit : (y &&& signBit).toNat = y.toNat / 2 ^ 63 % 2 * 2 ^ 63 := by
      rw [UInt64.toNat_and]
      refine (Nat.and_two_pow y.toNat 63).trans ?_
      rw [Nat.testBit_eq_decide_div_mod_eq]
      rcases Nat.mod_two_eq_zero_or_one (y.toNat / 2 ^ 63) with h | h <;> rw [h] <;> rfl
    have hlt := y.toNat_lt
    rw [Ne, ← UInt64.toNat_inj, hbit, UInt64.toNat_zero]
    omega
  refine ⟨?_, ?_⟩
  · rw [floatPlace, hmask, if_neg (by rw [hsign]; omega), Nat.mod_eq_of_lt hx]
  · rw [floatPlace, hmask, if_pos (by rw [hsign, hor]; omega), hor]
    congr 2
    omega

def intPlace (i : Int64) : Int := floatPlace (floatOfInt i)

theorem natAbs_le (i : Int64) : i.toInt.natAbs ≤ 2 ^ 63 := by
  have := i.le_toInt
  have := i.toInt_lt
  omega

theorem intPlace_eq (i : Int64) :
    intPlace i = if i.toInt < 0 then -((floatOfNat i.toInt.natAbs).toNat : Int)
      else (floatOfNat i.toInt.natAbs).toNat := by
  have hlt := floatOfNat_le (natAbs_le i)
  have hplace := floatPlace_eq (x := floatOfNat i.toInt.natAbs) (by omega)
  unfold intPlace floatOfInt
  split
  · exact hplace.2
  · exact hplace.1

/-- The floats keep the order of the integers, and up to 2^53 tell them apart. -/
theorem intPlace_mono {i j : Int64} (hij : i.toInt < j.toInt) : intPlace i ≤ intPlace j ∧
    (i.toInt.natAbs ≤ 2 ^ 53 → j.toInt.natAbs ≤ 2 ^ 53 → intPlace i < intPlace j) := by
  have hi := natAbs_le i
  have hj := natAbs_le j
  have habs := @floatOfNat_mono i.toInt.natAbs j.toInt.natAbs
  have habs' := @floatOfNat_mono j.toInt.natAbs i.toInt.natAbs
  have hpos := @floatOfNat_mono 0 i.toInt.natAbs
  have hzero : (floatOfNat 0).toNat = 0 := rfl
  rw [intPlace_eq, intPlace_eq]
  constructor
  · split <;> split <;> omega
  · intro hi' hj'
    split <;> split <;> omega

/-- Integers at one place have one float. -/
theorem intPlace_eq_iff {i j : Int64} :
    intPlace i = intPlace j ↔ floatOfInt i = floatOfInt j := by
  refine ⟨fun h => ?_, fun h => by rw [intPlace, intPlace, h]⟩
  have hpos : ∀ k : Int64, k.toInt < 0 → 0 < (floatOfNat k.toInt.natAbs).toNat := by
    intro k hk
    obtain ⟨m, hm, -, hbits, -, -⟩ := floatOfNat_parts (n := k.toInt.natAbs)
        (by omega) (natAbs_le k)
    omega
  rw [intPlace_eq, intPlace_eq] at h
  unfold floatOfInt
  split at h <;> rename_i hi <;> split at h <;> rename_i hj
  · rw [if_pos hi, if_pos hj, UInt64.toNat_inj.mp (Int.ofNat.inj (Int.neg_inj.mp h))]
  · have := hpos i hi
    omega
  · have := hpos j hj
    omega
  · rw [if_neg hi, if_neg hj, UInt64.toNat_inj.mp (Int.ofNat.inj h)]

/-- Integers are placed as they are ordered exactly if they have different floats. -/
theorem compare_intPlace {i j : Int64} :
    compare (intPlace i) (intPlace j) = compare i.toInt j.toInt ↔
      (floatOfInt i = floatOfInt j → i = j) := by
  rw [← intPlace_eq_iff]
  rcases lt_trichotomy i.toInt j.toInt with hlt | heq | hgt
  · rw [compare_lt_iff_lt.mpr hlt, compare_lt_iff_lt]
    have hmono := (intPlace_mono hlt).1
    refine ⟨fun h heq => absurd heq h.ne, fun h => hmono.lt_of_ne fun heq => ?_⟩
    rw [h heq] at hlt
    exact lt_irrefl _ hlt
  · rw [Int64.toInt_inj.mp heq]
    simp
  · rw [compare_gt_iff_gt.mpr hgt, compare_gt_iff_gt]
    have hmono := (intPlace_mono hgt).1
    refine ⟨fun h heq => absurd heq h.ne', fun h => hmono.lt_of_ne fun heq => ?_⟩
    rw [h heq.symm] at hgt
    exact lt_irrefl _ hgt

/-- Up to 2^53 an integer is known from its float. -/
theorem floatOfInt_inj {i j : Int64} (hi : i.toInt.natAbs ≤ 2 ^ 53)
    (hj : j.toInt.natAbs ≤ 2 ^ 53) (h : floatOfInt i = floatOfInt j) : i = j := by
  rw [← intPlace_eq_iff] at h
  rcases lt_trichotomy i.toInt j.toInt with hlt | heq | hgt
  · exact absurd h ((intPlace_mono hlt).2 hi hj).ne
  · exact Int64.toInt_inj.mp heq
  · exact absurd h ((intPlace_mono hgt).2 hj hi).ne'

/-- No integer is a NaN. -/
theorem isNaN_floatOfInt (i : Int64) : isNaN (floatOfInt i) = false := by
  have hmagnitude : (floatPlace (floatOfInt i)).natAbs =
      (floatOfInt i &&& 0x7fffffffffffffff).toNat := by
    unfold floatPlace
    dsimp only
    split <;> simp
  have hlt := floatOfNat_le (natAbs_le i)
  have hplace := intPlace_eq i
  rw [intPlace] at hplace
  rw [isNaN, decide_eq_false_iff_not, UInt64.not_lt, UInt64.le_iff_toNat_le, ← hmagnitude, hplace]
  have : (0x7ff0000000000000 : UInt64).toNat = 2047 * 2 ^ 52 := rfl
  split <;> omega

/-- Integers are compared as the floats they are converted to. -/
theorem compareValues_int (fl : FloatOps) (i j : Int64) :
    compareValues fl (.int i) (.int j) = compare (intPlace i) (intPlace j) := by
  simp only [compareValues, asFloat, floatLt, isNaN_floatOfInt, Bool.not_false, Bool.true_and,
    decide_eq_true_eq]
  change (if intPlace i < intPlace j then Ordering.lt else
    if intPlace j < intPlace i then .gt else .eq) = _
  rcases lt_trichotomy (intPlace i) (intPlace j) with hlt | heq | hgt
  · rw [if_pos hlt, compare_lt_iff_lt.mpr hlt]
  · simp [heq]
  · rw [if_neg hgt.not_gt, if_pos hgt, compare_gt_iff_gt.mpr hgt]

/-! ## The order of plain values -/

inductive Plain : Value → Prop
  | null : Plain (.null true)
  | bool (b : Bool) : Plain (.bool b)
  | int (i : Int64) : Plain (.int i)
  | string (s : Bytes) : Plain (.string s)
  | bytes (b : Bytes) : Plain (.bytes b)

/-- The letter of a plain value's type, its place among the floats, and its text. -/
def orderKey : Value → UInt8 × Int × Bytes
  | .int i => (0x69, intPlace i, [])
  | .string s => (0x73, 0, s)
  | .bool b => (0x62, 0, ascii (if b then "true" else "false"))
  | .bytes b => (0x79, 0, b)
  | _ => (0x6e, 0, [])

def orderCmp : UInt8 × Int × Bytes → UInt8 × Int × Bytes → Ordering :=
  compareLex (compareOn (·.1)) (compareLex (compareOn (·.2.1)) (compareOn (·.2.2)))

instance : Std.TransCmp orderCmp := inferInstanceAs (Std.TransCmp (compareLex _ _))

variable (fl : FloatOps)

/-- A plain value's key starts with its letter; the rest of a key that is no number is its text. -/
theorem valueKey_eq {a : Value} (ha : Plain a) :
    ∃ t, valueKey fl a = (orderKey a).1 :: t ∧
      ((∃ i, a = .int i) ∧ (orderKey a).1 = 0x69 ∨
        asFloat a = none ∧ (orderKey a).1 ≠ 0x69 ∧ orderKey a = ((orderKey a).1, 0, t)) := by
  cases ha with
  | null => exact ⟨[], rfl, .inr ⟨rfl, by decide, rfl⟩⟩
  | bool b => exact ⟨_, rfl, .inr ⟨rfl, by simp [orderKey], rfl⟩⟩
  | int i => exact ⟨formatInt i, rfl, .inl ⟨⟨i, rfl⟩, rfl⟩⟩
  | string s => exact ⟨s, rfl, .inr ⟨rfl, by simp [orderKey], rfl⟩⟩
  | bytes b => exact ⟨b, rfl, .inr ⟨rfl, by simp [orderKey], rfl⟩⟩

/-- Plain values are compared by their keys. -/
theorem compareValues_eq {a b : Value} (ha : Plain a) (hb : Plain b) :
    compareValues fl a b = orderCmp (orderKey a) (orderKey b) := by
  obtain ⟨s, hs, hkind⟩ := valueKey_eq fl ha
  obtain ⟨t, ht, hkind'⟩ := valueKey_eq fl hb
  have hkeys : compare (valueKey fl a) (valueKey fl b) =
      (compare (orderKey a).1 (orderKey b).1).then (compare s t) := by
    rw [hs, ht, List.compare_eq_compareLex, List.compareLex_cons_cons]
  have horder : orderCmp (orderKey a) (orderKey b) =
      (compare (orderKey a).1 (orderKey b).1).then
        ((compare (orderKey a).2.1 (orderKey b).2.1).then
          (compare (orderKey a).2.2 (orderKey b).2.2)) := rfl
  -- Values of different types are told apart by the letter.
  have hdiffer : (orderKey a).1 ≠ (orderKey b).1 → (asFloat a).isNone ∨ (asFloat b).isNone →
      compareValues fl a b = orderCmp (orderKey a) (orderKey b) := by
    intro hne hone
    have hcmp : compare (orderKey a).1 (orderKey b).1 ≠ .eq := fun h =>
      hne (Std.LawfulEqCmp.eq_of_compare h)
    have hpath : compareValues fl a b = compare (valueKey fl a) (valueKey fl b) := by
      unfold compareValues
      split
      · simp_all
      · rfl
    rw [hpath, hkeys, horder]
    cases h : compare (orderKey a).1 (orderKey b).1 <;> simp_all
  rcases hkind with ⟨⟨i, rfl⟩, hletter⟩ | ⟨hnone, hletter, hkey⟩
  · rcases hkind' with ⟨⟨j, rfl⟩, hletter'⟩ | ⟨hnone', hletter', hkey'⟩
    · rw [compareValues_int, horder]
      simp [orderKey]
    · exact hdiffer (hletter ▸ hletter'.symm) (.inr (by simp [hnone']))
  · rcases hkind' with ⟨⟨j, rfl⟩, hletter'⟩ | ⟨hnone', hletter', hkey'⟩
    · exact hdiffer (hletter' ▸ hletter) (.inl (by simp [hnone]))
    · have hpath : compareValues fl a b = compare (valueKey fl a) (valueKey fl b) := by
        simp [compareValues, hnone]
      rw [hpath, hkeys, horder, hkey, hkey']
      simp

/-- Integers among the values have different floats if they differ. -/
def Apart (a b : Value) : Prop :=
  ∀ i j, a = .int i → b = .int j → floatOfInt i = floatOfInt j → i = j

/-- A plain value is known from its order key exactly if floats tell the integers apart. -/
theorem orderKey_inj {a b : Value} (ha : Plain a) (hb : Plain b) :
    (orderKey a = orderKey b → a = b) ↔ Apart a b := by
  constructor
  · rintro h i j rfl rfl heq
    refine Value.int.inj (h ?_)
    rw [orderKey, orderKey, intPlace_eq_iff.mpr heq]
  intro hapart h
  cases ha <;> cases hb <;> simp only [orderKey, Prod.mk.injEq] at h <;> try (simp at h; done)
  case null.null => rfl
  case bool.bool b b' =>
      have htext := h.2.2
      cases b <;> cases b' <;> first | rfl | exact absurd htext (by decide)
  case int.int i j => rw [hapart i j rfl rfl (intPlace_eq_iff.mp h.2.1)]
  case string.string => rw [h.2.2]
  case bytes.bytes => rw [h.2.2]

theorem orderCmp_eq_iff {k k' : UInt8 × Int × Bytes} : orderCmp k k' = .eq ↔ k = k' := by
  obtain ⟨x, y, z⟩ := k
  obtain ⟨x', y', z'⟩ := k'
  simp [orderCmp, compareLex, compareOn, Ordering.then_eq_eq]

/-! ## Keys of rows -/

theorem digit?_of_foldlM {ds : Bytes} {n k : Nat}
    (h : ds.foldlM (fun n d => (digit? d).map (n * 10 + ·)) n = some k) :
    ∀ d ∈ ds, (digit? d).isSome = true := by
  induction ds generalizing n with
  | nil => simp
  | cons d ds ih =>
    rw [List.foldlM_cons] at h
    obtain ⟨m, hm, hrest⟩ := Option.bind_eq_some_iff.mp h
    obtain ⟨v, hv, -⟩ := Option.map_eq_some_iff.mp hm
    intro d' hd'
    rcases List.mem_cons.mp hd' with rfl | htail
    · exact Option.isSome_of_eq_some hv
    · exact ih hrest d' htail

/-- A decimal text has digits and a sign in it, no separator. -/
theorem notMem_formatInt (i : Int64) : (0x1f : UInt8) ∉ formatInt i := by
  have hparse := parseInt_formatInt i
  intro hmem
  have hdigits : ∀ {ds : Bytes} {k}, parseDigits ds = some k → (0x1f : UInt8) ∉ ds := by
    intro ds k hk hsep
    rw [parseDigits] at hk
    split at hk
    · cases hk
    · exact absurd (digit?_of_foldlM hk _ hsep) (by decide)
  rw [parseInt] at hparse
  split at hparse
  · cases hparse
  · rename_i k hk
    refine hdigits hk ?_
    split
    · rename_i hsign
      cases htext : formatInt i with
      | nil => simp [htext] at hmem
      | cons c rest =>
        rw [htext] at hmem hsign
        rcases List.mem_cons.mp hmem with rfl | hrest
        · simp at hsign
        · simpa using hrest
    · exact hmem

def NoSep : Value → Prop
  | .string s => (0x1f : UInt8) ∉ s
  | .bytes b => (0x1f : UInt8) ∉ b
  | _ => True

theorem notMem_valueKey {a : Value} (ha : Plain a) (hsep : NoSep a) :
    (0x1f : UInt8) ∉ valueKey fl a := by
  have hcons (x : UInt8) {t : Bytes} (hx : x ≠ 0x1f) (ht : (0x1f : UInt8) ∉ t) :
      (0x1f : UInt8) ∉ x :: t := by
    rw [List.mem_cons, not_or]
    exact ⟨hx.symm, ht⟩
  cases ha with
  | null => exact hcons 0x6e (by decide) List.not_mem_nil
  | bool b => exact hcons 0x62 (by decide) (by cases b <;> decide)
  | int i => exact hcons 0x69 (by decide) (notMem_formatInt i)
  | string s => exact hcons 0x73 (by decide) hsep
  | bytes b => exact hcons 0x79 (by decide) hsep

/-- A value is read off its key. -/
theorem valueKey_inj {a b : Value} (ha : Plain a) (hb : Plain b)
    (h : valueKey fl a = valueKey fl b) : a = b := by
  cases ha <;> cases hb <;> simp only [valueKey] at h <;>
    try (simp [ascii] at h; done)
  case null.null => rfl
  case bool.bool b b' =>
      cases b <;> cases b' <;> first | rfl | exact absurd h (by decide)
  case int.int i j =>
      have htext := congrArg parseInt (List.append_cancel_left h)
      rw [parseInt_formatInt, parseInt_formatInt] at htext
      rw [Option.some.inj htext]
  case string.string => rw [List.append_cancel_left h]
  case bytes.bytes => rw [List.append_cancel_left h]

def rowKey (vs : List Value) : Bytes := vs.flatMap fun v => valueKey fl v ++ [0x1f]

/-- Plain values without separators are known from their key. -/
theorem rowKey_inj {vs vs' : List Value} (hlen : vs.length = vs'.length)
    (hvs : ∀ v ∈ vs, Plain v ∧ NoSep v) (hvs' : ∀ v ∈ vs', Plain v ∧ NoSep v)
    (h : rowKey fl vs = rowKey fl vs') : vs = vs' := by
  induction vs generalizing vs' with
  | nil => exact (List.length_eq_zero_iff.mp hlen.symm).symm
  | cons v vs ih =>
    cases vs' with
    | nil => cases hlen
    | cons v' vs' =>
      simp only [rowKey, List.flatMap_cons, List.append_assoc, List.singleton_append] at h
      have hv := hvs v List.mem_cons_self
      have hv' := hvs' v' List.mem_cons_self
      obtain ⟨hhead, htail⟩ := append_sep_inj (notMem_valueKey fl hv.1 hv.2)
        (notMem_valueKey fl hv'.1 hv'.2) h
      rw [valueKey_inj fl hv.1 hv'.1 hhead, ih (Nat.succ.inj hlen)
        (fun w hw => hvs w (.tail _ hw)) (fun w hw => hvs' w (.tail _ hw)) htail]

/-- A single plain value is, whatever bytes it holds. -/
theorem rowKey_inj_single {a b : Value} (ha : Plain a) (hb : Plain b)
    (h : rowKey fl [a] = rowKey fl [b]) : a = b := by
  simp only [rowKey, List.flatMap_cons, List.flatMap_nil, List.append_nil] at h
  exact valueKey_inj fl ha hb (List.append_cancel_right h)

/-! ## Projected rows -/

variable (e : Executor) (items : List ReturnItem)

def itemValue (r : Row) (item : ReturnItem) : Value := evalScalar e.toEnv r item.expr

def itemValues (r : Row) : List Value := items.map (itemValue e r)

/-- A projected row and the key it is told apart by. -/
theorem projectRow_eq (r : Row) :
    projectRow e items r =
      (Rows.runOps ∅ (items.map fun it => .put (itemName it) (.value (itemValue e r it))),
        rowKey e.fl (itemValues e items r)) := by
  have hfold : ∀ (items : List ReturnItem) (m : Row) (k : Bytes),
      items.foldl (fun acc item =>
        let v := evalScalar e.toEnv r item.expr
        (acc.1.insert (itemName item) (.value v), acc.2 ++ valueKey e.fl v ++ [0x1f])) (m, k) =
      (Rows.runOps m (items.map fun it => .put (itemName it) (.value (itemValue e r it))),
        k ++ items.flatMap fun it => valueKey e.fl (itemValue e r it) ++ [0x1f]) := by
    intro items
    induction items with
    | nil => simp
    | cons it items ih =>
      intro m k
      rw [List.foldl_cons, ih]
      simp [Rows.runOps, Rows.runOp, itemValue]
  exact (hfold items ∅ []).trans (by simp [rowKey, itemValues, List.flatMap_map])

variable {e items}

theorem getElem?_projectRow (hnames : (items.map itemName).Nodup) {r : Row} {it : ReturnItem}
    (hit : it ∈ items) : (projectRow e items r).1[itemName it]? =
      some (.value (itemValue e r it)) := by
  rw [projectRow_eq]
  refine Rows.getElem?_runOps_puts ∅ hit fun it' hit' hkey => ?_
  rw [List.inj_on_of_nodup_map hnames hit' hit hkey]

/-- Equal values give equal rows. -/
theorem projectRow_of_values {r r' : Row} (h : itemValues e items r = itemValues e items r') :
    projectRow e items r = projectRow e items r' := by
  have hsame : ∀ it ∈ items, itemValue e r it = itemValue e r' it := List.map_inj_left.mp h
  rw [projectRow_eq, projectRow_eq, h]
  congr 2
  exact List.map_congr_left fun it hit => by rw [hsame it hit]

/-- In columns of different names a row shows all its values. -/
theorem projectRow_fst_inj (hnames : (items.map itemName).Nodup) {r r' : Row}
    (h : (projectRow e items r).1 = (projectRow e items r').1) :
    itemValues e items r = itemValues e items r' := by
  refine List.map_congr_left fun it hit => ?_
  have hget := congrArg (fun m : Row => m[itemName it]?) h
  simpa [getElem?_projectRow hnames hit] using hget

/-! ## The first of each -/

section
variable {α β κ : Type} [DecidableEq κ]

def firstsBy (key : α → κ) : List α → List α
  | [] => []
  | a :: l => a :: (firstsBy key l).filter (key · ≠ key a)

open Classical in
noncomputable def firsts (l : List α) : List α := firstsBy id l

open Classical in
theorem firsts_cons (a : α) (l : List α) :
    firsts (a :: l) = a :: (firsts l).filter (· ≠ a) := rfl

variable {key : α → κ} {f : α → β} {l : List α}

theorem firstsBy_subset (l : List α) : firstsBy key l ⊆ l := by
  induction l with
  | nil => simp [firstsBy]
  | cons a l ih =>
    intro x hx
    rcases List.mem_cons.mp hx with rfl | hx
    · exact List.mem_cons_self
    · exact List.mem_cons_of_mem _ (ih (List.mem_filter.mp hx).1)

/-- Every key has a first. -/
theorem exists_mem_firstsBy (key : α → κ) {a : α} (ha : a ∈ l) :
    ∃ q ∈ firstsBy key l, key q = key a := by
  induction l with
  | nil => cases ha
  | cons b l ih =>
    by_cases hkey : key a = key b
    · exact ⟨b, List.mem_cons_self, hkey.symm⟩
    · rcases List.mem_cons.mp ha with rfl | ha
      · exact absurd rfl hkey
      · obtain ⟨q, hq, heq⟩ := ih ha
        refine ⟨q, List.mem_cons_of_mem _ (List.mem_filter.mpr ⟨hq, ?_⟩), heq⟩
        simpa [heq] using hkey

/-- Keys of the firsts are distinct. -/
theorem nodup_map_firstsBy (key : α → κ) (l : List α) : ((firstsBy key l).map key).Nodup := by
  induction l with
  | nil => exact .nil
  | cons a l ih =>
    rw [firstsBy, List.map_cons, List.nodup_cons]
    refine ⟨fun hmem => ?_, (List.filter_sublist.map key).nodup ih⟩
    obtain ⟨q, hq, hkey⟩ := List.mem_map.mp hmem
    simpa [hkey] using (List.mem_filter.mp hq).2

/-- If the key tells rows apart, the firsts are the distinct rows. -/
theorem map_firstsBy (h : ∀ a ∈ l, ∀ b ∈ l, key a = key b ↔ f a = f b) :
    (firstsBy key l).map f = firsts (l.map f) := by
  induction l with
  | nil => rfl
  | cons a l ih =>
    have ih := ih fun x hx y hy => h x (.tail _ hx) y (.tail _ hy)
    rw [firstsBy, List.map_cons, List.map_cons, firsts_cons, ← ih, List.filter_map]
    congr 2
    refine List.filter_congr fun x hx => ?_
    have hiff := h x (.tail _ (firstsBy_subset l hx)) a List.mem_cons_self
    simp [hiff]

/-- Where what is kept of an element determines its key or the other way round, the first of each
key are the first of each exactly if both do. -/
theorem map_firstsBy_iff (hone : (∀ a ∈ l, ∀ b ∈ l, f a = f b → key a = key b) ∨
      ∀ a ∈ l, ∀ b ∈ l, key a = key b → f a = f b) :
    (firstsBy key l).map f = firsts (l.map f) ↔
      ∀ a ∈ l, ∀ b ∈ l, key a = key b ↔ f a = f b := by
  refine ⟨fun h a ha b hb => ?_, map_firstsBy⟩
  rcases hone with hone | hone
  · refine ⟨fun hkey => ?_, hone a ha b hb⟩
    have hkept : ∀ c ∈ l, ∃ q ∈ firstsBy key l, f q = f c := by
      classical
      intro c hc
      obtain ⟨y, hy, hyc⟩ := exists_mem_firstsBy id (List.mem_map_of_mem (f := f) hc)
      rw [← firsts, ← h] at hy
      obtain ⟨q, hq, hqy⟩ := List.mem_map.mp hy
      exact ⟨q, hq, hqy.trans hyc⟩
    obtain ⟨q, hq, hqa⟩ := hkept a ha
    obtain ⟨q', hq', hqb⟩ := hkept b hb
    have hsame : key q = key q' := by
      rw [hone q (firstsBy_subset l hq) a ha hqa, hkey,
        ← hone q' (firstsBy_subset l hq') b hb hqb]
    rw [← hqa, ← hqb, List.inj_on_of_nodup_map (nodup_map_firstsBy key l) hq hq' hsame]
  · refine ⟨hone a ha b hb, fun hf => ?_⟩
    obtain ⟨q, hq, hqa⟩ := exists_mem_firstsBy key ha
    obtain ⟨q', hq', hqb⟩ := exists_mem_firstsBy key hb
    have hnodup : ((firstsBy key l).map f).Nodup := by
      classical
      rw [h, firsts, ← List.map_id (firstsBy id _)]
      exact nodup_map_firstsBy id _
    have hsame : f q = f q' := by
      rw [hone q (firstsBy_subset l hq) a ha hqa, hf,
        ← hone q' (firstsBy_subset l hq') b hb hqb]
    rw [← hqa, ← hqb, List.inj_on_of_nodup_map hnodup hq hq' hsame]

end

/-- A loop that keeps what it has not seen the key of. -/
theorem foldl_firstsBy {α β : Type} (key : α → Bytes) (f : α → β) (l : List α) (out : List β)
    (seen : List Bytes) :
    (l.foldl (fun (acc : List β × List Bytes) a =>
      if acc.2.contains (key a) then acc else (acc.1 ++ [f a], acc.2 ++ [key a])) (out, seen)).1 =
      out ++ ((firstsBy key l).filter (key · ∉ seen)).map f := by
  induction l generalizing out seen with
  | nil => simp [firstsBy]
  | cons a l ih =>
    rw [List.foldl_cons, firstsBy, List.filter_cons, List.filter_filter]
    by_cases hseen : key a ∈ seen
    · rw [if_pos (show seen.contains (key a) = true by simpa using hseen),
        if_neg (by simpa using hseen), ih]
      congr 2
      refine List.filter_congr fun x _ => ?_
      by_cases hx : key x ∈ seen
      · simp [hx]
      · have hne : key x ≠ key a := fun h => hx (h ▸ hseen)
        simp [hx, hne]
    · rw [if_neg (show ¬ seen.contains (key a) = true by simpa using hseen),
        if_pos (by simpa using hseen), ih, List.map_cons, List.append_assoc,
        List.singleton_append]
      congr 3
      refine List.filter_congr fun x _ => ?_
      simp [not_or]

def onG : Executor := { graphID := [0x67], fl := default }

def pairRow (x y : Value) : Row := ((∅ : Row).insert [0x61] (.value x)).insert [0x62] (.value y)

def pairItems : List ReturnItem := [{ expr := .var [0x61] }, { expr := .var [0x62] }]

def oneItem : List ReturnItem := [{ expr := .var [0x61] }]

theorem itemValues_pairRow (x y : Value) : itemValues onG oneItem (pairRow x y) = [x] ∧
    itemValues onG pairItems (pairRow x y) = [x, y] := by
  have ha : (pairRow x y)[([0x61] : Bytes)]? = some (.value x) := by
    rw [pairRow, Std.ExtTreeMap.getElem?_insert, if_neg (by decide),
      Std.ExtTreeMap.getElem?_insert_self]
  have hb : (pairRow x y)[([0x62] : Bytes)]? = some (.value y) := by
    rw [pairRow, Std.ExtTreeMap.getElem?_insert_self]
  constructor
  · simp [itemValues, oneItem, itemValue, evalScalar, ha, bindingToValue]
  · simp [itemValues, pairItems, itemValue, evalScalar, ha, hb, bindingToValue]

end WaveSpan.Cypher
