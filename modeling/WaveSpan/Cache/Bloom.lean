/-
WaveSpan.Cache.Bloom — the bloom filter of a node's held keys
(`internal/cache/bloom.go`).

A filter is 2048 words of 64 bits. Adding a key sets seven bits, at positions stepped by
two hashes; a key may be contained if all seven are set. Bits are never cleared, so a key
that was added is found in every later filter (`maybeContains_add`, `maybeContains_mono`),
and a filter comes back from its bytes as it was (`bloomFromBytes_bytes`).
-/
import WaveSpan.Lib.Wire
import Mathlib.Data.List.OfFn
import Mathlib.Logic.Function.Basic

namespace WaveSpan.Cache

open WaveSpan.Wire

def bloomBits : Nat := 131072

def bloomWords : Nat := bloomBits / 64

def bloomK : Nat := 7

def fnv64a (key : Bytes) : UInt64 :=
  key.foldl (fun h b => (h ^^^ b.toUInt64) * 1099511628211) 14695981039346656037

def fnv64 (key : Bytes) : UInt64 :=
  key.foldl (fun h b => h * 1099511628211 ^^^ b.toUInt64) 14695981039346656037

/-- The start and the step of a key's positions; the step is odd. -/
def bloomHashes (key : Bytes) : UInt64 × UInt64 := (fnv64a key, fnv64 key ||| 1)

def bloomBit (key : Bytes) (i : Nat) : Fin bloomBits :=
  let (a, b) := bloomHashes key
  ⟨(a + i.toUInt64 * b).toNat % bloomBits, Nat.mod_lt _ (by decide)⟩

structure Bloom where
  words : Fin bloomWords → UInt64 := fun _ => 0

namespace Bloom

def wordOf (bit : Fin bloomBits) : Fin bloomWords :=
  ⟨bit / 64, Nat.div_lt_of_lt_mul bit.isLt⟩

def mask (bit : Fin bloomBits) : UInt64 := 1 <<< (bit.val % 64).toUInt64

def setBit (f : Bloom) (bit : Fin bloomBits) : Bloom :=
  ⟨Function.update f.words (wordOf bit) (f.words (wordOf bit) ||| mask bit)⟩

def testBit (f : Bloom) (bit : Fin bloomBits) : Bool := f.words (wordOf bit) &&& mask bit != 0

def add (f : Bloom) (key : Bytes) : Bloom :=
  (List.range bloomK).foldl (fun f i => f.setBit (bloomBit key i)) f

def maybeContains (f : Bloom) (key : Bytes) : Bool :=
  (List.range bloomK).all fun i => f.testBit (bloomBit key i)

/-- The words in order, each with its low byte first. -/
def bytes (f : Bloom) : Bytes := (List.ofFn f.words).flatMap fun w => (u64 w).reverse

end Bloom

/-- The filter of its bytes; the empty one for another number of bytes. -/
def bloomFromBytes (b : Bytes) : Bloom :=
  if b.length ≠ bloomWords * 8 then {}
  else ⟨fun i => UInt64.ofNat (beVal ((b.drop (i * 8)).take 8).reverse)⟩

namespace Bloom

variable {f : Bloom} {key other : Bytes} {bit : Fin bloomBits}

/-! ## Bits are never cleared -/

theorem or_and_self_mask (w m : UInt64) : (w ||| m) &&& m = m := by
  rw [← UInt64.toBitVec_inj]
  ext i hi
  simp only [UInt64.toBitVec_and, UInt64.toBitVec_or, BitVec.getElem_and, BitVec.getElem_or]
  cases m.toBitVec[i] <;> simp

theorem and_ne_zero_of_or {w m m' : UInt64} (h : w &&& m ≠ 0) : (w ||| m') &&& m ≠ 0 := by
  intro hzero
  apply h
  rw [← UInt64.toBitVec_inj] at hzero ⊢
  ext i hi
  have hbit := congrArg (·.getLsbD i) hzero
  simp at hbit ⊢
  grind

theorem mask_ne_zero (bit : Fin bloomBits) : mask bit ≠ 0 := by
  have hword : ∀ k : Fin 64, (1 : UInt64) <<< k.val.toUInt64 ≠ 0 := by decide
  exact hword ⟨bit.val % 64, Nat.mod_lt _ (by decide)⟩

/-- A bit that is set is found set. -/
theorem testBit_setBit_self (f : Bloom) (bit : Fin bloomBits) :
    (f.setBit bit).testBit bit = true := by
  simp only [testBit, setBit, Function.update_self, or_and_self_mask, bne_iff_ne]
  exact mask_ne_zero bit

/-- Setting another bit leaves it set. -/
theorem testBit_setBit_mono (h : f.testBit bit = true) (bit' : Fin bloomBits) :
    (f.setBit bit').testBit bit = true := by
  simp only [testBit, setBit, bne_iff_ne] at h ⊢
  by_cases heq : wordOf bit = wordOf bit'
  · rw [heq] at h ⊢
    rw [Function.update_self]
    exact and_ne_zero_of_or h
  · rw [Function.update_of_ne heq]
    exact h

theorem testBit_foldl_mono {bits : List Nat} (h : f.testBit bit = true) :
    (bits.foldl (fun f i => f.setBit (bloomBit key i)) f).testBit bit = true := by
  induction bits generalizing f with
  | nil => exact h
  | cons i bits ih => exact ih (testBit_setBit_mono h _)

/-- Every bit of a key is set. -/
theorem testBit_foldl_mem {bits : List Nat} {i : Nat} (hi : i ∈ bits) :
    (bits.foldl (fun f i => f.setBit (bloomBit key i)) f).testBit (bloomBit key i) = true := by
  induction bits generalizing f with
  | nil => cases hi
  | cons j bits ih =>
    rcases List.mem_cons.mp hi with rfl | hi
    · rw [List.foldl_cons]
      exact testBit_foldl_mono (testBit_setBit_self f _)
    · exact ih hi

/-- A key that is added is found. -/
theorem maybeContains_add (f : Bloom) (key : Bytes) : (f.add key).maybeContains key = true :=
  List.all_eq_true.mpr fun _ hi => testBit_foldl_mem hi

/-- A key that is found is found after any other is added. -/
theorem maybeContains_mono (h : f.maybeContains key = true) (other : Bytes) :
    (f.add other).maybeContains key = true :=
  List.all_eq_true.mpr fun i hi => testBit_foldl_mono (List.all_eq_true.mp h i hi)

/-! ## Serialisation -/

theorem length_flatMap_words (ws : List UInt64) :
    (ws.flatMap fun w => (u64 w).reverse).length = ws.length * 8 := by
  induction ws with
  | nil => rfl
  | cons w ws ih =>
    rw [List.flatMap_cons, List.length_append, List.length_reverse, length_u64, ih,
      List.length_cons]
    omega

/-- The bytes of a word are where they are read. -/
theorem take_drop_words {ws : List UInt64} {i : Nat} {w : UInt64} (h : ws[i]? = some w) :
    (((ws.flatMap fun w => (u64 w).reverse).drop (i * 8)).take 8) = (u64 w).reverse := by
  induction ws generalizing i with
  | nil => cases h
  | cons v ws ih =>
    rw [List.flatMap_cons]
    cases i with
    | zero =>
      cases h
      rw [Nat.zero_mul, List.drop_zero, List.take_left' (by simp)]
    | succ i =>
      rw [show (i + 1) * 8 = 8 + i * 8 by omega, ← List.drop_drop, List.drop_left' (by simp)]
      exact ih h

/-- A filter is read back from its bytes. -/
theorem bloomFromBytes_bytes (f : Bloom) : bloomFromBytes f.bytes = f := by
  unfold bloomFromBytes
  rw [if_neg]
  · congr 1
    funext i
    have hget : (List.ofFn f.words)[i.val]? = some (f.words i) := by
      rw [List.getElem?_ofFn, dif_pos i.isLt]
    rw [bytes, take_drop_words hget, List.reverse_reverse, u64, beVal_beBytes,
      Nat.mod_eq_of_lt (show (f.words i).toNat < 256 ^ 8 from (f.words i).toNat_lt)]
    simp
  · rw [bytes, length_flatMap_words, List.length_ofFn]
    simp

end Bloom

end WaveSpan.Cache
