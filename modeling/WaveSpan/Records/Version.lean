/-
WaveSpan.Records.Version — the version stamped on every record and the order that
decides which of two records wins (`internal/version/version.go`).

A version is the writer's hybrid-clock pair followed by the writer's identity
and its sequence number. `Version.compare` is the source's comparison, field by
field; `compare_eq_lex` puts it in one line, and from there it is a linear order
whose equality is `Version.equal`. Everything above this module uses `≤`, `<` and
`max` on versions.

A mutation is identified by the writer and its sequence number alone
(`mutationID`); two versions of one writer share the identity exactly when they
share the sequence number.
-/
import WaveSpan.Lib.Wire
import Mathlib.Data.Nat.Digits.Defs
import Mathlib.Data.Nat.Digits.Lemmas
import Mathlib.Order.Compare

namespace WaveSpan.Records

open WaveSpan.Wire

/-- The version of a mutation. Strings are their bytes. -/
@[ext] structure Version where
  hlcPhysicalMs : UInt64 := 0
  hlcLogical : UInt32 := 0
  writerClusterID : Bytes := []
  writerMemberID : Bytes := []
  writerSequence : UInt64 := 0
  deriving DecidableEq, Repr

/-- Which of two machine words is larger. -/
def cmpUint64 (a b : UInt64) : Ordering :=
  if a < b then .lt else if b < a then .gt else .eq

def cmpUint32 (a b : UInt32) : Ordering :=
  if a < b then .lt else if b < a then .gt else .eq

namespace Version

/-- The last-write-wins order: the clock pair first, then the writer's cluster,
its member and its sequence number as tie-breaks. -/
def compare (a b : Version) : Ordering :=
  if a.hlcPhysicalMs ≠ b.hlcPhysicalMs then cmpUint64 a.hlcPhysicalMs b.hlcPhysicalMs
  else if a.hlcLogical ≠ b.hlcLogical then cmpUint32 a.hlcLogical b.hlcLogical
  else
    let c := Ord.compare a.writerClusterID b.writerClusterID
    if c ≠ .eq then c
    else
      let m := Ord.compare a.writerMemberID b.writerMemberID
      if m ≠ .eq then m
      else cmpUint64 a.writerSequence b.writerSequence

def equal (a b : Version) : Bool :=
  a.hlcPhysicalMs == b.hlcPhysicalMs &&
    a.hlcLogical == b.hlcLogical &&
    a.writerClusterID == b.writerClusterID &&
    a.writerMemberID == b.writerMemberID &&
    a.writerSequence == b.writerSequence

end Version

/-! ## The order -/

theorem cmpUint64_eq (a b : UInt64) : cmpUint64 a b = Ord.compare a b := by
  simp only [cmpUint64, Ord.compare, compareOfLessAndEq]
  by_cases hlt : a < b
  · simp [hlt]
  · by_cases heq : a = b
    · simp [heq]
    · have hgt : b < a := UInt64.lt_of_le_of_ne (UInt64.not_lt.mp hlt) (Ne.symm heq)
      simp [hlt, heq, hgt]

theorem cmpUint32_eq (a b : UInt32) : cmpUint32 a b = Ord.compare a b := by
  simp only [cmpUint32, Ord.compare, compareOfLessAndEq]
  by_cases hlt : a < b
  · simp [hlt]
  · by_cases heq : a = b
    · simp [heq]
    · have hgt : b < a := UInt32.lt_of_le_of_ne (UInt32.not_lt.mp hlt) (Ne.symm heq)
      simp [hlt, heq, hgt]

namespace Version

/-- The comparison in one line: each field decides when the ones before it
agree. -/
theorem compare_eq_lex (a b : Version) :
    a.compare b =
      ((((Ord.compare a.hlcPhysicalMs b.hlcPhysicalMs).then
        (Ord.compare a.hlcLogical b.hlcLogical)).then
        (Ord.compare a.writerClusterID b.writerClusterID)).then
        (Ord.compare a.writerMemberID b.writerMemberID)).then
        (Ord.compare a.writerSequence b.writerSequence) := by
  unfold compare
  rw [cmpUint64_eq, cmpUint32_eq, cmpUint64_eq]
  by_cases hp : a.hlcPhysicalMs = b.hlcPhysicalMs
  · by_cases hl : a.hlcLogical = b.hlcLogical
    · simp only [hp, hl, ne_eq, not_true_eq_false, if_false, Std.ReflCmp.compare_self,
        Ordering.then]
      cases Ord.compare a.writerClusterID b.writerClusterID <;>
        cases Ord.compare a.writerMemberID b.writerMemberID <;> rfl
    · have hne : Ord.compare a.hlcLogical b.hlcLogical ≠ .eq :=
        fun h => hl (Std.LawfulEqCmp.compare_eq_iff_eq.mp h)
      simp only [hp, hl, ne_eq, not_true_eq_false, not_false_eq_true, if_false, if_true,
        Std.ReflCmp.compare_self]
      cases h : Ord.compare a.hlcLogical b.hlcLogical <;> simp_all
  · have hne : Ord.compare a.hlcPhysicalMs b.hlcPhysicalMs ≠ .eq :=
      fun h => hp (Std.LawfulEqCmp.compare_eq_iff_eq.mp h)
    simp only [hp, ne_eq, not_false_eq_true, if_true]
    cases h : Ord.compare a.hlcPhysicalMs b.hlcPhysicalMs <;> simp_all

/-- The comparison as a composition of the field comparisons. -/
theorem compare_eq_compareLex :
    compare =
      compareLex (compareLex (compareLex (compareLex (compareOn hlcPhysicalMs)
        (compareOn hlcLogical)) (compareOn writerClusterID)) (compareOn writerMemberID))
        (compareOn writerSequence) := by
  funext a b
  rw [compare_eq_lex]
  rfl

instance : Std.TransCmp compare := by
  rw [compare_eq_compareLex]
  infer_instance

/-- Versions that compare equal are equal in every field. -/
theorem compare_eq_iff_eq {a b : Version} : a.compare b = .eq ↔ a = b := by
  rw [compare_eq_lex]
  simp only [Ordering.then_eq_eq, Std.LawfulEqCmp.compare_eq_iff_eq]
  constructor
  · rintro ⟨⟨⟨⟨hp, hl⟩, hc⟩, hm⟩, hs⟩
    exact Version.ext hp hl hc hm hs
  · rintro rfl
    simp

instance : Std.LawfulEqCmp compare where
  compare_self := compare_eq_iff_eq.mpr rfl
  eq_of_compare h := compare_eq_iff_eq.mp h

theorem equal_iff_eq {a b : Version} : a.equal b = true ↔ a = b := by
  simp only [equal, Bool.and_eq_true, beq_iff_eq]
  constructor
  · rintro ⟨⟨⟨⟨hp, hl⟩, hc⟩, hm⟩, hs⟩
    exact Version.ext hp hl hc hm hs
  · rintro rfl
    simp

instance : Ord Version := ⟨compare⟩

instance : LE Version := ⟨fun a b => a.compare b ≠ .gt⟩

instance : LT Version := ⟨fun a b => a.compare b = .lt⟩

theorem le_def {a b : Version} : a ≤ b ↔ a.compare b ≠ .gt := Iff.rfl

theorem lt_def {a b : Version} : a < b ↔ a.compare b = .lt := Iff.rfl

instance : DecidableLE Version := fun a b => inferInstanceAs (Decidable (a.compare b ≠ .gt))

instance : DecidableLT Version := fun a b => inferInstanceAs (Decidable (a.compare b = .lt))

/-- Comparing the other way round. -/
theorem compare_swap (a b : Version) : (a.compare b).swap = b.compare a :=
  Std.OrientedCmp.eq_swap.symm

theorem isLE_iff_le {a b : Version} : (a.compare b).isLE = true ↔ a ≤ b := by
  rw [le_def]
  cases a.compare b <;> simp

/-- Last-write-wins is a total order on versions. -/
instance : LinearOrder Version where
  le_refl a := by
    have hself : a.compare a = .eq := Std.ReflCmp.compare_self
    rw [le_def, hself]
    decide
  le_trans a b c hab hbc :=
    isLE_iff_le.mp (Std.TransCmp.isLE_trans (isLE_iff_le.mpr hab) (isLE_iff_le.mpr hbc))
  le_antisymm a b hab hba := by
    rw [le_def, ← compare_swap] at hba
    rw [le_def] at hab
    refine compare_eq_iff_eq.mp ?_
    cases h : a.compare b <;> simp_all
  le_total a b := by
    rw [le_def, le_def, ← compare_swap a b]
    cases a.compare b <;> simp
  lt_iff_le_not_ge a b := by
    rw [lt_def, le_def, le_def, ← compare_swap a b]
    cases a.compare b <;> simp
  toDecidableLE := inferInstance
  toDecidableEq := inferInstance
  toDecidableLT := inferInstance
  compare_eq_compareOfLessAndEq a b := by
    show a.compare b = _
    rw [compareOfLessAndEq]
    by_cases hlt : a < b
    · rw [if_pos hlt]; exact hlt
    · rw [if_neg hlt]
      by_cases heq : a = b
      · rw [if_pos heq]; exact compare_eq_iff_eq.mpr heq
      · rw [if_neg heq]
        rw [lt_def] at hlt
        have hne : a.compare b ≠ .eq := fun h => heq (compare_eq_iff_eq.mp h)
        cases h : a.compare b <;> simp_all

theorem compare_gt_iff {a b : Version} : a.compare b = .gt ↔ b < a := by
  rw [lt_def, ← compare_swap]
  cases a.compare b <;> simp

end Version

/-! ## Mutation identity -/

def formatUint (n : UInt64) : Bytes :=
  if n = 0 then [0x30]
  else (Nat.digits 10 n.toNat).reverse.map fun d => 0x30 + UInt8.ofNat d

def parseUint (b : Bytes) : Nat := Nat.ofDigits 10 (b.reverse.map fun c => c.toNat - 0x30)

theorem parseUint_formatUint (n : UInt64) : parseUint (formatUint n) = n.toNat := by
  unfold parseUint formatUint
  split
  · rename_i h
    subst h
    rfl
  · have hdigits : ∀ d ∈ Nat.digits 10 n.toNat,
        (0x30 + UInt8.ofNat d).toNat - 0x30 = d := by
      intro d hd
      have hlt : d < 10 := Nat.digits_lt_base (by omega) hd
      rw [UInt8.toNat_add, UInt8.toNat_ofNat']
      show (48 + d % 2 ^ 8) % 2 ^ 8 - 48 = d
      omega
    rw [← List.map_reverse, List.reverse_reverse, List.map_map,
      List.map_congr_left (g := id) (by intro d hd; exact hdigits d hd), List.map_id,
      Nat.ofDigits_digits]

theorem formatUint_inj {m n : UInt64} : formatUint m = formatUint n ↔ m = n := by
  constructor
  · intro h
    have hv := congrArg parseUint h
    rw [parseUint_formatUint, parseUint_formatUint] at hv
    exact UInt64.toNat_inj.mp hv
  · rintro rfl
    rfl

/-- The separator of a mutation id (ASCII unit separator). -/
def idSep : UInt8 := 0x1f

def mutationID (cluster member : Bytes) (seq : UInt64) : Bytes :=
  cluster ++ [idSep] ++ member ++ [idSep] ++ formatUint seq

def Version.mutationID (a : Version) : Bytes :=
  Records.mutationID a.writerClusterID a.writerMemberID a.writerSequence

/-! ## Writer sequence -/

/-- A member's counter of originated mutations. -/
structure Sequencer where
  last : UInt64 := 0
  deriving DecidableEq, Repr

def newSequencer (start : UInt64) : Sequencer := ⟨start⟩

def Sequencer.next (s : Sequencer) : UInt64 × Sequencer := (s.last + 1, ⟨s.last + 1⟩)

end WaveSpan.Records
