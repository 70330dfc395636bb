/-
WaveSpan.Lib.Wire — big-endian numbers and length-prefixed chunks over byte
lists.

Nothing here names the program: a byte string is a `List UInt8`, `beBytes k n`
is the `k`-byte big-endian spelling of `n` (truncated to `k` bytes, as a
fixed-width write truncates), `beVal` reads one back, and a chunk is a four-byte
length followed by that many bytes.

The two facts every key layout built from these rests on are that a fixed-width
number can be read back off the front of a buffer (`beVal_beBytes`) and that a
chunk is prefix-free (`chunk_append_inj`): two buffers that start with a chunk
agree only when the chunks agree and the remainders agree. `Chunk` is the type of
byte strings whose length fits the four-byte field, so the second fact needs no
side condition.
-/
import Mathlib.Data.List.Basic
import Mathlib.Tactic.Ring

namespace WaveSpan.Wire

abbrev Bytes := List UInt8

instance instLawfulBEqBytes : LawfulBEq Bytes := inferInstance

/-! ## Big-endian numbers -/

/-- The `k`-byte big-endian spelling of `n`, truncated to `k` bytes. -/
def beBytes : Nat → Nat → Bytes
  | 0, _ => []
  | k + 1, n => UInt8.ofNat (n / 256 ^ k) :: beBytes k n

/-- The number a byte string spells in big-endian order. -/
def beVal : Bytes → Nat
  | [] => 0
  | b :: bs => b.toNat * 256 ^ bs.length + beVal bs

@[simp] theorem length_beBytes (k n : Nat) : (beBytes k n).length = k := by
  induction k with
  | zero => rfl
  | succ k ih => simp [beBytes, ih]

/-- A `k`-byte string spells a number below `256 ^ k`. -/
theorem beVal_lt (bs : Bytes) : beVal bs < 256 ^ bs.length := by
  induction bs with
  | nil => simp [beVal]
  | cons b bs ih =>
    have hb : b.toNat ≤ 255 := by have := b.toNat_lt; omega
    have hmul : b.toNat * 256 ^ bs.length ≤ 255 * 256 ^ bs.length :=
      Nat.mul_le_mul_right _ hb
    simp only [beVal, List.length_cons, Nat.pow_succ]
    omega

/-- Reading a spelled number gives it back, up to the truncation. -/
theorem beVal_beBytes (k n : Nat) : beVal (beBytes k n) = n % 256 ^ k := by
  induction k with
  | zero => simp [beBytes, beVal, Nat.mod_one]
  | succ k ih =>
    have hdigit : (UInt8.ofNat (n / 256 ^ k)).toNat = n / 256 ^ k % 256 := by
      simp [UInt8.toNat_ofNat']
    rw [beBytes, beVal, length_beBytes, hdigit, ih, Nat.pow_succ, Nat.mod_mul]
    ring

/-- Below the width the spelling is injective. -/
theorem beBytes_inj {k m n : Nat} (hm : m < 256 ^ k) (hn : n < 256 ^ k)
    (h : beBytes k m = beBytes k n) : m = n := by
  have hv : beVal (beBytes k m) = beVal (beBytes k n) := by rw [h]
  rwa [beVal_beBytes, beVal_beBytes, Nat.mod_eq_of_lt hm, Nat.mod_eq_of_lt hn] at hv

/-- Two byte strings of one length that spell one number are equal. -/
theorem beVal_inj {as bs : Bytes} (hlen : as.length = bs.length) (h : beVal as = beVal bs) :
    as = bs := by
  induction as generalizing bs with
  | nil => exact (List.length_eq_zero_iff.mp hlen.symm).symm
  | cons a as ih =>
    cases bs with
    | nil => simp at hlen
    | cons b bs =>
      have hlen' : as.length = bs.length := by simpa using hlen
      have hpos : 0 < 256 ^ bs.length := Nat.pow_pos (by decide)
      have hdigit : ∀ (c : UInt8) (cs : Bytes), cs.length = bs.length →
          beVal (c :: cs) / 256 ^ bs.length = c.toNat ∧
            beVal (c :: cs) % 256 ^ bs.length = beVal cs := by
        intro c cs hcs
        have hlt : beVal cs < 256 ^ bs.length := hcs ▸ beVal_lt cs
        rw [beVal, hcs, Nat.add_comm, Nat.add_mul_div_right _ _ hpos,
          Nat.add_mul_mod_self_right, Nat.div_eq_of_lt hlt, Nat.mod_eq_of_lt hlt]
        exact ⟨Nat.zero_add _, rfl⟩
      obtain ⟨ha, has⟩ := hdigit a as hlen'
      obtain ⟨hb, hbs⟩ := hdigit b bs rfl
      rw [h] at ha has
      rw [ih hlen' (has.symm.trans hbs), UInt8.toNat_inj.mp (ha.symm.trans hb)]

/-- Spelling the number a byte string spells gives it back. -/
theorem beBytes_beVal (bs : Bytes) : beBytes bs.length (beVal bs) = bs :=
  beVal_inj (by simp) (by rw [beVal_beBytes, Nat.mod_eq_of_lt (beVal_lt bs)])

/-- The eight-byte big-endian spelling of a 64-bit number. -/
def u64 (n : UInt64) : Bytes := beBytes 8 n.toNat

/-- The 64-bit number spelled by the first eight bytes. -/
def getU64 (b : Bytes) : UInt64 := UInt64.ofNat (beVal (b.take 8))

@[simp] theorem length_u64 (n : UInt64) : (u64 n).length = 8 := length_beBytes 8 _

theorem take_u64_append (n : UInt64) (rest : Bytes) : (u64 n ++ rest).take 8 = u64 n := by
  rw [List.take_append_of_le_length (by simp), List.take_of_length_le (by simp)]

theorem drop_u64_append (n : UInt64) (rest : Bytes) : (u64 n ++ rest).drop 8 = rest := by
  rw [List.drop_append_of_le_length (by simp), List.drop_of_length_le (by simp),
    List.nil_append]

/-- A 64-bit number is read back off the front of a buffer. -/
@[simp] theorem getU64_u64_append (n : UInt64) (rest : Bytes) : getU64 (u64 n ++ rest) = n := by
  have hlt : n.toNat < 256 ^ 8 := by have := n.toNat_lt; omega
  rw [getU64, take_u64_append, u64, beVal_beBytes, Nat.mod_eq_of_lt hlt]
  exact UInt64.ofNat_toNat

@[simp] theorem getU64_u64 (n : UInt64) : getU64 (u64 n) = n := by
  simpa using getU64_u64_append n []

theorem u64_getU64 {b : Bytes} (h : b.length = 8) : u64 (getU64 b) = b := by
  have hlt : beVal b < 2 ^ 64 := by
    have := beVal_lt b
    rw [h] at this
    omega
  have hspell := beBytes_beVal b
  rw [h] at hspell
  rw [u64, getU64, List.take_of_length_le h.le, UInt64.toNat_ofNat_of_lt' hlt, hspell]

/-- The front of a buffer that holds a 64-bit number is its spelling. -/
theorem u64_getU64_drop {b : Bytes} (h : ¬ b.length < 8) : u64 (getU64 b) ++ b.drop 8 = b := by
  have htake : getU64 b = getU64 (b.take 8) := by
    rw [getU64, getU64, List.take_take, Nat.min_self]
  rw [htake, u64_getU64 (by rw [List.length_take]; omega), List.take_append_drop]

theorem u64_inj {m n : UInt64} (h : u64 m = u64 n) : m = n := by
  have hv : getU64 (u64 m) = getU64 (u64 n) := by rw [h]
  simpa using hv

/-- Two buffers that start with a 64-bit number agree exactly when the numbers
and the remainders agree. -/
theorem u64_append_inj {m n : UInt64} {r s : Bytes} :
    u64 m ++ r = u64 n ++ s ↔ m = n ∧ r = s := by
  constructor
  · intro h
    obtain ⟨hm, hr⟩ := List.append_inj h (by simp)
    exact ⟨u64_inj hm, hr⟩
  · rintro ⟨rfl, rfl⟩; rfl

/-! ## Chunks -/

/-- A byte string whose length fits a four-byte length field. -/
abbrev Chunk := { b : Bytes // b.length < 2 ^ 32 }

def Chunk.empty : Chunk := ⟨[], by decide⟩

def Chunk.byte (b : UInt8) : Chunk := ⟨[b], by simp⟩

/-- `uint32(len(b)) || b`, appended. The length is truncated to four bytes. -/
def appendChunk (dst b : Bytes) : Bytes := dst ++ beBytes 4 b.length ++ b

@[simp] theorem length_appendChunk (dst b : Bytes) :
    (appendChunk dst b).length = dst.length + 4 + b.length := by
  simp only [appendChunk, List.length_append, length_beBytes]

/-- The chunk at the front of a buffer and what follows it; `none` when the
buffer is too short. The remaining length is compared as a 32-bit number, and a
chunk's length is read from a 32-bit field, so the bound on it is kept in the
type. -/
def takeChunk (b : Bytes) : Option (Chunk × Bytes) :=
  if b.length < 4 then none
  else
    let n := beVal (b.take 4)
    if (b.drop 4).length % 2 ^ 32 < n then none
    else some (⟨(b.drop 4).take n, by
      have h4 : (b.take 4).length ≤ 4 := by simp
      have hn : n < 256 ^ (b.take 4).length := beVal_lt _
      have hp : 256 ^ (b.take 4).length ≤ 256 ^ 4 := Nat.pow_le_pow_right (by omega) h4
      simp only [List.length_take]
      omega⟩, (b.drop 4).drop n)

/-- A chunk is prefix-free: two buffers that start with one agree exactly when
the chunks and the remainders agree. -/
theorem chunk_append_inj {x y : Chunk} {r s : Bytes} :
    beBytes 4 x.val.length ++ (x.val ++ r) = beBytes 4 y.val.length ++ (y.val ++ s)
      ↔ x = y ∧ r = s := by
  constructor
  · intro h
    obtain ⟨hlen, hrest⟩ := List.append_inj h (by simp)
    have hxy : x.val.length = y.val.length :=
      beBytes_inj (by have := x.property; omega) (by have := y.property; omega) hlen
    obtain ⟨hx, hr⟩ := List.append_inj hrest hxy
    exact ⟨Subtype.ext hx, hr⟩
  · rintro ⟨rfl, rfl⟩; rfl

/-- What is read of a chunk at the front of a buffer. The 32-bit length comparison sees the
buffer's length modulo `2 ^ 32`. -/
theorem takeChunk_appendChunk (x : Chunk) (rest : Bytes) :
    takeChunk (appendChunk [] x.val ++ rest) =
      if (x.val ++ rest).length % 2 ^ 32 < x.val.length then none else some (x, rest) := by
  have hx : x.val.length < 256 ^ 4 := by have := x.property; omega
  have htake : (beBytes 4 x.val.length ++ (x.val ++ rest)).take 4 = beBytes 4 x.val.length := by
    rw [List.take_append_of_le_length (by simp), List.take_of_length_le (by simp)]
  have hdrop : (beBytes 4 x.val.length ++ (x.val ++ rest)).drop 4 = x.val ++ rest := by
    rw [List.drop_append_of_le_length (by simp), List.drop_of_length_le (by simp),
      List.nil_append]
  have hval : beVal (beBytes 4 x.val.length) = x.val.length := by
    rw [beVal_beBytes, Nat.mod_eq_of_lt hx]
  simp only [appendChunk, List.nil_append, List.append_assoc, takeChunk, htake, hdrop, hval]
  rw [if_neg (by simp)]
  simp

/-- A chunk written at the front of a buffer is read back, as long as the buffer
is short enough for the 32-bit length comparison. -/
theorem takeChunk_append (x : Chunk) (rest : Bytes)
    (h : x.val.length + rest.length < 2 ^ 32) :
    takeChunk (appendChunk [] x.val ++ rest) = some (x, rest) := by
  rw [takeChunk_appendChunk, if_neg]
  rw [List.length_append, Nat.mod_eq_of_lt h]
  omega

/-- A chunk of nearly four gigabytes is not, if a number or more follows it. -/
theorem takeChunk_long {x : Chunk} (hx : 2 ^ 32 ≤ x.val.length + 4) {t : Bytes}
    (hpos : 4 ≤ t.length) (ht : t.length < 2 ^ 32) :
    takeChunk (appendChunk [] x.val ++ t) = none := by
  have hlt := x.property
  have hwrap : (x.val ++ t).length % 2 ^ 32 < x.val.length := by
    rw [List.length_append]
    omega
  rw [takeChunk_appendChunk, if_pos hwrap]

theorem exists_long : ∃ x : Chunk, 2 ^ 32 ≤ x.val.length + 4 := by
  have h : (List.replicate (2 ^ 32 - 1) (0 : UInt8)).length = 2 ^ 32 - 1 := List.length_replicate
  refine ⟨⟨List.replicate (2 ^ 32 - 1) 0, by omega⟩, ?_⟩
  show 2 ^ 32 ≤ (List.replicate (2 ^ 32 - 1) (0 : UInt8)).length + 4
  omega

/-! ## Separators -/

/-- Two texts up to a separator they are free of. -/
theorem append_sep_inj {x : UInt8} {s t s' t' : Bytes} (hs : x ∉ s) (ht : x ∉ t)
    (h : s ++ x :: s' = t ++ x :: t') : s = t ∧ s' = t' := by
  induction s generalizing t with
  | nil =>
    cases t with
    | nil => exact ⟨rfl, (List.cons.inj h).2⟩
    | cons y t => exact absurd ((List.cons.inj h).1 ▸ List.mem_cons_self) ht
  | cons c s ih =>
    cases t with
    | nil => exact absurd ((List.cons.inj h).1.symm ▸ List.mem_cons_self) hs
    | cons y t =>
      obtain ⟨hc, hrest⟩ := List.cons.inj h
      obtain ⟨hst, htail⟩ := ih (fun hm => hs (.tail _ hm)) (fun hm => ht (.tail _ hm)) hrest
      exact ⟨by rw [hc, hst], htail⟩

/-- Two texts from the last separator on. -/
theorem append_last_sep_inj {x : UInt8} {s t s' t' : Bytes} (hs : x ∉ s') (ht : x ∉ t')
    (h : s ++ x :: s' = t ++ x :: t') : s = t ∧ s' = t' := by
  have hrev : s'.reverse ++ x :: s.reverse = t'.reverse ++ x :: t.reverse := by
    simpa using congrArg List.reverse h
  obtain ⟨htail, hhead⟩ := append_sep_inj (by simpa using hs) (by simpa using ht) hrev
  exact ⟨List.reverse_inj.mp hhead, List.reverse_inj.mp htail⟩

end WaveSpan.Wire
