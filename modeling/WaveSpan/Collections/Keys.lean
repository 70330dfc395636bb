/-
WaveSpan.Collections.Keys — the key layout of one shard
(`internal/collections/statemachine.go`, `base_sm.go`, `dedup.go`, `ttl.go`,
`freeze.go`, `budget.go`).

Every row of a shard lives under the eight-byte big-endian shard id. The first
byte after it names a sub-space: shard bookkeeping, collection data, the TTL
due-index, the idempotency cache and its ring, and the two budget due-indexes.
Collection data is scoped by `chunk(ns) || chunk(coll)` and one scope byte.

The key functions below spell the layout out as the source does. `RowKey` is the
same layout as a datatype, one constructor per kind of row; `RowKey.enc` is its
spelling, `RowKey.enc_inj` says no two rows share a key, and the `*_eq` lemmas
rewrite each key function into it. A set or hash element and a sorted set's
score-index row are the same kind of row: the score index spells its member as
`sortableScore || member` in the element space.
-/
import WaveSpan.Collections.Store

namespace WaveSpan.Collections

open WaveSpan.Wire

/-! ## Key functions -/

section
variable (shardID : UInt64)

/-- The shard's key space: the eight-byte big-endian shard id. -/
def shardPrefix : Bytes := u64 shardID

def appliedKey : Bytes :=
  shardPrefix shardID ++ [0x00] ++ [0x61, 0x70, 0x70, 0x6c, 0x69, 0x65, 0x64]

def dedupSeqKey : Bytes :=
  shardPrefix shardID ++ [0x00] ++ [0x64, 0x65, 0x64, 0x75, 0x70, 0x73, 0x65, 0x71]

def frozenSpace : Bytes := shardPrefix shardID ++ [0x00] ++ [0x01]

def frozenKey (start : Bytes) : Bytes := frozenSpace shardID ++ start

def dataSpace : Bytes := shardPrefix shardID ++ [0x01]

/-- `<shard>|subData|chunk(ns)|chunk(coll)`. -/
def collScope (ns coll : Bytes) : Bytes :=
  appendChunk (appendChunk (dataSpace shardID) ns) coll

def cardKey (ns coll : Bytes) : Bytes := collScope shardID ns coll ++ [0x00]

def elemPrefix (ns coll : Bytes) : Bytes := collScope shardID ns coll ++ [0x01]

def elemKey (ns coll member : Bytes) : Bytes := elemPrefix shardID ns coll ++ member

def zptrKey (ns coll member : Bytes) : Bytes := collScope shardID ns coll ++ [0x02] ++ member

def typeKey (ns coll : Bytes) : Bytes := collScope shardID ns coll ++ [0x03]

def ttlPtrKey (ns coll member : Bytes) : Bytes := collScope shardID ns coll ++ [0x04] ++ member

def budPoolKey (ns coll : Bytes) : Bytes := collScope shardID ns coll ++ [0x05]

def budLeasePrefix (ns coll : Bytes) : Bytes := collScope shardID ns coll ++ [0x06]

def budLeaseKey (ns coll leaseID : Bytes) : Bytes := budLeasePrefix shardID ns coll ++ leaseID

def budTombKey (ns coll leaseID : Bytes) : Bytes := collScope shardID ns coll ++ [0x07] ++ leaseID

def signBit : UInt64 := 0x8000000000000000

/-- A score's sort key: big-endian byte order matches numeric order. -/
def sortableScore (bits : UInt64) : Bytes :=
  u64 (if bits &&& signBit ≠ 0 then ~~~bits else bits ||| signBit)

def unsortableScore (b : Bytes) : UInt64 :=
  let bits := getU64 b
  if bits &&& signBit ≠ 0 then bits &&& ~~~signBit else ~~~bits

def zscoreKey (ns coll : Bytes) (score : UInt64) (member : Bytes) : Bytes :=
  elemPrefix shardID ns coll ++ sortableScore score ++ member

def ttlSpace : Bytes := shardPrefix shardID ++ [0x02]

/-- `<shard>|subTTL|be(expiry)|chunk(ns)|chunk(coll)|<member>`. -/
def ttlIndexKey (expiry : UInt64) (ns coll member : Bytes) : Bytes :=
  appendChunk (appendChunk (ttlSpace shardID ++ u64 expiry) ns) coll ++ member

def dedupKey (key : Bytes) : Bytes := shardPrefix shardID ++ [0x03] ++ key

def dedupRingKey (slot : UInt64) : Bytes := shardPrefix shardID ++ [0x04] ++ u64 slot

def budExpSpace : Bytes := shardPrefix shardID ++ [0x05]

def budTombGCSpace : Bytes := shardPrefix shardID ++ [0x06]

/-- `<shard>|subBudExp|be(reclaim)|chunk(ns)|chunk(coll)|leaseID`. -/
def budExpKey (reclaimMs : Int64) (ns coll leaseID : Bytes) : Bytes :=
  appendChunk (appendChunk (budExpSpace shardID ++ u64 reclaimMs.toUInt64) ns) coll ++ leaseID

/-- `<shard>|subBudTombGC|be(gcDue)|chunk(ns)|chunk(coll)|leaseID`. -/
def budTombGCKey (gcDueMs : Int64) (ns coll leaseID : Bytes) : Bytes :=
  appendChunk (appendChunk (budTombGCSpace shardID ++ u64 gcDueMs.toUInt64) ns) coll ++ leaseID

end

/-- A collection's place in the ordered routing key space: `chunk(ns)||chunk(coll)`. -/
def routeKey (ns coll : Bytes) : Bytes := appendChunk (appendChunk [] ns) coll

/-! ## The layout as a datatype -/

inductive RowKey where
  | applied
  | dedupSeq
  | frozen (start : Bytes)
  | card (ns coll : Chunk)
  | elem (ns coll : Chunk) (member : Bytes)
  | zptr (ns coll : Chunk) (member : Bytes)
  | type (ns coll : Chunk)
  | ttlPtr (ns coll : Chunk) (member : Bytes)
  | pool (ns coll : Chunk)
  | lease (ns coll : Chunk) (leaseID : Bytes)
  | tomb (ns coll : Chunk) (leaseID : Bytes)
  | ttlIdx (expiry : UInt64) (ns coll : Chunk) (member : Bytes)
  | dedup (key : Bytes)
  | ring (slot : UInt64)
  | budExp (reclaim : UInt64) (ns coll : Chunk) (leaseID : Bytes)
  | budTombGC (due : UInt64) (ns coll : Chunk) (leaseID : Bytes)
  deriving DecidableEq

def inScope (ns coll : Chunk) (tail : Bytes) : Bytes :=
  beBytes 4 ns.val.length ++ (ns.val ++ (beBytes 4 coll.val.length ++ (coll.val ++ tail)))

/-- Scopes are spelled apart. -/
theorem inScope_inj {ns coll ns' coll' : Chunk} {t t' : Bytes} :
    inScope ns coll t = inScope ns' coll' t' ↔ ns = ns' ∧ coll = coll' ∧ t = t' := by
  unfold inScope
  rw [chunk_append_inj, chunk_append_inj]

def RowKey.suffix : RowKey → Bytes
  | .applied => [0x00, 0x61, 0x70, 0x70, 0x6c, 0x69, 0x65, 0x64]
  | .dedupSeq => [0x00, 0x64, 0x65, 0x64, 0x75, 0x70, 0x73, 0x65, 0x71]
  | .frozen start => 0x00 :: 0x01 :: start
  | .card ns coll => 0x01 :: inScope ns coll [0x00]
  | .elem ns coll m => 0x01 :: inScope ns coll (0x01 :: m)
  | .zptr ns coll m => 0x01 :: inScope ns coll (0x02 :: m)
  | .type ns coll => 0x01 :: inScope ns coll [0x03]
  | .ttlPtr ns coll m => 0x01 :: inScope ns coll (0x04 :: m)
  | .pool ns coll => 0x01 :: inScope ns coll [0x05]
  | .lease ns coll l => 0x01 :: inScope ns coll (0x06 :: l)
  | .tomb ns coll l => 0x01 :: inScope ns coll (0x07 :: l)
  | .ttlIdx e ns coll m => 0x02 :: (u64 e ++ inScope ns coll m)
  | .dedup key => 0x03 :: key
  | .ring slot => 0x04 :: u64 slot
  | .budExp t ns coll l => 0x05 :: (u64 t ++ inScope ns coll l)
  | .budTombGC t ns coll l => 0x06 :: (u64 t ++ inScope ns coll l)

def RowKey.enc (shardID : UInt64) (k : RowKey) : Bytes := shardPrefix shardID ++ k.suffix

theorem u64_eq_iff {m n : UInt64} : u64 m = u64 n ↔ m = n :=
  ⟨u64_inj, fun h => by rw [h]⟩

/-- No two rows share a spelling. -/
theorem RowKey.suffix_inj {a b : RowKey} : a.suffix = b.suffix ↔ a = b := by
  constructor
  · intro h
    cases a <;> cases b <;>
      simp_all [RowKey.suffix, inScope_inj, u64_append_inj, u64_eq_iff]
  · rintro rfl; rfl

/-- No two rows of a shard share a key. -/
@[simp] theorem RowKey.enc_inj {shardID : UInt64} {a b : RowKey} :
    a.enc shardID = b.enc shardID ↔ a = b := by
  unfold RowKey.enc
  rw [List.append_cancel_left_eq, RowKey.suffix_inj]

section
variable (shardID : UInt64) (ns coll : Chunk) (m : Bytes)

theorem appliedKey_eq : appliedKey shardID = RowKey.applied.enc shardID := by
  simp [appliedKey, RowKey.enc, RowKey.suffix]

theorem dedupSeqKey_eq : dedupSeqKey shardID = RowKey.dedupSeq.enc shardID := by
  simp [dedupSeqKey, RowKey.enc, RowKey.suffix]

theorem frozenKey_eq : frozenKey shardID m = (RowKey.frozen m).enc shardID := by
  simp [frozenKey, frozenSpace, RowKey.enc, RowKey.suffix]

theorem collScope_append (t : Bytes) :
    collScope shardID ns.val coll.val ++ t = shardPrefix shardID ++
      (0x01 :: inScope ns coll t) := by
  simp [collScope, appendChunk, dataSpace, inScope]

theorem cardKey_eq : cardKey shardID ns.val coll.val = (RowKey.card ns coll).enc shardID := by
  rw [cardKey, collScope_append]; rfl

theorem elemKey_eq : elemKey shardID ns.val coll.val m = (RowKey.elem ns coll m).enc shardID := by
  rw [elemKey, elemPrefix, List.append_assoc, collScope_append]; rfl

theorem zptrKey_eq : zptrKey shardID ns.val coll.val m = (RowKey.zptr ns coll m).enc shardID := by
  rw [zptrKey, List.append_assoc, collScope_append]; rfl

theorem typeKey_eq : typeKey shardID ns.val coll.val = (RowKey.type ns coll).enc shardID := by
  rw [typeKey, collScope_append]; rfl

theorem ttlPtrKey_eq :
    ttlPtrKey shardID ns.val coll.val m = (RowKey.ttlPtr ns coll m).enc shardID := by
  rw [ttlPtrKey, List.append_assoc, collScope_append]; rfl

theorem budPoolKey_eq :
    budPoolKey shardID ns.val coll.val = (RowKey.pool ns coll).enc shardID := by
  rw [budPoolKey, collScope_append]; rfl

theorem budLeaseKey_eq :
    budLeaseKey shardID ns.val coll.val m = (RowKey.lease ns coll m).enc shardID := by
  rw [budLeaseKey, budLeasePrefix, List.append_assoc, collScope_append]; rfl

theorem budTombKey_eq :
    budTombKey shardID ns.val coll.val m = (RowKey.tomb ns coll m).enc shardID := by
  rw [budTombKey, List.append_assoc, collScope_append]; rfl

theorem zscoreKey_eq (score : UInt64) :
    zscoreKey shardID ns.val coll.val score m
      = (RowKey.elem ns coll (sortableScore score ++ m)).enc shardID := by
  rw [zscoreKey, elemPrefix, List.append_assoc, List.append_assoc, collScope_append]; rfl

theorem ttlIndexKey_eq (expiry : UInt64) :
    ttlIndexKey shardID expiry ns.val coll.val m
      = (RowKey.ttlIdx expiry ns coll m).enc shardID := by
  simp [ttlIndexKey, ttlSpace, appendChunk, RowKey.enc, RowKey.suffix, inScope]

theorem dedupKey_eq : dedupKey shardID m = (RowKey.dedup m).enc shardID := by
  simp [dedupKey, RowKey.enc, RowKey.suffix]

theorem dedupRingKey_eq (slot : UInt64) :
    dedupRingKey shardID slot = (RowKey.ring slot).enc shardID := by
  simp [dedupRingKey, RowKey.enc, RowKey.suffix]

theorem budExpKey_eq (t : Int64) :
    budExpKey shardID t ns.val coll.val m
      = (RowKey.budExp t.toUInt64 ns coll m).enc shardID := by
  simp [budExpKey, budExpSpace, appendChunk, RowKey.enc, RowKey.suffix, inScope]

theorem budTombGCKey_eq (t : Int64) :
    budTombGCKey shardID t ns.val coll.val m
      = (RowKey.budTombGC t.toUInt64 ns coll m).enc shardID := by
  simp [budTombGCKey, budTombGCSpace, appendChunk, RowKey.enc, RowKey.suffix, inScope]

end

/-! ## Score keys -/

theorem signBit_toNat : signBit.toNat = 2 ^ 63 := by decide

theorem and_signBit_ne_zero (a : UInt64) : a &&& signBit ≠ 0 ↔ 2 ^ 63 ≤ a.toNat := by
  have hlt := a.toNat_lt
  rw [ne_eq, ← UInt64.toNat_inj, UInt64.toNat_and, signBit_toNat]
  constructor
  · intro h
    by_contra hc
    refine h (Nat.eq_of_testBit_eq fun i => ?_)
    rw [Nat.testBit_and, Nat.testBit_two_pow]
    by_cases hi : 63 = i
    · subst hi
      simp [Nat.testBit_lt_two_pow (not_le.mp hc)]
    · simp [hi]
  · intro h h0
    have ht : a.toNat.testBit 63 = true := by
      rw [Nat.testBit_eq_decide_div_mod_eq, decide_eq_true_eq]
      omega
    have hbit := congrArg (Nat.testBit · 63) h0
    simp only [Nat.testBit_and, ht, Nat.testBit_two_pow_self] at hbit
    cases hbit

theorem or_signBit_toNat {a : UInt64} (h : a.toNat < 2 ^ 63) :
    (a ||| signBit).toNat = a.toNat + 2 ^ 63 := by
  have hadd := Nat.two_pow_add_eq_or_of_lt h 1
  rw [Nat.mul_one] at hadd
  rw [UInt64.toNat_or, signBit_toNat, Nat.or_comm, ← hadd, Nat.add_comm]

/-- The number a score's sort key spells. -/
theorem sortBits_toNat (a : UInt64) :
    (if a &&& signBit ≠ 0 then ~~~a else a ||| signBit).toNat
      = if 2 ^ 63 ≤ a.toNat then 2 ^ 64 - 1 - a.toNat else a.toNat + 2 ^ 63 := by
  by_cases h : 2 ^ 63 ≤ a.toNat
  · rw [if_pos ((and_signBit_ne_zero a).mpr h), if_pos h]
    simp
  · rw [if_neg fun hc => h ((and_signBit_ne_zero a).mp hc), if_neg h]
    exact or_signBit_toNat (not_le.mp h)

/-- Distinct scores have distinct sort keys. -/
@[simp] theorem sortableScore_inj {a b : UInt64} : sortableScore a = sortableScore b ↔ a = b := by
  refine ⟨fun h => ?_, congrArg _⟩
  have hn := congrArg UInt64.toNat (u64_inj h)
  rw [sortBits_toNat, sortBits_toNat] at hn
  have ha := a.toNat_lt
  have hb := b.toNat_lt
  refine UInt64.toNat_inj.mp ?_
  split at hn <;> split at hn <;> omega

theorem length_sortableScore (a : UInt64) : (sortableScore a).length = 8 := length_u64 _

/-- A score-index key names its score and its member. -/
theorem sortableScore_append_inj {a b : UInt64} {m n : Bytes} :
    sortableScore a ++ m = sortableScore b ++ n ↔ a = b ∧ m = n := by
  constructor
  · intro h
    obtain ⟨hs, hm⟩ := List.append_inj h
      ((length_sortableScore a).trans (length_sortableScore b).symm)
    exact ⟨sortableScore_inj.mp hs, hm⟩
  · rintro ⟨rfl, rfl⟩
    rfl

end WaveSpan.Collections
