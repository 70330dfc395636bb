/-
WaveSpan.Backup.Reshard — where the rows of a collection go when the number of shards changes
(`internal/collections/reshard.go`, `directory.go`, and the key builders of `statemachine.go`,
`ttl.go` and `budget.go`).

A dozen builders spell the keys of a collection's rows, some with a time before the names. One
decoder reads the names back off any of them, so all rows of a collection follow its route key to
one shard (`reshard_whole`). The builders share no keys and no collection's rows lie in another's
scope, with one exception inside a collection: the score index of a sorted set uses the element
space, which is the reason a collection has one datatype.

The decoder compares lengths in 32 bits, and does not read a key of four gigabytes
(`reshard_long`).
-/
import WaveSpan.Backup.Selection

namespace WaveSpan.Backup

open WaveSpan.Wire WaveSpan.Collections

/-! ## Rows by builder -/

inductive Kind where
  | type
  | card
  | elem
  | score (bits : UInt64)
  | zptr
  | ttlPtr
  | ttlIdx (expiry : UInt64)
  | pool
  | lease
  | tomb
  | budExp (reclaimMs : Int64)
  | budTombGC (gcDueMs : Int64)
  deriving DecidableEq

def Kind.key (s : UInt64) (ns coll m : Bytes) : Kind → Bytes
  | .type => typeKey s ns coll
  | .card => cardKey s ns coll
  | .elem => elemKey s ns coll m
  | .score bits => zscoreKey s ns coll bits m
  | .zptr => zptrKey s ns coll m
  | .ttlPtr => ttlPtrKey s ns coll m
  | .ttlIdx expiry => ttlIndexKey s expiry ns coll m
  | .pool => budPoolKey s ns coll
  | .lease => budLeaseKey s ns coll m
  | .tomb => budTombKey s ns coll m
  | .budExp t => budExpKey s t ns coll m
  | .budTombGC t => budTombGCKey s t ns coll m

def Kind.row (ns coll : Chunk) (m : Bytes) : Kind → RowKey
  | .type => .type ns coll
  | .card => .card ns coll
  | .elem => .elem ns coll m
  | .score bits => .elem ns coll (sortableScore bits ++ m)
  | .zptr => .zptr ns coll m
  | .ttlPtr => .ttlPtr ns coll m
  | .ttlIdx expiry => .ttlIdx expiry ns coll m
  | .pool => .pool ns coll
  | .lease => .lease ns coll m
  | .tomb => .tomb ns coll m
  | .budExp t => .budExp t.toUInt64 ns coll m
  | .budTombGC t => .budTombGC t.toUInt64 ns coll m

/-- Whether a collection has one such row for each member. -/
def Kind.named : Kind → Bool
  | .type | .card | .pool => false
  | _ => true

/-- An element row and a score row with one key: the element is spelled like the score and its
member. Which of the two a collection has is a matter of its datatype. -/
def Kind.Shares (m m' : Bytes) : Kind → Kind → Prop
  | .elem, .score bits => m = sortableScore bits ++ m'
  | .score bits, .elem => m' = sortableScore bits ++ m
  | _, _ => False

section
variable {s : UInt64} {ns coll ns' coll' : Chunk} {m m' : Bytes} {k k' : Kind}

theorem Kind.key_eq : k.key s ns.val coll.val m = (k.row ns coll m).enc s := by
  cases k <;> simp only [Kind.key, Kind.row, typeKey_eq, cardKey_eq, elemKey_eq, zscoreKey_eq,
    zptrKey_eq, ttlPtrKey_eq, ttlIndexKey_eq, budPoolKey_eq, budLeaseKey_eq, budTombKey_eq,
    budExpKey_eq, budTombGCKey_eq]

theorem Kind.scope_row : (k.row ns coll m).scope = some (ns, coll) := by
  cases k <;> rfl

theorem Kind.drop_key : (k.key s ns.val coll.val m).drop 8 = (k.row ns coll m).suffix := by
  rw [Kind.key_eq]
  exact drop_u64_append ..

/-- A row names its collection, its kind and its member, but for a score row. -/
theorem Kind.row_eq_iff : k.row ns coll m = k'.row ns' coll' m' ↔
    (ns, coll) = (ns', coll') ∧ (k = k' ∧ (k.named = true → m = m') ∨ k.Shares m m' k') := by
  have htime : ∀ {a b : Int64}, a.toUInt64 = b.toUInt64 → a = b := fun h =>
    congrArg Int64.ofUInt64 h
  cases k <;> cases k' <;>
    simp [Kind.row, Kind.Shares, Kind.named, sortableScore_append_inj] <;> grind

/-- The scope of a collection holds rows of that collection only. -/
theorem Kind.collScope_prefix (h : collScope s ns'.val coll'.val <+: k.key s ns.val coll.val m) :
    (ns', coll') = (ns, coll) := by
  obtain ⟨t, ht⟩ := h
  rw [collScope_append, Kind.key_eq, RowKey.enc, List.append_cancel_left_eq] at ht
  have hdata : ∀ {t'}, 0x01 :: inScope ns' coll' t = 0x01 :: inScope ns coll t' →
      (ns', coll') = (ns, coll) := by
    intro t' h
    obtain ⟨rfl, rfl, -⟩ := inScope_inj.mp (List.cons.inj h).2
    rfl
  cases k <;> first
    | exact hdata ht
    | exact absurd (List.cons.inj ht).1 (by decide)

end

/-! ## Routes -/

/-- A collection's shard is one of the shards. -/
theorem shardForKey_range (ns coll : Bytes) {newN : UInt64} (hN : newN.toNat + 2 ≤ 2 ^ 64) :
    firstDataShard.toNat ≤ (Restore.shardForKey ns coll newN).toNat ∧
      (Restore.shardForKey ns coll newN).toNat < firstDataShard.toNat + max newN.toNat 1 := by
  have hfirst : firstDataShard.toNat = 2 := rfl
  have hclamp : (if newN < 1 then 1 else newN).toNat = max newN.toNat 1 := by
    split <;> rename_i h <;> rw [UInt64.lt_iff_toNat_lt, UInt64.toNat_one] at h
    · rw [UInt64.toNat_one]
      omega
    · omega
  have hmod := Nat.mod_lt (Restore.fnv1a64 (routeKey ns coll)).toNat
    (show 0 < max newN.toNat 1 by omega)
  rw [Restore.shardForKey, UInt64.toNat_add, UInt64.toNat_mod, hclamp, hfirst,
    Nat.mod_eq_of_lt (by omega)]
  omega

/-- A row is routed by its collection. -/
theorem rerouteSuffix_row {k : RowKey} {ns coll : Chunk} (hscope : k.scope = some (ns, coll))
    (h : k.suffix.length < 2 ^ 32) (newN : UInt64) :
    Restore.rerouteSuffix k.suffix newN =
      .ok (some (Restore.shardForKey ns.val coll.val newN)) := by
  have hnames := nsCollOfSuffix_suffix h
  rw [hscope] at hnames
  have hlen : ∀ {sub : UInt8} {due : UInt64} {b : Bytes}, ¬ (sub :: (u64 due ++ b)).length < 9 := by
    simp
  cases k <;> first
    | (cases hscope; done)
    | simp_all [Restore.rerouteSuffix, RowKey.suffix]

/-- Every row of a collection goes to the collection's shard, and is told apart by its key. -/
theorem reshard_whole (s : UInt64) (ns coll : Chunk) (k : Kind) (m : Bytes) (newN : UInt64) :
    ((k.key s ns.val coll.val m).length < 2 ^ 32 →
      Restore.nsCollOfSuffix ((k.key s ns.val coll.val m).drop 8) = some (ns.val, coll.val) ∧
      Restore.rerouteSuffix ((k.key s ns.val coll.val m).drop 8) newN =
        .ok (some (Restore.shardForKey ns.val coll.val newN))) ∧
    (newN.toNat + 2 ≤ 2 ^ 64 →
      firstDataShard.toNat ≤ (Restore.shardForKey ns.val coll.val newN).toNat ∧
      (Restore.shardForKey ns.val coll.val newN).toNat < firstDataShard.toNat + max newN.toNat 1) ∧
    (∀ ns' coll' k' m', k.key s ns.val coll.val m = k'.key s ns'.val coll'.val m' ↔
      (ns, coll) = (ns', coll') ∧ (k = k' ∧ (k.named = true → m = m') ∨ k.Shares m m' k')) ∧
    ∀ ns' coll' : Chunk, collScope s ns'.val coll'.val <+: k.key s ns.val coll.val m →
      (ns', coll') = (ns, coll) := by
  refine ⟨fun hlen => ?_, shardForKey_range _ _, fun ns' coll' k' m' => ?_,
    fun ns' coll' h => Kind.collScope_prefix h⟩
  · have hsuffix : (k.row ns coll m).suffix.length < 2 ^ 32 := by
      rw [← Kind.drop_key (s := s), List.length_drop]
      omega
    rw [Kind.drop_key, nsCollOfSuffix_suffix hsuffix, Kind.scope_row]
    exact ⟨rfl, rerouteSuffix_row Kind.scope_row hsuffix newN⟩
  · rw [Kind.key_eq, Kind.key_eq, RowKey.enc_inj]
    exact Kind.row_eq_iff

/-- The score row of a member, among four shards. -/
theorem reshard_whole_score :
    Restore.nsCollOfSuffix ((Kind.key 2 [1] [2] [7] (.score 0)).drop 8) = some ([1], [2]) ∧
      2 ≤ (Restore.shardForKey [1] [2] 4).toNat ∧ (Restore.shardForKey [1] [2] 4).toNat < 6 := by
  obtain ⟨hroute, hrange, -⟩ :=
    reshard_whole 2 ⟨[1], by decide⟩ ⟨[2], by decide⟩ (.score 0) [7] 4
  exact ⟨(hroute (by decide)).1, hrange (by decide)⟩

/-! ## Long names -/

/-- A row whose collection cannot be read is refused. -/
theorem rerouteSuffix_none {b : Bytes} (h : takeChunk b = none) (newN : UInt64) :
    Restore.rerouteSuffix (0x01 :: b) newN = .error .noCollection := by
  simp [Restore.rerouteSuffix, Restore.nsCollOfSuffix, h]

/-- A row in a namespace with a name of nearly four gigabytes is not routed. And the element
space of a collection spells a score row like an element. -/
theorem reshard_long :
    (∃ ns : Chunk, Restore.rerouteSuffix ((Kind.key 2 ns.val [] [] .card).drop 8) 4 =
      .error .noCollection) ∧
    Kind.key 2 [1] [2] (sortableScore 0 ++ [7]) .elem = Kind.key 2 [1] [2] [7] (.score 0) := by
  obtain ⟨ns, hns⟩ := exists_long
  refine ⟨⟨ns, ?_⟩, by decide⟩
  have hkey : (Kind.key 2 ns.val [] [] .card).drop 8 =
      0x01 :: (appendChunk [] ns.val ++ (appendChunk [] [] ++ [0x00])) := by
    simp [Kind.key, cardKey, collScope, dataSpace, shardPrefix, appendChunk]
  rw [hkey]
  exact rerouteSuffix_none (takeChunk_long hns (by decide) (by decide)) 4

end WaveSpan.Backup
