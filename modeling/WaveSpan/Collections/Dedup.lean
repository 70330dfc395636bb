/-
WaveSpan.Collections.Dedup — the idempotency cache of a shard
(`internal/collections/dedup.go`).

The results of keyed commands are cached in rows of their own and evicted first
in, first out through a ring of 4096 slots. `recorded` reads the records a batch
makes off its ops, so a record of an entry that was rolled back does not count.
`DedupInv` is the invariant inside a batch: cache and ring are those of the whole
history of records (`Ring.Holds`), and the in-batch overlay has exactly the
records of this batch. It holds under any batching.

From it follows that a keyed command whose key is among the last 4096 records is
answered with the recorded result and does nothing, unless its range is frozen:
the freeze is checked first (`keyed_retry`).
-/
import WaveSpan.Lib.Ring
import WaveSpan.Collections.Poison

namespace WaveSpan.Collections

open WaveSpan.Wire WaveSpan.Rows WaveSpan.Prog

/-! ## Cache, ring and records -/

section
variable (s : UInt64)

def cacheOf (st : Store) (key : Bytes) : Option Bytes := st[(RowKey.dedup key).enc s]?

def ringOf (st : Store) (slot : Nat) : Option Bytes :=
  if slot < 4096 then st[(RowKey.ring (UInt64.ofNat slot)).enc s]? else none

def recordOf : StoreOp → Option (Bytes × Bytes)
  | .put k v =>
    if (dedupKey s []).isPrefixOf k then some (k.drop (dedupKey s []).length, v) else none
  | .del _ => none

def recorded (ops : List StoreOp) : List (Bytes × Bytes) := ops.filterMap (recordOf s)

end

def resultOf (v : Bytes) : ProposeResult := { value := getU64 v, data := v.drop 8 }

section
variable {s : UInt64}

@[simp] theorem resultOf_record (r : ProposeResult) : resultOf (u64 r.value ++ r.data) = r := by
  simp [resultOf]

theorem recordOf_put_dedup (key v : Bytes) :
    recordOf s (.put (dedupKey s key) v) = some (key, v) := by
  have hp : dedupKey s key = dedupKey s [] ++ key := by simp [dedupKey]
  simp [recordOf, hp]

/-- A write of any other row is no record. -/
theorem recordOf_eq_none {op : StoreOp} (h : ∀ key, op.key ≠ (RowKey.dedup key).enc s) :
    recordOf s op = none := by
  cases op with
  | del _ => rfl
  | put k v =>
    refine if_neg fun hp => ?_
    obtain ⟨key, hkey⟩ := List.isPrefixOf_iff_prefix.mp hp
    refine h key ?_
    rw [← dedupKey_eq, Op.key, ← hkey]
    simp [dedupKey]

theorem recorded_append (xs ys : List StoreOp) :
    recorded s (xs ++ ys) = recorded s xs ++ recorded s ys := List.filterMap_append

/-- Ops on other rows make no records. -/
theorem recorded_eq_nil {ops : List StoreOp}
    (h : ∀ op ∈ ops, ∀ key, op.key ≠ (RowKey.dedup key).enc s) : recorded s ops = [] := by
  rw [recorded, List.filterMap_eq_nil_iff]
  exact fun op hop => recordOf_eq_none (h op hop)

/-- The ring row of a slot number. -/
theorem slot_eq_iff {i j : Nat} (hj : j < 4096) :
    UInt64.ofNat i % dedupRingSize = UInt64.ofNat j ↔ i % 4096 = j := by
  rw [← UInt64.toNat_inj]
  simp only [dedupRingSize, UInt64.toNat_mod, UInt64.toNat_ofNat', UInt64.reduceToNat]
  omega

/-! ## Caching one result -/

section
variable {c : Command} {u u' : UpdateCtx} {r : ProposeResult}

def recordOps (s : UInt64) (key : Bytes) (r : ProposeResult) (u : UpdateCtx) : List StoreOp :=
  (evicted s u).toList.map (fun old => .del (dedupKey s old))
    ++ [.put (dedupRingKey s (u.dedupSeq % dedupRingSize)) key,
        .put (dedupKey s key) (u64 r.value ++ r.data)]

theorem remember_eq (hd : deduped c = true) :
    remember s c r u = { (u.emit (recordOps s c.idem r u)) with
      dedupSeq := u.dedupSeq + 1, inBatchDedup := u.inBatchDedup.insert c.idem r } := by
  simp [remember, hd, recordOps, dedupRecord, UpdateCtx.setDedup, UpdateCtx.emit]

theorem remember_rows (hd : deduped c = true) :
    (remember s c r u).rows = batchRC u.rows (recordOps s c.idem r u) := by
  rw [remember_eq hd, ← rows_emit]
  rfl

theorem recorded_recordOps (key : Bytes) :
    recorded s (recordOps s key r u) = [(key, u64 r.value ++ r.data)] := by
  have hdel : recorded s ((evicted s u).toList.map fun old => .del (dedupKey s old)) = [] := by
    rw [recorded, List.filterMap_eq_nil_iff]
    intro op hop
    obtain ⟨old, -, rfl⟩ := List.mem_map.mp hop
    rfl
  have hring : recordOf s (.put (dedupRingKey s (u.dedupSeq % dedupRingSize)) key) = none :=
    recordOf_eq_none fun key' he => by
      rw [Op.key, dedupRingKey_eq, RowKey.enc_inj] at he
      cases he
  rw [recordOps, recorded_append, hdel, List.nil_append, recorded, List.filterMap_cons, hring,
    List.filterMap_cons, recordOf_put_dedup, List.filterMap_nil]

/-- The rows after a result is remembered. -/
theorem getElem?_recordOps (st : Store) (key k : Bytes) :
    (batchRC st (recordOps s key r u))[k]? =
      if dedupKey s key = k then some (u64 r.value ++ r.data)
      else if dedupRingKey s (u.dedupSeq % dedupRingSize) = k then some key
      else if ∃ old, evicted s u = some old ∧ dedupKey s old = k then none
      else st[k]? := by
  have hrun : batchRC st (recordOps s key r u)
      = runOp (runOp (runOps st ((evicted s u).toList.map fun old => .del (dedupKey s old)))
          (.put (dedupRingKey s (u.dedupSeq % dedupRingSize)) key))
        (.put (dedupKey s key) (u64 r.value ++ r.data)) := by
    rw [batchRC, recordOps, runOps_append]
    rfl
  rw [hrun, getElem?_runOp_put, getElem?_runOp_put]
  cases hev : evicted s u with
  | none => simp
  | some old =>
    simp only [Option.toList_some, List.map_cons, List.map_nil, runOps, List.foldl_cons,
      List.foldl_nil, getElem?_runOp_del, Option.some.injEq, exists_eq_left']

/-- The cache evicts the slot's old key. -/
theorem cacheOf_recordOps (st : Store) (key : Bytes) :
    cacheOf s (batchRC st (recordOps s key r u))
      = Ring.putCache (cacheOf s st) (evicted s u) key (u64 r.value ++ r.data) := by
  funext key'
  rw [cacheOf, getElem?_recordOps, Ring.putCache, cacheOf]
  simp only [dedupKey_eq, dedupRingKey_eq, RowKey.enc_inj, RowKey.dedup.injEq, reduceCtorEq,
    if_false, exists_eq_right, eq_comm (a := key)]

theorem ringOf_recordOps (st : Store) (key : Bytes) {n : Nat}
    (hseq : u.dedupSeq = UInt64.ofNat n) :
    ringOf s (batchRC st (recordOps s key r u)) = Ring.putSlot (ringOf s st) (n % 4096) key := by
  funext j
  unfold ringOf Ring.putSlot
  by_cases hj : j < 4096
  · simp only [if_pos hj, getElem?_recordOps, dedupKey_eq, dedupRingKey_eq, RowKey.enc_inj,
      RowKey.ring.injEq, reduceCtorEq, if_false, and_false, exists_false, hseq, slot_eq_iff hj,
      eq_comm (a := j)]
  · have hne : j ≠ n % 4096 := by omega
    simp only [if_neg hj, if_neg hne]

end

/-! ## The invariant -/

structure DedupBase (s : UInt64) (hist : List (Bytes × Bytes)) (st : Store) : Prop where
  seq : readDedupSeq s st = UInt64.ofNat hist.length
  holds : Ring.Holds 4096 hist (ringOf s st) (cacheOf s st)
  long : ∀ key v, cacheOf s st key = some v → 8 ≤ v.length
  keyed : ∀ key v, (key, v) ∈ hist → 0 < key.length

/-- The cache inside a batch that started from `hist` and `st`. -/
structure DedupInv (s : UInt64) (hist : List (Bytes × Bytes)) (st : Store) (u : UpdateCtx) :
    Prop where
  store : u.store = st
  seq : u.dedupSeq = UInt64.ofNat (hist ++ recorded s u.ops).length
  holds : Ring.Holds 4096 (hist ++ recorded s u.ops) (ringOf s u.rows) (cacheOf s u.rows)
  long : ∀ key v, cacheOf s u.rows key = some v → 8 ≤ v.length
  fresh : ∀ key v, (key, v) ∈ recorded s u.ops → cacheOf s st key = none
  keyed : ∀ key v, (key, v) ∈ recorded s u.ops → 0 < key.length
  shape : ∀ key v, (key, v) ∈ recorded s u.ops → ∃ r : ProposeResult, v = u64 r.value ++ r.data
  overlay : ∀ key r, u.inBatchDedup[key]? = some r ↔
    (key, u64 r.value ++ r.data) ∈ recorded s u.ops
  seqRow : u.rows[RowKey.dedupSeq.enc s]? = st[RowKey.dedupSeq.enc s]?

def OffRing (s : UInt64) (op : StoreOp) : Prop :=
  (∀ key, op.key ≠ (RowKey.dedup key).enc s) ∧ (∀ slot, op.key ≠ (RowKey.ring slot).enc s) ∧
    op.key ≠ RowKey.dedupSeq.enc s

section
variable {hist : List (Bytes × Bytes)} {st : Store} {c : Command} {u u' : UpdateCtx}

/-- A batch starts from the stored records. -/
theorem DedupBase.start (h : DedupBase s hist st) : DedupInv s hist st (newCtx s st) := by
  have hrec : recorded s (newCtx s st).ops = [] := rfl
  have hrows : (newCtx s st).rows = st := rfl
  constructor
  · rfl
  · rw [hrec, List.append_nil]
    exact h.seq
  · rw [hrec, List.append_nil, hrows]
    exact h.holds
  · rw [hrows]
    exact h.long
  · simp [hrec]
  · simp [hrec]
  · simp [hrec]
  · intro key r
    rw [hrec]
    simp [newCtx]
  · rw [hrows]

theorem offRing_of_key {op : StoreOp} {k : RowKey} {p : Chunk × Chunk} (hk : k.scope = some p)
    (he : op.key = k.enc s) : OffRing s op := by
  refine ⟨fun key h => ?_, fun slot h => ?_, fun h => ?_⟩ <;>
    rw [he, RowKey.enc_inj] at h <;> subst h <;> cases hk

/-- Writes off the idempotency rows keep the invariant. -/
theorem DedupInv.frame {new : List StoreOp} (h : DedupInv s hist st u)
    (hstore : u'.store = u.store) (hseq : u'.dedupSeq = u.dedupSeq)
    (hov : u'.inBatchDedup = u.inBatchDedup) (hops : u'.ops = u.ops ++ new)
    (hnew : ∀ op ∈ new, OffRing s op) : DedupInv s hist st u' := by
  have hrec : recorded s u'.ops = recorded s u.ops := by
    rw [hops, recorded_append, recorded_eq_nil (fun op hop => (hnew op hop).1), List.append_nil]
  have hrow : ∀ k : Bytes, (∀ op ∈ new, op.key ≠ k) → u'.rows[k]? = u.rows[k]? := by
    intro k hk
    rw [UpdateCtx.rows, UpdateCtx.rows, hstore, hops, batchRC, batchRC, runOps_append]
    exact getElem?_runOps_of_forall_ne _ hk
  have hcache : cacheOf s u'.rows = cacheOf s u.rows := by
    funext key
    exact hrow _ fun op hop => (hnew op hop).1 key
  have hring : ringOf s u'.rows = ringOf s u.rows := by
    funext j
    unfold ringOf
    rw [hrow _ fun op hop => (hnew op hop).2.1 _]
  constructor
  · rw [hstore]; exact h.store
  · rw [hseq, hrec]; exact h.seq
  · rw [hrec, hcache, hring]; exact h.holds
  · rw [hcache]; exact h.long
  · rw [hrec]; exact h.fresh
  · rw [hrec]; exact h.keyed
  · rw [hrec]; exact h.shape
  · rw [hrec, hov]; exact h.overlay
  · rw [hrow _ fun op hop => (hnew op hop).2.2]; exact h.seqRow

/-- What a command writes lies off the ring. -/
theorem DedupInv.steps (h : DedupInv s hist st u) (hs : Steps s c u u') :
    DedupInv s hist st u' := by
  obtain ⟨new, hops, hkeys⟩ := hs.local.emits
  refine h.frame hs.quiet.store hs.quiet.dedupSeq hs.quiet.inBatchDedup hops fun op hop => ?_
  obtain ⟨k, hk, he⟩ := hkeys op hop
  exact offRing_of_key hk.scope he

/-- What the source takes for an unknown key is one: neither cached before the
batch nor recorded by it. -/
theorem DedupInv.unknown (hb : DedupBase s hist st) (h : DedupInv s hist st u) {key : Bytes}
    (hk : knownResult s key u = none) :
    cacheOf s st key = none ∧ ∀ v, (key, v) ∉ recorded s u.ops := by
  unfold knownResult at hk
  split at hk
  · cases hk
  · rename_i hov
    constructor
    · cases hc : cacheOf s st key with
      | none => rfl
      | some v =>
        have hlen := hb.long key v hc
        rw [cacheOf, ← dedupKey_eq] at hc
        rw [dedupGet, UpdateCtx.getData, h.store, hc, dedupRow, if_neg (by omega)] at hk
        cases hk
    · intro v hv
      obtain ⟨r, rfl⟩ := h.shape key v hv
      rw [(h.overlay key r).mpr hv] at hov
      cases hov

/-- The evicted key is the one the stored ring names in the slot. -/
theorem DedupInv.evicted_eq (hb : DedupBase s hist st) (h : DedupInv s hist st u) :
    evicted s u = ringOf s st ((hist ++ recorded s u.ops).length % 4096) := by
  have hslot : u.dedupSeq % dedupRingSize
      = UInt64.ofNat ((hist ++ recorded s u.ops).length % 4096) := by
    rw [h.seq]
    exact (slot_eq_iff (Nat.mod_lt _ (by decide))).mpr rfl
  have hring : ringOf s st ((hist ++ recorded s u.ops).length % 4096)
      = u.getData (dedupRingKey s (u.dedupSeq % dedupRingSize)) := by
    rw [ringOf, if_pos (Nat.mod_lt _ (by decide)), UpdateCtx.getData, h.store, hslot,
      dedupRingKey_eq]
  rw [evicted, ← hring]
  cases hold : ringOf s st ((hist ++ recorded s u.ops).length % 4096) with
  | none => rfl
  | some old =>
    obtain ⟨i, v, hi, -, -⟩ := hb.holds.sound _ _ hold
    have := hb.keyed old v (List.mem_of_getElem? hi)
    simp [Option.filter, this]

/-- Caching a result under an unknown key keeps the invariant, with one more record. -/
theorem DedupInv.record {r : ProposeResult} (hb : DedupBase s hist st)
    (h : DedupInv s hist st u) (hd : deduped c = true) (hk : knownResult s c.idem u = none) :
    DedupInv s hist st (remember s c r u) ∧
      recorded s (remember s c r u).ops
        = recorded s u.ops ++ [(c.idem, u64 r.value ++ r.data)] := by
  obtain ⟨hfresh, hnew⟩ := h.unknown hb hk
  have hlen : 0 < c.idem.length := by
    simp only [deduped, Bool.and_eq_true, decide_eq_true_eq] at hd
    exact hd.2
  have hrec : recorded s (remember s c r u).ops
      = recorded s u.ops ++ [(c.idem, u64 r.value ++ r.data)] := by
    rw [remember_eq hd]
    exact (recorded_append ..).trans (by rw [recorded_recordOps])
  have hcache : cacheOf s (remember s c r u).rows
      = Ring.putCache (cacheOf s u.rows) (ringOf s st ((hist ++ recorded s u.ops).length % 4096))
          c.idem (u64 r.value ++ r.data) := by
    rw [remember_rows hd, cacheOf_recordOps, h.evicted_eq hb]
  have hring : ringOf s (remember s c r u).rows
      = Ring.putSlot (ringOf s u.rows) ((hist ++ recorded s u.ops).length % 4096) c.idem := by
    rw [remember_rows hd, ringOf_recordOps _ _ h.seq]
  -- a record of the longer list is the new one or an old one
  have hmem : ∀ {key v}, (key, v) ∈ recorded s (remember s c r u).ops →
      (key, v) ∈ recorded s u.ops ∨ (key = c.idem ∧ v = u64 r.value ++ r.data) := by
    intro key v hv
    rw [hrec] at hv
    simpa using hv
  refine ⟨?_, hrec⟩
  constructor
  · rw [remember_eq hd]
    exact h.store
  · rw [hrec, ← List.append_assoc, List.length_append, List.length_singleton, UInt64.ofNat_add,
      ← h.seq, remember_eq hd]
    rfl
  · rw [hrec, hcache, hring]
    exact Ring.Holds.record (by decide) hb.holds h.holds h.fresh hfresh hnew
  · intro key v hv
    rw [hcache, Ring.putCache] at hv
    split at hv
    · cases hv
      simp
    · split at hv
      · cases hv
      · exact h.long key v hv
  · intro key v hv
    rcases hmem hv with hv | ⟨rfl, -⟩
    · exact h.fresh key v hv
    · exact hfresh
  · intro key v hv
    rcases hmem hv with hv | ⟨rfl, -⟩
    · exact h.keyed key v hv
    · exact hlen
  · intro key v hv
    rcases hmem hv with hv | ⟨-, rfl⟩
    · exact h.shape key v hv
    · exact ⟨r, rfl⟩
  · intro key r'
    have hins : (remember s c r u).inBatchDedup[key]?
        = if c.idem = key then some r else u.inBatchDedup[key]? := by
      rw [remember_eq hd]
      simp only [Std.ExtTreeMap.getElem?_insert, Std.LawfulEqCmp.compare_eq_iff_eq]
    rw [hins, hrec, List.mem_append, List.mem_singleton]
    by_cases hkey : c.idem = key
    · subst hkey
      rw [if_pos rfl]
      constructor
      · rintro ⟨⟩
        exact .inr rfl
      · rintro (hold | heq)
        · exact absurd hold (hnew _)
        · simp only [Prod.mk.injEq, true_and] at heq
          have := congrArg resultOf heq
          rw [resultOf_record, resultOf_record] at this
          rw [this]
    · rw [if_neg hkey, h.overlay]
      simp [Ne.symm hkey]
  · rw [remember_rows hd, getElem?_recordOps, ← h.seqRow]
    simp [dedupKey_eq, dedupRingKey_eq]

/-- A command does not change its own key's record before it is done. -/
theorem Steps.knownResult (h : Steps s c u u') : knownResult s c.idem u' =
    knownResult s c.idem u := by
  rw [Collections.knownResult, Collections.knownResult, dedupGet, dedupGet, UpdateCtx.getData,
    UpdateCtx.getData, h.quiet.store, h.quiet.inBatchDedup]

/-- A command keeps the invariant, and makes at most one record: its own result
under its own key. -/
theorem DedupInv.cmdStep {r : ProposeResult} (hb : DedupBase s hist st)
    (h : DedupInv s hist st u) (hs : CmdStep s c u r u') : DedupInv s hist st u' := by
  rcases hs with hs | ⟨hd, hk, v, hv, rfl⟩
  · exact h.steps hs
  · exact ((h.steps hv).record hb hd (hv.knownResult.trans hk)).1

/-- The commands of a batch keep the ring. -/
theorem DedupInv.run {cs : List Command} (hb : DedupBase s hist st)
    (h : DedupInv s hist st u) (hs : Run s cs u u') : DedupInv s hist st u' := by
  induction hs with
  | nil => exact h
  | cons hc _ ih => exact ih (h.cmdStep hb hc)

/-! ## Migration and freeze entries -/

/-- An ingest brings rows of collections only, none of the shard's own: such are the rows a
migration scans, which have a routing key, and any slice of them. -/
def RoutedIngest (cmd : Bytes) : Prop :=
  opByte? cmd = some .ingest → ∀ kvs, decodeIngest cmd = .ok kvs → ∀ kv ∈ kvs,
    ∃ rk, routeKeyOf kv.suffix = some rk

/-- Rows with a routing key are off the idempotency rows. -/
theorem offRing_of_routed {op : StoreOp} {suffix rk : Bytes}
    (he : op.key = shardPrefix s ++ suffix) (hrk : routeKeyOf suffix = some rk) :
    OffRing s op := by
  refine ⟨fun key h => ?_, fun slot h => ?_, fun h => ?_⟩ <;>
    rw [he, RowKey.enc, List.append_cancel_left_eq] at h <;> subst h <;>
    simp [routeKeyOf, RowKey.suffix] at hrk

theorem DedupInv.emit {ops : List StoreOp} (h : DedupInv s hist st u)
    (hops : ∀ op ∈ ops, OffRing s op) : DedupInv s hist st (u.emit ops) :=
  h.frame rfl rfl rfl rfl hops

theorem DedupInv.entryStep {cmd : Bytes} (hb : DedupBase s hist st) (h : DedupInv s hist st u)
    (hok : RoutedIngest cmd) (hs : EntryStep s cmd u u') : DedupInv s hist st u' := by
  have hfrozen : ∀ (start : Bytes) (op : StoreOp), op.key = frozenKey s start →
      ∀ op' ∈ [op], OffRing s op' := by
    intro start op hop op' hop'
    rw [List.mem_singleton.mp hop']
    refine ⟨fun key he => ?_, fun slot he => ?_, fun he => ?_⟩ <;>
      rw [hop, frozenKey_eq, RowKey.enc_inj] at he <;> cases he
  cases hs with
  | ingest hop hd =>
    refine h.emit fun op hmem => ?_
    obtain ⟨kv, hkv, rfl⟩ := List.mem_map.mp hmem
    obtain ⟨rk, hrk⟩ := hok hop _ hd kv hkv
    exact offRing_of_routed rfl hrk
  | purge _ _ =>
    refine h.emit fun op hmem => ?_
    obtain ⟨kv, hkv, rfl⟩ := List.mem_map.mp hmem
    obtain ⟨-, rk, hrk, -⟩ := mem_scanRange.mp (scanRange_subset hkv)
    exact offRing_of_routed rfl hrk
  | freeze _ _ => exact h.emit (hfrozen _ _ rfl)
  | unfreeze _ _ => exact h.emit (hfrozen _ _ rfl)
  | commands _ hrun => exact h.run hb hrun

/-- The invariant after the entries of a batch. -/
theorem DedupBase.afterEntries {fl : FloatOps} {es : List Entry} {rs : List ProposeResult}
    (hb : DedupBase s hist st) (hes : ∀ e ∈ es, RoutedIngest e.cmd)
    (hu : applyEntries fl s (loadFrozen s st) es (newCtx s st) = .ok (u, rs)) :
    DedupInv s hist st u :=
  applyEntries_inv (fun e he _ _ hv hw => hv.entryStep hb (hes e he) hw) hb.start hu

/-- The sequence number a batch leaves behind is the one its context had reached. -/
theorem DedupInv.readDedupSeq_eq {st' : Store} (h : DedupInv s hist st u)
    (hst' : st'[RowKey.dedupSeq.enc s]?
      = (batchRC st (u.ops ++ seqOps s st u))[RowKey.dedupSeq.enc s]?) :
    readDedupSeq s st' = u.dedupSeq := by
  have hrows : batchRC st u.ops = u.rows := by rw [UpdateCtx.rows, h.store]
  rw [readDedupSeq, dedupSeqKey_eq, hst']
  by_cases hne : u.dedupSeq ≠ readDedupSeq s st
  · rw [seqOps, if_pos hne, batchRC, runOps_concat, getElem?_runOp_put, if_pos (dedupSeqKey_eq s)]
    simp
  · have hrow : (batchRC st (u.ops ++ seqOps s st u))[RowKey.dedupSeq.enc s]?
        = st[RowKey.dedupSeq.enc s]? := by
      rw [seqOps, if_neg hne, List.append_nil, hrows, h.seqRow]
    rw [hrow, not_not.mp hne, readDedupSeq, dedupSeqKey_eq]

/-- A batch of a run takes the cache of one history to that of the longer. -/
theorem DedupBase.afterUpdate {fl : FloatOps} {es : List Entry}
    {rs : List ProposeResult} {st' : Store}
    (hb : DedupBase s hist st) (hes : ∀ e ∈ es, RoutedIngest e.cmd)
    (hu : applyEntries fl s (loadFrozen s st) es (newCtx s st) = .ok (u, rs))
    (hst : update fl s st es = .ok (st', rs)) : DedupBase s (hist ++ recorded s u.ops) st' := by
  have hinv := hb.afterEntries hes hu
  by_cases hne : es = []
  · subst hne
    cases hu
    cases hst
    have hrec : recorded s (newCtx s st).ops = [] := rfl
    rw [hrec, List.append_nil]
    exact hb
  obtain ⟨u', cards, last, hu', -, -, hcards, rfl⟩ := update_cases hne hst
  rw [hu] at hu'
  cases hu'
  have hcache : ∀ v, cacheOf s (batchRC st (u.ops ++ seqOps s st u ++ cards
      ++ [.put (appliedKey s) v])) = cacheOf s u.rows := by
    intro v
    funext key
    rw [cacheOf, getElem?_closing hcards rfl (by simp), getElem?_seqOps hinv.store (by simp),
      cacheOf]
  have hring : ∀ v, ringOf s (batchRC st (u.ops ++ seqOps s st u ++ cards
      ++ [.put (appliedKey s) v])) = ringOf s u.rows := by
    intro v
    funext j
    rw [ringOf, getElem?_closing hcards rfl (by simp), getElem?_seqOps hinv.store (by simp),
      ringOf]
  constructor
  · rw [hinv.readDedupSeq_eq (getElem?_closing hcards rfl (by simp)), hinv.seq]
  · rw [hcache, hring]
    exact hinv.holds
  · rw [hcache]
    exact hinv.long
  · intro key v hv
    rcases List.mem_append.mp hv with hv | hv
    · exact hb.keyed key v hv
    · exact hinv.keyed key v hv

/-! ## Runs -/

/-- A run of a shard with the records it has made so far. -/
inductive History (fl : FloatOps) (s : UInt64) : List (Bytes × Bytes) → Store → Prop where
  | empty : History fl s [] ∅
  | update {hist : List (Bytes × Bytes)} {st st' : Store} {es : List Entry}
      {rs : List ProposeResult} {u : UpdateCtx}
      (h : History fl s hist st) (hes : ∀ e ∈ es, RoutedIngest e.cmd)
      (hu : applyEntries fl s (loadFrozen s st) es (newCtx s st) = .ok (u, rs))
      (hst : update fl s st es = .ok (st', rs)) : History fl s (hist ++ recorded s u.ops) st'

theorem DedupBase.empty : DedupBase s [] ∅ := by
  have hring : ringOf s ∅ = fun _ => none := by
    funext j
    simp [ringOf]
  have hcache : cacheOf s ∅ = fun _ => none := by
    funext key
    simp [cacheOf]
  refine ⟨by simp [readDedupSeq], ?_, ?_, by simp⟩
  · rw [hring, hcache]
    exact Ring.holds_nil
  · intro key v hv
    rw [hcache] at hv
    cases hv

/-- Every reached store has a sound ring. -/
theorem History.base {fl : FloatOps} (h : History fl s hist st) : DedupBase s hist st := by
  induction h with
  | empty => exact .empty
  | update _ hes hu hst ih => exact ih.afterUpdate hes hu hst

/-- A moment inside a batch of a run: some entries of the batch are done, and of
the current entry some commands. -/
structure Moment (fl : FloatOps) (s : UInt64) (hist : List (Bytes × Bytes)) (st : Store)
    (u : UpdateCtx) : Prop where
  history : History fl s hist st
  done : ∃ (es : List Entry) (subs : List Bytes) (rs rs' : List ProposeResult) (v : UpdateCtx),
    (∀ e ∈ es, RoutedIngest e.cmd) ∧
    applyEntries fl s (loadFrozen s st) es (newCtx s st) = .ok (v, rs) ∧
    applySubs fl s (loadFrozen s st) [] subs v = .ok rs' u

theorem Moment.inv {fl : FloatOps} (h : Moment fl s hist st u) : DedupInv s hist st u := by
  obtain ⟨es, subs, rs, rs', v, hes, hv, hu⟩ := h.done
  have hb := h.history.base
  have hrun := applySubs_done fl s (loadFrozen s st) v [] subs
  rw [hu] at hrun
  obtain ⟨cs, -, hrun⟩ := hrun
  exact (hb.afterEntries hes hv).run hb hrun

/-- A result recorded among the last 4096 is known. -/
theorem DedupInv.known (hb : DedupBase s hist st) (h : DedupInv s hist st u) {i : Nat}
    {key : Bytes} {r : ProposeResult}
    (hi : (hist ++ recorded s u.ops)[i]? = some (key, u64 r.value ++ r.data))
    (hw : (hist ++ recorded s u.ops).length ≤ i + 4096) : knownResult s key u = some r := by
  unfold knownResult
  rcases Ring.getElem?_append_cases hi with ⟨-, hbase⟩ | ⟨-, hnew⟩
  · have hcached : cacheOf s st key = some (u64 r.value ++ r.data) :=
      hb.holds.cached i key _ hbase (by rw [List.length_append] at hw; omega)
    have hov : u.inBatchDedup[key]? = none := by
      cases hv : u.inBatchDedup[key]? with
      | none => rfl
      | some r' =>
        have := h.fresh key _ ((h.overlay key r').mp hv)
        rw [hcached] at this
        cases this
    rw [cacheOf, ← dedupKey_eq] at hcached
    rw [hov, dedupGet, UpdateCtx.getData, h.store, hcached, dedupRow, if_neg (by simp)]
    simp
  · rw [(h.overlay key r).mpr hnew]

/-- A command returns and makes at most one record: the result it returns, under
its key. -/
theorem DedupInv.recorded_cmdStep {r : ProposeResult} (hb : DedupBase s hist st)
    (h : DedupInv s hist st u) (hs : CmdStep s c u r u') :
    recorded s u'.ops = recorded s u.ops ∨
      recorded s u'.ops = recorded s u.ops ++ [(c.idem, u64 r.value ++ r.data)] := by
  have hsteps : ∀ {v}, Steps s c u v → recorded s v.ops = recorded s u.ops := by
    intro v hv
    obtain ⟨new, hops, hkeys⟩ := hv.local.emits
    have hnil : recorded s new = [] := recorded_eq_nil fun op hop => by
      obtain ⟨k, hk, he⟩ := hkeys op hop
      exact (offRing_of_key hk.scope he).1
    rw [hops, recorded_append, hnil, List.append_nil]
  rcases hs with hs | ⟨hd, hk, v, hv, rfl⟩
  · exact .inl (hsteps hs)
  · exact .inr (by rw [((h.steps hv).record hb hd (hv.knownResult.trans hk)).2, hsteps hv])

/-- A known key is answered from its record. -/
theorem applyDecoded_known {fl : FloatOps} {frozen : List FrozenRange} {r : ProposeResult}
    (hm : mutates c.op = true) (hlen : 0 < c.idem.length)
    (hk : knownResult s c.idem u = some r) :
    applyDecoded fl s frozen c u = .ok r u ∨
      (frozenCovers frozen (routeKey c.ns.val c.coll.val) = true ∧
        applyDecoded fl s frozen c u = .ok { data := frozenMark } u) := by
  unfold applyDecoded
  by_cases hf : 0 < frozen.length ∧ mutates c.op = true ∧
      frozenCovers frozen (routeKey c.ns.val c.coll.val) = true
  · rw [if_pos hf]
    exact .inr ⟨hf.2.2, rfl⟩
  · have hd : deduped c = true := by simp [deduped, hm, hlen]
    rw [if_neg hf, if_pos hd]
    refine .inl (bind_apply_ok (a := some r) (t := u) ?_)
    rw [reads_apply, hk]

/-- Exactly-once keyed writes. At any moment of any run, a command that records a
result records the one it returns, under its own key. And a mutation whose key is
that of a record with fewer than 4096 later ones changes nothing and returns the
recorded result; only when its routing key was frozen before the batch it is
turned away instead, and changes nothing either. -/
theorem keyed_retry {fl : FloatOps} (h : Moment fl s hist st u) :
    (∀ cmd c r u', decodeCommandInto cmd = .ok c →
      applyOne fl s (loadFrozen s st) cmd u = .ok r u' →
      recorded s u'.ops = recorded s u.ops ∨
        recorded s u'.ops = recorded s u.ops ++ [(c.idem, u64 r.value ++ r.data)]) ∧
    ∀ (i : Nat) (key : Bytes) (r : ProposeResult),
      (hist ++ recorded s u.ops)[i]? = some (key, u64 r.value ++ r.data) →
      (hist ++ recorded s u.ops).length ≤ i + 4096 →
      ∀ cmd c, decodeCommandInto cmd = .ok c → mutates c.op = true → c.idem = key →
        applyOne fl s (loadFrozen s st) cmd u = .ok r u ∨
          (frozenCovers (loadFrozen s st) (routeKey c.ns.val c.coll.val) = true ∧
            applyOne fl s (loadFrozen s st) cmd u = .ok { data := frozenMark } u) := by
  have hb := h.history.base
  have hinv := h.inv
  refine ⟨fun cmd c r u' hd hu => ?_, fun i key r hi hw cmd c hd hm hkey => ?_⟩
  · have hdone := applyOne_done fl s (loadFrozen s st) u cmd
    rw [hu] at hdone
    obtain ⟨c', hd', hstep⟩ := hdone
    rw [hd] at hd'
    cases hd'
    exact hinv.recorded_cmdStep hb hstep
  · subst hkey
    have hlen : 0 < c.idem.length := by
      rcases List.mem_append.mp (List.mem_of_getElem? hi) with hmem | hmem
      · exact hb.keyed _ _ hmem
      · exact hinv.keyed _ _ hmem
    unfold applyOne
    rw [hd]
    exact applyDecoded_known hm hlen (hinv.known hb hi hw)

end

end

def keyedAdd : Bytes := encodeCommand
  { op := .sAdd, ns := Chunk.byte 1, coll := Chunk.byte 2, idem := [9],
    items := [{ key := Chunk.byte 7 }] }

/-- A repetition in the same batch. -/
theorem keyedAdd_retry :
    ∃ u, Moment FloatOps.absent 1 [] ∅ u ∧ recorded 1 u.ops = [([9], u64 1)] ∧
      applyOne FloatOps.absent 1 (loadFrozen 1 ∅) keyedAdd u = .ok { value := 1 } u := by
  obtain ⟨u, rs, hu, -⟩ := applyEntries_ok FloatOps.absent 1 (loadFrozen 1 ∅) (newCtx 1 ∅)
    [{ index := 1, cmd := keyedAdd }]
  have hm : Moment FloatOps.absent 1 [] ∅ u :=
    ⟨.empty, _, [], rs, [], u, fun e he => by
      rw [List.mem_singleton.mp he]
      exact fun h => absurd h (by decide +kernel), hu, rfl⟩
  have hrec : (applyEntries FloatOps.absent 1 (loadFrozen 1 ∅) [{ index := 1, cmd := keyedAdd }]
      (newCtx 1 ∅)).map (fun p => recorded 1 p.1.ops) = .ok [([9], u64 1)] := by decide +kernel
  rw [hu, Except.map, Except.ok.injEq] at hrec
  have hop : (decodeCommandInto keyedAdd).map (fun c => (mutates c.op, c.idem))
      = .ok (true, [9]) := by decide +kernel
  refine ⟨u, hm, hrec, ?_⟩
  cases hc : decodeCommandInto keyedAdd with
  | error e => rw [hc] at hop; cases hop
  | ok c =>
    rw [hc, Except.map, Except.ok.injEq, Prod.mk.injEq] at hop
    rcases (keyed_retry hm).2 0 [9] { value := 1 } (by rw [hrec]; rfl) (by rw [hrec]; decide)
      keyedAdd c hc hop.1 hop.2 with h | ⟨hf, -⟩
    · exact h
    · exact absurd hf (by simp [frozenCovers, show loadFrozen 1 ∅ = [] from by decide +kernel])

/-- A repetition after its range was frozen is turned away. -/
theorem keyedAdd_frozen :
    (updates FloatOps.absent 1 ∅ [[{ index := 1, cmd := keyedAdd }],
        [{ index := 2, cmd := encodeFreeze (routeKey [1] [2]) [] }],
        [{ index := 3, cmd := keyedAdd }]]).map Prod.snd
      = .ok [{ value := 1 }, { value := 1 }, { data := frozenMark }] := by
  decide +kernel

end WaveSpan.Collections
