/-
WaveSpan.Collections.Lookup — the read queries of a shard
(`internal/collections/statemachine.go`, `budget.go`, `ttl.go`, `migrate.go`).

`lookup` answers a query from one snapshot of the store. Point queries read one
row, listings scan one key range, and the migration scan returns raw rows. A
counter row that is not eight bytes long is an error; a value too short for the
number it should hold panics.
-/
import WaveSpan.Collections.StateMachine
import Mathlib.Data.List.Nodup

namespace WaveSpan.Collections

open WaveSpan.Wire WaveSpan.Rows

inductive Query where
  | isMember (ns coll member : Bytes)
  | card (ns coll : Bytes)
  | cardCheck (ns coll : Bytes)
  | members (ns coll : Bytes) (limit : Int)
  | hGet (ns coll field : Bytes)
  | hGetAll (ns coll : Bytes) (limit : Int)
  | zScore (ns coll member : Bytes)
  | zRange (ns coll : Bytes) (limit : Int)
  | collections (ns : Bytes)
  | collectionInfos (ns : Bytes)
  | budStat (ns coll : Bytes)
  | budCheck (ns coll : Bytes)
  | ttlDue (nowMs : Int64) (limit : Int)
  | budExpiryDue (nowMs : Int64) (limit : Int)
  | budTombGCDue (nowMs : Int64) (limit : Int)
  | migrateScan (startRoute endRoute : Bytes) (limit : Int)
  deriving DecidableEq, Repr

/-- The read-side view of a pool. -/
structure BudStat where
  cap : Int64
  available : Int64
  leasedOut : Int64
  spent : Int64
  spentReported : Int64
  epoch : UInt64
  mode : UInt8
  deriving DecidableEq, Repr

/-- The conservation probe: its verdict and the buckets. -/
structure BudCheck where
  ok : Bool
  cap : Int64
  available : Int64
  leasedOut : Int64
  spent : Int64
  spentReported : Int64
  deriving DecidableEq, Repr

/-- A row of a due index: its time and the element or lease it is about. -/
structure Due where
  ns : Bytes
  coll : Bytes
  member : Bytes
  due : UInt64
  deriving DecidableEq, Repr

/-- The answers, one shape per kind of query. -/
inductive Answer where
  | found (b : Bool)
  | count (n : UInt64)
  | cardCheck (stored counted : UInt64)
  | keys (l : List Bytes)
  | value (v : Option Bytes)
  | fields (l : List (Bytes × Bytes))
  | score (sc : Option UInt64)
  | scored (l : List (Bytes × UInt64))
  | infos (l : List (Bytes × UInt8))
  | stat (b : Option BudStat)
  | check (b : Option BudCheck)
  | due (l : List Due)
  | rows (l : List RawKV)
  deriving DecidableEq, Repr

/-- Why a query fails. -/
inductive LookupErr where
  | corruptCard
  | apply (e : ApplyErr)
  deriving DecidableEq, Repr

/-- All rows under a key prefix, keys without it. -/
def scanSuffixes (st : Store) (pfx : Bytes) (limit : Int) : List (Bytes × Bytes) :=
  (scan st pfx (prefixEnd pfx) limit).map fun r => (r.1.drop pfx.length, r.2)

/-- A due-index row's key after its space: time, collection and member. -/
def dueOf (suffix : Bytes) : Option Due :=
  if suffix.length < 8 then none
  else
    match takeChunk (suffix.drop 8) with
    | none => none
    | some (ns, rest) =>
      match takeChunk rest with
      | none => none
      | some (coll, member) =>
        some { ns := ns.val, coll := coll.val, member, due := getU64 suffix }

def scanDue (st : Store) (space : Bytes) (nowMs : Int64) (limit : Int) : List Due :=
  (scan st space (some (space ++ u64 (nowMs.toUInt64 + 1))) limit).filterMap fun r =>
    dueOf (r.1.drop space.length)

/-- The collection a header row belongs to, given the key after `chunk(ns)`. -/
def headerOf (rest : Bytes) : Option Bytes :=
  match takeChunk rest with
  | none => none
  | some (coll, suffix) => if suffix = [0x03] then some coll.val else none

section
variable (s : UInt64)

/-- The header rows of a namespace: collection names and datatype bytes. -/
def headers (st : Store) (ns : Bytes) : List (Bytes × UInt8) :=
  (scanSuffixes st (appendChunk (dataSpace s) ns) 0).filterMap fun r =>
    (headerOf r.1).map fun coll => (coll, r.2.headD 0)

def snapCard (st : Store) (ns coll : Bytes) : Except LookupErr UInt64 :=
  match st[cardKey s ns coll]? with
  | none => .ok 0
  | some v => if v.length ≠ 8 then .error .corruptCard else .ok (getU64 v)

def snapPool (st : Store) (ns coll : Bytes) : Except LookupErr (Option PoolRec) :=
  match st[budPoolKey s ns coll]? with
  | none => .ok none
  | some v =>
    match decodePool v with
    | .error e => .error (.apply e)
    | .ok p => .ok (some p)

def budStatOf (p : PoolRec) : BudStat :=
  { cap := p.cap, available := p.available, leasedOut := p.leasedOut, spent := p.spent,
    spentReported := p.spentReported, epoch := p.epoch, mode := p.mode }

def budCheckOf (p : PoolRec) : BudCheck :=
  { ok := p.available + p.leasedOut + p.spent == p.cap && p.spent ≤ p.cap &&
      p.available ≥ 0 && p.leasedOut ≥ 0 && p.spent ≥ 0
    cap := p.cap, available := p.available, leasedOut := p.leasedOut, spent := p.spent,
    spentReported := p.spentReported }

def lookup (st : Store) : Query → Except LookupErr Answer
  | .isMember ns coll member => .ok (.found (st[elemKey s ns coll member]?).isSome)
  | .card ns coll => (snapCard s st ns coll).map .count
  | .cardCheck ns coll =>
    (snapCard s st ns coll).map fun stored =>
      .cardCheck stored (UInt64.ofNat (scanSuffixes st (elemPrefix s ns coll) 0).length)
  | .members ns coll limit =>
    .ok (.keys ((scanSuffixes st (elemPrefix s ns coll) limit).map Prod.fst))
  | .hGet ns coll field => .ok (.value st[elemKey s ns coll field]?)
  | .hGetAll ns coll limit => .ok (.fields (scanSuffixes st (elemPrefix s ns coll) limit))
  | .zScore ns coll member =>
    match numberRow st[zptrKey s ns coll member]? with
    | .error e => .error (.apply e)
    | .ok sc => .ok (.score sc)
  | .zRange ns coll limit =>
    .ok (.scored ((scanSuffixes st (elemPrefix s ns coll) limit).filterMap fun r =>
      if r.1.length < 8 then none else some (r.1.drop 8, unsortableScore r.1)))
  | .collections ns => .ok (.keys ((headers s st ns).map Prod.fst))
  | .collectionInfos ns => .ok (.infos (headers s st ns))
  | .budStat ns coll => (snapPool s st ns coll).map fun p => .stat (p.map budStatOf)
  | .budCheck ns coll => (snapPool s st ns coll).map fun p => .check (p.map budCheckOf)
  | .ttlDue nowMs limit => .ok (.due (scanDue st (ttlSpace s) nowMs limit))
  | .budExpiryDue nowMs limit => .ok (.due (scanDue st (budExpSpace s) nowMs limit))
  | .budTombGCDue nowMs limit => .ok (.due (scanDue st (budTombGCSpace s) nowMs limit))
  | .migrateScan start stop limit =>
    .ok (.rows (scanRange st (shardPrefix s) start stop limit))

end

/-! ## Scans of one space -/

/-- A scan of suffixes. -/
theorem mem_scanSuffixes_iff {st : Store} {pfx suffix v : Bytes} :
    (suffix, v) ∈ scanSuffixes st pfx 0 ↔ st[pfx ++ suffix]? = some v := by
  unfold scanSuffixes
  rw [List.mem_map]
  constructor
  · rintro ⟨⟨k, w⟩, hmem, heq⟩
    obtain ⟨hrow, tail, htail⟩ := mem_scan_iff.mp hmem
    simp only at hrow htail heq
    subst htail
    rw [List.drop_left, Prod.mk.injEq] at heq
    obtain ⟨rfl, rfl⟩ := heq
    exact hrow
  · intro h
    exact ⟨(pfx ++ suffix, v), mem_scan_iff.mpr ⟨h, suffix, rfl⟩, by simp⟩

theorem nodup_scanSuffixes (st : Store) (pfx : Bytes) : (scanSuffixes st pfx 0).Nodup := by
  refine List.Nodup.map_on ?_ ?_
  · rintro ⟨k, v⟩ hk ⟨k', v'⟩ hk' heq
    obtain ⟨-, tail, rfl⟩ := mem_scan_iff.mp hk
    obtain ⟨-, tail', rfl⟩ := mem_scan_iff.mp hk'
    simpa using heq
  · exact (nodup_toList st).filter _

end WaveSpan.Collections
