/-
WaveSpan.Records.Store — the local record store
(`internal/recordstore/store.go`).

`Store.apply` stores a versioned record, advances the key's latest pointer under
last-write-wins and appends to the mutation log, in one atomic batch. Which
record wins is decided on a cached copy of the pointer's version when the
incoming one is newer, and on the stored pointer otherwise. The cache is kept per
stripe and emptied when a stripe holds too many keys.

Reads go through the pointer: `get` and `scanRange` answer from the value copied
into it where there is one, `getRecord` and `scanRecords` from the versioned
record it names. A failed decode is `none` and leaves the store as it was;
storage faults are not modelled, and neither is the engine's own dropping of
expired rows.
-/
import WaveSpan.Collections.Store
import WaveSpan.Records.Keys

namespace WaveSpan.Records

open WaveSpan.Wire WaveSpan.Collections

/-! ## State -/

/-- A row of the metadata family: a latest pointer, or a TTL index entry holding
an encoded version. -/
inductive MetaRow where
  | pointer (lp : LatestPointer)
  | ttl (version : Bytes)
  deriving DecidableEq, Repr

/-- A row read as a latest pointer. A version's bytes are no pointer's: they start
with the high byte of a time in milliseconds, zero, which is no field tag. -/
def decodeLatestPointer : MetaRow → Option LatestPointer
  | .pointer lp => some lp
  | .ttl _ => none

/-- The column families the record store writes. -/
structure Disk where
  kvData : GoMap StoredRecord := ∅
  kvMeta : GoMap MetaRow := ∅
  replLog : GoMap MutationEnvelope := ∅

/-- The cached winner of a key. -/
structure LatestEntry where
  ver : Version
  tombstone : Bool
  deriving DecidableEq, Repr

def numStripes : UInt32 := 512

/-- The number of keys a stripe's cache holds before it is emptied. -/
def maxVerCachePer : Nat := 8192

structure Store where
  disk : Disk
  clock : Clock
  seq : Sequencer
  clusterID : Bytes
  memberID : Bytes
  logSeq : UInt64 := 0
  latestVer : UInt32 → GoMap LatestEntry := fun _ => ∅
  liveKeys : Int64 := 0

def newStore (disk : Disk) (clusterID memberID : Bytes) (clock : Clock) (seq : Sequencer) : Store :=
  { disk, clock, seq, clusterID, memberID }

def stripeIdx (ns key : Bytes) : UInt32 :=
  (ns ++ key).foldl (fun h b => (h ^^^ b.toUInt32) * 16777619) 2166136261 % numStripes

def cacheKey (ns key : Bytes) : Bytes := ns ++ 0 :: key

namespace Store

/-! ## Originating -/

/-- Stamps a new version at a reading of the wall clock. -/
def nextVersion (s : Store) (wall : UInt64) : Version × Store :=
  let ts := s.clock.now wall
  let sq := s.seq.next
  ({ hlcPhysicalMs := ts.1.physicalMs, hlcLogical := ts.1.logical,
     writerClusterID := s.clusterID, writerMemberID := s.memberID, writerSequence := sq.1 },
    { s with clock := ts.2, seq := sq.2 })

/-- The record of a put or a delete; a time to live reads the clock once more. -/
def buildRecord (s : Store) (wall : UInt64) (ns key value : Bytes) (v : Version)
    (tombstone : Bool) (ttlMs : Option Int64) : StoredRecord × Store :=
  let built : StoredRecord :=
    { ns, logicalKey := key, version := v, tombstone,
      value := if tombstone then .unset else .inline value,
      originClusterId := v.writerClusterID, originMemberId := v.writerMemberID }
  match ttlMs with
  | none => (built, s)
  | some ttl =>
    let ts := s.clock.now wall
    ({ built with expiresAtUnixMs := some (ts.1.physicalMs + ttl.toUInt64).toInt64 },
      { s with clock := ts.2 })

/-! ## Applying -/

/-- The winner as `apply` carries it, with the liveness of the winner before it
(`none` when the key had none). -/
structure Selected where
  winner : Version
  tombstone : Bool
  expiry : Option Int64
  inline : Option Bytes
  priorTombstone : Option Bool

def incoming (rec : StoredRecord) (prior : Option Bool) : Selected :=
  { winner := rec.version, tombstone := rec.tombstone, expiry := rec.expiresAtUnixMs,
    inline := none, priorTombstone := prior }

/-- The winner by the stored pointer: the standing one unless it is older. -/
def readWinner (s : Store) (rec : StoredRecord) : Option Selected :=
  match s.disk.kvMeta[latestKey rec.ns rec.logicalKey]? with
  | none => some (incoming rec none)
  | some row => do
    let lp ← decodeLatestPointer row
    if lp.winner.compare rec.version ≠ .lt then
      some { winner := lp.winner, tombstone := lp.tombstone, expiry := lp.expiresAtUnixMs,
             inline := lp.inlineValue, priorTombstone := some lp.tombstone }
    else some (incoming rec (some lp.tombstone))

/-- The winner: a record newer than the cached winner wins without a read. -/
def selectWinner (s : Store) (rec : StoredRecord) : Option Selected :=
  match (s.latestVer (stripeIdx rec.ns rec.logicalKey))[cacheKey rec.ns rec.logicalKey]? with
  | some cached =>
    if rec.version.compare cached.ver = .gt then some (incoming rec (some cached.tombstone))
    else s.readWinner rec
  | none => s.readWinner rec

def envelope (rec : StoredRecord) (kind : MutationKind) : MutationEnvelope :=
  { mutationId := rec.version.mutationID, kind, logicalKey := rec.logicalKey,
    value := rec.value, version := rec.version, expiresAtUnixMs := rec.expiresAtUnixMs,
    tombstone := rec.tombstone, ns := rec.ns, originClusterId := rec.originClusterId,
    originMemberId := rec.originMemberId, originSequence := rec.version.writerSequence }

/-- The TTL index entry of a live expiring record, written with it. -/
def indexTTL (rec : StoredRecord) (m : GoMap MetaRow) : GoMap MetaRow :=
  match rec.expiresAtUnixMs with
  | some e =>
    if rec.tombstone then m
    else m.insert (ttlKey e rec.ns rec.logicalKey) (.ttl (encodeVersion rec.version))
  | none => m

/-- A stripe's cache with one more entry, or only that one when it was full. -/
def remember (m : GoMap LatestEntry) (ckey : Bytes) (entry : LatestEntry) : GoMap LatestEntry :=
  if m.size < maxVerCachePer then m.insert ckey entry else (∅ : GoMap LatestEntry).insert ckey entry

/-- The pointer written with a record: the winner's attributes, its value copied
from the record when the record is the winner. -/
def newPointer (rec : StoredRecord) (sel : Selected) : LatestPointer :=
  { winner := sel.winner, tombstone := sel.tombstone, expiresAtUnixMs := sel.expiry,
    inlineValue := if sel.winner.equal rec.version then inlineValue rec else sel.inline }

/-- The change of the live-key count when a winner takes over. -/
def liveDelta (sel : Selected) : Int64 :=
  let beforeLive := sel.priorTombstone == some false
  let afterLive := !sel.tombstone
  if afterLive && !beforeLive then 1 else if beforeLive && !afterLive then -1 else 0

/-- The batch that stores a record under a chosen winner, and the cache after it. -/
def commit (s : Store) (rec : StoredRecord) (kind : MutationKind) (sel : Selected) : Store :=
  let logSeq := s.logSeq + 1
  let si := stripeIdx rec.ns rec.logicalKey
  { s with
    disk :=
      { kvData := s.disk.kvData.insert (dataKey rec.ns rec.logicalKey rec.version) rec,
        kvMeta := indexTTL rec
          (s.disk.kvMeta.insert (latestKey rec.ns rec.logicalKey) (.pointer (newPointer rec sel))),
        replLog := s.disk.replLog.insert (replLogKey rec.ns logSeq) (envelope rec kind) },
    logSeq := logSeq,
    liveKeys := s.liveKeys + liveDelta sel,
    latestVer := Function.update s.latestVer si
      (remember (s.latestVer si) (cacheKey rec.ns rec.logicalKey) ⟨sel.winner, sel.tombstone⟩) }

def apply (s : Store) (rec : StoredRecord) (kind : MutationKind) : Option (Version × Store) :=
  (s.selectWinner rec).map fun sel => (sel.winner, s.commit rec kind sel)

/-- The highest-versioned record of a list, the first among equals. -/
def maxRecord (r : StoredRecord) : List StoredRecord → StoredRecord
  | [] => r
  | x :: xs => maxRecord (if x.version.compare r.version = .gt then x else r) xs

/-- Stores a set of concurrent records for a key: the pointer names the highest
and lists the others. -/
def applySiblings (s : Store) (ns key : Bytes) (siblings : List StoredRecord) : Store :=
  match siblings with
  | [] => s
  | r :: rs =>
    let si := stripeIdx ns key
    let winner := maxRecord r rs
    let others := (siblings.map StoredRecord.version).filter (fun v => !v.equal winner.version)
    let lp : LatestPointer :=
      { winner := winner.version, tombstone := winner.tombstone,
        inlineValue := inlineValue winner, siblingVersions := others }
    { s with
      latestVer := Function.update s.latestVer si ((s.latestVer si).erase (cacheKey ns key)),
      disk :=
        { s.disk with
          kvData := siblings.foldl (fun m x => m.insert (dataKey ns key x.version) x)
            s.disk.kvData,
          kvMeta := s.disk.kvMeta.insert (latestKey ns key) (.pointer lp) } }

/-! ## Reads -/

def pointer? (s : Store) (ns key : Bytes) : Option LatestPointer :=
  s.disk.kvMeta[latestKey ns key]?.bind decodeLatestPointer

def getRecord (s : Store) (ns key : Bytes) : Option StoredRecord := do
  let lp ← s.pointer? ns key
  s.disk.kvData[dataKey ns key lp.winner]?

structure GetOutcome where
  found : Bool := false
  value : Bytes := []
  version : Version := {}
  tombstone : Bool := false
  conflictNone : Bool := false
  expiresAtMs : Option Int64 := none
  deriving DecidableEq, Repr

/-- Reads a key: `none` when its pointer does not decode. -/
def get (s : Store) (ns key : Bytes) : Option GetOutcome :=
  match s.disk.kvMeta[latestKey ns key]? with
  | none => some {}
  | some row => do
    let lp ← decodeLatestPointer row
    let out : GetOutcome :=
      { version := lp.winner, tombstone := lp.tombstone,
        conflictNone := lp.siblingVersions.isEmpty, expiresAtMs := lp.expiresAtUnixMs }
    if lp.tombstone then some out
    else
      match lp.inlineValue with
      | some v => some { out with found := true, value := v }
      | none =>
        match s.disk.kvData[dataKey ns key lp.winner]? with
        | none => some out
        | some rec => some { out with found := true, value := rec.value.getInline }

def scanMeta (s : Store) (start : Bytes) (stop : Option Bytes) : List (Bytes × MetaRow) :=
  s.disk.kvMeta.toList.filter fun r => inRange start stop r.1

def scanStop (ns : Bytes) : Option Bytes → Option Bytes
  | none => prefixEnd (namespacePrefix ns)
  | some stop => some (latestKey ns stop)

structure ScanRow where
  key : Bytes
  value : Bytes
  version : Version
  expiresAtMs : Option Int64
  deriving DecidableEq, Repr

/-- Whether a pointer is passed over by a scan at `nowMs`. -/
def hidden (lp : LatestPointer) (nowMs : Int64) : Bool :=
  lp.tombstone || match lp.expiresAtUnixMs with
    | some e => decide (e ≤ nowMs)
    | none => false

/-- The row a pointer gives: its own copy of the value, or the record's. -/
def scanRow (s : Store) (ns : Bytes) (nowMs : Int64) (r : Bytes × MetaRow) : Option ScanRow := do
  let lp ← decodeLatestPointer r.2
  let userKey := r.1.drop (namespacePrefix ns).length
  if hidden lp nowMs then none
  else
    let value ←
      match lp.inlineValue with
      | some v => some v
      | none => (s.disk.kvData[dataKey ns userKey lp.winner]?).map (·.value.getInline)
    some { key := userKey, value, version := lp.winner, expiresAtMs := lp.expiresAtUnixMs }

/-- The live rows of a namespace in `[start, stop)`, the first `limit` of them
when a limit is given. -/
def scanRange (s : Store) (ns start : Bytes) (stop : Option Bytes) (limit : Int) (nowMs : Int64) :
    List ScanRow :=
  let rows := (s.scanMeta (latestKey ns start) (scanStop ns stop)).filterMap (s.scanRow ns nowMs)
  if 0 < limit then rows.take limit.toNat else rows

def scanRecord (s : Store) (ns : Bytes) (r : Bytes × MetaRow) : Option StoredRecord := do
  let lp ← decodeLatestPointer r.2
  s.disk.kvData[dataKey ns (r.1.drop (namespacePrefix ns).length) lp.winner]?

/-- The winning records of a namespace in `[start, stop)`, deletes included. -/
def scanRecords (s : Store) (ns start : Bytes) (stop : Option Bytes) : List StoredRecord :=
  (s.scanMeta (latestKey ns start) (scanStop ns stop)).filterMap (s.scanRecord ns)

/-! ## Eviction -/

/-- Drops a key's pointer and all its versions from the local store. -/
def forget (s : Store) (ns key : Bytes) : Store :=
  let space := dataKeyPrefix ns key
  let versions := (s.disk.kvData.toList.filter fun r =>
    inRange space (prefixEnd space) r.1).map (·.1)
  { s with
    disk :=
      { s.disk with
        kvMeta := s.disk.kvMeta.erase (latestKey ns key),
        kvData := versions.foldl (fun m k => m.erase k) s.disk.kvData } }

end Store

end WaveSpan.Records
