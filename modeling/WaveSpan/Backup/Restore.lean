/-
WaveSpan.Backup.Restore — a node's logical export and the store that is filled from it
(`internal/backup/logical_export.go`, `logical_restore.go`, `internal/recordstore/repair.go`,
`internal/collections/reshard.go`).

A store is one ordered map with the column family as the first byte of a key. Of the engine
no more is assumed than that a batch is written as a whole.

The restore is a program of requests to the store. The backup does not change while
it is read, so reading it is no request. What a logical object's bytes decode to is given
as its pairs, with a mark if the last one is torn.
-/
import WaveSpan.Lib.Effect
import WaveSpan.Collections.Command
import WaveSpan.Collections.Keys
import WaveSpan.Records.Spaces

namespace WaveSpan.Backup

open WaveSpan.Wire WaveSpan.Collections WaveSpan.Effect WaveSpan.Rows
open WaveSpan.Records (StoredRecord LatestPointer Version)

/-! ## Stores -/

/-- The logical key spaces of a node. -/
inductive ColumnFamily where
  | sys | kvData | kvMeta | graphData | graphIndex | vectorRaw | vectorIndex | replLog | cacheMeta
  | replData
  deriving DecidableEq, Repr

def ColumnFamily.tag : ColumnFamily → UInt8
  | .sys => 0
  | .kvData => 1
  | .kvMeta => 2
  | .graphData => 3
  | .graphIndex => 4
  | .vectorRaw => 5
  | .vectorIndex => 6
  | .replLog => 7
  | .cacheMeta => 8
  | .replData => 9

def ColumnFamily.name : ColumnFamily → Bytes
  | .sys => ascii "sys"
  | .kvData => ascii "kv_data"
  | .kvMeta => ascii "kv_meta"
  | .graphData => ascii "graph_data"
  | .graphIndex => ascii "graph_index"
  | .vectorRaw => ascii "vector_raw"
  | .vectorIndex => ascii "vector_index"
  | .replLog => ascii "repl_log"
  | .cacheMeta => ascii "cache_meta"
  | .replData => ascii "repl_data"

def knownColumnFamilies : List ColumnFamily :=
  [.sys, .kvData, .kvMeta, .graphData, .graphIndex, .vectorRaw, .vectorIndex, .replLog, .cacheMeta,
    .replData]

def cfByName (name : Bytes) : Option ColumnFamily :=
  knownColumnFamilies.find? fun cf => cf.name = name

/-- A stored value: a record, a latest pointer, or bytes that are neither. -/
inductive Row where
  | record (rec : StoredRecord)
  | latest (lp : LatestPointer)
  | bytes (b : Bytes)
  deriving DecidableEq, Repr

def decodeStoredRecord : Row → Option StoredRecord
  | .record rec => some rec
  | _ => none

def decodeLatest : Row → Option LatestPointer
  | .latest lp => some lp
  | _ => none

def rowKey (cf : ColumnFamily) (key : Bytes) : Bytes := cf.tag :: key

theorem ColumnFamily.tag_inj {a b : ColumnFamily} (h : a.tag = b.tag) : a = b := by
  revert h
  cases a <;> cases b <;> decide

/-- Rows of different families do not meet. -/
theorem rowKey_inj {cf cf' : ColumnFamily} {k k' : Bytes} :
    rowKey cf k = rowKey cf' k' ↔ cf = cf' ∧ k = k' := by
  constructor
  · intro h
    obtain ⟨ht, hk⟩ := List.cons.inj h
    exact ⟨ColumnFamily.tag_inj ht, hk⟩
  · rintro ⟨rfl, rfl⟩
    rfl

abbrev LocalStore := GoMap Row

abbrev Write := Op Bytes Row

def scanRows (s : LocalStore) (cf : ColumnFamily) (start : Bytes) (stop : Option Bytes) :
    List (Bytes × Row) :=
  s.toList.filterMap fun r =>
    match r.1 with
    | [] => none
    | t :: key => if t = cf.tag ∧ inRange start stop key then some (key, r.2) else none

def firstDataShard : UInt64 := 2

namespace Restore

inductive Req where
  | get (cf : ColumnFamily) (key : Bytes)
  | scan (cf : ColumnFamily) (start : Bytes) (stop : Option Bytes)
  | batch (ops : List Write)

abbrev Rep : Req → Type
  | .get _ _ => Option Row
  | .scan _ _ _ => List (Bytes × Row)
  | .batch _ => Unit

def answer (s : LocalStore) : (r : Req) → Rep r × LocalStore
  | .get cf key => (s[rowKey cf key]?, s)
  | .scan cf start stop => (scanRows s cf start stop, s)
  | .batch ops => ((), runOps s ops)

inductive Err where
  | formatVersion
  | noObject
  | tornObject
  | entryCount
  | shortKey
  | emptySuffix
  | unknownSub
  | shortSuffix
  | noCollection
  deriving DecidableEq, Repr

abbrev Prog := Effect.Prog Req Rep Err

def ask (r : Req) : Prog (Rep r) := Effect.Prog.request r

/-! ## The backup -/

structure CFEntry where
  cf : Bytes
  entries : Int
  deriving DecidableEq, Repr

/-- An object of a logical export: its pairs, and whether bytes are left that make no
pair. -/
structure CFObject where
  pairs : List (Bytes × Row)
  torn : Bool := false

/-- A node's sub-manifest and the objects next to it. -/
structure NodeExport where
  formatVersion : Int
  cfs : List CFEntry
  objects : GoMap CFObject

def manifestFormatVersion : Int := 1

def authoritativeCFs : List ColumnFamily :=
  [.sys, .kvData, .kvMeta, .replData, .graphData, .graphIndex, .vectorRaw, .vectorIndex]

def versionLEQ (v : Version) (frontierMs : Int64) : Bool := v.hlcPhysicalMs ≤ frontierMs.toUInt64

/-- Whether a pair is exported: a record from after the frontier is not. -/
def exported (captureMs : Int64) (cf : ColumnFamily) (kv : Bytes × Row) : Bool :=
  if 0 < captureMs ∧ cf = .kvData then
    match decodeStoredRecord kv.2 with
    | some rec => versionLEQ rec.version captureMs
    | none => true
  else true

def exportPairs (captureMs : Int64) (src : LocalStore) (cf : ColumnFamily) : List (Bytes × Row) :=
  (scanRows src cf [] none).filter (exported captureMs cf)

/-- The logical export of a node; an empty family is left out. -/
def exportLogical (captureMs : Int64) (src : LocalStore) : NodeExport :=
  let cfs := authoritativeCFs.filter fun cf => exportPairs captureMs src cf ≠ []
  { formatVersion := manifestFormatVersion
    cfs := cfs.map fun cf => ⟨cf.name, (exportPairs captureMs src cf).length⟩
    objects := cfs.foldl (fun m cf => m.insert cf.name ⟨exportPairs captureMs src cf, false⟩) ∅ }

/-! ## Batches -/

def batchSize : Nat := 1000

def flush (ops : List Write) : Prog Unit :=
  if ops = [] then pure () else ask (.batch ops)

/-- More writes for a batch, which is written when it is full. -/
def push (ops more : List Write) : Prog (List Write) :=
  if batchSize ≤ (ops ++ more).length then do
    flush (ops ++ more)
    pure []
  else pure (ops ++ more)

/-! ## Resharding -/

def fnv1a64 (b : Bytes) : UInt64 :=
  b.foldl (fun h c => (h ^^^ c.toUInt64) * 1099511628211) 14695981039346656037

def shardForKey (ns coll : Bytes) (dataShards : UInt64) : UInt64 :=
  firstDataShard + fnv1a64 (routeKey ns coll) % (if dataShards < 1 then 1 else dataShards)

def nsCollOfSuffix (suffix : Bytes) : Option (Bytes × Bytes) :=
  match suffix with
  | [] => none
  | sub :: rest =>
    let body :=
      if sub = 0x01 then some rest
      else if sub = 0x02 ∨ sub = 0x05 ∨ sub = 0x06 then
        if suffix.length < 9 then none else some (suffix.drop 9)
      else none
    match body with
    | none => none
    | some body =>
      match takeChunk body with
      | none => none
      | some (ns, rest) =>
        match takeChunk rest with
        | none => none
        | some (coll, _) => some (ns.val, coll.val)

/-- The shard of a suffix; none for rows that a shard keeps for itself. -/
def rerouteSuffix (suffix : Bytes) (newN : UInt64) : Except Err (Option UInt64) :=
  match suffix with
  | [] => .error .emptySuffix
  | sub :: _ =>
    if sub = 0x00 ∨ sub = 0x03 ∨ sub = 0x04 then .ok none
    else if sub = 0x01 ∨ sub = 0x02 ∨ sub = 0x05 ∨ sub = 0x06 then
      if sub ≠ 0x01 ∧ suffix.length < 9 then .error .shortSuffix
      else
        match nsCollOfSuffix suffix with
        | none => .error .noCollection
        | some (ns, coll) => .ok (some (shardForKey ns coll newN))
    else .error .unknownSub

def reshardKey (key : Bytes) (n : UInt64) : Except Err (Option Bytes) :=
  if key.length < 8 then .error .shortKey
  else if getU64 (key.take 8) < firstDataShard then .ok none
  else
    match rerouteSuffix (key.drop 8) n with
    | .error e => .error e
    | .ok none => .ok none
    | .ok (some shard) => .ok (some (u64 shard ++ key.drop 8))

/-! ## The logical restore -/

structure RestoreInfo where
  collectionsDataShards : UInt64 := 0

def storageIdentityKey : Bytes := ascii "/sys/storage_uuid"

/-- Where a pair of an object is written: nowhere for the identity of the source, and with
a new shard when the number of shards changes. -/
def targetKey (cf : ColumnFamily) (ri : RestoreInfo) (key : Bytes) : Except Err (Option Bytes) :=
  if cf = .sys ∧ key = storageIdentityKey then .ok none
  else if cf = .replData ∧ 0 < ri.collectionsDataShards then reshardKey key ri.collectionsDataShards
  else .ok (some key)

def restorePair (cf : ColumnFamily) (ri : RestoreInfo) (ops : List Write) (kv : Bytes × Row) :
    Prog (List Write) :=
  match targetKey cf ri kv.1 with
  | .error e => .fail e
  | .ok none => pure ops
  | .ok (some key) => push ops [.put (rowKey cf key) kv.2]

def restoreCFObject (cf : ColumnFamily) (wantEntries : Int) (ri : RestoreInfo) (obj : CFObject) :
    Prog Unit := do
  let ops ← obj.pairs.foldlM (restorePair cf ri) []
  if obj.torn then .fail .tornObject
  else if (obj.pairs.length : Int) ≠ wantEntries then .fail .entryCount
  else flush ops

/-- One family of a node's export; one that is not known is passed over. -/
def restoreEntry (node : NodeExport) (ri : RestoreInfo) (entry : CFEntry) : Prog Unit :=
  match cfByName entry.cf with
  | none => pure ()
  | some cf =>
    match node.objects[entry.cf]? with
    | none => .fail .noObject
    | some obj => restoreCFObject cf entry.entries ri obj

/-! ### The repair of pointers -/

section
variable (ns userKey : Bytes)

def dataPresent (v : Version) : Prog Bool := do
  let found ← ask (.get .kvData (Records.dataKey ns userKey v))
  pure found.isSome

/-- The siblings whose record is there, and whether one is not. -/
def presentSiblings (sibs : List Version) : Prog (List Version × Bool) :=
  sibs.foldlM (fun acc v => do
    let present ← dataPresent ns userKey v
    pure (if present then (acc.1 ++ [v], acc.2) else (acc.1, true))) ([], false)

def scanKeyRecords : Prog (List StoredRecord) := do
  let space := Records.dataKeyPrefix ns userKey
  let rows ← ask (.scan .kvData space (prefixEnd space))
  pure (rows.filterMap fun r => decodeStoredRecord r.2)

def rebuildLatestPointer : List StoredRecord → Option LatestPointer
  | [] => none
  | r :: rs =>
    let winner := Records.Store.maxRecord r rs
    some
      { winner := winner.version, tombstone := winner.tombstone,
        inlineValue := Records.inlineValue winner, expiresAtUnixMs := winner.expiresAtUnixMs }

def survivingSiblings (sibs present : List Version) (winner : Version) : List Version :=
  sibs.filter fun v => v ≠ winner ∧ v ∈ present

def putLatest (lp : LatestPointer) : Write :=
  .put (rowKey .kvMeta (Records.latestKey ns userKey)) (.latest lp)

/-- The index entry of a pointer whose record expires. -/
def putTTL (lp : LatestPointer) : List Write :=
  match lp.expiresAtUnixMs with
  | some e =>
    if lp.tombstone then []
    else [.put (rowKey .kvMeta (Records.ttlKey e ns userKey))
      (.bytes (Records.encodeVersion lp.winner))]
  | none => []

/-- What a pointer whose winner is not there is replaced by. -/
def repointOps (lp : LatestPointer) (survivors : List StoredRecord) : List Write :=
  (match lp.expiresAtUnixMs with
    | some e => [.del (rowKey .kvMeta (Records.ttlKey e ns userKey))]
    | none => []) ++
  match rebuildLatestPointer survivors with
  | none => [.del (rowKey .kvMeta (Records.latestKey ns userKey))]
  | some nlp =>
    let nlp := { nlp with
      siblingVersions := survivingSiblings lp.siblingVersions (survivors.map StoredRecord.version)
        nlp.winner }
    putLatest ns userKey nlp :: putTTL ns userKey nlp

end

structure LPEntry where
  ns : Bytes
  userKey : Bytes
  lp : LatestPointer
  deriving DecidableEq, Repr

def repairEntry (ops : List Write) (e : LPEntry) : Prog (List Write) := do
  let winnerPresent ← dataPresent e.ns e.userKey e.lp.winner
  if winnerPresent then do
    let (kept, changed) ← presentSiblings e.ns e.userKey e.lp.siblingVersions
    if changed = false then pure ops
    else push ops [putLatest e.ns e.userKey { e.lp with siblingVersions := kept }]
  else do
    let survivors ← scanKeyRecords e.ns e.userKey
    push ops (repointOps e.ns e.userKey e.lp survivors)

def lpEntries (rows : List (Bytes × Row)) : List LPEntry :=
  rows.filterMap fun r => do
    let (ns, userKey) ← Records.parseLatestKey r.1
    let lp ← decodeLatest r.2
    pure ⟨ns, userKey, lp⟩

def repairCutMeta : Prog Unit := do
  let rows ← ask (.scan .kvMeta [] (some Records.ttlLowBound))
  let ops ← (lpEntries rows).foldlM repairEntry []
  flush ops

/-- A node's export; the only rebuild hook there is repairs the pointers. -/
def restoreLogical (node : NodeExport) (ri : RestoreInfo) : Prog Unit :=
  if node.formatVersion < 1 ∨ manifestFormatVersion < node.formatVersion then .fail .formatVersion
  else do
    node.cfs.foldlM (fun _ entry => restoreEntry node ri entry) ()
    repairCutMeta

end Restore

end WaveSpan.Backup
