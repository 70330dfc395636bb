/-
WaveSpan.Collections.Migrate — freezing and moving a subrange of a shard
(`internal/collections/freeze.go`, `migrate.go`).

A split freezes a range of routing keys, copies its rows to the new shard with
`opIngest` entries and deletes them here with `opPurge`. Frozen ranges are rows
of the shard's own bookkeeping space, from the range's start to its end; an empty
bound is no bound. Only collection data and the TTL index carry a routing key, so
only those rows move.

Neither migration entry looks at the in-batch overlays: an ingest appends raw
puts, and a purge scans the store as it was before the batch.
-/
import WaveSpan.Collections.Context

namespace WaveSpan.Collections

open WaveSpan.Wire WaveSpan.Rows WaveSpan.Prog

def opByte? (cmd : Bytes) : Option OpKind := cmd.head?.bind OpKind.ofByte?

/-! ## Freezing -/

def encodeFreeze (start stop : Bytes) : Bytes :=
  appendChunk (appendChunk [OpKind.freeze.toByte] start) stop

/-- One frozen `[start, stop)`; an empty bound is no bound. -/
structure FrozenRange where
  start : Bytes
  stop : Bytes
  deriving DecidableEq, Repr

def inRoute (rk start stop : Bytes) : Bool :=
  (start.length == 0 || (compare rk start).isGE) &&
    (stop.length == 0 || (compare rk stop).isLT)

def frozenCovers (ranges : List FrozenRange) (rk : Bytes) : Bool :=
  ranges.any fun r => inRoute rk r.start r.stop

/-- The operands of `opPurge`, `opFreeze` and `opUnfreeze`: two chunks. -/
def decodePurge (b : Bytes) : Except ApplyErr (Bytes × Bytes) :=
  match b with
  | [] => .error .shortCommand
  | _ :: rest =>
    match takeChunk rest with
    | none => .error .shortCommand
    | some (start, rest) =>
      match takeChunk rest with
      | none => .error .shortCommand
      | some (stop, _) => .ok (start.val, stop.val)

/-! ## Migration rows -/

/-- A row relative to its shard: the key without the shard id, and the value. -/
structure RawKV where
  suffix : Bytes
  value : Bytes
  deriving DecidableEq, Repr

/-- The routing key of a shard-relative key, for collection data and TTL index
rows; shard bookkeeping has none. -/
def routeKeyOf (suffix : Bytes) : Option Bytes :=
  match suffix with
  | [] => none
  | sub :: rest =>
    let body :=
      if sub = 0x01 then some rest
      else if sub = 0x02 then
        if suffix.length < 9 then none else some (suffix.drop 9)
      else none
    match body.bind takeChunk with
    | none => none
    | some (ns, rest) =>
      match takeChunk rest with
      | none => none
      | some (coll, _) => some (routeKey ns.val coll.val)

/-- The rows of the shard whose routing key lies in `[start, stop)`. -/
def scanRange (st : Store) (pfx start stop : Bytes) (limit : Int) : List RawKV :=
  let rows := (scan st pfx (prefixEnd pfx) 0).filterMap fun r =>
    let suffix := r.1.drop pfx.length
    match routeKeyOf suffix with
    | none => none
    | some rk => if inRoute rk start stop then some { suffix, value := r.2 } else none
  if 0 < limit then rows.take limit.toNat else rows

def encodeIngest (kvs : List RawKV) : Bytes :=
  OpKind.ingest.toByte :: beBytes 4 kvs.length
    ++ kvs.flatMap fun kv => appendChunk (appendChunk [] kv.suffix) kv.value

def takeRows : Nat → Bytes → Option (List RawKV)
  | 0, _ => some []
  | n + 1, b =>
    match takeChunk b with
    | none => none
    | some (suffix, rest) =>
      match takeChunk rest with
      | none => none
      | some (value, rest) =>
        (takeRows n rest).map ({ suffix := suffix.val, value := value.val } :: ·)

def decodeIngest (b : Bytes) : Except ApplyErr (List RawKV) :=
  if b.length < 5 then .error .shortCommand
  else
    match takeRows (beVal ((b.drop 1).take 4)) (b.drop 5) with
    | none => .error .shortCommand
    | some kvs => .ok kvs

/-- The bytes `decodeIngest` asks for: a row for each of the stated number. -/
def decodeIngestAsks (b : Bytes) : Nat :=
  if b.length < 5 then 0 else 48 * beVal ((b.drop 1).take 4)

def encodePurge (start stop : Bytes) : Bytes :=
  appendChunk (appendChunk [OpKind.purge.toByte] start) stop

/-! ## The entries -/

section
variable (s : UInt64)

def loadFrozen (st : Store) : List FrozenRange :=
  let fs := frozenSpace s
  (scan st fs (prefixEnd fs) 0).map fun r => { start := r.1.drop fs.length, stop := r.2 }

def applyFreeze (cmd : Bytes) : UpdateM Unit :=
  match decodePurge cmd with
  | .error e => throw e
  | .ok (start, stop) =>
    if opByte? cmd = some .freeze then
      modify (·.emit [.put (frozenKey s start) stop])
    else modify (·.emit [.del (frozenKey s start)])

/-- `opIngest` and `opPurge`; the result is the number of rows moved. -/
def applyMigrate (cmd : Bytes) : UpdateM Nat :=
  match opByte? cmd with
  | some .ingest =>
    match decodeIngest cmd with
    | .error e => throw e
    | .ok kvs => do
      modify (·.emit (kvs.map fun kv => .put (shardPrefix s ++ kv.suffix) kv.value))
      pure kvs.length
  | some .purge =>
    match decodePurge cmd with
    | .error e => throw e
    | .ok (start, stop) => do
      let kvs ← reads fun u => scanRange u.store (shardPrefix s) start stop 0
      modify (·.emit (kvs.map fun kv => .del (shardPrefix s ++ kv.suffix)))
      pure kvs.length
  | _ => throw .unknownOp

end

end WaveSpan.Collections
