/-
WaveSpan.Collections.Context — what one `Update` accumulates
(`internal/collections/statemachine.go`, `sm_fatal.go`, `ttl.go`, `dedup.go`,
`hincr.go`).

An `Update` reads the store as it was before the batch and writes nothing until
its end: it collects store ops, and keeps overlays so that a later command of the
batch sees the effects of an earlier one. Not every row has an overlay. Element
presence, sorted-set scores, datatypes, hash values with the budget records, and
the results of keyed writes do; TTL pointers and the ring of idempotency keys are
always read from the store.

The helpers that only read are functions of the context; those that write are
programs over it, or, where the source writes overlays and ops in one go, plain
context updates. A read that would index past the end of a stored value raises
`panicked`, which the entry loop recovers from.
-/
import WaveSpan.Lib.Prog
import WaveSpan.Collections.Command
import WaveSpan.Collections.Keys
import Mathlib.Tactic.Simps.Basic

namespace WaveSpan.Collections

open WaveSpan.Wire WaveSpan.Rows WaveSpan.Prog

structure UpdateCtx where
  /-- The store as it was before the batch. -/
  store : Store
  ops : List StoreOp := []
  /-- Set or hash element key to exists-after. -/
  existsMap : GoMap Bool := ∅
  /-- Sorted-set member pointer key to current score (`none` = absent). -/
  zscore : GoMap (Option UInt64) := ∅
  /-- Card key to counter change. -/
  cardDelta : GoMap Int64 := ∅
  /-- Collection scope to resolved datatype byte. -/
  htype : GoMap UInt8 := ∅
  /-- Hash field key or budget record key to value-after (`none` = deleted). -/
  vals : GoMap (Option Bytes) := ∅
  /-- The next sequence number of the idempotency ring. -/
  dedupSeq : UInt64
  /-- Idempotency key to the result recorded earlier in this batch. -/
  inBatchDedup : GoMap ProposeResult := ∅

abbrev UpdateM := EStateM ApplyErr UpdateCtx

namespace UpdateCtx

/-! ## Context updates -/

@[simps]
def emit (u : UpdateCtx) (ops : List StoreOp) : UpdateCtx := { u with ops := u.ops ++ ops }

@[simps]
def setExists (u : UpdateCtx) (k : Bytes) (b : Bool) : UpdateCtx :=
  { u with existsMap := u.existsMap.insert k b }

@[simps]
def setZScore (u : UpdateCtx) (k : Bytes) (score : Option UInt64) : UpdateCtx :=
  { u with zscore := u.zscore.insert k score }

@[simps]
def bumpCard (u : UpdateCtx) (ck : Bytes) (d : Int64) : UpdateCtx :=
  { u with cardDelta := u.cardDelta.insert ck ((u.cardDelta[ck]?).getD 0 + d) }

@[simps]
def setHtype (u : UpdateCtx) (scope : Bytes) (t : UInt8) : UpdateCtx :=
  { u with htype := u.htype.insert scope t }

@[simps]
def setVal (u : UpdateCtx) (k : Bytes) (v : Option Bytes) : UpdateCtx :=
  { u with vals := u.vals.insert k v }

/-- Remember a recorded result for the rest of the batch. -/
@[simps]
def setDedup (u : UpdateCtx) (key : Bytes) (r : ProposeResult) : UpdateCtx :=
  { u with inBatchDedup := u.inBatchDedup.insert key r }

/-! ## Reads -/

/-- A row of the store as it was before the batch. -/
def getData (u : UpdateCtx) (k : Bytes) : Option Bytes := u.store[k]?

/-- Whether an element is there, in-batch overlay first. -/
def elemExists (u : UpdateCtx) (k : Bytes) : Bool :=
  match u.existsMap[k]? with
  | some v => v
  | none => (u.getData k).isSome

/-- A hash field's value, in-batch overlay first. The budget records are read the
same way. -/
def fieldVal (u : UpdateCtx) (k : Bytes) : Option Bytes :=
  match u.vals[k]? with
  | some v => v
  | none => u.getData k

end UpdateCtx

/-- A stored big-endian number; reading one off a short value panics. -/
def numberRow : Option Bytes → Except ApplyErr (Option UInt64)
  | none => .ok none
  | some raw => if raw.length < 8 then .error .panicked else .ok (some (getU64 raw))

section
variable (s : UInt64)

/-- A sorted-set member's score, in-batch overlay first. -/
def zScore (ns coll member : Bytes) (u : UpdateCtx) : Except ApplyErr (Option UInt64) :=
  match u.zscore[zptrKey s ns coll member]? with
  | some v => .ok v
  | none => numberRow (u.getData (zptrKey s ns coll member))

/-! ## Datatypes -/

/-- The datatype already resolved in this batch. -/
def cachedType (ns coll : Bytes) (u : UpdateCtx) : Option UInt8 :=
  u.htype[collScope s ns coll]?

/-- The stored datatype header; an empty header row counts as none. -/
def headerRow (ns coll : Bytes) (u : UpdateCtx) : Option UInt8 :=
  (u.getData (typeKey s ns coll)).bind List.head?

/-- A collection's datatype without creating it (0 = absent). -/
def typeOf (ns coll : Bytes) : UpdateM UInt8 := do
  match ← reads (cachedType s ns coll) with
  | some t => pure t
  | none =>
    match ← reads (headerRow s ns coll) with
    | none => pure 0
    | some t => do
      modify (·.setHtype (collScope s ns coll) t)
      pure t

/-- Resolve or set a collection's datatype; `false` is a mismatch. -/
def ensureType (ns coll : Bytes) (want : CollType) : UpdateM Bool := do
  match ← reads (cachedType s ns coll) with
  | some t => pure (t == want.toByte)
  | none =>
    match ← reads (headerRow s ns coll) with
    | some t => do
      modify (·.setHtype (collScope s ns coll) t)
      pure (t == want.toByte)
    | none => do
      -- a new collection: its header is written now
      modify fun u =>
        (u.emit [.put (typeKey s ns coll) [want.toByte]]).setHtype
          (collScope s ns coll) want.toByte
      pure true

/-! ## Expiry -/

/-- The expiry recorded for an element before this batch. -/
def ttlExpiryOf (ns coll member : Bytes) (u : UpdateCtx) : Except ApplyErr (Option UInt64) :=
  numberRow (u.getData (ttlPtrKey s ns coll member))

/-- (Re)set an element's expiry, dropping the index row of the stored one. -/
def setTTL (ns coll member : Bytes) (expiry : UInt64) : UpdateM Unit := do
  let old ← tryReads (ttlExpiryOf s ns coll member)
  modify (·.emit ((old.toList.map fun e => .del (ttlIndexKey s e ns coll member))
    ++ [.put (ttlIndexKey s expiry ns coll member) [],
        .put (ttlPtrKey s ns coll member) (u64 expiry)]))

/-- Drop an element's expiry rows, if the store has any. -/
def clearTTL (ns coll member : Bytes) : UpdateM Unit := do
  match ← tryReads (ttlExpiryOf s ns coll member) with
  | none => pure ()
  | some old =>
    modify (·.emit [.del (ttlIndexKey s old ns coll member),
      .del (ttlPtrKey s ns coll member)])

/-! ## Idempotency cache -/

def dedupRingSize : UInt64 := 4096

/-- The next ring sequence number a store stands at. -/
def readDedupSeq (st : Store) : UInt64 :=
  match st[dedupSeqKey s]? with
  | none => 0
  | some v => if v.length ≠ 8 then 0 else getU64 v

def dedupRow : Option Bytes → Option ProposeResult
  | none => none
  | some v => if v.length < 8 then none else some { value := getU64 v, data := v.drop 8 }

/-- The result cached for an idempotency key before this batch. -/
def dedupGet (key : Bytes) (u : UpdateCtx) : Option ProposeResult :=
  dedupRow (u.getData (dedupKey s key))

/-- The key a record at the current sequence number evicts: the one the store
names in that slot. -/
def evicted (u : UpdateCtx) : Option Bytes :=
  (u.getData (dedupRingKey s (u.dedupSeq % dedupRingSize))).filter (0 < ·.length)

/-- Cache a result under its key, evicting the slot's previous key. -/
@[simps]
def dedupRecord (key : Bytes) (value : UInt64) (data : Bytes) (u : UpdateCtx) : UpdateCtx :=
  { u with
    ops := u.ops
      ++ (evicted s u).toList.map (fun old => .del (dedupKey s old))
      ++ [.put (dedupRingKey s (u.dedupSeq % dedupRingSize)) key,
          .put (dedupKey s key) (u64 value ++ data)]
    dedupSeq := u.dedupSeq + 1 }

end

/-! ## Rolling an entry back -/

/-- What is needed to undo one entry: the ops by their number, the overlays as
they were. -/
structure UpdateSnapshot where
  opsLen : Nat
  dedupSeq : UInt64
  existsMap : GoMap Bool
  zscore : GoMap (Option UInt64)
  cardDelta : GoMap Int64
  htype : GoMap UInt8
  vals : GoMap (Option Bytes)
  inBatchDedup : GoMap ProposeResult

def UpdateCtx.snapshot (u : UpdateCtx) : UpdateSnapshot :=
  { opsLen := u.ops.length, dedupSeq := u.dedupSeq, existsMap := u.existsMap,
    zscore := u.zscore, cardDelta := u.cardDelta, htype := u.htype, vals := u.vals,
    inBatchDedup := u.inBatchDedup }

def UpdateCtx.restore (u : UpdateCtx) (snap : UpdateSnapshot) : UpdateCtx :=
  { u with
    ops := u.ops.take snap.opsLen
    dedupSeq := snap.dedupSeq, existsMap := snap.existsMap, zscore := snap.zscore,
    cardDelta := snap.cardDelta, htype := snap.htype, vals := snap.vals,
    inBatchDedup := snap.inBatchDedup }

end WaveSpan.Collections
