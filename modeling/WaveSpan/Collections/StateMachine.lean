/-
WaveSpan.Collections.StateMachine — applying committed entries to a shard
(`internal/collections/statemachine.go`, `hincr.go`, `sm_fatal.go`).

`update` is the replicated state machine's step. It applies a batch of entries
to one `UpdateCtx`: each entry under a snapshot, so that an entry whose bytes do
not decode, or whose application raises anything but a storage fault, is rolled
back and skipped with an empty result. At the end the counters' changes, the
ring's sequence number and the applied index are added to the collected ops, and
all of them are written in one atomic batch.

Float arithmetic on hash fields is the host's: `FloatOps` says what parsing,
adding and formatting do, on the bits of a float64.
-/
import WaveSpan.Collections.Budget
import WaveSpan.Collections.Migrate

namespace WaveSpan.Collections

open WaveSpan.Wire WaveSpan.Rows WaveSpan.Prog

/-- The host's float64 operations. -/
structure FloatOps where
  parse : Bytes → Option UInt64
  add : UInt64 → UInt64 → UInt64
  format : UInt64 → Bytes

def FloatOps.absent : FloatOps :=
    { parse := fun _ => none, add := fun a _ => a, format := fun _ => [] }

/-! ## Decimal integers -/

def digit? (d : UInt8) : Option Nat :=
  if 0x30 ≤ d ∧ d ≤ 0x39 then some (d.toNat - 0x30) else none

/-- The value of a nonempty run of decimal digits. -/
def parseDigits (ds : Bytes) : Option Nat :=
  if ds.isEmpty then none
  else ds.foldlM (fun n d => (digit? d).map (n * 10 + ·)) 0

/-- A decimal int64: an optional sign and digits, in range. -/
def parseInt (b : Bytes) : Option Int64 :=
  let neg := b.head? == some 0x2d
  let digits := if b.head? = some 0x2b ∨ b.head? = some 0x2d then b.drop 1 else b
  match parseDigits digits with
  | none => none
  | some n =>
    if neg then if n ≤ 2 ^ 63 then some (Int64.ofInt (-n)) else none
    else if n < 2 ^ 63 then some (Int64.ofNat n) else none

def formatInt (n : Int64) : Bytes := ascii (toString n.toInt)

section
variable (fl : FloatOps) (s : UInt64)

/-! ## Element operations

Each returns its contribution to the command's change count. -/

def putMember (ns coll m : Bytes) (u : UpdateCtx) : UpdateCtx :=
  ((u.emit [.put (elemKey s ns coll m) []]).setExists (elemKey s ns coll m) true).bumpCard
    (cardKey s ns coll) 1

def dropElem (ns coll m : Bytes) (u : UpdateCtx) : UpdateCtx :=
  (((u.emit [.del (elemKey s ns coll m)]).setExists (elemKey s ns coll m) false).setVal
    (elemKey s ns coll m) none).bumpCard (cardKey s ns coll) (-1)

/-- An expired element deleted; the value overlay is left as it was. -/
def dropExpired (ns coll m : Bytes) (u : UpdateCtx) : UpdateCtx :=
  ((u.emit [.del (elemKey s ns coll m)]).setExists (elemKey s ns coll m) false).bumpCard
    (cardKey s ns coll) (-1)

/-- A hash field set; a new one is counted. -/
def putField (ns coll f v : Bytes) (present : Bool) (u : UpdateCtx) : UpdateCtx :=
  let u := ((u.emit [.put (elemKey s ns coll f) v]).setExists (elemKey s ns coll f) true).setVal
    (elemKey s ns coll f) (some v)
  if present then u else u.bumpCard (cardKey s ns coll) 1

/-- A sorted-set member at a score, off its old one; a new one is counted. -/
def putScore (ns coll m : Bytes) (old : Option UInt64) (score : UInt64) (u : UpdateCtx) :
    UpdateCtx :=
  let u := match old with
    | some o => u.emit [.del (zscoreKey s ns coll o m)]
    | none => u.bumpCard (cardKey s ns coll) 1
  (u.emit [.put (zscoreKey s ns coll score m) [], .put (zptrKey s ns coll m) (u64 score)]).setZScore
    (zptrKey s ns coll m) (some score)

def dropScore (ns coll m : Bytes) (old : UInt64) (u : UpdateCtx) : UpdateCtx :=
  ((u.emit [.del (zscoreKey s ns coll old m), .del (zptrKey s ns coll m)]).setZScore
    (zptrKey s ns coll m) none).bumpCard (cardKey s ns coll) (-1)

/-- The TTL part of a set add: only an add with an expiry touches it. -/
def refreshTTL (ns coll m : Bytes) (expiryMs : Int64) : UpdateM Unit :=
  if expiryMs > 0 then setTTL s ns coll m expiryMs.toUInt64 else pure ()

def addMember (ns coll : Bytes) (it : Item) : UpdateM Int64 := do
  let present ← reads (·.elemExists (elemKey s ns coll it.key.val))
  modify fun u => if present then u else putMember s ns coll it.key.val u
  refreshTTL s ns coll it.key.val it.expiryMs
  pure (if present then 0 else 1)

def removeElem (ns coll m : Bytes) : UpdateM Int64 := do
  let present ← reads (·.elemExists (elemKey s ns coll m))
  modify fun u => if present then dropElem s ns coll m u else u
  clearTTL s ns coll m
  pure (if present then 1 else 0)

/-- A leader-proposed expiry: it acts only if the stored expiry has come. -/
def expireElem (ns coll : Bytes) (it : Item) : UpdateM Int64 := do
  match ← tryReads (ttlExpiryOf s ns coll it.key.val) with
  | none => pure 0
  | some exp =>
    if exp > it.expiryMs.toUInt64 then pure 0
    else do
      let present ← reads (·.elemExists (elemKey s ns coll it.key.val))
      modify fun u => if present then dropExpired s ns coll it.key.val u else u
      clearTTL s ns coll it.key.val
      pure (if present then 1 else 0)

def setField (ns coll : Bytes) (it : Item) : UpdateM Int64 := do
  let present ← reads (·.elemExists (elemKey s ns coll it.key.val))
  modify (putField s ns coll it.key.val it.val.val present)
  pure (if present then 0 else 1)

def zAdd (ns coll : Bytes) (it : Item) : UpdateM Int64 := do
  let old ← tryReads (zScore s ns coll it.key.val)
  modify (putScore s ns coll it.key.val old it.score)
  pure (if old.isSome then 0 else 1)

def zRem (ns coll m : Bytes) : UpdateM Int64 := do
  match ← tryReads (zScore s ns coll m) with
  | none => pure 0
  | some old => do
    modify (dropScore s ns coll m old)
    pure 1

/-- Type-agnostic removal: what it does depends on the collection's datatype. -/
def removeAny (ns coll m : Bytes) : UpdateM Int64 := do
  let t ← typeOf s ns coll
  if t = CollType.set.toByte ∨ t = CollType.hash.toByte then removeElem s ns coll m
  else if t = CollType.zset.toByte then zRem s ns coll m
  else pure 0

def applyItem (c : Command) (it : Item) : UpdateM Int64 :=
  match c.op with
  | .sAdd => addMember s c.ns.val c.coll.val it
  | .sRem | .hDel => removeElem s c.ns.val c.coll.val it.key.val
  | .expire => expireElem s c.ns.val c.coll.val it
  | .hSet => setField s c.ns.val c.coll.val it
  | .zAdd => zAdd s c.ns.val c.coll.val it
  | .zRem => zRem s c.ns.val c.coll.val it.key.val
  | .remove => removeAny s c.ns.val c.coll.val it.key.val
  | _ => pure 0

/-- All items of a command; the result is the number of changes. -/
def applyCommand (c : Command) : UpdateM Int64 :=
  c.items.foldlM (fun changed it => do
    let d ← applyItem s c it
    pure (changed + d)) 0

/-! ## Hash-field counters -/

/-- One increment. `step` takes the field's current text to its new text and the
encoded new value, or to nothing when the text is not a number. -/
def incrField (c : Command) (it : Item) (step : Option Bytes → Option (Bytes × Bytes)) :
    UpdateM (Int64 × Bytes) := do
  let cur ← reads (·.fieldVal (elemKey s c.ns.val c.coll.val it.key.val))
  match step cur with
  | none => pure (0, notNumber)
  | some (text, out) => do
    modify (putField s c.ns.val c.coll.val it.key.val text cur.isSome)
    pure (if cur.isSome then 0 else 1, out)

/-- The integer step: the delta rides in the item's value. -/
def intStep (delta : Int64) (cur : Option Bytes) : Option (Bytes × Bytes) :=
  match (match cur with | none => some 0 | some t => parseInt t) with
  | none => none
  | some base => some (formatInt (base + delta), putI64 (base + delta))

def applyHIncrInt (c : Command) (it : Item) : UpdateM (Int64 × Bytes) :=
  if it.val.val.length < 8 then throw .shortCommand
  else incrField s c it (intStep (getI64 it.val.val))

/-- The float step: the delta is the item's score. -/
def floatStep (delta : UInt64) (cur : Option Bytes) : Option (Bytes × Bytes) :=
  match (match cur with | none => some 0 | some t => fl.parse t) with
  | none => none
  | some base => some (fl.format (fl.add base delta), u64 (fl.add base delta))

def applyHIncrFloat (c : Command) (it : Item) : UpdateM (Int64 × Bytes) :=
  incrField s c it (floatStep fl it.score)

/-! ## One command -/

/-- Whether a command's result is cached under its idempotency key. -/
def deduped (c : Command) : Bool := mutates c.op && 0 < c.idem.length

/-- The result already known for an idempotency key: this batch's, or the stored
one. -/
def knownResult (key : Bytes) (u : UpdateCtx) : Option ProposeResult :=
  match u.inBatchDedup[key]? with
  | some r => some r
  | none => dedupGet s key u

def remember (c : Command) (r : ProposeResult) (u : UpdateCtx) : UpdateCtx :=
  if deduped c then (dedupRecord s c.idem r.value r.data u).setDedup c.idem r else u

def applyHIncr (c : Command) (it : Item) : UpdateM (Int64 × Bytes) :=
  if c.op = .hIncrBy then applyHIncrInt s c it else applyHIncrFloat fl s c it

/-- A counter command; a field that is not a number is not cached. -/
def applyIncr (c : Command) : UpdateM ProposeResult :=
  match c.items with
  | [] => throw .shortCommand
  | it :: _ => do
    let out ← applyHIncr fl s c it
    let r : ProposeResult := { value := out.1.toUInt64, data := out.2 }
    modify fun u => if r.data = notNumber then u else remember s c r u
    pure r

/-- A budget command. Its datatype guard creates nothing. -/
def applyBudget (c : Command) : UpdateM ProposeResult := do
  let t ← typeOf s c.ns.val c.coll.val
  if t ≠ 0 ∧ t ≠ CollType.budget.toByte then pure { data := wrongType }
  else
    match c.op with
    | .budInit => applyBudInit s c
    | .budGrant => applyBudGrant s c
    | .budReport => applyBudReport s c
    | .budReturn => applyBudReturn s c
    | .budExpire => applyBudExpire s c
    | .budTombGC => applyBudTombGC s c
    | .budReconcile => applyBudReconcile s c
    | _ => pure {}

def applyElements (c : Command) : UpdateM ProposeResult := do
  let changed ← applyCommand s c
  let r : ProposeResult := { value := changed.toUInt64 }
  modify (remember s c r)
  pure r

/-- A command that passed the freeze and the idempotency check. Expiry and
type-agnostic removal have no datatype of their own. -/
def applyMutation (c : Command) : UpdateM ProposeResult :=
  match typeForOp c.op with
  | none => applyElements s c
  | some .budget => applyBudget s c
  | some t => do
    if ← ensureType s c.ns.val c.coll.val t then
      if c.op = .hIncrBy ∨ c.op = .hIncrByFloat then applyIncr fl s c else applyElements s c
    else pure { data := wrongType }

/-- A decoded command: the freeze comes first, then the idempotency cache. -/
def applyDecoded (frozen : List FrozenRange) (c : Command) : UpdateM ProposeResult :=
  if 0 < frozen.length ∧ mutates c.op = true ∧
      frozenCovers frozen (routeKey c.ns.val c.coll.val) = true then
    pure { data := frozenMark }
  else if deduped c then do
    match ← reads (knownResult s c.idem) with
    | some r => pure r
    | none => applyMutation fl s c
  else applyMutation fl s c

def applyOne (frozen : List FrozenRange) (cmd : Bytes) : UpdateM ProposeResult :=
  match decodeCommandInto cmd with
  | .error e => throw e
  | .ok c => applyDecoded fl s frozen c

/-! ## One entry, one batch -/

structure Entry where
  index : UInt64
  cmd : Bytes
  deriving DecidableEq, Repr

/-- The commands of a coalesced entry, in order, their results appended to `rs`. -/
def applySubs (frozen : List FrozenRange) (rs : List ProposeResult) (subs : List Bytes) :
    UpdateM (List ProposeResult) :=
  subs.foldlM (fun rs sub => do
    let r ← applyOne fl s frozen sub
    pure (rs ++ [r])) rs

/-- One committed entry: migration, freeze, coalesced batch or single command. -/
def applyEntry (frozen : List FrozenRange) (cmd : Bytes) : UpdateM ProposeResult :=
  match opByte? cmd with
  | some .ingest | some .purge => do
    let moved ← applyMigrate s cmd
    pure { value := UInt64.ofNat moved }
  | some .freeze | some .unfreeze => do
    applyFreeze s cmd
    pure { value := 1 }
  | some .batch =>
    match decodeBatch cmd with
    | .error e => throw e
    | .ok subs => do
      let rs ← applySubs fl s frozen [] subs
      pure { value := 0, data := encodeBatchResult rs }
  | _ => applyOne fl s frozen cmd

/-- The entry loop: a non-fatal error rolls the entry back and skips it. -/
def applyEntries (frozen : List FrozenRange) :
    List Entry → UpdateCtx → Except ApplyErr (UpdateCtx × List ProposeResult)
  | [], u => .ok (u, [])
  | e :: es, u =>
    match applyEntry fl s frozen e.cmd u with
    | .ok r u' => (applyEntries frozen es u').map fun p => (p.1, r :: p.2)
    | .error err u' =>
      if isFatal err then .error err
      else (applyEntries frozen es (u'.restore u.snapshot)).map fun p => (p.1, {} :: p.2)

/-- A stored element counter; one that is not eight bytes is a storage fault. -/
def readCard (st : Store) (ck : Bytes) : Except ApplyErr UInt64 :=
  match st[ck]? with
  | none => .ok 0
  | some v => if v.length ≠ 8 then .error .fatal else .ok (getU64 v)

/-- The write of one counter's change; a net change of zero writes nothing. -/
def cardOp (st : Store) (ck : Bytes) (delta : Int64) : Except ApplyErr (List StoreOp) :=
  if delta = 0 then .ok []
  else
    match readCard st ck with
    | .error e => .error e
    | .ok cur =>
      let nv := cur.toInt64 + delta
      .ok [.put ck (u64 (if nv < 0 then 0 else nv).toUInt64)]

def flushCards (st : Store) : List (Bytes × Int64) → Except ApplyErr (List StoreOp)
  | [] => .ok []
  | (ck, delta) :: rest =>
    match cardOp st ck delta with
    | .error e => .error e
    | .ok ops => (flushCards st rest).map (ops ++ ·)

def newCtx (st : Store) : UpdateCtx := { store := st, dedupSeq := readDedupSeq s st }

/-- The ring's sequence number, written only if the batch moved it. -/
def seqOps (st : Store) (u : UpdateCtx) : List StoreOp :=
  if u.dedupSeq ≠ readDedupSeq s st then [.put (dedupSeqKey s) (u64 u.dedupSeq)] else []

def update (st : Store) (entries : List Entry) :
    Except ApplyErr (Store × List ProposeResult) :=
  match entries.getLast? with
  | none => .ok (st, [])
  | some last =>
    match applyEntries fl s (loadFrozen s st) entries (newCtx s st) with
    | .error e => .error e
    | .ok (u, rs) =>
      match flushCards st u.cardDelta.toList with
      | .error e => .error e
      | .ok cards =>
        .ok (batchRC st (u.ops ++ seqOps s st u ++ cards
          ++ [.put (appliedKey s) (u64 last.index)]), rs)

/-- A log applied in consecutive batches, with the results of all its entries. -/
def updates (st : Store) : List (List Entry) → Except ApplyErr (Store × List ProposeResult)
  | [] => .ok (st, [])
  | es :: rest =>
    match update fl s st es with
    | .error e => .error e
    | .ok (st', rs) => (updates st' rest).map fun p => (p.1, rs ++ p.2)

end

end WaveSpan.Collections
