/-
WaveSpan.Collections.Budget — the leased-budget pool inside a shard
(`internal/collections/budget.go`).

A budget collection holds one pool record, one lease record per outstanding
lease, and one tombstone per settled lease; two shard-level indexes order the
leases by reclaim deadline and the tombstones by collection time. Quantities are
64-bit signed, and every sum below wraps as the source's does.

Each apply function reads the records through the in-batch overlay, moves
quantity between the pool's buckets, and writes records and index rows. A benign
failure is a sentinel in the result; an error is kept for an entry that cannot be
decoded or for rows that contradict each other.
-/
import WaveSpan.Collections.Context

namespace WaveSpan.Collections

open WaveSpan.Wire WaveSpan.Rows WaveSpan.Prog

/-! ## Constants -/

def modeStrict : UInt8 := 1

def maxClockSkewMs : Int64 := 500

/-- Admission bound on the token-bucket ceiling: `1 << 50`. -/
def pacingBurstCeil : Int64 := 1125899906842624

/-- Floor of the tombstone window of a budget with leases that expire. -/
def minDedupRetryWindowMs : Int64 := 30000

def budNoCapacity : Bytes := ascii "BUDNOCAP"
def budExists : Bytes := ascii "BUDEXISTS"
def budNoLease : Bytes := ascii "BUDNOLEASE"
def budNoBudget : Bytes := ascii "BUDNOBUDGET"
def budBadMode : Bytes := ascii "BUDBADMODE"
def budBadParam : Bytes := ascii "BUDBADPARAM"
def budSettled : Bytes := ascii "BUDSETTLED"
def budWrongHolder : Bytes := ascii "BUDWRONGHOLDER"

/-! ## Records -/

def putI64 (n : Int64) : Bytes := u64 n.toUInt64

def getI64 (b : Bytes) : Int64 := (getU64 b).toInt64

/-- The pool: its cap, the three buckets, its configuration and its pacing state. -/
structure PoolRec where
  cap : Int64 := 0
  available : Int64 := 0
  /-- Unspent quantity held by outstanding leases. -/
  leasedOut : Int64 := 0
  spent : Int64 := 0
  epoch : UInt64 := 0
  mode : UInt8 := 0
  rate : Int64 := 0
  burst : Int64 := 0
  lastRefillMs : Int64 := 0
  tokens : Int64 := 0
  selfGuardMs : Int64 := 0
  maxPauseMs : Int64 := 0
  defaultTTLMs : Int64 := 0
  dedupRetryWindowMs : Int64 := 0
  /-- Spend attested by holders; a forced expiry never raises it. -/
  spentReported : Int64 := 0
  deriving DecidableEq, Repr

def encodePool (p : PoolRec) : Bytes :=
  putI64 p.cap ++ (putI64 p.available ++ (putI64 p.leasedOut ++ (putI64 p.spent ++
  (u64 p.epoch ++ (p.mode :: (putI64 p.rate ++ (putI64 p.burst ++
  (putI64 p.lastRefillMs ++ (putI64 p.tokens ++
  (putI64 p.selfGuardMs ++ (putI64 p.maxPauseMs ++ (putI64 p.defaultTTLMs ++
  (putI64 p.dedupRetryWindowMs ++ putI64 p.spentReported)))))))))))))

/-- A pool record. A record of an earlier stage stops short, and the fields of its
missing tails read as zero. -/
def decodePool (b : Bytes) : Except ApplyErr PoolRec :=
  if b.length < 57 then .error .shortPool
  else
    let p : PoolRec :=
      { cap := getI64 b, available := getI64 (b.drop 8), leasedOut := getI64 (b.drop 16),
        spent := getI64 (b.drop 24), epoch := getU64 (b.drop 32),
        mode := (b.drop 40).headD 0,
        rate := getI64 (b.drop 41), burst := getI64 (b.drop 49) }
    let p := if b.length < 73 then p else
      { p with lastRefillMs := getI64 (b.drop 57), tokens := getI64 (b.drop 65) }
    let p := if b.length < 105 then p else
      { p with
        selfGuardMs := getI64 (b.drop 73), maxPauseMs := getI64 (b.drop 81),
        defaultTTLMs := getI64 (b.drop 89), dedupRetryWindowMs := getI64 (b.drop 97) }
    let p := if b.length < 113 then p else
      { p with spentReported := getI64 (b.drop 105) }
    .ok p

/-- One outstanding lease. The three times are zero for a lease without a TTL,
except `grantedMs`, which every grant stamps. -/
structure LeaseRec where
  holder : Bytes := []
  amount : Int64 := 0
  spent : Int64 := 0
  epoch : UInt64 := 0
  grantedMs : Int64 := 0
  /-- The replicated deadline before which the lease is not reclaimed. -/
  reclaimNotBeforeMs : Int64 := 0
  expiresMs : Int64 := 0
  deriving DecidableEq, Repr

def encodeLease (l : LeaseRec) : Bytes :=
  putI64 l.amount ++ (putI64 l.spent ++ (u64 l.epoch ++ (appendChunk [] l.holder ++
  (putI64 l.grantedMs ++ (putI64 l.reclaimNotBeforeMs ++ putI64 l.expiresMs)))))

def decodeLease (b : Bytes) : Except ApplyErr LeaseRec :=
  if b.length < 24 then .error .shortLease
  else
    match takeChunk (b.drop 24) with
    | none => .error .shortCommand
    | some (holder, rest) =>
      let l : LeaseRec :=
        { holder := holder.val, amount := getI64 b, spent := getI64 (b.drop 8),
          epoch := getU64 (b.drop 16) }
      if rest.length < 24 then .ok l
      else .ok { l with
        grantedMs := getI64 rest, reclaimNotBeforeMs := getI64 (rest.drop 8),
        expiresMs := getI64 (rest.drop 16) }

def reasonReturn : UInt8 := 1
def reasonExpire : UInt8 := 2

/-- A settled lease: the spend booked for it and how it was settled. -/
structure TombRec where
  finalSpent : Int64 := 0
  reason : UInt8
  deriving DecidableEq, Repr

def encodeTomb (t : TombRec) : Bytes := putI64 t.finalSpent ++ [t.reason]

def decodeTomb (b : Bytes) : Except ApplyErr TombRec :=
  if b.length < 9 then .error .shortTomb
  else .ok { finalSpent := getI64 b, reason := (b.drop 8).headD 0 }

/-- The effective grant echoed to the holder. -/
structure GrantResult where
  granted : Int64
  grantedMs : Int64
  ttlMs : Int64 := 0
  selfGuardMs : Int64 := 0
  maxPauseMs : Int64 := 0
  deriving DecidableEq, Repr

def encodeGrantResult (r : GrantResult) : Bytes :=
  putI64 r.granted ++ (putI64 r.grantedMs ++ (putI64 r.ttlMs ++
  (putI64 r.selfGuardMs ++ putI64 r.maxPauseMs)))

/-! ## Arithmetic -/

def min64 (a b : Int64) : Int64 := if a < b then a else b

def clampI64 (v lo hi : Int64) : Int64 :=
  if v < lo then lo else if v > hi then hi else v

/-- How much idle time one grant may accrue tokens for. -/
def pacingMaxElapsedMs (rate burst : Int64) : Int64 :=
  if rate ≤ 0 then 0 else (4 * burst * 1000) / rate

/-- Token accrual up to the time of a grant; without a rate, nothing changes. -/
def accrueTokens (p : PoolRec) (grantedMs : Int64) : PoolRec :=
  if p.rate > 0 then
    let last := if p.lastRefillMs = 0 then grantedMs else p.lastRefillMs
    let maxElapsed := pacingMaxElapsedMs p.rate p.burst
    let elapsed := clampI64 (grantedMs - last) 0 maxElapsed
    let accrued := p.rate * elapsed / 1000
    let ceil := min64 p.burst (p.cap - p.spent)
    let tokens := min64 ceil (p.tokens + accrued)
    { p with
      tokens := if tokens < 0 then 0 else tokens
      lastRefillMs := if grantedMs > last then grantedMs else last }
  else p

def grantable (p : PoolRec) (amount : Int64) : Int64 :=
  let grant := if p.rate > 0 then min64 amount p.tokens else amount
  if grant > p.available then p.available else grant

/-- Move a grant from the free bucket to the leased one. -/
def takeGrant (p : PoolRec) (grant : Int64) : PoolRec :=
  { p with
    available := p.available - grant
    leasedOut := p.leasedOut + grant
    tokens := if p.rate > 0 then p.tokens - grant else p.tokens }

def bookSpend (p : PoolRec) (delta : Int64) : PoolRec :=
  { p with
    leasedOut := p.leasedOut - delta
    spent := p.spent + delta
    spentReported := p.spentReported + delta }

/-- The lease of a fresh grant; a TTL stamps the reclaim deadline. -/
def newLease (p : PoolRec) (holder : Bytes) (grant grantedMs ttl : Int64) : LeaseRec :=
  let l : LeaseRec := { holder, amount := grant, spent := 0, epoch := p.epoch, grantedMs }
  if ttl > 0 then
    { l with
      reclaimNotBeforeMs := grantedMs + ttl + 3 * maxClockSkewMs + p.maxPauseMs
      expiresMs := grantedMs + ttl }
  else l

/-- The TTL in force for a grant: its own, or the budget's default. -/
def resolveTTL (p : PoolRec) (ttlOverride : Int64) : Int64 :=
  if ttlOverride = 0 then p.defaultTTLMs else ttlOverride

def echoGrant (l : LeaseRec) (p : Option PoolRec) : GrantResult :=
  { granted := l.amount, grantedMs := l.grantedMs
    ttlMs := if l.expiresMs > 0 then l.expiresMs - l.grantedMs else 0
    selfGuardMs := (p.map PoolRec.selfGuardMs).getD 0
    maxPauseMs := (p.map PoolRec.maxPauseMs).getD 0 }

/-- Whether a caller's holder contradicts the lease's; an empty one never does. -/
def holderMismatch (caller : Bytes) (l : LeaseRec) : Bool :=
  0 < caller.length && 0 < l.holder.length && caller != l.holder

/-! ## Command arguments -/

structure InitArgs where
  mode : UInt8
  capacity : Int64
  rate : Int64
  burst : Int64
  selfGuardMs : Int64 := 0
  maxPauseMs : Int64 := 0
  defaultTTLMs : Int64 := 0
  dedupRetryWindowMs : Int64 := 0
  deriving DecidableEq, Repr

/-- The fields of an `opBudInit` key; a 25-byte key has no timing part. -/
def initArgs (c : Command) : Option InitArgs :=
  match c.items with
  | [] => none
  | it :: _ =>
    let k := it.key.val
    if k.length < 25 then none
    else
      let a : InitArgs :=
        { mode := k.headD 0, capacity := getI64 (k.drop 1), rate := getI64 (k.drop 9),
          burst := getI64 (k.drop 17) }
      if k.length < 57 then some a
      else some { a with
        selfGuardMs := getI64 (k.drop 25), maxPauseMs := getI64 (k.drop 33),
        defaultTTLMs := getI64 (k.drop 41), dedupRetryWindowMs := getI64 (k.drop 49) }

structure GrantArgs where
  leaseID : Bytes
  amount : Int64
  grantedMs : Int64
  ttlOverride : Int64
  holder : Bytes
  deriving DecidableEq, Repr

def grantArgs (c : Command) : Option GrantArgs :=
  match c.items with
  | [] => none
  | it :: _ =>
    let v := it.val.val
    if it.key.val.length = 0 ∨ v.length < 24 then none
    else some
      { leaseID := it.key.val, amount := getI64 v, grantedMs := getI64 (v.drop 8),
        ttlOverride := getI64 (v.drop 16), holder := v.drop 24 }

/-- A lease id with a number: a cumulative spend or a time. -/
structure LeaseArgs where
  leaseID : Bytes
  num : Int64
  holder : Bytes
  deriving DecidableEq, Repr

/-- The arguments of report, expire and tombstone collection. -/
def leaseArgs (c : Command) : Option LeaseArgs :=
  match c.items with
  | [] => none
  | it :: _ =>
    let v := it.val.val
    if it.key.val.length = 0 ∨ v.length < 8 then none
    else some { leaseID := it.key.val, num := getI64 v, holder := v.drop 8 }

structure ReturnArgs where
  leaseID : Bytes
  /-- The final cumulative spend, when the command carries one. -/
  final : Option Int64
  holder : Bytes
  deriving DecidableEq, Repr

def returnArgs (c : Command) : Option ReturnArgs :=
  match c.items with
  | [] => none
  | it :: _ =>
    let v := it.val.val
    if it.key.val.length = 0 then none
    else if v.length < 8 then some { leaseID := it.key.val, final := none, holder := [] }
    else some { leaseID := it.key.val, final := some (getI64 v), holder := v.drop 8 }

def reconcileArgs (c : Command) : Option Int64 :=
  match c.items with
  | [] => none
  | it :: _ => if it.val.val.length < 8 then none else some (getI64 it.val.val)

/-! ## Reading and writing the records -/

/-- A record read through the in-batch overlay. -/
def getRec {ρ : Type} (decode : Bytes → Except ApplyErr ρ) (k : Bytes) (u : UpdateCtx) :
    Except ApplyErr (Option ρ) :=
  match u.fieldVal k with
  | none => .ok none
  | some v => (decode v).map some

/-- A record written to the overlay and the batch. -/
def UpdateCtx.setRec (u : UpdateCtx) (k v : Bytes) : UpdateCtx :=
  (u.setVal k (some v)).emit [.put k v]

/-- A record deleted from the overlay and the batch. -/
def UpdateCtx.delRec (u : UpdateCtx) (k : Bytes) : UpdateCtx :=
  (u.setVal k none).emit [.del k]

section
variable (s : UInt64) (ns coll : Bytes)

def getPool : UpdateCtx → Except ApplyErr (Option PoolRec) :=
  getRec decodePool (budPoolKey s ns coll)

def setPool (p : PoolRec) (u : UpdateCtx) : UpdateCtx :=
  u.setRec (budPoolKey s ns coll) (encodePool p)

def getLease (id : Bytes) : UpdateCtx → Except ApplyErr (Option LeaseRec) :=
  getRec decodeLease (budLeaseKey s ns coll id)

def setLease (id : Bytes) (l : LeaseRec) (u : UpdateCtx) : UpdateCtx :=
  u.setRec (budLeaseKey s ns coll id) (encodeLease l)

def delLease (id : Bytes) (u : UpdateCtx) : UpdateCtx :=
  u.delRec (budLeaseKey s ns coll id)

def getTomb (id : Bytes) : UpdateCtx → Except ApplyErr (Option TombRec) :=
  getRec decodeTomb (budTombKey s ns coll id)

def setTomb (id : Bytes) (t : TombRec) (u : UpdateCtx) : UpdateCtx :=
  u.setRec (budTombKey s ns coll id) (encodeTomb t)

def delTomb (id : Bytes) (u : UpdateCtx) : UpdateCtx :=
  u.delRec (budTombKey s ns coll id)

/-- The due-index rows are written to the batch only. -/
def setBudExp (id : Bytes) (reclaimMs : Int64) (u : UpdateCtx) : UpdateCtx :=
  u.emit [.put (budExpKey s reclaimMs ns coll id) []]

def delBudExp (id : Bytes) (reclaimMs : Int64) (u : UpdateCtx) : UpdateCtx :=
  u.emit [.del (budExpKey s reclaimMs ns coll id)]

def setBudTombGC (id : Bytes) (gcDueMs : Int64) (u : UpdateCtx) : UpdateCtx :=
  u.emit [.put (budTombGCKey s gcDueMs ns coll id) []]

def delBudTombGC (id : Bytes) (gcDueMs : Int64) (u : UpdateCtx) : UpdateCtx :=
  u.emit [.del (budTombGCKey s gcDueMs ns coll id)]

end

/-! ## The apply functions -/

section
variable (s : UInt64)

/-- Whether an init's pacing or timing parameters are out of bounds. -/
def badInitParam (a : InitArgs) : Bool :=
  a.rate < 0 || a.burst < 0 || a.burst > pacingBurstCeil ||
    (a.defaultTTLMs > 0 && a.selfGuardMs < maxClockSkewMs) ||
    (a.defaultTTLMs > 0 && a.dedupRetryWindowMs < minDedupRetryWindowMs)

def newPool (a : InitArgs) : PoolRec :=
  { cap := a.capacity, available := a.capacity, leasedOut := 0, spent := 0, epoch := 1,
    mode := a.mode, rate := a.rate, burst := a.burst, selfGuardMs := a.selfGuardMs,
    maxPauseMs := a.maxPauseMs, defaultTTLMs := a.defaultTTLMs,
    dedupRetryWindowMs := a.dedupRetryWindowMs
    tokens := if a.rate > 0 then a.burst else 0 }

/-- Create a pool. The datatype header is written only once the parameters have
passed, so a rejected init leaves nothing behind. -/
def applyBudInit (c : Command) : UpdateM ProposeResult :=
  match initArgs c with
  | none => throw .shortCommand
  | some a =>
    if a.mode ≠ modeStrict ∨ a.capacity < 0 then pure { data := budBadMode }
    else if badInitParam a then pure { data := budBadParam }
    else do
      match ← tryReads (getPool s c.ns.val c.coll.val) with
      | some _ => pure { data := budExists }
      | none =>
        if ← ensureType s c.ns.val c.coll.val .budget then do
          modify (setPool s c.ns.val c.coll.val (newPool a))
          pure { value := 1 }
        else pure { data := wrongType }

def writeGrant (ns coll id : Bytes) (p : PoolRec) (l : LeaseRec) (ttl : Int64)
    (u : UpdateCtx) : UpdateCtx :=
  let u := setPool s ns coll p u
  let u := if ttl > 0 then setBudExp s ns coll id l.reclaimNotBeforeMs u else u
  setLease s ns coll id l u

/-- Allocate from the pool and emit a lease. A grant whose lease id is settled or
outstanding allocates nothing. -/
def applyBudGrant (c : Command) : UpdateM ProposeResult :=
  let ns := c.ns.val
  let coll := c.coll.val
  match grantArgs c with
  | none => throw .shortCommand
  | some a =>
    if a.amount < 0 then pure { data := budNoCapacity }
    else do
      match ← tryReads (getTomb s ns coll a.leaseID) with
      | some _ => pure { data := budSettled }
      | none =>
        match ← tryReads (getLease s ns coll a.leaseID) with
        | some l => do
          -- a retry: the same grant with the same timing
          let p ← tryReads (getPool s ns coll)
          pure { value := l.amount.toUInt64, data := encodeGrantResult (echoGrant l p) }
        | none =>
          match ← tryReads (getPool s ns coll) with
          | none => pure { data := budNoBudget }
          | some p =>
            let ttl := resolveTTL p a.ttlOverride
            if ttl > 0 ∧ p.selfGuardMs < maxClockSkewMs then
              pure { data := budBadParam }
            else
              let p := accrueTokens p a.grantedMs
              let grant := grantable p a.amount
              if grant ≤ 0 then pure { data := budNoCapacity }
              else do
                modify (writeGrant s ns coll a.leaseID (takeGrant p grant)
                  (newLease p a.holder grant a.grantedMs ttl) ttl)
                pure { value := grant.toUInt64
                       data := encodeGrantResult
                         { granted := grant, grantedMs := a.grantedMs, ttlMs := ttl,
                           selfGuardMs := p.selfGuardMs, maxPauseMs := p.maxPauseMs } }

/-- Fold a cumulative spend total into a lease (maximum), clamped to its amount. -/
def applyBudReport (c : Command) : UpdateM ProposeResult :=
  let ns := c.ns.val
  let coll := c.coll.val
  match leaseArgs c with
  | none => throw .shortCommand
  | some a => do
    match ← tryReads (getLease s ns coll a.leaseID) with
    | none => pure { data := budNoLease }
    | some l =>
      if holderMismatch a.holder l then pure { data := budWrongHolder }
      else if a.num ≤ l.spent then pure { value := (l.amount - l.spent).toUInt64 }
      else do
        let reported := if a.num > l.amount then l.amount else a.num
        match ← tryReads (getPool s ns coll) with
        | none => throw .missingPool
        | some p => do
          modify fun u => setLease s ns coll a.leaseID { l with spent := reported }
            (setPool s ns coll (bookSpend p (reported - l.spent)) u)
          pure { value := (l.amount - reported).toUInt64 }

def foldFinal (final : Option Int64) (l : LeaseRec) (p : PoolRec) : LeaseRec × PoolRec :=
  match final with
  | none => (l, p)
  | some r =>
    if r > l.spent then
      let reported := if r > l.amount then l.amount else r
      ({ l with spent := reported }, bookSpend p (reported - l.spent))
    else (l, p)

/-- Credit a lease's unspent rest to the free bucket. -/
def creditRest (l : LeaseRec) (p : PoolRec) : PoolRec :=
  { p with available := p.available + (l.amount - l.spent)
           leasedOut := p.leasedOut - (l.amount - l.spent) }

/-- The writes of a return; only a lease with a deadline leaves a tombstone. -/
def writeReturn (ns coll id : Bytes) (l : LeaseRec) (p : PoolRec) (u : UpdateCtx) : UpdateCtx :=
  let u := setPool s ns coll p u
  let u := delLease s ns coll id u
  if l.reclaimNotBeforeMs > 0 then
    let u := delBudExp s ns coll id l.reclaimNotBeforeMs u
    let u := setTomb s ns coll id { finalSpent := l.spent, reason := reasonReturn } u
    setBudTombGC s ns coll id (l.reclaimNotBeforeMs + p.dedupRetryWindowMs) u
  else u

/-- Settle a lease its holder gives back: the unspent rest returns to the pool. -/
def applyBudReturn (c : Command) : UpdateM ProposeResult :=
  let ns := c.ns.val
  let coll := c.coll.val
  match returnArgs c with
  | none => throw .shortCommand
  | some a => do
    match ← tryReads (getTomb s ns coll a.leaseID) with
    | some _ => pure { value := 0 }
    | none =>
      match ← tryReads (getLease s ns coll a.leaseID) with
      | none => pure { data := budNoLease }
      | some l =>
        if holderMismatch a.holder l then pure { data := budWrongHolder }
        else do
          match ← tryReads (getPool s ns coll) with
          | none => throw .missingPool
          | some p => do
            let lp := foldFinal a.final l p
            modify (writeReturn s ns coll a.leaseID lp.1 (creditRest lp.1 lp.2))
            pure { value := (lp.1.amount - lp.1.spent).toUInt64 }

def debitRest (l : LeaseRec) (p : PoolRec) : PoolRec :=
  { p with spent := p.spent + (l.amount - l.spent)
           leasedOut := p.leasedOut - (l.amount - l.spent) }

def writeExpire (ns coll id : Bytes) (l : LeaseRec) (p : PoolRec) (u : UpdateCtx) : UpdateCtx :=
  let u := setPool s ns coll p u
  let u := delLease s ns coll id u
  let u := if l.reclaimNotBeforeMs > 0 then delBudExp s ns coll id l.reclaimNotBeforeMs u else u
  let u := setTomb s ns coll id { finalSpent := l.spent, reason := reasonExpire } u
  setBudTombGC s ns coll id (l.reclaimNotBeforeMs + p.dedupRetryWindowMs) u

/-- The writes of an expiry that finds no lease: a tombstone all the same. -/
def writeAbsent (ns coll id : Bytes) (sweepNowMs : Int64) (p : Option PoolRec)
    (u : UpdateCtx) : UpdateCtx :=
  let u := setTomb s ns coll id { reason := reasonExpire } u
  match p with
  | some p => setBudTombGC s ns coll id (sweepNowMs + p.dedupRetryWindowMs) u
  | none => u

/-- Settle a lease whose deadline has passed: the whole rest is booked as spent. -/
def applyBudExpire (c : Command) : UpdateM ProposeResult :=
  let ns := c.ns.val
  let coll := c.coll.val
  match leaseArgs c with
  | none => throw .shortCommand
  | some a => do
    match ← tryReads (getTomb s ns coll a.leaseID) with
    | some _ => pure { value := 0 }
    | none =>
      let lease ← tryReads (getLease s ns coll a.leaseID)
      let pool ← tryReads (getPool s ns coll)
      match lease with
      | none => do
        modify (writeAbsent s ns coll a.leaseID a.num pool)
        pure { value := 0 }
      | some l =>
        if a.num < l.reclaimNotBeforeMs then
          pure { value := (l.amount - l.spent).toUInt64 }
        else
          match pool with
          | none => throw .missingPool
          | some p => do
            modify (writeExpire s ns coll a.leaseID l (debitRest l p))
            pure { value := (l.amount - l.spent).toUInt64 }

def applyBudTombGC (c : Command) : UpdateM ProposeResult :=
  match leaseArgs c with
  | none => throw .shortCommand
  | some a => do
    modify fun u => delBudTombGC s c.ns.val c.coll.val a.leaseID a.num
      (delTomb s c.ns.val c.coll.val a.leaseID u)
    pure {}

/-- Reset the pool's spend to an external total, floored at what holders attested
and capped. An over-commit leaves no free quantity. -/
def reconcilePool (p : PoolRec) (trueAcked : Int64) : PoolRec :=
  let target := clampI64 trueAcked p.spentReported p.cap
  let free := p.cap - target - p.leasedOut
  { p with spent := target, available := if free < 0 then 0 else free }

def applyBudReconcile (c : Command) : UpdateM ProposeResult :=
  match reconcileArgs c with
  | none => throw .shortCommand
  | some trueAcked => do
    match ← tryReads (getPool s c.ns.val c.coll.val) with
    | none => pure { data := budNoBudget }
    | some p => do
      let p' := reconcilePool p trueAcked
      let recovered := p.spent - p'.spent
      modify (setPool s c.ns.val c.coll.val p')
      pure { value := recovered.toUInt64, data := putI64 recovered }

end

end WaveSpan.Collections
