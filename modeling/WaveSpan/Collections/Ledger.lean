/-
WaveSpan.Collections.Ledger — one budget as a ledger of typed records.

A `Ledger` is what the rows of one budget collection stand for: the pool with its
outstanding leases, if the budget was created, and the tombstones of settled
leases. Leases live inside the opened book, so a lease without a pool cannot be
written down. `Ledger.apply` does to a ledger what one budget command is for.

`Represents` ties a ledger to the bytes of a context: the record rows of the
collection read back as the ledger's records, through the in-batch overlay and in
the rows the batch has produced. Every command refines its ledger operation,
result included, and every other command leaves the ledger alone
(`applyDecoded_refines`).
-/
import WaveSpan.Collections.Locality

namespace WaveSpan.Collections

open WaveSpan.Wire WaveSpan.Rows WaveSpan.Prog

/-! ## The ledger -/

structure Book where
  pool : PoolRec
  leases : GoMap LeaseRec := ∅

/-- One budget: its book, if it was created, and its settled leases. -/
structure Ledger where
  book : Option Book := none
  tombs : GoMap TombRec := ∅

/-- A budget command with its arguments. -/
inductive BudOp where
  | init (a : InitArgs)
  | grant (a : GrantArgs)
  | report (a : LeaseArgs)
  | giveBack (a : ReturnArgs)
  | expire (a : LeaseArgs)
  | tombGC (a : LeaseArgs)
  | reconcile (trueAcked : Int64)

/-- The budget command a log command is, if its arguments decode. -/
def BudOp.ofCommand (c : Command) : Option BudOp :=
  match c.op with
  | .budInit => (initArgs c).map .init
  | .budGrant => (grantArgs c).map .grant
  | .budReport => (leaseArgs c).map .report
  | .budReturn => (returnArgs c).map .giveBack
  | .budExpire => (leaseArgs c).map .expire
  | .budTombGC => (leaseArgs c).map .tombGC
  | .budReconcile => (reconcileArgs c).map .reconcile
  | _ => none

namespace Ledger

def lease? (L : Ledger) (id : Bytes) : Option (Book × LeaseRec) :=
  L.book.bind fun b => b.leases[id]?.map fun l => (b, l)

def init (a : InitArgs) (L : Ledger) : Ledger × ProposeResult :=
  if a.mode ≠ modeStrict ∨ a.capacity < 0 then (L, { data := budBadMode })
  else if badInitParam a then (L, { data := budBadParam })
  else
    match L.book with
    | some _ => (L, { data := budExists })
    | none => ({ L with book := some { pool := newPool a } }, { value := 1 })

def allot (a : GrantArgs) (b : Book) (L : Ledger) : Ledger × ProposeResult :=
  let ttl := resolveTTL b.pool a.ttlOverride
  if ttl > 0 ∧ b.pool.selfGuardMs < maxClockSkewMs then (L, { data := budBadParam })
  else
    let p := accrueTokens b.pool a.grantedMs
    let grant := grantable p a.amount
    if grant ≤ 0 then (L, { data := budNoCapacity })
    else
      let b' : Book :=
        { pool := takeGrant p grant
          leases := b.leases.insert a.leaseID (newLease p a.holder grant a.grantedMs ttl) }
      ({ L with book := some b' },
        { value := grant.toUInt64
          data := encodeGrantResult
            { granted := grant, grantedMs := a.grantedMs, ttlMs := ttl,
              selfGuardMs := p.selfGuardMs, maxPauseMs := p.maxPauseMs } })

def grant (a : GrantArgs) (L : Ledger) : Ledger × ProposeResult :=
  if a.amount < 0 then (L, { data := budNoCapacity })
  else
    match L.tombs[a.leaseID]? with
    | some _ => (L, { data := budSettled })
    | none =>
      match L.book with
      | none => (L, { data := budNoBudget })
      | some b =>
        match b.leases[a.leaseID]? with
        | some l =>
          (L, { value := l.amount.toUInt64
                data := encodeGrantResult (echoGrant l (some b.pool)) })
        | none => allot a b L

def report (a : LeaseArgs) (L : Ledger) : Ledger × ProposeResult :=
  match L.lease? a.leaseID with
  | none => (L, { data := budNoLease })
  | some (b, l) =>
    if holderMismatch a.holder l then (L, { data := budWrongHolder })
    else if a.num ≤ l.spent then (L, { value := (l.amount - l.spent).toUInt64 })
    else
      let reported := if a.num > l.amount then l.amount else a.num
      let b' : Book :=
        { pool := bookSpend b.pool (reported - l.spent)
          leases := b.leases.insert a.leaseID { l with spent := reported } }
      ({ L with book := some b' }, { value := (l.amount - reported).toUInt64 })

def giveBack (a : ReturnArgs) (L : Ledger) : Ledger × ProposeResult :=
  match L.tombs[a.leaseID]? with
  | some _ => (L, { value := 0 })
  | none =>
    match L.lease? a.leaseID with
    | none => (L, { data := budNoLease })
    | some (b, l) =>
      if holderMismatch a.holder l then (L, { data := budWrongHolder })
      else
        let lp := foldFinal a.final l b.pool
        ({ book := some { pool := creditRest lp.1 lp.2, leases := b.leases.erase a.leaseID }
           tombs :=
            if lp.1.reclaimNotBeforeMs > 0 then
              L.tombs.insert a.leaseID { finalSpent := lp.1.spent, reason := reasonReturn }
            else L.tombs },
          { value := (lp.1.amount - lp.1.spent).toUInt64 })

/-- Settle a lease with its rest debited, once its deadline has passed. -/
def expire (a : LeaseArgs) (L : Ledger) : Ledger × ProposeResult :=
  match L.tombs[a.leaseID]? with
  | some _ => (L, { value := 0 })
  | none =>
    match L.lease? a.leaseID with
    | none =>
      ({ L with tombs := L.tombs.insert a.leaseID { reason := reasonExpire } }, { value := 0 })
    | some (b, l) =>
      if a.num < l.reclaimNotBeforeMs then (L, { value := (l.amount - l.spent).toUInt64 })
      else
        ({ book := some { pool := debitRest l b.pool, leases := b.leases.erase a.leaseID }
           tombs := L.tombs.insert a.leaseID
            { finalSpent := l.spent, reason := reasonExpire } },
          { value := (l.amount - l.spent).toUInt64 })

def tombGC (a : LeaseArgs) (L : Ledger) : Ledger × ProposeResult :=
  ({ L with tombs := L.tombs.erase a.leaseID }, {})

def reconcile (trueAcked : Int64) (L : Ledger) : Ledger × ProposeResult :=
  match L.book with
  | none => (L, { data := budNoBudget })
  | some b =>
    let p := reconcilePool b.pool trueAcked
    ({ L with book := some { b with pool := p } },
      { value := (b.pool.spent - p.spent).toUInt64, data := putI64 (b.pool.spent - p.spent) })

def apply : BudOp → Ledger → Ledger × ProposeResult
  | .init a => init a
  | .grant a => grant a
  | .report a => report a
  | .giveBack a => giveBack a
  | .expire a => expire a
  | .tombGC a => tombGC a
  | .reconcile n => reconcile n

end Ledger

/-! ## What an operation can do -/

namespace Ledger

variable (L : Ledger)

/-- An init opens the book of a collection without one, or does nothing. -/
theorem init_cases (a : InitArgs) :
    (L.init a).1 = L ∨
      L.book = none ∧ ¬ a.capacity < 0 ∧ badInitParam a = false ∧
        (L.init a).1 = { L with book := some { pool := newPool a } } := by
  unfold init
  split
  · exact .inl rfl
  rename_i hmode
  split
  · exact .inl rfl
  rename_i hparam
  split
  · exact .inl rfl
  rename_i hb
  exact .inr ⟨hb, fun h => hmode (.inr h), Bool.eq_false_iff.mpr hparam, rfl⟩

/-- A grant changes nothing, or allots what `grantable` says to a new lease. -/
theorem grant_cases (a : GrantArgs) :
    (L.grant a).1 = L ∨
      ∃ b, L.book = some b ∧ L.tombs[a.leaseID]? = none ∧ b.leases[a.leaseID]? = none ∧
        ¬ grantable (accrueTokens b.pool a.grantedMs) a.amount ≤ 0 ∧
        (L.grant a).1 = { L with book := some ⟨
          takeGrant (accrueTokens b.pool a.grantedMs)
            (grantable (accrueTokens b.pool a.grantedMs) a.amount),
          b.leases.insert a.leaseID (newLease (accrueTokens b.pool a.grantedMs) a.holder
            (grantable (accrueTokens b.pool a.grantedMs) a.amount) a.grantedMs
            (resolveTTL b.pool a.ttlOverride))⟩ } := by
  unfold grant
  split
  · exact .inl rfl
  split
  · exact .inl rfl
  rename_i ht
  split
  · exact .inl rfl
  rename_i b hb
  split
  · exact .inl rfl
  rename_i hl
  unfold allot
  simp only
  split
  · exact .inl rfl
  split
  · exact .inl rfl
  rename_i hg
  exact .inr ⟨b, hb, ht, hl, hg, rfl⟩

/-- A report changes nothing, or raises a lease's spend to the clamped total. -/
theorem report_cases (a : LeaseArgs) :
    (L.report a).1 = L ∨
      ∃ b l, L.lease? a.leaseID = some (b, l) ∧ ¬ a.num ≤ l.spent ∧
        (L.report a).1 = { L with book := some ⟨
          bookSpend b.pool ((if a.num > l.amount then l.amount else a.num) - l.spent),
          b.leases.insert a.leaseID
            { l with spent := if a.num > l.amount then l.amount else a.num }⟩ } := by
  unfold report
  split
  · exact .inl rfl
  rename_i b l hl
  split
  · exact .inl rfl
  split
  · exact .inl rfl
  rename_i hnew
  exact .inr ⟨b, l, hl, hnew, rfl⟩

/-- A return changes nothing, or settles a lease. -/
theorem giveBack_cases (a : ReturnArgs) :
    (L.giveBack a).1 = L ∨
      ∃ b l, L.tombs[a.leaseID]? = none ∧ L.lease? a.leaseID = some (b, l) ∧
        (L.giveBack a).1.book = some
          { pool := creditRest (foldFinal a.final l b.pool).1 (foldFinal a.final l b.pool).2
            leases := b.leases.erase a.leaseID } := by
  unfold giveBack
  split
  · exact .inl rfl
  rename_i ht
  split
  · exact .inl rfl
  rename_i b l hl
  split
  · exact .inl rfl
  exact .inr ⟨b, l, ht, hl, rfl⟩

/-- An expiry leaves the book alone, or settles a lease that is due. -/
theorem expire_cases (a : LeaseArgs) :
    (L.expire a).1.book = L.book ∨
      ∃ b l, L.tombs[a.leaseID]? = none ∧ L.lease? a.leaseID = some (b, l) ∧
        ¬ a.num < l.reclaimNotBeforeMs ∧
        (L.expire a).1.book = some
          { pool := debitRest l b.pool, leases := b.leases.erase a.leaseID } := by
  unfold expire
  split
  · exact .inl rfl
  rename_i ht
  split
  · exact .inl rfl
  rename_i b l hl
  split
  · exact .inl rfl
  rename_i hdue
  exact .inr ⟨b, l, ht, hl, hdue, rfl⟩

/-- Only an init opens a book. -/
theorem apply_none {L : Ledger} {op : BudOp} {b : Book} (h : L.book = none)
    (hb : (L.apply op).1.book = some b) :
    ∃ a, op = .init a ∧ ¬ a.capacity < 0 ∧ badInitParam a = false ∧
      b = { pool := newPool a } := by
  have hlease : ∀ id x, L.lease? id ≠ some x := by
    intro id x hx
    rw [lease?, h] at hx
    cases hx
  have hclosed : ∀ {L' : Ledger}, (L.apply op).1 = L' → L'.book ≠ none := by
    rintro L' rfl hnone
    rw [hnone] at hb
    cases hb
  cases op with
  | init a =>
    rcases L.init_cases a with heq | ⟨-, hcap, hparam, heq⟩
    · exact absurd h (hclosed heq)
    · change (L.init a).1.book = _ at hb
      rw [heq] at hb
      cases hb
      exact ⟨a, rfl, hcap, hparam, rfl⟩
  | grant a =>
    rcases L.grant_cases a with heq | ⟨b', hb', -⟩
    · exact absurd h (hclosed heq)
    · rw [h] at hb'
      cases hb'
  | report a =>
    rcases L.report_cases a with heq | ⟨b', l, hl, -⟩
    · exact absurd h (hclosed heq)
    · exact absurd hl (hlease _ _)
  | giveBack a =>
    rcases L.giveBack_cases a with heq | ⟨b', l, -, hl, -⟩
    · exact absurd h (hclosed heq)
    · exact absurd hl (hlease _ _)
  | expire a =>
    rcases L.expire_cases a with heq | ⟨b', l, -, hl, -⟩
    · exact absurd (heq.trans h) (hclosed rfl)
    · exact absurd hl (hlease _ _)
  | tombGC a =>
    have hsame : (L.apply (.tombGC a)).1.book = none := h
    exact absurd hsame (hclosed rfl)
  | reconcile n =>
    refine absurd h (hclosed ?_)
    show (L.reconcile n).1 = L
    rw [reconcile, h]

end Ledger

/-! ## Records and their bytes -/

theorem getI64_putI64 (n : Int64) (rest : Bytes) : getI64 (putI64 n ++ rest) = n := by
  simp [getI64, putI64]

theorem drop_putI64_append (n : Int64) (k : Nat) (rest : Bytes) :
    (putI64 n ++ rest).drop (k + 8) = rest.drop k := by
  rw [Nat.add_comm, ← List.drop_drop, putI64, drop_u64_append]

theorem drop_u64_add (n : UInt64) (k : Nat) (rest : Bytes) :
    (u64 n ++ rest).drop (k + 8) = rest.drop k := by
  rw [Nat.add_comm, ← List.drop_drop, drop_u64_append]

theorem length_putI64 (n : Int64) : (putI64 n).length = 8 := length_u64 _

/-- A pool is read back. -/
theorem decodePool_encodePool (p : PoolRec) : decodePool (encodePool p) = .ok p := by
  have hlast : getI64 (putI64 p.spentReported) = p.spentReported := by simp [getI64, putI64]
  simp [decodePool, encodePool, length_putI64, drop_putI64_append, drop_u64_add, getI64_putI64,
    hlast]

theorem decodeTomb_encodeTomb (t : TombRec) : decodeTomb (encodeTomb t) = .ok t := by
  have h8 : (putI64 t.finalSpent ++ [t.reason]).drop 8 = [t.reason] :=
    drop_putI64_append _ 0 _
  simp [decodeTomb, encodeTomb, length_putI64, getI64_putI64, h8]

/-- A lease is read back. -/
theorem decodeLease_encodeLease {l : LeaseRec} (h : l.holder.length + 24 < 2 ^ 32) :
    decodeLease (encodeLease l) = .ok l := by
  obtain ⟨x, hx⟩ : ∃ x : Chunk, x.val = l.holder := ⟨⟨l.holder, by omega⟩, rfl⟩
  have hlast : getI64 (putI64 l.expiresMs) = l.expiresMs := by simp [getI64, putI64]
  have hchunk := takeChunk_append x (putI64 l.grantedMs ++ (putI64 l.reclaimNotBeforeMs ++
    putI64 l.expiresMs)) (by rw [hx]; simp [length_putI64]; omega)
  have hdrop : (encodeLease l).drop 24 = appendChunk [] x.val ++ (putI64 l.grantedMs ++
      (putI64 l.reclaimNotBeforeMs ++ putI64 l.expiresMs)) := by
    rw [hx]
    simp [encodeLease, drop_putI64_append]
  have hlen : ¬ (encodeLease l).length < 24 := by
    simp only [encodeLease, List.length_append, length_putI64]
    omega
  have hfields : getI64 (encodeLease l) = l.amount ∧ getI64 ((encodeLease l).drop 8) = l.spent ∧
      getU64 ((encodeLease l).drop 16) = l.epoch := by
    simp [encodeLease, drop_putI64_append, getI64_putI64]
  rw [decodeLease, if_neg hlen, hdrop, hchunk]
  simp [hfields, length_putI64, drop_putI64_append, getI64_putI64, hlast, hx]

/-! ## Ledgers and rows -/

def Ledger.record (L : Ledger) : RowKey → Option Bytes
  | .pool _ _ => L.book.map fun b => encodePool b.pool
  | .lease _ _ id => (L.lease? id).map fun p => encodeLease p.2
  | .tomb _ _ id => L.tombs[id]?.map encodeTomb
  | _ => none

/-- Every holder's name is short enough to be read back. -/
def Ledger.Fits (L : Ledger) : Prop :=
  ∀ id b l, L.lease? id = some (b, l) → l.holder.length + 24 < 2 ^ 32

section
variable (s : UInt64) (ns coll : Chunk)

/-- The record rows of a collection, as commands read them and as the batch has
produced them. -/
def Shows (f : RowKey → Option Bytes) (u : UpdateCtx) : Prop :=
  ∀ k : RowKey, k.isRecord = true → k.scope = some (ns, coll) →
    u.fieldVal (k.enc s) = f k ∧ u.rows[k.enc s]? = f k

structure Represents (L : Ledger) (u : UpdateCtx) : Prop where
  rows : Shows s ns coll L.record u
  fits : L.Fits

end

section
variable {s : UInt64} {ns coll : Chunk} {f g : RowKey → Option Bytes} {u u' : UpdateCtx}
  {k : RowKey}

/-- Writing one row, to the batch and to what later commands read. -/
theorem Shows.write (h : Shows s ns coll f u) {o : StoreOp} (he : o.key = k.enc s) :
    Shows s ns coll (Function.update f k o.value) ((u.setVal o.key o.value).emit [o]) := by
  intro k' hrec hscope
  obtain ⟨hval, hrow⟩ := h k' hrec hscope
  have hvals : ((u.setVal o.key o.value).emit [o]).fieldVal (k'.enc s) =
      if o.key = k'.enc s then o.value else u.fieldVal (k'.enc s) := fieldVal_setVal ..
  have hrows : ((u.setVal o.key o.value).emit [o]).rows[k'.enc s]? =
      (runOp u.rows o)[k'.enc s]? := by
    rw [rows_emit]
    rfl
  rw [hvals, hrows, Function.update_apply]
  by_cases hk : k = k'
  · rw [← hk, ← he, getElem?_runOp_self, if_pos rfl, if_pos rfl]
    exact ⟨rfl, rfl⟩
  · have hne : o.key ≠ k'.enc s := by
      rw [he, ne_eq, RowKey.enc_inj]
      exact hk
    rw [getElem?_runOp_of_ne _ hne, if_neg hne, if_neg (Ne.symm hk)]
    exact ⟨hval, hrow⟩

theorem Shows.setRec (h : Shows s ns coll f u) {key : Bytes} (v : Bytes) (he : key = k.enc s) :
    Shows s ns coll (Function.update f k (some v)) (u.setRec key v) := h.write (o := .put key v) he

theorem Shows.delRec (h : Shows s ns coll f u) {key : Bytes} (he : key = k.enc s) :
    Shows s ns coll (Function.update f k none) (u.delRec key) := h.write (o := .del key) he

/-- A write off the records shows nothing new. -/
theorem Shows.emit_one (h : Shows s ns coll f u) {op : StoreOp} (hk : k.isRecord = false)
    (he : op.key = k.enc s) : Shows s ns coll f (u.emit [op]) := by
  intro k' hrec hscope
  obtain ⟨hval, hrow⟩ := h k' hrec hscope
  refine ⟨hval, ?_⟩
  rw [rows_emit, ← hrow]
  refine getElem?_runOps_of_forall_ne _ fun op' hop' hk' => ?_
  rw [List.mem_singleton.mp hop', he, RowKey.enc_inj] at hk'
  rw [hk', hrec] at hk
  cases hk

/-- A command on another collection, or one that is no budget command, shows
nothing new. -/
theorem Shows.local {c : Command} (h : Shows s ns coll f u) (hl : Local s c u u')
    (hs : u'.store = u.store)
    (hc : (c.ns, c.coll) ≠ (ns, coll) ∨ typeForOp c.op ≠ some .budget) :
    Shows s ns coll f u' := by
  intro k hrec hscope
  obtain ⟨hval, hrow⟩ := h k hrec hscope
  have hk : ¬ k.ofCommand c := by
    rintro ⟨hsc, -, hb⟩
    rw [hscope] at hsc
    rcases hc with hc | hc
    · exact hc (Option.some.inj hsc).symm
    · exact hc (hb hrec)
  refine ⟨?_, by rw [hl.emits.row_eq hs hk, hrow]⟩
  rw [← hval, UpdateCtx.fieldVal, UpdateCtx.fieldVal, hl.vals k hk, UpdateCtx.getData,
    UpdateCtx.getData, hs]

end

/-! ## Reading the records -/

section
variable {s : UInt64} {ns coll : Chunk} {L L' : Ledger} {u u' : UpdateCtx}

/-- A record that is spelled right is read. -/
theorem getRec_of_fieldVal {ρ : Type} {decode : Bytes → Except ApplyErr ρ} {k : Bytes}
    (encode : ρ → Bytes) {r : Option ρ} (h : u.fieldVal k = r.map encode)
    (hd : ∀ x, r = some x → decode (encode x) = .ok x) : getRec decode k u = .ok r := by
  unfold getRec
  rw [h]
  cases r with
  | none => rfl
  | some x => simp [hd x rfl, Except.map]

/-- The pool is the ledger's. -/
theorem Represents.getPool (h : Represents s ns coll L u) :
    getPool s ns.val coll.val u = .ok (L.book.map Book.pool) := by
  refine getRec_of_fieldVal encodePool ?_ (fun p _ => decodePool_encodePool p)
  rw [budPoolKey_eq, (h.rows (.pool ns coll) rfl rfl).1]
  simp [Ledger.record, Function.comp_def]

theorem Represents.getLease (h : Represents s ns coll L u) (id : Bytes) :
    getLease s ns.val coll.val id u = .ok ((L.lease? id).map Prod.snd) := by
  refine getRec_of_fieldVal encodeLease ?_ (fun l hl => ?_)
  · rw [budLeaseKey_eq, (h.rows (.lease ns coll id) rfl rfl).1]
    simp [Ledger.record, Function.comp_def]
  · obtain ⟨⟨b, l'⟩, hbl, rfl⟩ := Option.map_eq_some_iff.mp hl
    exact decodeLease_encodeLease (h.fits id b l' hbl)

theorem Represents.getTomb (h : Represents s ns coll L u) (id : Bytes) :
    getTomb s ns.val coll.val id u = .ok L.tombs[id]? := by
  refine getRec_of_fieldVal encodeTomb ?_ (fun t _ => decodeTomb_encodeTomb t)
  rw [budTombKey_eq, (h.rows (.tomb ns coll id) rfl rfl).1]
  rfl

theorem lease?_some {id : Bytes} {b : Book} {l : LeaseRec} (h : L.lease? id = some (b, l)) :
    L.book = some b ∧ b.leases[id]? = some l := by
  unfold Ledger.lease? at h
  cases hb : L.book with
  | none => rw [hb] at h; cases h
  | some b' =>
    rw [hb, Option.bind_some, Option.map_eq_some_iff] at h
    obtain ⟨l', hl', he⟩ := h
    cases he
    exact ⟨rfl, hl'⟩

theorem lease?_of_book {id : Bytes} {b : Book} (h : L.book = some b) :
    L.lease? id = b.leases[id]?.map fun l => (b, l) := by
  rw [Ledger.lease?, h, Option.bind_some]

/-! ## Writing the records -/

/-- Representing a ledger whose records differ in the written rows. -/
theorem Represents.of_shows {f : RowKey → Option Bytes} (h : Shows s ns coll f u)
    (hf : ∀ k : RowKey, k.isRecord = true → k.scope = some (ns, coll) → f k = L.record k)
    (hfits : L.Fits) : Represents s ns coll L u :=
  ⟨fun k hrec hscope => by rw [← hf k hrec hscope]; exact h k hrec hscope, hfits⟩

/-- A record row of a collection is its pool's, a lease's or a tombstone's. -/
theorem RowKey.record_cases {k : RowKey} (hrec : k.isRecord = true)
    (hscope : k.scope = some (ns, coll)) :
    k = .pool ns coll ∨ (∃ id, k = .lease ns coll id) ∨ ∃ id, k = .tomb ns coll id := by
  cases k with
  | pool ns' coll' => cases hscope; exact .inl rfl
  | lease ns' coll' id => cases hscope; exact .inr (.inl ⟨id, rfl⟩)
  | tomb ns' coll' id => cases hscope; exact .inr (.inr ⟨id, rfl⟩)
  | _ => cases hrec

section
variable {b : Book} {id : Bytes}

/-- A pool row over the leases that are there. -/
theorem Represents.putPool (h : Represents s ns coll L u)
    (hb : ∀ id, b.leases[id]? = (L.lease? id).map Prod.snd) :
    Represents s ns coll { L with book := some b } (setPool s ns.val coll.val b.pool u) := by
  refine .of_shows (h.rows.setRec (encodePool b.pool) (budPoolKey_eq s ns coll)) ?_ ?_
  · intro k hrec hscope
    rcases RowKey.record_cases hrec hscope with rfl | ⟨id, rfl⟩ | ⟨id, rfl⟩
    · simp [Ledger.record]
    · simp [Ledger.record, Ledger.lease?, hb, Function.comp_def]
    · simp [Ledger.record]
  · intro id b' l hl
    obtain ⟨hb', hl'⟩ := lease?_some hl
    cases hb'
    rw [hb] at hl'
    obtain ⟨p, hp, rfl⟩ := Option.map_eq_some_iff.mp hl'
    exact h.fits id p.1 p.2 hp

theorem Represents.setPool (h : Represents s ns coll L u) (hb : L.book = some b) (p : PoolRec) :
    Represents s ns coll { L with book := some { b with pool := p } }
      (setPool s ns.val coll.val p u) :=
  h.putPool (b := { b with pool := p }) (by simp [lease?_of_book hb])

/-- A budget's first pool row. -/
theorem Represents.openPool (h : Represents s ns coll L u) (hb : L.book = none) (p : PoolRec) :
    Represents s ns coll { L with book := some { pool := p } }
      (Collections.setPool s ns.val coll.val p u) :=
  h.putPool (b := { pool := p }) (by simp [Ledger.lease?, hb])

/-- A book with one lease written or removed. -/
theorem Represents.putLease (h : Represents s ns coll L u) (hb : L.book = some b)
    {v : Option LeaseRec} {m : Std.ExtTreeMap Bytes LeaseRec}
    (hm : ∀ id', m[id']? = if id = id' then v else b.leases[id']?)
    (hv : ∀ l, v = some l → l.holder.length + 24 < 2 ^ 32)
    (hu : Shows s ns coll (Function.update L.record (.lease ns coll id) (v.map encodeLease)) u') :
    Represents s ns coll { L with book := some { b with leases := m } } u' := by
  refine .of_shows hu ?_ ?_
  · intro k hrec hscope
    rcases RowKey.record_cases hrec hscope with rfl | ⟨id', rfl⟩ | ⟨id', rfl⟩
    · simp [Ledger.record, hb]
    · by_cases hid : id' = id
      · simp [Ledger.record, Ledger.lease?, hid, hm, Function.comp_def]
      · simp [Ledger.record, Ledger.lease?, hb, hid, Ne.symm hid, hm, Function.comp_def]
    · simp [Ledger.record]
  · intro id' b' l' hl'
    obtain ⟨hb', hl'⟩ := lease?_some hl'
    cases hb'
    rw [hm] at hl'
    split at hl'
    · exact hv l' hl'
    · refine h.fits id' b l' ?_
      rw [lease?_of_book hb, hl']
      rfl

theorem Represents.setLease (h : Represents s ns coll L u) (hb : L.book = some b) (l : LeaseRec)
    (hl : l.holder.length + 24 < 2 ^ 32) :
    Represents s ns coll { L with book := some { b with leases := b.leases.insert id l } }
      (setLease s ns.val coll.val id l u) :=
  h.putLease (v := some l) hb (by simp [Std.ExtTreeMap.getElem?_insert])
    (by simpa using hl) (h.rows.setRec (encodeLease l) (budLeaseKey_eq s ns coll id))

theorem Represents.delLease (h : Represents s ns coll L u) (hb : L.book = some b) (id : Bytes) :
    Represents s ns coll { L with book := some { b with leases := b.leases.erase id } }
      (delLease s ns.val coll.val id u) :=
  h.putLease (v := none) hb (by simp [Std.ExtTreeMap.getElem?_erase]) (by simp)
    (h.rows.delRec (budLeaseKey_eq s ns coll id))

/-- A ledger with one tombstone written or removed. -/
theorem Represents.putTomb (h : Represents s ns coll L u) {v : Option TombRec}
    {m : Std.ExtTreeMap Bytes TombRec} (hm : ∀ id', m[id']? = if id = id' then v else L.tombs[id']?)
    (hu : Shows s ns coll (Function.update L.record (.tomb ns coll id) (v.map encodeTomb)) u') :
    Represents s ns coll { L with tombs := m } u' := by
  refine .of_shows hu ?_ h.fits
  intro k hrec hscope
  rcases RowKey.record_cases hrec hscope with rfl | ⟨id', rfl⟩ | ⟨id', rfl⟩
  · simp [Ledger.record]
  · simp [Ledger.record, Ledger.lease?]
  · by_cases hid : id' = id
    · simp [Ledger.record, hid, hm]
    · simp [Ledger.record, hid, Ne.symm hid, hm]

theorem Represents.setTomb (h : Represents s ns coll L u) (t : TombRec) :
    Represents s ns coll { L with tombs := L.tombs.insert id t }
      (setTomb s ns.val coll.val id t u) :=
  h.putTomb (v := some t) (by simp [Std.ExtTreeMap.getElem?_insert])
    (h.rows.setRec (encodeTomb t) (budTombKey_eq s ns coll id))

theorem Represents.delTomb (h : Represents s ns coll L u) :
    Represents s ns coll { L with tombs := L.tombs.erase id }
      (delTomb s ns.val coll.val id u) :=
  h.putTomb (v := none) (by simp [Std.ExtTreeMap.getElem?_erase])
    (h.rows.delRec (budTombKey_eq s ns coll id))

/-- The due indexes are no records. -/
theorem Represents.setBudExp (h : Represents s ns coll L u) (t : Int64) :
    Represents s ns coll L (setBudExp s ns.val coll.val id t u) :=
  ⟨h.rows.emit_one rfl (budExpKey_eq s ns coll id t), h.fits⟩

theorem Represents.delBudExp (h : Represents s ns coll L u) (t : Int64) :
    Represents s ns coll L (delBudExp s ns.val coll.val id t u) :=
  ⟨h.rows.emit_one rfl (budExpKey_eq s ns coll id t), h.fits⟩

theorem Represents.setBudTombGC (h : Represents s ns coll L u) (t : Int64) :
    Represents s ns coll L (setBudTombGC s ns.val coll.val id t u) :=
  ⟨h.rows.emit_one rfl (budTombGCKey_eq s ns coll id t), h.fits⟩

theorem Represents.delBudTombGC (h : Represents s ns coll L u) (t : Int64) :
    Represents s ns coll L (delBudTombGC s ns.val coll.val id t u) :=
  ⟨h.rows.emit_one rfl (budTombGCKey_eq s ns coll id t), h.fits⟩

theorem Represents.ite {p : Prop} [Decidable p] {v w : UpdateCtx}
    (h : Represents s ns coll L v) (h' : Represents s ns coll L w) :
    Represents s ns coll L (if p then v else w) := by
  split
  · exact h
  · exact h'

end

/-- A tombstone for a lease that is not there. -/
theorem Represents.writeAbsent {id : Bytes} (h : Represents s ns coll L u) (now : Int64)
    (p : Option PoolRec) :
    Represents s ns coll { L with tombs := L.tombs.insert id { reason := reasonExpire } }
      (writeAbsent s ns.val coll.val id now p u) := by
  cases p with
  | none => exact h.setTomb _
  | some p => exact (h.setTomb _).setBudTombGC _

/-! ## Commands refine ledger operations -/

/-- A run refines a ledger operation: it returns the operation's result in a
context that represents the operation's ledger. -/
def Refines (s : UInt64) (ns coll : Chunk) (p : Ledger × ProposeResult)
    (r : EStateM.Result ApplyErr UpdateCtx ProposeResult) : Prop :=
  Ends (fun r u' => r = p.2 ∧ Represents s ns coll p.1 u') (fun _ _ => False) r

section
variable {c : Command}

theorem grantArgs_holder {a : GrantArgs} (h : grantArgs c = some a) :
    a.holder.length + 24 < 2 ^ 32 := by
  unfold grantArgs at h
  split at h
  · cases h
  · rename_i it _ _
    simp only at h
    split at h
    · cases h
    · rename_i hlen
      cases h
      have := it.val.property
      simp only [List.length_drop]
      omega

/-- A grant does to the rows what it does to the ledger. -/
theorem applyBudGrant_refines {a : GrantArgs} (ha : grantArgs c = some a)
    (h : Represents s c.ns c.coll L u) :
    Refines s c.ns c.coll (L.grant a) (applyBudGrant s c u) := by
  unfold applyBudGrant Ledger.grant
  simp only [ha]
  by_cases hneg : a.amount < 0
  · rw [if_pos hneg, if_pos hneg]
    exact ⟨rfl, h⟩
  rw [if_neg hneg, if_neg hneg, Refines, ends_bind, ends_tryReads_ok (h.getTomb a.leaseID)]
  cases ht : L.tombs[a.leaseID]? with
  | some t => exact ⟨rfl, h⟩
  | none =>
    rw [ends_bind, ends_tryReads_ok (h.getLease a.leaseID)]
    cases hb : L.book with
    | none =>
      have hl : L.lease? a.leaseID = none := by rw [Ledger.lease?, hb]; rfl
      rw [hl, Option.map_none, ends_bind, ends_tryReads_ok h.getPool, hb]
      exact ⟨rfl, h⟩
    | some b =>
      rw [lease?_of_book hb]
      cases hl : b.leases[a.leaseID]? with
      | some l =>
        simp only [hl, Option.map_some]
        rw [ends_bind, ends_tryReads_ok h.getPool, hb]
        exact ⟨rfl, h⟩
      | none =>
        simp only [hl, Option.map_none]
        rw [ends_bind, ends_tryReads_ok h.getPool, hb, Option.map_some]
        unfold Ledger.allot
        by_cases hguard : resolveTTL b.pool a.ttlOverride > 0 ∧
            b.pool.selfGuardMs < maxClockSkewMs
        · simp only [if_pos hguard]
          exact ⟨rfl, h⟩
        by_cases hg : grantable (accrueTokens b.pool a.grantedMs) a.amount ≤ 0
        · simp only [if_neg hguard, if_pos hg]
          exact ⟨rfl, h⟩
        simp only [if_neg hguard, if_neg hg]
        refine ⟨rfl, ?_⟩
        have hp := h.setPool hb (takeGrant (accrueTokens b.pool a.grantedMs)
          (grantable (accrueTokens b.pool a.grantedMs) a.amount))
        refine (Represents.ite (hp.setBudExp _) hp).setLease rfl _ ?_
        have := grantArgs_holder ha
        unfold newLease
        split <;> exact this

theorem applyBudReport_refines {a : LeaseArgs} (ha : leaseArgs c = some a)
    (h : Represents s c.ns c.coll L u) :
    Refines s c.ns c.coll (L.report a) (applyBudReport s c u) := by
  unfold applyBudReport Ledger.report
  simp only [ha]
  rw [Refines, ends_bind, ends_tryReads_ok (h.getLease a.leaseID)]
  cases hl : L.lease? a.leaseID with
  | none => exact ⟨rfl, h⟩
  | some p =>
    obtain ⟨b, l⟩ := p
    obtain ⟨hb, -⟩ := lease?_some hl
    simp only [Option.map_some]
    by_cases hm : holderMismatch a.holder l = true
    · rw [if_pos hm, if_pos hm]
      exact ⟨rfl, h⟩
    by_cases hle : a.num ≤ l.spent
    · rw [if_neg hm, if_neg hm, if_pos hle, if_pos hle]
      exact ⟨rfl, h⟩
    rw [if_neg hm, if_neg hm, if_neg hle, if_neg hle, ends_bind, ends_tryReads_ok h.getPool, hb]
    exact ⟨rfl, (h.setPool hb _).setLease rfl _ (h.fits _ b l hl)⟩

theorem applyBudReturn_refines {a : ReturnArgs} (ha : returnArgs c = some a)
    (h : Represents s c.ns c.coll L u) :
    Refines s c.ns c.coll (L.giveBack a) (applyBudReturn s c u) := by
  unfold applyBudReturn Ledger.giveBack
  simp only [ha]
  rw [Refines, ends_bind, ends_tryReads_ok (h.getTomb a.leaseID)]
  cases ht : L.tombs[a.leaseID]? with
  | some t => exact ⟨rfl, h⟩
  | none =>
    rw [ends_bind, ends_tryReads_ok (h.getLease a.leaseID)]
    cases hl : L.lease? a.leaseID with
    | none => exact ⟨rfl, h⟩
    | some p =>
      obtain ⟨b, l⟩ := p
      obtain ⟨hb, -⟩ := lease?_some hl
      simp only [Option.map_some]
      by_cases hm : holderMismatch a.holder l = true
      · rw [if_pos hm, if_pos hm]
        exact ⟨rfl, h⟩
      rw [if_neg hm, if_neg hm, ends_bind, ends_tryReads_ok h.getPool, hb]
      refine ⟨rfl, ?_⟩
      have hdel := (h.setPool hb (creditRest (foldFinal a.final l b.pool).1
        (foldFinal a.final l b.pool).2)).delLease rfl a.leaseID
      simp only [writeReturn]
      by_cases hd : (foldFinal a.final l b.pool).1.reclaimNotBeforeMs > 0
      · rw [if_pos hd, if_pos hd]
        exact ((hdel.delBudExp _).setTomb _).setBudTombGC _
      · rw [if_neg hd, if_neg hd]
        exact hdel

theorem applyBudExpire_refines {a : LeaseArgs} (ha : leaseArgs c = some a)
    (h : Represents s c.ns c.coll L u) :
    Refines s c.ns c.coll (L.expire a) (applyBudExpire s c u) := by
  unfold applyBudExpire Ledger.expire
  simp only [ha]
  rw [Refines, ends_bind, ends_tryReads_ok (h.getTomb a.leaseID)]
  cases ht : L.tombs[a.leaseID]? with
  | some t => exact ⟨rfl, h⟩
  | none =>
    rw [ends_bind, ends_tryReads_ok (h.getLease a.leaseID), ends_bind,
      ends_tryReads_ok h.getPool]
    cases hl : L.lease? a.leaseID with
    | none => exact ⟨rfl, h.writeAbsent _ _⟩
    | some p =>
      obtain ⟨b, l⟩ := p
      obtain ⟨hb, -⟩ := lease?_some hl
      simp only [Option.map_some]
      by_cases hdue : a.num < l.reclaimNotBeforeMs
      · rw [if_pos hdue, if_pos hdue]
        exact ⟨rfl, h⟩
      rw [if_neg hdue, if_neg hdue, hb]
      refine ⟨rfl, ?_⟩
      have hdel := (h.setPool hb (debitRest l b.pool)).delLease rfl a.leaseID
      exact ((Represents.ite (hdel.delBudExp _) hdel).setTomb _).setBudTombGC _

theorem applyBudTombGC_refines {a : LeaseArgs} (ha : leaseArgs c = some a)
    (h : Represents s c.ns c.coll L u) :
    Refines s c.ns c.coll (L.tombGC a) (applyBudTombGC s c u) := by
  unfold applyBudTombGC
  simp only [ha]
  exact ⟨rfl, h.delTomb.delBudTombGC _⟩

theorem applyBudReconcile_refines {n : Int64} (ha : reconcileArgs c = some n)
    (h : Represents s c.ns c.coll L u) :
    Refines s c.ns c.coll (L.reconcile n) (applyBudReconcile s c u) := by
  unfold applyBudReconcile Ledger.reconcile
  simp only [ha]
  rw [Refines, ends_bind, ends_tryReads_ok h.getPool]
  cases hb : L.book with
  | none => exact ⟨rfl, h⟩
  | some b => exact ⟨rfl, h.setPool hb _⟩

/-- A context with the same store, ops and values represents the same ledger. -/
theorem Represents.congr (h : Represents s ns coll L u) (hs : u'.store = u.store)
    (ho : u'.ops = u.ops) (hv : u'.vals = u.vals) : Represents s ns coll L u' := by
  refine ⟨fun k hrec hscope => ?_, h.fits⟩
  rw [UpdateCtx.fieldVal, UpdateCtx.getData, rows_eq_of_ops hs ho, hv, hs]
  exact h.rows k hrec hscope

theorem typeOf_represents (h : Represents s ns coll L u) :
    Ends (fun _ u' => Represents s ns coll L u') (fun _ _ => False)
      (typeOf s c.ns.val c.coll.val u) := by
  simp only [typeOf, ends_bind, ends_reads]
  cases cachedType s c.ns.val c.coll.val u with
  | some t => exact h
  | none =>
    simp only [ends_bind, ends_reads]
    cases headerRow s c.ns.val c.coll.val u with
    | none => exact h
    | some t => exact h.congr rfl rfl rfl

theorem ensureType_represents {t : CollType} (h : Represents s ns coll L u) :
    Ends (fun _ u' => Represents s ns coll L u') (fun _ _ => False)
      (ensureType s c.ns.val c.coll.val t u) := by
  simp only [ensureType, ends_bind, ends_reads]
  cases cachedType s c.ns.val c.coll.val u with
  | some t' => exact h
  | none =>
    simp only [ends_bind, ends_reads]
    cases headerRow s c.ns.val c.coll.val u with
    | some t' => exact h.congr rfl rfl rfl
    | none =>
      have hemit : Represents s ns coll L
          (u.emit [.put (typeKey s c.ns.val c.coll.val) [t.toByte]]) :=
        ⟨h.rows.emit_one (k := .type c.ns c.coll) rfl (typeKey_eq s c.ns c.coll), h.fits⟩
      exact hemit.congr rfl rfl rfl

/-- What a command comes to for the ledger of a collection: nothing, or its
operation with that operation's result. -/
def Outcome (s : UInt64) (ns coll : Chunk) (c : Command) (L : Ledger) (r : ProposeResult)
    (u' : UpdateCtx) : Prop :=
  Represents s ns coll L u' ∨
    ∃ op, c.ns = ns ∧ c.coll = coll ∧ BudOp.ofCommand c = some op ∧ r = (L.apply op).2 ∧
      Represents s ns coll (L.apply op).1 u'

theorem Refines.outcome (op : BudOp) {r : EStateM.Result ApplyErr UpdateCtx ProposeResult}
    (h : Refines s c.ns c.coll (L.apply op) r) (hop : BudOp.ofCommand c = some op) :
    Ends (Outcome s c.ns c.coll c L) (fun _ _ => True) r :=
  Ends.imp h (fun _ _ h => .inr ⟨op, rfl, rfl, hop, h.1, h.2⟩) (fun _ _ _ => trivial)

theorem applyBudInit_outcome (hop : c.op = .budInit) (h : Represents s c.ns c.coll L u) :
    Ends (Outcome s c.ns c.coll c L) (fun _ _ => True) (applyBudInit s c u) := by
  unfold applyBudInit
  cases ha : initArgs c with
  | none => exact trivial
  | some a =>
    refine ends_ite (fun _ => .inl h) (fun hmode => ends_ite (fun _ => .inl h) (fun hbad => ?_))
    rw [ends_bind, ends_tryReads_ok h.getPool]
    cases hb : L.book with
    | some b => exact .inl h
    | none =>
      rw [Option.map_none, ends_bind]
      refine (ensureType_represents h).imp (fun ok v hv => ?_) (fun _ _ h => h.elim)
      refine ends_ite (fun _ => .inr ⟨.init a, rfl, rfl, by simp [BudOp.ofCommand, hop, ha],
        ?_⟩) (fun _ => .inl hv)
      have happly : L.apply (.init a)
          = ({ L with book := some { pool := newPool a } }, { value := 1 }) := by
        simp only [Ledger.apply, Ledger.init, if_neg hmode, if_neg hbad, hb]
      rw [happly]
      exact ⟨rfl, hv.openPool hb _⟩

/-- A budget command refines the ledger or fails. -/
theorem applyBudget_outcome (h : Represents s c.ns c.coll L u) :
    Ends (Outcome s c.ns c.coll c L) (fun _ _ => True) (applyBudget s c u) := by
  unfold applyBudget
  rw [ends_bind]
  refine (typeOf_represents h).imp (fun t v hv => ?_) (fun _ _ h => h.elim)
  refine ends_ite (fun _ => .inl hv) (fun _ => ?_)
  cases hop : c.op with
  | budInit => exact applyBudInit_outcome hop hv
  | budGrant =>
    cases ha : grantArgs c with
    | none => simp only [applyBudGrant, ha]; exact trivial
    | some a =>
      exact (applyBudGrant_refines ha hv).outcome (.grant a)
        (by simp [BudOp.ofCommand, hop, ha])
  | budReport =>
    cases ha : leaseArgs c with
    | none => simp only [applyBudReport, ha]; exact trivial
    | some a =>
      exact (applyBudReport_refines ha hv).outcome (.report a)
        (by simp [BudOp.ofCommand, hop, ha])
  | budReturn =>
    cases ha : returnArgs c with
    | none => simp only [applyBudReturn, ha]; exact trivial
    | some a =>
      exact (applyBudReturn_refines ha hv).outcome (.giveBack a)
        (by simp [BudOp.ofCommand, hop, ha])
  | budExpire =>
    cases ha : leaseArgs c with
    | none => simp only [applyBudExpire, ha]; exact trivial
    | some a =>
      exact (applyBudExpire_refines ha hv).outcome (.expire a)
        (by simp [BudOp.ofCommand, hop, ha])
  | budTombGC =>
    cases ha : leaseArgs c with
    | none => simp only [applyBudTombGC, ha]; exact trivial
    | some a =>
      exact (applyBudTombGC_refines ha hv).outcome (.tombGC a)
        (by simp [BudOp.ofCommand, hop, ha])
  | budReconcile =>
    cases ha : reconcileArgs c with
    | none => simp only [applyBudReconcile, ha]; exact trivial
    | some n =>
      exact (applyBudReconcile_refines ha hv).outcome (.reconcile n)
        (by simp [BudOp.ofCommand, hop, ha])
  | _ => exact .inl hv

/-- A command that is no budget command of the collection leaves its ledger. -/
theorem Represents.cmdStep {r : ProposeResult} (h : Represents s ns coll L u)
    (hstep : CmdStep s c u r u')
    (hc : (c.ns, c.coll) ≠ (ns, coll) ∨ typeForOp c.op ≠ some .budget) :
    Represents s ns coll L u' := by
  rcases hstep with hs | ⟨-, -, v, hv, rfl⟩
  · exact ⟨h.rows.local hs.local hs.quiet.store hc, h.fits⟩
  · have hv' := h.rows.local hv.local hv.quiet.store hc
    refine ⟨fun k hrec hscope => ?_, h.fits⟩
    have hk : ¬ k.isCache := by
      rintro (⟨key, rfl⟩ | ⟨slot, rfl⟩) <;> cases hrec
    have hstore : (remember s c r v).store = v.store := by
      unfold remember
      split <;> rfl
    rw [(remember_emits r).row_eq hstore hk, UpdateCtx.fieldVal, remember_vals, UpdateCtx.getData,
      hstore]
    exact hv' k hrec hscope

/-- Every command refines the ledger of every collection. -/
theorem applyDecoded_refines (fl : FloatOps) (frozen : List FrozenRange)
    (h : Represents s ns coll L u) :
    Ends (Outcome s ns coll c L) (fun _ _ => True) (applyDecoded fl s frozen c u) := by
  by_cases hc : (c.ns, c.coll) ≠ (ns, coll) ∨ typeForOp c.op ≠ some .budget
  · exact (applyDecoded_done fl frozen).imp (fun r u' hstep => .inl (h.cmdStep hstep hc))
      (fun _ _ _ => trivial)
  · rw [not_or, not_not, not_not] at hc
    obtain ⟨hsame, hbud⟩ := hc
    cases hsame
    have hmut : Ends (Outcome s c.ns c.coll c L) (fun _ _ => True) (applyMutation fl s c u) := by
      unfold applyMutation
      rw [hbud]
      exact applyBudget_outcome h
    unfold applyDecoded
    refine ends_ite (fun _ => .inl h) (fun _ => ends_ite (fun _ => ?_) (fun _ => hmut))
    rw [ends_bind, ends_reads]
    cases knownResult s c.idem u with
    | some r => exact .inl h
    | none => exact hmut

end

/-! ## Batches -/

/-- A store with the rows of a ledger represents it. -/
theorem Represents.fresh {st : Store} (hfits : L.Fits)
    (h : ∀ k : RowKey, k.isRecord = true → k.scope = some (ns, coll) →
      st[k.enc s]? = L.record k) : Represents s ns coll L (newCtx s st) := by
  refine ⟨fun k hrec hscope => ⟨?_, h k hrec hscope⟩, hfits⟩
  rw [← h k hrec hscope]
  simp [UpdateCtx.fieldVal, newCtx, UpdateCtx.getData]

/-- The rows a batch leaves behind represent the ledger its context had reached. -/
theorem Represents.afterUpdate {fl : FloatOps} {st st' : Store} {es : List Entry}
    {rs : List ProposeResult} (h : Represents s ns coll L u)
    (hu : applyEntries fl s (loadFrozen s st) es (newCtx s st) = .ok (u, rs))
    (hst : update fl s st es = .ok (st', rs)) :
    Represents s ns coll L (newCtx s st') := by
  refine .fresh h.fits fun k hrec hscope => ?_
  have hk : k.isCard = false ∧ k ≠ .dedupSeq ∧ k ≠ .applied := by
    rcases RowKey.record_cases hrec hscope with rfl | ⟨id, rfl⟩ | ⟨id, rfl⟩ <;>
      exact ⟨rfl, nofun, nofun⟩
  rw [update_rows hu hst hk.1 hk.2.1 hk.2.2]
  exact (h.rows k hrec hscope).2

/-- What every ledger operation of a batch keeps holds of the ledger after it. -/
theorem ledger_update {fl : FloatOps} {st st' : Store} {es : List Entry}
    {rs : List ProposeResult} (ok : Command → UpdateCtx → Prop) (P : Ledger → Prop)
    (hop : ∀ c op L v, ok c v → c.ns = ns → c.coll = coll → BudOp.ofCommand c = some op →
      Represents s ns coll L v → P L → P (L.apply op).1)
    (hes : ∀ e ∈ es, ¬ Migrates e.cmd)
    (hmeet : EntriesMeet fl s (loadFrozen s st) ok es (newCtx s st))
    (h : Represents s ns coll L (newCtx s st)) (hP : P L)
    (hst : update fl s st es = .ok (st', rs)) :
    ∃ L', Represents s ns coll L' (newCtx s st') ∧ P L' := by
  by_cases hne : es = []
  · subst hne
    cases hst
    exact ⟨L, h, hP⟩
  obtain ⟨u, -, -, hu, -, -, -, -⟩ := update_cases hne hst
  have hinv : ∃ L', Represents s ns coll L' u ∧ P L' := by
    refine applyEntries_keeps (I := fun v => ∃ L', Represents s ns coll L' v ∧ P L')
      ?_ ?_ hmeet ⟨L, h, hP⟩ hu
    · rintro c v r v' hok ⟨L₁, hL₁, hP₁⟩ hv'
      have href := applyDecoded_refines (c := c) fl (loadFrozen s st) hL₁
      rw [hv'] at href
      rcases href with href | ⟨op, hns, hcoll, hc, -, href⟩
      · exact ⟨L₁, href, hP₁⟩
      · exact ⟨_, href, hop c op L₁ v hok hns hcoll hc hL₁ hP₁⟩
    · rintro e he hc v w ⟨L₁, hL₁, hP₁⟩ hw
      refine ⟨L₁, ?_, hP₁⟩
      cases hw with
      | ingest hb _ => exact absurd (.inl hb) (hes e he)
      | purge hb _ => exact absurd (.inr hb) (hes e he)
      | freeze _ _ => exact ⟨hL₁.rows.emit_one rfl (frozenKey_eq s _), hL₁.fits⟩
      | unfreeze _ _ => exact ⟨hL₁.rows.emit_one rfl (frozenKey_eq s _), hL₁.fits⟩
      | commands hd _ => rw [commandsOf_control hc] at hd; cases hd
  obtain ⟨L', hL', hP'⟩ := hinv
  exact ⟨L', hL'.afterUpdate hu hst, hP'⟩

end

end WaveSpan.Collections
