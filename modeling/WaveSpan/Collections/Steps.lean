/-
WaveSpan.Collections.Steps — everything one command can do to an `UpdateCtx`.

`Step s c u u'` lists the writes of a command `c`, one constructor per place where
the source writes overlays and ops, each with what the source had read when it got
there. Apart from caching its result under an idempotency key, a command is a
sequence of such steps, whether it returns or raises (`applyMutation_done`). Every
invariant of the batch is proved by a case per constructor, without walking the
programs again.
-/
import WaveSpan.Collections.StateMachine
import Mathlib.Logic.Relation

namespace WaveSpan.Collections

open WaveSpan.Wire WaveSpan.Rows WaveSpan.Prog

/-- The removals that check nothing but presence. -/
def removes : OpKind → Bool
  | .sRem | .hDel | .remove => true
  | _ => false

section
variable (s : UInt64) (c : Command)

/-- The datatype a command's collection was resolved to in this batch. -/
def TypeIs (t : CollType) (u : UpdateCtx) : Prop :=
  cachedType s c.ns.val c.coll.val u = some t.toByte

def ttlSetOps (ns coll m : Bytes) (e : UInt64) (old : Option UInt64) : List StoreOp :=
  (old.toList.map fun o => .del (ttlIndexKey s o ns coll m))
    ++ [.put (ttlIndexKey s e ns coll m) [], .put (ttlPtrKey s ns coll m) (u64 e)]

def ttlClearOps (ns coll m : Bytes) : Option UInt64 → List StoreOp
  | none => []
  | some old => [.del (ttlIndexKey s old ns coll m), .del (ttlPtrKey s ns coll m)]

/-- The writes of a command other than the caching of its result. -/
inductive Step : UpdateCtx → UpdateCtx → Prop where
  | cacheType {u : UpdateCtx} {t : UInt8}
      (hc : cachedType s c.ns.val c.coll.val u = none)
      (hh : headerRow s c.ns.val c.coll.val u = some t) :
      Step u (u.setHtype (collScope s c.ns.val c.coll.val) t)
  | newType {u : UpdateCtx} {t : CollType}
      (ht : typeForOp c.op = some t)
      (hc : cachedType s c.ns.val c.coll.val u = none)
      (hh : headerRow s c.ns.val c.coll.val u = none) :
      Step u ((u.emit [.put (typeKey s c.ns.val c.coll.val) [t.toByte]]).setHtype
        (collScope s c.ns.val c.coll.val) t.toByte)
  | putMember {u : UpdateCtx} {it : Item}
      (hop : c.op = .sAdd) (hit : it ∈ c.items) (hty : TypeIs s c .set u)
      (hex : u.elemExists (elemKey s c.ns.val c.coll.val it.key.val) = false) :
      Step u (putMember s c.ns.val c.coll.val it.key.val u)
  | setTTL {u : UpdateCtx} {it : Item} {old : Option UInt64}
      (hop : c.op = .sAdd) (hit : it ∈ c.items) (hty : TypeIs s c .set u)
      (hex : u.elemExists (elemKey s c.ns.val c.coll.val it.key.val) = true)
      (hpos : it.expiryMs > 0)
      (hold : ttlExpiryOf s c.ns.val c.coll.val it.key.val u = .ok old) :
      Step u (u.emit (ttlSetOps s c.ns.val c.coll.val it.key.val it.expiryMs.toUInt64 old))
  | dropElem {u : UpdateCtx} {it : Item} {old : Option UInt64}
      (hop : removes c.op = true) (hit : it ∈ c.items)
      (hty : TypeIs s c .set u ∨ TypeIs s c .hash u)
      (hold : ttlExpiryOf s c.ns.val c.coll.val it.key.val u = .ok old)
      (hex : u.elemExists (elemKey s c.ns.val c.coll.val it.key.val) = true) :
      Step u ((dropElem s c.ns.val c.coll.val it.key.val u).emit
        (ttlClearOps s c.ns.val c.coll.val it.key.val old))
  | dropExpired {u : UpdateCtx} {it : Item} {old : UInt64}
      (hop : c.op = .expire) (hit : it ∈ c.items)
      (hold : ttlExpiryOf s c.ns.val c.coll.val it.key.val u = .ok (some old))
      (hdue : ¬ old > it.expiryMs.toUInt64)
      (hex : u.elemExists (elemKey s c.ns.val c.coll.val it.key.val) = true) :
      Step u ((dropExpired s c.ns.val c.coll.val it.key.val u).emit
        (ttlClearOps s c.ns.val c.coll.val it.key.val (some old)))
  | clearTTL {u : UpdateCtx} {it : Item} {old : UInt64}
      (hop : (removes c.op = true ∧ (TypeIs s c .set u ∨ TypeIs s c .hash u)) ∨
        (c.op = .expire ∧ ¬ old > it.expiryMs.toUInt64))
      (hit : it ∈ c.items)
      (hold : ttlExpiryOf s c.ns.val c.coll.val it.key.val u = .ok (some old))
      (hex : u.elemExists (elemKey s c.ns.val c.coll.val it.key.val) = false) :
      Step u (u.emit (ttlClearOps s c.ns.val c.coll.val it.key.val (some old)))
  | setField {u : UpdateCtx} {it : Item}
      (hop : c.op = .hSet) (hit : it ∈ c.items) (hty : TypeIs s c .hash u) :
      Step u (putField s c.ns.val c.coll.val it.key.val it.val.val
        (u.elemExists (elemKey s c.ns.val c.coll.val it.key.val)) u)
  | incrField {u : UpdateCtx} {it : Item} {text : Bytes}
      (hop : c.op = .hIncrBy ∨ c.op = .hIncrByFloat) (hit : it ∈ c.items)
      (hty : TypeIs s c .hash u) :
      Step u (putField s c.ns.val c.coll.val it.key.val text
        (u.fieldVal (elemKey s c.ns.val c.coll.val it.key.val)).isSome u)
  | putScore {u : UpdateCtx} {it : Item} {old : Option UInt64}
      (hop : c.op = .zAdd) (hit : it ∈ c.items) (hty : TypeIs s c .zset u)
      (hold : zScore s c.ns.val c.coll.val it.key.val u = .ok old) :
      Step u (putScore s c.ns.val c.coll.val it.key.val old it.score u)
  | dropScore {u : UpdateCtx} {it : Item} {old : UInt64}
      (hop : c.op = .zRem ∨ c.op = .remove) (hit : it ∈ c.items) (hty : TypeIs s c .zset u)
      (hold : zScore s c.ns.val c.coll.val it.key.val u = .ok (some old)) :
      Step u (dropScore s c.ns.val c.coll.val it.key.val old u)
  | budInit {u : UpdateCtx} {a : InitArgs}
      (hop : c.op = .budInit) (ha : initArgs c = some a)
      (hmode : ¬ (a.mode ≠ modeStrict ∨ a.capacity < 0)) (hbad : badInitParam a = false)
      (hty : TypeIs s c .budget u)
      (hp : getPool s c.ns.val c.coll.val u = .ok none) :
      Step u (setPool s c.ns.val c.coll.val (newPool a) u)
  | budGrant {u : UpdateCtx} {a : GrantArgs} {p : PoolRec}
      (hop : c.op = .budGrant) (ha : grantArgs c = some a) (hpos : ¬ a.amount < 0)
      (ht : getTomb s c.ns.val c.coll.val a.leaseID u = .ok none)
      (hl : getLease s c.ns.val c.coll.val a.leaseID u = .ok none)
      (hp : getPool s c.ns.val c.coll.val u = .ok (some p))
      (hguard : ¬ (resolveTTL p a.ttlOverride > 0 ∧ p.selfGuardMs < maxClockSkewMs))
      (hgrant : ¬ grantable (accrueTokens p a.grantedMs) a.amount ≤ 0) :
      Step u (writeGrant s c.ns.val c.coll.val a.leaseID
        (takeGrant (accrueTokens p a.grantedMs)
          (grantable (accrueTokens p a.grantedMs) a.amount))
        (newLease (accrueTokens p a.grantedMs) a.holder
          (grantable (accrueTokens p a.grantedMs) a.amount) a.grantedMs
          (resolveTTL p a.ttlOverride))
        (resolveTTL p a.ttlOverride) u)
  | budReport {u : UpdateCtx} {a : LeaseArgs} {l : LeaseRec} {p : PoolRec}
      (hop : c.op = .budReport) (ha : leaseArgs c = some a)
      (hl : getLease s c.ns.val c.coll.val a.leaseID u = .ok (some l))
      (hnew : ¬ a.num ≤ l.spent)
      (hp : getPool s c.ns.val c.coll.val u = .ok (some p)) :
      Step u (setLease s c.ns.val c.coll.val a.leaseID
        { l with spent := if a.num > l.amount then l.amount else a.num }
        (setPool s c.ns.val c.coll.val
          (bookSpend p ((if a.num > l.amount then l.amount else a.num) - l.spent)) u))
  | budReturn {u : UpdateCtx} {a : ReturnArgs} {l : LeaseRec} {p : PoolRec}
      (hop : c.op = .budReturn) (ha : returnArgs c = some a)
      (ht : getTomb s c.ns.val c.coll.val a.leaseID u = .ok none)
      (hl : getLease s c.ns.val c.coll.val a.leaseID u = .ok (some l))
      (hp : getPool s c.ns.val c.coll.val u = .ok (some p)) :
      Step u (writeReturn s c.ns.val c.coll.val a.leaseID (foldFinal a.final l p).1
        (creditRest (foldFinal a.final l p).1 (foldFinal a.final l p).2) u)
  | budExpire {u : UpdateCtx} {a : LeaseArgs} {l : LeaseRec} {p : PoolRec}
      (hop : c.op = .budExpire) (ha : leaseArgs c = some a)
      (ht : getTomb s c.ns.val c.coll.val a.leaseID u = .ok none)
      (hl : getLease s c.ns.val c.coll.val a.leaseID u = .ok (some l))
      (hdue : ¬ a.num < l.reclaimNotBeforeMs)
      (hp : getPool s c.ns.val c.coll.val u = .ok (some p)) :
      Step u (writeExpire s c.ns.val c.coll.val a.leaseID l (debitRest l p) u)
  | budAbsent {u : UpdateCtx} {a : LeaseArgs} {p : Option PoolRec}
      (hop : c.op = .budExpire) (ha : leaseArgs c = some a)
      (ht : getTomb s c.ns.val c.coll.val a.leaseID u = .ok none)
      (hl : getLease s c.ns.val c.coll.val a.leaseID u = .ok none)
      (hp : getPool s c.ns.val c.coll.val u = .ok p) :
      Step u (writeAbsent s c.ns.val c.coll.val a.leaseID a.num p u)
  | budTombGC {u : UpdateCtx} {a : LeaseArgs}
      (hop : c.op = .budTombGC) (ha : leaseArgs c = some a) :
      Step u (delBudTombGC s c.ns.val c.coll.val a.leaseID a.num
        (delTomb s c.ns.val c.coll.val a.leaseID u))
  | budReconcile {u : UpdateCtx} {n : Int64} {p : PoolRec}
      (hop : c.op = .budReconcile) (ha : reconcileArgs c = some n)
      (hp : getPool s c.ns.val c.coll.val u = .ok (some p)) :
      Step u (setPool s c.ns.val c.coll.val (reconcilePool p n) u)

abbrev Steps : UpdateCtx → UpdateCtx → Prop := Relation.ReflTransGen (Step s c)

end

/-! ## What no write changes

The store is written only at the end of the batch, ops are only appended, the
idempotency cache is written by `remember` alone, and a resolved datatype stays. -/

/-- What every step of a command leaves as it was. -/
structure Quiet (u u' : UpdateCtx) : Prop where
  store : u'.store = u.store
  dedupSeq : u'.dedupSeq = u.dedupSeq
  inBatchDedup : u'.inBatchDedup = u.inBatchDedup
  ops : u.ops <+: u'.ops
  htype : ∀ (k : Bytes) (t : UInt8), u.htype[k]? = some t → u'.htype[k]? = some t

section
variable {s : UInt64} {c : Command} {u u' u'' : UpdateCtx}

theorem Quiet.refl (u : UpdateCtx) : Quiet u u :=
  ⟨rfl, rfl, rfl, List.prefix_refl _, fun _ _ h => h⟩

theorem Quiet.trans (h : Quiet u u') (h' : Quiet u' u'') : Quiet u u'' :=
  ⟨h'.store.trans h.store, h'.dedupSeq.trans h.dedupSeq,
    h'.inBatchDedup.trans h.inBatchDedup, h.ops.trans h'.ops,
    fun k t hk => h'.htype k t (h.htype k t hk)⟩

theorem Quiet.emit (h : Quiet u u') (ops : List StoreOp) : Quiet u (u'.emit ops) :=
  ⟨h.store, h.dedupSeq, h.inBatchDedup, h.ops.trans (List.prefix_append _ _), h.htype⟩

theorem Quiet.setExists (h : Quiet u u') (k : Bytes) (b : Bool) : Quiet u (u'.setExists k b) :=
  ⟨h.store, h.dedupSeq, h.inBatchDedup, h.ops, h.htype⟩

theorem Quiet.setZScore (h : Quiet u u') (k : Bytes) (v : Option UInt64) :
    Quiet u (u'.setZScore k v) :=
  ⟨h.store, h.dedupSeq, h.inBatchDedup, h.ops, h.htype⟩

theorem Quiet.bumpCard (h : Quiet u u') (k : Bytes) (d : Int64) : Quiet u (u'.bumpCard k d) :=
  ⟨h.store, h.dedupSeq, h.inBatchDedup, h.ops, h.htype⟩

theorem Quiet.setVal (h : Quiet u u') (k : Bytes) (v : Option Bytes) : Quiet u (u'.setVal k v) :=
  ⟨h.store, h.dedupSeq, h.inBatchDedup, h.ops, h.htype⟩

theorem Quiet.setRec (h : Quiet u u') (k v : Bytes) : Quiet u (u'.setRec k v) :=
  (h.setVal _ _).emit _

theorem Quiet.delRec (h : Quiet u u') (k : Bytes) : Quiet u (u'.delRec k) :=
  (h.setVal _ _).emit _

theorem Quiet.ite {p : Prop} [Decidable p] {v w : UpdateCtx} (h : Quiet u v) (h' : Quiet u w) :
    Quiet u (if p then v else w) := by
  split
  · exact h
  · exact h'

/-- Resolving a datatype overwrites none. -/
theorem Quiet.setHtype {k : Bytes} (hn : u.htype[k]? = none) (t : UInt8) :
    Quiet u (u.setHtype k t) := by
  refine ⟨rfl, rfl, rfl, List.prefix_refl _, fun k' t' h => ?_⟩
  have hne : k ≠ k' := fun he => by rw [he, h] at hn; cases hn
  simp only [UpdateCtx.setHtype_htype, Std.ExtTreeMap.getElem?_insert,
    Std.LawfulEqCmp.compare_eq_iff_eq, if_neg hne, h]

theorem putField_quiet (ns coll f v : Bytes) (present : Bool) :
    Quiet u (putField s ns coll f v present u) :=
  Quiet.ite ((((Quiet.refl u).emit _).setExists _ _).setVal _ _)
    (((((Quiet.refl u).emit _).setExists _ _).setVal _ _).bumpCard _ _)

theorem putScore_quiet (ns coll m : Bytes) (old : Option UInt64) (score : UInt64) :
    Quiet u (putScore s ns coll m old score u) := by
  cases old with
  | none => exact (((Quiet.refl u).bumpCard _ _).emit _).setZScore _ _
  | some o => exact (((Quiet.refl u).emit _).emit _).setZScore _ _

theorem writeGrant_quiet (ns coll id : Bytes) (p : PoolRec) (l : LeaseRec) (ttl : Int64) :
    Quiet u (writeGrant s ns coll id p l ttl u) :=
  (Quiet.ite (((Quiet.refl u).setRec _ _).emit _) ((Quiet.refl u).setRec _ _)).setRec _ _

theorem writeReturn_quiet (ns coll id : Bytes) (l : LeaseRec) (p : PoolRec) :
    Quiet u (writeReturn s ns coll id l p u) :=
  Quiet.ite ((((((Quiet.refl u).setRec _ _).delRec _).emit _).setRec _ _).emit _)
    (((Quiet.refl u).setRec _ _).delRec _)

theorem writeExpire_quiet (ns coll id : Bytes) (l : LeaseRec) (p : PoolRec) :
    Quiet u (writeExpire s ns coll id l p u) :=
  ((Quiet.ite ((((Quiet.refl u).setRec _ _).delRec _).emit _)
    (((Quiet.refl u).setRec _ _).delRec _)).setRec _ _).emit _

theorem writeAbsent_quiet (ns coll id : Bytes) (now : Int64) (p : Option PoolRec) :
    Quiet u (writeAbsent s ns coll id now p u) := by
  cases p with
  | none => exact (Quiet.refl u).setRec _ _
  | some p => exact ((Quiet.refl u).setRec _ _).emit _

/-- A step leaves what commands have read. -/
theorem Step.quiet (h : Step s c u u') : Quiet u u' := by
  have r := Quiet.refl u
  cases h with
  | cacheType hc _ => exact Quiet.setHtype hc _
  | newType _ hc _ => exact (r.emit _).trans (Quiet.setHtype (u := u.emit _) hc _)
  | putMember => exact ((r.emit _).setExists _ _).bumpCard _ _
  | setTTL => exact r.emit _
  | dropElem => exact ((((r.emit _).setExists _ _).setVal _ _).bumpCard _ _).emit _
  | dropExpired => exact (((r.emit _).setExists _ _).bumpCard _ _).emit _
  | clearTTL => exact r.emit _
  | setField => exact putField_quiet ..
  | incrField => exact putField_quiet ..
  | putScore => exact putScore_quiet ..
  | dropScore => exact ((r.emit _).setZScore _ _).bumpCard _ _
  | budInit => exact r.setRec _ _
  | budGrant => exact writeGrant_quiet ..
  | budReport => exact (r.setRec _ _).setRec _ _
  | budReturn => exact writeReturn_quiet ..
  | budExpire => exact writeExpire_quiet ..
  | budAbsent => exact writeAbsent_quiet ..
  | budTombGC => exact (r.delRec _).emit _
  | budReconcile => exact r.setRec _ _

theorem Steps.quiet (h : Steps s c u u') : Quiet u u' := by
  induction h with
  | refl => exact Quiet.refl u
  | tail _ h ih => exact ih.trans h.quiet

/-- How a command may fail: not by a storage fault, and with nothing taken back. -/
def Fails (u : UpdateCtx) (e : ApplyErr) (u' : UpdateCtx) : Prop :=
  e ≠ .fatal ∧ Quiet u u'

theorem TypeIs.quiet {t : CollType} (ht : TypeIs s c t u) (h : Quiet u u') : TypeIs s c t u' :=
  h.htype _ _ ht

/-! ## Commands are sequences of steps -/

@[simp] theorem elemExists_setExists (k k' : Bytes) (b : Bool) :
    (u.setExists k b).elemExists k' = if k = k' then b else u.elemExists k' := by
  simp only [UpdateCtx.elemExists, UpdateCtx.setExists_existsMap,
    Std.ExtTreeMap.getElem?_insert, Std.LawfulEqCmp.compare_eq_iff_eq]
  by_cases h : k = k'
  · simp only [if_pos h]
  · simp only [if_neg h]
    rfl

theorem fieldVal_setVal (key key' : Bytes) (v : Option Bytes) :
    (u.setVal key v).fieldVal key' = if key = key' then v else u.fieldVal key' := by
  simp only [UpdateCtx.fieldVal, UpdateCtx.setVal_vals, Std.ExtTreeMap.getElem?_insert,
    Std.LawfulEqCmp.compare_eq_iff_eq]
  by_cases h : key = key'
  · simp only [if_pos h]
  · simp only [if_neg h]
    rfl

theorem numberRow_error {v : Option Bytes} {e : ApplyErr} (h : numberRow v = .error e) :
    e ≠ .fatal := by
  cases v with
  | none => cases h
  | some raw =>
    simp only [numberRow] at h
    split at h <;> cases h
    exact ApplyErr.noConfusion

theorem zScore_error {ns coll m : Bytes} {e : ApplyErr} (h : zScore s ns coll m u = .error e) :
    e ≠ .fatal := by
  unfold zScore at h
  split at h
  · cases h
  · exact numberRow_error h

/-- Nothing done is a way to fail short. -/
theorem Fails.here {e : ApplyErr} (h : e ≠ .fatal) : Fails u e u :=
  ⟨h, Quiet.refl u⟩

theorem Fails.after {e : ApplyErr} (h : Quiet u u') (h' : Fails u' e u'') : Fails u e u'' :=
  ⟨h'.1, h.trans h'.2⟩

/-- What a program does after some steps, counted from before them. -/
theorem ends_after {α : Type} {r : EStateM.Result ApplyErr UpdateCtx α} (h : Steps s c u u')
    (hr : Ends (fun _ => Steps s c u') (Fails u') r) :
    Ends (fun _ => Steps s c u) (Fails u) r :=
  hr.imp (fun _ _ h' => h.trans h') (fun _ _ h' => .after h.quiet h')

/-- Reading the type of a collection. -/
theorem typeOf_steps :
    Ends (fun t u' => Steps s c u u' ∧
        (t ≠ 0 → cachedType s c.ns.val c.coll.val u' = some t))
      (Fails u) (typeOf s c.ns.val c.coll.val u) := by
  simp only [typeOf, ends_bind, ends_reads]
  cases hc : cachedType s c.ns.val c.coll.val u with
  | some t => exact ⟨.refl, fun _ => hc⟩
  | none =>
    simp only [ends_bind, ends_reads]
    cases hh : headerRow s c.ns.val c.coll.val u with
    | none => exact ⟨.refl, fun h => absurd rfl h⟩
    | some t =>
      simp only [ends_bind, ends_modify, ends_pure]
      refine ⟨.single (.cacheType hc hh), fun _ => ?_⟩
      simp [cachedType]

/-- Giving a collection its type. -/
theorem ensureType_steps {t : CollType} (ht : typeForOp c.op = some t) :
    Ends (fun ok u' => Steps s c u u' ∧ (ok = true → TypeIs s c t u') ∧ u'.vals = u.vals)
      (Fails u) (ensureType s c.ns.val c.coll.val t u) := by
  simp only [ensureType, ends_bind, ends_reads]
  cases hc : cachedType s c.ns.val c.coll.val u with
  | some t' => exact ⟨.refl, fun h => by rw [TypeIs, hc]; simpa using h, rfl⟩
  | none =>
    simp only [ends_bind, ends_reads]
    cases hh : headerRow s c.ns.val c.coll.val u with
    | some t' =>
      simp only [ends_bind, ends_modify, ends_pure]
      refine ⟨.single (.cacheType hc hh), fun h => ?_, rfl⟩
      simpa [TypeIs, cachedType] using h
    | none =>
      simp only [ends_bind, ends_modify, ends_pure]
      exact ⟨.single (.newType ht hc hh), fun _ => by simp [TypeIs, cachedType], rfl⟩

theorem refreshTTL_steps {it : Item} (hop : c.op = .sAdd) (hit : it ∈ c.items)
    (hty : TypeIs s c .set u)
    (hex : u.elemExists (elemKey s c.ns.val c.coll.val it.key.val) = true) :
    Ends (fun _ u' => Steps s c u u') (Fails u)
      (refreshTTL s c.ns.val c.coll.val it.key.val it.expiryMs u) := by
  unfold refreshTTL
  split
  · rename_i hpos
    simp only [setTTL, ends_bind]
    refine ends_tryReads (fun old hold => ?_) (fun e he => .here (numberRow_error he))
    exact .single (.setTTL hop hit hty hex hpos hold)
  · exact .refl

theorem addMember_steps {it : Item} (hop : c.op = .sAdd) (hit : it ∈ c.items)
    (hty : TypeIs s c .set u) :
    Ends (fun _ u' => Steps s c u u') (Fails u)
      (addMember s c.ns.val c.coll.val it u) := by
  simp only [addMember, ends_bind, ends_reads, ends_modify, ends_pure]
  -- the member is there once the membership write is done
  have hgo : ∀ v, Steps s c u v →
      v.elemExists (elemKey s c.ns.val c.coll.val it.key.val) = true →
      Ends (fun _ u' => Steps s c u u') (Fails u)
        (refreshTTL s c.ns.val c.coll.val it.key.val it.expiryMs v) := by
    intro v hv hex
    exact ends_after hv (refreshTTL_steps hop hit (hty.quiet hv.quiet) hex)
  cases hex : u.elemExists (elemKey s c.ns.val c.coll.val it.key.val) with
  | true => exact hgo u .refl hex
  | false =>
    refine hgo _ (.single (.putMember hop hit hty hex)) ?_
    exact (elemExists_setExists _ _ _).trans (if_pos rfl)

theorem emit_nil (u : UpdateCtx) : u.emit [] = u := by
  simp [UpdateCtx.emit]

/-- Dropping the expiry is one emit, of what the store says it is. -/
theorem clearTTL_ends {ns coll m : Bytes} {Q : Unit → UpdateCtx → Prop}
    {E : ApplyErr → UpdateCtx → Prop}
    (hok : ∀ old, ttlExpiryOf s ns coll m u = .ok old → Q () (u.emit (ttlClearOps s ns coll m old)))
    (herr : ∀ e, ttlExpiryOf s ns coll m u = .error e → E e u) :
    Ends Q E (clearTTL s ns coll m u) := by
  simp only [clearTTL, ends_bind]
  refine ends_tryReads (fun old hold => ?_) herr
  have h := hok old hold
  cases old with
  | none =>
    rw [ttlClearOps, emit_nil] at h
    exact h
  | some old => exact h

theorem ttlExpiryOf_congr {ns coll m : Bytes} (h : u'.store = u.store) :
    ttlExpiryOf s ns coll m u' = ttlExpiryOf s ns coll m u := by
  rw [ttlExpiryOf, ttlExpiryOf, UpdateCtx.getData, UpdateCtx.getData, h]

/-- Removing an element. -/
theorem removeElem_steps {it : Item} (hop : removes c.op = true) (hit : it ∈ c.items)
    (hty : TypeIs s c .set u ∨ TypeIs s c .hash u) :
    Ends (fun _ u' => Steps s c u u') (Fails u)
      (removeElem s c.ns.val c.coll.val it.key.val u) := by
  simp only [removeElem, ends_bind, ends_reads, ends_modify, ends_pure]
  cases hex : u.elemExists (elemKey s c.ns.val c.coll.val it.key.val) with
  | false =>
    refine clearTTL_ends (fun old hold => ?_) (fun e he => .here (numberRow_error he))
    cases old with
    | none =>
      rw [ttlClearOps, emit_nil]
      exact .refl
    | some old => exact .single (.clearTTL (.inl ⟨hop, hty⟩) hit hold hex)
  | true =>
    refine clearTTL_ends (fun old hold => ?_) (fun e he => ⟨numberRow_error he, ?_⟩)
    · exact .single (.dropElem hop hit hty hold hex)
    · exact ((((Quiet.refl u).emit _).setExists _ _).setVal _ _).bumpCard _ _

/-- Expiring an element. -/
theorem expireElem_steps {it : Item} (hop : c.op = .expire) (hit : it ∈ c.items) :
    Ends (fun _ u' => Steps s c u u') (Fails u)
      (expireElem s c.ns.val c.coll.val it u) := by
  simp only [expireElem, ends_bind]
  refine ends_tryReads (fun old hold => ?_) (fun e he => .here (numberRow_error he))
  cases old with
  | none => exact .refl
  | some old =>
    by_cases hdue : old > it.expiryMs.toUInt64
    · simp only [if_pos hdue, ends_pure]
      exact .refl
    · simp only [if_neg hdue, ends_bind, ends_reads, ends_modify, ends_pure]
      -- the same read a second time
      have hsame : ∀ {v : UpdateCtx} {old' : Option UInt64}, v.store = u.store →
          ttlExpiryOf s c.ns.val c.coll.val it.key.val v = .ok old' → old' = some old := by
        intro v old' hv hold'
        rw [ttlExpiryOf_congr hv, hold] at hold'
        exact (Except.ok.inj hold').symm
      cases hex : u.elemExists (elemKey s c.ns.val c.coll.val it.key.val) with
      | false =>
        refine clearTTL_ends (fun old' hold' => ?_) (fun e he => .here (numberRow_error he))
        rw [hsame rfl hold']
        exact .single (.clearTTL (.inr ⟨hop, hdue⟩) hit hold hex)
      | true =>
        refine clearTTL_ends (fun old' hold' => ?_) (fun e he => ⟨numberRow_error he, ?_⟩)
        · rw [hsame rfl hold']
          exact .single (.dropExpired hop hit hold hdue hex)
        · exact (((Quiet.refl u).emit _).setExists _ _).bumpCard _ _

/-- Adding to a sorted set. -/
theorem zAdd_steps {it : Item} (hop : c.op = .zAdd) (hit : it ∈ c.items)
    (hty : TypeIs s c .zset u) :
    Ends (fun _ u' => Steps s c u u') (Fails u) (zAdd s c.ns.val c.coll.val it u) := by
  simp only [zAdd, ends_bind]
  refine ends_tryReads (fun old hold => ?_) (fun e he => .here (zScore_error he))
  exact .single (.putScore hop hit hty hold)

/-- Removing from a sorted set. -/
theorem zRem_steps {it : Item} (hop : c.op = .zRem ∨ c.op = .remove) (hit : it ∈ c.items)
    (hty : TypeIs s c .zset u) :
    Ends (fun _ u' => Steps s c u u') (Fails u)
      (zRem s c.ns.val c.coll.val it.key.val u) := by
  simp only [zRem, ends_bind]
  refine ends_tryReads (fun old hold => ?_) (fun e he => .here (zScore_error he))
  cases old with
  | none => exact .refl
  | some old => exact .single (.dropScore hop hit hty hold)

/-- Removing from a collection of any type. -/
theorem removeAny_steps {it : Item} (hop : c.op = .remove) (hit : it ∈ c.items) :
    Ends (fun _ u' => Steps s c u u') (Fails u)
      (removeAny s c.ns.val c.coll.val it.key.val u) := by
  simp only [removeAny, ends_bind]
  refine typeOf_steps.imp (fun t v hv => ?_) (fun _ _ h => h)
  obtain ⟨hv, htv⟩ := hv
  split
  · rename_i ht
    have hty : TypeIs s c .set v ∨ TypeIs s c .hash v := by
      rcases ht with rfl | rfl
      · exact .inl (htv (by decide))
      · exact .inr (htv (by decide))
    exact ends_after hv (removeElem_steps (by rw [hop]; rfl) hit hty)
  · split
    · rename_i ht
      have hty : TypeIs s c .zset v := by
        subst ht
        exact htv (by decide)
      exact ends_after hv (zRem_steps (.inr hop) hit hty)
    · exact hv

/-- The datatype a command resolved before its items are applied. -/
def Typed (s : UInt64) (c : Command) (u : UpdateCtx) : Prop :=
  ∀ t, typeForOp c.op = some t → TypeIs s c t u

theorem applyItem_steps {it : Item} (hit : it ∈ c.items) (hty : Typed s c u) :
    Ends (fun _ u' => Steps s c u u') (Fails u) (applyItem s c it u) := by
  unfold applyItem
  cases hop : c.op with
  | sAdd => exact addMember_steps hop hit (hty .set (by rw [hop]; rfl))
  | sRem =>
    exact removeElem_steps (by rw [hop]; rfl) hit (.inl (hty .set (by rw [hop]; rfl)))
  | hDel =>
    exact removeElem_steps (by rw [hop]; rfl) hit (.inr (hty .hash (by rw [hop]; rfl)))
  | expire => exact expireElem_steps hop hit
  | hSet => exact .single (.setField hop hit (hty .hash (by rw [hop]; rfl)))
  | zAdd => exact zAdd_steps hop hit (hty .zset (by rw [hop]; rfl))
  | zRem => exact zRem_steps (.inl hop) hit (hty .zset (by rw [hop]; rfl))
  | remove => exact removeAny_steps hop hit
  | _ => exact .refl

theorem applyCommand_steps (hty : Typed s c u) :
    Ends (fun _ u' => Steps s c u u') (Fails u) (applyCommand s c u) := by
  refine ends_foldlM (I := Steps s c u) (fun b it hit v hv => ?_) 0 .refl
  simp only [ends_bind, ends_pure]
  have htv : Typed s c v := fun t ht => (hty t ht).quiet hv.quiet
  exact ends_after hv (applyItem_steps hit htv)

/-- Incrementing a field. -/
theorem incrField_steps {it : Item} {step : Option Bytes → Option (Bytes × Bytes)}
    (hop : c.op = .hIncrBy ∨ c.op = .hIncrByFloat) (hit : it ∈ c.items)
    (hty : TypeIs s c .hash u) :
    Ends (fun _ u' => Steps s c u u') (Fails u) (incrField s c it step u) := by
  simp only [incrField, ends_bind, ends_reads]
  cases step (u.fieldVal (elemKey s c.ns.val c.coll.val it.key.val)) with
  | none => exact .refl
  | some out => exact .single (.incrField hop hit hty)

/-- Reading a record does not fail for good. -/
theorem getRec_error {ρ : Type} {decode : Bytes → Except ApplyErr ρ} {k : Bytes} {e : ApplyErr}
    (hd : ∀ b e, decode b = .error e → e ≠ .fatal) (h : getRec decode k u = .error e) :
    e ≠ .fatal := by
  unfold getRec at h
  split at h
  · cases h
  · rename_i v _
    cases hv : decode v with
    | error e' => rw [hv] at h; cases h; exact hd v _ hv
    | ok r => rw [hv] at h; cases h

theorem getPool_error {ns coll : Bytes} {e : ApplyErr} (h : getPool s ns coll u = .error e) :
    e ≠ .fatal := by
  refine getRec_error (fun b e hb => ?_) h
  unfold decodePool at hb
  split at hb <;> cases hb
  exact ApplyErr.noConfusion

theorem getLease_error {ns coll id : Bytes} {e : ApplyErr}
    (h : getLease s ns coll id u = .error e) : e ≠ .fatal := by
  refine getRec_error (fun b e hb => ?_) h
  unfold decodeLease at hb
  repeat' split at hb
  all_goals cases hb
  all_goals exact ApplyErr.noConfusion

theorem getTomb_error {ns coll id : Bytes} {e : ApplyErr}
    (h : getTomb s ns coll id u = .error e) : e ≠ .fatal := by
  refine getRec_error (fun b e hb => ?_) h
  unfold decodeTomb at hb
  split at hb <;> cases hb
  exact ApplyErr.noConfusion

/-- A row is read, and what cannot be decoded ends the command. -/
theorem ends_read {α β : Type} {f : UpdateCtx → Except ApplyErr α} {k : α → UpdateM β}
    {Q : β → UpdateCtx → Prop} (herr : ∀ e, f u = .error e → e ≠ .fatal)
    (h : ∀ a, f u = .ok a → Ends Q (Fails u) (k a u)) :
    Ends Q (Fails u) ((tryReads f >>= k) u) := by
  rw [ends_bind]
  exact ends_tryReads h fun e he => .here (herr e he)

theorem short_not_fatal : ApplyErr.shortCommand ≠ .fatal := ApplyErr.noConfusion

theorem missing_not_fatal : ApplyErr.missingPool ≠ .fatal := ApplyErr.noConfusion

theorem applyBudInit_steps (hop : c.op = .budInit) :
    Ends (fun _ u' => Steps s c u u') (Fails u) (applyBudInit s c u) := by
  unfold applyBudInit
  cases ha : initArgs c with
  | none => exact .here short_not_fatal
  | some a =>
    refine ends_ite (fun _ => .refl) (fun hmode => ends_ite (fun _ => .refl) (fun hbad => ?_))
    refine ends_read (fun _ => getPool_error) fun p hp => ?_
    cases p with
    | some p => exact .refl
    | none =>
      rw [ends_bind]
      refine (ensureType_steps (by rw [hop]; rfl)).imp (fun ok v hv => ?_) (fun _ _ h => h)
      obtain ⟨hv, htv, hvals⟩ := hv
      cases ok with
      | false => exact hv
      | true =>
        have hpv : getPool s c.ns.val c.coll.val v = .ok none := by
          rw [← hp, getPool, getRec, getRec, UpdateCtx.fieldVal, UpdateCtx.fieldVal,
            UpdateCtx.getData, UpdateCtx.getData, hvals, hv.quiet.store]
        exact hv.tail (.budInit hop ha hmode (by simpa using hbad) (htv rfl) hpv)

/-- A grant is made of steps. -/
theorem applyBudGrant_steps (hop : c.op = .budGrant) :
    Ends (fun _ u' => Steps s c u u') (Fails u) (applyBudGrant s c u) := by
  unfold applyBudGrant
  cases ha : grantArgs c with
  | none => exact .here short_not_fatal
  | some a =>
    refine ends_ite (fun _ => .refl) (fun hpos => ?_)
    refine ends_read (fun _ => getTomb_error) fun t ht => ?_
    cases t with
    | some t => exact .refl
    | none =>
      refine ends_read (fun _ => getLease_error) fun l hl => ?_
      cases l with
      | some l =>
        exact ends_read (fun _ => getPool_error) fun p _ => .refl
      | none =>
        refine ends_read (fun _ => getPool_error) fun p hp => ?_
        cases p with
        | none => exact .refl
        | some p =>
          refine ends_ite (fun _ => .refl) (fun hguard => ?_)
          -- the split is on the fact alone: matching the goal evaluates the grant's arithmetic
          rcases Classical.em (grantable (accrueTokens p a.grantedMs) a.amount ≤ 0) with
            hgrant | hgrant
          · rw [if_pos hgrant]
            exact .refl
          · rw [if_neg hgrant]
            exact .single (.budGrant hop ha hpos ht hl hp hguard hgrant)

theorem applyBudReport_steps (hop : c.op = .budReport) :
    Ends (fun _ u' => Steps s c u u') (Fails u) (applyBudReport s c u) := by
  unfold applyBudReport
  cases ha : leaseArgs c with
  | none => exact .here short_not_fatal
  | some a =>
    refine ends_read (fun _ => getLease_error) fun l hl => ?_
    cases l with
    | none => exact .refl
    | some l =>
      refine ends_ite (fun _ => .refl) (fun _ => ends_ite (fun _ => .refl) (fun hnew => ?_))
      refine ends_read (fun _ => getPool_error) fun p hp => ?_
      cases p with
      | none => exact .here missing_not_fatal
      | some p => exact .single (.budReport hop ha hl hnew hp)

theorem applyBudReturn_steps (hop : c.op = .budReturn) :
    Ends (fun _ u' => Steps s c u u') (Fails u) (applyBudReturn s c u) := by
  unfold applyBudReturn
  cases ha : returnArgs c with
  | none => exact .here short_not_fatal
  | some a =>
    refine ends_read (fun _ => getTomb_error) fun t ht => ?_
    cases t with
    | some t => exact .refl
    | none =>
      refine ends_read (fun _ => getLease_error) fun l hl => ?_
      cases l with
      | none => exact .refl
      | some l =>
        refine ends_ite (fun _ => .refl) (fun _ => ?_)
        refine ends_read (fun _ => getPool_error) fun p hp => ?_
        cases p with
        | none => exact .here missing_not_fatal
        | some p => exact .single (.budReturn hop ha ht hl hp)

theorem applyBudExpire_steps (hop : c.op = .budExpire) :
    Ends (fun _ u' => Steps s c u u') (Fails u) (applyBudExpire s c u) := by
  unfold applyBudExpire
  cases ha : leaseArgs c with
  | none => exact .here short_not_fatal
  | some a =>
    refine ends_read (fun _ => getTomb_error) fun t ht => ?_
    cases t with
    | some t => exact .refl
    | none =>
      refine ends_read (fun _ => getLease_error) fun l hl => ?_
      refine ends_read (fun _ => getPool_error) fun p hp => ?_
      cases l with
      | none => exact .single (.budAbsent hop ha ht hl hp)
      | some l =>
        refine ends_ite (fun _ => .refl) (fun hdue => ?_)
        cases p with
        | none => exact .here missing_not_fatal
        | some p => exact .single (.budExpire hop ha ht hl hdue hp)

theorem applyBudTombGC_steps (hop : c.op = .budTombGC) :
    Ends (fun _ u' => Steps s c u u') (Fails u) (applyBudTombGC s c u) := by
  unfold applyBudTombGC
  cases ha : leaseArgs c with
  | none => exact .here short_not_fatal
  | some a => exact .single (.budTombGC hop ha)

theorem applyBudReconcile_steps (hop : c.op = .budReconcile) :
    Ends (fun _ u' => Steps s c u u') (Fails u) (applyBudReconcile s c u) := by
  unfold applyBudReconcile
  cases ha : reconcileArgs c with
  | none => exact .here short_not_fatal
  | some n =>
    refine ends_read (fun _ => getPool_error) fun p hp => ?_
    cases p with
    | none => exact .refl
    | some p => exact .single (.budReconcile hop ha hp)

theorem applyBudget_steps :
    Ends (fun _ u' => Steps s c u u') (Fails u) (applyBudget s c u) := by
  unfold applyBudget
  rw [ends_bind]
  refine typeOf_steps.imp (fun t v hv => ?_) (fun _ _ h => h)
  refine ends_after hv.1 (ends_ite (fun _ => .refl) (fun _ => ?_))
  cases hop : c.op with
  | budInit => exact applyBudInit_steps hop
  | budGrant => exact applyBudGrant_steps hop
  | budReport => exact applyBudReport_steps hop
  | budReturn => exact applyBudReturn_steps hop
  | budExpire => exact applyBudExpire_steps hop
  | budTombGC => exact applyBudTombGC_steps hop
  | budReconcile => exact applyBudReconcile_steps hop
  | _ => exact .refl

/-! ## Caching the result -/

/-- A command that returned `r`: its steps, and for a keyed command possibly the
caching of `r`, under a key for which no result was known. -/
def CmdStep (s : UInt64) (c : Command) (u : UpdateCtx) (r : ProposeResult) (u' : UpdateCtx) :
    Prop :=
  Steps s c u u' ∨
    (deduped c = true ∧ knownResult s c.idem u = none ∧
      ∃ v, Steps s c u v ∧ u' = remember s c r v)

/-- A command that is done remembers its result. -/
theorem remember_done {r : ProposeResult} (hk : deduped c = true → knownResult s c.idem u = none)
    (h : Steps s c u u') : CmdStep s c u r (remember s c r u') := by
  by_cases hd : deduped c = true
  · exact .inr ⟨hd, hk hd, u', h, rfl⟩
  · refine .inl ?_
    rw [remember, if_neg hd]
    exact h

/-- A command on elements. -/
theorem applyElements_done (hk : deduped c = true → knownResult s c.idem u = none)
    (hty : Typed s c u) :
    Ends (fun r u' => CmdStep s c u r u') (Fails u) (applyElements s c u) := by
  simp only [applyElements, ends_bind, ends_modify, ends_pure]
  exact (applyCommand_steps hty).imp (fun _ _ h => remember_done hk h) (fun _ _ h => h)

theorem applyIncr_done (fl : FloatOps) (hk : deduped c = true → knownResult s c.idem u = none)
    (hop : c.op = .hIncrBy ∨ c.op = .hIncrByFloat) (hty : TypeIs s c .hash u) :
    Ends (fun r u' => CmdStep s c u r u') (Fails u) (applyIncr fl s c u) := by
  unfold applyIncr
  cases hitems : c.items with
  | nil => exact .here short_not_fatal
  | cons it rest =>
    have hit : it ∈ c.items := by simp [hitems]
    have hincr : Ends (fun _ u' => Steps s c u u') (Fails u)
        (applyHIncr fl s c it u) := by
      refine ends_ite (fun _ => ends_ite (fun _ => .here short_not_fatal) (fun _ => ?_))
        (fun _ => ?_)
      · exact incrField_steps hop hit hty
      · exact incrField_steps hop hit hty
    simp only [ends_bind, ends_modify, ends_pure]
    refine hincr.imp (fun out v hv => ?_) (fun _ _ h => h)
    split
    · exact .inl hv
    · exact remember_done hk hv

/-- A command that is not answered from the cache. -/
theorem applyMutation_done (fl : FloatOps)
    (hk : deduped c = true → knownResult s c.idem u = none) :
    Ends (fun r u' => CmdStep s c u r u') (Fails u) (applyMutation fl s c u) := by
  have hgo : ∀ t, typeForOp c.op = some t → ∀ v, Steps s c u v → TypeIs s c t v →
      Ends (fun r u' => CmdStep s c u r u') (Fails u) ((if c.op = .hIncrBy ∨
        c.op = .hIncrByFloat then applyIncr fl s c else applyElements s c) v) := by
    intro t ht v hv htv
    -- steps neither cache results nor change the store, so the key is still unknown
    have hkv : deduped c = true → knownResult s c.idem v = none := by
      intro hd
      rw [← hk hd, knownResult, knownResult, dedupGet, dedupGet, UpdateCtx.getData,
        UpdateCtx.getData, hv.quiet.store, hv.quiet.inBatchDedup]
    have hlift : ∀ r u', CmdStep s c v r u' → CmdStep s c u r u' := by
      rintro r u' (h | ⟨hd, -, w, hw, rfl⟩)
      · exact .inl (hv.trans h)
      · exact .inr ⟨hd, hk hd, w, hv.trans hw, rfl⟩
    refine ends_ite (fun hop => ?_) (fun _ => ?_)
    · have hth : t = .hash := by
        rcases hop with hop | hop <;> rw [hop] at ht <;> cases ht <;> rfl
      subst hth
      exact (applyIncr_done fl hkv hop htv).imp (fun r w h => hlift r w h)
        (fun _ _ h => .after hv.quiet h)
    · have hty : Typed s c v := by
        intro t' ht'
        rw [ht] at ht'
        cases ht'
        exact htv
      exact (applyElements_done hkv hty).imp (fun r w h => hlift r w h)
        (fun _ _ h => .after hv.quiet h)
  unfold applyMutation
  cases ht : typeForOp c.op with
  | none =>
    refine applyElements_done hk (fun t h => ?_)
    rw [ht] at h
    cases h
  | some t =>
    have hens : Ends (fun r u' => CmdStep s c u r u') (Fails u)
        ((ensureType s c.ns.val c.coll.val t >>= fun ok =>
          if ok = true then
            if c.op = .hIncrBy ∨ c.op = .hIncrByFloat then applyIncr fl s c
            else applyElements s c
          else pure { data := wrongType }) u) := by
      rw [ends_bind]
      refine (ensureType_steps ht).imp (fun ok v hv => ?_) (fun _ _ h => h)
      exact ends_ite (fun hok => hgo t ht v hv.1 (hv.2.1 hok)) (fun _ => .inl hv.1)
    cases t with
    | budget => exact applyBudget_steps.imp (fun _ _ h => .inl h) (fun _ _ h => h)
    | set => exact hens
    | hash => exact hens
    | zset => exact hens

/-- One command, the freeze and the idempotency cache first. -/
theorem applyDecoded_done (fl : FloatOps) (frozen : List FrozenRange) :
    Ends (fun r u' => CmdStep s c u r u') (Fails u) (applyDecoded fl s frozen c u) := by
  unfold applyDecoded
  refine ends_ite (fun _ => .inl .refl) (fun _ => ends_ite (fun _ => ?_) (fun hd => ?_))
  · rw [ends_bind, ends_reads]
    cases hk : knownResult s c.idem u with
    | some r => exact .inl .refl
    | none => exact applyMutation_done fl (fun _ => hk)
  · exact applyMutation_done fl (fun h => absurd h hd)

end

end WaveSpan.Collections
