/-
WaveSpan.Collections.Locality — a command writes rows of its own collection only.

`UpdateCtx.rows` is the table the batch has produced so far: the store with the
pending ops applied. The steps of a command append ops on rows of the command's
collection, its counter excepted, and change the pending change of that counter
only (`Step.local`); a keyed command also writes the idempotency cache. So every
other row is the same before and after the command.
-/
import WaveSpan.Collections.Batch

namespace WaveSpan.Collections

open WaveSpan.Wire WaveSpan.Rows WaveSpan.Prog

/-- The rows a batch has produced so far. -/
def UpdateCtx.rows (u : UpdateCtx) : Store := batchRC u.store u.ops

/-- The rows a batch has written. -/
theorem rows_emit (u : UpdateCtx) (ops : List StoreOp) :
    (u.emit ops).rows = batchRC u.rows ops := by
  simp [UpdateCtx.rows, batchRC, runOps_append]

theorem rows_eq_of_ops {u u' : UpdateCtx} (hs : u'.store = u.store) (ho : u'.ops = u.ops) :
    u'.rows = u.rows := by
  simp [UpdateCtx.rows, hs, ho]

/-- The collection a row belongs to; shard bookkeeping belongs to none. -/
def RowKey.scope : RowKey → Option (Chunk × Chunk)
  | .applied | .dedupSeq | .frozen _ | .dedup _ | .ring _ => none
  | .card ns coll | .type ns coll | .pool ns coll => some (ns, coll)
  | .elem ns coll _ | .zptr ns coll _ | .ttlPtr ns coll _ | .lease ns coll _
  | .tomb ns coll _ => some (ns, coll)
  | .ttlIdx _ ns coll _ | .budExp _ ns coll _ | .budTombGC _ ns coll _ => some (ns, coll)

def RowKey.isCard : RowKey → Bool
  | .card _ _ => true
  | _ => false

def RowKey.isRecord : RowKey → Bool
  | .pool _ _ | .lease _ _ _ | .tomb _ _ _ => true
  | _ => false

/-- The rows the steps of a command may write: its collection's, the counter
excepted, and budget records only as a budget command. -/
structure RowKey.ofCommand (c : Command) (k : RowKey) : Prop where
  scope : k.scope = some (c.ns, c.coll)
  card : k.isCard = false
  budget : k.isRecord = true → typeForOp c.op = some .budget

section
variable (s : UInt64)

/-- Only ops on rows satisfying `P` were appended. -/
def Emits (P : RowKey → Prop) (u u' : UpdateCtx) : Prop :=
  ∃ new, u'.ops = u.ops ++ new ∧ ∀ op ∈ new, ∃ k : RowKey, P k ∧ op.key = k.enc s

structure Local (c : Command) (u u' : UpdateCtx) : Prop where
  emits : Emits s (RowKey.ofCommand c) u u'
  cards : ∀ ck : Bytes, ck ≠ cardKey s c.ns.val c.coll.val →
    u'.cardDelta[ck]? = u.cardDelta[ck]?
  vals : ∀ k : RowKey, ¬ k.ofCommand c → u'.vals[k.enc s]? = u.vals[k.enc s]?

end

section
variable {s : UInt64} {P P' : RowKey → Prop} {c : Command} {u u' u'' : UpdateCtx}

theorem Emits.refl (u : UpdateCtx) : Emits s P u u := ⟨[], by simp⟩

theorem Emits.trans (h : Emits s P u u') (h' : Emits s P u' u'') : Emits s P u u'' := by
  obtain ⟨new, hn, hk⟩ := h
  obtain ⟨new', hn', hk'⟩ := h'
  refine ⟨new ++ new', by rw [hn', hn, List.append_assoc], fun op hop => ?_⟩
  rcases List.mem_append.mp hop with h | h
  · exact hk op h
  · exact hk' op h

theorem Emits.mono (h : Emits s P u u') (hP : ∀ k, P k → P' k) : Emits s P' u u' := by
  obtain ⟨new, hn, hk⟩ := h
  refine ⟨new, hn, fun op hop => ?_⟩
  obtain ⟨k, hpk, he⟩ := hk op hop
  exact ⟨k, hP k hpk, he⟩

/-- A row outside what was written is as it was. -/
theorem Emits.row_eq (h : Emits s P u u') (hs : u'.store = u.store) {k : RowKey} (hk : ¬ P k) :
    u'.rows[k.enc s]? = u.rows[k.enc s]? := by
  obtain ⟨new, hn, hkeys⟩ := h
  rw [UpdateCtx.rows, UpdateCtx.rows, hs, hn, batchRC, batchRC, runOps_append]
  refine getElem?_runOps_of_forall_ne _ (fun op hop he => ?_)
  obtain ⟨k', hp, hk'⟩ := hkeys op hop
  rw [hk'] at he
  exact hk (RowKey.enc_inj.mp he ▸ hp)

theorem Local.refl (u : UpdateCtx) : Local s c u u :=
  ⟨Emits.refl u, fun _ _ => rfl, fun _ _ => rfl⟩

theorem Local.trans (h : Local s c u u') (h' : Local s c u' u'') : Local s c u u'' :=
  ⟨h.emits.trans h'.emits, fun ck hck => (h'.cards ck hck).trans (h.cards ck hck),
    fun k hk => (h'.vals k hk).trans (h.vals k hk)⟩

/-- Writing rows of the command's own. -/
theorem Local.emit (h : Local s c u u') {ops : List StoreOp}
    (hk : ∀ op ∈ ops, ∃ k : RowKey, k.ofCommand c ∧ op.key = k.enc s) :
    Local s c u (u'.emit ops) :=
  h.trans ⟨⟨ops, rfl, hk⟩, fun _ _ => rfl, fun _ _ => rfl⟩

/-- One op on a row of the command's collection. -/
theorem Local.emit_one (h : Local s c u u') {op : StoreOp} (k : RowKey)
    (hk : k.ofCommand c) (he : op.key = k.enc s) : Local s c u (u'.emit [op]) :=
  h.emit fun op' hop => by
    rw [List.mem_singleton] at hop
    exact ⟨k, hk, hop ▸ he⟩

theorem Local.emit_two (h : Local s c u u') {op₁ op₂ : StoreOp} (k₁ k₂ : RowKey)
    (hk₁ : k₁.ofCommand c) (he₁ : op₁.key = k₁.enc s)
    (hk₂ : k₂.ofCommand c) (he₂ : op₂.key = k₂.enc s) : Local s c u (u'.emit [op₁, op₂]) :=
  h.emit fun op' hop => by
    rcases List.mem_pair.mp hop with rfl | rfl
    · exact ⟨k₁, hk₁, he₁⟩
    · exact ⟨k₂, hk₂, he₂⟩

/-- An update of overlays other than the counters and the values is local. -/
theorem Local.overlay (h : Local s c u u') (ho : u''.ops = u'.ops)
    (hc : u''.cardDelta = u'.cardDelta) (hv : u''.vals = u'.vals) : Local s c u u'' :=
  h.trans ⟨⟨[], by simp [ho]⟩, fun _ _ => by rw [hc], fun _ _ => by rw [hv]⟩

theorem Local.setExists (h : Local s c u u') (k : Bytes) (b : Bool) :
    Local s c u (u'.setExists k b) := h.overlay rfl rfl rfl

/-- A value overlay on a row of the command's collection. -/
theorem Local.setVal (h : Local s c u u') {k : Bytes} (v : Option Bytes) (rk : RowKey)
    (hrk : rk.ofCommand c) (hk : k = rk.enc s) : Local s c u (u'.setVal k v) := by
  refine h.trans ⟨⟨[], by simp⟩, fun _ _ => rfl, fun k' hk' => ?_⟩
  have hne : k ≠ k'.enc s := by
    rintro he
    rw [hk, RowKey.enc_inj] at he
    exact hk' (he ▸ hrk)
  simp only [UpdateCtx.setVal_vals, Std.ExtTreeMap.getElem?_insert,
    Std.LawfulEqCmp.compare_eq_iff_eq, if_neg hne]

theorem Local.setZScore (h : Local s c u u') (k : Bytes) (v : Option UInt64) :
    Local s c u (u'.setZScore k v) := h.overlay rfl rfl rfl

theorem Local.setHtype (h : Local s c u u') (k : Bytes) (t : UInt8) :
    Local s c u (u'.setHtype k t) := h.overlay rfl rfl rfl

theorem Local.bumpCard (h : Local s c u u') (d : Int64) :
    Local s c u (u'.bumpCard (cardKey s c.ns.val c.coll.val) d) := by
  refine h.trans ⟨⟨[], by simp⟩, fun ck hck => ?_, fun _ _ => rfl⟩
  simp only [UpdateCtx.bumpCard_cardDelta, Std.ExtTreeMap.getElem?_insert,
    Std.LawfulEqCmp.compare_eq_iff_eq]
  exact if_neg (Ne.symm hck)

theorem Local.setRec (h : Local s c u u') {k : Bytes} (v : Bytes) (rk : RowKey)
    (hrk : rk.ofCommand c) (hk : k = rk.enc s) : Local s c u (u'.setRec k v) :=
  (h.setVal (some v) rk hrk hk).emit_one rk hrk hk

theorem Local.delRec (h : Local s c u u') {k : Bytes} (rk : RowKey)
    (hrk : rk.ofCommand c) (hk : k = rk.enc s) : Local s c u (u'.delRec k) :=
  (h.setVal none rk hrk hk).emit_one rk hrk hk

theorem Local.ite {p : Prop} [Decidable p] {v w : UpdateCtx} (h : Local s c u v)
    (h' : Local s c u w) : Local s c u (if p then v else w) := by
  split
  · exact h
  · exact h'

/-! ## The steps of a command -/

theorem putField_local (f v : Bytes) (present : Bool) :
    Local s c u (putField s c.ns.val c.coll.val f v present u) := by
  have hk : (RowKey.elem c.ns c.coll f).ofCommand c := ⟨rfl, rfl, nofun⟩
  have h : Local s c u (u.emit [.put (elemKey s c.ns.val c.coll.val f) v]) :=
    (Local.refl u).emit_one _ hk (elemKey_eq s c.ns c.coll f)
  have h' := (h.setExists (elemKey s c.ns.val c.coll.val f) true).setVal
    (some v) _ hk (elemKey_eq s c.ns c.coll f)
  exact Local.ite h' (h'.bumpCard 1)

theorem putScore_local (m : Bytes) (old : Option UInt64) (score : UInt64) :
    Local s c u (putScore s c.ns.val c.coll.val m old score u) := by
  have hgo : ∀ v, Local s c u v → Local s c u
      ((v.emit [.put (zscoreKey s c.ns.val c.coll.val score m) [],
        .put (zptrKey s c.ns.val c.coll.val m) (u64 score)]).setZScore
          (zptrKey s c.ns.val c.coll.val m) (some score)) := by
    intro v hv
    refine Local.setZScore ?_ _ _
    exact hv.emit_two (.elem c.ns c.coll (sortableScore score ++ m)) (.zptr c.ns c.coll m)
      ⟨rfl, rfl, nofun⟩ (zscoreKey_eq s c.ns c.coll m score) ⟨rfl, rfl, nofun⟩
      (zptrKey_eq s c.ns c.coll m)
  cases old with
  | none => exact hgo _ ((Local.refl u).bumpCard 1)
  | some o =>
    exact hgo _ ((Local.refl u).emit_one (.elem c.ns c.coll (sortableScore o ++ m))
      ⟨rfl, rfl, nofun⟩ (zscoreKey_eq s c.ns c.coll m o))

section
variable (hb : typeForOp c.op = some .budget)
include hb

theorem setPool_local (h : Local s c u u') (p : PoolRec) :
    Local s c u (setPool s c.ns.val c.coll.val p u') :=
  h.setRec _ (.pool c.ns c.coll) ⟨rfl, rfl, fun _ => hb⟩ (budPoolKey_eq s c.ns c.coll)

theorem setLease_local (h : Local s c u u') (id : Bytes) (l : LeaseRec) :
    Local s c u (setLease s c.ns.val c.coll.val id l u') :=
  h.setRec _ (.lease c.ns c.coll id) ⟨rfl, rfl, fun _ => hb⟩ (budLeaseKey_eq s c.ns c.coll id)

theorem delLease_local (h : Local s c u u') (id : Bytes) :
    Local s c u (delLease s c.ns.val c.coll.val id u') :=
  h.delRec (.lease c.ns c.coll id) ⟨rfl, rfl, fun _ => hb⟩ (budLeaseKey_eq s c.ns c.coll id)

theorem setTomb_local (h : Local s c u u') (id : Bytes) (t : TombRec) :
    Local s c u (setTomb s c.ns.val c.coll.val id t u') :=
  h.setRec _ (.tomb c.ns c.coll id) ⟨rfl, rfl, fun _ => hb⟩ (budTombKey_eq s c.ns c.coll id)

omit hb in
theorem setBudExp_local (h : Local s c u u') (id : Bytes) (t : Int64) :
    Local s c u (setBudExp s c.ns.val c.coll.val id t u') :=
  h.emit_one (.budExp t.toUInt64 c.ns c.coll id) ⟨rfl, rfl, nofun⟩
    (budExpKey_eq s c.ns c.coll id t)

omit hb in
theorem delBudExp_local (h : Local s c u u') (id : Bytes) (t : Int64) :
    Local s c u (delBudExp s c.ns.val c.coll.val id t u') :=
  h.emit_one (.budExp t.toUInt64 c.ns c.coll id) ⟨rfl, rfl, nofun⟩
    (budExpKey_eq s c.ns c.coll id t)

omit hb in
theorem setBudTombGC_local (h : Local s c u u') (id : Bytes) (t : Int64) :
    Local s c u (setBudTombGC s c.ns.val c.coll.val id t u') :=
  h.emit_one (.budTombGC t.toUInt64 c.ns c.coll id) ⟨rfl, rfl, nofun⟩
    (budTombGCKey_eq s c.ns c.coll id t)

theorem writeGrant_local (id : Bytes) (p : PoolRec) (l : LeaseRec) (ttl : Int64) :
    Local s c u (writeGrant s c.ns.val c.coll.val id p l ttl u) := by
  have hp : Local s c u (setPool s c.ns.val c.coll.val p u) := setPool_local hb (Local.refl u) p
  exact setLease_local hb (Local.ite (setBudExp_local hp id l.reclaimNotBeforeMs) hp) id l

theorem writeReturn_local (id : Bytes) (l : LeaseRec) (p : PoolRec) :
    Local s c u (writeReturn s c.ns.val c.coll.val id l p u) := by
  have hp : Local s c u (setPool s c.ns.val c.coll.val p u) := setPool_local hb (Local.refl u) p
  have hl := delLease_local hb hp id
  exact Local.ite
    (setBudTombGC_local (setTomb_local hb (delBudExp_local hl id _) id _) id _) hl

theorem writeExpire_local (id : Bytes) (l : LeaseRec) (p : PoolRec) :
    Local s c u (writeExpire s c.ns.val c.coll.val id l p u) := by
  have hp : Local s c u (setPool s c.ns.val c.coll.val p u) := setPool_local hb (Local.refl u) p
  have hl := delLease_local hb hp id
  exact setBudTombGC_local (setTomb_local hb (Local.ite (delBudExp_local hl id _) hl) id _) id _

theorem writeAbsent_local (id : Bytes) (now : Int64) (p : Option PoolRec) :
    Local s c u (writeAbsent s c.ns.val c.coll.val id now p u) := by
  have ht := setTomb_local hb (Local.refl (s := s) (c := c) u) id { reason := reasonExpire }
  cases p with
  | none => exact ht
  | some p => exact setBudTombGC_local ht id _

end

/-- A step writes rows of the command's collection only. -/
theorem Step.local (h : Step s c u u') : Local s c u u' := by
  have r := Local.refl (s := s) (c := c) u
  have hk : ∀ m, (RowKey.elem c.ns c.coll m).ofCommand c := fun m => ⟨rfl, rfl, nofun⟩
  -- the element row of an item, deleted or put
  have helem : ∀ (m : Bytes) (op : StoreOp), op.key = elemKey s c.ns.val c.coll.val m →
      Local s c u (u.emit [op]) := fun m op hop =>
    r.emit_one (.elem c.ns c.coll m) (hk m) (hop.trans (elemKey_eq s c.ns c.coll m))
  -- the expiry rows of an item, deleted
  have hclear : ∀ (m : Bytes) (old : Option UInt64) {v : UpdateCtx}, Local s c u v →
      Local s c u (v.emit (ttlClearOps s c.ns.val c.coll.val m old)) := by
    intro m old v hv
    cases old with
    | none => exact hv.emit nofun
    | some old =>
      exact hv.emit_two (.ttlIdx old c.ns c.coll m) (.ttlPtr c.ns c.coll m)
        ⟨rfl, rfl, nofun⟩ (ttlIndexKey_eq ..) ⟨rfl, rfl, nofun⟩ (ttlPtrKey_eq ..)
  cases h with
  | cacheType => exact r.setHtype _ _
  | newType =>
    refine Local.setHtype ?_ _ _
    exact r.emit_one (.type c.ns c.coll) ⟨rfl, rfl, nofun⟩ (typeKey_eq s c.ns c.coll)
  | @putMember it =>
    refine Local.bumpCard (Local.setExists ?_ _ _) 1
    exact helem it.key.val _ rfl
  | @setTTL it old =>
    refine r.emit fun op hop => ?_
    rcases List.mem_append.mp hop with h | h
    · obtain ⟨e, -, rfl⟩ := List.mem_map.mp h
      exact ⟨.ttlIdx e c.ns c.coll it.key.val, ⟨rfl, rfl, nofun⟩, ttlIndexKey_eq ..⟩
    · rcases List.mem_pair.mp h with rfl | rfl
      · exact ⟨.ttlIdx _ c.ns c.coll it.key.val, ⟨rfl, rfl, nofun⟩, ttlIndexKey_eq ..⟩
      · exact ⟨.ttlPtr c.ns c.coll it.key.val, ⟨rfl, rfl, nofun⟩, ttlPtrKey_eq ..⟩
  | @dropElem it old =>
    refine hclear it.key.val old (Local.bumpCard (Local.setVal (Local.setExists ?_ _ _) _ _
      (hk it.key.val) (elemKey_eq ..)) (-1))
    exact helem it.key.val _ rfl
  | @dropExpired it old =>
    refine hclear it.key.val (some old) (Local.bumpCard (Local.setExists ?_ _ _) (-1))
    exact helem it.key.val _ rfl
  | @clearTTL it old => exact hclear it.key.val (some old) r
  | setField => exact putField_local ..
  | incrField => exact putField_local ..
  | putScore => exact putScore_local ..
  | @dropScore it old =>
    refine Local.bumpCard (Local.setZScore ?_ _ _) (-1)
    exact r.emit_two (.elem c.ns c.coll (sortableScore old ++ it.key.val))
      (.zptr c.ns c.coll it.key.val) ⟨rfl, rfl, nofun⟩ (zscoreKey_eq ..)
      ⟨rfl, rfl, nofun⟩ (zptrKey_eq ..)
  | budInit hop => exact setPool_local (by rw [hop]; rfl) r _
  | budGrant hop => exact writeGrant_local (by rw [hop]; rfl) ..
  | budReport hop =>
    have hb : typeForOp c.op = some .budget := by rw [hop]; rfl
    exact setLease_local hb (setPool_local hb r _) _ _
  | budReturn hop => exact writeReturn_local (by rw [hop]; rfl) ..
  | budExpire hop => exact writeExpire_local (by rw [hop]; rfl) ..
  | budAbsent hop => exact writeAbsent_local (by rw [hop]; rfl) ..
  | @budTombGC a hop =>
    exact (r.delRec (.tomb c.ns c.coll a.leaseID) ⟨rfl, rfl, fun _ => by rw [hop]; rfl⟩
      (budTombKey_eq ..)).emit_one
      (.budTombGC a.num.toUInt64 c.ns c.coll a.leaseID) ⟨rfl, rfl, nofun⟩ (budTombGCKey_eq ..)
  | budReconcile hop => exact setPool_local (by rw [hop]; rfl) r _

/-- The steps of a command are local. -/
theorem Steps.local (h : Steps s c u u') : Local s c u u' := by
  induction h with
  | refl => exact Local.refl u
  | tail _ h ih => exact ih.trans h.local

def RowKey.isCache (k : RowKey) : Prop := (∃ key, k = .dedup key) ∨ ∃ slot, k = .ring slot

/-- The rows a command may write: its collection's, and the idempotency cache. -/
def RowKey.ofKeyed (c : Command) (k : RowKey) : Prop := k.ofCommand c ∨ k.isCache

theorem remember_emits (r : ProposeResult) : Emits s RowKey.isCache u (remember s c r u) := by
  unfold remember
  split
  · refine ⟨_, List.append_assoc .., fun op hop => ?_⟩
    rcases List.mem_append.mp hop with h | h
    · obtain ⟨old, -, rfl⟩ := List.mem_map.mp h
      exact ⟨.dedup old, .inl ⟨_, rfl⟩, dedupKey_eq ..⟩
    · rcases List.mem_pair.mp h with rfl | rfl
      · exact ⟨.ring _, .inr ⟨_, rfl⟩, dedupRingKey_eq ..⟩
      · exact ⟨.dedup _, .inl ⟨_, rfl⟩, dedupKey_eq ..⟩
  · exact Emits.refl u

theorem remember_vals (r : ProposeResult) : (remember s c r u).vals = u.vals := by
  unfold remember
  split <;> rfl

theorem remember_cardDelta (r : ProposeResult) :
    (remember s c r u).cardDelta = u.cardDelta := by
  unfold remember
  split <;> rfl

/-- A command writes rows of its collection and of the cache. -/
theorem CmdStep.emits {r : ProposeResult} (h : CmdStep s c u r u') :
    Emits s (RowKey.ofKeyed c) u u' := by
  rcases h with h | ⟨-, -, v, hv, rfl⟩
  · exact h.local.emits.mono fun _ => .inl
  · exact (hv.local.emits.mono fun _ => .inl).trans ((remember_emits r).mono fun _ => .inr)

/-- It counts no other collection. -/
theorem CmdStep.cards {r : ProposeResult} (h : CmdStep s c u r u') {ck : Bytes}
    (hck : ck ≠ cardKey s c.ns.val c.coll.val) : u'.cardDelta[ck]? = u.cardDelta[ck]? := by
  rcases h with h | ⟨-, -, v, hv, rfl⟩
  · exact h.local.cards ck hck
  · rw [remember_cardDelta]
    exact hv.local.cards ck hck

end

/-! ## The end of a batch -/

section
variable {fl : FloatOps} {s : UInt64} {c : Command} {u u' : UpdateCtx}

/-- Only element counters have pending changes. -/
def CardKeys (s : UInt64) (u : UpdateCtx) : Prop :=
  ∀ (ck : Bytes) (d : Int64), u.cardDelta[ck]? = some d →
    ∃ ns coll : Chunk, ck = (RowKey.card ns coll).enc s

theorem CardKeys.newCtx (st : Store) : CardKeys s (newCtx s st) := by
  simp [CardKeys, Collections.newCtx]

theorem CardKeys.cmdStep {r : ProposeResult} (hu : CardKeys s u) (h : CmdStep s c u r u') :
    CardKeys s u' := by
  intro ck d hd
  by_cases hck : ck = cardKey s c.ns.val c.coll.val
  · exact ⟨c.ns, c.coll, by rw [hck, cardKey_eq]⟩
  · rw [h.cards hck] at hd
    exact hu ck d hd

theorem CardKeys.run {cs : List Command} (hu : CardKeys s u) (h : Run s cs u u') :
    CardKeys s u' := by
  induction h with
  | nil => exact hu
  | cons h _ ih => exact ih (hu.cmdStep h)

/-- Counts are kept under the keys of their collections. -/
theorem CardKeys.entryStep {cmd : Bytes} (hu : CardKeys s u) (h : EntryStep s cmd u u') :
    CardKeys s u' := by
  cases h with
  | commands _ hrun => exact hu.run hrun
  | ingest => exact hu
  | purge => exact hu
  | freeze => exact hu
  | unfreeze => exact hu

/-- After any batch, only element counters have pending changes. -/
theorem applyEntries_cardKeys {frozen : List FrozenRange} {es : List Entry}
    {rs : List ProposeResult} (hu : CardKeys s u)
    (h : applyEntries fl s frozen es u = .ok (u', rs)) : CardKeys s u' :=
  applyEntries_inv (fun _ _ _ _ hv hw => hv.entryStep hw) hu h

/-- Only counted collections are flushed. -/
theorem flushCards_keys {st : Store} {l : List (Bytes × Int64)} {ops : List StoreOp}
    (h : flushCards st l = .ok ops) : ∀ op ∈ ops, ∃ p ∈ l, op.key = p.1 := by
  induction l generalizing ops with
  | nil => cases h; simp
  | cons p l ih =>
    obtain ⟨ck, d⟩ := p
    unfold flushCards at h
    cases hop : cardOp st ck d with
    | error e => rw [hop] at h; cases h
    | ok ops₁ =>
      cases hrest : flushCards st l with
      | error e => simp [hop, hrest, Except.map] at h
      | ok ops₂ =>
        simp only [hop, hrest, Except.map, Except.ok.injEq] at h
        subst h
        intro op hmem
        rcases List.mem_append.mp hmem with hmem | hmem
        · refine ⟨(ck, d), by simp, ?_⟩
          unfold cardOp at hop
          split at hop
          · cases hop; simp at hmem
          · split at hop <;> cases hop
            rw [List.mem_singleton.mp hmem]
            rfl
        · obtain ⟨p, hp, he⟩ := ih hrest op hmem
          exact ⟨p, by simp [hp], he⟩

/-- A batch that has entries and succeeds ends its loop in some context and then
writes the ring's sequence number, counters and the applied index. -/
theorem update_cases {st st' : Store} {es : List Entry} {rs : List ProposeResult}
    (hne : es ≠ []) (h : update fl s st es = .ok (st', rs)) :
    ∃ u cards last, applyEntries fl s (loadFrozen s st) es (newCtx s st) = .ok (u, rs) ∧
      es.getLast? = some last ∧
      flushCards st u.cardDelta.toList = .ok cards ∧
      (∀ op ∈ cards, ∃ ns coll : Chunk, op.key = (RowKey.card ns coll).enc s) ∧
      st' = batchRC st (u.ops ++ seqOps s st u ++ cards
        ++ [.put (appliedKey s) (u64 last.index)]) := by
  unfold update at h
  cases hl : es.getLast? with
  | none => exact absurd (List.getLast?_eq_none_iff.mp hl) hne
  | some last =>
    rw [hl] at h
    cases hu : applyEntries fl s (loadFrozen s st) es (newCtx s st) with
    | error e => simp [hu] at h
    | ok p =>
      obtain ⟨u, rs'⟩ := p
      cases hc : flushCards st u.cardDelta.toList with
      | error e => simp [hu, hc] at h
      | ok cards =>
        simp only [hu, hc, Except.ok.injEq, Prod.mk.injEq] at h
        obtain ⟨rfl, rfl⟩ := h
        refine ⟨u, cards, last, rfl, rfl, hc, fun op hop => ?_, rfl⟩
        obtain ⟨⟨ck, d⟩, hp, he⟩ := flushCards_keys hc op hop
        rw [Std.ExtTreeMap.mem_toList_iff_getElem?_eq_some] at hp
        obtain ⟨ns, coll, hck⟩ := applyEntries_cardKeys (.newCtx st) hu ck d hp
        exact ⟨ns, coll, he.trans hck⟩

/-- The context a batch that succeeds ends its loop in. -/
theorem update_ctx {st st' : Store} {es : List Entry} {rs : List ProposeResult}
    (h : update fl s st es = .ok (st', rs)) :
    ∃ u, applyEntries fl s (loadFrozen s st) es (newCtx s st) = .ok (u, rs) := by
  by_cases hne : es = []
  · subst hne
    cases h
    exact ⟨_, rfl⟩
  · obtain ⟨u, _, _, hu, -⟩ := update_cases hne h
    exact ⟨u, hu⟩

section
variable {st : Store}

/-- The rows the end of a batch writes besides the ring's sequence number. -/
theorem getElem?_closing {cards : List StoreOp} {v : Bytes} {k : RowKey}
    (hcards : ∀ op ∈ cards, ∃ ns coll : Chunk, op.key = (RowKey.card ns coll).enc s)
    (hk : k.isCard = false) (hka : k ≠ .applied) :
    (batchRC st (u.ops ++ seqOps s st u ++ cards ++ [.put (appliedKey s) v]))[k.enc s]?
      = (batchRC st (u.ops ++ seqOps s st u))[k.enc s]? := by
  rw [batchRC, List.append_assoc, runOps_append]
  refine getElem?_runOps_of_forall_ne _ fun op hop he => ?_
  rcases List.mem_append.mp hop with hop | hop
  · obtain ⟨ns, coll, hc⟩ := hcards op hop
    rw [hc, RowKey.enc_inj] at he
    subst he
    cases hk
  · rw [List.mem_singleton.mp hop, Op.key, appliedKey_eq, RowKey.enc_inj] at he
    exact hka he.symm

theorem getElem?_seqOps {k : RowKey} (hs : u.store = st) (hk : k ≠ .dedupSeq) :
    (batchRC st (u.ops ++ seqOps s st u))[k.enc s]? = u.rows[k.enc s]? := by
  rw [batchRC, runOps_append, UpdateCtx.rows, hs, batchRC]
  refine getElem?_runOps_of_forall_ne _ fun op hop he => ?_
  unfold seqOps at hop
  split at hop
  · rw [List.mem_singleton.mp hop, Op.key, dedupSeqKey_eq, RowKey.enc_inj] at he
    exact hk he.symm
  · cases hop

/-- After a batch, every row but the counters, the ring's sequence number and the
applied index is the one the context had produced. -/
theorem update_rows {st' : Store} {es : List Entry} {rs : List ProposeResult}
    (hu : applyEntries fl s (loadFrozen s st) es (newCtx s st) = .ok (u, rs))
    (h : update fl s st es = .ok (st', rs)) {k : RowKey} (hk : k.isCard = false)
    (hks : k ≠ .dedupSeq) (hka : k ≠ .applied) : st'[k.enc s]? = u.rows[k.enc s]? := by
  have hs : u.store = st := applyEntries_store hu
  by_cases hne : es = []
  · subst hne
    cases hu
    cases h
    rfl
  · obtain ⟨u', cards, last, hu', -, -, hcards, rfl⟩ := update_cases hne h
    rw [hu] at hu'
    cases hu'
    rw [getElem?_closing hcards hk hka, getElem?_seqOps hs hks]

end

end

end WaveSpan.Collections
