/-
WaveSpan.Records.LiveKeys — the live-key counter against the stored pointers
(`internal/recordstore/store.go`).

`Store.apply` moves the counter by the liveness of the winner before and after it. It
learns the liveness before from the cache or from the stored pointer, and
`Counted.cache` says that the two agree: a cached winner is live exactly when the stored
pointer is.

`applySiblings` and `forget` rewrite or drop a pointer and leave the counter alone, and
`forget` leaves the cache too. So the counter is exact as long as these calls do not change
whether a key is live (`LocalCall.Steady`), and is off by one after the first that does
(`live_keys_drift`).
-/
import WaveSpan.Records.Winner

namespace WaveSpan.Records

open WaveSpan.Wire WaveSpan.Collections WaveSpan.Rows

/-! ## Runs of the local store -/

def MetaRow.isLive : MetaRow → Bool
  | .pointer lp => !lp.tombstone
  | .ttl _ => false

/-- A call that changes a key's pointer. -/
inductive LocalCall where
  | apply (rec : StoredRecord) (kind : MutationKind)
  | applySiblings (ns key : Bytes) (siblings : List StoredRecord)
  | forget (ns key : Bytes)
  deriving DecidableEq, Repr

namespace Store

def livePointers (s : Store) : Nat := (s.disk.kvMeta.toList.filter fun r => r.2.isLive).length

def liveAt (s : Store) (ns key : Bytes) : Bool :=
    s.disk.kvMeta[latestKey ns key]?.any MetaRow.isLive

def call (s : Store) : LocalCall → Store
  | .apply rec kind => ((s.apply rec kind).map Prod.snd).getD s
  | .applySiblings ns key siblings => s.applySiblings ns key siblings
  | .forget ns key => s.forget ns key

end Store

def LocalCall.Steady (s : Store) : LocalCall → Prop
  | .apply rec _ => PlainNamespace rec.ns
  | .applySiblings _ _ [] => True
  | .applySiblings ns key (r :: rs) =>
    PlainNamespace ns ∧ s.liveAt ns key = !(Store.maxRecord r rs).tombstone
  | .forget ns key => PlainNamespace ns ∧ s.liveAt ns key = false

instance (s : Store) : (c : LocalCall) → Decidable (c.Steady s)
  | .apply rec _ => inferInstanceAs (Decidable (PlainNamespace rec.ns))
  | .applySiblings _ _ [] => inferInstanceAs (Decidable True)
  | .applySiblings _ _ (_ :: _) => inferInstanceAs (Decidable (_ ∧ _))
  | .forget _ _ => inferInstanceAs (Decidable (_ ∧ _))

/-- Every call of a run is steady where it is made. -/
def SteadyRun (s : Store) : List LocalCall → Prop
  | [] => True
  | c :: cs => c.Steady s ∧ SteadyRun (s.call c) cs

instance decidableSteadyRun (s : Store) : (cs : List LocalCall) → Decidable (SteadyRun s cs)
  | [] => inferInstanceAs (Decidable True)
  | c :: cs => @instDecidableAnd _ _ inferInstance (decidableSteadyRun (s.call c) cs)

/-! ## The invariant -/

/-- The counter agrees with the pointers, and so does what the cache says of them. -/
structure Counted (s : Store) : Prop where
  count : s.liveKeys = Int64.ofInt s.livePointers
  /-- The rows are pointers of plain namespaces and index entries. -/
  rows : ∀ k row, s.disk.kvMeta[k]? = some row →
    (∃ ns key lp, PlainNamespace ns ∧ k = latestKey ns key ∧ row = .pointer lp) ∨
      ∃ e ns key b, k = ttlKey e ns key ∧ row = .ttl b
  cache : ∀ ns key entry, PlainNamespace ns →
    (s.latestVer (stripeIdx ns key))[cacheKey ns key]? = some entry →
      s.liveAt ns key = !entry.tombstone

def liveWeight (row : MetaRow) : Int := if row.isLive then 1 else 0

theorem livePointers_eq_wsum (s : Store) :
    (s.livePointers : Int) = wsum (fun _ row => liveWeight row) s.disk.kvMeta :=
  (wsum_ite_eq_length (fun r : Bytes × MetaRow => r.2.isLive) s.disk.kvMeta).symm

/-- What a key adds to the count. -/
theorem elim_liveWeight (o : Option MetaRow) :
    o.elim 0 liveWeight = if o.any MetaRow.isLive then 1 else 0 := by
  cases o <;> simp [liveWeight]

section
variable {s : Store} {ns key : Bytes}

/-- A key's pointer exchanged for another one. -/
theorem wsum_insert_pointer (s : Store) (lp : LatestPointer) :
    wsum (fun _ row => liveWeight row) (s.disk.kvMeta.insert (latestKey ns key) (.pointer lp)) =
      s.livePointers - (if s.liveAt ns key then 1 else 0) + if lp.tombstone then 0 else 1 := by
  have hlive : (s.disk.kvMeta[latestKey ns key]?).any MetaRow.isLive = s.liveAt ns key := rfl
  rw [wsum_insert, ← livePointers_eq_wsum, elim_liveWeight, hlive]
  cases hlp : lp.tombstone <;> simp [liveWeight, MetaRow.isLive, hlp]

/-- The row of an index key is no pointer. -/
theorem Counted.ttl_row (h : Counted s) (e : Int64) :
    (s.disk.kvMeta[ttlKey e ns key]?).any MetaRow.isLive = false := by
  cases hrow : s.disk.kvMeta[ttlKey e ns key]? with
  | none => rfl
  | some row =>
    rcases h.rows _ _ hrow with ⟨ns', key', lp, hns, hk, -⟩ | ⟨e', ns', key', b, -, rfl⟩
    · exact absurd hk.symm (latestKey_ne_ttlKey hns.short)
    · rfl

end

/-! ## Apply -/

section
variable {s : Store} {rec : StoredRecord} {kind : MutationKind} {sel : Store.Selected}

/-- Both ways to the winner find the liveness of the stored pointer. -/
theorem Counted.selectWinner (h : Counted s) (hns : PlainNamespace rec.ns)
    (hsel : s.selectWinner rec = some sel) :
    (sel.priorTombstone == some false) = s.liveAt rec.ns rec.logicalKey := by
  have hread : ∀ sel, s.readWinner rec = some sel →
      (sel.priorTombstone == some false) = s.liveAt rec.ns rec.logicalKey := by
    intro sel hsel
    unfold Store.readWinner at hsel
    unfold Store.liveAt
    cases hrow : s.disk.kvMeta[latestKey rec.ns rec.logicalKey]? with
    | none =>
      rw [hrow] at hsel
      obtain rfl := Option.some.inj hsel
      rfl
    | some row =>
      rw [hrow] at hsel
      cases row with
      | ttl b => cases hsel
      | pointer lp =>
        simp only [decodeLatestPointer, Option.bind_eq_bind, Option.bind_some] at hsel
        split at hsel
        · obtain rfl := Option.some.inj hsel
          cases hlp : lp.tombstone <;> simp [MetaRow.isLive, hlp]
        · obtain rfl := Option.some.inj hsel
          cases hlp : lp.tombstone <;> simp [MetaRow.isLive, Store.incoming, hlp]
  unfold Store.selectWinner at hsel
  split at hsel
  · rename_i cached hcached
    split at hsel
    · obtain rfl := Option.some.inj hsel
      rw [h.cache _ _ _ hns hcached]
      cases cached.tombstone <;> rfl
    · exact hread sel hsel
  · exact hread sel hsel

/-- The liveness of a key after a commit. -/
theorem commit_liveAt {ns key : Bytes} (hns : PlainNamespace ns) :
    (s.commit rec kind sel).liveAt ns key =
      if rec.ns = ns ∧ rec.logicalKey = key then !sel.tombstone else s.liveAt ns key := by
  unfold Store.liveAt
  rw [Store.commit_pointer s rec kind sel fun e => (latestKey_ne_ttlKey hns.short).symm]
  split <;> simp [MetaRow.isLive, Store.newPointer]

/-- A commit moves the counter by the change. -/
theorem Counted.commit (h : Counted s) (hns : PlainNamespace rec.ns)
    (hprior : (sel.priorTombstone == some false) = s.liveAt rec.ns rec.logicalKey) :
    Counted (s.commit rec kind sel) where
  count := by
    have hindex : wsum (fun _ row => liveWeight row) (s.commit rec kind sel).disk.kvMeta =
        wsum (fun _ row => liveWeight row) (s.disk.kvMeta.insert
          (latestKey rec.ns rec.logicalKey) (.pointer (Store.newPointer rec sel))) := by
      show wsum _ (Store.indexTTL rec _) = _
      unfold Store.indexTTL
      split
      · split
        · rfl
        · rename_i e _ _
          have hne : latestKey rec.ns rec.logicalKey ≠ ttlKey e rec.ns rec.logicalKey :=
            latestKey_ne_ttlKey hns.short
          have hrow : (s.disk.kvMeta.insert (latestKey rec.ns rec.logicalKey)
              (.pointer (Store.newPointer rec sel)))[ttlKey e rec.ns rec.logicalKey]? =
                s.disk.kvMeta[ttlKey e rec.ns rec.logicalKey]? := by
            simp [Std.ExtTreeMap.getElem?_insert, hne]
          rw [wsum_insert, elim_liveWeight, hrow, h.ttl_row]
          simp [liveWeight, MetaRow.isLive]
      · rfl
    rw [livePointers_eq_wsum, hindex, wsum_insert_pointer, ← hprior, Int64.ofInt_add,
      Int64.ofInt_sub, ← h.count]
    show s.liveKeys + Store.liveDelta sel = _
    unfold Store.liveDelta Store.newPointer
    cases sel.tombstone <;> cases (sel.priorTombstone == some false) <;>
      simp [Int64.sub_eq_add_neg] <;> grind
  rows := by
    intro k row hrow
    rcases Store.commit_meta_cases s rec kind sel hrow with hold | ⟨rfl, rfl⟩ | ⟨e, -, -, rfl, rfl⟩
    · exact h.rows k row hold
    · exact .inl ⟨_, _, _, hns, rfl, rfl⟩
    · exact .inr ⟨_, _, _, _, rfl, rfl⟩
  cache := by
    intro ns key entry hplain hentry
    rw [commit_liveAt hplain]
    split
    · rename_i hkey
      obtain ⟨rfl, rfl⟩ := hkey
      rw [Store.commit_cache_self s rec kind sel hentry]
    · rename_i hkey
      exact h.cache ns key entry hplain
        (Store.commit_cache_of_ne s rec kind sel hplain hns hkey hentry)

end

/-! ## Siblings and eviction -/

section
variable {s : Store} {ns key : Bytes}

/-- A call that sets a key's pointer, keeps the counter and drops at most cache entries. -/
theorem Counted.of_same (h : Counted s) {s' : Store} (key : Bytes) (hns : PlainNamespace ns)
    (hcount : s'.liveKeys = s.liveKeys) (hpointers : s'.livePointers = s.livePointers)
    (hother : ∀ k, k ≠ latestKey ns key → s'.disk.kvMeta[k]? = s.disk.kvMeta[k]?)
    (hself : ∀ row, s'.disk.kvMeta[latestKey ns key]? = some row → ∃ lp, row = .pointer lp)
    (hlive : s'.liveAt ns key = s.liveAt ns key)
    (hcache : ∀ (si : UInt32) (ckey : Bytes) entry, (s'.latestVer si)[ckey]? = some entry →
      (s.latestVer si)[ckey]? = some entry) : Counted s' where
  count := by rw [hcount, hpointers, h.count]
  rows := by
    intro k row hrow
    by_cases hk : k = latestKey ns key
    · subst hk
      obtain ⟨lp, rfl⟩ := hself row hrow
      exact .inl ⟨_, _, _, hns, rfl, rfl⟩
    · rw [hother k hk] at hrow
      exact h.rows k row hrow
  cache := by
    intro ns' key' entry hplain hentry
    have hold := h.cache ns' key' entry hplain (hcache _ _ _ hentry)
    by_cases hk : latestKey ns' key' = latestKey ns key
    · obtain ⟨rfl, rfl⟩ := latestKey_inj.mp hk
      rw [hlive, hold]
    · unfold Store.liveAt at hold ⊢
      rw [hother _ hk, hold]

/-- Siblings that leave the key as it was. -/
theorem Counted.applySiblings (h : Counted s) {r : StoredRecord} {rs : List StoredRecord}
    (hns : PlainNamespace ns) (hlive : s.liveAt ns key = !(Store.maxRecord r rs).tombstone) :
    Counted (s.applySiblings ns key (r :: rs)) := by
  have hrow : (s.applySiblings ns key (r :: rs)).liveAt ns key = s.liveAt ns key := by
    rw [hlive]
    simp [Store.liveAt, Store.applySiblings, MetaRow.isLive]
  refine h.of_same key hns rfl ?_ (fun k hk => ?_) (fun row hrow => ?_) hrow
    fun si ckey entry hentry => ?_
  · have hsum := @wsum_insert_pointer ns key s
      { winner := (Store.maxRecord r rs).version, tombstone := (Store.maxRecord r rs).tombstone,
        inlineValue := inlineValue (Store.maxRecord r rs),
        siblingVersions := ((r :: rs).map StoredRecord.version).filter
          fun v => !v.equal (Store.maxRecord r rs).version }
    rw [hlive] at hsum
    have heq : ((s.applySiblings ns key (r :: rs)).livePointers : Int) = s.livePointers := by
      rw [livePointers_eq_wsum]
      refine hsum.trans ?_
      cases (Store.maxRecord r rs).tombstone <;> simp
    exact Int.ofNat.inj heq
  · simp [Store.applySiblings, Std.ExtTreeMap.getElem?_insert, Ne.symm hk]
  · simp only [Store.applySiblings, Std.ExtTreeMap.getElem?_insert_self, Option.some.injEq] at hrow
    exact ⟨_, hrow.symm⟩
  · by_cases hsi : si = stripeIdx ns key
    · subst hsi
      simp only [Store.applySiblings, Function.update_self] at hentry
      exact getElem?_of_erase hentry
    · simpa [Store.applySiblings, Function.update_of_ne hsi] using hentry

theorem Counted.forget (h : Counted s) (hns : PlainNamespace ns) (hlive : s.liveAt ns key = false) :
    Counted (s.forget ns key) := by
  refine h.of_same key hns rfl ?_ (fun k hk => ?_) (fun row hrow => ?_) ?_ fun _ _ _ hentry =>
    hentry
  · have heq : ((s.forget ns key).livePointers : Int) = s.livePointers := by
      rw [livePointers_eq_wsum]
      show wsum _ (s.disk.kvMeta.erase (latestKey ns key)) = _
      unfold Store.liveAt at hlive
      rw [wsum_erase, elim_liveWeight, hlive, ← livePointers_eq_wsum]
      simp
    exact Int.ofNat.inj heq
  · simp [Store.forget, Std.ExtTreeMap.getElem?_erase, Ne.symm hk]
  · simp [Store.forget] at hrow
  · rw [hlive]
    simp [Store.liveAt, Store.forget]

/-- One steady call. -/
theorem Counted.call (h : Counted s) {c : LocalCall} (hc : c.Steady s) : Counted (s.call c) := by
  cases c with
  | apply rec kind =>
    show Counted (((s.apply rec kind).map Prod.snd).getD s)
    unfold Store.apply
    cases hsel : s.selectWinner rec with
    | none => exact h
    | some sel => exact h.commit hc (h.selectWinner hc hsel)
  | applySiblings ns key siblings =>
    cases siblings with
    | nil => exact h
    | cons r rs => exact h.applySiblings hc.1 hc.2
  | forget ns key => exact h.forget hc.1 hc.2

theorem Counted.run (h : Counted s) {cs : List LocalCall} (hcs : SteadyRun s cs) :
    Counted (cs.foldl Store.call s) := by
  induction cs generalizing s with
  | nil => exact h
  | cons c cs ih => exact ih (h.call hcs.1) hcs.2

end

theorem counted_newStore (clusterID memberID : Bytes) (clock : Clock) (seq : Sequencer) :
    Counted (newStore {} clusterID memberID clock seq) := by
  refine ⟨rfl, ?_, ?_⟩ <;> simp [newStore]

/-- The counter is exact after every run from an empty store whose siblings and evictions leave the
liveness of their keys as it is and that leaves fewer live keys than the counter can hold. -/
theorem live_keys_exact (clusterID memberID : Bytes) (clock : Clock) (seq : Sequencer)
    (cs : List LocalCall) (h : SteadyRun (newStore {} clusterID memberID clock seq) cs)
    (hfew : (cs.foldl Store.call (newStore {} clusterID memberID clock seq)).livePointers <
      2 ^ 63) :
    (cs.foldl Store.call (newStore {} clusterID memberID clock seq)).liveKeys.toInt =
      (cs.foldl Store.call (newStore {} clusterID memberID clock seq)).livePointers := by
  rw [((counted_newStore clusterID memberID clock seq).run h).count]
  exact Int64.toInt_ofInt_of_le (by omega) (by omega)

/-! ## One key -/

def oneMember : Store := newStore {} [0x61] [0x6d] (newClock 500) (newSequencer 0)

def writeAt (ms : UInt64) (tombstone : Bool) : StoredRecord :=
  { ns := [0x6e], logicalKey := [0x6b], version := { hlcPhysicalMs := ms }, tombstone }

/-- A put, a delete, an eviction of the deleted key and a put. -/
theorem live_keys_exact_evicted :
    SteadyRun oneMember [.apply (writeAt 1 false) .put, .apply (writeAt 2 true) .delete,
        .forget [0x6e] [0x6b], .apply (writeAt 3 false) .put] ∧
      ([LocalCall.apply (writeAt 1 false) .put, .apply (writeAt 2 true) .delete,
        .forget [0x6e] [0x6b], .apply (writeAt 3 false) .put].foldl Store.call
          oneMember).liveKeys.toInt =
      ([LocalCall.apply (writeAt 1 false) .put, .apply (writeAt 2 true) .delete,
        .forget [0x6e] [0x6b], .apply (writeAt 3 false) .put].foldl Store.call
          oneMember).livePointers := by
  have hsteady : SteadyRun oneMember [.apply (writeAt 1 false) .put,
      .apply (writeAt 2 true) .delete, .forget [0x6e] [0x6b], .apply (writeAt 3 false) .put] := by
    decide +kernel
  exact ⟨hsteady, live_keys_exact _ _ _ _ _ hsteady (by decide +kernel)⟩

def evictedLive : Store :=
  [LocalCall.apply (writeAt 1 false) .put, .forget [0x6e] [0x6b]].foldl Store.call oneMember

def firstSiblings : Store := oneMember.call (.applySiblings [0x6e] [0x6b] [writeAt 1 false])

/-- The counter stays at one after the eviction, and at zero after the siblings. -/
theorem live_keys_drift :
    evictedLive.liveKeys = 1 ∧ evictedLive.livePointers = 0 ∧
      firstSiblings.liveKeys = 0 ∧ firstSiblings.livePointers = 1 := by
  decide +kernel

end WaveSpan.Records
