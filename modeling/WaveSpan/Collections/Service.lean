/-
WaveSpan.Collections.Service — what the callers of a shard can rely on, however its log is cut into
entries and batches.

A coalesced entry is as good as its commands alone (`coalesced_alike`), unless one of them fails,
which skips all. For every budget the log is a run of its ledger, and no lease is both outstanding
and settled (`leases_settle`).
-/
import WaveSpan.Collections.Codec
import WaveSpan.Collections.Pacing

namespace WaveSpan.Collections

open WaveSpan.Wire WaveSpan.Rows WaveSpan.Prog

/-! ## Coalesced commands -/

section
variable {fl : FloatOps} {s : UInt64} {frozen : List FrozenRange} {u u' : UpdateCtx}
  {rs : List ProposeResult}

theorem applyEntry_decoded {b : Bytes} {c : Command} (h : decodeCommandInto b = .ok c) :
    applyEntry fl s frozen b = applyOne fl s frozen b := by
  cases b with
  | nil => cases h
  | cons x rest =>
    cases hop : OpKind.ofByte? x with
    | none => simp [decodeCommandInto, hop] at h
    | some op => cases op <;> simp_all [applyEntry, opByte?, decodeCommandInto, typeForOp]

/-- Commands that all succeed in one entry do so as entries. -/
theorem applySubs_entries {es : List Entry} {done : List ProposeResult}
    (h : applySubs fl s frozen done (es.map Entry.cmd) u = .ok rs u') :
    ∃ new, rs = done ++ new ∧ applyEntries fl s frozen es u = .ok (u', new) := by
  induction es generalizing done u with
  | nil =>
    cases h
    exact ⟨[], by simp, rfl⟩
  | cons e es ih =>
    rw [List.map_cons, applySubs, List.foldlM_cons, bind_assoc, bind_apply] at h
    cases hone : applyOne fl s frozen e.cmd u with
    | error err v => rw [hone] at h; cases h
    | ok r v =>
      rw [hone] at h
      obtain ⟨new, hnew, hes⟩ := ih h
      refine ⟨r :: new, by rw [hnew, List.append_assoc]; rfl, ?_⟩
      cases hd : decodeCommandInto e.cmd with
      | error err => rw [applyOne, hd] at hone; cases hone
      | ok c => simp only [applyEntries, applyEntry_decoded hd, hone, hes, Except.map]

/-- An entry that carries commands none of which fails leaves the store that they leave as entries
of their own, and returns their results. -/
theorem coalesced_alike (fl : FloatOps) (s : UInt64) (st : Store) (es : List Entry)
    (last : Entry) (b : Bytes)
    (hlast : es.getLast? = some last) (hb : decodeBatch b = .ok (es.map Entry.cmd))
    (hok : ((applySubs fl s (loadFrozen s st) [] (es.map Entry.cmd)).run' (newCtx s st)).isSome) :
    update fl s st [⟨last.index, b⟩] =
      (update fl s st es).map fun p => (p.1, [{ data := encodeBatchResult p.2 }]) := by
  have hop : opByte? b = some .batch := by
    cases b with
    | nil => cases hb
    | cons x rest =>
      have hx : x = OpKind.batch.toByte := by
        by_contra hne
        simp [decodeBatch, hne] at hb
      rw [hx]
      exact OpKind.ofByte?_toByte .batch
  cases hrun : applySubs fl s (loadFrozen s st) [] (es.map Entry.cmd) (newCtx s st) with
  | error e u =>
    delta EStateM.run' EStateM.run at hok
    simp [hrun] at hok
  | ok rs u =>
    obtain ⟨_, rfl, hes⟩ := applySubs_entries hrun
    have hentry : applyEntry fl s (loadFrozen s st) b (newCtx s st) =
        .ok { data := encodeBatchResult rs } u := by
      rw [applyEntry, hop]
      simp only [hb]
      exact bind_apply_ok hrun
    rw [update, update, hlast, List.getLast?_singleton]
    simp only [applyEntries, hentry, hes, Except.map]
    -- Both leave the context `u`, so both write its counters.
    cases flushCards st u.cardDelta.toList <;> rfl

end

theorem coalesced_alike_hundred :
    update FloatOps.absent 1 ∅ [⟨2, encodeBatchInto [initHundred, grantSixty 5 0]⟩] =
      (update FloatOps.absent 1 ∅ [⟨1, initHundred⟩, ⟨2, grantSixty 5 0⟩]).map fun p =>
        (p.1, [{ data := encodeBatchResult p.2 }]) :=
  coalesced_alike _ _ _ [⟨1, initHundred⟩, ⟨2, grantSixty 5 0⟩] ⟨2, grantSixty 5 0⟩ _ rfl
    (by decide +kernel) (by decide +kernel)

/-! ## Settled leases -/

/-- No lease is outstanding and settled at once. -/
def Ledger.Apart (L : Ledger) : Prop := ∀ b id, L.book = some b → id ∈ b.leases → id ∉ L.tombs

/-- No operation leaves a lease and its tombstone. -/
theorem Ledger.Apart.apply {L : Ledger} (h : L.Apart) (op : BudOp) : (L.apply op).1.Apart := by
  unfold Ledger.Apart at h ⊢
  have hsome : ∀ id b l, L.lease? id = some (b, l) → L.book = some b ∧ id ∈ b.leases :=
      fun id b l hl =>
    ⟨(lease?_some hl).1, mem_iff_exists.mpr ⟨l, (lease?_some hl).2⟩⟩
  have hnone : ∀ id b, L.lease? id = none → L.book = some b → id ∉ b.leases := fun id b hl hb => by
    simpa [lease?_of_book hb] using hl
  have hsame : ∀ id id' : Bytes, compare id id' = .eq → id = id' := fun _ _ =>
      Std.compare_eq_iff_eq.mp
  have hgrant := L.grant_cases
  -- A tombstone is written where the lease is dropped, and no grant goes to a settled id.
  cases op <;> simp only [Ledger.apply, init, report, giveBack, expire, tombGC, reconcile] <;> grind

/-- A log without migrations is a run of each of its budgets. -/
theorem updates_runs {fl : FloatOps} {s : UInt64} {ns coll : Chunk} {st st' : Store} {L : Ledger}
    {bs : List (List Entry)} {rs : List ProposeResult} (hbs : ∀ es ∈ bs, ∀ e ∈ es, ¬ Migrates e.cmd)
    (hL : Represents s ns coll L (newCtx s st)) (h : updates fl s st bs = .ok (st', rs)) :
    ∃ ops, Represents s ns coll (Ledger.run ops L) (newCtx s st') := by
  induction bs generalizing st L rs with
  | nil =>
    cases h
    exact ⟨[], hL⟩
  | cons es bs ih =>
    obtain ⟨hes, hbs⟩ := List.forall_mem_cons.mp hbs
    rw [updates] at h
    cases hu : update fl s st es with
    | error e => simp [hu] at h
    | ok p =>
      obtain ⟨ops, -, hL'⟩ := update_runs (P := fun _ => True) hes
        (entriesMeet_of_forall fun _ _ _ _ _ _ _ _ _ => trivial) hL hu
      cases hr : updates fl s p.1 bs with
      | error e => simp [hu, hr, Except.map] at h
      | ok q =>
        obtain ⟨rfl, -⟩ : q.1 = st' ∧ _ := by simpa [hu, hr, Except.map] using h
        obtain ⟨ops', hL''⟩ := ih hbs hL' hr
        exact ⟨ops ++ ops', by rwa [Ledger.run_append]⟩

/-- After any log without migrations, the rows of a collection are those of a run of budget
operations, and no lease id has both a lease and a tombstone. -/
theorem leases_settle (fl : FloatOps) (s : UInt64) (bs : List (List Entry)) (st : Store)
    (rs : List ProposeResult) (hbs : ∀ es ∈ bs, ∀ e ∈ es, ¬ Migrates e.cmd)
    (h : updates fl s ∅ bs = .ok (st, rs)) (ns coll : Chunk) :
    (∃ ops, Represents s ns coll (Ledger.run ops {}) (newCtx s st)) ∧
      ∀ id, st[(RowKey.lease ns coll id).enc s]? = none ∨
        st[(RowKey.tomb ns coll id).enc s]? = none := by
  obtain ⟨ops, hL⟩ := updates_runs hbs .empty h
  have hapart : (Ledger.run ops {}).Apart :=
    Ledger.run_induct (fun op _ L hL => hL.apply op) (by simp [Ledger.Apart])
  refine ⟨⟨ops, hL⟩, fun id => ?_⟩
  have hlease : st[_]? = _ := (hL.rows (.lease ns coll id) rfl rfl).2
  have htomb : st[_]? = _ := (hL.rows (.tomb ns coll id) rfl rfl).2
  rw [hlease, htomb]
  cases hl : (Ledger.run ops {}).lease? id with
  | none => exact .inl (by simp [Ledger.record, hl])
  | some p =>
    obtain ⟨hb, hmem⟩ := lease?_some hl
    exact .inr (by simpa [Ledger.record] using hapart p.1 id hb (mem_iff_exists.mpr ⟨p.2, hmem⟩))

theorem leases_settle_sixty :
    ∃ st rs, updates FloatOps.absent 1 ∅ [[⟨1, initHundred⟩, ⟨2, grantSixty 5 0⟩]] = .ok (st, rs) ∧
      ∀ id, st[(RowKey.lease (Chunk.byte 1) (Chunk.byte 2) id).enc 1]? = none ∨
        st[(RowKey.tomb (Chunk.byte 1) (Chunk.byte 2) id).enc 1]? = none := by
  cases h : updates FloatOps.absent 1 ∅ [[⟨1, initHundred⟩, ⟨2, grantSixty 5 0⟩]] with
  | error e =>
    have hok : (updates FloatOps.absent 1 ∅ [[⟨1, initHundred⟩, ⟨2, grantSixty 5 0⟩]]).isOk =
        true := by
      decide +kernel
    simp [h, Except.isOk, Except.toBool] at hok
  | ok p => exact ⟨p.1, p.2, rfl, (leases_settle _ _ _ _ _
      (by simp [initHundred_single.1, grantSixty_single.1]) h _ _).2⟩

end WaveSpan.Collections
