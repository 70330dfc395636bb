/-
WaveSpan.Records.OneKey — one key of the record store under both of its writers
(`internal/recordstore/store.go` `Apply`, `ApplySiblings`).

`OneKey s ns key` is what the store keeps about a key as long as only records of
that key are written: its row is a pointer, a cached version is the pointer's, and
the record the pointer names is stored. It asks nothing of the namespace, since a
key's own TTL entries never meet its pointer.

`OneKey.apply` and `OneKey.applySiblings` say what each writer leaves: the first
the higher of the two versions and an empty sibling list, the second the highest
version it was given and the others beside it, whatever the pointer said before.
-/
import WaveSpan.Records.Applier

namespace WaveSpan.Records

open WaveSpan.Wire WaveSpan.Collections

def StoredRecord.Of (r : StoredRecord) (ns key : Bytes) : Prop :=
  r.ns = ns ∧ r.logicalKey = key

structure OneKey (s : Store) (ns key : Bytes) : Prop where
  row : ∀ {row : MetaRow}, s.disk.kvMeta[latestKey ns key]? = some row → ∃ lp, row = .pointer lp
  cache : ∀ {entry : LatestEntry},
    (s.latestVer (stripeIdx ns key))[cacheKey ns key]? = some entry →
      ∃ lp, s.pointer? ns key = some lp ∧ entry.ver = lp.winner
  data : ∀ {v : Version} {r : StoredRecord}, s.disk.kvData[dataKey ns key v]? = some r →
    r.Of ns key ∧ r.version = v
  won : ∀ {lp : LatestPointer}, s.pointer? ns key = some lp →
    ∃ r, s.disk.kvData[dataKey ns key lp.winner]? = some r

theorem oneKey_newStore (clusterID memberID : Bytes) (clock : Clock) (seq : Sequencer)
    (ns key : Bytes) : OneKey (newStore {} clusterID memberID clock seq) ns key where
  row h := by simp [newStore] at h
  cache h := by simp [newStore] at h
  data h := by simp [newStore] at h
  won h := by simp [newStore, Store.pointer?] at h

namespace OneKey

variable {s : Store} {ns key : Bytes} {rec : StoredRecord}

/-- The record read for a key is the one its pointer names. -/
theorem getRecord (h : OneKey s ns key) {r : StoredRecord} (hr : s.getRecord ns key = some r) :
    r.Of ns key ∧ ∃ lp, s.pointer? ns key = some lp ∧ r.version = lp.winner := by
  unfold Store.getRecord at hr
  obtain ⟨lp, hlp, hdata⟩ := Option.bind_eq_some_iff.mp hr
  obtain ⟨hof, hver⟩ := h.data hdata
  exact ⟨hof, lp, hlp, hver⟩

def winnerWith (lp : Option LatestPointer) (v : Version) : Version :=
  match lp with
  | none => v
  | some lp => max lp.winner v

/-- On the cache or on the pointer, the higher version is chosen. -/
theorem selectWinner (h : OneKey s ns key) (hof : rec.Of ns key) :
    ∃ sel, s.selectWinner rec = some sel ∧
      sel.winner = winnerWith (s.pointer? ns key) rec.version := by
  obtain ⟨rfl, rfl⟩ := hof
  have hread : ∃ sel, s.readWinner rec = some sel ∧
      sel.winner = winnerWith (s.pointer? rec.ns rec.logicalKey) rec.version := by
    unfold Store.readWinner Store.pointer?
    cases hrow : s.disk.kvMeta[latestKey rec.ns rec.logicalKey]? with
    | none => exact ⟨_, rfl, rfl⟩
    | some row =>
      obtain ⟨lp, rfl⟩ := h.row hrow
      simp only [decodeLatestPointer, Option.bind_eq_bind, Option.bind_some, winnerWith]
      split
      · rename_i hge
        exact ⟨_, rfl, (max_eq_left (not_lt.mp hge)).symm⟩
      · rename_i hlt
        exact ⟨_, rfl, (max_eq_right (le_of_lt (not_not.mp hlt))).symm⟩
  unfold Store.selectWinner
  cases hc : (s.latestVer (stripeIdx rec.ns rec.logicalKey))[cacheKey rec.ns rec.logicalKey]? with
  | none => exact hread
  | some entry =>
    obtain ⟨lp, hlp, hver⟩ := h.cache hc
    by_cases hgt : rec.version.compare entry.ver = .gt
    · refine ⟨_, if_pos hgt, ?_⟩
      rw [hlp]
      rw [hver, Version.compare_gt_iff] at hgt
      exact (max_eq_right hgt.le).symm
    · simp only [if_neg hgt]
      exact hread

/-- The pointer a commit leaves for the record's key. -/
theorem pointer?_commit (hof : rec.Of ns key) (kind : MutationKind) (sel : Store.Selected) :
    (s.commit rec kind sel).pointer? ns key = some (Store.newPointer rec sel) := by
  obtain ⟨rfl, rfl⟩ := hof
  unfold Store.pointer?
  rw [Store.commit_pointer _ _ _ _ fun e => ttlKey_ne_latestKey_self e rec.ns rec.logicalKey,
    if_pos ⟨rfl, rfl⟩]
  rfl

/-- `apply` leaves the higher of the two versions, and no siblings. -/
theorem apply (h : OneKey s ns key) (hof : rec.Of ns key) (kind : MutationKind) :
    ∃ s' lp, s.apply rec kind = some (lp.winner, s') ∧ OneKey s' ns key ∧
      s'.pointer? ns key = some lp ∧ lp.siblingVersions = [] ∧
      lp.winner = winnerWith (s.pointer? ns key) rec.version := by
  obtain ⟨sel, hsel, hwin⟩ := h.selectWinner hof
  have hptr := pointer?_commit (s := s) hof kind sel
  refine ⟨s.commit rec kind sel, Store.newPointer rec sel, by rw [Store.apply, hsel]; rfl, ?_,
    hptr, rfl, hwin⟩
  obtain ⟨rfl, rfl⟩ := hof
  constructor
  · intro row hrow
    rw [Store.commit_pointer _ _ _ _ fun e => ttlKey_ne_latestKey_self e rec.ns rec.logicalKey,
      if_pos ⟨rfl, rfl⟩] at hrow
    exact ⟨_, (Option.some.inj hrow).symm⟩
  · intro entry hc
    have hentry := Store.commit_cache_self s rec kind sel hc
    exact ⟨_, hptr, by rw [hentry]; rfl⟩
  · intro v r hr
    rw [Store.commit_data] at hr
    split at hr
    · rename_i hsame
      cases hr
      exact ⟨⟨rfl, rfl⟩, hsame.2.2⟩
    · exact h.data hr
  · intro lp hlp
    rw [hptr] at hlp
    cases hlp
    rw [Store.commit_data]
    split
    · exact ⟨_, rfl⟩
    · rename_i hne
      -- the winner is not the record, so it was the standing one
      have hwin' : (Store.newPointer rec sel).winner = sel.winner := rfl
      rw [hwin', hwin] at hne ⊢
      cases hold : s.pointer? rec.ns rec.logicalKey with
      | none =>
        rw [hold] at hne
        exact absurd ⟨rfl, rfl, rfl⟩ hne
      | some old =>
        rw [hold] at hne
        have hmax : winnerWith (some old) rec.version = old.winner := by
          rcases max_choice old.winner rec.version with hm | hm
          · exact hm
          · exact absurd ⟨rfl, rfl, hm.symm⟩ hne
        rw [hmax]
        exact h.won hold

/-! ## Siblings -/

theorem maxRecord_mem (r : StoredRecord) (rs : List StoredRecord) :
    Store.maxRecord r rs ∈ r :: rs := by
  induction rs generalizing r with
  | nil => simp [Store.maxRecord]
  | cons x rs ih =>
    unfold Store.maxRecord
    rcases List.mem_cons.mp (ih (if x.version.compare r.version = .gt then x else r)) with h | h
    · rw [h]
      split <;> simp
    · exact List.mem_cons_of_mem _ (List.mem_cons_of_mem _ h)

/-- No sibling is above the highest. -/
theorem le_maxRecord (r : StoredRecord) (rs : List StoredRecord) :
    ∀ x ∈ r :: rs, x.version ≤ (Store.maxRecord r rs).version := by
  induction rs generalizing r with
  | nil => simp [Store.maxRecord]
  | cons y rs ih =>
    intro x hx
    unfold Store.maxRecord
    have hpick : r.version ≤ (if y.version.compare r.version = .gt then y else r).version ∧
        y.version ≤ (if y.version.compare r.version = .gt then y else r).version := by
      split
      · rename_i hgt
        exact ⟨(Version.compare_gt_iff.mp hgt).le, le_rfl⟩
      · rename_i hle
        exact ⟨le_rfl, hle⟩
    have hhead := ih (if y.version.compare r.version = .gt then y else r) _
      (List.mem_cons_self ..)
    rcases List.mem_cons.mp hx with rfl | hx
    · exact hpick.1.trans hhead
    · rcases List.mem_cons.mp hx with rfl | hx
      · exact hpick.2.trans hhead
      · exact ih _ x (List.mem_cons_of_mem _ hx)

/-- Storing several versions of a key leaves each under its version. -/
theorem getElem?_putAll {m : GoMap StoredRecord} {recs : List StoredRecord} {v : Version}
    {x : StoredRecord}
    (h : (recs.foldl (fun m x => m.insert (dataKey ns key x.version) x) m)[dataKey ns key v]? =
      some x) :
    (x ∈ recs ∧ x.version = v) ∨ m[dataKey ns key v]? = some x := by
  induction recs generalizing m with
  | nil => exact .inr h
  | cons r recs ih =>
    rcases ih h with ⟨hx, hv⟩ | hm
    · exact .inl ⟨List.mem_cons_of_mem _ hx, hv⟩
    · rw [Std.ExtTreeMap.getElem?_insert] at hm
      split at hm
      · rename_i heq
        cases hm
        have := (dataKey_inj.mp (Std.LawfulEqCmp.compare_eq_iff_eq.mp heq)).2.2
        exact .inl ⟨List.mem_cons_self .., this⟩
      · exact .inr hm

/-- What is put is stored. -/
theorem isSome_putAll {m : GoMap StoredRecord} {recs : List StoredRecord} {v : Version}
    (h : (∃ x ∈ recs, x.version = v) ∨ ∃ x, m[dataKey ns key v]? = some x) :
    ∃ x, (recs.foldl (fun m x => m.insert (dataKey ns key x.version) x) m)[dataKey ns key v]? =
      some x := by
  induction recs generalizing m with
  | nil =>
    rcases h with ⟨x, hx, -⟩ | h
    · cases hx
    · exact h
  | cons r recs ih =>
    refine ih ?_
    by_cases hrv : r.version = v
    · subst hrv
      exact .inr ⟨r, by simp⟩
    · rcases h with ⟨x, hx, hv⟩ | ⟨x, hx⟩
      · rcases List.mem_cons.mp hx with rfl | hx
        · exact absurd hv hrv
        · exact .inl ⟨x, hx, hv⟩
      · refine .inr ⟨x, ?_⟩
        rw [Std.ExtTreeMap.getElem?_insert, if_neg]
        · exact hx
        · rw [Std.LawfulEqCmp.compare_eq_iff_eq, dataKey_inj]
          exact fun hc => hrv hc.2.2

/-- `applySiblings` leaves the highest version it was given and the others beside
it, whatever the pointer said before. -/
theorem applySiblings (h : OneKey s ns key) {recs : List StoredRecord} (hne : recs ≠ [])
    (hof : ∀ x ∈ recs, x.Of ns key) :
    OneKey (s.applySiblings ns key recs) ns key ∧
      ∃ lp, (s.applySiblings ns key recs).pointer? ns key = some lp ∧
        (∃ w ∈ recs, w.version = lp.winner) ∧ (∀ x ∈ recs, x.version ≤ lp.winner) ∧
        lp.siblingVersions =
          (recs.map StoredRecord.version).filter (fun v => !v.equal lp.winner) := by
  cases recs with
  | nil => exact absurd rfl hne
  | cons r rs =>
    have hptr : (s.applySiblings ns key (r :: rs)).pointer? ns key =
        some { winner := (Store.maxRecord r rs).version,
               tombstone := (Store.maxRecord r rs).tombstone,
               inlineValue := inlineValue (Store.maxRecord r rs),
               siblingVersions := ((r :: rs).map StoredRecord.version).filter
                 (fun v => !v.equal (Store.maxRecord r rs).version) } := by
      simp [Store.pointer?, Store.applySiblings, decodeLatestPointer]
    refine ⟨?_, _, hptr, ⟨_, maxRecord_mem r rs, rfl⟩, le_maxRecord r rs, rfl⟩
    constructor
    · intro row hrow
      have hrow' : (s.disk.kvMeta.insert (latestKey ns key) _)[latestKey ns key]? = some row :=
        hrow
      rw [Std.ExtTreeMap.getElem?_insert_self] at hrow'
      exact ⟨_, (Option.some.inj hrow').symm⟩
    · intro entry hc
      have hc' : (Function.update s.latestVer (stripeIdx ns key)
          ((s.latestVer (stripeIdx ns key)).erase (cacheKey ns key))
          (stripeIdx ns key))[cacheKey ns key]? = some entry := hc
      rw [Function.update_self] at hc'
      simp at hc'
    · intro v x hx
      rcases getElem?_putAll hx with ⟨hmem, hv⟩ | hold
      · exact ⟨hof x hmem, hv⟩
      · exact h.data hold
    · intro lp hlp
      rw [hptr] at hlp
      cases hlp
      exact isSome_putAll (.inl ⟨_, maxRecord_mem r rs, rfl⟩)

end OneKey

end WaveSpan.Records
