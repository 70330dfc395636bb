/-
WaveSpan.Records.Winner — the record store holds the winner of what it was given.

`Reflects s S` ties a store to the set of records applied to it: every record is
stored under its version, a key's pointer is that of its winner (`pointerOf`),
every other row of the metadata family is a TTL index entry, and a cached version
is the winner's. `Reflects.apply` keeps it: whether the winner is chosen on the
cache or on the stored pointer, the outcome is the winner of the set with one
more record (`Reflects.selectWinner`).

Two things can come between the store and its keys. The cache is keyed by
namespace and key joined with a zero byte, and a long namespace's pointers can
fall into the TTL index. `PlainNamespace` rules both out.
-/
import WaveSpan.Lib.Lww
import WaveSpan.Records.Store

namespace WaveSpan.Records

open WaveSpan.Wire WaveSpan.Collections WaveSpan.Lww

/-- A namespace whose keys are told apart everywhere: no zero byte in it, and a
length of one byte. -/
structure PlainNamespace (ns : Bytes) : Prop where
  short : ns.length < 128
  noNul : (0 : UInt8) ∉ ns

instance (ns : Bytes) : Decidable (PlainNamespace ns) :=
  decidable_of_iff (ns.length < 128 ∧ (0 : UInt8) ∉ ns)
    ⟨fun h => ⟨h.1, h.2⟩, fun h => ⟨h.1, h.2⟩⟩

def keyed (S : Set StoredRecord) (ns key : Bytes) : Set StoredRecord :=
  {r | r ∈ S ∧ r.ns = ns ∧ r.logicalKey = key}

/-- Equal versions of a key carry equal contents. -/
def Consistent (S : Set StoredRecord) : Prop :=
  ∀ ns key, Set.InjOn StoredRecord.version (keyed S ns key)

def pointerOf (r : StoredRecord) : LatestPointer :=
  { winner := r.version, tombstone := r.tombstone, expiresAtUnixMs := r.expiresAtUnixMs,
    inlineValue := inlineValue r }

abbrev WinnerOf (S : Set StoredRecord) (ns key : Bytes) : StoredRecord → Prop :=
  Winner StoredRecord.version (keyed S ns key)

/-! ## Cache keys -/

/-- What stands before the first zero byte is determined. -/
theorem append_nul_inj {a b r s : Bytes} (ha : (0 : UInt8) ∉ a) (hb : (0 : UInt8) ∉ b) :
    a ++ 0 :: r = b ++ 0 :: s ↔ a = b ∧ r = s := by
  constructor
  · intro h
    induction a generalizing b with
    | nil =>
      cases b with
      | nil => exact ⟨rfl, by simpa using h⟩
      | cons c b =>
        simp only [List.nil_append, List.cons_append, List.cons.injEq] at h
        exact absurd (by simp [h.1]) hb
    | cons c a ih =>
      cases b with
      | nil =>
        simp only [List.nil_append, List.cons_append, List.cons.injEq] at h
        exact absurd (by simp [h.1]) ha
      | cons d b =>
        simp only [List.cons_append, List.cons.injEq] at h
        simp only [List.mem_cons, not_or] at ha hb
        obtain ⟨hab, hrs⟩ := ih ha.2 hb.2 h.2
        exact ⟨by rw [h.1, hab], hrs⟩
  · rintro ⟨rfl, rfl⟩
    rfl

theorem cacheKey_inj {ns ns' key key' : Bytes} (h : PlainNamespace ns) (h' : PlainNamespace ns') :
    cacheKey ns key = cacheKey ns' key' ↔ ns = ns' ∧ key = key' :=
  append_nul_inj h.noNul h'.noNul

/-! ## What a commit writes -/

namespace Store

section
variable (s : Store) (rec : StoredRecord) (kind : MutationKind) (sel : Selected)

/-- Away from the TTL index keys of the record, indexing changes nothing. -/
theorem getElem?_indexTTL_of_ne {m : GoMap MetaRow} {k : Bytes}
    (h : ∀ e, ttlKey e rec.ns rec.logicalKey ≠ k) : (indexTTL rec m)[k]? = m[k]? := by
  unfold indexTTL
  cases rec.expiresAtUnixMs with
  | none => rfl
  | some e =>
    simp only
    split
    · rfl
    · rw [Std.ExtTreeMap.getElem?_insert, if_neg (by simpa using h e)]

/-- A key's pointer after a commit, as long as it is clear of the index entry the
commit writes. -/
theorem commit_pointer {ns key : Bytes}
    (h : ∀ e, ttlKey e rec.ns rec.logicalKey ≠ latestKey ns key) :
    (s.commit rec kind sel).disk.kvMeta[latestKey ns key]? =
      if rec.ns = ns ∧ rec.logicalKey = key then some (.pointer (newPointer rec sel))
      else s.disk.kvMeta[latestKey ns key]? := by
  show (indexTTL rec _)[latestKey ns key]? = _
  rw [getElem?_indexTTL_of_ne rec h, Std.ExtTreeMap.getElem?_insert]
  simp only [Std.LawfulEqCmp.compare_eq_iff_eq, latestKey_inj]

/-- The records after a commit. -/
theorem commit_data (ns key : Bytes) (v : Version) :
    (s.commit rec kind sel).disk.kvData[dataKey ns key v]? =
      if rec.ns = ns ∧ rec.logicalKey = key ∧ rec.version = v then some rec
      else s.disk.kvData[dataKey ns key v]? := by
  show (s.disk.kvData.insert _ _)[_]? = _
  rw [Std.ExtTreeMap.getElem?_insert]
  simp only [Std.LawfulEqCmp.compare_eq_iff_eq, dataKey_inj]

/-- The rows of the metadata family after a commit are old ones, the pointer, or
the index entry. -/
theorem commit_meta_cases {k : Bytes} {row : MetaRow}
    (h : (s.commit rec kind sel).disk.kvMeta[k]? = some row) :
    s.disk.kvMeta[k]? = some row ∨
      (k = latestKey rec.ns rec.logicalKey ∧ row = .pointer (newPointer rec sel)) ∨
      ∃ e, rec.expiresAtUnixMs = some e ∧ rec.tombstone = false ∧
        k = ttlKey e rec.ns rec.logicalKey ∧ row = .ttl (encodeVersion rec.version) := by
  have hold : (indexTTL rec (s.disk.kvMeta.insert (latestKey rec.ns rec.logicalKey)
      (.pointer (newPointer rec sel))))[k]? = some row := h
  unfold indexTTL at hold
  cases he : rec.expiresAtUnixMs with
  | none =>
    rw [he] at hold
    rcases Rows.getElem?_insert_cases hold with hm | hm
    · exact .inl hm
    · exact .inr (.inl hm)
  | some e =>
    rw [he] at hold
    cases ht : rec.tombstone with
    | true =>
      simp only [ht, if_true] at hold
      rcases Rows.getElem?_insert_cases hold with hm | hm
      · exact .inl hm
      · exact .inr (.inl hm)
    | false =>
      simp only [ht, Bool.false_eq_true, if_false] at hold
      rcases Rows.getElem?_insert_cases hold with hm | ⟨hk, hrow⟩
      · rcases Rows.getElem?_insert_cases hm with hm | hm
        · exact .inl hm
        · exact .inr (.inl hm)
      · exact .inr (.inr ⟨e, rfl, rfl, hk, hrow⟩)

theorem commit_latestVer : (s.commit rec kind sel).latestVer =
    Function.update s.latestVer (stripeIdx rec.ns rec.logicalKey)
      (remember (s.latestVer (stripeIdx rec.ns rec.logicalKey))
        (cacheKey rec.ns rec.logicalKey) ⟨sel.winner, sel.tombstone⟩) := rfl

/-- The cache after a commit holds the chosen winner of the record's key. -/
theorem commit_cache_self {entry : LatestEntry}
    (h : ((s.commit rec kind sel).latestVer (stripeIdx rec.ns rec.logicalKey))[
      cacheKey rec.ns rec.logicalKey]? = some entry) :
    entry = ⟨sel.winner, sel.tombstone⟩ := by
  rw [commit_latestVer, Function.update_self] at h
  unfold remember at h
  split at h <;> simpa [eq_comm] using h

/-- Of other keys the cache holds at most what it held. -/
theorem commit_cache_of_ne {ns key : Bytes} {entry : LatestEntry} (hns : PlainNamespace ns)
    (hrec : PlainNamespace rec.ns) (hne : ¬ (rec.ns = ns ∧ rec.logicalKey = key))
    (h : ((s.commit rec kind sel).latestVer (stripeIdx ns key))[cacheKey ns key]? = some entry) :
    (s.latestVer (stripeIdx ns key))[cacheKey ns key]? = some entry := by
  have hkey : cacheKey rec.ns rec.logicalKey ≠ cacheKey ns key :=
    fun hc => hne ((cacheKey_inj hrec hns).mp hc)
  rw [commit_latestVer] at h
  by_cases hsi : stripeIdx ns key = stripeIdx rec.ns rec.logicalKey
  · rw [hsi, Function.update_self] at h
    rw [hsi]
    unfold remember at h
    split at h
    · simpa [Std.ExtTreeMap.getElem?_insert, hkey] using h
    · simp [hkey] at h
  · rwa [Function.update_of_ne hsi] at h

end

/-- The winner is never older than the record applied. -/
theorem le_selectWinner {s : Store} {rec : StoredRecord} {sel : Selected}
    (h : s.selectWinner rec = some sel) :
    rec.version ≤ sel.winner := by
  have hread : s.readWinner rec = some sel → rec.version ≤ sel.winner := by
    intro hr
    unfold readWinner at hr
    split at hr
    · cases hr
      exact le_refl _
    · obtain ⟨lp, -, hr⟩ := Option.bind_eq_some_iff.mp hr
      split at hr
      · rename_i hcmp
        cases hr
        refine Version.le_def.mpr fun hgt => hcmp ?_
        rw [← Version.compare_swap, hgt]
        rfl
      · cases hr
        exact le_refl _
  unfold selectWinner at h
  split at h
  · split at h
    · cases h
      exact le_refl _
    · exact hread h
  · exact hread h

/-- After an apply the key's winner is at least as new as the record. -/
theorem apply_effect {s s' : Store} {rec : StoredRecord} {kind : MutationKind} {v : Version}
    (happly : s.apply rec kind = some (v, s')) :
    ∃ lp, s'.pointer? rec.ns rec.logicalKey = some lp ∧ rec.version ≤ lp.winner := by
  rw [Store.apply, Option.map_eq_some_iff] at happly
  obtain ⟨sel, hsel, heq⟩ := happly
  cases heq
  refine ⟨newPointer rec sel, ?_, le_selectWinner hsel⟩
  rw [pointer?, commit_pointer s rec kind sel fun e => ttlKey_ne_latestKey_self e _ _,
    if_pos ⟨rfl, rfl⟩]
  rfl

end Store

/-! ## The store and the records applied to it -/

structure Reflects (s : Store) (S : Set StoredRecord) : Prop where
  finite : S.Finite
  /-- Every record is stored under its version. -/
  data : ∀ r ∈ S, s.disk.kvData[dataKey r.ns r.logicalKey r.version]? = some r
  /-- A winner's pointer is the key's pointer. -/
  pointer : ∀ {ns key w}, WinnerOf S ns key w →
    s.disk.kvMeta[latestKey ns key]? = some (.pointer (pointerOf w))
  /-- Every row of the metadata family belongs to a record. -/
  rows : ∀ {k row}, s.disk.kvMeta[k]? = some row →
    (∃ r ∈ S, k = latestKey r.ns r.logicalKey) ∨
      ∃ r ∈ S, ∃ e v, k = ttlKey e r.ns r.logicalKey ∧ row = .ttl v
  /-- A cached version is the winner's. -/
  cache : ∀ {ns key entry}, PlainNamespace ns →
    (s.latestVer (stripeIdx ns key))[cacheKey ns key]? = some entry →
      ∃ w, WinnerOf S ns key w ∧ entry = ⟨w.version, w.tombstone⟩

def standing (w : StoredRecord) : Store.Selected :=
  { winner := w.version, tombstone := w.tombstone, expiry := w.expiresAtUnixMs,
    inline := inlineValue w, priorTombstone := some w.tombstone }

theorem newPointer_incoming (rec : StoredRecord) (prior : Option Bool) :
    Store.newPointer rec (Store.incoming rec prior) = pointerOf rec := by
  have heq : rec.version.equal rec.version = true := Version.equal_iff_eq.mpr rfl
  simp [Store.newPointer, Store.incoming, pointerOf, heq]

/-- A standing winner keeps its pointer: a record with its version is the winner
itself. -/
theorem newPointer_standing {rec w : StoredRecord} (h : w.version = rec.version → w = rec) :
    Store.newPointer rec (standing w) = pointerOf w := by
  unfold Store.newPointer standing pointerOf
  by_cases heq : w.version.equal rec.version = true
  · have := h (Version.equal_iff_eq.mp heq)
    subst this
    simp
  · simp [heq]

theorem mem_keyed_self {S : Set StoredRecord} {r : StoredRecord} :
    r ∈ keyed S r.ns r.logicalKey ↔ r ∈ S := by
  simp [keyed]

theorem keyed_mono {S T : Set StoredRecord} (h : S ⊆ T) (ns key : Bytes) :
    keyed S ns key ⊆ keyed T ns key := by
  rintro r ⟨hr, hk⟩
  exact ⟨h hr, hk⟩

theorem keyed_insert (S : Set StoredRecord) (rec : StoredRecord) :
    keyed (insert rec S) rec.ns rec.logicalKey = insert rec (keyed S rec.ns rec.logicalKey) := by
  ext r
  simp only [keyed, Set.mem_ofPred_eq, Set.mem_insert_iff]
  constructor
  · rintro ⟨rfl | hr, hk⟩
    · exact .inl rfl
    · exact .inr ⟨hr, hk⟩
  · rintro (rfl | ⟨hr, hk⟩)
    · exact ⟨.inl rfl, rfl, rfl⟩
    · exact ⟨.inr hr, hk⟩

theorem keyed_insert_of_ne {S : Set StoredRecord} {rec : StoredRecord} {ns key : Bytes}
    (h : ¬ (rec.ns = ns ∧ rec.logicalKey = key)) : keyed (insert rec S) ns key =
      keyed S ns key := by
  ext r
  simp only [keyed, Set.mem_ofPred_eq, Set.mem_insert_iff]
  constructor
  · rintro ⟨rfl | hr, hk⟩
    · exact absurd hk h
    · exact ⟨hr, hk⟩
  · rintro ⟨hr, hk⟩
    exact ⟨.inr hr, hk⟩

namespace Reflects

variable {s : Store} {S : Set StoredRecord} {rec : StoredRecord}

/-- A key no record was applied for has no pointer. -/
theorem noPointer (h : Reflects s S) {ns key : Bytes} (hns : ns.length < 128)
    (hnone : keyed S ns key = ∅) : s.disk.kvMeta[latestKey ns key]? = none := by
  cases hrow : s.disk.kvMeta[latestKey ns key]? with
  | none => rfl
  | some row =>
    rcases h.rows hrow with ⟨r, hr, hk⟩ | ⟨r, -, e, v, hk, -⟩
    · obtain ⟨rfl, rfl⟩ := latestKey_inj.mp hk
      have hmem := mem_keyed_self.mpr hr
      rw [hnone] at hmem
      exact hmem.elim
    · exact absurd hk (latestKey_ne_ttlKey hns)

/-- A key with records has a winner. -/
theorem exists_winnerOf (h : Reflects s S) {ns key : Bytes} (hne : (keyed S ns key).Nonempty) :
    ∃ w, WinnerOf S ns key w :=
  exists_winner (h.finite.subset fun _ hr => hr.1) hne

/-- The first record of a key wins. -/
theorem selectWinner_of_none (h : Reflects s S) (hns : PlainNamespace rec.ns)
    (hnone : keyed S rec.ns rec.logicalKey = ∅) :
    s.selectWinner rec = some (Store.incoming rec none) := by
  have hread : s.readWinner rec = some (Store.incoming rec none) := by
    unfold Store.readWinner
    rw [h.noPointer hns.short hnone]
  unfold Store.selectWinner
  cases hc : (s.latestVer (stripeIdx rec.ns rec.logicalKey))[cacheKey rec.ns rec.logicalKey]? with
  | none => exact hread
  | some entry =>
    obtain ⟨w, hw, -⟩ := h.cache hns hc
    have hmem := hw.mem
    rw [hnone] at hmem
    exact hmem.elim

/-- A later record wins over the winner, and the winner stands otherwise; the
cached version and the stored pointer give the same answer. -/
theorem selectWinner_of_winner (h : Reflects s S) (hcons : Consistent S)
    (hns : PlainNamespace rec.ns) {w : StoredRecord} (hw : WinnerOf S rec.ns rec.logicalKey w) :
    s.selectWinner rec =
      some (if w.version < rec.version then Store.incoming rec (some w.tombstone)
        else standing w) := by
  have hread : s.readWinner rec =
      some (if w.version < rec.version then Store.incoming rec (some w.tombstone)
        else standing w) := by
    unfold Store.readWinner
    rw [h.pointer hw]
    by_cases hlt : w.version < rec.version
    · have hlt' : (pointerOf w).winner.compare rec.version = .lt := hlt
      simp only [decodeLatestPointer, Option.bind_eq_bind, Option.bind_some, hlt', hlt, if_true]
      rfl
    · have hlt' : (pointerOf w).winner.compare rec.version ≠ .lt := hlt
      simp only [decodeLatestPointer, Option.bind_eq_bind, Option.bind_some, if_pos hlt', hlt,
        if_false]
      rfl
  unfold Store.selectWinner
  cases hc : (s.latestVer (stripeIdx rec.ns rec.logicalKey))[cacheKey rec.ns rec.logicalKey]? with
  | none => exact hread
  | some entry =>
    obtain ⟨w', hw', rfl⟩ := h.cache hns hc
    obtain rfl := hw'.unique (hcons _ _) hw
    by_cases hlt : w'.version < rec.version
    · simp only [Version.compare_gt_iff.mpr hlt, if_true, if_pos hlt]
    · simp only [if_neg fun hc => hlt (Version.compare_gt_iff.mp hc)]
      exact hread

/-- Whatever was chosen as the key's winner, a commit of it keeps store and
records together. -/
theorem commit (h : Reflects s S) (hns : PlainNamespace rec.ns)
    (hplain : ∀ r ∈ S, PlainNamespace r.ns) (hcons : Consistent (insert rec S))
    (kind : MutationKind) {sel : Store.Selected} {w : StoredRecord}
    (hw : WinnerOf (insert rec S) rec.ns rec.logicalKey w)
    (hptr : Store.newPointer rec sel = pointerOf w)
    (hentry : (⟨sel.winner, sel.tombstone⟩ : LatestEntry) = ⟨w.version, w.tombstone⟩) :
    Reflects (s.commit rec kind sel) (insert rec S) where
  finite := h.finite.insert rec
  data r hr := by
    rw [Store.commit_data]
    split
    · rename_i hsame
      obtain ⟨hn, hk, hv⟩ := hsame
      rw [hcons rec.ns rec.logicalKey (mem_keyed_self.mpr (Set.mem_insert rec S))
        ⟨hr, hn.symm, hk.symm⟩ hv]
    · rename_i hdiff
      rcases hr with rfl | hr
      · exact absurd ⟨rfl, rfl, rfl⟩ hdiff
      · exact h.data r hr
  pointer {ns key v} hv := by
    have hplain' : PlainNamespace ns := by
      obtain ⟨rfl | hr, hn, -⟩ := hv.mem
      · rwa [← hn]
      · rw [← hn]; exact hplain v hr
    rw [Store.commit_pointer _ _ _ _ fun e => (latestKey_ne_ttlKey hplain'.short).symm]
    split
    · rename_i hsame
      obtain ⟨rfl, rfl⟩ := hsame
      rw [hptr, hw.unique (hcons _ _) hv]
    · rename_i hdiff
      unfold WinnerOf at hv
      rw [keyed_insert_of_ne hdiff] at hv
      exact h.pointer hv
  rows {k row} hrow := by
    rcases Store.commit_meta_cases s rec kind sel hrow with hold | ⟨hk, -⟩ | ⟨e, -, -, hk, hrow⟩
    · rcases h.rows hold with ⟨r, hr, hk⟩ | ⟨r, hr, hk⟩
      · exact .inl ⟨r, Set.mem_insert_of_mem _ hr, hk⟩
      · exact .inr ⟨r, Set.mem_insert_of_mem _ hr, hk⟩
    · exact .inl ⟨rec, Set.mem_insert _ _, hk⟩
    · exact .inr ⟨rec, Set.mem_insert _ _, e, _, hk, hrow⟩
  cache {ns key entry} hns' hc := by
    by_cases hsame : rec.ns = ns ∧ rec.logicalKey = key
    · obtain ⟨rfl, rfl⟩ := hsame
      refine ⟨w, hw, ?_⟩
      rw [← hentry]
      exact Store.commit_cache_self s rec kind sel hc
    · have hold := Store.commit_cache_of_ne s rec kind sel hns' hns hsame hc
      obtain ⟨w', hw', rfl⟩ := h.cache hns' hold
      refine ⟨w', ?_, rfl⟩
      unfold WinnerOf
      rw [keyed_insert_of_ne hsame]
      exact hw'

/-- One more record: the store takes it and still reflects what it was given. -/
theorem apply (h : Reflects s S) (hns : PlainNamespace rec.ns)
    (hplain : ∀ r ∈ S, PlainNamespace r.ns) (hcons : Consistent (insert rec S))
    (kind : MutationKind) :
    ∃ v s', s.apply rec kind = some (v, s') ∧ Reflects s' (insert rec S) := by
  have hcons' : Consistent S := fun ns key =>
    (hcons ns key).mono (keyed_mono (Set.subset_insert rec S) ns key)
  rcases (keyed S rec.ns rec.logicalKey).eq_empty_or_nonempty with hnone | hsome
  · -- the key's first record
    have hw : WinnerOf (insert rec S) rec.ns rec.logicalKey rec := by
      unfold WinnerOf
      rw [keyed_insert, hnone, insert_empty_eq]
      exact Winner.singleton rec
    have hsel := h.selectWinner_of_none hns hnone
    refine ⟨rec.version, s.commit rec kind (Store.incoming rec none), ?_,
      h.commit hns hplain hcons kind hw (newPointer_incoming rec none) rfl⟩
    rw [Store.apply, hsel]
    rfl
  · obtain ⟨w, hw⟩ := h.exists_winnerOf hsome
    have hnew : WinnerOf (insert rec S) rec.ns rec.logicalKey
        (if w.version < rec.version then rec else w) := by
      unfold WinnerOf
      rw [keyed_insert]
      exact hw.insert rec
    have hsel := h.selectWinner_of_winner hcons' hns hw
    by_cases hlt : w.version < rec.version
    · rw [if_pos hlt] at hsel hnew
      refine ⟨rec.version, s.commit rec kind (Store.incoming rec (some w.tombstone)), ?_,
        h.commit hns hplain hcons kind hnew (newPointer_incoming rec _) rfl⟩
      rw [Store.apply, hsel]
      rfl
    · rw [if_neg hlt] at hsel hnew
      have hself : w.version = rec.version → w = rec := fun hv =>
        hcons _ _ hnew.mem (mem_keyed_self.mpr (Set.mem_insert rec S)) hv
      refine ⟨w.version, s.commit rec kind (standing w), ?_,
        h.commit hns hplain hcons kind hnew (newPointer_standing hself) rfl⟩
      rw [Store.apply, hsel]
      rfl

end Reflects

end WaveSpan.Records
