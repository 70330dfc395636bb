/-
WaveSpan.Backup.Repaired — what the repair of latest pointers leaves in a store.

The repair looks at every pointer below the TTL index. One whose record is there keeps it and the
siblings that are there; one whose record is missing is rebuilt from the records of its key, or
deleted if there are none (`repairedRow`). In a store with the rows a record store writes, a pointer
is repaired once and no write of the repair falls on another pointer (`WellKept.repaired_row`,
`WellKept.repaired_none`).
-/
import WaveSpan.Backup.Replay
import WaveSpan.Records.OneKey

namespace WaveSpan.Backup.Restore

open WaveSpan.Wire WaveSpan.Collections WaveSpan.Effect WaveSpan.Rows
open WaveSpan.Records (StoredRecord LatestPointer Version dataKey latestKey ttlKey)

/-! ## Pointers and records -/

def latest? (s : LocalStore) (ns key : Bytes) : Option LatestPointer :=
  s[rowKey .kvMeta (latestKey ns key)]?.bind decodeLatest

def record? (s : LocalStore) (ns key : Bytes) (v : Version) : Option StoredRecord :=
  s[rowKey .kvData (dataKey ns key v)]?.bind decodeStoredRecord

/-- The pointer has what it should have of the record. -/
structure Summarises (lp : LatestPointer) (rec : StoredRecord) : Prop where
  winner : lp.winner = rec.version
  tombstone : lp.tombstone = rec.tombstone
  expires : lp.expiresAtUnixMs = rec.expiresAtUnixMs
  inline : lp.inlineValue = Records.inlineValue rec

/-- A namespace whose pointers are clear of the TTL index. -/
def Plain (ns : Bytes) : Prop := ns.length < 2 ^ 64 ∧ ¬ Records.StartsWithSentinel ns.length

/-- The rows of the two families are those a record store writes. -/
structure WellKept (s : LocalStore) : Prop where
  data : ∀ k row, s[rowKey .kvData k]? = some row →
    ∃ rec, row = .record rec ∧ k = dataKey rec.ns rec.logicalKey rec.version
  pointers : ∀ k row, s[rowKey .kvMeta k]? = some row →
    (∃ ns key lp, Plain ns ∧ k = latestKey ns key ∧ row = .latest lp) ∨
      ∃ e ns key b, k = ttlKey e ns key ∧ row = .bytes b

section
variable {s : LocalStore} {ns key : Bytes} {v : Version} {rec : StoredRecord} {lp : LatestPointer}

theorem Plain.latestKey_ne_ttlKey (h : Plain ns) {e : Int64} {ns' key' : Bytes} :
    latestKey ns key ≠ ttlKey e ns' key' := by
  intro heq
  have hspace : Records.namespacePrefix ns <+: latestKey ns key :=
    Records.namespacePrefix_isPrefix.mpr rfl
  rw [heq] at hspace
  exact Records.namespacePrefix_not_ttl h.2 e ns' key' hspace

theorem record?_iff : record? s ns key v = some rec ↔
    s[rowKey .kvData (dataKey ns key v)]? = some (.record rec) := by
  unfold record?
  cases s[rowKey .kvData (dataKey ns key v)]? with
  | none => simp
  | some row => cases row <;> simp [decodeStoredRecord]

theorem latest?_iff : latest? s ns key = some lp ↔
    s[rowKey .kvMeta (latestKey ns key)]? = some (.latest lp) := by
  unfold latest?
  cases s[rowKey .kvMeta (latestKey ns key)]? with
  | none => simp
  | some row => cases row <;> simp [decodeLatest]

/-- A record lies under its own key. -/
theorem WellKept.record (h : WellKept s) (hr : record? s ns key v = some rec) :
    rec.ns = ns ∧ rec.logicalKey = key ∧ rec.version = v := by
  obtain ⟨rec', hrow, hk⟩ := h.data _ _ (record?_iff.mp hr)
  obtain rfl := Row.record.inj hrow
  obtain ⟨rfl, rfl, rfl⟩ := Records.dataKey_inj.mp hk
  exact ⟨rfl, rfl, rfl⟩

theorem WellKept.plain (h : WellKept s) (hlp : latest? s ns key = some lp) : Plain ns := by
  rcases h.pointers _ _ (latest?_iff.mp hlp) with
    ⟨ns', key', lp', hplain, hk, -⟩ | ⟨e, ns', key', b, -, hrow⟩
  · obtain ⟨rfl, rfl⟩ := Records.latestKey_inj.mp hk
    exact hplain
  · cases hrow

/-- A version is present if its record is. -/
theorem WellKept.present (h : WellKept s) :
    present s ns key v = true ↔ ∃ rec, record? s ns key v = some rec := by
  unfold Restore.present
  simp only [record?_iff]
  cases hrow : s[rowKey .kvData (dataKey ns key v)]? with
  | none => simp
  | some row =>
    obtain ⟨rec, rfl, -⟩ := h.data _ _ hrow
    simp

/-- Where a pointer is missing there is no row at all. -/
theorem WellKept.no_row (h : WellKept s) (hns : Plain ns) (hnone : latest? s ns key = none) :
    s[rowKey .kvMeta (latestKey ns key)]? = none := by
  by_contra hne
  obtain ⟨row, hrow⟩ := Option.ne_none_iff_exists'.mp hne
  rcases h.pointers _ _ hrow with ⟨ns', key', lp, -, -, rfl⟩ | ⟨e, ns', key', b, hk, -⟩
  · rw [latest?_iff.mpr hrow] at hnone
    cases hnone
  · exact hns.latestKey_ne_ttlKey hk

end

/-! ## Scans -/

section
variable {s : LocalStore} {cf : ColumnFamily} {ns key : Bytes}

theorem mem_scanRows {start : Bytes} {stop : Option Bytes} {k : Bytes} {row : Row} :
    (k, row) ∈ scanRows s cf start stop ↔
      s[rowKey cf k]? = some row ∧ inRange start stop k = true := by
  unfold scanRows
  rw [List.mem_filterMap]
  constructor
  · rintro ⟨⟨k', row'⟩, hmem, hr⟩
    cases k' with
    | nil => cases hr
    | cons t k' =>
      simp only [Option.ite_none_right_eq_some, Option.some.injEq, Prod.mk.injEq] at hr
      obtain ⟨⟨rfl, hin⟩, rfl, rfl⟩ := hr
      exact ⟨Std.ExtTreeMap.mem_toList_iff_getElem?_eq_some.mp hmem, hin⟩
  · rintro ⟨hrow, hin⟩
    exact ⟨(rowKey cf k, row), Std.ExtTreeMap.mem_toList_iff_getElem?_eq_some.mpr hrow,
      by simp [rowKey, hin]⟩

/-- The records of a key are read back one by one. -/
theorem WellKept.mem_recordsOf (h : WellKept s) {rec : StoredRecord} :
    rec ∈ recordsOf s ns key ↔ record? s ns key rec.version = some rec := by
  unfold recordsOf
  rw [List.mem_filterMap]
  constructor
  · rintro ⟨⟨k, row⟩, hmem, hdec⟩
    obtain ⟨hrow, hin⟩ := mem_scanRows.mp hmem
    obtain ⟨rec', rfl, hk⟩ := h.data k row hrow
    obtain rfl := Option.some.inj hdec
    rw [inRange_prefixEnd, hk] at hin
    obtain ⟨rfl, rfl⟩ := Records.dataKeyPrefix_isPrefix.mp hin
    exact record?_iff.mpr (by rw [← hk]; exact hrow)
  · intro hr
    refine ⟨(dataKey ns key rec.version, .record rec), mem_scanRows.mpr ⟨record?_iff.mp hr, ?_⟩,
      rfl⟩
    rw [inRange_prefixEnd]
    exact Records.dataKeyPrefix_isPrefix.mpr ⟨rfl, rfl⟩

/-- A pointer lies before the index. -/
theorem Plain.inRange (h : Plain ns) :
    inRange [] (some Records.ttlLowBound) (latestKey ns key) = true := by
  obtain ⟨b, bs, hkey, hlt⟩ := Records.latestKey_first h.2 key
  have hbyte : compare b Records.ttlSentinel = .lt := compare_byte_lt.mpr hlt
  have hcmp : compare (b :: bs) Records.ttlLowBound = .lt := by
    rw [Records.ttlLowBound, compare_cons_cons, hbyte]
    rfl
  rw [hkey]
  simp [Collections.inRange, hcmp]

/-- The repair looks at every pointer, under its own key. -/
theorem WellKept.mem_pointersOf (h : WellKept s) {e : LPEntry} :
    e ∈ pointersOf s ↔ latest? s e.ns e.userKey = some e.lp := by
  unfold pointersOf lpEntries
  rw [List.mem_filterMap]
  constructor
  · rintro ⟨⟨k, row⟩, hmem, he⟩
    obtain ⟨hrow, -⟩ := mem_scanRows.mp hmem
    rcases h.pointers k row hrow with ⟨ns, key, lp, hplain, rfl, rfl⟩ | ⟨_, ns, key, b, -, rfl⟩
    · rw [Records.parseLatestKey_latestKey hplain.1] at he
      obtain rfl := Option.some.inj he
      exact latest?_iff.mpr hrow
    · cases hp : Records.parseLatestKey k with
      | none => simp [hp] at he
      | some p => simp [hp, decodeLatest] at he
  · intro hlp
    have hplain := h.plain hlp
    refine ⟨(latestKey e.ns e.userKey, .latest e.lp), mem_scanRows.mpr ⟨latest?_iff.mp hlp,
      hplain.inRange⟩, ?_⟩
    rw [Records.parseLatestKey_latestKey hplain.1]
    rfl

end

/-! ## The repair -/

def repairedRow (s : LocalStore) (ns key : Bytes) (lp : LatestPointer) : Option Row :=
  if present s ns key lp.winner then
    some (.latest { lp with siblingVersions := lp.siblingVersions.filter (present s ns key) })
  else
    (rebuildLatestPointer (recordsOf s ns key)).map fun nlp =>
      .latest { nlp with
        siblingVersions := survivingSiblings lp.siblingVersions
          ((recordsOf s ns key).map StoredRecord.version) nlp.winner }

section
variable {s : LocalStore} {ns key : Bytes} {lp : LatestPointer} {e : LPEntry} {op : Write}

/-- A write of the repair is the pointer's or one of the index. -/
theorem repairOps_cases (hop : op ∈ repairOps s e) :
    (op.key = rowKey .kvMeta (latestKey e.ns e.userKey) ∧
        op.value = repairedRow s e.ns e.userKey e.lp) ∨
      ∃ t, op.key = rowKey .kvMeta (ttlKey t e.ns e.userKey) ∧
        ∀ row, op.value = some row → ∃ b, row = .bytes b := by
  unfold repairOps at hop
  split at hop
  · rename_i hpresent
    split at hop
    · cases hop
    · rw [List.mem_singleton.mp hop]
      exact .inl ⟨rfl, by simp [putLatest, Op.value, repairedRow, hpresent]⟩
  · rename_i hpresent
    unfold repointOps at hop
    rcases List.mem_append.mp hop with hop | hop
    · split at hop
      · rw [List.mem_singleton.mp hop]
        exact .inr ⟨_, rfl, nofun⟩
      · cases hop
    · split at hop
      · rename_i hnone
        rw [List.mem_singleton.mp hop]
        exact .inl ⟨rfl, by simp [Op.value, repairedRow, hpresent, hnone]⟩
      · rename_i nlp hnlp
        rcases List.mem_cons.mp hop with rfl | hop
        · exact .inl ⟨rfl, by simp [putLatest, Op.value, repairedRow, hpresent, hnlp]⟩
        · unfold putTTL at hop
          split at hop
          · split at hop
            · cases hop
            · rw [List.mem_singleton.mp hop]
              exact .inr ⟨_, rfl, fun row hrow => ⟨_, (Option.some.inj hrow).symm⟩⟩
          · cases hop

/-- Without a write of the pointer it stands as it is. -/
theorem repairedRow_of_no_write
    (h : ∀ op ∈ repairOps s ⟨ns, key, lp⟩, op.key ≠ rowKey .kvMeta (latestKey ns key)) :
    repairedRow s ns key lp = some (.latest lp) := by
  unfold repairOps at h
  split at h
  · rename_i hpresent
    split at h
    · rename_i hall
      have hfilter : lp.siblingVersions.filter (present s ns key) = lp.siblingVersions :=
        List.filter_eq_self.mpr (List.all_eq_true.mp hall)
      simp only [repairedRow, hpresent, if_true, hfilter]
    · exact absurd rfl (h _ (List.mem_singleton_self _))
  · cases hr : rebuildLatestPointer (recordsOf s ns key) with
    | none =>
      refine absurd rfl (h (.del (rowKey .kvMeta (latestKey ns key))) ?_)
      simp [repointOps, hr]
    | some nlp =>
      refine absurd rfl (h (putLatest ns key { nlp with
        siblingVersions := survivingSiblings lp.siblingVersions
          ((recordsOf s ns key).map StoredRecord.version) nlp.winner }) ?_)
      simp [repointOps, hr]

/-- Every write of the repair is for some pointer. -/
theorem mem_repairs {op : Write} (hop : op ∈ (pointersOf s).flatMap (repairOps s))
    (h : WellKept s) :
    ∃ e, latest? s e.ns e.userKey = some e.lp ∧ op ∈ repairOps s e := by
  obtain ⟨e, he, hop⟩ := List.mem_flatMap.mp hop
  exact ⟨e, h.mem_pointersOf.mp he, hop⟩

/-- What the repair writes under a pointer's key. -/
theorem WellKept.repair_of_key (h : WellKept s) (hns : Plain ns) {op : Write}
    (hop : op ∈ (pointersOf s).flatMap (repairOps s))
    (hkey : op.key = rowKey .kvMeta (latestKey ns key)) :
    ∃ lp, latest? s ns key = some lp ∧ op.value = repairedRow s ns key lp := by
  obtain ⟨e, he, hop⟩ := mem_repairs hop h
  rcases repairOps_cases hop with ⟨hkey', hval⟩ | ⟨t, hkey', -⟩
  · rw [hkey', rowKey_inj, Records.latestKey_inj] at hkey
    obtain ⟨-, rfl, rfl⟩ := hkey
    exact ⟨e.lp, he, hval⟩
  · rw [hkey', rowKey_inj] at hkey
    exact absurd hkey.2.symm hns.latestKey_ne_ttlKey

/-- The repair, pointer by pointer. -/
theorem WellKept.repaired_row (h : WellKept s) (hlp : latest? s ns key = some lp) :
    (repaired s)[rowKey .kvMeta (latestKey ns key)]? = repairedRow s ns key lp := by
  have hagree : ∀ op ∈ (pointersOf s).flatMap (repairOps s),
      op.key = rowKey .kvMeta (latestKey ns key) → op.value = repairedRow s ns key lp := by
    intro op hop hkey
    obtain ⟨lp', hlp', hval⟩ := h.repair_of_key (h.plain hlp) hop hkey
    rw [hval, Option.some.inj (hlp'.symm.trans hlp)]
  unfold repaired
  by_cases hsome : ∃ op ∈ (pointersOf s).flatMap (repairOps s),
      op.key = rowKey .kvMeta (latestKey ns key)
  · exact getElem?_runOps_of_agree _ hagree hsome
  · have hnone : ∀ op ∈ (pointersOf s).flatMap (repairOps s),
        op.key ≠ rowKey .kvMeta (latestKey ns key) := fun op hop hkey => hsome ⟨op, hop, hkey⟩
    have hown : ∀ op ∈ repairOps s ⟨ns, key, lp⟩, op.key ≠ rowKey .kvMeta (latestKey ns key) :=
      fun op hop => hnone op (List.mem_flatMap.mpr ⟨⟨ns, key, lp⟩, h.mem_pointersOf.mpr hlp, hop⟩)
    rw [getElem?_runOps_of_forall_ne _ hnone, repairedRow_of_no_write hown]
    exact latest?_iff.mp hlp

/-- The repair makes up no pointer. -/
theorem WellKept.repaired_none (h : WellKept s) (hns : Plain ns) (hnone : latest? s ns key = none) :
    (repaired s)[rowKey .kvMeta (latestKey ns key)]? = none := by
  unfold repaired
  rw [getElem?_runOps_of_forall_ne _ fun op hop hkey => ?_]
  · exact h.no_row hns hnone
  · obtain ⟨lp, hlp, -⟩ := h.repair_of_key hns hop hkey
    rw [hnone] at hlp
    cases hlp

/-- The repair leaves the records alone. -/
theorem repaired_data (s : LocalStore) (k : Bytes) :
    (repaired s)[rowKey .kvData k]? = s[rowKey .kvData k]? := by
  have hne : ColumnFamily.kvMeta ≠ .kvData := nofun
  refine OfFamily.other (fun op hop => ?_) hne s k
  obtain ⟨e, -, hop⟩ := List.mem_flatMap.mp hop
  rcases repairOps_cases hop with ⟨hkey, -⟩ | ⟨t, hkey, -⟩
  · exact ⟨_, hkey⟩
  · exact ⟨_, hkey⟩

theorem repairedRow_latest {row : Row} (h : repairedRow s ns key lp = some row) :
    ∃ lp', row = .latest lp' := by
  unfold repairedRow at h
  split at h
  · exact ⟨_, (Option.some.inj h).symm⟩
  · obtain ⟨nlp, -, rfl⟩ := Option.map_eq_some_iff.mp h
    exact ⟨_, rfl⟩

/-- A repaired store is well kept. -/
theorem WellKept.repaired (h : WellKept s) : WellKept (repaired s) where
  data := by
    intro k row hrow
    rw [repaired_data] at hrow
    exact h.data k row hrow
  pointers := by
    intro k row hrow
    rcases getElem?_runOps_cases hrow with hold | ⟨op, hop, hkey, hval⟩
    · exact h.pointers k row hold
    · obtain ⟨e, he, hop⟩ := mem_repairs hop h
      rcases repairOps_cases hop with ⟨hkey', hval'⟩ | ⟨t, hkey', hbytes⟩
      · rw [hkey', rowKey_inj] at hkey
        obtain ⟨lp', rfl⟩ := repairedRow_latest (hval'.symm.trans hval)
        exact .inl ⟨e.ns, e.userKey, lp', h.plain he, hkey.2.symm, rfl⟩
      · rw [hkey', rowKey_inj] at hkey
        obtain ⟨b, rfl⟩ := hbytes row hval
        exact .inr ⟨t, e.ns, e.userKey, b, hkey.2.symm, rfl⟩

/-- A pointer of the repaired store is the repair of one there was. -/
theorem WellKept.of_repaired (h : WellKept s)
    (hlp : latest? (Restore.repaired s) ns key = some lp) :
    ∃ old, latest? s ns key = some old ∧ repairedRow s ns key old = some (.latest lp) := by
  cases hold : latest? s ns key with
  | none =>
    have hrow := h.repaired_none (h.repaired.plain hlp) hold
    rw [latest?_iff.mp hlp] at hrow
    cases hrow
  | some old => exact ⟨old, rfl, h.repaired_row hold ▸ latest?_iff.mp hlp⟩

/-- A pointer that is rebuilt names the maximum. -/
theorem WellKept.rebuilt (h : WellKept s) {nlp : LatestPointer}
    (hr : rebuildLatestPointer (recordsOf s ns key) = some nlp) :
    (∃ rec, record? s ns key nlp.winner = some rec ∧ Summarises nlp rec) ∧
      ∀ v rec, record? s ns key v = some rec → v ≤ nlp.winner := by
  cases hrecs : recordsOf s ns key with
  | nil =>
    rw [hrecs] at hr
    cases hr
  | cons r rs =>
    rw [hrecs] at hr
    obtain rfl := Option.some.inj hr
    have hmem := Records.OneKey.maxRecord_mem r rs
    rw [← hrecs] at hmem
    refine ⟨⟨_, h.mem_recordsOf.mp hmem, rfl, rfl, rfl, rfl⟩, fun v rec hrec => ?_⟩
    obtain ⟨-, -, rfl⟩ := h.record hrec
    exact Records.OneKey.le_maxRecord r rs rec (by rw [← hrecs]; exact h.mem_recordsOf.mpr hrec)

end

/-! ## A node's export -/

def exportRow (captureMs : Int64) (src : LocalStore) (cf : ColumnFamily) (k : Bytes) : Option Row :=
  src[rowKey cf k]?.filter fun row => exported captureMs cf (k, row)

section
variable {captureMs : Int64} {ri : RestoreInfo} {src s : LocalStore} {cf : ColumnFamily}

/-- The rows that are exported. -/
theorem mem_exportPairs {k : Bytes} {row : Row} :
    (k, row) ∈ exportPairs captureMs src cf ↔ exportRow captureMs src cf k = some row := by
  unfold exportPairs exportRow
  rw [List.mem_filter, mem_scanRows, Option.filter_eq_some_iff]
  have hall : Collections.inRange [] none k = true := by cases k <;> simp [Collections.inRange]
  simp [hall]

/-- A family whose rows keep their keys is restored as it is. -/
theorem getElem?_nodeOps_of_kept (hcf : cf ∈ authoritativeCFs)
    (hto : ∀ k t, targetKey cf ri k = .ok (some t) → t = k) {k : Bytes}
    (hk : targetKey cf ri k = .ok (some k)) :
    (runOps s (nodeOps captureMs ri src))[rowKey cf k]? =
      (exportRow captureMs src cf k).or s[rowKey cf k]? := by
  have hwrites : ∀ op ∈ nodeOps captureMs ri src, op.key = rowKey cf k →
      ∃ row, exportRow captureMs src cf k = some row ∧ op.value = some row := by
    intro op hop hkey
    obtain ⟨cf', -, hop⟩ := List.mem_flatMap.mp hop
    obtain ⟨⟨k', row⟩, hkv, hop⟩ := List.mem_flatMap.mp hop
    unfold pairOps at hop
    split at hop
    · rename_i target ht
      obtain rfl := List.mem_singleton.mp hop
      obtain ⟨rfl, rfl⟩ := rowKey_inj.mp hkey
      obtain rfl := hto _ _ ht
      exact ⟨row, mem_exportPairs.mp hkv, rfl⟩
    · cases hop
  cases hrow : exportRow captureMs src cf k with
  | none =>
    rw [Option.none_or]
    refine getElem?_runOps_of_forall_ne _ fun op hop hkey => ?_
    obtain ⟨row, hrow', -⟩ := hwrites op hop hkey
    rw [hrow] at hrow'
    cases hrow'
  | some row =>
    rw [Option.some_or]
    refine getElem?_runOps_of_agree _ (fun op hop hkey => ?_) ⟨.put (rowKey cf k) row, ?_, rfl⟩
    · obtain ⟨row', hrow', hval⟩ := hwrites op hop hkey
      rw [hrow] at hrow'
      rw [hval, hrow']
    · refine List.mem_flatMap.mpr ⟨cf, hcf, List.mem_flatMap.mpr
        ⟨(k, row), mem_exportPairs.mpr hrow, ?_⟩⟩
      simp [pairOps, hk]

end

end WaveSpan.Backup.Restore
