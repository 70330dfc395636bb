/-
WaveSpan.Backup.Cut — repairing the pointers of a point-in-time cut
(`internal/recordstore/repair.go`).

A cut has all pointers of a store and the records up to a bound. The repair keeps a
pointer whose record is there, rebuilds the others from the records that are, and drops
those without records. `cut_repair` compares the outcome with a store that was only ever
given the records of the cut: both have the pointer of the winner among them
(`Records.Reflects`), so the repaired pointer is the other store's.

The repair reads the pointers up to the first key of the TTL index. A namespace of 255
bytes has its pointers behind that bound, and they are left dangling (`long_namespace_dangles`).
-/
import WaveSpan.Backup.Repaired
import WaveSpan.Records.Converge

namespace WaveSpan.Backup.Restore

open WaveSpan.Wire WaveSpan.Collections WaveSpan.Effect WaveSpan.Rows
open WaveSpan.Records (StoredRecord LatestPointer Version dataKey latestKey ttlKey MetaRow Disk
  Reflects Consistent PlainNamespace WinnerOf pointerOf keyed StoreCall)

/-! ## The cut -/

def metaRow : MetaRow → Row
  | .pointer lp => .latest lp
  | .ttl b => .bytes b

/-- The rows a store restored from a cut starts with. -/
def cutOps (T : Int64) (d : Disk) : List Write :=
  d.kvMeta.toList.map (fun r => .put (rowKey .kvMeta r.1) (metaRow r.2)) ++
    (d.kvData.toList.filter fun r => versionLEQ r.2.version T).map fun r =>
      .put (rowKey .kvData r.1) (.record r.2)

def cutStore (T : Int64) (d : Disk) : LocalStore := runOps ∅ (cutOps T d)

def inCut (T : Int64) : StoreCall → Bool
  | .apply rec _ => versionLEQ rec.version T
  | .reset _ => true

section
variable {T : Int64} {d : Disk}

/-- A cut has the pointers and the records up to the bound. -/
theorem mem_cutOps {op : Write} : op ∈ cutOps T d ↔
    (∃ k row, d.kvMeta[k]? = some row ∧ op = .put (rowKey .kvMeta k) (metaRow row)) ∨
      ∃ k rec, d.kvData[k]? = some rec ∧ versionLEQ rec.version T = true ∧
        op = .put (rowKey .kvData k) (.record rec) := by
  simp only [cutOps, List.mem_append, List.mem_map, List.mem_filter, Prod.exists,
    Std.ExtTreeMap.mem_toList_iff_getElem?_eq_some, and_assoc, eq_comm (b := op)]

/-- No two rows of a cut have one key. -/
theorem cutOps_agree : ∀ op ∈ cutOps T d, ∀ op' ∈ cutOps T d, op.key = op'.key →
    op.value = op'.value := by
  intro op hop op' hop' hkey
  rcases mem_cutOps.mp hop with ⟨k, m, hm, rfl⟩ | ⟨k, rec, hrec, -, rfl⟩ <;>
  rcases mem_cutOps.mp hop' with ⟨k', m', hm', rfl⟩ | ⟨k', rec', hrec', -, rfl⟩ <;>
  obtain ⟨hcf, rfl⟩ := rowKey_inj.mp hkey
  · rw [Option.some.inj (hm.symm.trans hm')]
  · cases hcf
  · cases hcf
  · rw [Option.some.inj (hrec.symm.trans hrec')]

theorem cutStore_meta {k : Bytes} {row : Row} :
    (cutStore T d)[rowKey .kvMeta k]? = some row ↔ ∃ m, d.kvMeta[k]? = some m ∧
      row = metaRow m := by
  rw [cutStore, getElem?_runOps_empty_iff cutOps_agree]
  constructor
  · rintro ⟨op, hop, hkey, hval⟩
    rcases mem_cutOps.mp hop with ⟨k', m, hm, rfl⟩ | ⟨k', rec, -, -, rfl⟩ <;>
    obtain ⟨hcf, rfl⟩ := rowKey_inj.mp hkey
    · exact ⟨m, hm, (Option.some.inj hval).symm⟩
    · cases hcf
  · rintro ⟨m, hm, rfl⟩
    exact ⟨_, mem_cutOps.mpr (.inl ⟨k, m, hm, rfl⟩), rfl, rfl⟩

theorem cutStore_data {k : Bytes} {row : Row} :
    (cutStore T d)[rowKey .kvData k]? = some row ↔
      ∃ rec, d.kvData[k]? = some rec ∧ versionLEQ rec.version T = true ∧ row = .record rec := by
  rw [cutStore, getElem?_runOps_empty_iff cutOps_agree]
  constructor
  · rintro ⟨op, hop, hkey, hval⟩
    rcases mem_cutOps.mp hop with ⟨k', m, -, rfl⟩ | ⟨k', rec, hrec, hle, rfl⟩ <;>
    obtain ⟨hcf, rfl⟩ := rowKey_inj.mp hkey
    · cases hcf
    · exact ⟨rec, hrec, hle, (Option.some.inj hval).symm⟩
  · rintro ⟨rec, hrec, hle, rfl⟩
    exact ⟨_, mem_cutOps.mpr (.inr ⟨k, rec, hrec, hle, rfl⟩), rfl, rfl⟩

end

/-! ## What a run leaves -/

/-- The records are those applied, and every live expiring one is indexed. -/
structure Filed (s : Records.Store) (S : Set StoredRecord) : Prop where
  data : ∀ k rec, s.disk.kvData[k]? = some rec →
    rec ∈ S ∧ k = dataKey rec.ns rec.logicalKey rec.version
  index : ∀ rec ∈ S, ∀ e, rec.expiresAtUnixMs = some e → rec.tombstone = false →
    s.disk.kvMeta[ttlKey e rec.ns rec.logicalKey]? ≠ none

theorem insert_ne_none {ν : Type} {m : GoMap ν} {k j : Bytes} {v : ν} (h : m[j]? ≠ none) :
    (m.insert k v)[j]? ≠ none := by
  rw [Std.ExtTreeMap.getElem?_insert]
  split
  · exact Option.some_ne_none v
  · exact h

/-- An apply files its record. -/
theorem Filed.apply {s s' : Records.Store} {S : Set StoredRecord} {rec : StoredRecord}
    {kind : Records.MutationKind} {v : Version} (happly : s.apply rec kind = some (v, s'))
    (h : Filed s S) : Filed s' (insert rec S) := by
  obtain ⟨sel, -, heq⟩ := Option.map_eq_some_iff.mp happly
  obtain ⟨-, rfl⟩ := Prod.mk.inj heq
  refine ⟨fun k r hr => ?_, fun r hr e he hlive => ?_⟩
  · rcases getElem?_insert_cases hr with hold | ⟨rfl, rfl⟩
    · exact ⟨Set.mem_insert_of_mem _ (h.data k r hold).1, (h.data k r hold).2⟩
    · exact ⟨Set.mem_insert _ _, rfl⟩
  · show (Records.Store.indexTTL rec _)[ttlKey e r.ns r.logicalKey]? ≠ none
    unfold Records.Store.indexTTL
    rcases hr with rfl | hr
    · simp [he, hlive]
    · have hold := h.index r hr e he hlive
      cases rec.expiresAtUnixMs with
      | none => exact insert_ne_none hold
      | some e' =>
        cases rec.tombstone with
        | true => exact insert_ne_none hold
        | false => exact insert_ne_none (insert_ne_none hold)

theorem filed_newStore (cluster member : Bytes) (clock : Records.Clock) (seq : Records.Sequencer) :
    Filed (Records.newStore {} cluster member clock seq) ∅ := by
  refine ⟨?_, ?_⟩ <;> simp [Records.newStore]

/-! ## The cut of a run -/

def upTo (T : Int64) (S : Set StoredRecord) : Set StoredRecord :=
  {r | r ∈ S ∧ versionLEQ r.version T = true}

theorem plain_of_short {ns : Bytes} (h : PlainNamespace ns) : Plain ns := by
  have hlen := h.short
  refine ⟨by omega, fun hs => ?_⟩
  have := hs.1
  omega

section
variable {T : Int64} {s sT : Records.Store} {S : Set StoredRecord} {ns key : Bytes}

/-- The records of a cut are those up to the bound. -/
theorem record?_cutStore (hF : Filed s S) (hR : Reflects s S) {v : Version} {rec : StoredRecord} :
    record? (cutStore T s.disk) ns key v = some rec ↔
      rec ∈ upTo T S ∧ rec.ns = ns ∧ rec.logicalKey = key ∧ rec.version = v := by
  rw [record?_iff, cutStore_data]
  constructor
  · rintro ⟨r, hr, hle, hrow⟩
    obtain rfl := Row.record.inj hrow
    obtain ⟨hmem, hk⟩ := hF.data _ _ hr
    obtain ⟨rfl, rfl, rfl⟩ := Records.dataKey_inj.mp hk
    exact ⟨⟨hmem, hle⟩, rfl, rfl, rfl⟩
  · rintro ⟨⟨hmem, hle⟩, rfl, rfl, rfl⟩
    exact ⟨rec, hR.data rec hmem, hle, rfl⟩

/-- A cut keeps every pointer. -/
theorem latest?_cutStore : latest? (cutStore T s.disk) ns key = s.pointer? ns key := by
  unfold Records.Store.pointer? latest?
  cases hrow : s.disk.kvMeta[latestKey ns key]? with
  | none =>
    have hnone : (cutStore T s.disk)[rowKey .kvMeta (latestKey ns key)]? = none := by
      by_contra hne
      obtain ⟨row, hr⟩ := Option.ne_none_iff_exists'.mp hne
      obtain ⟨m, hm, -⟩ := cutStore_meta.mp hr
      rw [hrow] at hm
      cases hm
    rw [hnone]
    rfl
  | some m =>
    rw [cutStore_meta.mpr ⟨m, hrow, rfl⟩]
    cases m <;> rfl

/-- A cut of a store is well kept. -/
theorem wellKept_cutStore (hF : Filed s S) (hR : Reflects s S)
    (hplain : ∀ r ∈ S, PlainNamespace r.ns) : WellKept (cutStore T s.disk) where
  data := by
    intro k row hrow
    obtain ⟨rec, hr, -, rfl⟩ := cutStore_data.mp hrow
    exact ⟨rec, rfl, (hF.data k rec hr).2⟩
  pointers := by
    intro k row hrow
    obtain ⟨m, hm, rfl⟩ := cutStore_meta.mp hrow
    rcases hR.rows hm with ⟨r, hr, rfl⟩ | ⟨r, hr, e, v, rfl, rfl⟩
    · obtain ⟨w, hw⟩ := hR.exists_winnerOf ⟨r, Records.mem_keyed_self.mpr hr⟩
      rw [hR.pointer hw] at hm
      obtain rfl := Option.some.inj hm
      exact .inl ⟨_, _, _, plain_of_short (hplain r hr), rfl, rfl⟩
    · exact .inr ⟨_, _, _, _, rfl, rfl⟩

/-- A winner among all records that is in the cut wins there. -/
theorem winnerOf_upTo {w : StoredRecord} (hw : WinnerOf S ns key w)
    (hle : versionLEQ w.version T = true) : WinnerOf (upTo T S) ns key w :=
  ⟨⟨⟨hw.mem.1, hle⟩, hw.mem.2⟩, fun _ hr => hw.le ⟨hr.1.1, hr.2⟩⟩

/-- The pointers of a repaired cut are those of a store that has only the cut. -/
theorem latest?_repaired_cut (hR : Reflects s S) (hF : Filed s S) (hRT : Reflects sT (upTo T S))
    (hcons : Consistent S) (hplain : ∀ r ∈ S, PlainNamespace r.ns) (ns key : Bytes) :
    latest? (repaired (cutStore T s.disk)) ns key = sT.pointer? ns key := by
  have hkept : WellKept (cutStore T s.disk) := wellKept_cutStore hF hR hplain
  have hmem : ∀ {rec}, rec ∈ recordsOf (cutStore T s.disk) ns key ↔
      rec ∈ keyed (upTo T S) ns key := by
    intro rec
    rw [hkept.mem_recordsOf, record?_cutStore hF hR]
    exact ⟨fun h => ⟨h.1, h.2.1, h.2.2.1⟩, fun h => ⟨h.1, h.2.1, h.2.2, rfl⟩⟩
  rcases (keyed S ns key).eq_empty_or_nonempty with hnone | hsome
  · -- A key that was never written.
    have hpointer : latest? (cutStore T s.disk) ns key = none := by
      rw [latest?_cutStore, hR.pointer?_of_none hnone]
    have hnoneT : keyed (upTo T S) ns key = ∅ :=
      Set.subset_empty_iff.mp (hnone ▸ Records.keyed_mono (fun _ hr => hr.1) ns key)
    rw [hRT.pointer?_of_none hnoneT]
    by_contra hne
    obtain ⟨lp, hlp⟩ := Option.ne_none_iff_exists'.mp hne
    obtain ⟨old, hold, -⟩ := hkept.of_repaired hlp
    rw [hpointer] at hold
    cases hold
  · obtain ⟨w, hw⟩ := hR.exists_winnerOf hsome
    have hpointer : latest? (cutStore T s.disk) ns key = some (pointerOf w) := by
      rw [latest?_cutStore, hR.pointer?_of_winner hw]
    have hrow := hkept.repaired_row hpointer
    unfold repairedRow at hrow
    split at hrow
    · -- The winner is in the cut.
      rename_i hpresent
      obtain ⟨rec, hrec⟩ := hkept.present.mp hpresent
      obtain ⟨⟨hrecS, hle⟩, hns, hkey, hv⟩ := (record?_cutStore hF hR).mp hrec
      obtain rfl : rec = w := hcons ns key ⟨hrecS, hns, hkey⟩ hw.mem hv
      rw [latest?_iff.mpr hrow, hRT.pointer?_of_winner (winnerOf_upTo hw hle)]
      rfl
    · cases hrecs : recordsOf (cutStore T s.disk) ns key with
      | nil =>
        have hnoneT : keyed (upTo T S) ns key = ∅ := by
          rw [Set.eq_empty_iff_forall_notMem]
          intro r hr
          have hin := hmem.mpr hr
          rw [hrecs] at hin
          cases hin
        rw [hrecs] at hrow
        rw [hRT.pointer?_of_none hnoneT]
        unfold latest?
        rw [hrow]
        rfl
      | cons r rs =>
        have hwin : WinnerOf (upTo T S) ns key (Records.Store.maxRecord r rs) := by
          refine ⟨hmem.mp (hrecs ▸ Records.OneKey.maxRecord_mem r rs), fun x hx => ?_⟩
          exact Records.OneKey.le_maxRecord r rs x (hrecs ▸ hmem.mpr hx)
        rw [hrecs] at hrow
        rw [latest?_iff.mpr hrow, hRT.pointer?_of_winner hwin]
        rfl

end

/-! ## The index -/

section
variable {s : LocalStore} {ns key : Bytes} {lp : LatestPointer}

/-- The repair of another key leaves the index entries of this one. -/
theorem repairOps_other {e : LPEntry} {op : Write} {t : Int64} (hplain : Plain e.ns)
    (hop : op ∈ repairOps s e) (hne : ¬ (e.ns = ns ∧ e.userKey = key)) :
    op.key ≠ rowKey .kvMeta (ttlKey t ns key) := by
  intro hkey
  rcases repairOps_cases hop with ⟨hkey', -⟩ | ⟨t', hkey', -⟩
  · rw [hkey', rowKey_inj] at hkey
    exact hplain.latestKey_ne_ttlKey hkey.2
  · rw [hkey', rowKey_inj, Records.ttlKey_inj] at hkey
    exact hne hkey.2.2

/-- Rebuilding writes the index entry after it has dropped the old one. -/
theorem runOps_repointOps {survivors : List StoredRecord} {nlp : LatestPointer} {t : Int64}
    (hr : rebuildLatestPointer survivors = some nlp) (hlive : nlp.tombstone = false)
    (ht : nlp.expiresAtUnixMs = some t) (m : LocalStore) :
    (runOps m (repointOps ns key lp survivors))[rowKey .kvMeta (ttlKey t ns key)]? =
      some (.bytes (Records.encodeVersion nlp.winner)) := by
  unfold repointOps
  rw [hr]
  simp only [putTTL, hlive, ht, Bool.false_eq_true, if_false]
  rw [runOps_append, ← List.singleton_append, runOps_append]
  exact Std.ExtTreeMap.getElem?_insert_self

/-- A live expiring pointer of the repaired store is indexed, if those it keeps were. -/
theorem WellKept.repaired_indexed (h : WellKept s) {t : Int64}
    (hlp : latest? (Restore.repaired s) ns key = some lp) (hlive : lp.tombstone = false)
    (ht : lp.expiresAtUnixMs = some t)
    (hindex : ∀ old, latest? s ns key = some old → Restore.present s ns key old.winner = true →
      old.tombstone = false → old.expiresAtUnixMs = some t →
        s[rowKey .kvMeta (ttlKey t ns key)]? ≠ none) :
    (Restore.repaired s)[rowKey .kvMeta (ttlKey t ns key)]? ≠ none := by
  have hplain := h.repaired.plain hlp
  obtain ⟨old, hold, hrow⟩ := h.of_repaired hlp
  -- Entries of the key are the one pointer there is.
  have hentry : ∀ e ∈ pointersOf s, e.ns = ns ∧ e.userKey = key → e = ⟨ns, key, old⟩ := by
    rintro e he ⟨rfl, rfl⟩
    have hsame := h.mem_pointersOf.mp he
    rw [hold] at hsame
    rw [Option.some.inj hsame]
  have hother : ∀ e ∈ pointersOf s, e ≠ ⟨ns, key, old⟩ → ∀ op ∈ repairOps s e,
      op.key ≠ rowKey .kvMeta (ttlKey t ns key) := fun e he hne op hop =>
    repairOps_other (h.plain (h.mem_pointersOf.mp he)) hop fun hk => hne (hentry e he hk)
  unfold repairedRow at hrow
  split at hrow
  · rename_i hpresent
    obtain rfl := Row.latest.inj (Option.some.inj hrow)
    unfold Restore.repaired
    rw [getElem?_runOps_of_forall_ne _ fun op hop => ?_]
    · exact hindex old hold hpresent hlive ht
    · obtain ⟨e, he, hop⟩ := List.mem_flatMap.mp hop
      by_cases hk : e = ⟨ns, key, old⟩
      · subst hk
        unfold repairOps at hop
        simp only [hpresent, if_true] at hop
        split at hop
        · cases hop
        · rw [List.mem_singleton.mp hop]
          exact fun heq => hplain.latestKey_ne_ttlKey (rowKey_inj.mp heq).2
      · exact hother e he hk op hop
  · rename_i hpresent
    obtain ⟨nlp, hr, hnlp⟩ := Option.map_eq_some_iff.mp hrow
    obtain rfl := Row.latest.inj hnlp
    have hself : ∀ m : LocalStore,
        (runOps m (repairOps s ⟨ns, key, old⟩))[rowKey .kvMeta (ttlKey t ns key)]? =
        some (.bytes (Records.encodeVersion nlp.winner)) := by
      intro m
      unfold repairOps
      simp only [hpresent, Bool.false_eq_true, if_false]
      exact runOps_repointOps hr hlive ht m
    unfold Restore.repaired
    rw [getElem?_runOps_flatMap hself hother (.inl (h.mem_pointersOf.mpr hold))]
    exact Option.some_ne_none _

/-- A repaired pointer names records that are there. -/
theorem WellKept.repaired_present (h : WellKept s)
    (hlp : latest? (Restore.repaired s) ns key = some lp) :
    Restore.present s ns key lp.winner = true ∧
      lp.siblingVersions.all (Restore.present s ns key) = true := by
  obtain ⟨old, -, hrow⟩ := h.of_repaired hlp
  unfold repairedRow at hrow
  split at hrow
  · rename_i hpresent
    obtain rfl := Row.latest.inj (Option.some.inj hrow)
    exact ⟨hpresent, by simp [List.all_eq_true]⟩
  · obtain ⟨nlp, hr, hnlp⟩ := Option.map_eq_some_iff.mp hrow
    obtain rfl := Row.latest.inj hnlp
    obtain ⟨⟨rec, hrec, -⟩, -⟩ := h.rebuilt hr
    refine ⟨h.present.mpr ⟨rec, hrec⟩, ?_⟩
    rw [List.all_eq_true]
    intro v hv
    obtain ⟨-, hin⟩ := List.mem_filter.mp hv
    obtain ⟨-, hin⟩ := of_decide_eq_true hin
    obtain ⟨r, hr, rfl⟩ := List.mem_map.mp hin
    exact h.present.mpr ⟨r, h.mem_recordsOf.mp hr⟩

/-- A second repair finds nothing to do. -/
theorem WellKept.repaired_again (h : WellKept s) :
    Restore.repaired (Restore.repaired s) = Restore.repaired s := by
  have hsame : ∀ ns key, Restore.present (Restore.repaired s) ns key =
      Restore.present s ns key := by
    intro ns key
    funext v
    unfold Restore.present
    rw [repaired_data]
  have hnone : (pointersOf (Restore.repaired s)).flatMap (repairOps (Restore.repaired s)) = [] := by
    rw [List.flatMap_eq_nil_iff]
    intro e he
    obtain ⟨hwinner, hsibs⟩ := h.repaired_present (h.repaired.mem_pointersOf.mp he)
    unfold repairOps
    rw [hsame, if_pos hwinner, if_pos hsibs]
  show runOps (Restore.repaired s) _ = _
  rw [hnone]
  rfl

end

/-! ## The repair -/

section
variable {T : Int64} {calls : List StoreCall} {ns key : Bytes}

theorem mem_recordsOf_inCut {r : StoredRecord} :
    r ∈ Records.recordsOf (calls.filter (inCut T)) ↔
      r ∈ upTo T {r | r ∈ Records.recordsOf calls} := by
  unfold Records.recordsOf upTo
  simp only [List.mem_filterMap, List.mem_filter, Set.mem_ofPred_eq]
  constructor
  · rintro ⟨call, ⟨hcall, hin⟩, hr⟩
    cases call with
    | apply rec kind =>
      obtain rfl := Option.some.inj hr
      exact ⟨⟨_, hcall, rfl⟩, hin⟩
    | reset stripe => cases hr
  · rintro ⟨⟨call, hcall, hr⟩, hle⟩
    cases call with
    | apply rec kind =>
      obtain rfl := Option.some.inj hr
      exact ⟨_, ⟨hcall, hle⟩, rfl⟩
    | reset stripe => cases hr

/-- A run from an empty store. -/
theorem reflects_filed (cluster member : Bytes) (clock : Records.Clock) (seq : Records.Sequencer)
    (calls : List StoreCall) (hcons : Consistent {r | r ∈ Records.recordsOf calls})
    (hplain : ∀ r ∈ Records.recordsOf calls, PlainNamespace r.ns) :
    Reflects ((Records.newStore {} cluster member clock seq).runCalls calls)
        {r | r ∈ Records.recordsOf calls} ∧
      Filed ((Records.newStore {} cluster member clock seq).runCalls calls)
        {r | r ∈ Records.recordsOf calls} := by
  have hrun := (Reflects.newStore cluster member clock seq).run_with
    (filed_newStore cluster member clock seq) Filed.apply (fun _ h => ⟨h.data, h.index⟩) calls
    (Set.empty_subset _) (fun _ hr => hr) hcons hplain
  rwa [Set.empty_union] at hrun

/-- A pointer is that of a winner. -/
theorem exists_winner_of_pointer? {s : Records.Store} {S : Set StoredRecord} {lp : LatestPointer}
    (hR : Reflects s S) (hlp : s.pointer? ns key = some lp) :
    ∃ w, WinnerOf S ns key w ∧ lp = pointerOf w := by
  rcases (keyed S ns key).eq_empty_or_nonempty with hnone | hsome
  · rw [hR.pointer?_of_none hnone] at hlp
    cases hlp
  · obtain ⟨w, hw⟩ := hR.exists_winnerOf hsome
    rw [hR.pointer?_of_winner hw] at hlp
    exact ⟨w, hw, (Option.some.inj hlp).symm⟩

/-- The index entry of a live expiring pointer. -/
theorem Filed.indexed {s : Records.Store} {S : Set StoredRecord} {lp : LatestPointer} {t : Int64}
    (hF : Filed s S) (hR : Reflects s S) (hlp : s.pointer? ns key = some lp)
    (hlive : lp.tombstone = false) (ht : lp.expiresAtUnixMs = some t) :
    s.disk.kvMeta[ttlKey t ns key]? ≠ none := by
  obtain ⟨w, ⟨⟨hw, rfl, rfl⟩, -⟩, rfl⟩ := exists_winner_of_pointer? hR hlp
  exact hF.index w hw t ht hlive

/-- Repairing a point-in-time cut: after any run of applies in plain namespaces, whose records
are determined by key and version, the repair ends; every key has the pointer it would have
had if only the records of the cut had been applied, and none if there are none; a live
expiring winner is indexed; and a second repair changes nothing. -/
theorem cut_repair (T : Int64) (calls : List StoreCall) (cluster member : Bytes)
    (clock : Records.Clock) (seq : Records.Sequencer)
    (hcons : Consistent {r | r ∈ Records.recordsOf calls})
    (hplain : ∀ r ∈ Records.recordsOf calls, PlainNamespace r.ns) :
    ∃ d, finish answer
        (cutStore T ((Records.newStore {} cluster member clock seq).runCalls calls).disk)
        repairCutMeta = (.ok (), d) ∧
      (∀ ns key, latest? d ns key =
        ((Records.newStore {} cluster member clock seq).runCalls
          (calls.filter (inCut T))).pointer? ns key) ∧
      (∀ ns key, (∀ r ∈ Records.recordsOf calls, r.ns = ns → r.logicalKey = key →
          versionLEQ r.version T = false) → latest? d ns key = none) ∧
      (∀ ns key lp t, latest? d ns key = some lp → lp.tombstone = false →
        lp.expiresAtUnixMs = some t →
          d[rowKey .kvMeta (ttlKey t ns key)]? ≠ none ∧
          ((Records.newStore {} cluster member clock seq).runCalls
            (calls.filter (inCut T))).disk.kvMeta[ttlKey t ns key]? ≠ none) ∧
      ∃ d', finish answer d repairCutMeta = (.ok (), d') ∧ d' = d := by
  obtain ⟨hR, hF⟩ := reflects_filed cluster member clock seq calls hcons hplain
  have hset : {r | r ∈ Records.recordsOf (calls.filter (inCut T))} =
      upTo T {r | r ∈ Records.recordsOf calls} := Set.ext fun _ => mem_recordsOf_inCut
  have hsub : upTo T {r | r ∈ Records.recordsOf calls} ⊆ {r | r ∈ Records.recordsOf calls} :=
    fun _ hr => hr.1
  obtain ⟨hRT, hFT⟩ := reflects_filed cluster member clock seq (calls.filter (inCut T))
    (by rw [hset]; exact fun ns key => (hcons ns key).mono (Records.keyed_mono hsub ns key))
    fun r hr => hplain r (mem_recordsOf_inCut.mp hr).1
  rw [hset] at hRT hFT
  generalize (Records.newStore {} cluster member clock seq).runCalls calls = s at hR hF ⊢
  generalize (Records.newStore {} cluster member clock seq).runCalls
    (calls.filter (inCut T)) = sT at hRT hFT ⊢
  have hkept : WellKept (cutStore T s.disk) := wellKept_cutStore hF hR hplain
  have hpointers := latest?_repaired_cut hR hF hRT hcons hplain
  obtain ⟨⟨⟩, d, hend, hd⟩ := (leaves_repairCutMeta (d := cutStore T s.disk)).ends
  obtain ⟨⟨⟩, d', hend', hd'⟩ := (leaves_repairCutMeta (d := d)).ends
  refine ⟨d, hend, ?_, ?_, ?_, d', hend', ?_⟩
  · intro ns key
    rw [hd]
    exact hpointers ns key
  · intro ns key hnone
    rw [hd, hpointers ns key]
    refine hRT.pointer?_of_none (Set.eq_empty_iff_forall_notMem.mpr ?_)
    rintro r ⟨⟨hr, hle⟩, hns, hkey⟩
    rw [hnone r hr hns hkey] at hle
    cases hle
  · intro ns key lp t hlp hlive ht
    rw [hd] at hlp ⊢
    refine ⟨hkept.repaired_indexed hlp hlive ht fun old hold _ hlive' ht' => ?_, ?_⟩
    · rw [latest?_cutStore] at hold
      obtain ⟨m, hm⟩ := Option.ne_none_iff_exists'.mp (hF.indexed hR hold hlive' ht')
      rw [cutStore_meta.mpr ⟨m, hm, rfl⟩]
      exact Option.some_ne_none _
    · rw [hpointers ns key] at hlp
      exact hFT.indexed hRT hlp hlive ht
  · rw [hd', hd, hkept.repaired_again]

end

/-! ## Two writes -/

/-- A live expiring write of a key within the cut, and a delete from after it. -/
def writeDelete (ns : Bytes) : List StoreCall :=
  [.apply { ns, logicalKey := [0x6b], value := .inline [7], version := { hlcPhysicalMs := 1 }
            expiresAtUnixMs := some 90000 } .put,
    .apply { ns, logicalKey := [0x6b], version := { hlcPhysicalMs := 5 }
             tombstone := true } .delete]

def pointerAfterCut (ns : Bytes) : Option LatestPointer :=
  latest? (finish answer
    (cutStore 3 ((Records.newStore {} [] [] (Records.newClock 500)
      (Records.newSequencer 0)).runCalls (writeDelete ns)).disk) repairCutMeta).2 ns [0x6b]

/-- In a plain namespace the cut brings back the write. -/
theorem cut_repair_undeleted :
    pointerAfterCut [0x6e] = ((Records.newStore {} [] [] (Records.newClock 500)
        (Records.newSequencer 0)).runCalls ((writeDelete [0x6e]).filter (inCut 3))).pointer?
          [0x6e] [0x6b] ∧
      (pointerAfterCut [0x6e]).map (fun lp => lp.winner.hlcPhysicalMs) = some 1 := by
  have hcons : Consistent {r | r ∈ Records.recordsOf (writeDelete [0x6e])} := by
    have hdec : ∀ x ∈ Records.recordsOf (writeDelete [0x6e]),
        ∀ y ∈ Records.recordsOf (writeDelete [0x6e]), x.version = y.version → x = y := by decide
    exact fun ns key x hx y hy => hdec x hx.1 y hy.1
  obtain ⟨d, hend, hpointers, -⟩ := cut_repair 3 (writeDelete [0x6e]) [] [] (Records.newClock 500)
    (Records.newSequencer 0) hcons (by decide)
  refine ⟨?_, by decide +kernel⟩
  unfold pointerAfterCut
  rw [hend]
  exact hpointers [0x6e] [0x6b]

/-- In a namespace of 255 bytes the pointer still names the delete, which was cut off. -/
theorem long_namespace_dangles :
    (pointerAfterCut (List.replicate 255 0x61)).map (fun lp => lp.winner.hlcPhysicalMs) = some 5 ∧
      (((Records.newStore {} [] [] (Records.newClock 500) (Records.newSequencer 0)).runCalls
        ((writeDelete (List.replicate 255 0x61)).filter (inCut 3))).pointer?
          (List.replicate 255 0x61) [0x6b]).map (fun lp => lp.winner.hlcPhysicalMs) = some 1 := by
  exact ⟨by decide +kernel, by decide +kernel⟩

end WaveSpan.Backup.Restore
