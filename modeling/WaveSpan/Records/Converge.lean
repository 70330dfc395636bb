/-
WaveSpan.Records.Converge — last write wins across stores
(`internal/recordstore/store.go`).

A run is a sequence of `apply` calls with the cache of any stripe emptied at any
point. A store that was given a set of records reports the winner of each key,
whatever the order and the repetitions: through the pointer, through `get` and
`getRecord`, and through the two scans (`Reports`). Two stores that were given
the same set therefore agree.

`cache_collision` is why plain namespaces are asked for: two keys whose
namespaces and keys meet in the same bytes share one cache entry, and a record
older than a key's winner is taken for the newest.
-/
import WaveSpan.Records.Winner

namespace WaveSpan.Records

open WaveSpan.Wire WaveSpan.Collections WaveSpan.Lww

/-! ## Reads of a winner -/

/-- What a read of a key says when `w` is its winner. -/
def outcomeOf (w : StoredRecord) : Store.GetOutcome :=
  { found := !w.tombstone, value := if w.tombstone then [] else w.value.getInline,
    version := w.version, tombstone := w.tombstone, conflictNone := true,
    expiresAtMs := w.expiresAtUnixMs }

/-- The row a scan shows for a key when `w` is its winner. -/
def scanRowOf (w : StoredRecord) : Store.ScanRow :=
  { key := w.logicalKey, value := w.value.getInline, version := w.version,
    expiresAtMs := w.expiresAtUnixMs }

/-- A copied value is the record's own. -/
theorem inlineValue_eq_some {w : StoredRecord} {v : Bytes} (h : inlineValue w = some v) :
    v = w.value.getInline := by
  unfold inlineValue at h
  split at h
  · cases h
  · cases hv : w.value with
    | unset => rw [hv] at h; cases h
    | inline b =>
      rw [hv] at h
      simp only at h
      split at h
      · cases h
      · exact (Option.some.inj h).symm
    | external uri size checksum => rw [hv] at h; cases h

/-- Every read of `w`'s key reports `w`: the pointer, the two point reads, and the
two scans wherever the key is in range. -/
structure Reports (s : Store) (w : StoredRecord) : Prop where
  pointer : s.pointer? w.ns w.logicalKey = some (pointerOf w)
  getRecord : s.getRecord w.ns w.logicalKey = some w
  get : s.get w.ns w.logicalKey = some (outcomeOf w)
  scanRecords : ∀ start stop r, r ∈ s.scanRecords w.ns start stop → r.logicalKey = w.logicalKey →
    r = w
  mem_scanRecords : ∀ start stop, inRange start stop w.logicalKey = true →
    w ∈ s.scanRecords w.ns start stop
  scanRange : ∀ start stop limit nowMs row, row ∈ s.scanRange w.ns start stop limit nowMs →
    row.key = w.logicalKey → row = scanRowOf w ∧ Store.hidden (pointerOf w) nowMs = false
  mem_scanRange : ∀ start stop nowMs, inRange start stop w.logicalKey = true →
    Store.hidden (pointerOf w) nowMs = false → scanRowOf w ∈ s.scanRange w.ns start stop 0 nowMs

/-- A read through a record's own pointer reports the record. -/
theorem Store.get_of_pointer {s : Store} {w : StoredRecord}
    (hrow : s.disk.kvMeta[latestKey w.ns w.logicalKey]? = some (.pointer (pointerOf w)))
    (hdata : s.disk.kvData[dataKey w.ns w.logicalKey w.version]? = some w) :
    s.get w.ns w.logicalKey = some (outcomeOf w) := by
  unfold Store.get outcomeOf
  rw [hrow]
  simp only [decodeLatestPointer, Option.bind_eq_bind, Option.bind_some, pointerOf, hdata]
  cases ht : w.tombstone with
  | true => simp
  | false =>
    cases hi : inlineValue w with
    | none => simp
    | some v => simp [inlineValue_eq_some hi]

namespace Reflects

variable {s : Store} {S : Set StoredRecord} {ns key : Bytes} {w : StoredRecord}

/-- The pointer is the winner's. -/
theorem pointer?_of_winner (h : Reflects s S) (hw : WinnerOf S ns key w) :
    s.pointer? ns key = some (pointerOf w) := by
  unfold Store.pointer?
  rw [h.pointer hw]
  rfl

theorem getRecord_of_winner (h : Reflects s S) (hw : WinnerOf S ns key w) :
    s.getRecord ns key = some w := by
  obtain ⟨hmem, rfl, rfl⟩ := hw.mem
  unfold Store.getRecord
  rw [h.pointer?_of_winner hw]
  exact h.data w hmem

theorem get_of_winner (h : Reflects s S) (hw : WinnerOf S ns key w) :
    s.get ns key = some (outcomeOf w) := by
  obtain ⟨hmem, rfl, rfl⟩ := hw.mem
  exact Store.get_of_pointer (h.pointer hw) (h.data w hmem)

/-- A row of a namespace scan is the pointer of a winner. -/
theorem mem_scanMeta_iff (h : Reflects s S) (hns : ns.length < 128) {start : Bytes}
    {stop : Option Bytes} {r : Bytes × MetaRow} :
    r ∈ s.scanMeta (latestKey ns start) (Store.scanStop ns stop) ↔
      ∃ w, WinnerOf S ns w.logicalKey w ∧ inRange start stop w.logicalKey = true ∧
        r = (latestKey ns w.logicalKey, .pointer (pointerOf w)) := by
  obtain ⟨k, row⟩ := r
  have hrange : inRange (latestKey ns start) (Store.scanStop ns stop) k = true ↔
      ∃ u, k = latestKey ns u ∧ inRange start stop u = true := by
    have := inRange_append (lenPrefix ns) start k stop
    cases stop <;> exact this
  simp only [Store.scanMeta, List.mem_filter, Std.ExtTreeMap.mem_toList_iff_getElem?_eq_some,
    hrange, Prod.mk.injEq]
  constructor
  · rintro ⟨hrow, u, rfl, hu⟩
    rcases h.rows hrow with ⟨r, hr, hk⟩ | ⟨r, -, e, v, hk, -⟩
    · obtain ⟨rfl, rfl⟩ := latestKey_inj.mp hk
      obtain ⟨w, hw⟩ := h.exists_winnerOf ⟨r, mem_keyed_self.mpr hr⟩
      obtain ⟨-, -, hwk⟩ := hw.mem
      rw [h.pointer hw] at hrow
      refine ⟨w, ?_, ?_, ?_, (Option.some.inj hrow).symm⟩
      · rw [hwk]; exact hw
      · rw [hwk]; exact hu
      · rw [hwk]
    · exact absurd hk (latestKey_ne_ttlKey hns)
  · rintro ⟨w, hw, hu, rfl, rfl⟩
    exact ⟨h.pointer hw, _, rfl, hu⟩

theorem drop_latestKey (ns key : Bytes) :
    (latestKey ns key).drop (namespacePrefix ns).length = key :=
  List.drop_left

/-- The record scan lists the winners of the range. -/
theorem mem_scanRecords_iff (h : Reflects s S) (hns : ns.length < 128) {start : Bytes}
    {stop : Option Bytes} {r : StoredRecord} :
    r ∈ s.scanRecords ns start stop ↔
      WinnerOf S ns r.logicalKey r ∧ inRange start stop r.logicalKey = true := by
  have hread : ∀ w, WinnerOf S ns w.logicalKey w →
      s.scanRecord ns (latestKey ns w.logicalKey, .pointer (pointerOf w)) = some w := by
    intro w hw
    obtain ⟨hmem, rfl, -⟩ := hw.mem
    simp only [Store.scanRecord, decodeLatestPointer, Option.bind_eq_bind, Option.bind_some,
      drop_latestKey]
    exact h.data w hmem
  simp only [Store.scanRecords, List.mem_filterMap, h.mem_scanMeta_iff hns]
  constructor
  · rintro ⟨-, ⟨w, hw, hu, rfl⟩, hr⟩
    rw [hread w hw] at hr
    cases hr
    exact ⟨hw, hu⟩
  · rintro ⟨hw, hu⟩
    exact ⟨_, ⟨r, hw, hu, rfl⟩, hread r hw⟩

/-- The row scan shows the visible winners of the range. -/
theorem mem_scanRange_iff (h : Reflects s S) (hns : ns.length < 128) {start : Bytes}
    {stop : Option Bytes} {nowMs : Int64} {row : Store.ScanRow} :
    row ∈ s.scanRange ns start stop 0 nowMs ↔
      ∃ w, WinnerOf S ns w.logicalKey w ∧ inRange start stop w.logicalKey = true ∧
        Store.hidden (pointerOf w) nowMs = false ∧ row = scanRowOf w := by
  have hread : ∀ w, WinnerOf S ns w.logicalKey w →
      s.scanRow ns nowMs (latestKey ns w.logicalKey, .pointer (pointerOf w)) =
        if Store.hidden (pointerOf w) nowMs then none else some (scanRowOf w) := by
    intro w hw
    obtain ⟨hmem, rfl, -⟩ := hw.mem
    have hdata := h.data w hmem
    simp only [Store.scanRow, decodeLatestPointer, Option.bind_eq_bind, Option.bind_some,
      drop_latestKey]
    split
    · rfl
    · simp only [pointerOf, hdata, scanRowOf]
      cases hi : inlineValue w with
      | none => rfl
      | some v => rw [inlineValue_eq_some hi]
  simp only [Store.scanRange, lt_irrefl, if_false, List.mem_filterMap, h.mem_scanMeta_iff hns]
  constructor
  · rintro ⟨-, ⟨w, hw, hu, rfl⟩, hr⟩
    rw [hread w hw] at hr
    split at hr
    · cases hr
    · rename_i hvis
      exact ⟨w, hw, hu, by simpa using hvis, (Option.some.inj hr).symm⟩
  · rintro ⟨w, hw, hu, hvis, rfl⟩
    refine ⟨_, ⟨w, hw, hu, rfl⟩, ?_⟩
    rw [hread w hw, hvis]
    rfl

theorem scanRange_subset (s : Store) (ns start : Bytes) (stop : Option Bytes) (limit : Int)
    (nowMs : Int64) {row : Store.ScanRow} (h : row ∈ s.scanRange ns start stop limit nowMs) :
    row ∈ s.scanRange ns start stop 0 nowMs := by
  simp only [Store.scanRange, lt_irrefl, if_false] at h ⊢
  split at h
  · exact List.mem_of_mem_take h
  · exact h

/-- A store reports the winner of every key it was given a record for. -/
theorem reports (h : Reflects s S) (hcons : Consistent S) (hw : WinnerOf S ns key w)
    (hns : ns.length < 128) : Reports s w := by
  obtain ⟨-, hn, hk⟩ := hw.mem
  subst hn hk
  refine ⟨h.pointer?_of_winner hw, h.getRecord_of_winner hw, h.get_of_winner hw, ?_, ?_, ?_, ?_⟩
  · intro start stop r hr hkey
    obtain ⟨hr, -⟩ := (h.mem_scanRecords_iff hns).mp hr
    rw [hkey] at hr
    exact hr.unique (hcons _ _) hw
  · intro start stop hin
    exact (h.mem_scanRecords_iff hns).mpr ⟨hw, hin⟩
  · intro start stop limit nowMs row hrow hkey
    obtain ⟨v, hv, -, hvis, rfl⟩ :=
      (h.mem_scanRange_iff hns).mp (scanRange_subset _ _ _ _ _ _ hrow)
    have hvk : v.logicalKey = w.logicalKey := hkey
    rw [hvk] at hv
    obtain rfl := hv.unique (hcons _ _) hw
    exact ⟨rfl, hvis⟩
  · intro start stop nowMs hin hvis
    exact (h.mem_scanRange_iff hns).mpr ⟨w, hw, hin, hvis, rfl⟩

end Reflects

/-! ## Runs -/

/-- A call of the store: a record applied, or a stripe's cache emptied. -/
inductive StoreCall where
  | apply (rec : StoredRecord) (kind : MutationKind)
  | reset (stripe : UInt32)

def Store.step (s : Store) : StoreCall → Store
  | .apply rec kind =>
    match s.apply rec kind with
    | some (_, s') => s'
    | none => s
  | .reset stripe => { s with latestVer := Function.update s.latestVer stripe ∅ }

def Store.runCalls (s : Store) (calls : List StoreCall) : Store := calls.foldl Store.step s

def recordsOf (calls : List StoreCall) : List StoredRecord :=
  calls.filterMap fun
    | .apply rec _ => some rec
    | .reset _ => none

theorem recordsOf_apply (rec : StoredRecord) (kind : MutationKind) (calls : List StoreCall) :
    recordsOf (.apply rec kind :: calls) = rec :: recordsOf calls := rfl

namespace Reflects

variable {s : Store} {S : Set StoredRecord}

theorem newStore (clusterID memberID : Bytes) (clock : Clock) (seq : Sequencer) :
    Reflects (Records.newStore {} clusterID memberID clock seq) ∅ where
  finite := Set.finite_empty
  data r hr := hr.elim
  pointer hw := hw.mem.1.elim
  rows h := by simp [Records.newStore] at h
  cache _ h := by simp [Records.newStore] at h

theorem reset (h : Reflects s S) (stripe : UInt32) : Reflects (s.step (.reset stripe)) S where
  finite := h.finite
  data := h.data
  pointer := h.pointer
  rows := h.rows
  cache {ns key entry} hns hc := by
    have hc' : (Function.update s.latestVer stripe ∅ (stripeIdx ns key))[cacheKey ns key]? =
        some entry := hc
    by_cases hsi : stripeIdx ns key = stripe
    · rw [hsi, Function.update_self] at hc'
      simp at hc'
    · rw [Function.update_of_ne hsi] at hc'
      exact h.cache hns hc'

/-- A run adds the records it applies, whatever their order and repetitions, and keeps
what every apply and every reset keeps. -/
theorem run_with {P : Store → Set StoredRecord → Prop} (h : Reflects s S) (hP : P s S)
    (happly : ∀ {s S rec kind v s'}, s.apply rec kind = some (v, s') → P s S → P s' (insert rec S))
    (hreset : ∀ {s S} stripe, P s S → P (s.step (.reset stripe)) S)
    (calls : List StoreCall) {T : Set StoredRecord}
    (hST : S ⊆ T) (hcalls : ∀ r ∈ recordsOf calls, r ∈ T) (hcons : Consistent T)
    (hplain : ∀ r ∈ T, PlainNamespace r.ns) :
    Reflects (s.runCalls calls) (S ∪ {r | r ∈ recordsOf calls}) ∧
      P (s.runCalls calls) (S ∪ {r | r ∈ recordsOf calls}) := by
  induction calls generalizing s S with
  | nil => simpa [Store.runCalls, recordsOf] using ⟨h, hP⟩
  | cons call calls ih =>
    cases call with
    | apply rec kind =>
      rw [recordsOf_apply] at hcalls ⊢
      have hrec : rec ∈ T := hcalls rec (by simp)
      have hsub : insert rec S ⊆ T := Set.insert_subset hrec hST
      have hcons' : Consistent (insert rec S) := fun ns key =>
        (hcons ns key).mono (keyed_mono hsub ns key)
      obtain ⟨v, s', happ, hs'⟩ :=
        h.apply (hplain rec hrec) (fun r hr => hplain r (hST hr)) hcons' kind
      have hstep : s.step (.apply rec kind) = s' := by simp only [Store.step, happ]
      have hrun := ih hs' (happly happ hP) hsub fun r hr => hcalls r (by simp [hr])
      have hset : S ∪ {r | r ∈ rec :: recordsOf calls} =
          insert rec S ∪ {r | r ∈ recordsOf calls} := by
        ext r
        simp only [List.mem_cons, Set.mem_union, Set.mem_insert_iff, Set.mem_ofPred_eq]
        tauto
      rw [hset]
      show Reflects (Store.runCalls (s.step (.apply rec kind)) calls) _ ∧
        P (Store.runCalls (s.step (.apply rec kind)) calls) _
      rw [hstep]
      exact hrun
    | reset stripe => exact ih (h.reset stripe) (hreset stripe hP) hST hcalls

/-- A run reflects the records it was given. -/
theorem run (h : Reflects s S) (calls : List StoreCall) {T : Set StoredRecord}
    (hST : S ⊆ T) (hcalls : ∀ r ∈ recordsOf calls, r ∈ T) (hcons : Consistent T)
    (hplain : ∀ r ∈ T, PlainNamespace r.ns) :
    Reflects (s.runCalls calls) (S ∪ {r | r ∈ recordsOf calls}) :=
  (h.run_with (P := fun _ _ => True) trivial (fun _ _ => trivial) (fun _ _ => trivial) calls hST
    hcalls hcons hplain).1

/-- A key no record was applied for has no pointer to read. -/
theorem pointer?_of_none (h : Reflects s S) {ns key : Bytes} (hnone : keyed S ns key = ∅) :
    s.pointer? ns key = none := by
  unfold Store.pointer?
  cases hrow : s.disk.kvMeta[latestKey ns key]? with
  | none => rfl
  | some row =>
    rcases h.rows hrow with ⟨r, hr, hk⟩ | ⟨r, -, e, v, -, rfl⟩
    · obtain ⟨rfl, rfl⟩ := latestKey_inj.mp hk
      have hmem := mem_keyed_self.mpr hr
      rw [hnone] at hmem
      exact hmem.elim
    · rfl

/-- Two stores that were given the same records have the same pointers. -/
theorem pointer?_eq {s s' : Store} (h : Reflects s S) (h' : Reflects s' S) (ns key : Bytes) :
    s.pointer? ns key = s'.pointer? ns key := by
  rcases (keyed S ns key).eq_empty_or_nonempty with hnone | hsome
  · rw [h.pointer?_of_none hnone, h'.pointer?_of_none hnone]
  · obtain ⟨w, hw⟩ := h.exists_winnerOf hsome
    rw [h.pointer?_of_winner hw, h'.pointer?_of_winner hw]

end Reflects

/-- The comparison of versions is a strict total order whose equality is
`equal`. -/
theorem compare_strictOrder (a b c : Version) :
    (a.compare b = .eq ↔ a.equal b = true) ∧ (a.compare b = .gt ↔ b.compare a = .lt) ∧
      (a.compare b = .lt → b.compare c = .lt → a.compare c = .lt) := by
  refine ⟨?_, Version.compare_gt_iff, ?_⟩
  · rw [Version.compare_eq_iff_eq, Version.equal_iff_eq]
  · exact fun hab hbc => lt_trans (show a < b from hab) (show b < c from hbc)

/-- Last-write-wins convergence: two stores that were each given every record of
a consistent set at least once, in plain namespaces, have the same pointers, and
every read of a key reports its record of the highest version. -/
theorem store_converges (recs : List StoredRecord) (hcons : Consistent {r | r ∈ recs})
    (hplain : ∀ r ∈ recs, PlainNamespace r.ns) (xs ys : List StoreCall)
    (hxs : ∀ r, r ∈ recordsOf xs ↔ r ∈ recs) (hys : ∀ r, r ∈ recordsOf ys ↔ r ∈ recs)
    (cx mx cy my : Bytes) (kx ky : Clock) (qx qy : Sequencer) :
    (∀ ns key, ((newStore {} cx mx kx qx).runCalls xs).pointer? ns key =
        ((newStore {} cy my ky qy).runCalls ys).pointer? ns key) ∧
      (∀ ns key, (∀ r ∈ recs, ¬ (r.ns = ns ∧ r.logicalKey = key)) →
        ((newStore {} cx mx kx qx).runCalls xs).pointer? ns key = none) ∧
      (∀ r ∈ recs, ∃ w ∈ recs, w.ns = r.ns ∧ w.logicalKey = r.logicalKey ∧
        (∀ q ∈ recs, q.ns = r.ns → q.logicalKey = r.logicalKey →
          q.version.compare w.version ≠ .gt) ∧
        Reports ((newStore {} cx mx kx qx).runCalls xs) w ∧
        Reports ((newStore {} cy my ky qy).runCalls ys) w) ∧
      ∀ a b c : Version,
        (a.compare b = .eq ↔ a.equal b = true) ∧ (a.compare b = .gt ↔ b.compare a = .lt) ∧
          (a.compare b = .lt → b.compare c = .lt → a.compare c = .lt) := by
  have hrun : ∀ (calls : List StoreCall) (c m : Bytes) (k : Clock) (q : Sequencer),
      (∀ r, r ∈ recordsOf calls ↔ r ∈ recs) →
      Reflects ((newStore {} c m k q).runCalls calls) {r | r ∈ recs} := by
    intro calls c m k q hcalls
    have hset : {r | r ∈ recs} = ∅ ∪ {r | r ∈ recordsOf calls} := by
      ext r
      simp [hcalls r]
    rw [hset]
    refine (Reflects.newStore c m k q).run calls (Set.empty_subset {r | r ∈ recs}) ?_ hcons hplain
    exact fun r hr => (hcalls r).mp hr
  have hx := hrun xs cx mx kx qx hxs
  have hy := hrun ys cy my ky qy hys
  refine ⟨hx.pointer?_eq hy, ?_, ?_, compare_strictOrder⟩
  · intro ns key hnone
    refine hx.pointer?_of_none (Set.eq_empty_of_forall_notMem ?_)
    rintro r ⟨hr, hk⟩
    exact hnone r hr hk
  · intro r hr
    obtain ⟨w, hw⟩ := hx.exists_winnerOf ⟨r, mem_keyed_self.mpr hr⟩
    obtain ⟨hmem, hn, hk⟩ := hw.mem
    have hns := (hplain r hr).short
    refine ⟨w, hmem, hn, hk, ?_, hx.reports hcons hw hns, hy.reports hcons hw hns⟩
    intro q hq hqn hqk
    exact hw.le ⟨hq, hqn, hqk⟩

/-- A live record with a clock reading for a version. -/
def sampleRecord (ns key value : Bytes) (physicalMs : UInt64) : StoredRecord :=
  { ns, logicalKey := key, value := .inline value, version := { hlcPhysicalMs := physicalMs } }

/-- A key written three times, and a second store that saw the writes in another
order, one of them twice and with a cache emptied in between. -/
theorem store_converges_threeWrites :
    let a := sampleRecord [0x6e] [0x6b] [1] 1
    let b := sampleRecord [0x6e] [0x6b] [2] 2
    let c := { sampleRecord [0x6e] [0x6b] [] 3 with tombstone := true }
    Reports ((newStore {} [] [] (newClock 500) (newSequencer 0)).runCalls
      [.apply c .delete, .apply a .put, .reset 7, .apply b .put, .apply a .put]) c := by
  intro a b c
  have hcons : Consistent {r | r ∈ [a, b, c]} := by
    intro ns key
    rintro x ⟨hx, -⟩ y ⟨hy, -⟩ hxy
    simp only [List.mem_cons, List.not_mem_nil, or_false, Set.mem_ofPred_eq] at hx hy
    rcases hx with rfl | rfl | rfl <;> rcases hy with rfl | rfl | rfl <;>
      first | rfl | exact absurd hxy (by decide)
  have h := (store_converges [a, b, c] hcons (by decide)
    [.apply c .delete, .apply a .put, .reset 7, .apply b .put, .apply a .put]
    [.apply a .put, .apply b .put, .apply c .delete]
    (by intro r; simp [recordsOf]; tauto) (by intro r; simp [recordsOf])
    [] [] [] [] (newClock 500) (newClock 500) (newSequencer 0) (newSequencer 0)).2.2.1
  obtain ⟨w, hw, -, -, hmax, hrep, -⟩ := h c (by simp)
  have hwc : w = c := by
    simp only [List.mem_cons, List.not_mem_nil, or_false] at hw
    rcases hw with rfl | rfl | rfl
    · exact absurd rfl (hmax c (by simp) rfl rfl)
    · exact absurd rfl (hmax c (by simp) rfl rfl)
    · rfl
  rwa [hwc] at hrep

/-- Namespace and key meet in the cache: `"a"` with key `"\x00b"` and `"a\x00"`
with key `"b"` share an entry. After the first key's version 5 and the second
key's version 1, the first key's version 3 is newer than the cached version and
takes the pointer from version 5; in another order version 5 stays. -/
theorem cache_collision :
    let newer := sampleRecord [0x61] [0, 0x62] [5] 5
    let other := sampleRecord [0x61, 0] [0x62] [1] 1
    let older := sampleRecord [0x61] [0, 0x62] [3] 3
    let empty := newStore {} [] [] (newClock 500) (newSequencer 0)
    ((empty.runCalls [.apply newer .put, .apply other .put, .apply older .put]).pointer?
        [0x61] [0, 0x62]).map (·.winner.hlcPhysicalMs) = some 3 ∧
      ((empty.runCalls [.apply older .put, .apply other .put, .apply newer .put]).pointer?
        [0x61] [0, 0x62]).map (·.winner.hlcPhysicalMs) = some 5 ∧
      older.version.compare newer.version = .lt := by
  decide +kernel

end WaveSpan.Records
