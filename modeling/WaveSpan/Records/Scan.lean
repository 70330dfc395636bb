/-
WaveSpan.Records.Scan — range scans routed to all holders
(`internal/kv/scan.go`, `scan_merge.go`, `internal/replication/local/connect.go`,
`internal/grpcsrv/replication.go`).

A routed scan asks every alive member for the range and merges the rows, the newest of
each key. The limit of the request is pushed into the members' own scans, doubled.

Each member answers with its first rows in key order, so a key among the first of the
merge is not behind any member's cut (`Lib.MergeRows`). Two things can shorten an answer
further. The doubled limit travels as 32 bits, and a large one arrives as a small one
(`wireLimit`). And a member hides what is expired by its own clock, before the cut, and the
scanner what is expired by its own, after the cut; rows that only the scanner hides take
places in the answer. `scan_cut_short` has an example of each; the scan is exact as long as
some member has each of the first merged rows before its cut (`scan_limit_exact`).

Members answer with the rows they show themselves, and a delete is not a row. A deleted key is
returned as soon as one member shows an older version of it (`routed_hides_deleted`).
-/
import WaveSpan.Lib.MergeRows
import WaveSpan.Records.Spaces

namespace WaveSpan.Records

open WaveSpan.Wire WaveSpan.Collections WaveSpan.MergeRows
open Store (ScanRow)

/-! ## The scanner -/

/-- A member of the cluster as a scan meets it. -/
structure Holder where
  memberID : Bytes
  alive : Bool := true
  /-- Its answer arrives. -/
  reachable : Bool := true
  store : Store
  /-- The wall clock it reads when asked. -/
  clockMs : Int64

structure Scanner where
  store : Store
  memberID : Bytes
  members : List Holder

def wireLimit (limit : Int) : Int := limit % 2 ^ 32

/-- An end key on the wire: an empty one is not sent. -/
def wireStop (stop : Option Bytes) : Option Bytes := stop.filter fun k => k ≠ []

def Holder.scanLocal (h : Holder) (ns start : Bytes) (stop : Option Bytes) (limit : Int) :
    Option (List ScanRow) :=
  if h.reachable then
    some (h.store.scanRange ns start (wireStop stop) (wireLimit limit) h.clockMs)
  else none

/-- A row that has expired by the scanner's clock; the reading zero hides nothing. -/
def expired (now : Int64) (r : ScanRow) : Bool :=
  now ≠ 0 && r.expiresAtMs.any fun e => decide (e ≤ now)

namespace Scanner

def asked (sc : Scanner) : List Holder :=
  sc.members.filter fun h => h.alive && h.memberID ≠ sc.memberID

def answer (h : Holder) (ns start : Bytes) (stop : Option Bytes) (fetch : Int) (now : Int64) :
    List ScanRow :=
  match h.scanLocal ns start stop fetch with
  | none => []
  | some rows => rows.filter fun r => !expired now r

/-- A row replaces another of its key if its version is higher. -/
def newerRow (r cur : ScanRow) : Bool := decide (r.version.compare cur.version = .gt)

def sorted (rows : List ScanRow) : List ScanRow :=
  ((merge ScanRow.key newerRow rows : GoMap ScanRow).toList).map Prod.snd

def fetch (limit : Int) : Int := if 0 < limit then limit * 2 else 0

/-- The rows that come together, in the order in which they are merged. -/
def gathered (sc : Scanner) (ns start : Bytes) (stop : Option Bytes) (limit : Int) (now : Int64) :
    List ScanRow :=
  sc.store.scanRange ns start stop (fetch limit) now ++
    sc.asked.flatMap fun h => answer h ns start stop (fetch limit) now

def routed (sc : Scanner) (ns start : Bytes) (stop : Option Bytes) (limit : Int) (now : Int64) :
    List ScanRow :=
  sorted (sc.gathered ns start stop limit now)

def scan (sc : Scanner) (ns start : Bytes) (stop : Option Bytes) (limit : UInt32) (now : Int64) :
    List ScanRow :=
  let rows := sc.routed ns start stop limit.toNat now
  if 0 < limit ∧ limit.toNat < rows.length then rows.take limit.toNat else rows

/-! ## What the holders have -/

/-- The visible rows of everybody: the scanner's own, and what the members asked answer when
there is no limit. -/
def visible (sc : Scanner) (ns start : Bytes) (stop : Option Bytes) (now : Int64) :
    List ScanRow :=
  sc.store.scanRange ns start stop 0 now ++ sc.asked.flatMap fun h => answer h ns start stop 0 now

end Scanner

/-- A store as a scan reads it: the clock that hides its rows, the end of the range, and how
many rows are taken, where that is a positive number. -/
structure Source where
  store : Store
  clockMs : Int64
  stop : Option Bytes
  cut : Int

namespace Source

def rows (x : Source) (ns start : Bytes) : List ScanRow :=
  x.store.scanRange ns start x.stop 0 x.clockMs

def Reaches (x : Source) (ns start key : Bytes) : Prop :=
  x.cut ≤ 0 ∨ (((x.rows ns start).filter fun r => compare r.key key = .lt).length : Int) < x.cut

/-- What the store has of a key is a row of its answer that the scanner keeps. -/
structure Shows (x : Source) (ns start key : Bytes) (now : Int64) (lp : LatestPointer) : Prop where
  visible : Store.hidden lp x.clockMs = false
  unexpired : now ≠ 0 → ∀ e, lp.expiresAtUnixMs = some e → now < e
  ranged : inRange start x.stop key = true
  valued : lp.inlineValue.isSome = true ∨
    (x.store.disk.kvData[dataKey ns key lp.winner]?).isSome = true
  reaches : x.Reaches ns start key

end Source

def Scanner.sources (sc : Scanner) (stop : Option Bytes) (limit : Int) (now : Int64) :
    List Source :=
  ⟨sc.store, now, stop, Scanner.fetch limit⟩ :: (sc.asked.filter Holder.reachable).map fun h =>
    ⟨h.store, h.clockMs, wireStop stop, wireLimit (Scanner.fetch limit)⟩

/-! ## Local scans -/

section
variable {s : Store} {ns start : Bytes} {stop : Option Bytes} {nowMs : Int64}

/-- The row of a pointer that is not hidden: under its user key, with its value or the
record's. -/
theorem Store.scanRow_eq_some {key : Bytes} {row : MetaRow} {x : ScanRow} :
    s.scanRow ns nowMs (latestKey ns key, row) = some x ↔
      ∃ lp, decodeLatestPointer row = some lp ∧ hidden lp nowMs = false ∧
        ∃ value, (lp.inlineValue.or
            ((s.disk.kvData[dataKey ns key lp.winner]?).map (·.value.getInline))) = some value ∧
          ⟨key, value, lp.winner, lp.expiresAtUnixMs⟩ = x := by
  have hdrop : (latestKey ns key).drop (namespacePrefix ns).length = key := List.drop_left
  simp only [scanRow, hdrop, Option.bind_eq_bind, Option.bind_eq_some_iff]
  refine exists_congr fun lp => and_congr_right fun _ => ?_
  cases hhidden : hidden lp nowMs with
  | true => simp
  | false => cases lp.inlineValue <;> simp [Option.bind_eq_some_iff]

/-- The rows of a scan are the rows of the keys in its range. -/
theorem Store.mem_scanRange {x : ScanRow} :
    x ∈ s.scanRange ns start stop 0 nowMs ↔
      inRange start stop x.key = true ∧ ∃ row, s.disk.kvMeta[latestKey ns x.key]? = some row ∧
        s.scanRow ns nowMs (latestKey ns x.key, row) = some x := by
  have hkey : ∀ {key row}, s.scanRow ns nowMs (latestKey ns key, row) = some x → x.key = key := by
    intro key row hrow
    obtain ⟨lp, -, -, value, -, rfl⟩ := scanRow_eq_some.mp hrow
    rfl
  have hspace : ∀ k, inRange (latestKey ns start) (scanStop ns stop) k = true ↔
      ∃ u, k = latestKey ns u ∧ inRange start stop u = true := by
    intro k
    have happend := inRange_append (lenPrefix ns) start k stop
    cases stop <;> exact happend
  rw [scanRange, if_neg (lt_irrefl 0), List.mem_filterMap]
  constructor
  · rintro ⟨⟨k, row⟩, hmem, hrow⟩
    obtain ⟨hmem, hin⟩ := List.mem_filter.mp hmem
    obtain ⟨u, rfl, hu⟩ := (hspace k).mp hin
    rw [hkey hrow]
    exact ⟨hu, row, Std.ExtTreeMap.mem_toList_iff_getElem?_eq_some.mp hmem, hrow⟩
  · rintro ⟨hin, row, hmem, hrow⟩
    refine ⟨(latestKey ns x.key, row), List.mem_filter.mpr ⟨?_, (hspace _).mpr ⟨_, rfl, hin⟩⟩, hrow⟩
    exact Std.ExtTreeMap.mem_toList_iff_getElem?_eq_some.mpr hmem

/-- A local scan has its rows in key order. -/
theorem Store.scanRange_sorted (s : Store) (ns start : Bytes) (stop : Option Bytes) (limit : Int)
    (nowMs : Int64) :
    (s.scanRange ns start stop limit nowMs).Pairwise fun a b => compare a.key b.key = .lt := by
  have hrows : ((s.scanMeta (latestKey ns start) (scanStop ns stop)).filterMap
      (s.scanRow ns nowMs)).Pairwise fun a b => compare a.key b.key = .lt := by
    have hmeta : (s.scanMeta (latestKey ns start) (scanStop ns stop)).Pairwise
        fun a b => compare a.1 b.1 = .lt :=
          List.Pairwise.filter _ Std.ExtTreeMap.ordered_keys_toList
    have hspace : ∀ r ∈ s.scanMeta (latestKey ns start) (scanStop ns stop),
        ∃ u, r.1 = latestKey ns u := fun r hr => by
      obtain ⟨u, hu⟩ := inRange_namespace (List.mem_filter.mp hr).2
      exact ⟨u, hu.symm⟩
    rw [List.pairwise_filterMap]
    refine hmeta.imp_of_mem ?_
    rintro ⟨ka, rowa⟩ ⟨kb, rowb⟩ ha hb hlt x hx y hy
    obtain ⟨ua, rfl⟩ := hspace _ ha
    obtain ⟨ub, rfl⟩ := hspace _ hb
    obtain ⟨-, -, -, -, -, rfl⟩ := scanRow_eq_some.mp hx
    obtain ⟨-, -, -, -, -, rfl⟩ := scanRow_eq_some.mp hy
    -- The keys share the namespace, so their rests compare as they do.
    rwa [latestKey, latestKey, compare_append_left] at hlt
  unfold scanRange
  split
  · exact hrows.sublist (List.take_sublist _ _)
  · exact hrows

/-- A limited scan is the start of the whole. -/
theorem Store.scanRange_take (s : Store) (ns start : Bytes) (stop : Option Bytes) {limit : Int}
    (nowMs : Int64) (h : 0 < limit) :
    s.scanRange ns start stop limit nowMs =
      (s.scanRange ns start stop 0 nowMs).take limit.toNat := by
  simp [scanRange, h]

/-- What a scan returns has not expired by then. -/
theorem Store.scanRange_fresh {x : ScanRow} (h : x ∈ s.scanRange ns start stop 0 nowMs) :
    ∀ e, x.expiresAtMs = some e → nowMs < e := by
  obtain ⟨-, row, -, hrow⟩ := mem_scanRange.mp h
  obtain ⟨lp, -, hshown, value, -, heq⟩ := scanRow_eq_some.mp hrow
  intro e he
  have he : lp.expiresAtUnixMs = some e := (congrArg ScanRow.expiresAtMs heq).trans he
  simpa [hidden, he] using (Bool.or_eq_false_iff.mp hshown).2

end

/-! ## The limit -/

namespace Scanner

section
variable {sc : Scanner} {ns start : Bytes} {stop : Option Bytes} {limit : UInt32} {now : Int64}

theorem newerRow_eq : newerRow = fun a b => decide (b.version < a.version) := by
  funext a b
  simp only [newerRow, Version.compare_gt_iff]

theorem expired_eq_false {r : ScanRow} :
    expired now r = false ↔ (now ≠ 0 → ∀ e, r.expiresAtMs = some e → now < e) := by
  unfold expired
  cases r.expiresAtMs <;> simp [← Int64.not_le]

/-- A row in the answer of a store is one it shows, before the cut. -/
theorem mem_cut {x : Source} {r : ScanRow} :
    r ∈ x.store.scanRange ns start x.stop x.cut x.clockMs ↔
      r ∈ x.rows ns start ∧ x.Reaches ns start r.key := by
  unfold Source.Reaches
  by_cases hcut : 0 < x.cut
  · rw [Store.scanRange_take _ _ _ _ _ hcut, mem_take_iff (Store.scanRange_sorted ..)]
    refine and_congr_right fun _ => ?_
    unfold Source.rows
    omega
  · have hall : x.store.scanRange ns start x.stop x.cut x.clockMs = x.rows ns start := by
      simp [Store.scanRange, Source.rows, hcut]
    rw [hall]
    exact (and_iff_left (.inl (not_lt.mp hcut))).symm

/-- The rows of an answer. -/
theorem mem_answer {h : Holder} {lim : Int} {r : ScanRow} :
    r ∈ answer h ns start stop lim now ↔ h.reachable = true ∧ expired now r = false ∧
      r ∈ h.store.scanRange ns start (wireStop stop) (wireLimit lim) h.clockMs := by
  unfold answer Holder.scanLocal
  cases h.reachable with
  | false => simp
  | true => simp [and_comm]

/-- The rows that come together are those that some store shows before its cut. -/
theorem mem_gathered {lim : Int} {r : ScanRow} :
    r ∈ sc.gathered ns start stop lim now ↔ expired now r = false ∧
      ∃ x ∈ sc.sources stop lim now, r ∈ x.rows ns start ∧ x.Reaches ns start r.key := by
  simp only [gathered, sources, List.mem_append, List.mem_flatMap, mem_answer, List.mem_cons,
    List.mem_map, List.mem_filter, ← mem_cut]
  constructor
  · rintro (hown | ⟨h, hh, hreach, hlive, hmem⟩)
    · refine ⟨expired_eq_false.mpr fun _ => ?_, _, .inl rfl, hown⟩
      have hrows := (mem_cut (x := ⟨sc.store, now, stop, fetch lim⟩)).mp hown
      exact Store.scanRange_fresh hrows.1
    · exact ⟨hlive, _, .inr ⟨h, ⟨hh, hreach⟩, rfl⟩, hmem⟩
  · rintro ⟨hlive, x, rfl | ⟨h, ⟨hh, hreach⟩, rfl⟩, hmem⟩
    · exact .inl hmem
    · exact .inr ⟨h, hh, hreach, hlive, hmem⟩

/-- The rows a scan may show. -/
theorem mem_visible (lim : Int) {r : ScanRow} :
    r ∈ sc.visible ns start stop now ↔ expired now r = false ∧
      ∃ x ∈ sc.sources stop lim now, r ∈ x.rows ns start := by
  have hzero : sc.visible ns start stop now = sc.gathered ns start stop 0 now := rfl
  rw [hzero, mem_gathered]
  refine and_congr_right fun _ => ?_
  simp [sources, Source.rows, Source.Reaches, fetch, wireLimit]

theorem gathered_subset (lim : Int) :
    sc.gathered ns start stop lim now ⊆ sc.visible ns start stop now := by
  intro r hr
  obtain ⟨hlive, x, hx, hmem, -⟩ := mem_gathered.mp hr
  exact (mem_visible lim).mpr ⟨hlive, x, hx, hmem⟩

/-- The merged rows: in key order, of the rows there are, and the newest of their key. -/
theorem sorted_spec (rows : List ScanRow) :
    ((sorted rows).Pairwise fun a b => compare a.key b.key = .lt) ∧
      ∀ r ∈ sorted rows, r ∈ rows ∧ ∀ x ∈ rows, x.key = r.key → x.version ≤ r.version := by
  have hentry : ∀ e ∈ (merge ScanRow.key newerRow rows : GoMap ScanRow).toList,
      e.2 ∈ rows ∧ e.2.key = e.1 := fun e he =>
    mem_of_getElem?_merge (Std.ExtTreeMap.mem_toList_iff_getElem?_eq_some.mp he)
  refine ⟨?_, fun r hr => ?_⟩
  · unfold sorted
    rw [List.pairwise_map]
    refine Std.ExtTreeMap.ordered_keys_toList.imp_of_mem ?_
    intro a b ha hb hlt
    rwa [(hentry a ha).2, (hentry b hb).2]
  · obtain ⟨e, he, rfl⟩ := List.mem_map.mp hr
    refine ⟨(hentry e he).1, fun x hx hkey => ?_⟩
    rw [newerRow_eq] at he
    exact le_of_getElem?_merge (Std.ExtTreeMap.mem_toList_iff_getElem?_eq_some.mp he) hx
      (hkey.trans (hentry e (by rwa [newerRow_eq])).2)

/-- A scan is the start of what was gathered. -/
theorem scan_eq_take (sc : Scanner) (ns start : Bytes) (stop : Option Bytes) (now : Int64)
    (hpos : 0 < limit) :
    sc.scan ns start stop limit now =
      (sorted (sc.gathered ns start stop limit.toNat now)).take limit.toNat := by
  change (if 0 < limit ∧ limit.toNat < (sc.routed ns start stop limit.toNat now).length
    then _ else _) = _
  split
  · rfl
  · rename_i hle
    exact (List.take_of_length_le (Nat.le_of_not_lt fun hlt => hle ⟨hpos, hlt⟩)).symm

/-- The rows that are due: the first ones of the merge of all visible rows. -/
def due (sc : Scanner) (ns start : Bytes) (stop : Option Bytes) (limit : UInt32) (now : Int64) :
    List ScanRow :=
  (sorted (sc.visible ns start stop now)).take limit.toNat

/-- What is due is what is returned, and the same in whatever order the members are asked. -/
def Exact (sc : Scanner) (ns start : Bytes) (stop : Option Bytes) (limit : UInt32) (now : Int64) :
    Prop :=
  ∀ members, members.Perm sc.members →
    ({ sc with members } : Scanner).scan ns start stop limit now =
        ({ sc with members } : Scanner).due ns start stop limit now ∧
      ({ sc with members } : Scanner).scan ns start stop limit now =
        sc.scan ns start stop limit now

/-- Every row that is due is the scanner's own; or some member has it before its cut, and
nobody shows another row of its key with its version. -/
def Supplied (sc : Scanner) (ns start : Bytes) (stop : Option Bytes) (limit : UInt32)
    (now : Int64) : Prop :=
  ∀ r ∈ sc.due ns start stop limit now, r ∈ sc.store.scanRange ns start stop 0 now ∨
    (∃ x ∈ sc.sources stop limit.toNat now, r ∈ x.rows ns start ∧ x.Reaches ns start r.key) ∧
      ∀ x ∈ sc.visible ns start stop now, x.key = r.key → x.version = r.version → x = r

/-- What is sorted are the newest rows of their keys. -/
theorem mem_sorted {rows : List ScanRow} {r : ScanRow} :
    r ∈ sorted rows ↔ (merge ScanRow.key newerRow rows : GoMap ScanRow)[r.key]? = some r := by
  constructor
  · intro hr
    obtain ⟨⟨k, x⟩, he, rfl⟩ := List.mem_map.mp hr
    have hget := Std.ExtTreeMap.mem_toList_iff_getElem?_eq_some.mp he
    rwa [(mem_of_getElem?_merge hget).2]
  · exact fun hget => List.mem_map.mpr
      ⟨(r.key, r), Std.ExtTreeMap.mem_toList_iff_getElem?_eq_some.mpr hget, rfl⟩

/-- A row that is due comes after less than `limit` rows in each sorted run of visible ones. -/
theorem mem_take_of_due {run : List ScanRow} {r : ScanRow} {n : Nat}
    (hrun : run.Pairwise fun a b => compare a.key b.key = .lt)
    (hsub : run ⊆ sc.visible ns start stop now) (hdue : r ∈ sc.due ns start stop limit now)
    (hr : r ∈ run) (hn : limit.toNat ≤ n) : r ∈ run.take n := by
  unfold due sorted at hdue
  rw [← List.map_take] at hdue
  obtain ⟨⟨k, x⟩, he, rfl⟩ := List.mem_map.mp hdue
  obtain ⟨i, hi, hget⟩ := List.mem_take_iff_getElem.mp he
  obtain ⟨j, hj, rfl⟩ := List.mem_iff_getElem.mp hr
  have hi' : i < ((merge ScanRow.key newerRow (sc.visible ns start stop now) :
      GoMap ScanRow).toList).length := by omega
  have hkey := (mem_of_getElem?_merge (Std.ExtTreeMap.mem_toList_iff_getElem?_eq_some.mp
    (List.mem_of_mem_take he))).2
  have hle := index_le hsub hrun (List.getElem?_eq_getElem hi') (List.getElem?_eq_getElem hj)
    (by rw [hget]; exact hkey)
  exact List.mem_take_iff_getElem.mpr ⟨j, by omega, rfl⟩

/-- Rows that have all that is due give what is due. -/
theorem take_sorted_eq {own rest : List ScanRow} (hsupplied : sc.Supplied ns start stop limit now)
    (hrun : own.Pairwise fun a b => compare a.key b.key = .lt)
    (hsub : own ++ rest ⊆ sc.visible ns start stop now)
    (hown : ∀ r ∈ sc.due ns start stop limit now, r ∈ sc.store.scanRange ns start stop 0 now →
      r ∈ own)
    (hrest : ∀ r ∈ sc.due ns start stop limit now,
      (∃ x ∈ sc.sources stop limit.toNat now, r ∈ x.rows ns start ∧ x.Reaches ns start r.key) →
        r ∈ own ++ rest) :
    (sorted (own ++ rest)).take limit.toNat = sc.due ns start stop limit now := by
  unfold due sorted
  rw [← List.map_take, ← List.map_take, take_merge_eq hsub]
  rintro ⟨k, r⟩ he
  have hdue : r ∈ sc.due ns start stop limit now := by
    unfold due sorted
    rw [← List.map_take]
    exact List.mem_map_of_mem he
  have hget := Std.ExtTreeMap.mem_toList_iff_getElem?_eq_some.mp (List.mem_of_mem_take he)
  obtain ⟨-, rfl⟩ := mem_of_getElem?_merge hget
  rw [newerRow_eq] at hget ⊢
  have hmax : ∀ y ∈ own ++ rest, y.key = r.key → y.version ≤ r.version := fun y hy hkey =>
    le_of_getElem?_merge hget (hsub hy) hkey
  rcases hsupplied r hdue with hmine | ⟨hshown, honly⟩
  · change (merge ScanRow.key _ ([] ++ (own ++ rest)) : GoMap ScanRow)[r.key]? = some r
    exact getElem?_merge_run (by simp) hrun (hown r hdue hmine) fun y hy =>
      hmax y (List.mem_append_right _ hy)
  · exact getElem?_merge_unique (hrest r hdue hshown) hmax fun y hy => honly y (hsub hy)

theorem sources_perm {members : List Holder} (hperm : members.Perm sc.members) (lim : Int) :
    (({ sc with members } : Scanner).sources stop lim now).Perm (sc.sources stop lim now) :=
  (((hperm.filter _).filter _).map _).cons _

theorem visible_iff {members : List Holder} (hperm : members.Perm sc.members) {r : ScanRow} :
    r ∈ ({ sc with members } : Scanner).visible ns start stop now ↔
      r ∈ sc.visible ns start stop now := by
  rw [mem_visible 0, mem_visible 0]
  simp only [(sources_perm hperm 0).mem_iff]

/-- With enough supplied, a scan is exact. -/
theorem Supplied.exact (hpos : 0 < limit) (h : sc.Supplied ns start stop limit now) :
    sc.Exact ns start stop limit now := by
  have hpos' : 0 < limit.toNat := UInt32.lt_iff_toNat_lt.mp hpos
  have hfetch : 0 < fetch limit.toNat ∧ limit.toNat ≤ (fetch limit.toNat).toNat := by
    unfold fetch
    omega
  have hscan : ∀ members, members.Perm sc.members →
      ({ sc with members } : Scanner).scan ns start stop limit now =
        sc.due ns start stop limit now := by
    intro members hperm
    rw [scan_eq_take _ _ _ _ _ hpos]
    refine take_sorted_eq h (Store.scanRange_sorted ..)
      (fun r hr => (visible_iff hperm).mp (gathered_subset _ hr)) (fun r hdue hr => ?_)
      fun r hdue ⟨x, hx, hshown⟩ => ?_
    · rw [Store.scanRange_take _ _ _ _ _ hfetch.1]
      refine mem_take_of_due (Store.scanRange_sorted ..) ?_ hdue hr hfetch.2
      exact List.subset_append_left _ _
    · have hlive := ((mem_visible 0).mp ((sorted_spec _).2 r (List.mem_of_mem_take hdue)).1).1
      exact mem_gathered.mpr ⟨hlive, x, (sources_perm hperm _).mem_iff.mpr hx, hshown⟩
  intro members hperm
  refine ⟨?_, by rw [hscan members hperm, hscan sc.members (List.Perm.refl _)]⟩
  rw [hscan members hperm]
  refine (take_sorted_eq h (Store.scanRange_sorted ..) (fun r hr => (visible_iff hperm).mp hr)
    (fun r _ hr => hr) fun r hdue _ => ?_).symm
  exact (visible_iff hperm).mpr ((sorted_spec _).2 r (List.mem_of_mem_take hdue)).1

/-- A row of the scanner's own that is newest of its key is the one that is merged. -/
theorem merge_own {y : ScanRow} (hy : y ∈ sc.store.scanRange ns start stop 0 now)
    (hmax : ∀ x ∈ sc.visible ns start stop now, x.key = y.key → x.version ≤ y.version) :
    (merge ScanRow.key newerRow (sc.visible ns start stop now) : GoMap ScanRow)[y.key]? =
      some y := by
  rw [newerRow_eq]
  change (merge ScanRow.key _ ([] ++ sc.visible ns start stop now) : GoMap ScanRow)[y.key]? = some y
  exact getElem?_merge_run (by simp) (Store.scanRange_sorted sc.store ns start stop 0 now) hy
    fun x hx => hmax x (List.mem_append_right _ hx)

/-- An exact scan was supplied enough. -/
theorem Exact.supplied (hpos : 0 < limit) (h : sc.Exact ns start stop limit now) :
    sc.Supplied ns start stop limit now := by
  obtain ⟨hscan, -⟩ := h sc.members (List.Perm.refl _)
  change sc.scan ns start stop limit now = sc.due ns start stop limit now at hscan
  intro r hdue
  by_cases hown : r ∈ sc.store.scanRange ns start stop 0 now
  · exact .inl hown
  refine .inr ⟨?_, fun x hx hkey hversion => ?_⟩
  · rw [← hscan, scan_eq_take _ _ _ _ _ hpos] at hdue
    exact (mem_gathered.mp ((sorted_spec _).2 r (List.mem_of_mem_take hdue)).1).2
  · have hmerged := mem_sorted.mp (List.mem_of_mem_take hdue)
    obtain ⟨-, hnewest⟩ := (sorted_spec _).2 r (List.mem_of_mem_take hdue)
    have hmax : ∀ y ∈ sc.visible ns start stop now, y.key = x.key → y.version ≤ x.version :=
      fun y hy hyx => (hnewest y hy (hyx.trans hkey)).trans (le_of_eq hversion.symm)
    rcases List.mem_append.mp hx with hx | hx
    · have hmine := merge_own hx hmax
      rw [hkey, hmerged] at hmine
      exact (Option.some.inj hmine).symm
    · -- the member that shows it is asked first
      obtain ⟨g, hg, hxg⟩ := List.mem_flatMap.mp hx
      obtain ⟨hmem, hasked⟩ := List.mem_filter.mp hg
      obtain ⟨us, vs, husvs⟩ := List.append_of_mem hmem
      have hperm : (g :: (us ++ vs)).Perm sc.members := husvs ▸ List.perm_middle.symm
      obtain ⟨hscan', hsame⟩ := h _ hperm
      have hrest : ({ sc with members := g :: (us ++ vs) } : Scanner).visible ns start stop now =
          sc.store.scanRange ns start stop 0 now ++ (answer g ns start stop 0 now ++
            ((us ++ vs).filter fun k => k.alive && k.memberID ≠ sc.memberID).flatMap
              fun k => answer k ns start stop 0 now) := by
        simp only [visible, asked, List.filter_cons, if_pos hasked, List.flatMap_cons]
      have hrun : (answer g ns start stop 0 now).Pairwise fun a b => compare a.key b.key = .lt := by
        unfold answer Holder.scanLocal
        cases g.reachable
        · exact .nil
        · exact (Store.scanRange_sorted ..).filter _
      -- a row of the scanner's own with the version would be the one that is due
      have holder : ∀ y ∈ sc.store.scanRange ns start stop 0 now, y.key = x.key →
          y.version < x.version := by
        refine fun y hy hyx =>
          lt_of_le_of_ne (hmax y (List.mem_append_left _ hy) hyx) fun heq => hown ?_
        have hmine := merge_own hy fun z hz hzy =>
          (hmax z hz (hzy.trans hyx)).trans (le_of_eq heq.symm)
        rw [hyx, hkey, hmerged] at hmine
        rwa [Option.some.inj hmine]
      have hfirst : (merge ScanRow.key newerRow (({ sc with members := g :: (us ++ vs) } :
          Scanner).visible ns start stop now) : GoMap ScanRow)[x.key]? = some x := by
        rw [hrest, newerRow_eq]
        exact getElem?_merge_run holder hrun hxg fun y hy => hmax y ((visible_iff hperm).mp
          (hrest ▸ List.mem_append_right _ (List.mem_append_right _ hy)))
      rw [← hscan, ← hsame, hscan'] at hdue
      have hsecond := mem_sorted.mp (List.mem_of_mem_take hdue)
      rw [← hkey, hfirst] at hsecond
      exact Option.some.inj hsecond

/-- A holder whose clock is not behind hides what the scanner would hide. -/
theorem answer_eq_rows (ns start : Bytes) (stop : Option Bytes) {h : Holder}
    (hclock : now ≤ h.clockMs) (hreach : h.reachable = true) :
    answer h ns start stop 0 now = h.store.scanRange ns start (wireStop stop) 0 h.clockMs := by
  unfold answer Holder.scanLocal
  rw [if_pos hreach]
  refine List.filter_eq_self.mpr fun r hr => ?_
  rw [Bool.not_eq_true', expired_eq_false]
  exact fun _ e he => Int64.lt_of_le_of_lt hclock (Store.scanRange_fresh hr e he)

/-- A limit that fits the wire, clocks that are not behind, and versions that determine their
rows. -/
theorem supplied_of_clocks (hpos : 0 < limit) (hmax : limit.toNat ≤ 2 ^ 31)
    (hclock : ∀ h ∈ sc.asked, now ≤ h.clockMs)
    (hagree : ∀ a ∈ sc.visible ns start stop now, ∀ b ∈ sc.visible ns start stop now,
      a.key = b.key → a.version = b.version → a = b) : sc.Supplied ns start stop limit now := by
  have hpos' : 0 < limit.toNat := UInt32.lt_iff_toNat_lt.mp hpos
  intro r hdue
  have hr := ((sorted_spec _).2 r (List.mem_of_mem_take hdue)).1
  rcases List.mem_append.mp hr with hown | hothers
  · exact .inl hown
  refine .inr ⟨?_, fun x hx => hagree x hx r hr⟩
  obtain ⟨h, hh, hmem⟩ := List.mem_flatMap.mp hothers
  obtain ⟨hreach, -, -⟩ := mem_answer.mp hmem
  have hrows := answer_eq_rows ns start stop (hclock h hh) hreach
  have hsub : answer h ns start stop 0 now ⊆ sc.visible ns start stop now := fun x hx =>
    List.mem_append_right _ (List.mem_flatMap.mpr ⟨h, hh, hx⟩)
  rw [hrows] at hmem hsub
  refine ⟨_, List.mem_cons_of_mem _ (List.mem_map.mpr
    ⟨h, List.mem_filter.mpr ⟨hh, hreach⟩, rfl⟩), hmem, ?_⟩
  have hcut : wireLimit (fetch limit.toNat) = 0 ∨ wireLimit (fetch limit.toNat) =
      limit.toNat * 2 := by
    unfold wireLimit fetch
    omega
  rcases hcut with hcut | hcut
  · exact .inl (le_of_eq hcut)
  · refine .inr ?_
    have htake := mem_take_of_due (n := limit.toNat * 2) (Store.scanRange_sorted ..) hsub hdue hmem
      (by omega)
    have hbefore := ((mem_take_iff (Store.scanRange_sorted ..)).mp htake).2
    change (_ : Int) < wireLimit (fetch limit.toNat)
    rw [hcut]
    exact_mod_cast hbefore

end

/-- A routed scan with a limit has its keys ascending, each with the newest version among the
rows that came together. It returns the first rows of the merge of what the holders have, in
whatever order they are asked, exactly if those rows are supplied: which they are when the
doubled limit fits the wire, no holder's clock is behind the scanner's, and a version
determines its row. -/
theorem scan_limit_exact (sc : Scanner) (ns start : Bytes) (stop : Option Bytes) (limit : UInt32)
    (now : Int64) (hpos : 0 < limit) :
    ((sc.scan ns start stop limit now).Pairwise fun a b => compare a.key b.key = .lt) ∧
      (∀ r ∈ sc.scan ns start stop limit now, r ∈ sc.gathered ns start stop limit.toNat now ∧
        ∀ x ∈ sc.gathered ns start stop limit.toNat now, x.key = r.key → x.version ≤ r.version) ∧
      (sc.Exact ns start stop limit now ↔ sc.Supplied ns start stop limit now) ∧
      (limit.toNat ≤ 2 ^ 31 → (∀ h ∈ sc.asked, now ≤ h.clockMs) →
        (∀ a ∈ sc.visible ns start stop now, ∀ b ∈ sc.visible ns start stop now,
          a.key = b.key → a.version = b.version → a = b) → sc.Exact ns start stop limit now) := by
  obtain ⟨hsorted, hnewest⟩ := sorted_spec (sc.gathered ns start stop limit.toNat now)
  have htake := scan_eq_take sc ns start stop now hpos
  refine ⟨?_, fun r hr => ?_, ⟨Exact.supplied hpos, Supplied.exact hpos⟩,
    fun hmax hclock hagree => (supplied_of_clocks hpos hmax hclock hagree).exact hpos⟩
  · rw [htake]
    exact hsorted.sublist (List.take_sublist _ _)
  · rw [htake] at hr
    exact hnewest r (List.mem_of_mem_take hr)

/-! ## Two members -/

/-- A store with some keys of a namespace, each with its time of writing and its expiry. -/
def storeWith (rows : List (Bytes × UInt64 × Option Int64)) : Store :=
  newStore
    { kvMeta := rows.foldl (fun m r => m.insert (latestKey [0x6e] r.1) (.pointer
        { winner := { hlcPhysicalMs := r.2.1 }, expiresAtUnixMs := r.2.2, inlineValue := some [] }))
          ∅ }
    [0x61] [0x6d] (newClock 500) (newSequencer 0)

/-- A member without rows and one with these, whose clock stands at 100. -/
def scannerOf (rows : List (Bytes × UInt64 × Option Int64)) : Scanner :=
  { store := storeWith [], memberID := [1]
    members := [{ memberID := [2], store := storeWith rows, clockMs := 100 }] }

/-- Three rows and a clock that is behind: the limit takes the first. -/
theorem scan_limit_exact_first :
    (((scannerOf [([1], 5, none), ([2], 5, none), ([3], 5, none)]).scan [0x6e] [] none 1 200).map
        ScanRow.key = [[1]]) ∧
      (scannerOf [([1], 5, none), ([2], 5, none), ([3], 5, none)]).Exact [0x6e] [] none 1 200 := by
  refine ⟨by decide +kernel, (scan_limit_exact _ [0x6e] [] none 1 200 (by decide)).2.2.1.mpr ?_⟩
  have hdue : (scannerOf [([1], 5, none), ([2], 5, none), ([3], 5, none)]).due [0x6e]
      [] none 1 200 =
      [⟨[1], [], { hlcPhysicalMs := 5 }, none⟩] := by decide +kernel
  intro r hr
  rw [hdue, List.mem_singleton] at hr
  subst hr
  exact .inr ⟨⟨_, List.mem_cons_of_mem _ List.mem_cons_self, by decide +kernel,
    .inr (by decide +kernel)⟩, by decide +kernel⟩

/-- A limit of `2^31 + 1` is doubled to `2^32 + 2` and reaches the holder as two, so the third
row is missing. And with a limit of one, the two rows the holder returns have expired by the
scanner's clock, while the third row has not. -/
theorem scan_cut_short :
    ((scannerOf [([1], 5, none), ([2], 5, none), ([3], 5, none)]).scan [0x6e] [] none 2147483649
        100).map ScanRow.key = [[1], [2]] ∧
      (sorted ((scannerOf [([1], 5, none), ([2], 5, none), ([3], 5, none)]).visible [0x6e] [] none
        100)).map ScanRow.key = [[1], [2], [3]] ∧
      (scannerOf [([1], 5, some 150), ([2], 5, some 150), ([3], 5, none)]).scan [0x6e] [] none 1
        200 = [] ∧
      (sorted ((scannerOf [([1], 5, some 150), ([2], 5, some 150), ([3], 5, none)]).visible [0x6e]
        [] none 200)).map ScanRow.key = [[3]] := by
  decide +kernel

/-! ## Deletes -/

section
variable {sc : Scanner} {ns start key : Bytes} {stop : Option Bytes} {now : Int64}

/-- The highest version of a key that a scanned store has is `top`, and it is a tombstone. -/
structure Deleted (sc : Scanner) (ns key : Bytes) (top : Version) : Prop where
  held : ∃ x ∈ sc.sources none 0 0, ∃ lp, x.store.pointer? ns key = some lp ∧ lp.winner = top
  newest : ∀ x ∈ sc.sources none 0 0, ∀ lp, x.store.pointer? ns key = some lp → lp.winner ≤ top
  tombstone : ∀ x ∈ sc.sources none 0 0, ∀ lp, x.store.pointer? ns key = some lp →
    lp.winner = top → lp.tombstone = true

/-- Which stores are scanned does not depend on the range or the limit. -/
theorem exists_source {lim : Int} {x : Source} (hx : x ∈ sc.sources stop lim now) :
    ∃ y ∈ sc.sources none 0 0, y.store = x.store := by
  rcases List.mem_cons.mp hx with rfl | hx
  · exact ⟨_, List.mem_cons_self, rfl⟩
  · obtain ⟨h, hh, rfl⟩ := List.mem_map.mp hx
    exact ⟨_, List.mem_cons_of_mem _ (List.mem_map_of_mem hh), rfl⟩

/-- A store answers with a row of the key, which the scanner keeps, exactly if it shows what
it has of the key. -/
theorem exists_row_iff {x : Source} :
    (∃ r ∈ x.rows ns start, expired now r = false ∧ x.Reaches ns start r.key ∧ r.key = key) ↔
      ∃ lp, x.store.pointer? ns key = some lp ∧ x.Shows ns start key now lp := by
  constructor
  · rintro ⟨r, hr, hlive, hreach, rfl⟩
    obtain ⟨hin, row, hrow, hscan⟩ := Store.mem_scanRange.mp hr
    obtain ⟨lp, hlp, hshown, value, hvalue, heq⟩ := Store.scanRow_eq_some.mp hscan
    refine ⟨lp, by rw [Store.pointer?, hrow]; exact hlp, hshown, ?_, hin, ?_, hreach⟩
    · have hexpiry : lp.expiresAtUnixMs = r.expiresAtMs := congrArg ScanRow.expiresAtMs heq
      rw [hexpiry]
      exact expired_eq_false.mp hlive
    · cases hinline : lp.inlineValue with
      | some v => exact .inl rfl
      | none =>
        rw [hinline, Option.none_or, Option.map_eq_some_iff] at hvalue
        obtain ⟨rec, hrec, -⟩ := hvalue
        exact .inr (by rw [hrec]; rfl)
  · rintro ⟨lp, hpointer, hshows⟩
    obtain ⟨row, hrow, hlp⟩ := Option.bind_eq_some_iff.mp hpointer
    obtain ⟨value, hvalue⟩ : ∃ value, lp.inlineValue.or
        ((x.store.disk.kvData[dataKey ns key lp.winner]?).map (·.value.getInline)) = some value :=
      Option.isSome_iff_exists.mp (by simpa using hshows.valued)
    refine ⟨⟨key, value, lp.winner, lp.expiresAtUnixMs⟩, ?_, ?_, hshows.reaches, rfl⟩
    · exact Store.mem_scanRange.mpr ⟨hshows.ranged, row, hrow,
        Store.scanRow_eq_some.mpr ⟨lp, hlp, hshows.visible, value, hvalue, rfl⟩⟩
    · exact expired_eq_false.mpr hshows.unexpired

/-- A key is returned exactly if a scanned store shows what it has of it. -/
theorem key_mem_routed {lim : Int} :
    (∃ r ∈ sc.routed ns start stop lim now, r.key = key) ↔
      ∃ x ∈ sc.sources stop lim now, ∃ lp, x.store.pointer? ns key = some lp ∧
        x.Shows ns start key now lp := by
  simp only [← exists_row_iff]
  constructor
  · rintro ⟨r, hr, rfl⟩
    obtain ⟨hlive, x, hx, hmem, hreach⟩ := mem_gathered.mp ((sorted_spec _).2 r hr).1
    exact ⟨x, hx, r, hmem, hlive, hreach, rfl⟩
  · rintro ⟨x, hx, r, hmem, hlive, hreach, rfl⟩
    have hgathered : r ∈ sc.gathered ns start stop lim now :=
      mem_gathered.mpr ⟨hlive, x, hx, hmem, hreach⟩
    obtain ⟨m, hm⟩ := Option.isSome_iff_exists.mp (isSome_merge hgathered :
      ((merge ScanRow.key newerRow (sc.gathered ns start stop lim now) :
        GoMap ScanRow)[r.key]?).isSome)
    have hkey := (mem_of_getElem?_merge hm).2
    exact ⟨m, mem_sorted.mpr (hkey ▸ hm), hkey⟩

/-- A deleted key is not returned exactly if no scanned store shows an older version of
it. -/
theorem routed_hides_deleted {lim : Int} {top : Version} (hdel : sc.Deleted ns key top) :
    (∀ r ∈ sc.routed ns start stop lim now, r.key ≠ key) ↔
      ∀ x ∈ sc.sources stop lim now, ∀ lp, x.store.pointer? ns key = some lp → lp.winner < top →
        ¬ x.Shows ns start key now lp := by
  constructor
  · intro hhides x hx lp hlp _ hshows
    obtain ⟨r, hr, hkey⟩ := key_mem_routed.mpr ⟨x, hx, lp, hlp, hshows⟩
    exact hhides r hr hkey
  · intro hstale r hr hkey
    obtain ⟨x, hx, lp, hlp, hshows⟩ := key_mem_routed.mp ⟨r, hr, hkey⟩
    obtain ⟨y, hy, hstore⟩ := exists_source hx
    have hly : y.store.pointer? ns key = some lp := by rwa [hstore]
    rcases lt_or_eq_of_le (hdel.newest y hy lp hly) with hlt | heq
    · exact hstale x hx lp hlp hlt hshows
    · have hvisible := hshows.visible
      simp [Store.hidden, hdel.tombstone y hy lp hly heq] at hvisible

end

def pointerAt (written : UInt64) (tombstone : Bool) : LatestPointer :=
  { winner := { hlcPhysicalMs := written }, tombstone, inlineValue := some [] }

def storeOf (written : UInt64) (tombstone : Bool) : Store :=
  let row : MetaRow := .pointer (pointerAt written tombstone)
  newStore { kvMeta := (∅ : GoMap MetaRow).insert (latestKey [0x6e] [1]) row } [0x61] [0x6d]
    (newClock 500) (newSequencer 0)

/-- A member that has deleted a key, and another with its own state of it. -/
def deletedAt (other : Store) : Scanner :=
  { store := storeOf 9 true, memberID := [1]
    members := [{ memberID := [2], store := other, clockMs := 100 }] }

/-- The other member still has an older version, and the scan starts behind the key. -/
theorem routed_hides_deleted_behind :
    (deletedAt (storeOf 5 false)).Deleted [0x6e] [1] { hlcPhysicalMs := 9 } ∧
      ∀ r ∈ (deletedAt (storeOf 5 false)).routed [0x6e] [2] none 5 100, r.key ≠ [1] := by
  have hptr : ∀ x ∈ (deletedAt (storeOf 5 false)).sources none 0 0, ∀ lp,
      x.store.pointer? [0x6e] [1] = some lp → lp = pointerAt 9 true ∨ lp = pointerAt 5 false := by
    decide +kernel
  have hdel : (deletedAt (storeOf 5 false)).Deleted [0x6e] [1] { hlcPhysicalMs := 9 } := by
    refine ⟨⟨_, List.mem_cons_self, pointerAt 9 true, by decide +kernel, rfl⟩,
      fun x hx lp hlp => ?_, fun x hx lp hlp heq => ?_⟩
    · rcases hptr x hx lp hlp with rfl | rfl <;> decide +kernel
    · rcases hptr x hx lp hlp with rfl | rfl
      · rfl
      · exact absurd heq (by decide +kernel)
  refine ⟨hdel, (routed_hides_deleted hdel).mpr fun x hx lp _ _ hshows => ?_⟩
  have hranged : ∀ x ∈ (deletedAt (storeOf 5 false)).sources none 5 100,
      inRange [2] x.stop [1] = false := by decide +kernel
  have hin := hshows.ranged
  rw [hranged x hx] at hin
  cases hin

/-- A key was deleted at 9, and another member still has its version of 5: the scan
returns that. -/
theorem routed_shows_deleted :
    (storeOf 9 true).pointer? [0x6e] [1] = some (pointerAt 9 true) ∧
      ((deletedAt (storeOf 5 false)).routed [0x6e] [] none 5 100).map
        (fun r => (r.key, r.version)) = [([1], { hlcPhysicalMs := 5 })] := by
  decide +kernel

end Scanner

end WaveSpan.Records
