/-
WaveSpan.Records.Pages — paged scans of a namespace
(`internal/recordstore/store.go`, `ScanRecordsFrom`).

A page is up to `limit` pointer rows from a cursor on, and the records they name. The
cursor of the next page is the last key followed by a zero byte, which is the first byte
string after it, whatever bytes the key ends in (`filter_after`). So a cursor stands
after the `i`th key of the namespace, and the pages are consecutive windows of its rows
(`scanRecordsFrom_after`).

A page ends the scan when it is short. It also does when its last key is empty, since a
copy of an empty key is nil in Go: with pages of one row the scan of a namespace that has
the empty key stops after it (`pages_cut_short`).
-/
import WaveSpan.Records.Inbound
import WaveSpan.Records.Spaces

namespace WaveSpan.Records

open WaveSpan.Wire WaveSpan.Collections

/-! ## Pages -/

namespace Store

/-- Up to `limit` rows of a namespace from `start` on: their records, and where the
next page starts (`none` at the end of the namespace, and after an empty key). -/
def scanRecordsFrom (s : Store) (ns : Bytes) (start : Option Bytes) (limit : Int) :
    List StoredRecord × Option Bytes :=
  let rows := s.scanMeta (latestKey ns (start.getD [])) (prefixEnd (namespacePrefix ns))
  let page := if 0 < limit then rows.take limit.toNat else rows
  let next :=
    match page.getLast? with
    | none => none
    | some r =>
      let lastKey := r.1.drop (namespacePrefix ns).length
      if 0 < limit ∧ limit ≤ page.length ∧ lastKey ≠ [] then some (lastKey ++ [0]) else none
  (page.filterMap (s.scanRecord ns), next)

variable {s : Store} {ns : Bytes}

/-- A row of a namespace is one of its pointers, and gives the key's record. -/
theorem scanRecord_eq {r : Bytes × MetaRow} (hrow : s.disk.kvMeta[r.1]? = some r.2)
    (hns : namespacePrefix ns <+: r.1) :
    ∃ key, r.1 = latestKey ns key ∧ r.1.drop (namespacePrefix ns).length = key ∧
      s.scanRecord ns r = s.getRecord ns key := by
  obtain ⟨key, hkey⟩ := hns
  have hdrop : r.1.drop (namespacePrefix ns).length = key := by rw [← hkey]; simp
  refine ⟨key, hkey.symm, hdrop, ?_⟩
  have hptr : s.disk.kvMeta[latestKey ns key]? = some r.2 := by
    rw [← hrow, ← hkey]
    rfl
  unfold scanRecord getRecord pointer?
  rw [hptr, hdrop]
  rfl

theorem mem_scanMeta {lo : Bytes} {hi : Option Bytes} {r : Bytes × MetaRow} :
    r ∈ s.scanMeta lo hi ↔ s.disk.kvMeta[r.1]? = some r.2 ∧ inRange lo hi r.1 = true := by
  unfold scanMeta
  rw [List.mem_filter, Std.ExtTreeMap.mem_toList_iff_getElem?_eq_some]

end Store

/-! ## Sorted keys -/

/-- A byte string with a zero byte behind it is the next one. -/
theorem isGE_append_zero {a b : Bytes} (h : compare a b = .lt) :
    (compare b (a ++ [0])).isGE = true := by
  induction a generalizing b with
  | nil =>
    cases b with
    | nil => simp at h
    | cons y b =>
      rw [List.nil_append, compare_cons_cons]
      cases hy : compare y 0 with
      | lt =>
        have := compare_byte_lt.mp hy
        simp at this
      | eq => cases b <;> simp
      | gt => rfl
  | cons x a ih =>
    cases b with
    | nil => simp at h
    | cons y b =>
      rw [compare_cons_cons] at h
      rw [List.cons_append, compare_cons_cons]
      cases hxy : compare x y with
      | lt =>
        rw [Std.OrientedCmp.gt_iff_lt.mpr hxy]
        rfl
      | eq =>
        obtain rfl := Std.LawfulEqCmp.eq_of_compare hxy
        rw [hxy] at h
        simpa using ih h
      | gt =>
        rw [hxy] at h
        cases h

theorem compare_append_zero (a : Bytes) : compare a (a ++ [0]) = .lt := by
  have h := compare_append_left a [] [0]
  rw [List.append_nil] at h
  rw [h]
  rfl

section
variable {α : Type} {key : α → Bytes}

/-- In sorted rows, those from the cursor behind a row on are those after it. -/
theorem filter_after {l : List α} (hl : l.Pairwise fun a b => compare (key a) (key b) = .lt)
    {j : Nat} {x : α} (hx : l[j]? = some x) :
    l.filter (fun r => (compare (key r) (key x ++ [0])).isGE) = l.drop (j + 1) := by
  obtain ⟨hj, rfl⟩ := List.getElem?_eq_some_iff.mp hx
  rw [List.pairwise_iff_getElem] at hl
  have hsplit := List.filter_append (p := fun r => (compare (key r) (key l[j] ++ [0])).isGE)
    (l.take (j + 1)) (l.drop (j + 1))
  rw [List.take_append_drop] at hsplit
  have hfront : (l.take (j + 1)).filter (fun r => (compare (key r) (key l[j] ++ [0])).isGE) =
      [] := by
    rw [List.filter_eq_nil_iff]
    intro r hr
    obtain ⟨i, hi, rfl⟩ := List.mem_take_iff_getElem.mp hr
    have hlt : compare (key l[i]) (key l[j] ++ [0]) = .lt := by
      rcases Nat.lt_or_ge i j with hij | hij
      · exact Std.TransCmp.lt_trans (hl i j (by omega) hj hij) (compare_append_zero _)
      · obtain rfl : i = j := by omega
        exact compare_append_zero _
    simp [hlt]
  have hback : (l.drop (j + 1)).filter (fun r => (compare (key r) (key l[j] ++ [0])).isGE) =
      l.drop (j + 1) := by
    rw [List.filter_eq_self]
    intro r hr
    obtain ⟨i, hi, rfl⟩ := List.mem_drop_iff_getElem.mp hr
    exact isGE_append_zero (hl j (j + 1 + i) hj (by omega) (by omega))
  rw [hsplit, hfront, hback, List.nil_append]

end

def After (keys : List Bytes) (i : Nat) : Option Bytes → Prop
  | none => i = 0
  | some c => ∃ j k, i = j + 1 ∧ keys[j]? = some k ∧ c = k ++ [0]

/-- The rows from a cursor on. -/
theorem filter_cursor {α : Type} {key : α → Bytes} {l : List α}
    (hl : l.Pairwise fun a b => compare (key a) (key b) = .lt) {i : Nat} {cursor : Option Bytes}
    (h : After (l.map key) i cursor) :
    l.filter (fun r => (compare (key r) (cursor.getD [])).isGE) = l.drop i := by
  cases cursor with
  | none =>
    obtain rfl : i = 0 := h
    rw [List.drop_zero, List.filter_eq_self]
    intro r _
    show (compare (key r) []).isGE = true
    cases key r <;> simp
  | some c =>
    obtain ⟨j, k, rfl, hk, rfl⟩ := h
    rw [List.getElem?_map, Option.map_eq_some_iff] at hk
    obtain ⟨x, hx, rfl⟩ := hk
    exact filter_after hl hx

/-! ## The rows of a namespace -/

namespace Store

variable {s : Store} {ns : Bytes} {limit : Int}

def rows (s : Store) (ns : Bytes) : List (Bytes × MetaRow) :=
  s.scanMeta (namespacePrefix ns) (prefixEnd (namespacePrefix ns))

def userKey (ns : Bytes) (r : Bytes × MetaRow) : Bytes := r.1.drop (namespacePrefix ns).length

def rowKeys (s : Store) (ns : Bytes) : List Bytes := (s.rows ns).map (userKey ns)

/-- The rows of a namespace. -/
theorem mem_rows {r : Bytes × MetaRow} :
    r ∈ s.rows ns ↔ s.disk.kvMeta[r.1]? = some r.2 ∧ r.1 = latestKey ns (userKey ns r) := by
  rw [rows, mem_scanMeta, inRange_prefixEnd]
  constructor
  · rintro ⟨hrow, k, hk⟩
    refine ⟨hrow, ?_⟩
    rw [userKey, ← hk, List.drop_left]
    rfl
  · rintro ⟨hrow, hk⟩
    exact ⟨hrow, userKey ns r, hk.symm⟩

/-- Rows stand in the order of their keys. -/
theorem rows_sorted (s : Store) (ns : Bytes) :
    (s.rows ns).Pairwise fun a b => compare (userKey ns a) (userKey ns b) = .lt := by
  have hmeta : (s.rows ns).Pairwise fun a b => compare a.1 b.1 = .lt :=
    List.Pairwise.filter _ Std.ExtTreeMap.ordered_keys_toList
  refine hmeta.imp_of_mem fun {a b} ha hb hlt => ?_
  rw [(mem_rows.mp ha).2, (mem_rows.mp hb).2, latestKey, latestKey, compare_append_left] at hlt
  exact hlt

/-- A scan from a key on reads the rows that are not before it. -/
theorem scanMeta_from (s : Store) (ns c : Bytes) :
    s.scanMeta (latestKey ns c) (prefixEnd (namespacePrefix ns)) =
      (s.rows ns).filter fun r => (compare (userKey ns r) c).isGE := by
  rw [rows, scanMeta, scanMeta, List.filter_filter]
  refine List.filter_congr fun r _ => ?_
  rw [Bool.eq_iff_iff, Bool.and_eq_true, inRange_prefixEnd]
  have hrange := inRange_append (namespacePrefix ns) c r.1 none
  simp only at hrange
  rw [show latestKey ns c = namespacePrefix ns ++ c from rfl, hrange]
  constructor
  · rintro ⟨u, hu, hin⟩
    refine ⟨?_, ⟨u, hu.symm⟩⟩
    rw [userKey, hu, List.drop_left]
    simpa [inRange] using hin
  · rintro ⟨hge, u, hu⟩
    rw [userKey, ← hu, List.drop_left] at hge
    exact ⟨u, hu.symm, by simpa [inRange] using hge⟩

/-- The page at a cursor that stands after `i` keys: the next window of the rows; and
the cursor after it, or none when the rows are at an end. -/
theorem scanRecordsFrom_after (hlimit : 1 ≤ limit)
    (hempty : 2 ≤ limit ∨ s.disk.kvMeta[latestKey ns []]? = none) {i : Nat}
    {cursor : Option Bytes} (h : After (s.rowKeys ns) i cursor) :
    (s.scanRecordsFrom ns cursor limit).1 =
        (((s.rows ns).drop i).take limit.toNat).filterMap (s.scanRecord ns) ∧
      (if (s.rows ns).length < i + limit.toNat then (s.scanRecordsFrom ns cursor limit).2 = none
        else (s.scanRecordsFrom ns cursor limit).2.isSome ∧
          After (s.rowKeys ns) (i + limit.toNat) (s.scanRecordsFrom ns cursor limit).2) := by
  have hpos : 0 < limit := by omega
  have hwindow : s.scanMeta (latestKey ns (cursor.getD [])) (prefixEnd (namespacePrefix ns)) =
      (s.rows ns).drop i := by
    rw [scanMeta_from]
    exact filter_cursor (rows_sorted s ns) h
  simp only [scanRecordsFrom, hwindow, if_pos hpos]
  refine ⟨trivial, ?_⟩
  split
  · rename_i hshort
    -- a short page
    split
    · rfl
    · rw [if_neg]
      simp only [List.length_take, List.length_drop]
      omega
  · rename_i hfull
    obtain ⟨n, hn⟩ : ∃ n, limit.toNat = n + 1 := ⟨limit.toNat - 1, by omega⟩
    have hlast : (((s.rows ns).drop i).take limit.toNat).getLast? = (s.rows ns)[i + n]? := by
      rw [List.getLast?_eq_getElem?, List.length_take, List.length_drop, List.getElem?_take,
        List.getElem?_drop, if_pos (by omega)]
      congr 1
      omega
    have hlt : i + n < (s.rows ns).length := by omega
    rw [hlast, List.getElem?_eq_getElem hlt]
    -- the empty key could only be the first
    have hne : userKey ns (s.rows ns)[i + n] ≠ [] := by
      intro hnil
      rcases hempty with htwo | hnone
      · have h0 := List.pairwise_iff_getElem.mp (rows_sorted s ns) 0 (i + n) (by omega) hlt
          (by omega)
        rw [hnil] at h0
        exact compare_nil_ne_lt _ h0
      · obtain ⟨hrow, hkey⟩ := mem_rows.mp (List.getElem_mem hlt)
        rw [hkey, hnil, hnone] at hrow
        cases hrow
    simp only
    rw [if_pos]
    · refine ⟨rfl, i + n, userKey ns (s.rows ns)[i + n], by omega, ?_, rfl⟩
      rw [rowKeys, List.getElem?_map, List.getElem?_eq_getElem hlt]
      rfl
    · refine ⟨hpos, ?_, hne⟩
      simp only [List.length_take, List.length_drop]
      omega

/-! ## All pages -/

/-- The records of all pages from a cursor on; `none` when the fuel does not reach the
end. -/
def pages (s : Store) (ns : Bytes) (limit : Int) : Nat → Option Bytes → Option (List StoredRecord)
  | 0, _ => none
  | fuel + 1, cursor =>
    let page := s.scanRecordsFrom ns cursor limit
    match page.2 with
    | none => some page.1
    | some next => (pages s ns limit fuel (some next)).map (page.1 ++ ·)

/-- Pages from a cursor on are the rows behind it. -/
theorem pages_after (hlimit : 1 ≤ limit)
    (hempty : 2 ≤ limit ∨ s.disk.kvMeta[latestKey ns []]? = none) {fuel i : Nat}
    {cursor : Option Bytes} (hfuel : (s.rows ns).length < i + fuel)
    (h : After (s.rowKeys ns) i cursor) :
    s.pages ns limit fuel cursor = some (((s.rows ns).drop i).filterMap (s.scanRecord ns)) := by
  induction fuel generalizing i cursor with
  | zero =>
    -- a cursor stands after keys there are
    exfalso
    cases cursor with
    | none =>
      obtain rfl : i = 0 := h
      omega
    | some c =>
      obtain ⟨j, k, rfl, hk, -⟩ := h
      have := (List.getElem?_eq_some_iff.mp hk).1
      simp only [rowKeys, List.length_map] at this
      omega
  | succ fuel ih =>
    obtain ⟨hpage, hnext⟩ := scanRecordsFrom_after hlimit hempty h
    simp only [pages]
    split at hnext
    · rename_i hshort
      rw [hnext, hpage, List.take_of_length_le]
      simp only [List.length_drop]
      omega
    · obtain ⟨hsome, hafter⟩ := hnext
      obtain ⟨next, heq⟩ := Option.isSome_iff_exists.mp hsome
      rw [heq] at hafter
      rw [heq, hpage]
      simp only
      rw [ih (by omega) hafter, Option.map_some, ← List.filterMap_append, ← List.drop_drop,
        List.take_append_drop]

/-- The winning records of a namespace with their keys, in key order. -/
def winners (s : Store) (ns : Bytes) : List (Bytes × StoredRecord) :=
  (s.rows ns).filterMap fun r => (s.scanRecord ns r).map (userKey ns r, ·)

/-- They are the records the namespace's keys have, and each key comes once. -/
theorem winners_spec (s : Store) (ns : Bytes) :
    ((s.winners ns).Pairwise fun a b => compare a.1 b.1 = .lt) ∧
      ∀ key rec, (key, rec) ∈ s.winners ns ↔ s.getRecord ns key = some rec := by
  constructor
  · rw [winners, List.pairwise_filterMap]
    refine (rows_sorted s ns).imp fun {a b} hlt x hx y hy => ?_
    obtain ⟨_, -, rfl⟩ := Option.map_eq_some_iff.mp hx
    obtain ⟨_, -, rfl⟩ := Option.map_eq_some_iff.mp hy
    exact hlt
  · intro key rec
    rw [winners, List.mem_filterMap]
    constructor
    · rintro ⟨r, hr, hrec⟩
      obtain ⟨rec', hscan, heq⟩ := Option.map_eq_some_iff.mp hrec
      cases heq
      obtain ⟨hrow, hkey⟩ := mem_rows.mp hr
      obtain ⟨key', -, hdrop, hget⟩ := scanRecord_eq hrow ⟨_, hkey.symm⟩
      rw [← hscan, hget, ← hdrop]
      rfl
    · intro hget
      obtain ⟨lp, hlp, -⟩ := Option.bind_eq_some_iff.mp hget
      obtain ⟨row, hrow, -⟩ := Option.bind_eq_some_iff.mp hlp
      have hdrop : userKey ns (latestKey ns key, row) = key := List.drop_left
      refine ⟨(latestKey ns key, row), mem_rows.mpr ⟨hrow, by rw [hdrop]⟩, ?_⟩
      obtain ⟨key', hkey', -, hscan⟩ :=
        scanRecord_eq (r := (latestKey ns key, row)) hrow (List.prefix_append _ _)
      obtain rfl := (latestKey_inj.mp hkey').2
      rw [hscan, hget, hdrop]
      rfl

/-- The row of the empty key is the first, and with pages of one row it is the last read. -/
theorem pages_empty_key {row : MetaRow} (hrow : s.disk.kvMeta[latestKey ns []]? = some row) :
    ∃ rest, s.rows ns = (latestKey ns [], row) :: rest ∧ ∀ fuel,
      s.pages ns 1 (fuel + 1) none =
        some ([(latestKey ns [], row)].filterMap (s.scanRecord ns)) := by
  have hnil : userKey ns (latestKey ns [], row) = [] := List.drop_left
  have hmem : (latestKey ns [], row) ∈ s.rows ns := mem_rows.mpr ⟨hrow, by rw [hnil]⟩
  obtain ⟨rest, hrest⟩ : ∃ rest, s.rows ns = (latestKey ns [], row) :: rest := by
    have hsorted := rows_sorted s ns
    cases hrows : s.rows ns with
    | nil => simp [hrows] at hmem
    | cons r rest =>
      rw [hrows] at hmem hsorted
      rcases List.mem_cons.mp hmem with rfl | hin
      · exact ⟨rest, rfl⟩
      · have hlt := (List.pairwise_cons.mp hsorted).1 _ hin
        rw [hnil] at hlt
        exact absurd hlt (compare_nil_ne_lt _)
  refine ⟨rest, hrest, fun fuel => ?_⟩
  have hstart : After (s.rowKeys ns) 0 none := rfl
  have hwindow : s.scanMeta (latestKey ns []) (prefixEnd (namespacePrefix ns)) = s.rows ns := by
    rw [scanMeta_from]
    exact filter_cursor (rows_sorted s ns) hstart
  have hpage : s.scanRecordsFrom ns none 1 =
      ([(latestKey ns [], row)].filterMap (s.scanRecord ns), none) := by
    have hkey : (latestKey ns []).drop (namespacePrefix ns).length = [] := hnil
    simp [scanRecordsFrom, hwindow, hrest, hkey]
  rw [pages, hpage]

/-- The rows behind that of the empty key give the records of the other keys. -/
theorem filterMap_rest {row : MetaRow} {rest : List (Bytes × MetaRow)}
    (hrows : s.rows ns = (latestKey ns [], row) :: rest) :
    rest.filterMap (s.scanRecord ns) = [] ↔ ∀ key, key ≠ [] → s.getRecord ns key = none := by
  have hnil : userKey ns (latestKey ns [], row) = [] := List.drop_left
  rw [List.filterMap_eq_nil_iff]
  constructor
  · intro hnone key hne
    by_contra hget
    obtain ⟨rec, hget⟩ := Option.ne_none_iff_exists'.mp hget
    obtain ⟨r, hr, hrec⟩ := List.mem_filterMap.mp (((s.winners_spec ns).2 key rec).mpr hget)
    obtain ⟨rec', hscan, heq⟩ := Option.map_eq_some_iff.mp hrec
    cases heq
    rw [hrows] at hr
    rcases List.mem_cons.mp hr with rfl | hr
    · exact hne hnil
    · rw [hnone r hr] at hscan
      cases hscan
  · intro hnone r hr
    have hsorted := rows_sorted s ns
    rw [hrows] at hsorted
    have hlt := (List.pairwise_cons.mp hsorted).1 r hr
    obtain ⟨hrow, hkey⟩ := mem_rows.mp (hrows ▸ List.mem_cons_of_mem _ hr)
    obtain ⟨key, -, hdrop, hget⟩ := scanRecord_eq hrow ⟨_, hkey.symm⟩
    rw [hget]
    refine hnone key fun hempty => ?_
    rw [hnil, userKey, hdrop, hempty] at hlt
    exact compare_nil_ne_lt _ hlt

theorem scanRecords_eq_winners (s : Store) (ns : Bytes) :
    s.scanRecords ns [] none = (s.winners ns).map Prod.snd := by
  rw [scanRecords, winners, List.map_filterMap]
  have hrows : s.scanMeta (latestKey ns []) (scanStop ns none) = s.rows ns := by
    rw [rows, latestKey, List.append_nil]
    rfl
  rw [hrows]
  congr 1
  funext r
  cases s.scanRecord ns r <;> rfl

end Store

/-- Pages cover the namespace: the iteration comes to an end, and what it has visited is every
winning record once, in key order, as one scan returns them. -/
structure Store.Covered (s : Store) (ns : Bytes) (limit : Int) : Prop where
  visits : ∀ fuel, (s.rows ns).length < fuel →
    s.pages ns limit fuel none = some (s.scanRecords ns [] none)
  ordered : s.scanRecords ns [] none = (s.winners ns).map Prod.snd ∧
    (s.winners ns).Pairwise fun a b => compare a.1 b.1 = .lt
  winning : ∀ key rec, (key, rec) ∈ s.winners ns ↔ s.getRecord ns key = some rec

/-- The pages of a namespace cover it if and only if they have two rows or more, or it does not
have the empty key, or it has a record under no other. -/
theorem pages_cover (s : Store) (ns : Bytes) (limit : Int) (hlimit : 1 ≤ limit) :
    s.Covered ns limit ↔ 2 ≤ limit ∨ s.disk.kvMeta[latestKey ns []]? = none ∨
      ∀ key, key ≠ [] → s.getRecord ns key = none := by
  have hscan : s.scanRecords ns [] none = (s.rows ns).filterMap (s.scanRecord ns) := by
    rw [s.scanRecords_eq_winners ns, Store.winners, List.map_filterMap]
    congr 1
    funext r
    cases s.scanRecord ns r <;> rfl
  have hspec := s.winners_spec ns
  suffices hvisits : (∀ fuel, (s.rows ns).length < fuel →
      s.pages ns limit fuel none = some (s.scanRecords ns [] none)) ↔
      2 ≤ limit ∨ s.disk.kvMeta[latestKey ns []]? = none ∨
        ∀ key, key ≠ [] → s.getRecord ns key = none from
    ⟨fun h => hvisits.mp h.visits,
      fun h => ⟨hvisits.mpr h, ⟨s.scanRecords_eq_winners ns, hspec.1⟩, hspec.2⟩⟩
  by_cases hplain : 2 ≤ limit ∨ s.disk.kvMeta[latestKey ns []]? = none
  · refine iff_of_true (fun fuel hfuel => ?_) (hplain.imp_right .inl)
    have hstart : After (s.rowKeys ns) 0 none := rfl
    rw [Store.pages_after hlimit hplain (by omega : _ < 0 + fuel) hstart, hscan, List.drop_zero]
  · -- pages of one row, of which the empty key's is the first
    obtain ⟨hone, hrow⟩ := not_or.mp hplain
    obtain rfl : limit = 1 := by omega
    obtain ⟨row, hrow'⟩ := Option.ne_none_iff_exists'.mp hrow
    obtain ⟨rest, hrows, hpages⟩ := Store.pages_empty_key hrow'
    rw [hscan, hrows, ← List.singleton_append, List.filterMap_append]
    have hothers := Store.filterMap_rest hrows
    constructor
    · intro h
      have hfirst := h ((s.rows ns).length + 1) (by simp [hrows])
      rw [hpages, Option.some.injEq, List.self_eq_append_right] at hfirst
      exact .inr (.inr (hothers.mp hfirst))
    · rintro (htwo | hnone | hnone) fuel hfuel
      · exact absurd htwo hone
      · exact absurd hnone hrow
      · obtain ⟨n, rfl⟩ : ∃ n, fuel = n + 1 := ⟨fuel - 1, by omega⟩
        rw [hpages, hothers.mpr hnone, List.append_nil]

def recordOf (key : Bytes) : StoredRecord :=
  { ns := [0x6e], logicalKey := key, value := .inline key,
    version := { hlcPhysicalMs := 5, hlcLogical := 0, writerClusterID := [0x61],
                 writerMemberID := [0x6d], writerSequence := 1 } }

def storeOfRecords (recs : List StoredRecord) : Store :=
  recs.foldl (fun s rec => ((s.apply rec .put).map (·.2)).getD s)
    (newStore {} [0x61] [0x6d] (newClock 500) (newSequencer 0))

def storeWithKeys (keys : List Bytes) : Store := storeOfRecords (keys.map recordOf)

/-- Pages of one row over keys of which one extends another by a zero byte. -/
theorem pages_cover_zero :
    (storeWithKeys [[1], [1, 0], [2]]).pages [0x6e] 1 4 none =
      some ((storeWithKeys [[1], [1, 0], [2]]).scanRecords [0x6e] [] none) :=
  ((pages_cover (storeWithKeys [[1], [1, 0], [2]]) [0x6e] 1 (by decide)).mpr
    (.inr (.inl (by decide +kernel)))).visits 4 (by decide +kernel)

/-- With the empty key and pages of one row the scan ends after the first page. -/
theorem pages_cut_short :
    (storeWithKeys [[], [1]]).pages [0x6e] 1 1 none = some [recordOf []] ∧
      (storeWithKeys [[], [1]]).scanRecords [0x6e] [] none = [recordOf [], recordOf [1]] := by
  decide +kernel

end WaveSpan.Records
