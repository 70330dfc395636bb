/-
WaveSpan.Vector.Delta — the delta of a live vector index and what it makes of a segment
(`internal/vector/delta.go`, `segment.go`).

A live index is an immutable main segment under a small delta of inserts and tombstones. A search
looks at both, with twice as many candidates as it is asked for, and the delta's entries hide those
of the segment (`checkOne`). A merge writes the next segment (`mergeVecs`), which holds what the
delta makes of the old one (`getElem?_mergeVecs`).

What an exact segment finds is `Exact`; a delta is one for its inserts (`exact_delta`). The
candidates of a search are the delta's hits and what of the segment's nothing hides
(`getElem?_byID`).
-/
import WaveSpan.Collections.Store
import WaveSpan.Vector.TopK

namespace WaveSpan.Vector

open WaveSpan.Wire
open WaveSpan.Collections (GoMap)
open WaveSpan.Rows (mem_iff_exists)

variable {V D : Type}

/-! ## The delta -/

structure Delta (V : Type) where
  vecs : GoMap V := ∅
  tombs : GoMap Bool := ∅

def Delta.insert (d : Delta V) (id : Bytes) (vec : V) : Delta V :=
  { vecs := d.vecs.insert id vec, tombs := d.tombs.erase id }

def Delta.delete (d : Delta V) (id : Bytes) : Delta V :=
  { vecs := d.vecs.erase id, tombs := d.tombs.insert id true }

def Delta.tombstoned (d : Delta V) (id : Bytes) : Bool := (d.tombs[id]?).getD false

def Delta.isEmpty (d : Delta V) : Bool := d.vecs.isEmpty && d.tombs.isEmpty

/-- The hits of a loop over a map that visits its keys in `order`. -/
def hitsOf (dist : V → V → D) (query : V) (vecs : GoMap V) (order : List Bytes) :
    List (Candidate D) :=
  order.filterMap fun id => vecs[id]?.map fun v => { id, distance := dist query v }

def Delta.search (ds : Distances D) (dist : V → V → D) (d : Delta V) (order : List Bytes)
    (query : V) (k : Int64) : List (Candidate D) :=
  (TopK.offer ds k (hitsOf dist query d.vecs order)).result ds

/-- The entries of the next main segment: what the tombstones leave of the old one, and
the inserts over it. -/
def mergeVecs (old : GoMap V) (batch : Delta V) : GoMap V :=
  old.filter (fun id _ => !batch.tombstoned id) ∪ batch.vecs

/-! ## Searches -/

/-- The over-fetch of a Search, in a machine integer. -/
def pad (k : Int64) : Int64 := k + k

theorem toInt_pad {k : Int64} (h0 : 0 ≤ k.toInt) (h : k.toInt < 2 ^ 62) :
    (pad k).toInt = k.toInt + k.toInt := by
  rw [pad, Int64.toInt_add]
  exact Int.bmod_eq_of_le (by omega) (by omega)

/-- One candidate of the main segment against the tombstones and what the delta gave. -/
def checkOne (d : Delta V) (byID : GoMap (Candidate D)) (c : Candidate D) :
    GoMap (Candidate D) :=
  if d.tombstoned c.id then byID
  else if byID.contains c.id then byID
  else byID.insert c.id c

def candidate (dist : V → V → D) (query : V) (id : Bytes) (v : V) : Candidate D :=
  { id, distance := dist query v }

/-- What an exact segment finds: the `n` nearest of its entries at their distances, all
of them if there are fewer. -/
structure Exact (ds : Distances D) (dist : V → V → D) (query : V) (n : Int64) (vecs : GoMap V)
    (found : List (Candidate D)) : Prop where
  nodup : (found.map Candidate.id).Nodup
  genuine : ∀ c ∈ found, vecs[c.id]?.map (candidate dist query c.id) = some c
  length : found.length = min n.toInt.toNat vecs.size
  nearest : ∀ p ∈ vecs.toList, p.1 ∉ found.map Candidate.id →
    ∀ c ∈ found, ds.lt (dist query p.2) c.distance = false

/-! ## Layers -/

/-- An entry of one layer over the entry below it. -/
def layer {α : Type} (top : Option α) (tomb : Bool) (base : Option α) : Option α :=
  top.or (if tomb then none else base)

def Delta.over (d : Delta V) (id : Bytes) (base : Option V) : Option V :=
  layer d.vecs[id]? (d.tombstoned id) base

/-- A delta with an insert, over a segment. -/
theorem Delta.over_insert (d : Delta V) (id' : Bytes) (vec : V) (id : Bytes) (base : Option V) :
    (d.insert id' vec).over id base = if id' = id then some vec else d.over id base := by
  by_cases h : id' = id
  · subst h
    simp [Delta.over, Delta.insert, layer]
  · simp [Delta.over, Delta.insert, Delta.tombstoned, Std.ExtTreeMap.getElem?_insert,
      Std.ExtTreeMap.getElem?_erase, h]

/-- A delta with a delete. -/
theorem Delta.over_delete (d : Delta V) (id' id : Bytes) (base : Option V) :
    (d.delete id').over id base = if id' = id then none else d.over id base := by
  by_cases h : id' = id
  · subst h
    simp [Delta.over, Delta.delete, Delta.tombstoned, layer]
  · simp [Delta.over, Delta.delete, Delta.tombstoned, Std.ExtTreeMap.getElem?_insert,
      Std.ExtTreeMap.getElem?_erase, h]

theorem Delta.over_of_isEmpty {d : Delta V} (h : d.isEmpty = true) (id : Bytes)
    (base : Option V) : d.over id base = base := by
  simp only [Delta.isEmpty, Bool.and_eq_true, Std.ExtTreeMap.isEmpty_iff] at h
  simp [Delta.over, Delta.tombstoned, layer, h.1, h.2]

@[simp] theorem Delta.over_empty (id : Bytes) (base : Option V) :
    ({} : Delta V).over id base = base :=
  Delta.over_of_isEmpty (by simp [Delta.isEmpty]) id base

/-- A merged segment holds what its batch makes of the old one. -/
theorem getElem?_mergeVecs (old : GoMap V) (batch : Delta V) (id : Bytes) :
    (mergeVecs old batch)[id]? = batch.over id old[id]? := by
  rw [mergeVecs, Std.ExtTreeMap.getElem?_union, Std.ExtTreeMap.getElem?_filter', Delta.over, layer]
  congr 1
  cases old[id]? <;> cases batch.tombstoned id <;> rfl

/-! ## Candidates -/

section
variable {dist : V → V → D} {query : V} {vecs : GoMap V} {order : List Bytes}

/-- The hits of a list of ids. -/
theorem mem_hitsOf {c : Candidate D} :
    c ∈ hitsOf dist query vecs order ↔
      c.id ∈ order ∧ vecs[c.id]?.map (candidate dist query c.id) = some c := by
  rw [hitsOf, List.mem_filterMap]
  constructor
  · rintro ⟨id, hid, hc⟩
    obtain ⟨v, hv, rfl⟩ := Option.map_eq_some_iff.mp hc
    exact ⟨hid, by simp [hv, candidate]⟩
  · rintro ⟨hid, hc⟩
    exact ⟨c.id, hid, hc⟩

theorem ids_hitsOf (h : ∀ id ∈ order, id ∈ vecs) :
    (hitsOf dist query vecs order).map Candidate.id = order := by
  rw [hitsOf, List.map_filterMap]
  refine (List.filterMap_congr fun id hid => ?_).trans List.filterMap_some
  obtain ⟨v, hv⟩ := mem_iff_exists.mp (h id hid)
  simp [hv]

theorem mem_keys_of_genuine {c : Candidate D}
    (h : vecs[c.id]?.map (candidate dist query c.id) = some c) : c.id ∈ vecs.keys := by
  obtain ⟨v, hv, -⟩ := Option.map_eq_some_iff.mp h
  exact Std.ExtTreeMap.mem_keys.mpr (mem_iff_exists.mpr ⟨v, hv⟩)

theorem Exact.ids_subset {ds : Distances D} {n : Int64} {found : List (Candidate D)}
    (h : Exact ds dist query n vecs found) : found.map Candidate.id ⊆ vecs.keys := by
  intro id hid
  obtain ⟨c, hc, rfl⟩ := List.mem_map.mp hid
  exact mem_keys_of_genuine (h.genuine c hc)

theorem eq_of_id {a b : Candidate D}
    (ha : vecs[a.id]?.map (candidate dist query a.id) = some a)
    (hb : vecs[b.id]?.map (candidate dist query b.id) = some b) (h : a.id = b.id) : a = b := by
  rw [h] at ha
  exact Option.some.inj (ha.symm.trans hb)

end

section
variable [LinearOrder D] {dist : V → V → D} {query : V} {vecs : GoMap V} {k : Int64}
  {order : List Bytes}
  {found : List (Candidate D)}

/-- A delta is an exact segment of its inserts. -/
theorem exact_delta (d : Delta V) (n : Int64) (hdelta : order.Perm d.vecs.keys) :
    Exact (.ofOrder D) dist query n d.vecs (d.search (.ofOrder D) dist order query n) := by
  obtain ⟨rest, hperm, hlen, hnear⟩ := offer_spec n (hitsOf dist query d.vecs order)
  have hids : (hitsOf dist query d.vecs order).map Candidate.id = order :=
    ids_hitsOf fun id hid => Std.ExtTreeMap.mem_keys.mp (hdelta.mem_iff.mp hid)
  have hnodup := (hperm.map Candidate.id).nodup_iff.mpr
    (by rw [hids, hdelta.nodup_iff]; exact Std.ExtTreeMap.nodup_keys)
  rw [List.map_append] at hnodup
  refine ⟨(List.nodup_append.mp hnodup).1, fun c hc => ?_, ?_, fun p hp hout c hc => ?_⟩
  · exact (mem_hitsOf.mp (hperm.mem_iff.mp (List.mem_append_left rest hc))).2
  · rw [← Std.ExtTreeMap.length_keys, ← hdelta.length_eq, ← congrArg List.length hids,
      List.length_map]
    exact hlen
  · have hrow := Std.ExtTreeMap.mem_toList_iff_getElem?_eq_some.mp hp
    have hx : candidate dist query p.1 p.2 ∈ hitsOf dist query d.vecs order := by
      refine mem_hitsOf.mpr ⟨hdelta.mem_iff.mpr ?_, by simp [candidate, hrow]⟩
      exact Std.ExtTreeMap.mem_keys.mpr (mem_iff_exists.mpr ⟨_, hrow⟩)
    have hrest := (List.mem_append.mp (hperm.mem_iff.mpr hx)).resolve_left fun h =>
      hout (List.mem_map_of_mem h)
    simpa [Distances.ofOrder, candidate] using hnear c hc _ hrest

/-- An entry that was not found has a full list of nearer ones before it. -/
theorem Exact.missing (hfound : Exact (.ofOrder D) dist query (pad k) vecs found) (h0 : 0 < k.toInt)
    (hk : k.toInt < 2 ^ 62) {x : Candidate D}
    (hx : vecs[x.id]?.map (candidate dist query x.id) = some x) (hout : x ∉ found) :
    found.length = 2 * k.toInt.toNat ∧ ∀ c ∈ found, c.distance ≤ x.distance := by
  obtain ⟨v, hv, hxv⟩ := Option.map_eq_some_iff.mp hx
  have hnot : x.id ∉ found.map Candidate.id := by
    intro hid
    obtain ⟨c, hc, hcx⟩ := List.mem_map.mp hid
    exact hout (eq_of_id (hfound.genuine c hc) hx hcx ▸ hc)
  constructor
  · have hmore := (List.subperm_of_subset (List.nodup_cons.mpr ⟨hnot, hfound.nodup⟩)
      (List.cons_subset.mpr ⟨mem_keys_of_genuine hx, hfound.ids_subset⟩)).length_le
    rw [List.length_cons, List.length_map, Std.ExtTreeMap.length_keys] at hmore
    have hlen := hfound.length
    have hpad := toInt_pad h0.le hk
    omega
  · intro c hc
    have hfar := hfound.nearest (x.id, v)
        (Std.ExtTreeMap.mem_toList_iff_getElem?_eq_some.mpr hv) hnot c hc
    rw [← hxv]
    simpa [Distances.ofOrder, candidate] using hfar

/-- An entry that was asked for among few enough is found. -/
theorem Exact.mem_ids (hfound : Exact (.ofOrder D) dist query (pad k) vecs found) (h0 : 0 < k.toInt)
    (hk : k.toInt < 2 ^ 62) (hfew : vecs.size ≤ 2 * k.toInt.toNat) {id : Bytes} (hid : id ∈ vecs) :
    id ∈ found.map Candidate.id := by
  have hlen := hfound.length
  have hpad := toInt_pad h0.le hk
  have hall := (List.subperm_of_subset hfound.nodup hfound.ids_subset).perm_of_length_le (by
    rw [Std.ExtTreeMap.length_keys, List.length_map]
    omega)
  exact hall.mem_iff.mpr (Std.ExtTreeMap.mem_keys.mpr hid)

end

section
variable {hits found : List (Candidate D)} {d : Delta V} {id : Bytes} {c : Candidate D}

theorem getElem?_hits (h : (hits.map Candidate.id).Nodup) :
    (hits.foldl (fun m c => m.insert c.id c) (∅ : GoMap (Candidate D)))[id]? = some c ↔
      c.id = id ∧ c ∈ hits := by
  induction hits using List.reverseRecOn with
  | nil => simp
  | append_singleton hits x ih =>
    rw [List.map_append, List.nodup_append] at h
    rw [List.foldl_append, List.foldl_cons, List.foldl_nil, Std.ExtTreeMap.getElem?_insert,
      List.mem_append, List.mem_singleton]
    split
    · rename_i heq
      rw [Std.LawfulEqCmp.compare_eq_iff_eq] at heq
      constructor
      · rintro ⟨⟩
        exact ⟨heq, .inr rfl⟩
      · rintro ⟨hid, hmem | rfl⟩
        · exact absurd (hid.trans heq.symm) (h.2.2 _ (List.mem_map_of_mem hmem) _ (by simp))
        · rfl
    · rename_i hne
      rw [ih h.1]
      refine and_congr_right fun hid => (or_iff_left ?_).symm
      rintro rfl
      exact hne (Std.LawfulEqCmp.compare_eq_iff_eq.mpr hid)

/-- What the check of the segment's candidates adds. -/
theorem getElem?_checked {m : GoMap (Candidate D)} (h : (found.map Candidate.id).Nodup) :
    (found.foldl (checkOne d) m)[id]? = some c ↔
      m[id]? = some c ∨ (c.id = id ∧ c ∈ found ∧ d.tombstoned id = false ∧ id ∉ m) := by
  induction found using List.reverseRecOn generalizing id c with
  | nil => simp
  | append_singleton found x ih =>
    rw [List.map_append, List.nodup_append] at h
    have hother : ∀ {c}, c ∈ found → c.id ≠ x.id := fun hc =>
      h.2.2 _ (List.mem_map_of_mem hc) _ (by simp)
    rw [List.foldl_append, List.foldl_cons, List.foldl_nil, checkOne]
    simp only [List.mem_append, List.mem_singleton]
    by_cases htomb : d.tombstoned x.id = true
    · rw [if_pos htomb, ih h.1]
      refine or_congr_right (and_congr_right ?_)
      rintro rfl
      refine and_congr_left fun hlive => (or_iff_left ?_).symm
      rintro rfl
      simp [htomb] at hlive
    rw [if_neg htomb]
    have hin : (found.foldl (checkOne d) m).contains x.id = true ↔ x.id ∈ m := by
      rw [← Std.ExtTreeMap.mem_iff_contains, mem_iff_exists, mem_iff_exists]
      refine exists_congr fun c => (ih h.1).trans (or_iff_left ?_)
      exact fun hc => hother hc.2.1 hc.1
    by_cases hx : x.id ∈ m
    · rw [if_pos (hin.mpr hx), ih h.1]
      refine or_congr_right (and_congr_right ?_)
      rintro rfl
      refine ⟨fun hc => ⟨.inl hc.1, hc.2⟩, fun hc => ⟨hc.1.resolve_right ?_, hc.2⟩⟩
      rintro rfl
      exact hc.2.2 hx
    · rw [if_neg (hin.not.mpr hx), Std.ExtTreeMap.getElem?_insert]
      split
      · rename_i heq
        obtain rfl := Std.LawfulEqCmp.compare_eq_iff_eq.mp heq
        rw [Std.ExtTreeMap.getElem?_eq_none hx]
        constructor
        · rintro ⟨⟩
          exact .inr ⟨rfl, .inr rfl, by simpa using htomb, hx⟩
        · rintro (hc | ⟨hid, hc | rfl, -⟩)
          · cases hc
          · exact absurd hid (hother hc)
          · rfl
      · rename_i hne
        rw [ih h.1]
        refine or_congr_right
          (and_congr_right fun hid => and_congr_left fun _ => (or_iff_left ?_).symm)
        rintro rfl
        exact hne (Std.LawfulEqCmp.compare_eq_iff_eq.mpr hid)

/-- The delta's hits and those of the segment's candidates that nothing hides. -/
theorem getElem?_byID (hhits : (hits.map Candidate.id).Nodup)
    (hfound : (found.map Candidate.id).Nodup) :
    (found.foldl (checkOne d) (hits.foldl (fun m c => m.insert c.id c) ∅))[id]? = some c ↔
      c.id = id ∧ (c ∈ hits ∨ c ∈ found ∧ d.tombstoned id = false ∧
        id ∉ hits.map Candidate.id) := by
  have hmem : id ∈ (hits.foldl (fun m c => m.insert c.id c) (∅ : GoMap (Candidate D))) ↔
      id ∈ hits.map Candidate.id := by
    rw [mem_iff_exists, List.mem_map]
    exact exists_congr fun c => (getElem?_hits hhits).trans and_comm
  rw [getElem?_checked hfound, getElem?_hits hhits, hmem, and_or_left]

end

end WaveSpan.Vector
