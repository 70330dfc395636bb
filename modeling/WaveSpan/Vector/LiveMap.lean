/-
WaveSpan.Vector.LiveMap — a live vector index under one caller (`internal/vector/segment.go`).

Inserts, deletes and merges follow one another; then the index denotes the map they write
(`contents_run`), and its size and its searches can be held against that map.

`Len` adds the delta's inserts to what its tombstones leave of the segment, so an id of the segment
that was inserted again counts twice (`len_run`). A search of `k` takes `2k` candidates from the
segment and from the delta. That makes up for up to `k` entries of the segment that the delta hides,
and an entry that was inserted again is hidden if it is among the `2k` nearest of the delta; then
the answer is exact (`live_index_map`). What happens otherwise is `live_index_off`.
-/
import WaveSpan.Vector.Delta
import Mathlib.Data.Finset.Card
import Mathlib.Data.Nat.Dist

namespace WaveSpan.Vector.Sequential

open WaveSpan.Wire WaveSpan.Vector
open WaveSpan.Collections (GoMap)
open WaveSpan.Rows (mem_iff_exists)

variable {V D : Type}

/-! ## Calls -/

structure LiveIndex (V : Type) where
  main : GoMap V := ∅
  delta : Delta V := {}

inductive Call (V : Type) where
  | insert (id : Bytes) (vec : V)
  | delete (id : Bytes)
  | merge

def LiveIndex.merge (w : LiveIndex V) : LiveIndex V :=
  if w.delta.isEmpty then { w with delta := {} }
  else { main := mergeVecs w.main w.delta, delta := {} }

def LiveIndex.call (w : LiveIndex V) : Call V → LiveIndex V
  | .insert id vec => { w with delta := w.delta.insert id vec }
  | .delete id => { w with delta := w.delta.delete id }
  | .merge => w.merge

def run (calls : List (Call V)) : LiveIndex V := calls.foldl LiveIndex.call {}

/-- `Len`: what the tombstones leave of the segment, and the inserts of the delta. -/
def LiveIndex.len (w : LiveIndex V) : Nat :=
  (w.main.keys.filter fun id => !w.delta.tombstoned id).length + w.delta.vecs.size

/-- The candidates by id: the delta's hits, and of the segment's those that nothing hides. -/
def LiveIndex.byID (ds : Distances D) (dist : V → V → D) (w : LiveIndex V) (query : V) (k : Int64)
    (deltaOrder : List Bytes) (found : List (Candidate D)) : GoMap (Candidate D) :=
  found.foldl (checkOne w.delta)
    ((w.delta.search ds dist deltaOrder query (pad k)).foldl (fun m c => m.insert c.id c) ∅)

/-- `Search`, with the orders of its two loops over maps and what the segment found. -/
def LiveIndex.search (ds : Distances D) (dist : V → V → D) (w : LiveIndex V) (query : V) (k : Int64)
    (deltaOrder : List Bytes) (found : List (Candidate D)) (order : List Bytes) :
    List (Candidate D) :=
  (TopK.offer ds k (order.filterMap
    fun id => (w.byID ds dist query k deltaOrder found)[id]?)).result ds

/-! ## The map -/

def Call.effect (id : Bytes) (cur : Option V) : Call V → Option V
  | .insert id' vec => if id' = id then some vec else cur
  | .delete id' => if id' = id then none else cur
  | .merge => cur

/-- The vector of an id whose last operation was an insert. -/
def latest (calls : List (Call V)) (id : Bytes) : Option V := calls.foldl (Call.effect id) none

def liveIds (calls : List (Call V)) : Finset Bytes :=
  (calls.filterMap fun
    | .insert id _ => some id
    | _ => none).toFinset.filter fun id => (latest calls id).isSome

def LiveIndex.contents (w : LiveIndex V) (id : Bytes) : Option V := w.delta.over id w.main[id]?

/-- No id is both inserted and deleted in the delta. -/
def LiveIndex.Apart (w : LiveIndex V) : Prop := ∀ id ∈ w.delta.vecs, w.delta.tombstoned id = false

/-- What one call does to an id. -/
theorem contents_call (w : LiveIndex V) (c : Call V) (id : Bytes) :
    (w.call c).contents id = c.effect id (w.contents id) := by
  cases c with
  | insert id' vec => exact Delta.over_insert ..
  | delete id' => exact Delta.over_delete ..
  | merge =>
    simp only [LiveIndex.call, LiveIndex.merge, Call.effect, LiveIndex.contents]
    split
    · rename_i hempty
      rw [Delta.over_empty, Delta.over_of_isEmpty hempty]
    · rw [Delta.over_empty, getElem?_mergeVecs]

/-- Inserts and tombstones stay apart. -/
theorem apart_call {w : LiveIndex V} (hw : w.Apart) (c : Call V) : (w.call c).Apart := by
  cases c with
  | insert id' vec =>
    intro id hid
    simp only [LiveIndex.call, Delta.insert, Delta.tombstoned] at *
    rw [Std.ExtTreeMap.getElem?_erase]
    split
    · rfl
    · rename_i hne
      refine hw id ((Std.ExtTreeMap.mem_insert.mp hid).resolve_left hne)
  | delete id' =>
    intro id hid
    simp only [LiveIndex.call, Delta.delete, Delta.tombstoned] at *
    rw [Std.ExtTreeMap.mem_erase] at hid
    rw [Std.ExtTreeMap.getElem?_insert, if_neg hid.1]
    exact hw id hid.2
  | merge =>
    intro id hid
    simp only [LiveIndex.call, LiveIndex.merge] at hid
    split at hid <;> simp at hid

theorem run_append (calls : List (Call V)) (c : Call V) : run (calls ++ [c]) =
    (run calls).call c := by
  simp [run]

/-- The index denotes what the calls write. -/
theorem contents_run (calls : List (Call V)) :
    (run calls).Apart ∧ ∀ id, (run calls).contents id = latest calls id := by
  induction calls using List.reverseRecOn with
  | nil =>
    exact ⟨fun id hid => by simp [run] at hid, fun id => by simp [run, LiveIndex.contents, latest]⟩
  | append_singleton calls c ih =>
    rw [run_append]
    refine ⟨apart_call ih.1 c, fun id => ?_⟩
    rw [contents_call, ih.2, latest, latest, List.foldl_append]
    rfl

theorem latest_eq_none {calls : List (Call V)} {id : Bytes}
    (h : ∀ vec, Call.insert id vec ∉ calls) : latest calls id = none := by
  induction calls using List.reverseRecOn with
  | nil => rfl
  | append_singleton calls c ih =>
    rw [latest, List.foldl_append, ← latest, ih fun vec hmem => h vec (by simp [hmem])]
    cases c with
    | insert id' vec =>
      have hne : id' ≠ id := fun heq => h vec (by simp [heq])
      simp [Call.effect, hne]
    | delete id' => simp [Call.effect]
    | merge => rfl

theorem mem_liveIds {calls : List (Call V)} {id : Bytes} :
    id ∈ liveIds calls ↔ (latest calls id).isSome = true := by
  rw [liveIds, Finset.mem_filter, List.mem_toFinset, List.mem_filterMap]
  refine ⟨And.right, fun h => ⟨?_, h⟩⟩
  by_contra hne
  have hnone : latest calls id = none := latest_eq_none fun vec hmem => hne ⟨_, hmem, rfl⟩
  rw [hnone] at h
  cases h

/-! ## Len -/

/-- The ids of the segment that were inserted again. -/
def LiveIndex.overwritten (w : LiveIndex V) : List Bytes :=
  w.main.keys.filter w.delta.vecs.contains

/-- The ids of the segment that the delta hides. -/
def LiveIndex.hidden (w : LiveIndex V) : List Bytes :=
  w.main.keys.filter fun id => w.delta.tombstoned id || w.delta.vecs.contains id

def LiveIndex.shown (w : LiveIndex V) : List Bytes :=
  w.main.keys.filter fun id => !(w.delta.tombstoned id || w.delta.vecs.contains id)

section
variable {w : LiveIndex V}

/-- What the index has is in the delta or shown. -/
theorem contents_eq_some {id : Bytes} {v : V} :
    w.contents id = some v ↔
      w.delta.vecs[id]? = some v ∨ (id ∈ w.shown ∧ w.main[id]? = some v) := by
  have hmain : w.main[id]? = some v → id ∈ w.main := fun h => mem_iff_exists.mpr ⟨v, h⟩
  have hdelta : w.delta.vecs.contains id = (w.delta.vecs[id]?).isSome := by
    rw [Std.ExtTreeMap.contains_eq_isSome_getElem?]
  simp only [LiveIndex.contents, Delta.over, layer, LiveIndex.shown, List.mem_filter,
    Std.ExtTreeMap.mem_keys, hdelta]
  cases w.delta.vecs[id]? <;> cases w.delta.tombstoned id <;> simp_all

theorem mem_main_of_shown {id : Bytes} (h : id ∈ w.shown) : id ∈ w.main :=
  Std.ExtTreeMap.mem_keys.mp (List.mem_filter.mp h).1

theorem disjoint_shown : w.delta.vecs.keys.Disjoint w.shown := by
  intro id hid hshown
  have hcontains : w.delta.vecs.contains id = true := by
    rw [← Std.ExtTreeMap.mem_iff_contains]
    exact Std.ExtTreeMap.mem_keys.mp hid
  simp [LiveIndex.shown, hcontains] at hshown

theorem nodup_ids : (w.delta.vecs.keys ++ w.shown).Nodup :=
  List.nodup_append.mpr ⟨Std.ExtTreeMap.nodup_keys, Std.ExtTreeMap.nodup_keys.filter _,
    fun _ ha _ hb hab => disjoint_shown ha (hab ▸ hb)⟩

/-- The ids of the delta and those of the segment that show are the live ones. -/
theorem mem_ids {id : Bytes} :
    id ∈ w.delta.vecs.keys ++ w.shown ↔ (w.contents id).isSome = true := by
  rw [Option.isSome_iff_exists, List.mem_append, Std.ExtTreeMap.mem_keys, mem_iff_exists]
  simp only [contents_eq_some]
  constructor
  · rintro (⟨v, hv⟩ | hshown)
    · exact ⟨v, .inl hv⟩
    · obtain ⟨v, hv⟩ := mem_iff_exists.mp (mem_main_of_shown hshown)
      exact ⟨v, .inr ⟨hshown, hv⟩⟩
  · rintro ⟨v, hv | ⟨hshown, -⟩⟩
    · exact .inl ⟨v, hv⟩
    · exact .inr hshown

end

/-- The live ids are those of the delta and those shown. -/
theorem card_liveIds (calls : List (Call V)) :
    (liveIds calls).card = (run calls).delta.vecs.size + (run calls).shown.length := by
  have heq : liveIds calls = ((run calls).delta.vecs.keys ++ (run calls).shown).toFinset := by
    ext id
    rw [mem_liveIds, List.mem_toFinset, mem_ids, (contents_run calls).2]
  rw [heq, List.toFinset_card_of_nodup nodup_ids, List.length_append, Std.ExtTreeMap.length_keys]

/-- `Len` counts an id of the segment that was inserted again twice. -/
theorem len_run (calls : List (Call V)) :
    (run calls).len = (liveIds calls).card + (run calls).overwritten.length := by
  have hsplit : ((run calls).main.keys.filter fun id => !(run calls).delta.tombstoned id).length =
      (run calls).overwritten.length + (run calls).shown.length := by
    rw [List.length_eq_length_filter_add (run calls).delta.vecs.contains, List.filter_filter,
      List.filter_filter]
    congr 2
    · refine List.filter_congr fun id _ => ?_
      cases hc : (run calls).delta.vecs.contains id with
      | false => rfl
      | true => simp [(contents_run calls).1 id (Std.ExtTreeMap.mem_iff_contains.mpr hc)]
    · refine List.filter_congr fun id _ => ?_
      cases (run calls).delta.vecs.contains id <;> cases (run calls).delta.tombstoned id <;> rfl
  rw [card_liveIds, LiveIndex.len, hsplit]
  omega

/-! ## Searches -/

/-- The `n` nearest of the live vectors at their distances, all of them if there are fewer, in the
order of the hits returned. -/
structure Nearest [LinearOrder D] (dist : V → V → D) (query : V) (n : Nat) (live : Finset Bytes)
    (contents : Bytes → Option V) (hits : List (Candidate D)) : Prop where
  nodup : (hits.map Candidate.id).Nodup
  genuine : ∀ c ∈ hits, (contents c.id).map (candidate dist query c.id) = some c
  length : hits.length = min n live.card
  nearest : ∀ c ∈ hits, ∀ id v, contents id = some v → id ∉ hits.map Candidate.id →
    c.distance ≤ dist query v
  sorted : hits.Pairwise Before

def LiveIndex.entries (dist : V → V → D) (query : V) (w : LiveIndex V) : List (Candidate D) :=
  hitsOf dist query w.delta.vecs w.delta.vecs.keys ++ hitsOf dist query w.main w.shown

section
variable {dist : V → V → D} {query : V} {w : LiveIndex V}

theorem ids_entries : (w.entries dist query).map Candidate.id = w.delta.vecs.keys ++ w.shown := by
  rw [LiveIndex.entries, List.map_append, ids_hitsOf fun id hid => Std.ExtTreeMap.mem_keys.mp hid,
    ids_hitsOf fun id hid => mem_main_of_shown hid]

theorem nodup_entries : (w.entries dist query).Nodup :=
  List.Nodup.of_map Candidate.id (ids_entries ▸ nodup_ids)

/-- The entries are the contents. -/
theorem mem_entries {c : Candidate D} :
    c ∈ w.entries dist query ↔ (w.contents c.id).map (candidate dist query c.id) = some c := by
  rw [LiveIndex.entries, List.mem_append, mem_hitsOf, mem_hitsOf]
  simp only [Option.map_eq_some_iff, contents_eq_some]
  constructor
  · rintro (⟨-, v, hv, hc⟩ | ⟨hid, v, hv, hc⟩)
    · exact ⟨v, .inl hv, hc⟩
    · exact ⟨v, .inr ⟨hid, hv⟩, hc⟩
  · rintro ⟨v, hv | ⟨hid, hv⟩, hc⟩
    · exact .inl ⟨Std.ExtTreeMap.mem_keys.mpr (mem_iff_exists.mpr ⟨v, hv⟩), v, hv, hc⟩
    · exact .inr ⟨hid, v, hv, hc⟩

end

section
variable [LinearOrder D] {dist : V → V → D} {query : V} {w : LiveIndex V} {k : Int64}
  {deltaOrder order : List Bytes} {found : List (Candidate D)}

/-- Of a full list of the segment's candidates at least `k` show. -/
theorem length_shown_found (hfound : Exact (.ofOrder D) dist query (pad k) w.main found)
    (hfull : found.length = 2 * k.toInt.toNat) (hhidden : w.hidden.length ≤ k.toInt.toNat) :
    k.toInt.toNat ≤ (found.filter fun c => decide (c.id ∈ w.shown)).length := by
  have hgone : (found.filter fun c => !decide (c.id ∈ w.shown)).length ≤ w.hidden.length := by
    rw [← List.length_map Candidate.id]
    refine (List.subperm_of_subset
      ((List.filter_sublist.map Candidate.id).nodup hfound.nodup) ?_).length_le
    intro id hid
    obtain ⟨c, hc, rfl⟩ := List.mem_map.mp hid
    obtain ⟨hc, hshown⟩ := List.mem_filter.mp hc
    have hmain := hfound.ids_subset (List.mem_map_of_mem hc)
    refine List.mem_filter.mpr ⟨hmain, ?_⟩
    simpa [LiveIndex.shown, hmain, or_iff_not_imp_left] using hshown
  have hsplit := List.length_eq_length_filter_add (l := found) fun c => decide (c.id ∈ w.shown)
  omega

/-- The answer is the nearest of the entries. -/
theorem search_nearest (h0 : 0 < k.toInt) (hk : k.toInt < 2 ^ 62)
    (hhidden : w.hidden.length ≤ k.toInt.toNat)
    (hover : w.overwritten = [] ∨ w.delta.vecs.size ≤ 2 * k.toInt.toNat)
    (hdelta : deltaOrder.Perm w.delta.vecs.keys)
    (hfound : Exact (.ofOrder D) dist query (pad k) w.main found)
    (horder : order.Perm (w.byID (.ofOrder D) dist query k deltaOrder found).keys) :
    let kept := w.search (.ofOrder D) dist query k deltaOrder found order
    kept.Nodup ∧ kept ⊆ w.entries dist query ∧
      kept.length = min k.toInt.toNat (w.entries dist query).length ∧
      ∀ c ∈ kept, ∀ x ∈ w.entries dist query, x ∉ kept → c.distance ≤ x.distance := by
  have hhits : Exact (.ofOrder D) dist query (pad k) w.delta.vecs _ :=
      exact_delta w.delta (pad k) hdelta
  have hbyID : ∀ id c, (w.byID (.ofOrder D) dist query k deltaOrder found)[id]? = some c ↔
      _ := fun id c =>
    getElem?_byID hhits.nodup hfound.nodup
  obtain ⟨hnd, hmem⟩ := WaveSpan.Rows.filterMap_keys (fun id c hc => ((hbyID id c).mp hc).1) horder
  have hoffered {c : Candidate D} := (hmem c).trans (exists_congr fun id => hbyID id c)
  -- what shows is not hidden by a hit of the delta
  have hclear {c : Candidate D} (hc : c ∈ found) (hshown : c.id ∈ w.shown) :
      c ∈ order.filterMap fun id => (w.byID (.ofOrder D) dist query k deltaOrder found)[id]? := by
    refine hoffered.mpr ⟨c.id, rfl, .inr ⟨hc, ?_, fun hid => ?_⟩⟩
    · have hfree := (List.mem_filter.mp hshown).2
      simp only [Bool.not_eq_true', Bool.or_eq_false_iff] at hfree
      exact hfree.1
    · exact disjoint_shown (hhits.ids_subset hid) hshown
  have hsub : (order.filterMap fun id => (w.byID (.ofOrder D) dist query k deltaOrder found)[id]?) ⊆
      w.entries dist query := by
    intro c hc
    obtain ⟨id, rfl, hhit | ⟨hc, htomb, hnot⟩⟩ := hoffered.mp hc
    · exact List.mem_append_left _ (mem_hitsOf.mpr
        ⟨hhits.ids_subset (List.mem_map_of_mem hhit), hhits.genuine c hhit⟩)
    · refine List.mem_append_right _ (mem_hitsOf.mpr ⟨?_, hfound.genuine c hc⟩)
      have hmain := hfound.ids_subset (List.mem_map_of_mem hc)
      have hfree : c.id ∉ w.delta.vecs := by
        intro hin
        rcases hover with hnone | hfew
        · have hover : c.id ∈ w.overwritten :=
            List.mem_filter.mpr ⟨hmain, Std.ExtTreeMap.mem_iff_contains.mp hin⟩
          simp [hnone] at hover
        · exact hnot (hhits.mem_ids h0 hk hfew hin)
      refine List.mem_filter.mpr ⟨hmain, ?_⟩
      rw [Std.ExtTreeMap.mem_iff_contains, Bool.not_eq_true] at hfree
      simp [htomb, hfree]
  have hcover := offer_covers (k := k) nodup_entries hnd hsub fun x hx hout => ?_
  · exact ⟨hcover.1, List.Subset.trans hcover.2.1 hsub, hcover.2.2⟩
  rcases List.mem_append.mp hx with hx | hx
  · obtain ⟨-, hx⟩ := mem_hitsOf.mp hx
    obtain ⟨hfull, hnear⟩ := hhits.missing h0 hk hx fun h => hout (hoffered.mpr ⟨x.id, rfl, .inl h⟩)
    exact ⟨_, hhits.nodup.of_map Candidate.id, fun c hc => hoffered.mpr ⟨c.id, rfl, .inl hc⟩,
      by omega, hnear⟩
  · obtain ⟨hshown, hx⟩ := mem_hitsOf.mp hx
    obtain ⟨hfull, hnear⟩ := hfound.missing h0 hk hx fun h => hout (hclear h hshown)
    refine ⟨found.filter fun c => decide (c.id ∈ w.shown),
      (hfound.nodup.of_map Candidate.id).filter _,
      fun c hc => ?_, length_shown_found hfound hfull hhidden, fun c hc =>
        hnear c (List.mem_filter.mp hc).1⟩
    obtain ⟨hc, hs⟩ := List.mem_filter.mp hc
    exact hclear hc (of_decide_eq_true hs)

end

/-- The index as a map. Its `Len` is the number of live ids and one more for each id of the segment
that was inserted again. Its searches are exact for `k` that the delta hides no more entries of the
segment than, as long as no id was inserted again or the delta's inserts are at most `2k`. -/
theorem live_index_map [LinearOrder D] (dist : V → V → D) (calls : List (Call V)) :
    (run calls).len = (liveIds calls).card + (run calls).overwritten.length ∧
      ∀ (query : V) (k : Int64) (deltaOrder order : List Bytes) (found : List (Candidate D)),
        0 < k.toInt → k.toInt < 2 ^ 62 → (run calls).hidden.length ≤ k.toInt.toNat →
        ((run calls).overwritten = [] ∨ (run calls).delta.vecs.size ≤ 2 * k.toInt.toNat) →
        deltaOrder.Perm (run calls).delta.vecs.keys →
        Exact (.ofOrder D) dist query (pad k) (run calls).main found →
        order.Perm ((run calls).byID (.ofOrder D) dist query k deltaOrder found).keys →
        Nearest dist query k.toInt.toNat (liveIds calls) (latest calls)
          ((run calls).search (.ofOrder D) dist query k deltaOrder found order) := by
  refine ⟨len_run calls, ?_⟩
  intro query k deltaOrder order found h0 hk hhidden hover hdelta hfound horder
  obtain ⟨hnd, hsub, hlen, hnear⟩ := search_nearest h0 hk hhidden hover hdelta hfound horder
  have hcontents := (contents_run calls).2
  have hgenuine : ∀ c ∈ (run calls).search (.ofOrder D) dist query k deltaOrder found order,
      (latest calls c.id).map (candidate dist query c.id) = some c := fun c hc => by
    rw [← hcontents]
    exact mem_entries.mp (hsub hc)
  refine ⟨?_, hgenuine, ?_, fun c hc id v hv hout => ?_, pairwise_result _⟩
  · refine hnd.map_on fun a ha b hb hab => ?_
    have haa := hgenuine a ha
    rw [hab, hgenuine b hb] at haa
    exact (Option.some.inj haa).symm
  · rw [hlen, card_liveIds, ← List.length_map Candidate.id, ids_entries, List.length_append,
      Std.ExtTreeMap.length_keys]
  · refine hnear c hc (candidate dist query id v) ?_ fun h => hout (List.mem_map_of_mem h)
    rw [mem_entries, hcontents]
    exact congrArg (Option.map _) hv

/-- Two ids merged, the nearer one deleted, and one more inserted. -/
def mixed : List (Call Nat) :=
  [.insert [1] 1, .insert [2] 2, .merge, .insert [3] 3, .delete [1]]

theorem live_index_map_mixed : (run mixed).len = (liveIds mixed).card ∧
    Nearest Nat.dist 0 1 (liveIds mixed) (latest mixed) [⟨[2], 2⟩] := by
  obtain ⟨hlen, hsearch⟩ := live_index_map Nat.dist mixed
  refine ⟨hlen, ?_⟩
  have hfound : Exact (.ofOrder Nat) Nat.dist 0 (pad 1) (run mixed).main [⟨[1], 1⟩, ⟨[2], 2⟩] := by
    constructor <;> decide +kernel
  exact hsearch 0 1 [[3]] [[2], [3]] _ (by decide) (by decide) (by decide +kernel)
    (.inl (by decide +kernel)) (by decide +kernel) hfound (by decide +kernel)

def again : List (Call Nat) := [.insert [1] 10, .merge, .insert [1] 20]

/-- Three ids merged, and the two nearest deleted. -/
def thinned : List (Call Nat) :=
  [.insert [1] 1, .insert [2] 2, .insert [3] 3, .merge, .delete [1], .delete [2]]

/-- One id merged, and inserted again farther away, behind two others. -/
def moved : List (Call Nat) :=
    [.insert [1] 1, .merge, .insert [1] 100, .insert [2] 2, .insert [3] 3]

/-- Where the index is not the map. An id inserted again counts twice. The nearest live vector is
missed where two nearer ones of the segment were deleted. A vector that was replaced by a farther
one is returned as it was. -/
theorem live_index_off :
    ((run again).len = 2 ∧ liveIds again = {[1]}) ∧
    (latest thinned [3] = some 3 ∧
      Exact (.ofOrder Nat) Nat.dist 0 (pad 1) (run thinned).main [⟨[1], 1⟩, ⟨[2], 2⟩] ∧
      (run thinned).delta.vecs.keys = [] ∧
      ((run thinned).byID (.ofOrder Nat) Nat.dist 0 1 [] [⟨[1], 1⟩, ⟨[2], 2⟩]).keys = [] ∧
      (run thinned).search (.ofOrder Nat) Nat.dist 0 1 [] [⟨[1], 1⟩, ⟨[2], 2⟩] [] = []) ∧
    (latest moved [1] = some 100 ∧ latest moved [2] = some 2 ∧
      Exact (.ofOrder Nat) Nat.dist 0 (pad 1) (run moved).main [⟨[1], 1⟩] ∧
      (run moved).delta.vecs.keys = [[1], [2], [3]] ∧
      ((run moved).byID (.ofOrder Nat) Nat.dist 0 1 [[1], [2], [3]] [⟨[1], 1⟩]).keys =
        [[1], [2], [3]] ∧
      (run moved).search (.ofOrder Nat) Nat.dist 0 1 [[1], [2], [3]] [⟨[1], 1⟩] [[1], [2], [3]] =
        [⟨[1], 1⟩]) := by
  refine ⟨by decide +kernel, ⟨by decide, ?_, by decide +kernel⟩, by decide, by decide, ?_,
    by decide +kernel⟩ <;> constructor <;> decide +kernel

end WaveSpan.Vector.Sequential
