/-
WaveSpan.Vector.Exact — the exact search of a collection that lies in fragments
(`internal/vector/exact.go`, over `topk.go`).

Every fragment returns the `k` nearest of its vectors, and the coordinator merges them: one hit per
vector, then the `k` nearest of all. All hits of a search are of one collection.

A collector that is full takes a hit only if it is nearer than the farthest it has, so among hits at
one distance the ones that came first stay. As long as none that is left out is as near as the last
one wanted, that does not show: whatever is wanted stays, in its fragment (`mem_result_of_wanted`)
and in the merge, and the answer is the head of the whole collection in order. With a tie at that
place the answer follows the order of arrival, and some order gives a wrong one (`merge_exact`).
-/
import WaveSpan.Collections.Store
import WaveSpan.Vector.TopK

namespace WaveSpan.Vector

open WaveSpan.Wire
open WaveSpan.Collections (GoMap)

variable {V D : Type}

structure VectorRecord (V : Type) where
  vectorId : Bytes
  values : V

/-- The hits of some candidates; a filter restricts which of them are scored. -/
def scored (dist : V → V → D) (query : V) (filter : Option (VectorRecord V → Bool))
    (candidates : List (VectorRecord V)) : List (Candidate D) :=
  (candidates.filter fun c => (filter.map (· c)).getD true).map fun c =>
    { id := c.vectorId, distance := dist query c.values }

def searchPartition (ds : Distances D) (dist : V → V → D) (candidates : List (VectorRecord V))
    (query : V) (k : Int64) (filter : Option (VectorRecord V → Bool)) : List (Candidate D) :=
  (TopK.offer ds k (scored dist query filter candidates)).result ds

def hitKey (collection : Bytes) (h : Candidate D) : Bytes := collection ++ 0x00 :: h.id

def keepBest (ds : Distances D) (collection : Bytes) (best : GoMap (Candidate D))
    (h : Candidate D) :
    GoMap (Candidate D) :=
  match best[hitKey collection h]? with
  | none => best.insert (hitKey collection h) h
  | some cur => if ds.lt h.distance cur.distance then best.insert (hitKey collection h) h else best

def bestHits (ds : Distances D) (collection : Bytes) (fragments : List (List (Candidate D))) :
    GoMap (Candidate D) :=
  fragments.foldl (fun best frag => frag.foldl (keepBest ds collection) best) ∅

/-- The loop over the map visits its keys in `order`. -/
def mergeTopK (ds : Distances D) (collection : Bytes) (fragments : List (List (Candidate D)))
    (k : Int64) (order : List Bytes) : List (Candidate D) :=
  (TopK.offer ds k (order.filterMap fun key => (bestHits ds collection fragments)[key]?)).result ds

section
variable [LinearOrder D] {k : Int64} {all : List (Candidate D)}

def ranked (all : List (Candidate D)) : List (Candidate D) := all.insertionSort Before

def wanted (k : Int64) (all : List (Candidate D)) : List (Candidate D) :=
  (ranked all).take k.toInt.toNat

/-- No hit behind the first `k` is as near as one of them. -/
def NoTie (k : Int64) (all : List (Candidate D)) : Prop :=
  ∀ a ∈ wanted k all, ∀ b ∈ (ranked all).drop k.toInt.toNat, a.distance < b.distance

theorem mem_ranked {a : Candidate D} : a ∈ ranked all ↔ a ∈ all :=
  (List.perm_insertionSort _ _).mem_iff

/-- A hit is wanted or behind the wanted. -/
theorem mem_wanted_or {a : Candidate D} (ha : a ∈ all) :
    a ∈ wanted k all ∨ a ∈ (ranked all).drop k.toInt.toNat := by
  rw [← mem_ranked, ← List.take_append_drop k.toInt.toNat (ranked all)] at ha
  exact List.mem_append.mp ha

/-- The hits before a place in the order are no farther than those behind it. -/
theorem le_of_wanted {a b : Candidate D} (ha : a ∈ wanted k all)
    (hb : b ∈ (ranked all).drop k.toInt.toNat) : a.distance ≤ b.distance := by
  have hsorted : (ranked all).Pairwise Before := List.pairwise_insertionSort Before all
  rw [← List.take_append_drop k.toInt.toNat (ranked all), List.pairwise_append] at hsorted
  exact (before_iff.mp (hsorted.2.2 a ha b hb)).elim le_of_lt fun h => h.1.le

theorem nodup_wanted (hall : all.Nodup) : (wanted k all).Nodup :=
  ((List.perm_insertionSort _ _).nodup_iff.mpr hall).sublist (List.take_sublist _ _)

theorem length_wanted : (wanted k all).length = min k.toInt.toNat all.length := by
  rw [wanted, List.length_take, ranked, List.length_insertionSort]

/-- What is wanted of some hits is among those a collector returns. -/
theorem mem_result_of_wanted (htie : NoTie k all) {hits : List (Candidate D)} (hnd : hits.Nodup)
    (hsub : hits ⊆ all) {a : Candidate D} (ha : a ∈ wanted k all) (hmem : a ∈ hits) :
    a ∈ (TopK.offer (.ofOrder D) k hits).result (.ofOrder D) := by
  obtain ⟨rest, hperm, hlen, hnear⟩ := offer_spec k hits
  generalize (TopK.offer (.ofOrder D) k hits).result (.ofOrder D) = kept at *
  rcases List.mem_append.mp (hperm.mem_iff.mpr hmem) with hin | hout
  · exact hin
  · -- then `k` others are no farther, so they are wanted too: one too many
    have hkept : kept ⊆ wanted k all := by
      intro b hb
      refine (mem_wanted_or (hsub (hperm.mem_iff.mp (List.mem_append_left _ hb)))).resolve_right
        fun hdrop => ?_
      exact absurd (htie a ha b hdrop) (not_lt.mpr (hnear b hb a hout))
    have hnd' : (a :: kept).Nodup := by
      have happ : (kept ++ rest).Nodup := hperm.nodup_iff.mpr hnd
      rw [List.nodup_append] at happ
      exact List.nodup_cons.mpr ⟨fun hk => happ.2.2 a hk a hout rfl, happ.1⟩
    have hle := (List.subperm_of_subset hnd' (List.cons_subset.mpr ⟨ha, hkept⟩)).length_le
    have htotal := hperm.length_eq
    have hpos := List.length_pos_of_mem hout
    rw [List.length_append] at htotal
    rw [List.length_cons, length_wanted] at hle
    omega

/-- Once everything wanted is offered, a collector returns it and nothing else. -/
theorem result_eq_wanted (hall : all.Nodup) (htie : NoTie k all) {hits : List (Candidate D)}
    (hnd : hits.Nodup) (hsub : hits ⊆ all) (hwanted : wanted k all ⊆ hits) :
    (TopK.offer (.ofOrder D) k hits).result (.ofOrder D) = wanted k all := by
  have hincl : wanted k all ⊆ (TopK.offer (.ofOrder D) k hits).result (.ofOrder D) :=
    fun a ha => mem_result_of_wanted htie hnd hsub ha (hwanted ha)
  obtain ⟨rest, hperm, hlen, -⟩ := offer_spec k hits
  have hlen' : hits.length ≤ all.length := (List.subperm_of_subset hnd hsub).length_le
  refine eq_of_before (pairwise_result _)
    ((List.pairwise_insertionSort Before all).sublist (List.take_sublist _ _)) ?_
  refine ((List.subperm_of_subset (nodup_wanted hall) hincl).perm_of_length_le ?_).symm
  rw [hlen, length_wanted]
  omega

/-! ## One hit per vector -/

omit [LinearOrder D] in
theorem hitKey_inj {collection : Bytes} {a b : Candidate D} :
    hitKey collection a = hitKey collection b ↔ a.id = b.id := by
  simp [hitKey]

/-- Where a vector has one distance, the map holds every hit under its key. -/
theorem getElem?_foldl_keepBest (collection : Bytes) {hits : List (Candidate D)}
    (hone : ∀ a ∈ hits, ∀ b ∈ hits, a.id = b.id → a = b) (key : Bytes) (h : Candidate D) :
    (hits.foldl (keepBest (.ofOrder D) collection) ∅)[key]? = some h ↔
      h ∈ hits ∧ hitKey collection h = key := by
  induction hits using List.reverseRecOn generalizing h key with
  | nil => simp
  | append_singleton hits x ih =>
    have hold := ih fun a ha b hb => hone a (by simp [ha]) b (by simp [hb])
    rw [List.foldl_append, List.foldl_cons, List.foldl_nil, List.mem_append, List.mem_singleton,
      keepBest]
    cases hcur : (hits.foldl (keepBest (.ofOrder D) collection) ∅)[hitKey collection x]? with
    | none =>
      simp only
      by_cases hkey : hitKey collection x = key
      · subst hkey
        have hnew : ∀ h ∈ hits, hitKey collection h ≠ hitKey collection x := by
          intro h hh heq
          rw [(hold _ h).mpr ⟨hh, heq⟩] at hcur
          cases hcur
        rw [Std.ExtTreeMap.getElem?_insert_self, Option.some.injEq]
        constructor
        · rintro rfl
          exact ⟨.inr rfl, rfl⟩
        · rintro ⟨hh | rfl, heq⟩
          · exact absurd heq (hnew h hh)
          · rfl
      · rw [WaveSpan.Rows.getElem?_insert_of_ne hkey, hold]
        constructor
        · exact fun hh => ⟨.inl hh.1, hh.2⟩
        · rintro ⟨hh | rfl, heq⟩
          · exact ⟨hh, heq⟩
          · exact absurd heq hkey
    | some cur =>
      -- the vector was there before, at the same distance
      obtain ⟨hmem, hkey⟩ := (hold _ _).mp hcur
      obtain rfl := hone cur (by simp [hmem]) x (by simp) (hitKey_inj.mp hkey)
      have hlt : (Distances.ofOrder D).lt cur.distance cur.distance = false := by
        simp [Distances.ofOrder]
      simp only [hlt, Bool.false_eq_true, if_false, hold]
      constructor
      · exact fun hh => ⟨.inl hh.1, hh.2⟩
      · rintro ⟨hh | rfl, heq⟩
        · exact ⟨hh, heq⟩
        · exact ⟨hmem, heq⟩

/-- A loop over the map offers each hit of the fragments once. -/
theorem offered {collection : Bytes} {fragments : List (List (Candidate D))} {order : List Bytes}
    (hone : ∀ a ∈ fragments.flatten, ∀ b ∈ fragments.flatten, a.id = b.id → a = b)
    (horder : order.Perm (bestHits (.ofOrder D) collection fragments).keys) :
    (order.filterMap fun key => (bestHits (.ofOrder D) collection fragments)[key]?).Nodup ∧
      ∀ h, h ∈ (order.filterMap fun key => (bestHits (.ofOrder D) collection fragments)[key]?) ↔
        h ∈ fragments.flatten := by
  have hget : ∀ key h, (bestHits (.ofOrder D) collection fragments)[key]? = some h ↔
      h ∈ fragments.flatten ∧ hitKey collection h = key := by
    rw [bestHits, ← List.foldl_flatten]
    exact getElem?_foldl_keepBest collection hone
  obtain ⟨hnd, hmem⟩ :=
      WaveSpan.Rows.filterMap_keys (fun key h hrow => ((hget key h).mp hrow).2) horder
  refine ⟨hnd, fun h => (hmem h).trans ?_⟩
  simp only [hget]
  exact ⟨fun ⟨_, hh, _⟩ => hh, fun hh => ⟨_, hh, rfl⟩⟩

/-- Fragments that cover a collection, in any order and with any overlap. -/
structure Covers (hits : List (Candidate D)) (parts : List (List (Candidate D))) : Prop where
  within : ∀ part ∈ parts, part.Nodup ∧ part ⊆ hits
  covers : ∀ h ∈ hits, ∃ part ∈ parts, h ∈ part

section
variable {dist : V → V → D} {query : V} {filter : Option (VectorRecord V → Bool)}
  {collection : Bytes} {fragments : List (List (VectorRecord V))} {order : List Bytes}

/-- Without a tie at the last place, every merge is of the first `k`. -/
theorem mergeTopK_of_noTie (hids : (all.map Candidate.id).Nodup)
    (hcovers : Covers all (fragments.map (scored dist query filter)))
    (horder : order.Perm (bestHits (.ofOrder D) collection
      (fragments.map fun f => searchPartition (.ofOrder D) dist f query k filter)).keys)
    (htie : NoTie k all) :
    mergeTopK (.ofOrder D) collection
        (fragments.map fun f => searchPartition (.ofOrder D) dist f query k filter) k order =
      wanted k all := by
  have hin : ∀ f ∈ fragments, (scored dist query filter f).Nodup ∧
      scored dist query filter f ⊆ all :=
    fun f hf => hcovers.within _ (List.mem_map_of_mem hf)
  -- a fragment's answer is among its hits
  have hpart : ∀ f ∈ fragments, searchPartition (.ofOrder D) dist f query k filter ⊆ all := by
    intro f hf a ha
    obtain ⟨rest, hperm, -⟩ := offer_spec k (scored dist query filter f)
    exact (hin f hf).2 (hperm.mem_iff.mp (List.mem_append_left _ ha))
  have hmem : ∀ a, a ∈ (fragments.map fun f =>
      searchPartition (.ofOrder D) dist f query k filter).flatten ↔
      ∃ f ∈ fragments, a ∈ searchPartition (.ofOrder D) dist f query k filter := by
    simp
  have hsub : ∀ a ∈ (fragments.map fun f =>
      searchPartition (.ofOrder D) dist f query k filter).flatten, a ∈ all := by
    intro a ha
    obtain ⟨f, hf, hfa⟩ := (hmem a).mp ha
    exact hpart f hf hfa
  obtain ⟨hnd, hoff⟩ := offered
    (fun a ha b hb => List.inj_on_of_nodup_map hids (hsub a ha) (hsub b hb)) horder
  refine result_eq_wanted (List.Nodup.of_map _ hids) htie hnd
    (fun a ha => hsub a ((hoff a).mp ha)) ?_
  intro a ha
  obtain ⟨part, hpart, hfa⟩ := hcovers.covers a (mem_ranked.mp (List.mem_of_mem_take ha))
  obtain ⟨f, hf, rfl⟩ := List.mem_map.mp hpart
  exact (hoff a).mpr ((hmem a).mpr
    ⟨f, hf, mem_result_of_wanted htie (hin f hf).1 (hin f hf).2 ha hfa⟩)

/-- Hits that arrive as the first `k` of one fragment, with nothing nearer behind them, are the
answer. -/
theorem mergeTopK_first {hits far : List (Candidate D)} {fragment : List (VectorRecord V)}
    (hfragment : scored dist query filter fragment = hits ++ far)
    (hids : ((hits ++ far).map Candidate.id).Nodup) (hfull : hits.length = k.toInt.toNat)
    (hfar : ∀ a ∈ hits, ∀ b ∈ far, a.distance ≤ b.distance)
    (horder : order.Perm (bestHits (.ofOrder D) collection
      [searchPartition (.ofOrder D) dist fragment query k filter]).keys) :
    ∀ a ∈ hits, a ∈ mergeTopK (.ofOrder D) collection
      [searchPartition (.ofOrder D) dist fragment query k filter] k order := by
  have hpart : (searchPartition (.ofOrder D) dist fragment query k filter).Perm hits := by
    rw [searchPartition, hfragment]
    exact result_offer_far hfull hfar
  have hone : ∀ a ∈ hits, ∀ b ∈ hits, a.id = b.id → a = b := fun a ha b hb =>
    List.inj_on_of_nodup_map hids (List.mem_append_left _ ha) (List.mem_append_left _ hb)
  obtain ⟨hnd, hoff⟩ := offered (by simpa [hpart.mem_iff] using hone) horder
  simp only [List.flatten_cons, List.flatten_nil, List.append_nil, hpart.mem_iff] at hoff
  obtain ⟨rest, hperm, hlen, -⟩ := offer_spec k (order.filterMap fun key =>
    (bestHits (.ofOrder D) collection
      [searchPartition (.ofOrder D) dist fragment query k filter])[key]?)
  -- the merge is offered no more than it has room for
  have hroom := (List.subperm_of_subset hnd fun a ha => (hoff a).mp ha).length_le
  have htotal := hperm.length_eq
  rw [List.length_append] at htotal
  obtain rfl : rest = [] := List.length_eq_zero_iff.mp (by omega)
  intro a ha
  rw [List.append_nil] at hperm
  exact hperm.mem_iff.mpr ((hoff a).mpr ha)

omit [LinearOrder D] in
/-- Any hits of a collection are those of some fragment. -/
theorem exists_scored {vectors : List (VectorRecord V)} {hits : List (Candidate D)}
    (hsub : hits ⊆ scored dist query filter vectors) :
    ∃ fragment, scored dist query filter fragment = hits := by
  induction hits with
  | nil => exact ⟨[], rfl⟩
  | cons h hits ih =>
    obtain ⟨hh, hrest⟩ := List.cons_subset.mp hsub
    obtain ⟨c, hc, rfl⟩ := List.mem_map.mp hh
    obtain ⟨fragment, rfl⟩ := ih hrest
    have hpass : (filter.map (· c)).getD true = true := (List.mem_filter.mp hc).2
    exact ⟨c :: fragment, by simp [scored, hpass]⟩

/-- With a tie at the last place, an order of arrival lets the wrong one in. -/
theorem exists_of_tie {vectors : List (VectorRecord V)}
    (hids : ((scored dist query filter vectors).map Candidate.id).Nodup)
    (htie : ¬ NoTie k (scored dist query filter vectors)) :
    ∃ fragment, (scored dist query filter fragment).Perm (scored dist query filter vectors) ∧
      ∀ order : List Bytes, order.Perm (bestHits (.ofOrder D) collection
        [searchPartition (.ofOrder D) dist fragment query k filter]).keys →
      mergeTopK (.ofOrder D) collection
        [searchPartition (.ofOrder D) dist fragment query k filter] k
        order ≠ wanted k (scored dist query filter vectors) := by
  unfold NoTie at htie
  push Not at htie
  obtain ⟨a, ha, b, hb, hba⟩ := htie
  generalize hall : scored dist query filter vectors = all at *
  obtain ⟨near, near', hnear⟩ := List.append_of_mem ha
  obtain ⟨back, back', hback⟩ := List.append_of_mem hb
  -- the two change places, and the one that is wanted comes when there is no room
  have hperm : (b :: (near ++ near') ++ a :: (back ++ back')).Perm all := by
    refine List.Perm.trans ?_ (List.perm_insertionSort Before all)
    change List.Perm _ (ranked all)
    rw [← List.take_append_drop k.toInt.toNat (ranked all), hback,
      show List.take _ _ = _ from hnear]
    grind
  obtain ⟨fragment, hfragment⟩ := exists_scored fun h hh => hall ▸ hperm.mem_iff.mp hh
  have hlt : k.toInt.toNat < all.length := by
    have := List.length_pos_of_mem hb
    rw [List.length_drop, ranked, List.length_insertionSort] at this
    omega
  refine ⟨fragment, hfragment ▸ hperm, fun order horder heq => ?_⟩
  have hin := mergeTopK_first hfragment ((hperm.map _).nodup_iff.mpr hids) ?_ ?_ horder b (by simp)
  · rw [heq] at hin
    have hnd : (ranked all).Nodup :=
      (List.perm_insertionSort _ _).nodup_iff.mpr (List.Nodup.of_map _ hids)
    rw [← List.take_append_drop k.toInt.toNat (ranked all), List.nodup_append] at hnd
    exact hnd.2.2 b hin b hb rfl
  · have hlen := congrArg List.length hnear
    rw [length_wanted] at hlen
    simp only [List.length_append, List.length_cons] at hlen ⊢
    omega
  · intro p hp q hq
    have hab := le_of_wanted ha hb
    have hp : p.distance ≤ b.distance := by
      rcases List.mem_cons.mp hp with rfl | hp
      · exact le_rfl
      · exact le_of_wanted (by rw [hnear]; grind) hb
    have hq : a.distance ≤ q.distance := by
      rcases List.mem_cons.mp hq with rfl | hq
      · exact le_rfl
      · exact le_of_wanted ha (by rw [hback]; grind)
    exact hp.trans (hba.trans hq)

end

/-- Every merge of the fragments' `k` nearest is the first `k` of the collection in order, whatever
the fragments and the order of arrival, if and only if none behind them is as near as one of
them. -/
theorem merge_exact (dist : V → V → D) (query : V) (filter : Option (VectorRecord V → Bool))
    (collection : Bytes) (k : Int64) (all : List (VectorRecord V))
    (hids : ((scored dist query filter all).map Candidate.id).Nodup) :
    (∀ (fragments : List (List (VectorRecord V))) (order : List Bytes),
      Covers (scored dist query filter all) (fragments.map (scored dist query filter)) →
      order.Perm (bestHits (.ofOrder D) collection
        (fragments.map fun f => searchPartition (.ofOrder D) dist f query k filter)).keys →
      mergeTopK (.ofOrder D) collection
          (fragments.map fun f => searchPartition (.ofOrder D) dist f query k filter) k order =
        wanted k (scored dist query filter all)) ↔
    NoTie k (scored dist query filter all) := by
  refine ⟨fun hexact => ?_, fun htie fragments order hcovers horder =>
    mergeTopK_of_noTie hids hcovers horder htie⟩
  by_contra htie
  obtain ⟨fragment, hperm, hwrong⟩ := exists_of_tie hids htie
  refine hwrong _ (.refl _) (hexact [fragment] _ ⟨?_, ?_⟩ (.refl _))
  · intro part hpart
    obtain rfl := List.mem_singleton.mp hpart
    exact ⟨hperm.nodup_iff.mpr (List.Nodup.of_map _ hids), fun a => hperm.mem_iff.mp⟩
  · exact fun h hh => ⟨_, List.mem_singleton_self _, hperm.mem_iff.mpr hh⟩

end

def onLine (id : UInt8) (x : Nat) : VectorRecord Nat := { vectorId := [id], values := x }

/-- Three vectors in two fragments that share one. -/
theorem merge_exact_overlap :
    mergeTopK (.ofOrder Nat) [] ([[onLine 1 5, onLine 2 7], [onLine 3 9, onLine 2 7]].map fun f =>
        searchPartition (.ofOrder Nat) (fun q v => v - q) f 4 2 none) 2
        (bestHits (.ofOrder Nat) []
          ([[onLine 1 5, onLine 2 7], [onLine 3 9, onLine 2 7]].map fun f =>
          searchPartition (.ofOrder Nat) (fun q v => v - q) f 4 2 none)).keys =
      [{ id := [1], distance := 1 }, { id := [2], distance := 3 }] :=
  ((merge_exact (fun q v => v - q) 4 none [] 2 [onLine 1 5, onLine 2 7, onLine 3 9] (by decide)).mpr
    (by unfold NoTie; decide) _ _ ⟨by simp [onLine, scored], by simp [onLine, scored]⟩
      (.refl _)).trans
    (by decide)

/-- Vectors 2 and 1 at one distance, in this order in their fragment: the nearest one by distance
and id is 1, and the answer is 2. -/
theorem tie_by_arrival :
    mergeTopK (.ofOrder Nat) [] ([[onLine 2 5, onLine 1 5]].map fun f =>
        searchPartition (.ofOrder Nat) (fun q v => v - q) f 4 1 none) 1
        (bestHits (.ofOrder Nat) [] ([[onLine 2 5, onLine 1 5]].map fun f =>
          searchPartition (.ofOrder Nat) (fun q v => v - q) f 4 1 none)).keys =
        [{ id := [2], distance := 1 }] ∧
      wanted 1 (scored (fun q v => v - q) 4 none [onLine 2 5, onLine 1 5]) =
        [{ id := [1], distance := 1 }] := by
  decide +kernel

end WaveSpan.Vector
