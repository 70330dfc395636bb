/-
WaveSpan.Vector.TopK — the bounded accumulator of a search
(`internal/vector/topk.go`, over Go's `container/heap`).

The k nearest hits seen so far stand in a heap with the farthest at the root. Which of
several hits at one distance is evicted depends on where the heap has put them, so the
heap is modelled on its array, as the library computes it.

A hit is a candidate here: its collection, its graph node and its score are read by no
function of the index.

Where the distances are a total order, a collector keeps `k` of the hits it is offered, or all if
there are fewer, and none that it leaves out is nearer than one it keeps (`offer_spec`).
-/
import WaveSpan.Lib.Heap
import WaveSpan.Lib.Wire
import Mathlib.Data.List.Sort
import Mathlib.Data.List.Induction

namespace WaveSpan.Vector

open WaveSpan.Wire WaveSpan.GoHeap

/-- One search result (`ann.Candidate`). -/
structure Candidate (D : Type) where
  id : Bytes
  distance : D
deriving DecidableEq, Repr

/-- The comparisons of two distances, `<` and `!=` of a float64. -/
structure Distances (D : Type) where
  lt : D → D → Bool
  ne : D → D → Bool

/-! ## TopK -/

/-- The hits kept, as the heap has them. -/
structure TopK (D : Type) where
  k : Int64
  h : Array (Candidate D) := #[]

section
variable {D : Type} (ds : Distances D)

/-- `maxHeap.Less`: the farther hit comes first. -/
def farther (a b : Candidate D) : Bool := ds.lt b.distance a.distance

def TopK.add (t : TopK D) (hit : Candidate D) : TopK D :=
  if t.k.toInt ≤ 0 then t
  else if (t.h.size : Int) < t.k.toInt then { t with h := heapPush (farther ds) t.h hit }
  else
    match t.h[0]? with
    | some root =>
      if ds.lt hit.distance root.distance then
        { t with h := heapFix (farther ds) (t.h.setIfInBounds 0 hit) 0 }
      else t
    | none => t

/-- The order of `Result`: by distance, then by id. -/
def nearer (a b : Candidate D) : Bool :=
  if ds.ne a.distance b.distance then ds.lt a.distance b.distance
  else decide (compare a.id b.id = .lt)

def TopK.result (t : TopK D) : List (Candidate D) :=
  t.h.toList.insertionSort fun a b => nearer ds b a = false

/-- A new collector that is offered hits one after the other. -/
def TopK.offer (k : Int64) (hits : List (Candidate D)) : TopK D :=
  hits.foldl (TopK.add ds) { k }

variable {ds}

/-- Below `k` every hit is kept. -/
theorem TopK.add_perm {t : TopK D} (hit : Candidate D) (h : (t.h.size : Int) < t.k.toInt) :
    (t.add ds hit).k = t.k ∧ (t.add ds hit).h.toList.Perm (t.h.toList ++ [hit]) := by
  have hpos : ¬ t.k.toInt ≤ 0 := by omega
  have hadd : t.add ds hit = { t with h := heapPush (farther ds) t.h hit } := by
    simp only [TopK.add, if_neg hpos, if_pos h]
  rw [hadd]
  exact ⟨rfl, heapPush_perm _ _⟩

end

/-! ## The nearest hits -/

def Distances.ofOrder (D : Type) [LinearOrder D] : Distances D where
  lt a b := decide (a < b)
  ne a b := decide (a ≠ b)

section
variable {D : Type} [LinearOrder D] {k : Int64} {hits : List (Candidate D)}

theorem farther_eq_false {a b : Candidate D} :
    farther (.ofOrder D) a b = false ↔ a.distance ≤ b.distance := by
  simp [farther, Distances.ofOrder]

theorem weak_farther : Weak (farther (.ofOrder D)) := weak_of_key Candidate.distance

/-- What a collector keeps of the hits it was offered: as many as fit, and the nearest. -/
structure Keeps (t : TopK D) (hits rest : List (Candidate D)) : Prop where
  ordered : Ordered (farther (.ofOrder D)) t.h
  perm : (t.h.toList ++ rest).Perm hits
  size : (t.h.size : Int) = min t.k.toInt hits.length
  nearest : ∀ a ∈ t.h.toList, ∀ b ∈ rest, a.distance ≤ b.distance

section
variable {t : TopK D} {rest tail : List (Candidate D)} {root : Candidate D}

/-- With room, everything was kept so far, and the hit is too. -/
theorem Keeps.room (ht : Keeps t hits rest) (hk : 0 < t.k.toInt) (hit : Candidate D)
    (hroom : (t.h.size : Int) < t.k.toInt) : Keeps (t.add (.ofOrder D) hit) (hits ++ [hit]) [] := by
  have hlen := ht.perm.length_eq
  rw [List.length_append, Array.length_toList] at hlen
  have hsize := ht.size
  obtain rfl : rest = [] := List.length_eq_zero_iff.mp (by omega)
  obtain ⟨hk', hperm⟩ := @TopK.add_perm D (.ofOrder D) t hit hroom
  refine ⟨?_, ?_, ?_, by simp⟩
  · have hadd : t.add (.ofOrder D) hit =
      { t with h := heapPush (farther (.ofOrder D)) t.h hit } := by
      simp only [TopK.add, if_neg (show ¬ t.k.toInt ≤ 0 by omega), if_pos hroom]
    rw [hadd]
    exact ht.ordered.push weak_farther hit
  · have hold : t.h.toList.Perm hits := by simpa using ht.perm
    simpa using hperm.trans (hold.append_right [hit])
  · have hsize' : (t.add (.ofOrder D) hit).h.size = t.h.size + 1 := by simpa using hperm.length_eq
    rw [hk', hsize', List.length_append, List.length_singleton]
    omega

theorem Keeps.farthest (ht : Keeps t hits rest) (htail : t.h.toList = root :: tail) :
    ∀ a ∈ root :: tail, a.distance ≤ root.distance := by
  have hroot : t.h[0]? = some root := by rw [← Array.getElem?_toList, htail]; rfl
  exact fun a ha => farther_eq_false.mp (ht.ordered.not_less weak_farther hroot (htail ▸ ha))

/-- Without room, the farthest one gives way to a nearer hit. -/
theorem Keeps.replace (ht : Keeps t hits rest) (hk : 0 < t.k.toInt) (hit : Candidate D)
    (hfull : ¬ (t.h.size : Int) < t.k.toInt) (htail : t.h.toList = root :: tail)
    (hlt : hit.distance < root.distance) :
    Keeps (t.add (.ofOrder D) hit) (hits ++ [hit]) (root :: rest) := by
  have hroot : t.h[0]? = some root := by rw [← Array.getElem?_toList, htail]; rfl
  have hadd : t.add (.ofOrder D) hit =
      { t with h := heapFix (farther (.ofOrder D)) (t.h.setIfInBounds 0 hit) 0 } := by
    simp only [TopK.add, if_neg (show ¬ t.k.toInt ≤ 0 by omega), if_neg hfull, hroot,
      Distances.ofOrder,
      decide_eq_true hlt, if_true]
  have hperm : (t.add (.ofOrder D) hit).h.toList.Perm (hit :: tail) := by
    rw [hadd]
    refine (heapFix_perm _ 0).trans ?_
    rw [Array.toList_setIfInBounds, htail, List.set_cons_zero]
  have hold := ht.perm
  have hnear := ht.nearest
  rw [htail] at hold hnear
  refine ⟨?_, ?_, ?_, fun a ha b hb => ?_⟩
  · rw [hadd]
    exact ht.ordered.fix weak_farther hit
  · calc ((t.add (.ofOrder D) hit).h.toList ++ root :: rest).Perm (hit :: tail ++ root :: rest) :=
        hperm.append_right _
      List.Perm _ (hit :: (root :: tail ++ rest)) := by
        rw [List.cons_append]
        exact List.perm_middle.cons hit
      List.Perm _ (hits ++ [hit]) :=
        (hold.cons hit).trans (List.perm_append_singleton hit hits).symm
  · have hsize' : (t.add (.ofOrder D) hit).h.size = t.h.size := by
      have hold := congrArg List.length htail
      simpa using hperm.length_eq.trans hold.symm
    have hk' : (t.add (.ofOrder D) hit).k = t.k := by rw [hadd]
    have hsize := ht.size
    rw [hsize', hk', List.length_append, List.length_singleton]
    omega
  · have ha' : a.distance ≤ root.distance := by
      rcases List.mem_cons.mp (hperm.mem_iff.mp ha) with rfl | ha
      · exact Std.le_of_lt hlt
      · exact ht.farthest htail a (List.mem_cons_of_mem _ ha)
    rcases List.mem_cons.mp hb with rfl | hb
    · exact ha'
    · exact Std.le_trans ha' (hnear root List.mem_cons_self b hb)

/-- Without room, a hit that is not nearer than the farthest is left out. -/
theorem Keeps.leave (ht : Keeps t hits rest) (hk : 0 < t.k.toInt) (hit : Candidate D)
    (hfull : ¬ (t.h.size : Int) < t.k.toInt) (htail : t.h.toList = root :: tail)
    (hlt : ¬ hit.distance < root.distance) :
    Keeps (t.add (.ofOrder D) hit) (hits ++ [hit]) (hit :: rest) := by
  have hroot : t.h[0]? = some root := by rw [← Array.getElem?_toList, htail]; rfl
  have hadd : t.add (.ofOrder D) hit = t := by
    simp only [TopK.add, if_neg (show ¬ t.k.toInt ≤ 0 by omega), if_neg hfull, hroot,
      Distances.ofOrder,
      decide_eq_false hlt, if_false, Bool.false_eq_true]
  have hsize := ht.size
  rw [hadd]
  refine ⟨ht.ordered, ?_, ?_, fun a ha b hb => ?_⟩
  · exact (List.perm_middle.trans (ht.perm.cons hit)).trans
      (List.perm_append_singleton hit hits).symm
  · rw [List.length_append, List.length_singleton]
    omega
  · rcases List.mem_cons.mp hb with rfl | hb
    · exact Std.le_trans (ht.farthest htail a (htail ▸ ha)) (Std.not_lt.mp hlt)
    · exact ht.nearest a ha b hb

theorem Keeps.add (ht : Keeps t hits rest) (hk : 0 < t.k.toInt) (hit : Candidate D) :
    ∃ rest', Keeps (t.add (.ofOrder D) hit) (hits ++ [hit]) rest' := by
  by_cases hroom : (t.h.size : Int) < t.k.toInt
  · exact ⟨[], ht.room hk hit hroom⟩
  · cases htail : t.h.toList with
    | nil =>
      have hsize := congrArg List.length htail
      rw [Array.length_toList, List.length_nil] at hsize
      omega
    | cons root tail =>
      by_cases hlt : hit.distance < root.distance
      · exact ⟨_, ht.replace hk hit hroom htail hlt⟩
      · exact ⟨_, ht.leave hk hit hroom htail hlt⟩

end

theorem add_k (t : TopK D) (hit : Candidate D) : (t.add (.ofOrder D) hit).k = t.k := by
  unfold TopK.add
  split
  · rfl
  · split
    · rfl
    · split
      · split <;> rfl
      · rfl

/-- A collector that was offered some hits. -/
theorem keeps_offer (hk : 0 < k.toInt) (hits : List (Candidate D)) :
    (TopK.offer (.ofOrder D) k hits).k = k ∧
      ∃ rest, Keeps (TopK.offer (.ofOrder D) k hits) hits rest := by
  induction hits using List.reverseRecOn with
  | nil => exact ⟨rfl, [], fun c _ => lessAt_out (by simp [TopK.offer]),
      .refl _, by simp [TopK.offer]; omega, by simp⟩
  | append_singleton hits hit ih =>
    obtain ⟨hk', rest, hkeeps⟩ := ih
    have hoffer : TopK.offer (.ofOrder D) k (hits ++ [hit]) =
        (TopK.offer (.ofOrder D) k hits).add (.ofOrder D) hit := by
      simp [TopK.offer]
    rw [hoffer]
    exact ⟨(add_k _ _).trans hk', hkeeps.add (by rw [hk']; exact hk) hit⟩

/-- The hits a collector returns, and the ones it leaves out. -/
theorem offer_spec (k : Int64) (hits : List (Candidate D)) :
    ∃ rest, ((TopK.offer (.ofOrder D) k hits).result (.ofOrder D) ++ rest).Perm hits ∧
      ((TopK.offer (.ofOrder D) k hits).result (.ofOrder D)).length =
        min k.toInt.toNat hits.length ∧
      ∀ a ∈ (TopK.offer (.ofOrder D) k hits).result (.ofOrder D), ∀ b ∈ rest,
        a.distance ≤ b.distance := by
  have hsort : ((TopK.offer (.ofOrder D) k hits).result (.ofOrder D)).Perm
      (TopK.offer (.ofOrder D) k hits).h.toList := List.perm_insertionSort _ _
  by_cases hk : 0 < k.toInt
  · obtain ⟨hk', rest, hkeeps⟩ := keeps_offer hk hits
    refine ⟨rest, (hsort.append_right rest).trans hkeeps.perm, ?_, fun a ha => hkeeps.nearest a
      (hsort.mem_iff.mp ha)⟩
    have hsize := hkeeps.size
    rw [hk'] at hsize
    rw [hsort.length_eq, Array.length_toList]
    omega
  · have hnone : TopK.offer (.ofOrder D) k hits = { k } := by
      induction hits with
      | nil => rfl
      | cons hit hits ih =>
        rw [TopK.offer, List.foldl_cons, TopK.add, if_pos (by simpa using hk)]
        exact ih (by rw [TopK.result]; exact List.perm_insertionSort _ _)
    refine ⟨hits, ?_, ?_, ?_⟩ <;> rw [hnone]
    · exact .refl _
    · have : k.toInt.toNat = 0 := by omega
      simp [TopK.result, this]
    · simp [TopK.result]

/-- A full collector keeps what it has as long as nothing nearer comes. -/
theorem result_offer_far {far : List (Candidate D)} (hfull : hits.length = k.toInt.toNat)
    (hfar : ∀ a ∈ hits, ∀ b ∈ far, a.distance ≤ b.distance) :
    ((TopK.offer (.ofOrder D) k (hits ++ far)).result (.ofOrder D)).Perm hits := by
  by_cases hk : 0 < k.toInt
  · refine (List.perm_insertionSort _ _).trans ?_
    induction far using List.reverseRecOn with
    | nil =>
      obtain ⟨hk', rest, hkeeps⟩ := keeps_offer hk hits
      have hsize := hkeeps.size
      have hlen := hkeeps.perm.length_eq
      rw [hk'] at hsize
      rw [List.length_append, Array.length_toList] at hlen
      obtain rfl : rest = [] := List.length_eq_zero_iff.mp (by omega)
      simpa using hkeeps.perm
    | append_singleton far hit ih =>
      have hold := ih fun a ha b hb => hfar a ha b (List.mem_append_left _ hb)
      have hk' := (keeps_offer hk (hits ++ far)).1
      rw [← List.append_assoc, TopK.offer, List.foldl_append, List.foldl_cons, List.foldl_nil,
        ← TopK.offer]
      generalize TopK.offer (.ofOrder D) k (hits ++ far) = t at *
      have hlen := hold.length_eq
      rw [Array.length_toList] at hlen
      cases htail : t.h.toList with
      | nil =>
        rw [← Array.length_toList, htail, List.length_nil] at hlen
        omega
      | cons root tail =>
        have hroot : root ∈ hits := hold.mem_iff.mp (htail ▸ List.mem_cons_self)
        have hget : t.h[0]? = some root := by rw [← Array.getElem?_toList, htail]; rfl
        have hlt : ¬ hit.distance < root.distance := not_lt.mpr (hfar root hroot hit (by simp))
        rw [TopK.add, if_neg (by rw [hk']; omega), if_neg (by rw [hk']; omega), hget]
        simpa [Distances.ofOrder, hlt] using hold
  · obtain ⟨rest, hperm, hlen, -⟩ := offer_spec k (hits ++ far)
    obtain rfl : hits = [] := List.length_eq_zero_iff.mp (by omega)
    rw [List.length_eq_zero_iff.mp (by omega :
      ((TopK.offer (.ofOrder D) k ([] ++ far)).result (.ofOrder D)).length = 0)]

/-- A collector that is not offered everything, but `k` nearer ones for each it is not offered,
returns the nearest of everything. -/
theorem offer_covers {all : List (Candidate D)} (hall : all.Nodup) (hnd : hits.Nodup)
    (hsub : hits ⊆ all)
    (hcover : ∀ x ∈ all, x ∉ hits → ∃ near : List (Candidate D), near.Nodup ∧ near ⊆ hits ∧
      k.toInt.toNat ≤ near.length ∧ ∀ b ∈ near, b.distance ≤ x.distance) :
    let kept := (TopK.offer (.ofOrder D) k hits).result (.ofOrder D)
    kept.Nodup ∧ kept ⊆ hits ∧ kept.length = min k.toInt.toNat all.length ∧
      ∀ c ∈ kept, ∀ x ∈ all, x ∉ kept → c.distance ≤ x.distance := by
  intro kept
  obtain ⟨rest, hperm, hlen, hnear⟩ := offer_spec k hits
  have happ : (kept ++ rest).Nodup := hperm.nodup_iff.mpr hnd
  have hle := (List.subperm_of_subset hnd hsub).length_le
  refine ⟨(List.nodup_append.mp happ).1, fun a ha => hperm.mem_iff.mp (List.mem_append_left _ ha),
    ?_, ?_⟩
  · by_cases hmissing : ∃ x ∈ all, x ∉ hits
    · obtain ⟨x, hx, hout⟩ := hmissing
      obtain ⟨near, hnear, hin, hcount, -⟩ := hcover x hx hout
      have := (List.subperm_of_subset hnear hin).length_le
      rw [hlen]
      omega
    · have hsup : all ⊆ hits := fun x hx => Classical.byContradiction fun h => hmissing ⟨x, hx, h⟩
      have := (List.subperm_of_subset hall hsup).length_le
      rw [hlen]
      omega
  · intro c hc x hx hxk
    by_cases hin : x ∈ hits
    · exact hnear c hc x ((List.mem_append.mp (hperm.mem_iff.mpr hin)).resolve_left hxk)
    · obtain ⟨near, hnearnd, hnearin, hcount, hclose⟩ := hcover x hx hin
      refine le_of_not_gt fun hlt => ?_
      -- `c` takes a place among the `k`, so one of the nearer ones is left out
      obtain ⟨b, hb, hbk⟩ : ∃ b ∈ near, b ∉ kept := by
        by_contra hall
        push Not at hall
        have hcnear : c ∉ near := fun h => absurd hlt (not_lt.mpr (hclose c h))
        have hfit := (List.subperm_of_subset (List.nodup_cons.mpr ⟨hcnear, hnearnd⟩)
          (List.cons_subset.mpr ⟨hc, hall⟩)).length_le
        rw [List.length_cons] at hfit
        have : kept.length = min k.toInt.toNat hits.length := hlen
        omega
      have hbrest := (List.mem_append.mp (hperm.mem_iff.mpr (hnearin hb))).resolve_left hbk
      exact absurd hlt (not_lt.mpr ((hnear c hc b hbrest).trans (hclose b hb)))

def Before (a b : Candidate D) : Prop := nearer (.ofOrder D) b a = false

instance : DecidableRel (Before (D := D)) := fun _ _ => inferInstanceAs (Decidable (_ = false))

theorem before_iff {a b : Candidate D} :
    Before a b ↔ a.distance < b.distance ∨
      a.distance = b.distance ∧ (compare b.id a.id).isGE = true := by
  rw [Before, nearer]
  rcases lt_trichotomy a.distance b.distance with h | h | h
  · simp [Distances.ofOrder, h, h.ne', h.le]
  · cases compare b.id a.id <;> simp [Distances.ofOrder, h]
  · simp [Distances.ofOrder, h, h.ne, h.ne', h.not_gt]

instance : Std.Total (Before (D := D)) where
  total a b := by
    rw [before_iff, before_iff]
    rcases lt_trichotomy a.distance b.distance with h | h | h
    · exact .inl (.inl h)
    · cases hc : compare b.id a.id with
      | lt => exact .inr (.inr ⟨h.symm, by rw [Std.OrientedCmp.gt_iff_lt.mpr hc]; rfl⟩)
      | eq | gt => exact .inl (.inr ⟨h, rfl⟩)
    · exact .inr (.inl h)

instance : IsTrans (Candidate D) Before where
  trans a b c hab hbc := by
    rw [before_iff] at *
    rcases hab with hab | ⟨hab, hab'⟩
    · rcases hbc with hbc | ⟨hbc, -⟩
      · exact .inl (hab.trans hbc)
      · exact .inl (hbc ▸ hab)
    · rcases hbc with hbc | ⟨hbc, hbc'⟩
      · exact .inl (hab ▸ hbc)
      · exact .inr ⟨hab.trans hbc, Std.TransCmp.isGE_trans hbc' hab'⟩

theorem Before.antisymm {a b : Candidate D} (hab : Before a b) (hba : Before b a) : a = b := by
  rw [before_iff] at hab hba
  have hd : a.distance = b.distance := by
    rcases hab with hab | hab
    · rcases hba with hba | hba
      · exact absurd hab hba.not_gt
      · exact hba.1.symm
    · exact hab.1
  have hid : compare a.id b.id = .eq := by
    have hge := (hab.resolve_left (by rw [hd]; exact lt_irrefl _)).2
    have hge' := (hba.resolve_left (by rw [hd]; exact lt_irrefl _)).2
    cases hc : compare a.id b.id with
    | eq => rfl
    | lt => rw [hc] at hge'; cases hge'
    | gt => rw [Std.OrientedCmp.gt_iff_lt.mp hc] at hge; cases hge
  cases a
  cases b
  simp only [Candidate.mk.injEq]
  exact ⟨Std.LawfulEqCmp.eq_of_compare hid, hd⟩

/-- Two lists in order that hold the same hits. -/
theorem eq_of_before {l l' : List (Candidate D)} (hl : l.Pairwise Before) (hl' : l'.Pairwise Before)
    (h : l.Perm l') : l = l' :=
  h.eq_of_pairwise (fun _ _ _ _ hab hba => hab.antisymm hba) hl hl'

/-- A result is in order. -/
theorem pairwise_result (t : TopK D) : (t.result (.ofOrder D)).Pairwise Before :=
  List.pairwise_insertionSort Before t.h.toList

end

end WaveSpan.Vector
