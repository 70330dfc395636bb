/-
WaveSpan.Lib.MergeRows — merging sorted runs of rows, the newest of each key.

Rows are added to a map one by one, and a row replaces the one under its key if it is
newer. What the map holds under a key depends only on the rows of that key
(`getElem?_foldl_add`), and it is the first of the newest (`getElem?_merge_run`).

Fewer rows have the same first `n` merged rows if they still give these under their keys
(`take_merge_eq`). A row of some run has at most as many rows before it as the merge has
smaller keys, because the keys of a run are distinct (`index_le`); so a run of which the first
rows are kept is cut behind them (`mem_take_iff`).
-/
import Mathlib.Data.List.Perm.Subperm
import Mathlib.Order.Lattice
import WaveSpan.Lib.Rows

namespace WaveSpan.MergeRows

variable {κ ρ : Type} {cmp : κ → κ → Ordering} [Std.TransCmp cmp]

/-! ## Sorted lists -/

theorem ne_of_lt {a b : κ} (h : cmp a b = .lt) : a ≠ b := by
  rintro rfl
  have hself : cmp a a = .eq := Std.ReflCmp.compare_self
  rw [hself] at h
  cases h

theorem not_gt_of_lt {a b : κ} (h : cmp a b = .lt) : cmp b a ≠ .lt := by
  have hswap : cmp b a = (cmp a b).swap := Std.OrientedCmp.eq_swap
  rw [hswap, h]
  decide

/-- Two sorted lists whose first rows are the same: the second has no other keys than the
first, and the first rows of the first are in the second. -/
theorem take_eq_of_agree [Std.LawfulEqCmp cmp] {ν : Type} {n : Nat} {xs ys : List (κ × ν)}
    (hx : xs.Pairwise fun a b => cmp a.1 b.1 = .lt) (hy : ys.Pairwise fun a b => cmp a.1 b.1 = .lt)
    (hkeys : ∀ y ∈ ys, ∃ x ∈ xs, x.1 = y.1)
    (hagree : ∀ x ∈ xs.take n, x ∈ ys) : ys.take n = xs.take n := by
  induction n generalizing xs ys with
  | zero => simp
  | succ n ih =>
    cases xs with
    | nil =>
      cases ys with
      | nil => rfl
      | cons y ys =>
        obtain ⟨x, hmem, -⟩ := hkeys y (by simp)
        cases hmem
    | cons x xs =>
      have hxmem : x ∈ ys := hagree x (by simp)
      cases ys with
      | nil => cases hxmem
      | cons y ys =>
        rw [List.pairwise_cons] at hx hy
        -- The heads are the same: neither key can be below the other.
        have hhead : y = x := by
          rcases List.mem_cons.mp hxmem with rfl | hin
          · rfl
          · have hlt := hy.1 x hin
            obtain ⟨x', hx', hkey⟩ := hkeys y (by simp)
            rcases List.mem_cons.mp hx' with rfl | hin'
            · exact absurd hkey.symm (ne_of_lt hlt)
            · have hlt' := hx.1 x' hin'
              rw [hkey] at hlt'
              exact absurd hlt (not_gt_of_lt hlt')
        subst hhead
        have hrest : ys.take n = xs.take n := by
          refine ih hx.2 hy.2 (fun z hz => ?_) (fun z hz => ?_)
          · obtain ⟨x', hx', hkey⟩ := hkeys z (by simp [hz])
            rcases List.mem_cons.mp hx' with rfl | hin
            · exact absurd hkey (ne_of_lt (hy.1 z hz))
            · exact ⟨x', hin, hkey⟩
          · rcases List.mem_cons.mp (hagree z (by simp [hz])) with rfl | hin
            · exact absurd rfl (ne_of_lt (hx.1 z (List.mem_of_mem_take hz)))
            · exact hin
        rw [List.take_succ_cons, List.take_succ_cons, hrest]

/-! ## Adding rows -/

section
variable (key : ρ → κ) (newer : ρ → ρ → Bool)

def add (m : Std.ExtTreeMap κ ρ cmp) (r : ρ) : Std.ExtTreeMap κ ρ cmp :=
  match m[key r]? with
  | some cur => if newer r cur then m.insert (key r) r else m
  | none => m.insert (key r) r

def merge (rows : List ρ) : Std.ExtTreeMap κ ρ cmp := rows.foldl (add key newer) ∅

/-- The row kept of two with the same key. -/
def pick : Option ρ → ρ → Option ρ
  | none, r => some r
  | some cur, r => if newer r cur then some r else some cur

end

section
variable {key : ρ → κ} {newer : ρ → ρ → Bool} [Std.LawfulEqCmp cmp] [DecidableEq κ]

theorem getElem?_add (m : Std.ExtTreeMap κ ρ cmp) (r : ρ) (k : κ) :
    (add key newer m r)[k]? = if key r = k then pick newer m[k]? r else m[k]? := by
  by_cases hk : key r = k
  · subst hk
    unfold add pick
    cases hm : m[key r]? with
    | none => simp
    | some cur => by_cases hn : newer r cur <;> simp [hn, hm]
  · unfold add
    cases hm : m[key r]? with
    | none => simp [hk, Std.ExtTreeMap.getElem?_insert]
    | some cur => by_cases hn : newer r cur <;> simp [hk, hn, Std.ExtTreeMap.getElem?_insert]

/-- What is under a key depends on the rows of that key. -/
theorem getElem?_foldl_add (rows : List ρ) (m : Std.ExtTreeMap κ ρ cmp) (k : κ) :
    (rows.foldl (add key newer) m)[k]? =
      (rows.filter fun r => key r = k).foldl (pick newer) m[k]? := by
  induction rows generalizing m with
  | nil => rfl
  | cons r rows ih =>
    rw [List.foldl_cons, ih, getElem?_add]
    by_cases hk : key r = k <;> simp [hk]

/-- A merged row is the pick among those of its key. -/
theorem getElem?_merge (rows : List ρ) (k : κ) :
    (merge key newer rows : Std.ExtTreeMap κ ρ cmp)[k]? =
      (rows.filter fun r => key r = k).foldl (pick newer) none := by
  unfold merge
  rw [getElem?_foldl_add, Std.ExtTreeMap.getElem?_empty]

omit [Std.TransCmp cmp] [Std.LawfulEqCmp cmp] [DecidableEq κ] in
theorem foldl_pick_mem {rows : List ρ} {o : Option ρ} {r : ρ}
    (h : rows.foldl (pick newer) o = some r) : o = some r ∨ r ∈ rows := by
  induction rows generalizing o with
  | nil => exact .inl h
  | cons x rows ih =>
    rcases ih h with hpick | hmem
    · cases o with
      | none => simp_all [pick]
      | some cur => by_cases hn : newer x cur <;> simp_all [pick]
    · exact .inr (by simp [hmem])

omit [Std.TransCmp cmp] [Std.LawfulEqCmp cmp] [DecidableEq κ] in
theorem foldl_pick_isSome {rows : List ρ} {o : Option ρ} (h : o.isSome ∨ rows ≠ []) :
    (rows.foldl (pick newer) o).isSome := by
  induction rows generalizing o with
  | nil => simpa using h
  | cons x rows ih =>
    refine ih (.inl ?_)
    cases o with
    | none => rfl
    | some cur => by_cases hn : newer x cur <;> simp [pick, hn]

/-- A merged row is one of the rows, under its key. -/
theorem mem_of_getElem?_merge {rows : List ρ} {k : κ} {r : ρ}
    (h : (merge key newer rows : Std.ExtTreeMap κ ρ cmp)[k]? = some r) : r ∈ rows ∧ key r = k := by
  rw [getElem?_merge] at h
  rcases foldl_pick_mem h with hnone | hmem
  · cases hnone
  · simpa using hmem

theorem isSome_merge {rows : List ρ} {r : ρ} (h : r ∈ rows) :
    ((merge key newer rows : Std.ExtTreeMap κ ρ cmp)[key r]?).isSome := by
  rw [getElem?_merge]
  exact foldl_pick_isSome (.inr (List.ne_nil_of_mem (List.mem_filter.mpr ⟨h, by simp⟩)))

/-! ## Cutting the runs -/

/-- A row of a sorted run has no more rows before it than the merge has smaller keys. -/
theorem index_le {rows run : List ρ} {i j : Nat} {e : κ × ρ} {x : ρ}
    (hsub : run ⊆ rows) (hrun : run.Pairwise fun a b => cmp (key a) (key b) = .lt)
    (he : (merge key newer rows : Std.ExtTreeMap κ ρ cmp).toList[i]? = some e)
    (hx : run[j]? = some x) (hkey : key x = e.1) : j ≤ i := by
  have hsorted := Std.ExtTreeMap.ordered_keys_toList
      (t := (merge key newer rows : Std.ExtTreeMap κ ρ cmp))
  obtain ⟨hi, rfl⟩ := List.getElem?_eq_some_iff.mp he
  obtain ⟨hj, rfl⟩ := List.getElem?_eq_some_iff.mp hx
  have hnodup : ((run.take j).map key).Nodup := by
    rw [List.nodup_iff_pairwise_ne, List.pairwise_map]
    exact (hrun.sublist (List.take_sublist _ _)).imp fun hlt => ne_of_lt hlt
  have hmem : (run.take j).map key ⊆
      ((merge key newer rows : Std.ExtTreeMap κ ρ cmp).toList.take i).map Prod.fst := by
    intro k hk
    obtain ⟨y, hy, rfl⟩ := List.mem_map.mp hk
    obtain ⟨p, hp, rfl⟩ := List.mem_take_iff_getElem.mp hy
    have hlt : cmp (key run[p]) (key run[j]) = .lt :=
      List.pairwise_iff_getElem.mp hrun p j (by omega) hj (by omega)
    have hin : run[p] ∈ rows := hsub (List.getElem_mem _)
    obtain ⟨r, hr⟩ := Option.isSome_iff_exists.mp
      (isSome_merge hin : ((merge key newer rows : Std.ExtTreeMap κ ρ cmp)[key run[p]]?).isSome)
    obtain ⟨q, hq, hqe⟩ := List.mem_iff_getElem.mp
      (Std.ExtTreeMap.mem_toList_iff_getElem?_eq_some.mpr hr)
    have hqi : q < i := by
      by_contra hge
      rcases Nat.lt_or_ge i q with hlt' | hge'
      · have hcmp := List.pairwise_iff_getElem.mp hsorted i q hi hq hlt'
        rw [hqe, ← hkey] at hcmp
        exact not_gt_of_lt hlt hcmp
      · obtain rfl : q = i := by omega
        rw [hqe] at hkey
        exact ne_of_lt hlt hkey.symm
    exact List.mem_map.mpr ⟨_, List.mem_take_iff_getElem.mpr ⟨q, by omega, rfl⟩, by rw [hqe]⟩
  have hlen := (List.subperm_of_subset hnodup hmem).length_le
  simp only [List.length_map, List.length_take] at hlen
  omega

omit [Std.LawfulEqCmp cmp] [DecidableEq κ] in
/-- A row of a sorted run is among the first ones if there are few before it. -/
theorem mem_take_iff {run : List ρ} {n : Nat} {r : ρ}
    (hrun : run.Pairwise fun a b => cmp (key a) (key b) = .lt) :
    r ∈ run.take n ↔
      r ∈ run ∧ (run.filter fun x => cmp (key x) (key r) = .lt).length < n := by
  by_cases hr : r ∈ run
  · obtain ⟨us, vs, rfl⟩ := List.append_of_mem hr
    rw [List.pairwise_append, List.pairwise_cons] at hrun
    obtain ⟨-, ⟨hvs, -⟩, hus⟩ := hrun
    have hbefore : ((us ++ r :: vs).filter fun x => cmp (key x) (key r) = .lt) = us := by
      have hall : (us.filter fun x => cmp (key x) (key r) = .lt) = us :=
        List.filter_eq_self.mpr fun x hx => decide_eq_true (hus x hx r List.mem_cons_self)
      have hnone : (vs.filter fun x => cmp (key x) (key r) = .lt) = [] :=
        List.filter_eq_nil_iff.mpr fun x hx => by simpa using not_gt_of_lt (hvs x hx)
      have hself : cmp (key r) (key r) ≠ .lt := fun h => ne_of_lt h rfl
      simp [hall, hnone, hself]
    rw [hbefore, and_iff_right hr]
    constructor
    · intro hmem
      by_contra hle
      rw [List.take_append_of_le_length (not_lt.mp hle)] at hmem
      exact ne_of_lt (hus r (List.mem_of_mem_take hmem) r List.mem_cons_self) rfl
    · intro hlt
      exact List.mem_take_iff_getElem.mpr ⟨us.length, by simp; omega, by simp⟩
  · exact iff_of_false (fun hmem => hr (List.mem_of_mem_take hmem)) fun hmem => hr hmem.1

/-- Fewer rows give the same first rows, if they give these under their keys. -/
theorem take_merge_eq {xs ys : List ρ} {n : Nat} (hsub : ys ⊆ xs)
    (hrows : ∀ e ∈ (merge key newer xs : Std.ExtTreeMap κ ρ cmp).toList.take n,
      (merge key newer ys : Std.ExtTreeMap κ ρ cmp)[e.1]? = some e.2) :
    (merge key newer ys : Std.ExtTreeMap κ ρ cmp).toList.take n =
      (merge key newer xs : Std.ExtTreeMap κ ρ cmp).toList.take n := by
  refine take_eq_of_agree Std.ExtTreeMap.ordered_keys_toList Std.ExtTreeMap.ordered_keys_toList
    (fun y hy => ?_) fun e he => Std.ExtTreeMap.mem_toList_iff_getElem?_eq_some.mpr (hrows e he)
  obtain ⟨hmem, hkey⟩ := mem_of_getElem?_merge
    (Std.ExtTreeMap.mem_toList_iff_getElem?_eq_some.mp hy)
  obtain ⟨r, hr⟩ := Option.isSome_iff_exists.mp (isSome_merge (hsub hmem) :
    ((merge key newer xs : Std.ExtTreeMap κ ρ cmp)[key y.2]?).isSome)
  exact ⟨(key y.2, r), Std.ExtTreeMap.mem_toList_iff_getElem?_eq_some.mpr hr, hkey⟩

end

/-! ## The newest row -/

section
variable {key : ρ → κ} [Std.LawfulEqCmp cmp] [DecidableEq κ] {β : Type} [LinearOrder β]
  {stamp : ρ → β}

omit [Std.TransCmp cmp] [Std.LawfulEqCmp cmp] [DecidableEq κ] in
/-- What is picked has the highest stamp. -/
theorem foldl_pick_max {rows : List ρ} {o : Option ρ} {r x : ρ}
    (h : rows.foldl (pick fun a b => decide (stamp b < stamp a)) o = some r)
    (hx : o = some x ∨ x ∈ rows) : stamp x ≤ stamp r := by
  induction rows generalizing o x with
  | nil =>
    rcases hx with rfl | hx
    · exact le_of_eq (congrArg stamp (Option.some.inj h))
    · cases hx
  | cons y rows ih =>
    rw [List.foldl_cons] at h
    have hpick : ∃ z, pick (fun a b => decide (stamp b < stamp a)) o y = some z ∧
        stamp y ≤ stamp z ∧ ∀ x, o = some x → stamp x ≤ stamp z := by
      cases o with
      | none => exact ⟨y, rfl, le_refl _, by simp⟩
      | some cur =>
        by_cases hlt : stamp cur < stamp y
        · exact ⟨y, by simp [pick, hlt], le_refl _, by simp [hlt.le]⟩
        · exact ⟨cur, by simp [pick, hlt], le_of_not_gt hlt, by simp⟩
    obtain ⟨z, hz, hyz, hoz⟩ := hpick
    have hzr : stamp z ≤ stamp r := ih h (.inl hz)
    rcases hx with hx | hx
    · exact (hoz x hx).trans hzr
    · rcases List.mem_cons.mp hx with rfl | hx
      · exact hyz.trans hzr
      · exact ih h (.inr hx)

/-- A merged row is the newest of its key. -/
theorem le_of_getElem?_merge {rows : List ρ} {k : κ} {r x : ρ}
    (h : (merge key (fun a b => decide (stamp b < stamp a)) rows : Std.ExtTreeMap κ ρ cmp)[k]? =
      some r)
    (hx : x ∈ rows) (hkey : key x = k) : stamp x ≤ stamp r := by
  rw [getElem?_merge] at h
  exact foldl_pick_max h (.inr (List.mem_filter.mpr ⟨hx, by simpa using hkey⟩))

omit [Std.TransCmp cmp] [Std.LawfulEqCmp cmp] [DecidableEq κ] in
theorem foldl_pick_stay {rows : List ρ} {r : ρ} (h : ∀ y ∈ rows, stamp y ≤ stamp r) :
    rows.foldl (pick fun a b => decide (stamp b < stamp a)) (some r) = some r := by
  induction rows with
  | nil => rfl
  | cons y rows ih =>
    obtain ⟨hy, hrows⟩ := List.forall_mem_cons.mp h
    rw [List.foldl_cons, pick, if_neg (by simpa using hy)]
    exact ih hrows

/-- Of the newest rows of a key the first is kept: one of a sorted run, with older ones before
the run and none newer behind it. -/
theorem getElem?_merge_run {pre run post : List ρ} {r : ρ}
    (hpre : ∀ y ∈ pre, key y = key r → stamp y < stamp r)
    (hrun : run.Pairwise fun a b => cmp (key a) (key b) = .lt) (hr : r ∈ run)
    (hpost : ∀ y ∈ post, key y = key r → stamp y ≤ stamp r) :
    (merge key (fun a b => decide (stamp b < stamp a)) (pre ++ (run ++ post)) :
      Std.ExtTreeMap κ ρ cmp)[key r]? = some r := by
  obtain ⟨us, vs, rfl⟩ := List.append_of_mem hr
  rw [List.pairwise_append, List.pairwise_cons] at hrun
  obtain ⟨-, ⟨hvs, -⟩, hus⟩ := hrun
  have hone : ((us ++ r :: vs).filter fun x => key x = key r) = [r] := by
    have hbefore : (us.filter fun x => key x = key r) = [] := by
      rw [List.filter_eq_nil_iff]
      intro x hx
      simpa using ne_of_lt (hus x hx r List.mem_cons_self)
    have hbehind : (vs.filter fun x => key x = key r) = [] := by
      rw [List.filter_eq_nil_iff]
      intro x hx
      simpa using (ne_of_lt (hvs x hx)).symm
    simp [hbefore, hbehind]
  rw [getElem?_merge, List.filter_append, List.filter_append, hone, List.foldl_append,
    List.singleton_append, List.foldl_cons]
  have hpick : pick (fun a b => decide (stamp b < stamp a))
      ((pre.filter fun x => key x = key r).foldl (pick fun a b => decide (stamp b < stamp a)) none)
        r = some r := by
    cases hold : (pre.filter fun x => key x = key r).foldl
        (pick fun a b => decide (stamp b < stamp a)) none with
    | none => rfl
    | some cur =>
      rcases foldl_pick_mem hold with hnone | hmem
      · cases hnone
      · obtain ⟨hmem, hkey⟩ := List.mem_filter.mp hmem
        simp [pick, hpre cur hmem (by simpa using hkey)]
  rw [hpick]
  refine foldl_pick_stay fun y hy => ?_
  obtain ⟨hmem, hkey⟩ := List.mem_filter.mp hy
  exact hpost y hmem (by simpa using hkey)

/-- A row that is newest of its key, as only itself is, is kept. -/
theorem getElem?_merge_unique {rows : List ρ} {r : ρ} (hr : r ∈ rows)
    (hmax : ∀ y ∈ rows, key y = key r → stamp y ≤ stamp r)
    (honly : ∀ y ∈ rows, key y = key r → stamp y = stamp r → y = r) :
    (merge key (fun a b => decide (stamp b < stamp a)) rows : Std.ExtTreeMap κ ρ cmp)[key r]? =
      some r := by
  obtain ⟨x, hx⟩ := Option.isSome_iff_exists.mp (isSome_merge hr :
    ((merge key (fun a b => decide (stamp b < stamp a)) rows :
      Std.ExtTreeMap κ ρ cmp)[key r]?).isSome)
  obtain ⟨hmem, hkey⟩ := mem_of_getElem?_merge hx
  rw [hx, honly x hmem hkey (le_antisymm (hmax x hmem hkey) (le_of_getElem?_merge hx hr rfl))]

end

end WaveSpan.MergeRows
