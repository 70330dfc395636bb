/-
WaveSpan.Lib.Rows — ordered maps as row stores: batches of writes and weighted
sums over the rows.

An ordered map (`Std.ExtTreeMap`, whose equality is extensional) is read as a
table of rows. `runOps` applies a list of puts and deletes in order, later ones
winning. `wsum w m` adds up a weight over all rows; a row that is written or
dropped moves it by that row's own weight and nothing else (`wsum_insert`,
`wsum_erase`), which is how an aggregate kept beside the rows is compared with
them.
-/
import Std.Data.ExtTreeMap
import Mathlib.Data.List.Nodup
import Mathlib.Data.List.Perm.Basic
import Mathlib.Algebra.BigOperators.Group.List.Basic
import Mathlib.Tactic.Abel

namespace WaveSpan.Rows

variable {κ ν : Type} {cmp : κ → κ → Ordering}

inductive Op (κ ν : Type) where
  | put (key : κ) (value : ν)
  | del (key : κ)
  deriving DecidableEq, Repr

def Op.key : Op κ ν → κ
  | .put k _ => k
  | .del k => k

def Op.value : Op κ ν → Option ν
  | .put _ v => some v
  | .del _ => none

section
variable [Std.TransCmp cmp]

def runOp (m : Std.ExtTreeMap κ ν cmp) : Op κ ν → Std.ExtTreeMap κ ν cmp
  | .put k v => m.insert k v
  | .del k => m.erase k

def runOps (m : Std.ExtTreeMap κ ν cmp) (ops : List (Op κ ν)) : Std.ExtTreeMap κ ν cmp :=
  ops.foldl runOp m

@[simp] theorem runOps_nil (m : Std.ExtTreeMap κ ν cmp) : runOps m [] = m := rfl

theorem runOps_append (m : Std.ExtTreeMap κ ν cmp) (xs ys : List (Op κ ν)) :
    runOps m (xs ++ ys) = runOps (runOps m xs) ys := by
  simp [runOps]

theorem runOps_concat (m : Std.ExtTreeMap κ ν cmp) (xs : List (Op κ ν)) (op : Op κ ν) :
    runOps m (xs ++ [op]) = runOp (runOps m xs) op := by
  simp [runOps]

end

section
variable [Std.TransCmp cmp] [Std.LawfulEqCmp cmp] [DecidableEq κ]

omit [DecidableEq κ] in
theorem contains_insert_iff {m : Std.ExtTreeMap κ ν cmp} {k j : κ} {v : ν} :
    (m.insert k v).contains j = true ↔ k = j ∨ m.contains j = true := by
  simp only [Std.ExtTreeMap.contains_insert, Bool.or_eq_true, beq_iff_eq,
    Std.LawfulEqCmp.compare_eq_iff_eq]

omit [DecidableEq κ] in
/-- A row of a map with one more row is that row or an old one. -/
theorem getElem?_insert_cases {m : Std.ExtTreeMap κ ν cmp} {k j : κ} {v w : ν}
    (h : (m.insert k v)[j]? = some w) : m[j]? = some w ∨ j = k ∧ w = v := by
  rw [Std.ExtTreeMap.getElem?_insert] at h
  split at h
  · rename_i heq
    exact .inr ⟨(Std.LawfulEqCmp.compare_eq_iff_eq.mp heq).symm, (Option.some.inj h).symm⟩
  · exact .inl h

omit [Std.LawfulEqCmp cmp] [DecidableEq κ] in
/-- A row of a map with one row less is an old one. -/
theorem getElem?_of_erase {m : Std.ExtTreeMap κ ν cmp} {k j : κ} {w : ν}
    (h : (m.erase k)[j]? = some w) : m[j]? = some w := by
  rw [Std.ExtTreeMap.getElem?_erase] at h
  split at h
  · cases h
  · exact h

omit [DecidableEq κ] in
theorem getElem?_insert_of_ne {m : Std.ExtTreeMap κ ν cmp} {k j : κ} {v : ν} (h : k ≠ j) :
    (m.insert k v)[j]? = m[j]? := by
  rw [Std.ExtTreeMap.getElem?_insert,
    if_neg fun heq => h (Std.LawfulEqCmp.compare_eq_iff_eq.mp heq)]

omit [DecidableEq κ] in
theorem getElem?_erase_of_ne {m : Std.ExtTreeMap κ ν cmp} {k j : κ} (h : k ≠ j) :
    (m.erase k)[j]? = m[j]? := by
  rw [Std.ExtTreeMap.getElem?_erase, if_neg fun heq => h (Std.LawfulEqCmp.compare_eq_iff_eq.mp heq)]

omit [DecidableEq κ] in
/-- Erasing other keys. -/
theorem getElem?_foldl_erase {m : Std.ExtTreeMap κ ν cmp} {ks : List κ} {k : κ} (h : k ∉ ks) :
    (ks.foldl (fun m j => m.erase j) m)[k]? = m[k]? := by
  induction ks generalizing m with
  | nil => rfl
  | cons j ks ih =>
    rw [List.mem_cons, not_or] at h
    rw [List.foldl_cons, ih h.2, getElem?_erase_of_ne (Ne.symm h.1)]

theorem getElem?_runOp_put (m : Std.ExtTreeMap κ ν cmp) (k j : κ) (v : ν) :
    (runOp m (.put k v))[j]? = if k = j then some v else m[j]? := by
  simp [runOp, Std.ExtTreeMap.getElem?_insert]

theorem getElem?_runOp_del (m : Std.ExtTreeMap κ ν cmp) (k j : κ) :
    (runOp m (.del k))[j]? = if k = j then none else m[j]? := by
  simp [runOp, Std.ExtTreeMap.getElem?_erase]

/-- A write leaves every other row as it was. -/
theorem getElem?_runOp_of_ne (m : Std.ExtTreeMap κ ν cmp) {op : Op κ ν} {j : κ}
    (h : op.key ≠ j) : (runOp m op)[j]? = m[j]? := by
  cases op with
  | put k v => rw [getElem?_runOp_put]; exact if_neg h
  | del k => rw [getElem?_runOp_del]; exact if_neg h

/-- A batch leaves every row it does not name as it was. -/
theorem getElem?_runOps_of_forall_ne (m : Std.ExtTreeMap κ ν cmp) {ops : List (Op κ ν)} {j : κ}
    (h : ∀ op ∈ ops, op.key ≠ j) : (runOps m ops)[j]? = m[j]? := by
  induction ops generalizing m with
  | nil => rfl
  | cons op ops ih =>
    show (runOps (runOp m op) ops)[j]? = _
    rw [ih (runOp m op) (fun o ho => h o (by simp [ho])),
      getElem?_runOp_of_ne m (h op (by simp))]

end

section
variable [Std.TransCmp cmp] [Std.LawfulEqCmp cmp] [DecidableEq κ]

theorem getElem?_runOp_self (m : Std.ExtTreeMap κ ν cmp) (op : Op κ ν) :
    (runOp m op)[op.key]? = op.value := by
  cases op with
  | put k v => rw [getElem?_runOp_put]; exact if_pos rfl
  | del k => rw [getElem?_runOp_del]; exact if_pos rfl

/-- A row a batch writes is what its writes of that key agree on. -/
theorem getElem?_runOps_of_agree (m : Std.ExtTreeMap κ ν cmp) {ops : List (Op κ ν)} {j : κ}
    {v : Option ν} (h : ∀ op ∈ ops, op.key = j → op.value = v) (hj : ∃ op ∈ ops, op.key = j) :
    (runOps m ops)[j]? = v := by
  induction ops generalizing m with
  | nil => obtain ⟨op, hop, -⟩ := hj; cases hop
  | cons op ops ih =>
    have hrest : ∀ o ∈ ops, o.key = j → o.value = v := fun o ho => h o (by simp [ho])
    show (runOps (runOp m op) ops)[j]? = v
    by_cases hlater : ∃ o ∈ ops, o.key = j
    · exact ih _ hrest hlater
    · -- the last write of the key is this one
      obtain ⟨o, ho, hoj⟩ := hj
      have heq : o = op := by
        rcases List.mem_cons.mp ho with rfl | ho
        · rfl
        · exact absurd ⟨o, ho, hoj⟩ hlater
      subst heq
      rw [getElem?_runOps_of_forall_ne _ (fun o' ho' he => hlater ⟨o', ho', he⟩), ← hoj,
        getElem?_runOp_self]
      exact h o (by simp) hoj

/-- A row put under a key, if the others put there are the same. -/
theorem getElem?_runOps_puts {α : Type} (m : Std.ExtTreeMap κ ν cmp) {l : List α} {f : α → κ}
    {g : α → ν} {a : α} (ha : a ∈ l) (h : ∀ b ∈ l, f b = f a → g b = g a) :
    (runOps m (l.map fun b => .put (f b) (g b)))[f a]? = some (g a) := by
  refine getElem?_runOps_of_agree m (fun op hop hkey => ?_) ⟨_, List.mem_map_of_mem ha, rfl⟩
  obtain ⟨b, hb, rfl⟩ := List.mem_map.mp hop
  exact congrArg some (h b hb hkey)

/-- A row after a batch is an old one or one that the batch writes. -/
theorem getElem?_runOps_cases {m : Std.ExtTreeMap κ ν cmp} {ops : List (Op κ ν)} {j : κ} {v : ν}
    (h : (runOps m ops)[j]? = some v) :
    m[j]? = some v ∨ ∃ op ∈ ops, op.key = j ∧ op.value = some v := by
  induction ops generalizing m with
  | nil => exact .inl h
  | cons op ops ih =>
    rcases ih (m := runOp m op) h with hold | ⟨o, ho, hkey, hval⟩
    · by_cases hkey : op.key = j
      · subst hkey
        rw [getElem?_runOp_self] at hold
        exact .inr ⟨op, by simp, rfl, hold⟩
      · rw [getElem?_runOp_of_ne m hkey] at hold
        exact .inl hold
    · exact .inr ⟨o, by simp [ho], hkey, hval⟩

/-- A batch on nothing whose writes of a key agree leaves just these. -/
theorem getElem?_runOps_empty_iff {ops : List (Op κ ν)} {j : κ} {v : ν}
    (h : ∀ op ∈ ops, ∀ op' ∈ ops, op.key = op'.key → op.value = op'.value) :
    (runOps (∅ : Std.ExtTreeMap κ ν cmp) ops)[j]? = some v ↔
      ∃ op ∈ ops, op.key = j ∧ op.value = some v := by
  constructor
  · intro hrow
    exact (getElem?_runOps_cases hrow).resolve_left (by simp)
  · rintro ⟨op, hop, rfl, hval⟩
    exact getElem?_runOps_of_agree _ (fun op' hop' hkey => (h op' hop' op hop hkey).trans hval)
      ⟨op, hop, rfl⟩

/-- The writes of one item decide a row the other items do not write. -/
theorem getElem?_runOps_flatMap {α : Type} [DecidableEq α] {f : α → List (Op κ ν)} {a : α} {j : κ}
    {v : ν} (hself : ∀ m : Std.ExtTreeMap κ ν cmp, (runOps m (f a))[j]? = some v) {as : List α}
    (hother : ∀ b ∈ as, b ≠ a → ∀ op ∈ f b, op.key ≠ j) {m : Std.ExtTreeMap κ ν cmp}
    (h : a ∈ as ∨ m[j]? = some v) : (runOps m (as.flatMap f))[j]? = some v := by
  induction as generalizing m with
  | nil => simpa [runOps] using h
  | cons b as ih =>
    rw [List.flatMap_cons, runOps_append]
    refine ih (fun c hc => hother c (List.mem_cons_of_mem _ hc)) ?_
    by_cases hb : b = a
    · subst hb
      exact .inr (hself m)
    · rcases h with hmem | hrow
      · exact .inl ((List.mem_cons.mp hmem).resolve_left (Ne.symm hb))
      · refine .inr ?_
        rw [getElem?_runOps_of_forall_ne m (hother b (List.mem_cons_self ..) hb), hrow]

end

/-! ## Weighted sums over the rows -/

section
variable [Std.TransCmp cmp]

/-- The sum of a weight over all rows. -/
def wsum (w : κ → ν → Int) (m : Std.ExtTreeMap κ ν cmp) : Int :=
  (m.toList.map (fun r => w r.1 r.2)).sum

end

variable [Std.TransCmp cmp] [Std.LawfulEqCmp cmp]

omit [Std.LawfulEqCmp cmp] in
theorem mem_iff_exists {m : Std.ExtTreeMap κ ν cmp} {k : κ} : k ∈ m ↔ ∃ v : ν, m[k]? = some v := by
  rw [Std.ExtTreeMap.mem_iff_isSome_getElem?, Option.isSome_iff_exists]

/-- Puts alone add their keys to the rows. -/
theorem mem_runOps_iff {m : Std.ExtTreeMap κ ν cmp} {ops : List (Op κ ν)} {k : κ}
    (h : ∀ op ∈ ops, op.value ≠ none) :
    k ∈ runOps m ops ↔ k ∈ m ∨ ∃ op ∈ ops, op.key = k := by
  induction ops generalizing m with
  | nil => simp
  | cons op ops ih =>
    have hop : k ∈ runOp m op ↔ k ∈ m ∨ op.key = k := by
      cases op with
      | put j v => simp [runOp, Op.key, or_comm]
      | del j => exact absurd rfl (h _ (List.mem_cons_self ..))
    have hrest := ih (m := runOp m op) fun o ho => h o (List.mem_cons_of_mem _ ho)
    rw [hop] at hrest
    refine hrest.trans ?_
    simp [or_assoc]

/-- A loop over the keys in any order, where a row tells its key, meets every row once. -/
theorem filterMap_keys [DecidableEq κ] {m : Std.ExtTreeMap κ ν cmp} {key : ν → κ} {order : List κ}
    (hkey : ∀ (k : κ) (v : ν), m[k]? = some v → key v = k) (ho : order.Perm m.keys) :
    (order.filterMap fun k => m[k]?).Nodup ∧
      ∀ v : ν, v ∈ (order.filterMap fun k => m[k]?) ↔ ∃ k : κ, m[k]? = some v := by
  constructor
  · refine (ho.nodup_iff.mpr Std.ExtTreeMap.nodup_keys).filterMap fun k k' v hk hk' => ?_
    exact (hkey k v hk).symm.trans (hkey k' v hk')
  · intro v
    rw [List.mem_filterMap]
    constructor
    · rintro ⟨k, -, hk⟩
      exact ⟨k, hk⟩
    · rintro ⟨k, hk⟩
      exact ⟨k, ho.mem_iff.mpr (Std.ExtTreeMap.mem_keys.mpr (mem_iff_exists.mpr ⟨v, hk⟩)), hk⟩

theorem nodup_toList (m : Std.ExtTreeMap κ ν cmp) : m.toList.Nodup := by
  refine m.distinct_keys_toList.imp ?_
  intro a b hab heq
  exact hab (by rw [heq]; exact Std.ReflCmp.compare_self)

/-- A reading of rows depends on the rows it reads. -/
theorem filterMap_toList_congr {β : Type} {m m' : Std.ExtTreeMap κ ν cmp} (p : κ → Bool)
    {f : κ × ν → Option β} (hf : ∀ r, p r.1 = false → f r = none)
    (h : ∀ k, p k = true → m[k]? = m'[k]?) : m.toList.filterMap f = m'.toList.filterMap f := by
  have hfilter : ∀ m : Std.ExtTreeMap κ ν cmp,
      m.toList.filterMap f = (m.filter fun k _ => p k).toList.filterMap f := by
    intro m
    rw [Std.ExtTreeMap.toList_filter, List.filterMap_filter]
    refine List.filterMap_congr fun r _ => ?_
    cases hp : p r.1 with
    | true => rfl
    | false => exact hf r hp
  have hsame : (m.filter fun k _ => p k) = m'.filter fun k _ => p k := by
    apply Std.ExtTreeMap.ext_getElem?
    intro k
    simp only [Std.ExtTreeMap.getElem?_filter']
    cases hp : p k with
    | true => rw [h k hp]
    | false => cases m[k]? <;> cases m'[k]? <;> rfl
  rw [hfilter m, hfilter m', hsame]

/-- The rows of a part of a map stand in the order of the whole. -/
theorem toList_sublist {m m' : Std.ExtTreeMap κ ν cmp}
    (h : ∀ (k : κ) v, m'[k]? = some v → m[k]? = some v) : m'.toList.Sublist m.toList := by
  have hpart : m.filter (fun k _ => m'.contains k) = m' := by
    refine Std.ExtTreeMap.ext_getElem? fun k => ?_
    rw [Std.ExtTreeMap.getElem?_filter', Std.ExtTreeMap.contains_eq_isSome_getElem?]
    cases hk : m'[k]? with
    | none => cases m[k]? <;> rfl
    | some v => rw [h k v hk]; rfl
  rw [← hpart, Std.ExtTreeMap.toList_filter]
  exact List.filter_sublist

/-- The rows of a map with one row taken out and put back in front. -/
theorem toList_perm_of_getElem? [DecidableEq κ] {m : Std.ExtTreeMap κ ν cmp} {k : κ} {v : ν}
    (h : m[k]? = some v) : m.toList.Perm ((k, v) :: (m.erase k).toList) := by
  have hnot : (k, v) ∉ (m.erase k).toList := by
    rw [Std.ExtTreeMap.mem_toList_iff_getElem?_eq_some]
    simp
  refine (List.perm_ext_iff_of_nodup (nodup_toList m)
    (List.nodup_cons.mpr ⟨hnot, nodup_toList _⟩)).mpr ?_
  rintro ⟨j, x⟩
  simp only [List.mem_cons, Std.ExtTreeMap.mem_toList_iff_getElem?_eq_some,
    Std.ExtTreeMap.getElem?_erase, Std.LawfulEqCmp.compare_eq_iff_eq]
  by_cases hkj : k = j
  · subst hkj
    simp [h, eq_comm]
  · simp [hkj, Ne.symm hkj]

theorem erase_eq_self [DecidableEq κ] {m : Std.ExtTreeMap κ ν cmp} {k : κ} (h : m[k]? = none) :
    m.erase k = m := by
  apply Std.ExtTreeMap.ext_getElem?
  intro j
  simp only [Std.ExtTreeMap.getElem?_erase, Std.LawfulEqCmp.compare_eq_iff_eq]
  split
  · rename_i hkj; subst hkj; exact h.symm
  · rfl

theorem erase_insert [DecidableEq κ] (m : Std.ExtTreeMap κ ν cmp) (k : κ) (v : ν) :
    (m.insert k v).erase k = m.erase k := by
  apply Std.ExtTreeMap.ext_getElem?
  intro j
  simp only [Std.ExtTreeMap.getElem?_erase, Std.ExtTreeMap.getElem?_insert]
  split <;> rfl

/-- Dropping a row takes its weight off the sum. -/
theorem wsum_erase [DecidableEq κ] (w : κ → ν → Int) (m : Std.ExtTreeMap κ ν cmp) (k : κ) :
    wsum w (m.erase k) = wsum w m - (m[k]?.elim 0 (w k)) := by
  cases h : m[k]? with
  | none => rw [erase_eq_self h]; simp
  | some v =>
    have hsum := (List.Perm.map (fun r => w r.1 r.2) (toList_perm_of_getElem? h)).sum_eq
    simp only [wsum, hsum, List.map_cons, List.sum_cons, Option.elim_some]
    abel

/-- Writing a row exchanges its old weight for the new one. -/
theorem wsum_insert [DecidableEq κ] (w : κ → ν → Int) (m : Std.ExtTreeMap κ ν cmp)
    (k : κ) (v : ν) :
    wsum w (m.insert k v) = wsum w m - (m[k]?.elim 0 (w k)) + w k v := by
  have hins := wsum_erase w (m.insert k v) k
  rw [erase_insert, wsum_erase] at hins
  simp only [Std.ExtTreeMap.getElem?_insert_self, Option.elim_some] at hins
  omega

/-! ## Counting rows -/

omit [Std.LawfulEqCmp cmp] in
/-- A sum of ones counts. -/
theorem wsum_ite_eq_length (p : κ × ν → Bool) (m : Std.ExtTreeMap κ ν cmp) :
    wsum (fun k v => if p (k, v) then 1 else 0) m = ((m.toList.filter p).length : Int) := by
  unfold wsum
  induction m.toList with
  | nil => rfl
  | cons r l ih =>
    rw [List.map_cons, List.sum_cons, ih, List.filter_cons]
    cases hp : p r with
    | true => simp [hp, Int.add_comm]
    | false => simp [hp]

end WaveSpan.Rows
