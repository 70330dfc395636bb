/-
WaveSpan.Lib.Heap — Go's `container/heap` over an array.

The element that is less than no other stands at the front, and an element is not less than its
parent. The functions are the library's: where several elements are level, where they end up follows
from its swaps. A push lets the new element rise (`up`), a fix lets the changed one sink (`down`) or
rise; both only swap, so the elements stay what they were. A pop takes the element at the front and
lets the last one sink from there.

`lessAt` compares two places and is false where there is no element. An array is `Ordered` if no
element is less than its parent. While an element rises, only it may be less than its parent
(`Rising`); while it sinks, only its children may be less than it (`Sinking`). Where less elements
come first in a total preorder (`Weak`), a push, a pop and a fix of the front leave an ordered
array, and no element is less than the front.
-/
import Mathlib.Data.List.Basic
import Mathlib.Order.Lattice

namespace WaveSpan.GoHeap

section
variable {α : Type} (less : α → α → Bool)

def lessAt (h : Array α) (i j : Nat) : Bool :=
  match h[i]?, h[j]? with
  | some a, some b => less a b
  | _, _ => false

/-- The element at `j` rises until its parent is not greater; it rises at most `j`
times. -/
def up : Nat → Array α → Nat → Array α
  | 0, h, _ => h
  | fuel + 1, h, j =>
    let i := (j - 1) / 2
    if i = j ∨ lessAt less h j i = false then h else up fuel (h.swapIfInBounds i j) i

/-- The element at `i` sinks until no child is less; what is returned is where it
ends. -/
def down : Nat → Array α → Nat → Array α × Nat
  | 0, h, i => (h, i)
  | fuel + 1, h, i =>
    let j1 := 2 * i + 1
    if h.size ≤ j1 then (h, i)
    else
      let j := if j1 + 1 < h.size ∧ lessAt less h (j1 + 1) j1 then j1 + 1 else j1
      if lessAt less h j i then down fuel (h.swapIfInBounds i j) j else (h, i)

def heapPush (h : Array α) (x : α) : Array α := up less (h.size + 1) (h.push x) h.size

def heapPop (h : Array α) : Option (α × Array α) :=
  h[0]?.map fun root => (root, (down less h.size (h.swapIfInBounds 0 (h.size - 1)).pop 0).1)

/-- The elements popped `n` times from a heap, the last one first. -/
def drain : Nat → Array α → List α → List α
  | 0, _, acc => acc
  | n + 1, h, acc =>
    match heapPop less h with
    | some (a, h') => drain n h' (a :: acc)
    | none => acc

def heapFix (h : Array α) (i : Nat) : Array α :=
  let (h', j) := down less h.size h i
  if i < j then h' else up less (i + 1) h' i

variable {less}

/-! ## The elements stay -/

theorem swapIfInBounds_perm (h : Array α) (i j : Nat) :
    (h.swapIfInBounds i j).toList.Perm h.toList := by
  unfold Array.swapIfInBounds
  split
  · split
    · exact Array.perm_iff_toList_perm.mp (Array.swap_perm ..)
    · exact .refl _
  · exact .refl _

/-- The entries after a swap. -/
theorem getElem?_swapIfInBounds {h : Array α} {i j : Nat} (hi : i < h.size) (hj : j < h.size)
    (k : Nat) :
    (h.swapIfInBounds i j)[k]? = if k = i then h[j]? else if k = j then h[i]? else h[k]? := by
  unfold Array.swapIfInBounds
  rw [dif_pos hi, dif_pos hj, Array.getElem?_swap]
  grind

theorem up_perm (fuel : Nat) (h : Array α) (j : Nat) :
    (up less fuel h j).toList.Perm h.toList := by
  induction fuel generalizing h j with
  | zero => exact .refl _
  | succ fuel ih =>
    simp only [up]
    split
    · exact .refl _
    · exact (ih _ _).trans (swapIfInBounds_perm h _ _)

theorem heapPush_perm (h : Array α) (x : α) :
    (heapPush less h x).toList.Perm (h.toList ++ [x]) := by
  rw [← Array.toList_push]
  exact up_perm _ _ _

def child (less : α → α → Bool) (h : Array α) (i : Nat) : Nat :=
  if 2 * i + 1 + 1 < h.size ∧ lessAt less h (2 * i + 1 + 1) (2 * i + 1) then 2 * i + 1 + 1
  else 2 * i + 1

/-- One turn of sinking. -/
theorem down_succ (fuel : Nat) (h : Array α) (i : Nat) :
    down less (fuel + 1) h i =
      if h.size ≤ 2 * i + 1 then (h, i)
      else if lessAt less h (child less h i) i then
        down less fuel (h.swapIfInBounds i (child less h i)) (child less h i)
      else (h, i) := rfl

theorem down_perm (less : α → α → Bool) (fuel : Nat) (h : Array α) (i : Nat) :
    (down less fuel h i).1.toList.Perm h.toList := by
  induction fuel generalizing h i with
  | zero => exact .refl _
  | succ fuel ih =>
    rw [down_succ]
    split
    · exact .refl _
    · split
      · exact (ih _ _).trans (swapIfInBounds_perm h _ _)
      · exact .refl _

theorem heapFix_perm (h : Array α) (i : Nat) : (heapFix less h i).toList.Perm h.toList := by
  have hdown := down_perm less h.size h i
  simp only [heapFix]
  split
  · exact hdown
  · exact (up_perm _ _ _).trans hdown

/-! ## The order -/

/-- What is not less is a total preorder. -/
structure Weak (less : α → α → Bool) : Prop where
  asymm : ∀ {a b}, less a b = true → less b a = false
  trans : ∀ {a b c}, less b a = false → less c b = false → less c a = false

/-- The greatest key first. -/
theorem weak_of_key {κ : Type} [LinearOrder κ] (key : α → κ) : Weak fun a b =>
    decide (key b < key a) where
  asymm h := decide_eq_false (not_lt.mpr (le_of_lt (of_decide_eq_true h)))
  trans hba hcb := by
    rw [decide_eq_false_iff_not, not_lt] at *
    exact le_trans hcb hba

def Ordered (less : α → α → Bool) (h : Array α) : Prop :=
  ∀ c, 0 < c → lessAt less h c ((c - 1) / 2) = false

/-- The element at `j` may be less than its parent, whose other descendants are not. -/
structure Rising (less : α → α → Bool) (h : Array α) (j : Nat) : Prop where
  rest : ∀ c, 0 < c → c ≠ j → lessAt less h c ((c - 1) / 2) = false
  grand : 0 < j → ∀ c, 0 < c → (c - 1) / 2 = j → lessAt less h c ((j - 1) / 2) = false

/-- The children of the element at `i` may be less than it, but not than its parent. -/
structure Sinking (less : α → α → Bool) (h : Array α) (i : Nat) : Prop where
  rest : ∀ c, 0 < c → (c - 1) / 2 ≠ i → lessAt less h c ((c - 1) / 2) = false
  grand : 0 < i → ∀ c, 0 < c → (c - 1) / 2 = i → lessAt less h c ((i - 1) / 2) = false

section
variable {h : Array α} {i j x y b : Nat}

theorem lessAt_out (hx : h.size ≤ x) : lessAt less h x y = false := by
  simp [lessAt, Array.getElem?_eq_none hx]

theorem Weak.lessAt_asymm (hw : Weak less) (hxy : lessAt less h x y = true) :
    lessAt less h y x = false := by
  unfold lessAt at *
  cases hx : h[x]? with
  | none => simp
  | some a =>
    cases hy : h[y]? with
    | none => simp
    | some c =>
      rw [hx, hy] at hxy
      exact hw.asymm hxy

theorem Weak.lessAt_trans (hw : Weak less) (hb : b < h.size) (hbx : lessAt less h b x = false)
    (hyb : lessAt less h y b = false) : lessAt less h y x = false := by
  unfold lessAt at *
  rw [Array.getElem?_eq_getElem hb] at hbx hyb
  cases hx : h[x]? with
  | none => simp
  | some a =>
    cases hy : h[y]? with
    | none => simp
    | some c =>
      rw [hx] at hbx
      rw [hy] at hyb
      exact hw.trans hbx hyb

theorem Weak.lessAt_self (hw : Weak less) : lessAt less h x x = false := by
  cases hself : lessAt less h x x with
  | false => rfl
  | true => rw [hw.lessAt_asymm hself] at hself; cases hself

def swapped (i j x : Nat) : Nat := if x = i then j else if x = j then i else x

/-- Comparisons after a swap. -/
theorem lessAt_swap (hi : i < h.size) (hj : j < h.size) :
    lessAt less (h.swapIfInBounds i j) x y = lessAt less h (swapped i j x) (swapped i j y) := by
  have hget : ∀ k, (h.swapIfInBounds i j)[k]? = h[swapped i j k]? := by
    intro k
    rw [getElem?_swapIfInBounds hi hj, swapped]
    split
    · rfl
    · split <;> rfl
  simp only [lessAt, hget]

theorem size_swapIfInBounds : (h.swapIfInBounds i j).size = h.size := by
  simp

/-- One step up. -/
theorem Rising.swap (hw : Weak less) (hr : Rising less h j) (hj : j < h.size) (h0 : 0 < j)
    (hless : lessAt less h j ((j - 1) / 2) = true) :
    Rising less (h.swapIfInBounds ((j - 1) / 2) j) ((j - 1) / 2) := by
  have hi : (j - 1) / 2 < h.size := by omega
  have hback := hw.lessAt_asymm hless
  constructor
  · intro c hc hne
    rw [lessAt_swap hi hj]
    by_cases hcj : c = j
    · -- the old parent under the element that rose
      simpa [swapped, hcj, show j ≠ (j - 1) / 2 by omega] using hback
    · have hcself : swapped ((j - 1) / 2) j c = c := by simp [swapped, hne, hcj]
      rw [hcself]
      by_cases hpi : (c - 1) / 2 = (j - 1) / 2
      · have hci := hr.rest c hc hcj
        rw [hpi] at hci ⊢
        simp only [swapped, if_true]
        exact hw.lessAt_trans hi hback hci
      · by_cases hpj : (c - 1) / 2 = j
        · have hto : swapped ((j - 1) / 2) j ((c - 1) / 2) = (j - 1) / 2 := by
            simp [swapped, hpj, show j ≠ (j - 1) / 2 by omega]
          rw [hto]
          exact hr.grand h0 c hc hpj
        · have hpself : swapped ((j - 1) / 2) j ((c - 1) / 2) = (c - 1) / 2 := by
            simp [swapped, hpi, hpj]
          rw [hpself]
          exact hr.rest c hc hcj
  · intro hi0 c hc hpc
    have hpi := hr.rest ((j - 1) / 2) hi0 (by omega)
    have hpself : swapped ((j - 1) / 2) j (((j - 1) / 2 - 1) / 2) = ((j - 1) / 2 - 1) / 2 := by
      rw [swapped, if_neg (by omega), if_neg (by omega)]
    rw [lessAt_swap hi hj, hpself]
    by_cases hcj : c = j
    · simpa [swapped, hcj, show j ≠ (j - 1) / 2 by omega] using hpi
    · have hcself : swapped ((j - 1) / 2) j c = c := by
        rw [swapped, if_neg (by omega), if_neg hcj]
      have hci := hr.rest c hc hcj
      rw [hpc] at hci
      rw [hcself]
      exact hw.lessAt_trans hi hpi hci

/-- An element that rises restores the order. -/
theorem Rising.up (hw : Weak less) {fuel : Nat} (hr : Rising less h j) (hj : j < h.size)
    (hfuel : j < fuel) : Ordered less (up less fuel h j) := by
  induction fuel generalizing h j with
  | zero => omega
  | succ fuel ih =>
    simp only [GoHeap.up]
    split
    · rename_i hstop
      intro c hc
      by_cases hcj : c = j
      · subst hcj
        rcases hstop with hstop | hstop
        · omega
        · exact hstop
      · exact hr.rest c hc hcj
    · rename_i hgo
      rw [not_or, Bool.not_eq_false] at hgo
      exact ih (hr.swap hw hj (by omega) hgo.2) (by rw [size_swapIfInBounds]; omega) (by omega)

theorem child_cases (less : α → α → Bool) (h : Array α) (i : Nat) :
    child less h i = 2 * i + 1 ∨ child less h i = 2 * i + 2 := by
  unfold child
  split
  · exact .inr rfl
  · exact .inl rfl

theorem child_lt (hi : 2 * i + 1 < h.size) : child less h i < h.size := by
  unfold child
  split
  · rename_i hc
    exact hc.1
  · exact hi

/-- No child is less than the one taken. -/
theorem Weak.child_least (hw : Weak less) {c : Nat} (hc : 0 < c) (hp : (c - 1) / 2 = i) :
    lessAt less h c (child less h i) = false := by
  have hcases : c = 2 * i + 1 ∨ c = 2 * i + 2 := by omega
  unfold child
  split
  · rename_i hright
    rcases hcases with rfl | rfl
    · exact hw.lessAt_asymm hright.2
    · exact hw.lessAt_self
  · rename_i hleft
    rcases hcases with rfl | rfl
    · exact hw.lessAt_self
    · by_cases hin : 2 * i + 2 < h.size
      · simpa using fun hl => hleft ⟨hin, hl⟩
      · exact lessAt_out (by omega)

/-- One step down. -/
theorem Sinking.swap (hw : Weak less) (hs : Sinking less h i) (hi : 2 * i + 1 < h.size)
    (hless : lessAt less h (child less h i) i = true) :
    Sinking less (h.swapIfInBounds i (child less h i)) (child less h i) := by
  have hjs : child less h i < h.size := child_lt hi
  have hjp : (child less h i - 1) / 2 = i := by rcases child_cases less h i with h | h <;> omega
  have hj0 : i < child less h i := by rcases child_cases less h i with h | h <;> omega
  have his : i < h.size := by omega
  have hleast : ∀ c, 0 < c → (c - 1) / 2 = i → lessAt less h c (child less h i) = false :=
    fun c => hw.child_least
  have hback := hw.lessAt_asymm hless
  generalize child less h i = j at *
  constructor
  · intro c hc hpj
    rw [lessAt_swap his hjs]
    by_cases hcj : c = j
    · subst hcj
      rw [hjp]
      simpa [swapped, show c ≠ i by omega] using hback
    · by_cases hci : c = i
      · subst hci
        have hpself : swapped c j ((c - 1) / 2) = (c - 1) / 2 := by
          rw [swapped, if_neg (by omega), if_neg (by omega)]
        rw [hpself]
        simpa [swapped] using hs.grand hc j (by omega) hjp
      · have hcself : swapped i j c = c := by simp [swapped, hci, hcj]
        rw [hcself]
        by_cases hpi : (c - 1) / 2 = i
        · simpa [swapped, hpi] using hleast c hc hpi
        · have hpself : swapped i j ((c - 1) / 2) = (c - 1) / 2 := by simp [swapped, hpi, hpj]
          rw [hpself]
          exact hs.rest c hc hpi
  · intro _ c hc hpc
    have hcself : swapped i j c = c := by rw [swapped, if_neg (by omega), if_neg (by omega)]
    rw [lessAt_swap his hjs, hjp, hcself]
    have hcj := hs.rest c hc (by omega)
    rw [hpc] at hcj
    simpa [swapped] using hcj

theorem Sinking.down (hw : Weak less) {fuel : Nat} (hs : Sinking less h i)
    (hfuel : h.size ≤ fuel + i) : Ordered less (down less fuel h i).1 := by
  -- without children there is nothing to sink below
  have hleaf : ∀ {h : Array α} {i : Nat}, Sinking less h i → h.size ≤ 2 * i + 1 →
      Ordered less h := by
    intro h i hs hsize c hc
    by_cases hp : (c - 1) / 2 = i
    · exact lessAt_out (by omega)
    · exact hs.rest c hc hp
  induction fuel generalizing h i with
  | zero =>
    show Ordered less h
    exact hleaf hs (by omega)
  | succ fuel ih =>
    rw [down_succ]
    split
    · rename_i hsize
      show Ordered less h
      exact hleaf hs hsize
    · rename_i hsize
      split
      · rename_i hless
        refine ih (hs.swap hw (by omega) hless) ?_
        have : i < child less h i := by rcases child_cases less h i with h | h <;> omega
        rw [size_swapIfInBounds]
        omega
      · rename_i hstop
        show Ordered less h
        intro c hc
        by_cases hp : (c - 1) / 2 = i
        · rw [hp]
          exact hw.lessAt_trans (child_lt (by omega)) (by simpa using hstop) (hw.child_least hc hp)
        · exact hs.rest c hc hp

/-- No element is less than the front. -/
theorem Ordered.front (hw : Weak less) (ho : Ordered less h) (c : Nat) :
    lessAt less h c 0 = false := by
  induction c using Nat.strongRecOn with
  | ind c ih =>
    by_cases hc : 0 < c
    · by_cases hin : c < h.size
      · exact hw.lessAt_trans (show (c - 1) / 2 < h.size by omega) (ih _ (by omega)) (ho c hc)
      · exact lessAt_out (by omega)
    · obtain rfl : c = 0 := by omega
      exact hw.lessAt_self

/-- Nothing is less than the root. -/
theorem Ordered.not_less (hw : Weak less) (ho : Ordered less h) {root a : α}
    (hroot : h[0]? = some root) (ha : a ∈ h.toList) : less a root = false := by
  obtain ⟨c, hc, hget⟩ := List.getElem_of_mem ha
  have hfront := ho.front hw c
  rw [Array.getElem_toList] at hget
  have hsome : h[c]? = some a := by rw [← hget]; exact Array.getElem?_eq_getElem (by simpa using hc)
  simpa [lessAt, hroot, hsome] using hfront

/-! ## The operations keep the order -/

/-- A comparison depends on the two elements only. -/
theorem lessAt_congr {h' : Array α} (hx : h'[x]? = h[x]?) (hy : h'[y]? = h[y]?) :
    lessAt less h' x y = lessAt less h x y := by
  simp only [lessAt, hx, hy]

/-- A push keeps the order. -/
theorem Ordered.push (hw : Weak less) (ho : Ordered less h) (a : α) :
    Ordered less (heapPush less h a) := by
  refine Rising.up hw ⟨fun c hc hne => ?_, fun _ c hc hp => ?_⟩ (by simp) (Nat.lt_succ_self _)
  · by_cases hin : c < h.size
    · rw [lessAt_congr (h := h)]
      · exact ho c hc
      · rw [Array.getElem?_push, if_neg hne]
      · rw [Array.getElem?_push, if_neg (by omega)]
    · exact lessAt_out (by simp; omega)
  · exact lessAt_out (by simp; omega)

/-- A new front. -/
theorem Ordered.fix (hw : Weak less) (ho : Ordered less h) (a : α) :
    Ordered less (heapFix less (h.setIfInBounds 0 a) 0) := by
  have hs : Sinking less (h.setIfInBounds 0 a) 0 := by
    refine ⟨fun c hc hp => ?_, fun h0 => absurd h0 (Nat.lt_irrefl 0)⟩
    rw [lessAt_congr (h := h)]
    · exact ho c hc
    · rw [Array.getElem?_setIfInBounds_ne (by omega)]
    · rw [Array.getElem?_setIfInBounds_ne (by omega)]
  have hdown := hs.down hw (Nat.le_add_right (h.setIfInBounds 0 a).size 0)
  have hup : ∀ h : Array α, up less 1 h 0 = h := fun h => by simp [GoHeap.up]
  simp only [heapFix, hup]
  split <;> exact hdown

/-- Taking the root out leaves the others. -/
theorem pop_swap_perm {root : α} (hroot : h[0]? = some root) :
    h.toList.Perm (root :: (h.swapIfInBounds 0 (h.size - 1)).pop.toList) := by
  have hpos : 0 < h.size := by
    by_contra hne
    rw [Array.getElem?_eq_none (by omega)] at hroot
    cases hroot
  have hsize : (h.swapIfInBounds 0 (h.size - 1)).size = h.size := size_swapIfInBounds
  have hlast : (h.swapIfInBounds 0 (h.size - 1))[h.size - 1]? = some root := by
    rw [getElem?_swapIfInBounds hpos (by omega), ← hroot]
    grind
  have hsplit : (h.swapIfInBounds 0 (h.size - 1)).pop.push root = h.swapIfInBounds 0
      (h.size - 1) := by
    refine Array.ext_getElem? fun k => ?_
    rw [Array.getElem?_push, Array.size_pop, hsize]
    split
    · rename_i hk
      rw [hk, hlast]
    · rw [Array.getElem?_pop, hsize]
      split
      · rfl
      · exact (Array.getElem?_eq_none (by omega)).symm
  have hperm := swapIfInBounds_perm h 0 (h.size - 1)
  rw [← hsplit, Array.toList_push] at hperm
  exact hperm.symm.trans (List.perm_append_comm)

theorem heapPop_perm {root : α} {h' : Array α} (hpop : heapPop less h = some (root, h')) :
    h[0]? = some root ∧ h.toList.Perm (root :: h'.toList) := by
  obtain ⟨r, hroot, heq⟩ := Option.map_eq_some_iff.mp hpop
  obtain ⟨rfl, rfl⟩ := Prod.mk.inj heq
  exact ⟨hroot, (pop_swap_perm hroot).trans ((down_perm _ _ _ _).symm.cons _)⟩

/-- A pop takes a least element and keeps the order. -/
theorem heapPop_eq_some (hw : Weak less) (ho : Ordered less h) {root : α} {h' : Array α}
    (hpop : heapPop less h = some (root, h')) :
    Ordered less h' ∧ h.toList.Perm (root :: h'.toList) ∧ ∀ a ∈ h.toList, less a root = false := by
  obtain ⟨hroot, hperm⟩ := heapPop_perm hpop
  refine ⟨?_, hperm, fun a ha => ho.not_less hw hroot ha⟩
  obtain ⟨r, -, heq⟩ := Option.map_eq_some_iff.mp hpop
  obtain ⟨rfl, rfl⟩ := Prod.mk.inj heq
  have hs : Sinking less (h.swapIfInBounds 0 (h.size - 1)).pop 0 := by
    refine ⟨fun c hc hp => ?_, fun h0 => absurd h0 (Nat.lt_irrefl 0)⟩
    by_cases hin : c < h.size - 1
    · -- neither the element nor its parent has moved
      have hget : ∀ k, 0 < k → k < h.size - 1 →
          (h.swapIfInBounds 0 (h.size - 1)).pop[k]? = h[k]? := by
        intro k hk0 hk
        rw [Array.getElem?_pop, size_swapIfInBounds, if_pos hk,
          getElem?_swapIfInBounds (by omega) (by omega), if_neg (by omega), if_neg (by omega)]
      rw [lessAt_congr (hget c hc hin) (hget _ (by omega) (by omega))]
      exact ho c hc
    · exact lessAt_out (by simp; omega)
  exact hs.down hw (by simp)

/-- Elements popped last stand first: the front of what is left is not less than what was popped
before. -/
theorem drain_spec (hw : Weak less) (ho : Ordered less h) {acc : List α}
    (hacc : acc.Pairwise fun a b => less a b = false)
    (hcross : ∀ a ∈ h.toList, ∀ b ∈ acc, less a b = false) :
    (drain less h.size h acc).Pairwise (fun a b => less a b = false) ∧
      (drain less h.size h acc).Perm (h.toList ++ acc) := by
  generalize hn : h.size = n
  induction n generalizing h acc with
  | zero =>
    obtain rfl := Array.size_eq_zero_iff.mp hn
    exact ⟨hacc, .refl _⟩
  | succ n ih =>
    rw [drain]
    split
    · rename_i root h' hpop
      obtain ⟨ho', hperm, hfront⟩ := heapPop_eq_some hw ho hpop
      have hsize : h'.size = n := by
        have := hperm.length_eq
        simp only [Array.length_toList, List.length_cons] at this
        omega
      have hin : ∀ a ∈ h'.toList, a ∈ h.toList := fun a ha =>
        hperm.mem_iff.mpr (List.mem_cons_of_mem _ ha)
      have hrest := ih ho' (List.pairwise_cons.mpr
        ⟨fun b hb => hcross root (hperm.mem_iff.mpr List.mem_cons_self) b hb, hacc⟩)
        (fun a ha b hb => ?_) hsize
      · refine ⟨hrest.1, hrest.2.trans (List.perm_middle.trans ?_)⟩
        exact hperm.symm.append_right acc
      · rcases List.mem_cons.mp hb with rfl | hb
        · exact hfront a (hin a ha)
        · exact hcross a (hin a ha) b hb
    · rename_i hpop
      have hsize : h.size = 0 := by simpa [heapPop] using hpop
      omega

end

end

end WaveSpan.GoHeap
