/-
WaveSpan.Lib.Escrow — a fixed quantity split between a free bucket, outstanding
claims and a spent bucket.

An `Account` holds the three buckets, the spend that claimants have reported, and
the outstanding claims by key, each with its amount and how much of it is spent.
Four moves change it: a claim is allotted, some of it is booked as spent, and a
claim is closed, its rest either credited back to the free bucket or debited as
spent. All numbers are integers, so a program whose machine arithmetic makes
exactly these moves does not overflow.

`Sound` is what every sequence of moves keeps: nothing is lost or made, and the
bucket of outstanding quantity is the sum of the claims' rests. `Covered` is the
weaker statement that is left once the spent bucket may be set from outside: the
free bucket never exceeds what the cap leaves.
-/
import WaveSpan.Lib.Rows
import Mathlib.Logic.Relation
import Mathlib.Algebra.Order.BigOperators.Group.List

namespace WaveSpan.Escrow

open WaveSpan.Rows

structure Claim where
  amount : Int
  spent : Int
  deriving DecidableEq, Repr

def Claim.rest (c : Claim) : Int := c.amount - c.spent

structure Account (κ : Type) (cmp : κ → κ → Ordering) where
  cap : Int
  free : Int
  out : Int
  spent : Int
  reported : Int
  claims : Std.ExtTreeMap κ Claim cmp

variable {κ : Type} {cmp : κ → κ → Ordering} [Std.TransCmp cmp]

namespace Account

/-- Allot a new claim out of the free bucket. -/
def allot (a : Account κ cmp) (id : κ) (g : Int) : Account κ cmp :=
  { a with free := a.free - g, out := a.out + g, claims := a.claims.insert id ⟨g, 0⟩ }

def book (a : Account κ cmp) (id : κ) (c : Claim) (v : Int) : Account κ cmp :=
  { a with
    out := a.out - (v - c.spent)
    spent := a.spent + (v - c.spent)
    reported := a.reported + (v - c.spent)
    claims := a.claims.insert id { c with spent := v } }

/-- Close a claim, its rest going back to the free bucket. -/
def credit (a : Account κ cmp) (id : κ) (c : Claim) : Account κ cmp :=
  { a with free := a.free + c.rest, out := a.out - c.rest, claims := a.claims.erase id }

def debit (a : Account κ cmp) (id : κ) (c : Claim) : Account κ cmp :=
  { a with spent := a.spent + c.rest, out := a.out - c.rest, claims := a.claims.erase id }

def opened (cap : Int) : Account κ cmp :=
  { cap, free := cap, out := 0, spent := 0, reported := 0, claims := ∅ }

/-- Set the spent bucket from outside; what the cap then leaves is free. -/
def reset (a : Account κ cmp) (target : Int) : Account κ cmp :=
  { a with spent := target, free := max 0 (a.cap - target - a.out) }

end Account

inductive Move : Account κ cmp → Account κ cmp → Prop where
  | allot {a : Account κ cmp} {id : κ} {g : Int}
      (hid : a.claims[id]? = none) (hpos : 0 < g) (hle : g ≤ a.free) : Move a (a.allot id g)
  | book {a : Account κ cmp} {id : κ} {c : Claim} {v : Int}
      (hc : a.claims[id]? = some c) (hlt : c.spent ≤ v) (hle : v ≤ c.amount) :
      Move a (a.book id c v)
  | credit {a : Account κ cmp} {id : κ} {c : Claim} (hc : a.claims[id]? = some c) :
      Move a (a.credit id c)
  | debit {a : Account κ cmp} {id : κ} {c : Claim} (hc : a.claims[id]? = some c) :
      Move a (a.debit id c)

def restSum (m : Std.ExtTreeMap κ Claim cmp) : Int := wsum (fun _ c => c.rest) m

/-- What does not depend on the free bucket: the claims are well formed, the
outstanding bucket is the sum of their rests, and reported spend is spend. -/
structure Claims (a : Account κ cmp) : Prop where
  out : a.out = restSum a.claims
  claim : ∀ (id : κ) (c : Claim), a.claims[id]? = some c → 0 ≤ c.spent ∧ c.spent ≤ c.amount
  reported : 0 ≤ a.reported ∧ a.reported ≤ a.spent

/-- Nothing is lost or made. -/
structure Sound (a : Account κ cmp) : Prop extends Claims a where
  total : a.cap = a.free + a.out + a.spent
  free : 0 ≤ a.free

/-- The buckets together stay below a bound. -/
structure Below (m : Int) (a : Account κ cmp) : Prop extends Claims a where
  free : 0 ≤ a.free
  total : a.free + a.out + a.spent ≤ m

/-- The free bucket is what the cap leaves, and empty when the cap is passed. -/
structure Covered (a : Account κ cmp) : Prop extends Claims a where
  free : a.free = max 0 (a.cap - a.spent - a.out)

section
variable {a : Account κ cmp} {id : κ} {c : Claim}

theorem Claims.rest_nonneg (h : Claims a) (hc : a.claims[id]? = some c) : 0 ≤ c.rest := by
  have := (h.claim id c hc).2
  unfold Claim.rest
  omega

/-- A reset to no less than was reported. -/
theorem Covered.reset {target : Int} (h : Covered a) (ht : a.reported ≤ target) :
    Covered (a.reset target) :=
  ⟨⟨h.out, h.claim, h.reported.1, ht⟩, rfl⟩

theorem Sound.below (h : Sound a) : Below a.cap a := by
  refine ⟨h.toClaims, h.free, ?_⟩
  have := h.total
  omega

theorem Below.mono {m n : Int} (h : Below m a) (hmn : m ≤ n) : Below n a :=
  ⟨h.toClaims, h.free, h.total.trans hmn⟩

/-- Setting the spent bucket keeps the buckets below a bound that the cap is below. -/
theorem Below.reset {m target : Int} (h : Below m a) (ht : a.reported ≤ target)
    (hcap : a.cap ≤ m) (hm : a.out + target ≤ m) : Below m (a.reset target) := by
  refine ⟨⟨h.out, h.claim, h.reported.1, ht⟩, le_max_left _ _, ?_⟩
  show max 0 (a.cap - target - a.out) + a.out + target ≤ m
  omega

theorem Sound.covered (h : Sound a) : Covered a := by
  refine ⟨h.toClaims, ?_⟩
  have := h.total
  have := h.free
  omega

end

/-- A sum of weights that are not negative is not. -/
theorem wsum_nonneg [Std.LawfulEqCmp cmp] {ν : Type} {w : κ → ν → Int}
    {m : Std.ExtTreeMap κ ν cmp}
    (h : ∀ (k : κ) (v : ν), m[k]? = some v → 0 ≤ w k v) : 0 ≤ wsum w m := by
  refine List.sum_nonneg ?_
  intro x hx
  obtain ⟨⟨k, v⟩, hmem, rfl⟩ := List.mem_map.mp hx
  exact h k v (Std.ExtTreeMap.mem_toList_iff_getElem?_eq_some.mp hmem)

section
variable [Std.LawfulEqCmp cmp] [DecidableEq κ] {a : Account κ cmp} {id : κ} {c : Claim} {g v : Int}

omit [DecidableEq κ] in
theorem Claims.out_nonneg (h : Claims a) : 0 ≤ a.out := by
  rw [h.out]
  exact wsum_nonneg fun k v hv => h.rest_nonneg hv

/-- One claim's rest is part of the outstanding bucket. -/
theorem Claims.rest_le_out (h : Claims a) (hc : a.claims[id]? = some c) : c.rest ≤ a.out := by
  have herase : restSum (a.claims.erase id) = restSum a.claims - c.rest := by
    rw [restSum, restSum, wsum_erase, hc]
    rfl
  have hnonneg : 0 ≤ restSum (a.claims.erase id) := by
    refine wsum_nonneg fun k v hv => ?_
    rw [Std.ExtTreeMap.getElem?_erase] at hv
    split at hv
    · cases hv
    · exact h.rest_nonneg hv
  have := h.out
  omega

/-! ## The claims under the moves -/

theorem Claims.allot (h : Claims a) (hid : a.claims[id]? = none) (hpos : 0 < g) :
    Claims (a.allot id g) := by
  constructor
  · show a.out + g = restSum (a.claims.insert id ⟨g, 0⟩)
    rw [restSum, wsum_insert, hid, h.out, restSum]
    simp [Claim.rest]
  · intro id' c' hc'
    simp only [Account.allot, Std.ExtTreeMap.getElem?_insert] at hc'
    split at hc'
    · cases hc'
      exact ⟨le_refl 0, hpos.le⟩
    · exact h.claim id' c' hc'
  · exact h.reported

/-- Booking within a claim. -/
theorem Claims.book (h : Claims a) (hc : a.claims[id]? = some c) (hlt : c.spent ≤ v)
    (hle : v ≤ c.amount) : Claims (a.book id c v) := by
  have hclaim := h.claim id c hc
  constructor
  · show a.out - (v - c.spent) = restSum (a.claims.insert id { c with spent := v })
    rw [restSum, wsum_insert, hc, h.out, restSum]
    simp only [Claim.rest, Option.elim_some]
    omega
  · intro id' c' hc'
    simp only [Account.book, Std.ExtTreeMap.getElem?_insert] at hc'
    split at hc'
    · cases hc'
      exact ⟨hclaim.1.trans hlt, hle⟩
    · exact h.claim id' c' hc'
  · have := h.reported
    show 0 ≤ a.reported + (v - c.spent) ∧ a.reported + (v - c.spent) ≤ a.spent + (v - c.spent)
    omega

/-- Closing a claim takes its rest off the outstanding bucket. -/
theorem Claims.close {free spent : Int} (h : Claims a) (hc : a.claims[id]? = some c)
    (hs : a.spent ≤ spent) :
    Claims { a with free, spent, out := a.out - c.rest, claims := a.claims.erase id } := by
  constructor
  · show a.out - c.rest = restSum (a.claims.erase id)
    rw [restSum, wsum_erase, hc, h.out, restSum]
    rfl
  · intro id' c' hc'
    simp only [Std.ExtTreeMap.getElem?_erase] at hc'
    split at hc'
    · cases hc'
    · exact h.claim id' c' hc'
  · exact ⟨h.reported.1, h.reported.2.trans hs⟩

/-! ## Sound accounts -/

omit [Std.LawfulEqCmp cmp] [DecidableEq κ] in
theorem sound_opened {cap : Int} (h : 0 ≤ cap) : Sound (Account.opened cap : Account κ cmp) :=
  ⟨⟨rfl, by simp [Account.opened], le_refl 0, le_refl 0⟩, by simp [Account.opened], h⟩

/-- A move keeps an account sound. -/
theorem Move.sound {b : Account κ cmp} (h : Sound a) (hm : Move a b) : Sound b := by
  have htotal := h.total
  have hfree := h.free
  cases hm with
  | allot hid hpos hle =>
    refine ⟨h.toClaims.allot hid hpos, ?_, ?_⟩
    · show a.cap = a.free - _ + (a.out + _) + a.spent
      omega
    · show 0 ≤ a.free - _
      omega
  | book hc hlt hle =>
    refine ⟨h.toClaims.book hc hlt hle, ?_, hfree⟩
    show a.cap = a.free + (a.out - _) + (a.spent + _)
    omega
  | credit hc =>
    have hrest := h.rest_nonneg hc
    refine ⟨h.toClaims.close hc (le_refl _), ?_, ?_⟩
    · show a.cap = a.free + _ + (a.out - _) + a.spent
      omega
    · show 0 ≤ a.free + _
      omega
  | debit hc =>
    have hrest := h.rest_nonneg hc
    refine ⟨h.toClaims.close hc (by omega), ?_, hfree⟩
    show a.cap = a.free + (a.out - _) + (a.spent + _)
    omega

/-- A move keeps the buckets below their bound, the cap, and what is attested and out below
what it was. -/
theorem Move.below {m : Int} {b : Account κ cmp} (h : Below m a) (hm : Move a b) :
    Below m b ∧ b.cap = a.cap ∧ b.free + b.out + b.reported ≤ a.free + a.out + a.reported := by
  have htotal := h.total
  have hfree := h.free
  cases hm with
  | allot hid hpos hle =>
    refine ⟨⟨h.toClaims.allot hid hpos, ?_, ?_⟩, rfl, ?_⟩ <;> dsimp only [Account.allot] <;> omega
  | book hc hlt hle =>
    refine ⟨⟨h.toClaims.book hc hlt hle, hfree, ?_⟩, rfl, ?_⟩ <;>
      dsimp only [Account.book] <;> omega
  | credit hc =>
    have hrest := h.rest_nonneg hc
    refine ⟨⟨h.toClaims.close hc (le_refl _), ?_, ?_⟩, rfl, ?_⟩ <;>
      dsimp only [Account.credit] <;> omega
  | debit hc =>
    have hrest := h.rest_nonneg hc
    refine ⟨⟨h.toClaims.close hc (by omega), hfree, ?_⟩, rfl, ?_⟩ <;>
      dsimp only [Account.debit] <;> omega

/-- Moves never add to an account. -/
theorem Move.below_of_moves {m : Int} {b : Account κ cmp} (h : Below m a)
    (hm : Relation.ReflTransGen Move a b) :
    Below m b ∧ b.cap = a.cap ∧ b.free + b.out + b.reported ≤ a.free + a.out + a.reported := by
  induction hm with
  | refl => exact ⟨h, rfl, le_refl _⟩
  | tail _ hm ih =>
    obtain ⟨hb, hcap, hle⟩ := ih
    obtain ⟨hb', hcap', hle'⟩ := hm.below hb
    exact ⟨hb', hcap'.trans hcap, hle'.trans hle⟩

/-- Moves keep an account sound. -/
theorem Move.sound_of_moves {b : Account κ cmp} (h : Sound a)
    (hm : Relation.ReflTransGen Move a b) : Sound b := by
  induction hm with
  | refl => exact h
  | tail _ hm ih => exact hm.sound ih

omit [DecidableEq κ] in
/-- Every bucket of a sound account lies between zero and the cap. -/
theorem Sound.bounds (h : Sound a) :
    0 ≤ a.free ∧ 0 ≤ a.out ∧ 0 ≤ a.reported ∧ a.reported ≤ a.spent ∧ a.spent ≤ a.cap ∧
      a.free ≤ a.cap ∧ a.out ≤ a.cap := by
  have := h.total
  have := h.free
  have := h.out_nonneg
  have := h.reported
  omega

/-! ## Covered accounts -/

theorem Covered.allot (h : Covered a) (hid : a.claims[id]? = none) (hpos : 0 < g)
    (hle : g ≤ a.free) : Covered (a.allot id g) := by
  refine ⟨h.toClaims.allot hid hpos, ?_⟩
  have := h.free
  show a.free - g = max 0 (a.cap - a.spent - (a.out + g))
  omega

theorem Covered.book (h : Covered a) (hc : a.claims[id]? = some c) (hlt : c.spent ≤ v)
    (hle : v ≤ c.amount) : Covered (a.book id c v) := by
  refine ⟨h.toClaims.book hc hlt hle, ?_⟩
  have := h.free
  show a.free = max 0 (a.cap - (a.spent + (v - c.spent)) - (a.out - (v - c.spent)))
  omega

/-- A credit keeps the account covered unless the cap is passed and the claim has
something left. -/
theorem Covered.credit (h : Covered a) (hc : a.claims[id]? = some c)
    (hok : a.spent + a.out ≤ a.cap ∨ c.rest = 0) : Covered (a.credit id c) := by
  refine ⟨h.toClaims.close hc (le_refl _), ?_⟩
  have := h.free
  have := h.rest_nonneg hc
  show a.free + c.rest = max 0 (a.cap - a.spent - (a.out - c.rest))
  omega

theorem Covered.debit (h : Covered a) (hc : a.claims[id]? = some c) : Covered (a.debit id c) := by
  have hrest := h.rest_nonneg hc
  refine ⟨h.toClaims.close hc (by omega), ?_⟩
  have := h.free
  show a.free = max 0 (a.cap - (a.spent + c.rest) - (a.out - c.rest))
  omega

end

end WaveSpan.Escrow
