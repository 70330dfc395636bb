/-
WaveSpan.Lib.Lww — last write wins, in general.

Writes carry a stamp from a linear order. `Winner stamp S w` says that `w` is a
write of `S` no other write of `S` is stamped after. Where stamps tell writes
apart a set has at most one winner, so a register that always holds the winner of
what it has seen depends on the set of writes alone, not on their order or on
repetitions. `Winner.insert` is the rule for one more write.
-/
import Mathlib.Order.Filter.Extr
import Mathlib.Data.Set.Finite.Lemmas

namespace WaveSpan.Lww

variable {α β : Type} [LinearOrder β] {stamp : α → β} {S : Set α} {v w x : α}

/-- A write of `S` that no other is stamped after. -/
def Winner (stamp : α → β) (S : Set α) (w : α) : Prop := w ∈ S ∧ IsMaxOn stamp S w

theorem Winner.mem (h : Winner stamp S w) : w ∈ S := h.1

theorem Winner.le (h : Winner stamp S w) (hx : x ∈ S) : stamp x ≤ stamp w := h.2 hx

/-- Where stamps tell writes apart there is one winner. -/
theorem Winner.unique (hinj : Set.InjOn stamp S) (hv : Winner stamp S v) (hw : Winner stamp S w) :
    v = w :=
  hinj hv.mem hw.mem (le_antisymm (hw.le hv.mem) (hv.le hw.mem))

/-- One more write: it takes over when it is stamped after the winner, and the
winner stays otherwise. -/
theorem Winner.insert (h : Winner stamp S w) (x : α) :
    Winner stamp (insert x S) (if stamp w < stamp x then x else w) := by
  split
  · rename_i hlt
    refine ⟨Set.mem_insert _ _, ?_⟩
    rintro y (rfl | hy)
    · exact le_rfl
    · exact (h.le hy).trans hlt.le
  · rename_i hnlt
    refine ⟨Set.mem_insert_of_mem _ h.mem, ?_⟩
    rintro y (rfl | hy)
    · exact not_lt.mp hnlt
    · exact h.le hy

theorem Winner.singleton (x : α) : Winner stamp {x} x := by
  refine ⟨rfl, ?_⟩
  rintro y rfl
  exact le_rfl

/-- A finite set of writes that is not empty has a winner. -/
theorem exists_winner (hfin : S.Finite) (hne : S.Nonempty) : ∃ w, Winner stamp S w := by
  obtain ⟨w, hw, hmax⟩ := Set.exists_max_image S stamp hfin hne
  exact ⟨w, hw, hmax⟩

end WaveSpan.Lww
