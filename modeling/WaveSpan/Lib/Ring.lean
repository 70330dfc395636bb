/-
WaveSpan.Lib.Ring — a bounded FIFO cache kept by a ring of keys.

A history of records is cached in a table, and a ring of `n` slots remembers the
keys of the last `n` of them: record number `i` takes slot `i % n`. `Holds` says
that the ring names exactly the keys of the last `n` records, that those are
cached, and that they are distinct.

Records may be made in groups. Within a group the key to evict is looked up in
the ring as it stood before the group, and a key is recorded only if it was
cached neither before the group nor by it. `Holds` survives any group.
-/
import Mathlib.Data.List.Basic
import Mathlib.Data.Nat.ModEq

namespace WaveSpan.Ring

variable {κ ρ : Type}

structure Holds (n : Nat) (hist : List (κ × ρ)) (ring : Nat → Option κ) (cache : κ → Option ρ) :
    Prop where
  sound : ∀ j k, ring j = some k → ∃ i r, hist[i]? = some (k, r) ∧ hist.length ≤ i + n ∧ i % n = j
  complete : ∀ i k r, hist[i]? = some (k, r) → hist.length ≤ i + n → ring (i % n) = some k
  cached : ∀ i k r, hist[i]? = some (k, r) → hist.length ≤ i + n → cache k = some r
  distinct : ∀ i j k r r', hist[i]? = some (k, r) → hist.length ≤ i + n →
    hist[j]? = some (k, r') → hist.length ≤ j + n → i = j

def putSlot (ring : Nat → Option κ) (j : Nat) (k : κ) : Nat → Option κ :=
  fun j' => if j' = j then some k else ring j'

/-- The cache with a record put in and the key `old` evicted before. -/
def putCache [DecidableEq κ] (cache : κ → Option ρ) (old : Option κ) (k : κ) (r : ρ) :
    κ → Option ρ :=
  fun k' => if k' = k then some r else if old = some k' then none else cache k'

theorem holds_nil {n : Nat} : Holds n ([] : List (κ × ρ)) (fun _ => none) (fun _ => none) :=
  ⟨by simp, by simp, by simp, by simp⟩

/-- A record in the window of a longer history is in the window of the shorter. -/
theorem getElem?_append_cases {hist new : List (κ × ρ)} {i : Nat} {p : κ × ρ}
    (h : (hist ++ new)[i]? = some p) :
    (i < hist.length ∧ hist[i]? = some p) ∨ (hist.length ≤ i ∧ p ∈ new) := by
  by_cases hi : i < hist.length
  · exact .inl ⟨hi, by rwa [List.getElem?_append_left hi] at h⟩
  · refine .inr ⟨by omega, ?_⟩
    rw [List.getElem?_append_right (by omega)] at h
    exact List.mem_of_getElem? h

/-- Two different records less than `n` apart use different slots. -/
theorem slot_ne {n i j : Nat} (hij : i < j) (hn : j < i + n) : i % n ≠ j % n := by
  intro h
  have hd : n ∣ j - i := (Nat.modEq_iff_dvd' hij.le).mp h
  exact absurd (Nat.le_of_dvd (by omega) hd) (by omega)

section
variable [DecidableEq κ] {n : Nat} {base new : List (κ × ρ)} {ring₀ ring : Nat → Option κ}
  {cache₀ cache : κ → Option ρ} {k : κ} {r : ρ}

/-- One more record of a group that started from `base`, `ring₀` and `cache₀`. -/
theorem Holds.record (hn : 0 < n) (h₀ : Holds n base ring₀ cache₀)
    (h : Holds n (base ++ new) ring cache)
    (hnew : ∀ k r, (k, r) ∈ new → cache₀ k = none)
    (hk₀ : cache₀ k = none) (hk : ∀ r, (k, r) ∉ new) :
    Holds n (base ++ (new ++ [(k, r)]))
      (putSlot ring ((base ++ new).length % n) k)
      (putCache cache (ring₀ ((base ++ new).length % n)) k r) := by
  rw [← List.append_assoc]
  generalize hN : (base ++ new).length = N at *
  have hlen : (base ++ new ++ [(k, r)]).length = N + 1 := by
    rw [List.length_append, hN, List.length_singleton]
  -- a record of the longer history is the new one or one of the shorter
  have hcases : ∀ i k' r', (base ++ new ++ [(k, r)])[i]? = some (k', r') →
      (i = N ∧ k' = k ∧ r' = r) ∨ (i < N ∧ (base ++ new)[i]? = some (k', r')) := by
    intro i k' r' hi
    rcases getElem?_append_cases hi with ⟨hlt, hi'⟩ | ⟨hge, hmem⟩
    · exact .inr ⟨by omega, hi'⟩
    · have hlt : i < (base ++ new ++ [(k, r)]).length := (List.getElem?_eq_some_iff.mp hi).1
      have := List.mem_singleton.mp hmem
      cases this
      exact .inl ⟨by omega, rfl, rfl⟩
  -- the key of an earlier record that stays in the window is not the new one
  have hother : ∀ i k' r', (base ++ new)[i]? = some (k', r') → N ≤ i + n → k' ≠ k := by
    rintro i k' r' hi hw rfl
    rcases getElem?_append_cases hi with ⟨hlt, hi'⟩ | ⟨-, hmem⟩
    · have hbase : base.length ≤ i + n := by
        have : base.length ≤ N := by simp [← hN]
        omega
      rw [h₀.cached i k' r' hi' hbase] at hk₀
      cases hk₀
    · exact hk r' hmem
  refine ⟨fun j k' hj => ?_, fun i k' r' hi hw => ?_, fun i k' r' hi hw => ?_,
    fun i j k' r' r'' hi hwi hj hwj => ?_⟩
  · unfold putSlot at hj
    split at hj
    · rename_i hjN
      cases hj
      exact ⟨N, r, by rw [List.getElem?_append_right (by omega)]; simp [hN], by omega, hjN.symm⟩
    · rename_i hjN
      obtain ⟨i, r', hi, hw, hij⟩ := h.sound j k' hj
      have hlt : i < N := hN ▸ (List.getElem?_eq_some_iff.mp hi).1
      have hne : i + n ≠ N := by
        intro he
        apply hjN
        rw [← hij, ← he]
        simp
      exact ⟨i, r', by rwa [List.getElem?_append_left (by omega)], by omega, hij⟩
  · rw [hlen] at hw
    unfold putSlot
    rcases hcases i k' r' hi with ⟨rfl, rfl, rfl⟩ | ⟨hlt, hi'⟩
    · exact if_pos rfl
    · rw [if_neg (slot_ne hlt (by omega))]
      exact h.complete i k' r' hi' (by omega)
  · rw [hlen] at hw
    unfold putCache
    rcases hcases i k' r' hi with ⟨rfl, rfl, rfl⟩ | ⟨hlt, hi'⟩
    · exact if_pos rfl
    · have hne : ring₀ (N % n) ≠ some k' := by
        intro hold
        obtain ⟨i₀, r₀, hi₀, hw₀, hslot⟩ := h₀.sound _ _ hold
        rcases getElem?_append_cases hi' with ⟨-, hib⟩ | ⟨-, hmem⟩
        · have hb : base.length ≤ i + n := by
            have : base.length ≤ N := by simp [← hN]
            omega
          have := h₀.distinct i i₀ k' r' r₀ hib hb hi₀ hw₀
          subst this
          exact slot_ne hlt (by omega) hslot
        · have := h₀.cached i₀ k' r₀ hi₀ hw₀
          rw [hnew k' r' hmem] at this
          cases this
      rw [if_neg (hother i k' r' hi' (by omega)), if_neg hne]
      exact h.cached i k' r' hi' (by omega)
  · rw [hlen] at hwi hwj
    rcases hcases i k' r' hi with ⟨rfl, rfl, rfl⟩ | ⟨hlti, hi'⟩
    · rcases hcases j k' r'' hj with ⟨rfl, -, -⟩ | ⟨hltj, hj'⟩
      · rfl
      · exact absurd rfl (hother j k' r'' hj' (by omega))
    · rcases hcases j k' r'' hj with ⟨rfl, rfl, rfl⟩ | ⟨hltj, hj'⟩
      · exact absurd rfl (hother i k' r' hi' (by omega))
      · exact h.distinct i j k' r' r'' hi' (by omega) hj' (by omega)

end

end WaveSpan.Ring
