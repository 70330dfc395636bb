/-
WaveSpan.Lib.Prog — rules of pre- and postconditions for programs with a state and
exceptions.

A program here is an `EStateM ε σ α`: it starts in a state, and ends either with
a value or with an exception, in both cases with the state it had reached.

`Ends Q E r` is the usual statement about one run that ended with `r`: if it
returned `a` its state satisfies `Q a`, and if it raised `e` its state satisfies
`E e`. There is one rule per program constructor, so a program built from helpers
is treated by naming the helpers' own rules.
-/
import Mathlib.Logic.Basic

namespace WaveSpan.Prog

variable {ε σ α β : Type}

def reads (f : σ → α) : EStateM ε σ α := fun s => .ok (f s) s

def tryReads (f : σ → Except ε α) : EStateM ε σ α := fun s =>
  match f s with
  | .ok a => .ok a s
  | .error e => .error e s

@[simp] theorem reads_apply (f : σ → α) (s : σ) :
    (reads f : EStateM ε σ α) s = .ok (f s) s := rfl

theorem bind_apply (m : EStateM ε σ α) (k : α → EStateM ε σ β) (s : σ) :
    (m >>= k) s = match m s with
      | .ok a t => k a t
      | .error e t => .error e t := by
  show EStateM.bind m k s = _
  unfold EStateM.bind
  cases m s <;> rfl

theorem bind_apply_ok {m : EStateM ε σ α} {k : α → EStateM ε σ β} {s t : σ} {a : α}
    (h : m s = .ok a t) : (m >>= k) s = k a t := by
  rw [bind_apply, h]

/-! ## One run -/

def Ends (Q : α → σ → Prop) (E : ε → σ → Prop) : EStateM.Result ε σ α → Prop
  | .ok a s => Q a s
  | .error e s => E e s

section
variable {Q Q' : α → σ → Prop} {E E' : ε → σ → Prop}

@[simp] theorem ends_pure (a : α) (s : σ) : Ends Q E ((pure a : EStateM ε σ α) s) ↔ Q a s :=
  Iff.rfl

@[simp] theorem ends_modify {Q : PUnit → σ → Prop} (f : σ → σ) (s : σ) :
    Ends Q E ((modify f : EStateM ε σ PUnit) s) ↔ Q ⟨⟩ (f s) := Iff.rfl

@[simp] theorem ends_reads (f : σ → α) (s : σ) :
    Ends Q E ((reads f : EStateM ε σ α) s) ↔ Q (f s) s := Iff.rfl

/-- A read that may fail. -/
theorem ends_tryReads {f : σ → Except ε α} {s : σ}
    (h : ∀ a, f s = .ok a → Q a s) (hE : ∀ e, f s = .error e → E e s) :
    Ends Q E (tryReads f s) := by
  unfold tryReads
  cases hf : f s with
  | ok a => exact h a hf
  | error e => exact hE e hf

theorem ends_tryReads_ok {f : σ → Except ε α} {s : σ} {a : α} (h : f s = .ok a) :
    Ends Q E (tryReads f s) ↔ Q a s := by
  unfold tryReads
  rw [h]
  exact Iff.rfl

/-- Sequencing: the first part ends where the second one starts. -/
@[simp] theorem ends_bind {Q : β → σ → Prop} (m : EStateM ε σ α) (k : α → EStateM ε σ β)
    (s : σ) :
    Ends Q E ((m >>= k) s) ↔ Ends (fun a t => Ends Q E (k a t)) E (m s) := by
  rw [bind_apply]
  cases m s <;> exact Iff.rfl

theorem ends_ite {p : Prop} [Decidable p] {m n : EStateM ε σ α} {s : σ}
    (hm : p → Ends Q E (m s)) (hn : ¬ p → Ends Q E (n s)) :
    Ends Q E ((if p then m else n) s) := by
  by_cases h : p
  · rw [if_pos h]; exact hm h
  · rw [if_neg h]; exact hn h

/-- A run with no way to fail returns. -/
theorem Ends.returns {r : EStateM.Result ε σ α} (h : Ends Q (fun _ _ => False) r) :
    ∃ a t, r = .ok a t ∧ Q a t := by
  cases r with
  | ok a t => exact ⟨a, t, rfl, h⟩
  | error e t => exact h.elim

theorem Ends.imp {r : EStateM.Result ε σ α} (h : Ends Q E r)
    (hQ : ∀ a t, Q a t → Q' a t) (hE : ∀ e t, E e t → E' e t) : Ends Q' E' r := by
  cases r with
  | ok a t => exact hQ a t h
  | error e t => exact hE e t h

/-- A loop over a list keeps what each turn of it keeps. -/
theorem ends_foldlM {f : β → α → EStateM ε σ β} {l : List α} {I : σ → Prop}
    (h : ∀ b, ∀ a ∈ l, ∀ s, I s → Ends (fun _ => I) E (f b a s)) (b : β) {s : σ} (hs : I s) :
    Ends (fun _ => I) E (l.foldlM f b s) := by
  induction l generalizing b s with
  | nil => exact hs
  | cons a l ih =>
    rw [List.foldlM_cons, ends_bind]
    refine (h b a (by simp) s hs).imp (fun b' t ht => ?_) (fun _ _ he => he)
    exact ih (fun b a ha => h b a (by simp [ha])) b' ht

end

end WaveSpan.Prog
