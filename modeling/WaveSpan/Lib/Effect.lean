/-
WaveSpan.Lib.Effect — programs that ask an environment for effects, one at a time.

A program is a tree of requests: each waits for its reply and then goes on, and a program may stop
with an error of its own. A state answers every request at once and keeps what it was told to keep;
`finish` runs a program to its end.

`Safe answer E Q s p` is the rule of pre- and postconditions for such programs: from `s`, the
state at the end satisfies `Q`, and an error is possible only where `E` says so. It is checked along
the text of the program, with rules for sequencing and for loops, and says how the run ends
(`Safe.ends`, `Safe.fails`).
-/
import Mathlib.Logic.Relation

namespace WaveSpan.Effect

inductive Prog (Req : Type) (Rep : Req → Type) (ε α : Type) where
  | ret (a : α)
  | fail (e : ε)
  | ask (r : Req) (next : Rep r → Prog Req Rep ε α)

variable {σ Req ε α β : Type} {Rep : Req → Type}

namespace Prog

def bind : Prog Req Rep ε α → (α → Prog Req Rep ε β) → Prog Req Rep ε β
  | .ret a, f => f a
  | .fail e, _ => .fail e
  | .ask r next, f => .ask r fun x => (next x).bind f

instance : Monad (Prog Req Rep ε) where
  pure := .ret
  bind := .bind

def request (r : Req) : Prog Req Rep ε (Rep r) := .ask r .ret

end Prog

section
variable (answer : σ → (r : Req) → Rep r × σ)

def finish : σ → Prog Req Rep ε α → Except ε α × σ
  | s, .ret a => (.ok a, s)
  | s, .fail e => (.error e, s)
  | s, .ask r next => finish (answer s r).2 (next (answer s r).1)

/-- `Q` holds at the end; errors are possible if `E`. -/
def Safe (E : Prop) (Q : α → σ → Prop) : σ → Prog Req Rep ε α → Prop
  | s, .ret a => Q a s
  | _, .fail _ => E
  | s, .ask r next => Safe E Q (answer s r).2 (next (answer s r).1)

end

variable {answer : σ → (r : Req) → Rep r × σ} {E : Prop} {s t : σ}

/-! ## Rules -/

theorem Safe.imp {Q Q' : α → σ → Prop} {p : Prog Req Rep ε α} (h : Safe answer E Q s p)
    (himp : ∀ a s, Q a s → Q' a s) : Safe answer E Q' s p := by
  induction p generalizing s with
  | ret a => exact himp a s h
  | fail e => exact h
  | ask r next ih => exact ih _ h

/-- One program after the other. -/
theorem Safe.bind {Q : β → σ → Prop} {p : Prog Req Rep ε α} {f : α → Prog Req Rep ε β}
    (h : Safe answer E (fun a s => Safe answer E Q s (f a)) s p) :
    Safe answer E Q s (p >>= f) := by
  induction p generalizing s with
  | ret a => exact h
  | fail e => exact h
  | ask r next ih => exact ih _ h

/-- A request and what comes after it. -/
theorem Safe.request {Q : β → σ → Prop} {r : Req} {f : Rep r → Prog Req Rep ε β}
    (h : Safe answer E Q (answer s r).2 (f (answer s r).1)) :
    Safe answer E Q s (Prog.request r >>= f) := h

/-- A loop: `J rest` holds where the elements of `rest` are still to come. -/
theorem Safe.foldlM {f : β → α → Prog Req Rep ε β} {J : List α → β → σ → Prop} {l : List α}
    (hturn : ∀ a ∈ l, ∀ rest b s, J (a :: rest) b s → Safe answer E (J rest) s (f b a)) {b : β}
    (h : J l b s) : Safe answer E (J []) s (l.foldlM f b) := by
  induction l generalizing b s with
  | nil => exact h
  | cons a l ih =>
    rw [List.foldlM_cons]
    refine Safe.bind ((hturn a List.mem_cons_self l b s h).imp fun b' s' hb' => ?_)
    exact ih (fun x hx => hturn x (List.mem_cons_of_mem _ hx)) hb'

/-- Where errors are allowed nothing is asked of a program. -/
theorem safe_anything (s : σ) (p : Prog Req Rep ε α) :
    Safe answer True (fun _ _ => True) s p := by
  induction p generalizing s with
  | ret a => exact trivial
  | fail err => exact trivial
  | ask r next ih => exact ih _ _

/-! ## What they give -/

/-- A program that cannot fail ends. -/
theorem Safe.ends {Q : α → σ → Prop} {p : Prog Req Rep ε α} (h : Safe answer False Q s p) :
    ∃ a t, finish answer s p = (.ok a, t) ∧ Q a t := by
  induction p generalizing s with
  | ret a => exact ⟨a, s, rfl, h⟩
  | fail e => exact h.elim
  | ask r next ih => exact ih _ h

/-- A program that cannot end well fails. -/
theorem Safe.fails {p : Prog Req Rep ε α} (h : Safe answer True (fun _ _ => False) s p) :
    ∃ err, (finish answer s p).1 = .error err := by
  induction p generalizing s with
  | ret a => exact h.elim
  | fail err => exact ⟨err, rfl⟩
  | ask r next ih => exact ih _ h

end WaveSpan.Effect
