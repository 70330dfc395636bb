/-
WaveSpan.Lib.Guarded — runs of a deterministic system under a condition on each
event.

A system is a step function; a run is a list of events folded over a start
state. `Along step ok s es` says that every event of the run meets `ok` in the
state it finds. `Along.invariant` is the induction rule for such runs and
`Along.relates` the one for a relation between the start of a run and its end.
-/
import Mathlib.Data.List.Basic

namespace WaveSpan.Guarded

variable {σ ε : Type} {step : σ → ε → σ} {ok : σ → ε → Prop} {s : σ} {es xs ys : List ε}

/-- Every event of the run meets `ok` in the state it finds. -/
def Along (step : σ → ε → σ) (ok : σ → ε → Prop) : σ → List ε → Prop
  | _, [] => True
  | s, e :: es => ok s e ∧ Along step ok (step s e) es

instance decidableAlong [∀ s e, Decidable (ok s e)] :
    ∀ (s : σ) (es : List ε), Decidable (Along step ok s es)
  | _, [] => inferInstanceAs (Decidable True)
  | s, e :: es =>
    have : Decidable (Along step ok (step s e) es) := decidableAlong (step s e) es
    inferInstanceAs (Decidable (ok s e ∧ Along step ok (step s e) es))

/-- A run is guarded if its parts are. -/
theorem along_append :
    Along step ok s (xs ++ ys) ↔ Along step ok s xs ∧ Along step ok (xs.foldl step s) ys := by
  induction xs generalizing s with
  | nil => simp [Along]
  | cons x xs ih => simp [Along, ih, and_assoc]

/-- What every permitted event keeps holds at the end of a run. -/
theorem Along.invariant {I : σ → Prop} (hstep : ∀ s e, I s → ok s e → I (step s e)) (hs : I s)
    (h : Along step ok s es) : I (es.foldl step s) := by
  induction es generalizing s with
  | nil => exact hs
  | cons e es ih => exact ih (hstep s e hs h.1) h.2

/-- What relates the two sides of every permitted event relates the ends of a
run. -/
theorem Along.relates {I : σ → Prop} {R : σ → σ → Prop} (hrefl : ∀ s, R s s)
    (htrans : ∀ a b c, R a b → R b c → R a c) (hstep : ∀ s e, I s → ok s e → I (step s e))
    (hrel : ∀ s e, I s → ok s e → R s (step s e)) (hs : I s) (h : Along step ok s es) :
    R s (es.foldl step s) := by
  induction es generalizing s with
  | nil => exact hrefl s
  | cons e es ih => exact htrans _ _ _ (hrel s e hs h.1) (ih (hstep s e hs h.1) h.2)

/-- A condition on the events themselves joins the guard. -/
theorem Along.and_mem {P : ε → Prop} (h : Along step ok s es) (hP : ∀ e ∈ es, P e) :
    Along step (fun s e => P e ∧ ok s e) s es := by
  induction es generalizing s with
  | nil => trivial
  | cons e es ih =>
    exact ⟨⟨hP e (by simp), h.1⟩, ih h.2 fun d hd => hP d (by simp [hd])⟩

end WaveSpan.Guarded
