/-
WaveSpan.Lib.Descent — recursive descent over a list of tokens with an end token.

A parser looks at the next token and takes it; past the end of the list both are a crash, as an
index out of range is. Recursion and loops are bounded by a number, and a parser that reaches the
bound is `stuck`.

A token is taken only after a test that the end token does not pass (`Test`). `Parses is G p ps a`
is the rule for what such a parser reads: on tokens for the pieces `ps`, followed by one that `G`
holds of, it yields `a` and leaves what follows. It goes along the text of the parser, with rules
for sequencing, for tests and for loops.
-/
import Mathlib.Data.List.Forall2

namespace WaveSpan.Descent

variable {ε τ α β : Type}

/-- How a parser ends. -/
inductive Res (ε τ α : Type) where
  | ok (a : α) (rest : List τ)
  | fail (err : ε)
  | crash
  | stuck
  deriving DecidableEq, Repr

def Parser (ε τ α : Type) : Type := List τ → Res ε τ α

instance : Monad (Parser ε τ) where
  pure a := fun ts => .ok a ts
  bind p f := fun ts =>
    match p ts with
    | .ok a rest => f a rest
    | .fail err => .fail err
    | .crash => .crash
    | .stuck => .stuck

/-! ## Tokens -/

def peek : Parser ε τ τ
  | [] => .crash
  | t :: ts => .ok t (t :: ts)

def next : Parser ε τ τ
  | [] => .crash
  | t :: ts => .ok t ts

def fail (err : ε) : Parser ε τ α := fun _ => .fail err

def stuck : Parser ε τ α := fun _ => .stuck

/-- A test of tokens that no end token passes. -/
structure Test (isEnd : τ → Bool) where
  holds : τ → Bool
  inside : ∀ t, holds t = true → isEnd t = false

variable {isEnd : τ → Bool}

def peekIf (c : Test isEnd) (yes no : Parser ε τ α) : Parser ε τ α := do
  let t ← peek
  if c.holds t then yes else no

/-- Take the next token if it passes. -/
def accept (c : Test isEnd) (yes : τ → Parser ε τ α) (no : Parser ε τ α) : Parser ε τ α := do
  let t ← peek
  if c.holds t then do
    let _ ← next
    yes t
  else no

/-- Take the next token, which must pass. -/
def expect (c : Test isEnd) (err : τ → ε) : Parser ε τ τ :=
  accept c pure do
    let t ← peek
    fail (err t)

/-! ## Loops -/

/-- One or more items with separators between them. -/
def sepBy : Nat → Test isEnd → Parser ε τ α → Parser ε τ (List α)
  | 0, _, _ => stuck
  | m + 1, sep, item => do
    let a ← item
    accept sep (fun _ => do return a :: (← sepBy m sep item)) (pure [a])

def many : Nat → Test isEnd → Parser ε τ α → Parser ε τ (List α)
  | 0, _, _ => stuck
  | m + 1, c, item => peekIf c (do let a ← item; return a :: (← many m c item)) (pure [])

/-- Operators and operands behind a first operand, which they gather. -/
def chain : Nat → Test isEnd → (α → τ → β → α) → Parser ε τ β → α → Parser ε τ α
  | 0, _, _, _, _ => stuck
  | m + 1, op, mk, operand, left =>
    accept op (fun t => do chain m op mk operand (mk left t (← operand))) (pure left)

/-! ## The rule -/

variable {k j m n : Nat} {p : Parser ε τ α} {c : Test isEnd}

theorem peekIf_eq (yes no : Parser ε τ α) (t : τ) (ts : List τ) :
    peekIf c yes no (t :: ts) = if c.holds t then yes (t :: ts) else no (t :: ts) := by
  show (if c.holds t then yes else no) (t :: ts) = _
  split <;> rfl

theorem accept_eq (yes : τ → Parser ε τ α) (no : Parser ε τ α) (t : τ) (ts : List τ) :
    accept c yes no (t :: ts) = if c.holds t then yes t ts else no (t :: ts) := by
  show (if c.holds t then next >>= fun _ => yes t else no) (t :: ts) = _
  split <;> rfl

/-! ## Parsing what was written

The tokens are described by pieces, and `is t q` says that token `t` is piece `q`: a token may carry
more than a piece fixes, such as its position. -/

section
variable {π : Type} (is : τ → π → Prop)

/-- On tokens for the pieces `ps`, followed by one that `G` holds of, `p` yields `a` and leaves what
follows. -/
def Parses (G : τ → Prop) (p : Parser ε τ α) (ps : List π) (a : α) : Prop :=
  ∀ ts t rest, List.Forall₂ is ts ps → G t → p (ts ++ t :: rest) = .ok a (t :: rest)

/-- The next token: of the first piece, or one that follows the pieces. -/
def Front (G : τ → Prop) (ps : List π) (t : τ) : Prop :=
  match ps with
  | [] => G t
  | q :: _ => is t q

variable {is} {F G : τ → Prop} {ps qs : List π} {q : π} {a : α} {b : β}

theorem Parses.mono (h : Parses is F p ps a) (hG : ∀ t, G t → F t) : Parses is G p ps a :=
  fun ts t rest hts ht => h ts t rest hts (hG t ht)

theorem parses_pure (a : α) : Parses is G (pure a : Parser ε τ α) [] a := by
  intro ts t rest hts _
  rw [List.forall₂_nil_right_iff.mp hts]
  rfl

/-- The tokens of some pieces and what follows start with a token of their front. -/
theorem front_cons {ts : List τ} {t : τ} (hts : List.Forall₂ is ts ps) (ht : G t) (rest : List τ) :
    ∃ t' rest', ts ++ t :: rest = t' :: rest' ∧ Front is G ps t' := by
  cases hts with
  | nil => exact ⟨t, rest, rfl, ht⟩
  | cons h _ => exact ⟨_, _, rfl, h⟩

/-- A parser that succeeds hands on. -/
theorem bind_ok {f : α → Parser ε τ β} {ts rest : List τ} (h : p ts = .ok a rest) :
    (p >>= f) ts = f a rest := by
  show (match p ts with
    | .ok a rest => f a rest
    | .fail err => .fail err
    | .crash => .crash
    | .stuck => .stuck) = _
  rw [h]

/-- Two parsers, one after the other. -/
theorem Parses.bind {f : α → Parser ε τ β} (hp : Parses is F p ps a)
    (hF : ∀ t, Front is G qs t → F t) (hf : Parses is G (f a) qs b) :
    Parses is G (p >>= f) (ps ++ qs) b := by
  intro ts t rest hts ht
  have hps := List.forall₂_take_append _ _ _ hts
  have hqs := List.forall₂_drop_append _ _ _ hts
  obtain ⟨t', rest', hcons, hfront⟩ := front_cons hqs ht rest
  have hfirst : p (ts ++ t :: rest) = .ok a (ts.drop ps.length ++ t :: rest) := by
    have h := hp _ t' rest' hps (hF t' hfront)
    rwa [← hcons, ← List.append_assoc, List.take_append_drop] at h
  rw [bind_ok hfirst]
  exact hf _ _ _ hqs ht

/-- One after the other, the second without tokens of its own. -/
theorem Parses.last {f : α → Parser ε τ β} (hp : Parses is F p ps a) (hF : ∀ t, G t → F t)
    (hf : Parses is G (f a) [] b) : Parses is G (p >>= f) ps b :=
  List.append_nil ps ▸ hp.bind hF hf

theorem Parses.map (f : α → β) (hp : Parses is G p ps a) : Parses is G (f <$> p) ps (f a) :=
  hp.last (fun _ ht => ht) (parses_pure (f a))

/-- The next token passes. -/
theorem Parses.accept_yes {yes : τ → Parser ε τ α} {no : Parser ε τ α}
    (hc : ∀ t, is t q → c.holds t = true) (h : ∀ t, is t q → Parses is G (yes t) ps a) :
    Parses is G (accept c yes no) (q :: ps) a := by
  intro ts t rest hts ht
  obtain ⟨t', ts', hq, hts', rfl⟩ := List.forall₂_cons_right_iff.mp hts
  rw [List.cons_append, accept_eq, if_pos (hc t' hq)]
  exact h t' hq _ _ _ hts' ht

/-- The next token does not pass. -/
theorem Parses.accept_no {yes : τ → Parser ε τ α} {no : Parser ε τ α}
    (hc : ∀ t, Front is G ps t → c.holds t = false) (h : Parses is G no ps a) :
    Parses is G (accept c yes no) ps a := by
  intro ts t rest hts ht
  obtain ⟨t', rest', hcons, hfront⟩ := front_cons hts ht rest
  rw [hcons, accept_eq, if_neg (by simp [hc t' hfront]), ← hcons]
  exact h _ _ _ hts ht

theorem Parses.peekIf_yes {yes no : Parser ε τ α}
    (hc : ∀ t, Front is G ps t → c.holds t = true) (h : Parses is G yes ps a) :
    Parses is G (peekIf c yes no) ps a := by
  intro ts t rest hts ht
  obtain ⟨t', rest', hcons, hfront⟩ := front_cons hts ht rest
  rw [hcons, peekIf_eq, if_pos (hc t' hfront), ← hcons]
  exact h _ _ _ hts ht

theorem Parses.peekIf_no {yes no : Parser ε τ α}
    (hc : ∀ t, Front is G ps t → c.holds t = false) (h : Parses is G no ps a) :
    Parses is G (peekIf c yes no) ps a := by
  intro ts t rest hts ht
  obtain ⟨t', rest', hcons, hfront⟩ := front_cons hts ht rest
  rw [hcons, peekIf_eq, if_neg (by simp [hc t' hfront]), ← hcons]
  exact h _ _ _ hts ht

/-- A token that is asked for, and what comes after it. -/
theorem parses_expect {err : τ → ε} {f : τ → Parser ε τ β} (hc : ∀ t, is t q → c.holds t = true)
    (h : ∀ t, is t q → Parses is G (f t) ps b) : Parses is G (expect c err >>= f) (q :: ps) b := by
  intro ts t rest hts ht
  obtain ⟨t', ts', hq, hts', rfl⟩ := List.forall₂_cons_right_iff.mp hts
  have hfirst : expect c err (t' :: (ts' ++ t :: rest)) = .ok t' (ts' ++ t :: rest) := by
    rw [expect, accept_eq, if_pos (hc t' hq)]
    rfl
  rw [List.cons_append, bind_ok hfirst]
  exact h t' hq _ _ _ hts' ht

/-- A loop that what follows does not continue. -/
theorem parses_stop {yes : τ → Parser ε τ α} (hc : ∀ t, G t → c.holds t = false) (a : α) :
    Parses is G (accept c yes (pure a)) [] a :=
  Parses.accept_no hc (parses_pure a)

theorem parses_sepBy_one {sep : Test isEnd} (hp : Parses is F p ps a) (hF : ∀ t, G t → F t)
    (hsep : ∀ t, G t → sep.holds t = false) : Parses is G (sepBy (m + 1) sep p) ps [a] :=
  hp.last hF (parses_stop hsep [a])

/-- One item, a separator and the rest. -/
theorem parses_sepBy_cons {sep : Test isEnd} {as : List α} (hp : Parses is F p ps a)
    (hF : ∀ t, is t q → F t) (hsep : ∀ t, is t q → sep.holds t = true)
    (has : Parses is G (sepBy m sep p) qs as) :
    Parses is G (sepBy (m + 1) sep p) (ps ++ q :: qs) (a :: as) :=
  hp.bind hF (Parses.accept_yes hsep fun _ _ => has.map (a :: ·))

/-- Items with the separator between them. -/
theorem parses_sepBy {sep : Test isEnd} {pss : List (List π)} {as : List α}
    (h : List.Forall₂ (fun ps a => Parses is F p ps a) pss as) (hne : as ≠ [])
    (hq : ∀ t, is t q → F t ∧ sep.holds t = true) (hG : ∀ t, G t → F t ∧ sep.holds t = false)
    (hm : as.length ≤ m) : Parses is G (sepBy m sep p) ([q].intercalate pss) as := by
  induction h generalizing m with
  | nil => exact absurd rfl hne
  | @cons ps a pss as hp hrest ih =>
    rw [List.length_cons] at hm
    obtain ⟨m, rfl⟩ : ∃ k, m = k + 1 := ⟨m - 1, by omega⟩
    cases hrest with
    | nil =>
      simpa using parses_sepBy_one hp (fun t ht => (hG t ht).1) fun t ht => (hG t ht).2
    | cons _ _ =>
      have := parses_sepBy_cons hp (fun t ht => (hq t ht).1) (fun t ht => (hq t ht).2)
        (ih (m := m) (by simp) (by omega))
      simpa [List.intercalate] using this

/-- An operand alone. -/
theorem Parses.chain_none {mk : α → τ → α → α} (hp : Parses is F p ps a) (hF : ∀ t, G t → F t)
    (hc : ∀ t, G t → c.holds t = false) (hm : 0 < m) :
    Parses is G (do let left ← p; chain m c mk p left) ps a := by
  obtain ⟨m, rfl⟩ := Nat.exists_eq_succ_of_ne_zero (Nat.ne_of_gt hm)
  exact hp.last hF (parses_stop hc a)

/-- Two operands and the operator between them. -/
theorem Parses.chain_one {mk : α → τ → α → α} {a' x : α} (hp : Parses is F p ps a)
    (hq : ∀ t, is t q → F t) (hqc : ∀ t, is t q → c.holds t = true)
    (hmk : ∀ t, is t q → mk a t a' = x) (hp' : Parses is F p qs a')
    (hF : ∀ t, G t → F t) (hc : ∀ t, G t → c.holds t = false) (hm : 1 < m) :
    Parses is G (do let left ← p; chain m c mk p left) (ps ++ q :: qs) x := by
  obtain ⟨m, rfl⟩ : ∃ k, m = k + 2 := ⟨m - 2, by omega⟩
  refine hp.bind hq ?_
  refine Parses.accept_yes hqc fun t ht => ?_
  obtain rfl := hmk t ht
  exact hp'.last hF (parses_stop hc _)

end

end WaveSpan.Descent
