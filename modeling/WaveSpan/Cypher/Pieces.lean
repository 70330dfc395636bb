/-
WaveSpan.Cypher.Pieces — that the lexer gives back the pieces a text was written from
(`internal/cypher/parser/lexer.go`).

A piece is a token without its position: a name, a keyword, a number, a string, a parameter or
punctuation. A text writes some pieces (`Writes`) with any blanks between them, and at least where
two pieces would run together: a name and a letter after it, `<` and `=`, a number and a dot.
`render` puts one blank behind every piece. Strings stand between single quotes, with a backslash
before a quote or a backslash.

The lexer takes a piece at a time (`lexeme_piece`); what comes next does not belong to it. So the
tokens of a text are its pieces, and an end token (`lex_writes`).
-/
import WaveSpan.Cypher.Parser

namespace WaveSpan.Cypher

open WaveSpan.Wire WaveSpan.Descent
open WaveSpan.Collections (ascii)

/-! ## Pieces of text -/

inductive Piece where
  | word (name : Bytes)
  | keyword (s : Bytes)
  | int (digits : Bytes)
  | str (s : Bytes)
  | param (name : Bytes)
  | punct (op : Bytes)
  deriving DecidableEq, Repr

def escape (s : Bytes) : Bytes := s.flatMap fun c => if c = 0x27 ∨ c = 0x5c then [0x5c, c] else [c]

namespace Piece

def text : Piece → Bytes
  | .word w | .keyword w | .int w | .punct w => w
  | .str s => 0x27 :: (escape s ++ [0x27])
  | .param n => 0x24 :: n

def type : Piece → TokenType
  | .word _ => .ident
  | .keyword _ => .keyword
  | .int _ => .int
  | .str _ => .string
  | .param _ => .param
  | .punct _ => .punct

def val : Piece → Bytes
  | .word w | .keyword w | .int w | .str w | .param w | .punct w => w

end Piece

def puncts : List Bytes :=
  multiPunct ++ (ascii "()[]\x7b\x7d:,.-><=+*/|").map fun c => [c]

def isName (w : Bytes) : Bool :=
  w.head?.any isIdentStart && w.all isIdentChar && !keywords.contains (toUpper w)

def Piece.Valid : Piece → Prop
  | .word w => isName w = true
  | .keyword s => s ∈ keywords
  | .int d => d ≠ [] ∧ ∀ c ∈ d, isDigit c = true
  | .str _ => True
  | .param n => ∀ c ∈ n, isIdentChar c = true
  | .punct op => op ∈ puncts

/-- What comes next does not belong to the piece. -/
def Piece.Apart (p : Piece) (rest : Bytes) : Prop :=
  match p with
  | .word _ | .keyword _ | .param _ => ∀ c ∈ rest.head?, isIdentChar c = false
  | .int _ => ∀ c ∈ rest.head?, isDigit c = false ∧ c ≠ 0x2e
  | .str _ => True
  | .punct op => lexPunct (op ++ rest) = some op ∧
      (op = [0x2e] → ∀ c ∈ rest.head?, isDigit c = false)

/-! ## The lexer on one piece -/

theorem takeWhile_append_stop {α : Type} {p : α → Bool} {l rest : List α} (hl : ∀ a ∈ l, p a = true)
    (hr : ∀ a ∈ rest.head?, p a = false) : (l ++ rest).takeWhile p = l := by
  rw [List.takeWhile_append_of_pos hl]
  cases rest with
  | nil => simp
  | cons c rest => simp [hr c rfl]

/-- A quoted string is read back. -/
theorem lexString_escape (s rest : Bytes) :
    lexString 0x27 (escape s ++ 0x27 :: rest) = some (s, (escape s).length + 1) := by
  induction s with
  | nil => cases rest <;> simp [escape, lexString]
  | cons c s ih =>
    have hcons : escape (c :: s) = (if c = 0x27 ∨ c = 0x5c then [0x5c, c] else [c]) ++ escape s :=
        rfl
    rw [hcons]
    by_cases hc : c = 0x27 ∨ c = 0x5c
    · rw [if_pos hc]
      simp only [List.cons_append, List.nil_append, lexString, if_true, ih, Option.map_some,
        List.length_cons]
    · rw [if_neg hc]
      obtain ⟨hq, hb⟩ := not_or.mp hc
      have hne : escape s ++ 0x27 :: rest ≠ [] := by simp
      obtain ⟨d, tail, htail⟩ := List.exists_cons_of_ne_nil hne
      rw [htail] at ih
      simp only [List.cons_append, List.nil_append, htail, lexString, if_neg hb, if_neg hq, ih,
        Option.map_some, List.length_cons]

theorem isDigit_of_isIdentStart {c : UInt8} (h : isIdentStart c = true) : isDigit c = false := by
  simp only [isIdentStart, isLetter, isDigit] at *
  grind

/-- A name or a keyword. -/
theorem lexeme_word {w rest : Bytes} (hw : w.head?.any isIdentStart = true)
    (hall : ∀ c ∈ w, isIdentChar c = true) (hr : ∀ c ∈ rest.head?, isIdentChar c = false)
      (i : Nat) :
    ∃ c tail, w = c :: tail ∧ lexeme i c (tail ++ rest) =
      .ok (some (if toUpper w ∈ keywords then (.keyword, toUpper w) else (.ident, w)),
        w.length) := by
  cases w with
  | nil => simp at hw
  | cons c w =>
    refine ⟨c, w, rfl, ?_⟩
    have hc : isIdentStart c = true := by simpa using hw
    have hne {d : UInt8} (hd : isIdentStart d = false) : c ≠ d := by
      rintro rfl
      rw [hc] at hd
      cases hd
    have htake : (c :: (w ++ rest)).takeWhile isIdentChar = c :: w :=
      takeWhile_append_stop (l := c :: w) hall hr
    simp only [lexeme, hne (d := 0x20) rfl, hne (d := 0x09) rfl, hne (d := 0x0a) rfl,
      hne (d := 0x0d) rfl, hne (d := 0x27) rfl, hne (d := 0x22) rfl, hne (d := 0x24) rfl,
      hne (d := 0x2e) rfl, isDigit_of_isIdentStart hc, hc, htake, decide_false, Bool.or_self,
      Bool.false_and, if_true, if_false, Bool.false_eq_true]

/-- Digits are lexed as one integer. -/
theorem lexeme_digits {d rest : Bytes} (hd : d ≠ []) (hall : ∀ c ∈ d, isDigit c = true)
    (hr : ∀ c ∈ rest.head?, isDigit c = false ∧ c ≠ 0x2e) (i : Nat) :
    ∃ c tail, d = c :: tail ∧ lexeme i c (tail ++ rest) = .ok (some (.int, d), d.length) := by
  obtain ⟨c, d, rfl⟩ := List.exists_cons_of_ne_nil hd
  refine ⟨c, d, rfl, ?_⟩
  have hc : isDigit c = true := hall c List.mem_cons_self
  have hne {x : UInt8} (hx : isDigit x = false) : c ≠ x := by
    rintro rfl
    rw [hc] at hx
    cases hx
  have htake : (c :: (d ++ rest)).takeWhile (fun c => isDigit c || c = 0x2e) = c :: d :=
    takeWhile_append_stop (l := c :: d) (fun x hx => by simp [hall x hx])
      fun x hx => by simp [hr x hx]
  have hdot : (0x2e : UInt8) ∉ c :: d := fun h => absurd (hall _ h) (by decide)
  simp only [lexeme, hne (x := 0x20) rfl, hne (x := 0x09) rfl, hne (x := 0x0a) rfl,
    hne (x := 0x0d) rfl, hne (x := 0x27) rfl, hne (x := 0x22) rfl, hne (x := 0x24) rfl, hc, htake,
    if_neg hdot, decide_false, Bool.or_self, Bool.true_or, if_true, if_false, Bool.false_eq_true]

theorem lexeme_punct {op rest : Bytes} (hop : op ∈ puncts)
    (hr : lexPunct (op ++ rest) = some op)
    (hdot : op = [0x2e] → ∀ c ∈ rest.head?, isDigit c = false) (i : Nat) :
    ∃ c tail, op = c :: tail ∧ lexeme i c (tail ++ rest) = .ok (some (.punct, op), op.length) := by
  have hpuncts : ∀ op ∈ puncts, (op.head?.any fun c => !isIdentStart c && !isDigit c &&
      !(([0x20, 0x09, 0x0a, 0x0d, 0x27, 0x22, 0x24] : Bytes).contains c)) = true ∧
      (op.head? = some 0x2e → op = [0x2e]) := by decide
  obtain ⟨hhead, htail⟩ := hpuncts op hop
  obtain ⟨c, tail, rfl⟩ : ∃ c tail, op = c :: tail := by
    cases op with
    | nil => simp at hhead
    | cons c tail => exact ⟨c, tail, rfl⟩
  refine ⟨c, tail, rfl, ?_⟩
  simp only [List.head?_cons, Option.any_some, Bool.and_eq_true, Bool.not_eq_true',
    List.contains_eq_mem, decide_eq_false_iff_not, List.mem_cons, List.not_mem_nil, or_false,
    not_or] at hhead
  obtain ⟨⟨hstart, hdigit⟩, h1, h2, h3, h4, h5, h6, h7⟩ := hhead
  have hnum : (decide (c = 0x2e) && (((tail ++ rest).head?.map isDigit).getD false)) = false := by
    by_cases hc : c = 0x2e
    · subst hc
      obtain rfl : tail = [] := by simpa using htail rfl
      cases hrest : rest with
      | nil => rfl
      | cons x rest => simpa [hrest] using hdot rfl x (by rw [hrest]; rfl)
    · simp [hc]
  have hlex : lexPunct (c :: (tail ++ rest)) = some (c :: tail) := hr
  simp only [lexeme, h1, h2, h3, h4, h5, h6, h7, hdigit, hnum, hstart, hlex, decide_false,
    Bool.or_self, if_false, Bool.false_eq_true]

/-- A piece is read as it was written. -/
theorem lexeme_piece {p : Piece} {rest : Bytes} (hp : p.Valid) (hr : p.Apart rest) (i : Nat) :
    ∃ c tail, p.text = c :: tail ∧
      lexeme i c (tail ++ rest) = .ok (some (p.type, p.val), p.text.length) := by
  cases p with
  | word w =>
    simp only [Piece.Valid, isName, Bool.and_eq_true, List.all_eq_true, Bool.not_eq_true',
      List.contains_eq_mem, decide_eq_false_iff_not] at hp
    obtain ⟨c, tail, hcons, hlex⟩ := lexeme_word hp.1.1 hp.1.2 hr i
    exact ⟨c, tail, hcons, by rw [hlex, if_neg hp.2]; rfl⟩
  | keyword s =>
    have hkeys : ∀ s ∈ keywords, s.head?.any isIdentStart = true ∧ (∀ c ∈ s, isIdentChar c = true) ∧
        toUpper s = s := by decide +kernel
    obtain ⟨hhead, hall, hup⟩ := hkeys s hp
    obtain ⟨c, tail, hcons, hlex⟩ := lexeme_word hhead hall hr i
    exact ⟨c, tail, hcons, by rw [hlex, hup, if_pos (show s ∈ keywords from hp)]; rfl⟩
  | int d => exact lexeme_digits hp.1 hp.2 hr i
  | str s =>
    refine ⟨0x27, escape s ++ [0x27], rfl, ?_⟩
    rw [List.append_assoc, List.singleton_append]
    simp [lexeme, lexString_escape, Piece.type, Piece.val, Piece.text]
  | param n =>
    refine ⟨0x24, n, rfl, ?_⟩
    simp [lexeme, takeWhile_append_stop hp hr, Piece.type, Piece.val, Piece.text]
  | punct op => exact lexeme_punct hp hr.1 hr.2 i

/-! ## The lexer on a text -/

/-- A text for some pieces, with blanks before, between and behind them. -/
inductive Writes : List Piece → Bytes → Prop
  | nil : Writes [] []
  | blank {c : UInt8} {ps : List Piece} {text : Bytes}
      (hc : c = 0x20 ∨ c = 0x09 ∨ c = 0x0a ∨ c = 0x0d)
      (h : Writes ps text) : Writes ps (c :: text)
  | piece {p : Piece} {ps : List Piece} {text : Bytes} (hp : p.Valid) (ha : p.Apart text)
      (h : Writes ps text) : Writes (p :: ps) (p.text ++ text)

def Token.Is (t : Token) (p : Piece) : Prop := t.type = p.type ∧ t.val = p.val

theorem lexFrom_writes {ps : List Piece} {text : Bytes} (h : Writes ps text) {m : Nat}
    (hm : text.length < m) (i : Nat) :
    ∃ ts t, lexFrom m i text = some (.ok (ts ++ [t])) ∧ List.Forall₂ Token.Is ts ps ∧
      t.type = .eof := by
  induction h generalizing m i with
  | nil =>
    cases m with
    | zero => omega
    | succ m => exact ⟨[], _, rfl, .nil, rfl⟩
  | @blank c ps text hc _ ih =>
    cases m with
    | zero => omega
    | succ m =>
      obtain ⟨ts, t, hlex, hts, ht⟩ := ih (m := m) (by simpa using hm) (i + 1)
      refine ⟨ts, t, ?_, hts, ht⟩
      have hblank : lexeme i c text = .ok (none, 1) := by
        rcases hc with rfl | rfl | rfl | rfl <;> rfl
      simp only [lexFrom, hblank, Nat.sub_self, List.drop_zero, hlex, Option.map_none,
        Option.toList_none, List.nil_append, Option.map_some]
      rfl
  | @piece p ps text hp ha _ ih =>
    obtain ⟨c, tail, hcons, hlexeme⟩ := lexeme_piece hp ha i
    cases m with
    | zero => omega
    | succ m =>
      rw [List.length_append, hcons, List.length_cons] at hm
      obtain ⟨ts, t, hlex, hts, ht⟩ := ih (m := m) (by omega) (i + p.text.length)
      refine ⟨⟨p.type, p.val, i⟩ :: ts, t, ?_, .cons ⟨rfl, rfl⟩ hts, ht⟩
      have hdrop : (tail ++ text).drop (p.text.length - 1) = text := by simp [hcons]
      rw [hcons, List.cons_append]
      simp only [lexFrom, hlexeme, hdrop, hlex, Option.map_some]
      rfl

/-- A text is lexed into its pieces and an end. -/
theorem lex_writes {ps : List Piece} {text : Bytes} (h : Writes ps text) :
    ∃ ts t, lex text = some (.ok (ts ++ [t])) ∧ List.Forall₂ Token.Is ts ps ∧ t.type = .eof :=
  lexFrom_writes h (Nat.lt_succ_self _) 0

def render (ps : List Piece) : Bytes := ps.flatMap fun p => p.text ++ [0x20]

theorem lexPunct_blank (text : Bytes) : ∀ op ∈ puncts, lexPunct (op ++ 0x20 :: text) = some op := by
  rw [← List.forall_iff_forall_mem]
  repeat' constructor

/-- A blank keeps pieces apart. -/
theorem apart_blank {p : Piece} (hp : p.Valid) (text : Bytes) : p.Apart (0x20 :: text) := by
  have hblank {P : UInt8 → Prop} (h : P 0x20) : ∀ c ∈ ((0x20 : UInt8) :: text).head?, P c := by
    rintro c ⟨⟩
    exact h
  cases p with
  | word | keyword | param => exact hblank rfl
  | int => exact hblank ⟨rfl, by decide⟩
  | str => exact trivial
  | punct op => exact ⟨lexPunct_blank text op hp, fun _ => hblank rfl⟩

/-- Pieces with blanks between them spell their text. -/
theorem writes_render {ps : List Piece} (h : ∀ p ∈ ps, p.Valid) : Writes ps (render ps) := by
  induction ps with
  | nil => exact .nil
  | cons p ps ih =>
    have hrest := Writes.blank (.inl rfl) (ih fun q hq => h q (List.mem_cons_of_mem _ hq))
    have hp := h p List.mem_cons_self
    simpa [render] using Writes.piece hp (apart_blank hp _) hrest

end WaveSpan.Cypher
