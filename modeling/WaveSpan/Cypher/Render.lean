/-
WaveSpan.Cypher.Render — that an expression is parsed as it is written
(`internal/cypher/parser/parser.go`).

`spell` writes an expression as the pieces of its fully parenthesised text: every operator with its
operands stands between parentheses, and only an operator does. The parser then meets an expression
only as a `primary`, and every level of precedence above passes it on: what follows is no operator
of that level (`Follows`). Inside the parentheses there are two primaries and one operator, which is
taken at its own level.

The bounds of the parser's recursion are given by the number of pieces. Float literals are left out.
The names are taken as the lexer sees them, byte by byte.
-/
import WaveSpan.Collections.Counters
import WaveSpan.Cypher.Pieces

namespace WaveSpan.Cypher

open WaveSpan.Wire WaveSpan.Descent
open WaveSpan.Collections (ascii formatInt digit? parseDigits parseDigits_repr)

/-! ## Spelling expressions -/

def sign (s : String) : Piece := .punct (ascii s)

def word (s : String) : Piece := .keyword (ascii s)

def opPiece : BinOp → Piece
  | .and => word "AND"
  | .or => word "OR"
  | .eq => sign "="
  | .ne => sign "<>"
  | .lt => sign "<"
  | .gt => sign ">"
  | .le => sign "<="
  | .ge => sign ">="
  | .add => sign "+"
  | .sub => sign "-"
  | .mul => sign "*"
  | .div => sign "/"
  | .isIn => word "IN"

/-- The two names of a function, before and behind the dot. -/
def callNames (name : Bytes) : Bytes × Bytes :=
  (name.takeWhile (· ≠ 0x2e), (name.dropWhile (· ≠ 0x2e)).drop 1)

mutual

def spell : Expr → List Piece
  | .int i => [.int (formatInt i)]
  | .float _ => []
  | .str s => [.str s]
  | .bool true => [word "TRUE"]
  | .bool false => [word "FALSE"]
  | .null => [word "NULL"]
  | .list items => sign "[" :: ([sign ","].intercalate (spellItems items) ++ [sign "]"])
  | .map entries => sign "\x7b" :: ([sign ","].intercalate (spellEntries entries) ++ [sign "\x7d"])
  | .param n => [.param n]
  | .var n => [.word n]
  | .prop v p => [.word v, sign ".", .word p]
  | .unary .not e => sign "(" :: word "NOT" :: (spell e ++ [sign ")"])
  | .unary .neg e => sign "(" :: sign "-" :: (spell e ++ [sign ")"])
  | .binary op l r => sign "(" :: (spell l ++ opPiece op :: spell r ++ [sign ")"])
  | .call name args =>
    .word (callNames name).1 :: sign "." :: .word (callNames name).2 :: sign "(" ::
      ([sign ","].intercalate (spellItems args) ++ [sign ")"])

def spellItems : List Expr → List (List Piece)
  | [] => []
  | e :: es => spell e :: spellItems es

def spellEntries : List (Bytes × Expr) → List (List Piece)
  | [] => []
  | (k, e) :: es => (.word k :: sign ":" :: spell e) :: spellEntries es

end

mutual

/-- Integers are not negative, names are names, a function has a name with one dot, and no key of a
map comes twice. -/
def plain : Expr → Bool
  | .int i => 0 ≤ i.toInt
  | .float _ => false
  | .str _ | .bool _ | .null => true
  | .list items => plainItems items
  | .map entries => (entries.map Prod.fst).Nodup && plainEntries entries
  | .param n => n.all isIdentChar
  | .var n => isName n
  | .prop v p => isName v && isName p
  | .unary _ e => plain e
  | .binary _ l r => plain l && plain r
  | .call name args =>
    isName (callNames name).1 && isName (callNames name).2 &&
      name = (callNames name).1 ++ ascii "." ++ (callNames name).2 && plainItems args

def plainItems : List Expr → Bool
  | [] => true
  | e :: es => plain e && plainItems es

def plainEntries : List (Bytes × Expr) → Bool
  | [] => true
  | (k, e) :: es => isName k && plain e && plainEntries es

end

/-! ## What stands at the front of an expression, and what behind it -/

theorem forall_is {Q : Token → Prop} {p : Piece} (h : ∀ pos, Q ⟨p.type, p.val, pos⟩) (t : Token)
    (ht : t.Is p) : Q t := by
  obtain ⟨type, val, pos⟩ := t
  obtain ⟨rfl, rfl⟩ := ht
  exact h pos

def Piece.opens : Piece → Bool
  | .keyword s => s ∈ ["TRUE", "FALSE", "NULL"].map ascii
  | .punct op => op ∈ ["(", "[", "\x7b", "-"].map ascii
  | _ => true

def Opens (ps : List Piece) : Prop := ∃ q qs, ps = q :: qs ∧ q.opens = true

/-- An expression opens with a token of an operand. -/
theorem opens_spell {x : Expr} (hx : plain x = true) : Opens (spell x) := by
  cases x with
  | float => simp [plain] at hx
  | bool b => cases b <;> exact ⟨_, _, rfl, rfl⟩
  | unary op => cases op <;> exact ⟨_, _, rfl, rfl⟩
  | _ => exact ⟨_, _, by simp only [spell]; rfl, rfl⟩

section
variable {s : String} {ps : List Piece} {G : Token → Prop}

theorem Opens.keyword (h : Opens ps) (hs : ascii s ∉ ["TRUE", "FALSE", "NULL"].map ascii)
    (t : Token)
    (ht : Front Token.Is G ps t) : (keyword s).holds t = false := by
  obtain ⟨q, qs, rfl, hq⟩ := h
  refine forall_is (Q := fun t => (Cypher.keyword s).holds t = false) (p := q) (fun pos => ?_) t ht
  cases q with
  | keyword w =>
    have hw : w ≠ ascii s := fun h => hs (h ▸ of_decide_eq_true hq)
    simp [Cypher.keyword, Piece.val, hw]
  | _ => rfl

theorem Opens.punct (h : Opens ps) (hs : ascii s ∉ ["(", "[", "\x7b", "-"].map ascii) (t : Token)
    (ht : Front Token.Is G ps t) : (punct s).holds t = false := by
  obtain ⟨q, qs, rfl, hq⟩ := h
  refine forall_is (Q := fun t => (Cypher.punct s).holds t = false) (p := q) (fun pos => ?_) t ht
  cases q with
  | punct w =>
    have hw : w ≠ ascii s := fun h => hs (h ▸ of_decide_eq_true hq)
    simp [Cypher.punct, punctIn, Piece.val, hw]
  | _ => rfl

end

/-- The tests of the tokens that continue an expression, from the innermost level out. -/
def guards : List (Test isEOF) :=
  [punct ".", punct "(", punctIn [ascii "*", ascii "/"], punctIn [ascii "+", ascii "-"],
    punctIn (compareOps.map Prod.fst), keyword "IN", keyword "AND", keyword "OR"]

/-- A token that passes none of the first `k` tests. -/
def Follows (k : Nat) (t : Token) : Prop := ∀ c ∈ guards.take k, c.holds t = false

theorem Follows.mono {k j : Nat} {t : Token} (h : Follows k t) (hj : j ≤ k) : Follows j t :=
  fun c hc => h c (List.take_subset_take_left _ hj hc)

/-- The level of an operator: the first test it passes. -/
def level : BinOp → Nat
  | .mul | .div => 2
  | .add | .sub => 3
  | .eq | .ne | .lt | .gt | .le | .ge => 4
  | .isIn => 5
  | .and => 6
  | .or => 7

/-- After an operand of its level an operator may follow. -/
theorem follows_level (op : BinOp) (t : Token) (ht : t.Is (opPiece op)) : Follows (level op) t := by
  refine forall_is (fun pos => ?_) t ht
  rw [Follows, ← List.forall_iff_forall_mem]
  cases op <;> repeat' constructor

theorem follows_close : ∀ t : Token, t.Is (sign ")") → Follows 8 t := by
  refine forall_is fun pos => ?_
  rw [Follows, ← List.forall_iff_forall_mem]
  repeat' constructor

/-! ## The levels of precedence -/

section
variable {pf : Bytes → UInt64} {m : Nat} {e : P Expr} {ps qs : List Piece} {x y : Expr}

/-- An operand without a product. -/
theorem parses_multiplicative (h : Parses Token.Is (Follows 2) (primary pf m e) ps x) (hm : 0 < m) :
    Parses Token.Is (Follows 3) (multiplicative pf m e) ps x :=
  h.chain_none (fun _ ht => ht.mono (by decide)) (fun _ ht => ht _ (by simp [guards])) hm

theorem parses_additive (h : Parses Token.Is (Follows 3) (multiplicative pf m e) ps x)
    (hm : 0 < m) :
    Parses Token.Is (Follows 4) (additive pf m e) ps x :=
  h.chain_none (fun _ ht => ht.mono (by decide)) (fun _ ht => ht _ (by simp [guards])) hm

theorem parses_comparison (h : Parses Token.Is (Follows 4) (additive pf m e) ps x) :
    Parses Token.Is (Follows 6) (comparison pf m e) ps x := by
  refine h.last (fun _ ht => ht.mono (by decide)) ?_
  refine Parses.accept_no (fun _ ht => ht _ (by simp [guards])) ?_
  exact parses_stop (fun _ ht => ht _ (by simp [guards])) x

theorem parses_notExpr (h : Parses Token.Is (Follows 6) (comparison pf m e) ps x) (hps : Opens ps)
    {k : Nat} (hk : 0 < k) : Parses Token.Is (Follows 6) (notExpr pf m e k) ps x := by
  obtain ⟨k, rfl⟩ := Nat.exists_eq_succ_of_ne_zero (Nat.ne_of_gt hk)
  exact Parses.accept_no (hps.keyword (by decide)) h

theorem parses_andExpr (h : Parses Token.Is (Follows 6) (notExpr pf m e m) ps x) (hm : 0 < m) :
    Parses Token.Is (Follows 7) (andExpr pf m e) ps x :=
  h.chain_none (fun _ ht => ht.mono (by decide)) (fun _ ht => ht _ (by simp [guards])) hm

theorem parses_orExpr (h : Parses Token.Is (Follows 7) (andExpr pf m e) ps x) (hm : 0 < m) :
    Parses Token.Is (Follows 8) (orExpr pf m e) ps x :=
  h.chain_none (fun _ ht => ht.mono (by decide)) (fun _ ht => ht _ (by simp [guards])) hm

/-- The levels that what a comparison yields goes through. -/
theorem Parses.orExpr (h : Parses Token.Is (Follows 6) (comparison pf m e) ps x) (hps : Opens ps)
    (hm : 0 < m) : Parses Token.Is (Follows 8) (orExpr pf m e) ps x :=
  parses_orExpr (parses_andExpr (parses_notExpr h hps hm) hm) hm

/-- An operand is an expression at every level. -/
theorem parses_operand (h : Parses Token.Is (Follows 2) (primary pf m e) ps x) (hps : Opens ps)
    (hm : 0 < m) : Parses Token.Is (Follows 8) (orExpr pf m e) ps x :=
  Parses.orExpr (parses_comparison (parses_additive (parses_multiplicative h hm) hm)) hps hm

theorem Opens.append (h : Opens ps) (qs : List Piece) : Opens (ps ++ qs) := by
  obtain ⟨q, rest, rfl, hq⟩ := h
  exact ⟨q, rest ++ qs, rfl, hq⟩

theorem parses_not (h : Parses Token.Is (Follows 2) (primary pf m e) ps x) (hps : Opens ps)
    (hm : 1 < m) :
    Parses Token.Is (Follows 8) (orExpr pf m e) (word "NOT" :: ps) (.unary .not x) := by
  have hm0 : 0 < m := by omega
  have hx := parses_comparison (parses_additive (parses_multiplicative h hm0) hm0)
  refine parses_orExpr (parses_andExpr ?_ hm0) hm0
  obtain ⟨k, hk⟩ : ∃ k, m = k + 2 := ⟨m - 2, by omega⟩
  have hnot : Parses Token.Is (Follows 6) (notExpr pf m e (k + 2)) (word "NOT" :: ps)
      (.unary .not x) :=
    Parses.accept_yes (forall_is fun _ => rfl)
      fun _ _ => (parses_notExpr hx hps (Nat.succ_pos k)).map (Expr.unary .not)
  rwa [← hk] at hnot

/-- An operator is taken at its level; its operands have gone through the levels inside. -/
theorem parses_binary (op : BinOp) (hx : Parses Token.Is (Follows 2) (primary pf m e) ps x)
    (hy : Parses Token.Is (Follows 2) (primary pf m e) qs y) (hps : Opens ps) (hqs : Opens qs)
    (hm : 1 < m) :
    Parses Token.Is (Follows 8) (orExpr pf m e) (ps ++ opPiece op :: qs) (.binary op x y) := by
  have hm0 : 0 < m := by omega
  have hfollows := follows_level op
  have hpq : Opens (ps ++ opPiece op :: qs) := hps.append _
  have hx3 := parses_multiplicative hx hm0
  have hy3 := parses_multiplicative hy hm0
  have hx4 := parses_additive hx3 hm0
  have hy4 := parses_additive hy3 hm0
  -- the operator is no token of the levels inside, and it gives its expression
  cases op with
  | mul | div =>
    refine Parses.orExpr (parses_comparison (parses_additive ?_ hm0)) hpq hm0
    exact hx.chain_one hfollows (forall_is fun _ => rfl) (forall_is fun _ => rfl) hy
      (fun _ ht => ht.mono (by decide)) (fun _ ht => ht _ (by simp [guards])) hm
  | add | sub =>
    refine Parses.orExpr (parses_comparison ?_) hpq hm0
    exact hx3.chain_one hfollows (forall_is fun _ => rfl) (forall_is fun _ => rfl) hy3
      (fun _ ht => ht.mono (by decide)) (fun _ ht => ht _ (by simp [guards])) hm
  | eq | ne | lt | gt | le | ge =>
    refine Parses.orExpr ?_ hpq hm0
    refine hx4.bind hfollows (Parses.accept_yes (forall_is fun _ => rfl) (forall_is fun _ => ?_))
    exact (hy4.map _).mono fun _ ht => ht.mono (by decide)
  | isIn =>
    refine Parses.orExpr ?_ hpq hm0
    refine hx4.bind (fun t ht => (hfollows t ht).mono (by decide)) ?_
    refine Parses.accept_no (forall_is fun _ => rfl) ?_
    refine Parses.accept_yes (forall_is fun _ => rfl) fun _ _ => ?_
    exact (hy4.map _).mono fun _ ht => ht.mono (by decide)
  | and =>
    have hx6 := parses_notExpr (parses_comparison hx4) hps hm0
    have hy6 := parses_notExpr (parses_comparison hy4) hqs hm0
    refine parses_orExpr ?_ hm0
    exact hx6.chain_one hfollows (forall_is fun _ => rfl) (fun _ _ => rfl) hy6
      (fun _ ht => ht.mono (by decide)) (fun _ ht => ht _ (by simp [guards])) hm
  | or =>
    have hx7 := parses_andExpr (parses_notExpr (parses_comparison hx4) hps hm0) hm0
    have hy7 := parses_andExpr (parses_notExpr (parses_comparison hy4) hqs hm0) hm0
    exact hx7.chain_one hfollows (forall_is fun _ => rfl) (fun _ _ => rfl) hy7
      (fun _ ht => ht.mono (by decide)) (fun _ ht => ht _ (by simp [guards])) hm

end

/-! ## Lists in brackets -/

section
variable {q : Piece} {pss : List (List Piece)}

theorem intercalate_cons_cons (ps ps' : List Piece) :
    [q].intercalate (ps :: ps' :: pss) = ps ++ q :: [q].intercalate (ps' :: pss) := by
  simp [List.intercalate]

theorem length_le_intercalate {ps : List Piece} (h : ps ∈ pss) :
    ps.length ≤ ([q].intercalate pss).length := by
  induction pss with
  | nil => cases h
  | cons ps' pss ih =>
    cases pss with
    | nil =>
      rw [List.mem_singleton.mp h]
      simp
    | cons ps'' pss =>
      rw [intercalate_cons_cons, List.length_append, List.length_cons]
      rcases List.mem_cons.mp h with rfl | h
      · omega
      · exact Nat.le_trans (ih h) (by omega)

/-- There are no more items than pieces. -/
theorem length_le_length_intercalate (h : ∀ ps ∈ pss, ps ≠ []) :
    pss.length ≤ ([q].intercalate pss).length := by
  induction pss with
  | nil => exact Nat.zero_le _
  | cons ps pss ih =>
    have hps := List.length_pos_of_ne_nil (h ps List.mem_cons_self)
    cases pss with
    | nil => simpa using Nat.succ_le_of_lt hps
    | cons ps' pss =>
      have hrest := ih fun ps hps => h ps (List.mem_cons_of_mem _ hps)
      rw [intercalate_cons_cons, List.length_append, List.length_cons]
      simp only [List.length_cons] at *
      omega

end

section
variable {α : Type} {item : Nat → P α} {pss : List (List Piece)} {as : List α}
  {ps : List Piece} {a : α}

/-- Some pieces are read by an item, given a bound beyond their number. -/
def Reads (item : Nat → P α) (ps : List Piece) (a : α) : Prop :=
  Opens ps ∧ ∀ j, ps.length < j → Parses Token.Is (Follows 8) (item j) ps a

theorem Opens.ne_nil (h : Opens ps) : ps ≠ [] := by
  obtain ⟨q, qs, rfl, _⟩ := h
  exact List.cons_ne_nil q qs

theorem Opens.intercalate {q : Piece} (h : Opens ps) : Opens ([q].intercalate (ps :: pss)) := by
  cases pss with
  | nil => simpa using h
  | cons ps' pss =>
    rw [intercalate_cons_cons]
    exact h.append _

theorem holds_sign {s : String} : ∀ t : Token, t.Is (sign s) → (punct s).holds t = true :=
  forall_is fun _ => by simp [punct, punctIn, sign, Piece.type, Piece.val]

theorem parses_bracketed {l r : String} {m j : Nat} {G : Token → Prop}
    (h : List.Forall₂ (Reads item) pss as) (hr : r ∈ [")", "]", "\x7d"])
    (hm : ([sign ","].intercalate pss).length ≤ m) (hj : ([sign ","].intercalate pss).length < j) :
    Parses Token.Is G (bracketed m l r (item j))
      (sign l :: ([sign ","].intercalate pss ++ [sign r])) as := by
  have hclose : ∀ t : Token, t.Is (sign r) → Follows 8 t ∧ (punct ",").holds t = false := by
    refine forall_is fun pos => ?_
    rw [Follows, ← List.forall_iff_forall_mem]
    simp only [List.mem_cons, List.not_mem_nil, or_false] at hr
    rcases hr with rfl | rfl | rfl <;> repeat' constructor
  have hcomma : ∀ t : Token, t.Is (sign ",") → Follows 8 t ∧ (punct ",").holds t = true := by
    refine forall_is fun pos => ?_
    rw [Follows, ← List.forall_iff_forall_mem]
    repeat' constructor
  have hitems : List.Forall₂ (fun ps a => Parses Token.Is (Follows 8) (item j) ps a) pss as := by
    rw [List.forall₂_iff_get] at h ⊢
    refine ⟨h.1, fun i h1 h2 => (h.2 i h1 h2).2 j ?_⟩
    exact Nat.lt_of_le_of_lt (length_le_intercalate (List.get_mem pss ⟨i, h1⟩)) hj
  have hopens : ∀ ps ∈ pss, Opens ps := by
    intro ps hps
    obtain ⟨i, hi, rfl⟩ := List.getElem_of_mem hps
    exact ((List.forall₂_iff_get.mp h).2 i hi (h.length_eq ▸ hi)).1
  refine parses_expect holds_sign fun _ _ => ?_
  refine Parses.bind (F := fun t => t.Is (sign r)) (a := as) ?_ (fun _ ht => ht)
    (parses_expect holds_sign fun _ _ => parses_pure as)
  cases hitems with
  | nil => exact Parses.peekIf_yes holds_sign (parses_pure [])
  | @cons ps a pss as hp hrest =>
    have hopen : Opens ([sign ","].intercalate (ps :: pss)) :=
      (hopens ps List.mem_cons_self).intercalate
    refine Parses.peekIf_no (hopen.punct ?_) ?_
    · simp only [List.mem_cons, List.not_mem_nil, or_false] at hr
      rcases hr with rfl | rfl | rfl <;> decide
    · refine parses_sepBy (.cons hp hrest) (List.cons_ne_nil _ _) hcomma hclose ?_
      rw [← h.length_eq]
      exact Nat.le_trans (length_le_length_intercalate fun ps hps => (hopens ps hps).ne_nil) hm

end

/-! ## Numbers and keys -/

/-- The value of digits that are read without an error. -/
theorem foldl_of_foldlM_digit {ds : Bytes} {a n : Nat}
    (h : ds.foldlM (fun n d => (digit? d).map (n * 10 + ·)) a = some n) :
    (∀ d ∈ ds, isDigit d = true) ∧ ds.foldl (fun n d => n * 10 + (d.toNat - 0x30)) a = n := by
  induction ds generalizing a with
  | nil =>
    obtain rfl : a = n := by simpa using h
    exact ⟨by simp, rfl⟩
  | cons d ds ih =>
    by_cases hd : (0x30 : UInt8) ≤ d ∧ d ≤ 0x39
    · rw [List.foldlM_cons, digit?, if_pos hd] at h
      obtain ⟨hall, hfold⟩ := ih h
      refine ⟨?_, hfold⟩
      rintro d' (_ | ⟨_, hd'⟩)
      · simpa [isDigit] using hd
      · exact hall d' hd'
    · rw [List.foldlM_cons, digit?, if_neg hd] at h
      cases h

theorem parseDigits_formatInt {i : Int64} (hi : 0 ≤ i.toInt) :
    parseDigits (formatInt i) = some i.toInt.toNat := by
  obtain ⟨n, hn⟩ := Int.eq_ofNat_of_zero_le hi
  rw [formatInt, hn]
  exact parseDigits_repr n

theorem foldlM_formatInt {i : Int64} (hi : 0 ≤ i.toInt) :
    formatInt i ≠ [] ∧ (formatInt i).foldlM (fun n d => (digit? d).map (n * 10 + ·)) 0 =
      some i.toInt.toNat := by
  have h := parseDigits_formatInt hi
  rw [parseDigits] at h
  cases hds : formatInt i with
  | nil =>
    rw [hds] at h
    cases h
  | cons d ds =>
    rw [hds] at h
    exact ⟨List.cons_ne_nil d ds, h⟩

/-- A number is read back from its digits. -/
theorem intLiteral_formatInt {i : Int64} (hi : 0 ≤ i.toInt) : intLiteral (formatInt i) = i := by
  have hlt := i.toInt_lt
  rw [intLiteral, (foldl_of_foldlM_digit (foldlM_formatInt hi).2).2, Nat.min_eq_left (by omega)]
  refine Int64.toInt_inj.mp ?_
  rw [Int64.toInt_ofNat_of_lt (by omega)]
  omega

theorem valid_formatInt {i : Int64} (hi : 0 ≤ i.toInt) : (Piece.int (formatInt i)).Valid :=
  ⟨(foldlM_formatInt hi).1, (foldl_of_foldlM_digit (foldlM_formatInt hi).2).1⟩

theorem foldl_setKey {es : List (Bytes × Expr)} (h : (es.map Prod.fst).Nodup) :
    es.foldl setKey [] = es := by
  have hfold : ∀ done : List (Bytes × Expr), (∀ kv ∈ es, ∀ kv' ∈ done, kv'.1 ≠ kv.1) →
      es.foldl setKey done = done ++ es := by
    induction es with
    | nil => simp
    | cons kv es ih =>
      intro done hdone
      rw [List.map_cons, List.nodup_cons] at h
      have hkeep : done.filter (fun kv' => decide (kv'.1 ≠ kv.1)) = done :=
        List.filter_eq_self.mpr fun kv' hkv' => by simpa using hdone kv List.mem_cons_self kv' hkv'
      rw [List.foldl_cons, setKey, hkeep, ih h.2, List.append_assoc, List.singleton_append]
      intro kv' hkv' kv'' hkv''
      rcases List.mem_append.mp hkv'' with hold | hnew
      · exact hdone kv' (List.mem_cons_of_mem _ hkv') kv'' hold
      · rw [List.mem_singleton.mp hnew]
        exact fun heq => h.1 (heq ▸ List.mem_map_of_mem hkv')
  simpa using hfold [] (by simp)

/-! ## Expressions -/

section
variable {pf : Bytes → UInt64} {m j : Nat} {e : P Expr} {G : Token → Prop}

theorem parses_name (text : String) (k : Bytes) : Parses Token.Is G (name text) [.word k] k :=
  parses_expect (f := fun t => pure t.val) (forall_is fun _ => rfl)
    (forall_is fun _ => parses_pure k)

theorem parses_ident (text : String) (k : Bytes) : Parses Token.Is G (ident text) [.word k] k :=
  parses_expect (f := fun t => pure t.val) (forall_is fun _ => rfl)
    (forall_is fun _ => parses_pure k)

theorem parses_property {ps : List Piece} {x : Expr} (h : Parses Token.Is G e ps x) (k : Bytes) :
    Parses Token.Is G (property e) (.word k :: sign ":" :: ps) (k, x) := by
  have hrest : Parses Token.Is G (do let _ ← expectPunct ":"; return (k, ← e))
      (sign ":" :: ps) (k, x) :=
    parses_expect holds_sign fun _ _ => h.map (k, ·)
  exact (parses_name _ k).bind (F := fun _ => True) (fun _ _ => trivial) hrest

theorem primary_int (d : Bytes) :
    Parses Token.Is G (primary pf (m + 1) e) [.int d] (.int (intLiteral d)) :=
  Parses.accept_yes (forall_is fun _ => rfl) (forall_is fun _ => parses_pure _)

/-- An expression in parentheses. -/
theorem primary_paren {ps : List Piece} {x : Expr} {F : Token → Prop} (h : Parses Token.Is F e ps x)
    (hF : ∀ t : Token, t.Is (sign ")") → F t) :
    Parses Token.Is G (primary pf (m + 1) e) (sign "(" :: (ps ++ [sign ")"])) x := by
  repeat refine Parses.accept_no (forall_is fun _ => rfl) ?_
  refine Parses.accept_yes holds_sign fun _ _ => ?_
  exact h.bind hF (parses_expect holds_sign fun _ _ => parses_pure x)

theorem primary_list {pss : List (List Piece)} {xs : List Expr}
    (h : List.Forall₂ (Reads (expr pf)) pss xs) (hm : ([sign ","].intercalate pss).length ≤ m)
    (hj : ([sign ","].intercalate pss).length < j) :
    Parses Token.Is G (primary pf (m + 1) (expr pf j))
      (sign "[" :: ([sign ","].intercalate pss ++ [sign "]"])) (.list xs) := by
  repeat refine Parses.accept_no (forall_is fun _ => rfl) ?_
  exact Parses.peekIf_yes holds_sign ((parses_bracketed h (by simp) hm hj).map Expr.list)

theorem primary_map {pss : List (List Piece)} {es : List (Bytes × Expr)}
    (h : List.Forall₂ (Reads fun j => property (expr pf j)) pss es) (hes : (es.map Prod.fst).Nodup)
    (hm : ([sign ","].intercalate pss).length ≤ m) (hj : ([sign ","].intercalate pss).length < j) :
    Parses Token.Is G (primary pf (m + 1) (expr pf j))
      (sign "\x7b" :: ([sign ","].intercalate pss ++ [sign "\x7d"])) (.map es) := by
  repeat refine Parses.accept_no (forall_is fun _ => rfl) ?_
  refine Parses.peekIf_no (forall_is fun _ => rfl) (Parses.peekIf_yes holds_sign ?_)
  have hprops := (parses_bracketed (l := "\x7b") (r := "\x7d") (G := G) h (by simp) hm hj).map
      fun es =>
    es.foldl setKey []
  rw [foldl_setKey hes] at hprops
  exact hprops.map Expr.map

theorem primary_call {a b : Bytes} {pss : List (List Piece)} {xs : List Expr}
    (h : List.Forall₂ (Reads (expr pf)) pss xs) (hm : ([sign ","].intercalate pss).length ≤ m)
    (hj : ([sign ","].intercalate pss).length < j) :
    Parses Token.Is G (primary pf (m + 1) (expr pf j))
      (.word a :: sign "." :: .word b :: sign "(" :: ([sign ","].intercalate pss ++ [sign ")"]))
      (.call (a ++ ascii "." ++ b) xs) := by
  repeat refine Parses.accept_no (forall_is fun _ => rfl) ?_
  refine Parses.accept_yes (forall_is fun _ => rfl) (forall_is fun _ => ?_)
  refine Parses.accept_yes holds_sign fun _ _ => ?_
  refine (parses_ident _ b).bind (F := fun _ => True) (fun _ _ => trivial) ?_
  exact Parses.peekIf_yes holds_sign ((parses_bracketed h (by simp) hm hj).map (Expr.call _))

theorem primary_prop (v p : Bytes) :
    Parses Token.Is (Follows 2) (primary pf (m + 1) e) [.word v, sign ".", .word p]
      (.prop v p) := by
  repeat refine Parses.accept_no (forall_is fun _ => rfl) ?_
  refine Parses.accept_yes (forall_is fun _ => rfl) (forall_is fun _ => ?_)
  refine Parses.accept_yes holds_sign fun _ _ => ?_
  refine (parses_ident _ p).bind (F := fun _ => True) (fun _ _ => trivial) ?_
  exact Parses.peekIf_no (fun _ ht => ht _ (by simp [guards])) (parses_pure _)

theorem primary_var (v : Bytes) :
    Parses Token.Is (Follows 2) (primary pf (m + 1) e) [.word v] (.var v) := by
  repeat refine Parses.accept_no (forall_is fun _ => rfl) ?_
  refine Parses.accept_yes (forall_is fun _ => rfl) (forall_is fun _ => ?_)
  exact parses_stop (fun _ ht => ht _ (by simp [guards])) _

theorem primary_neg {ps : List Piece} {x : Expr} (h : Parses Token.Is G (primary pf m e) ps x) :
    Parses Token.Is G (primary pf (m + 1) e) (sign "-" :: ps) (.unary .neg x) := by
  repeat refine Parses.accept_no (forall_is fun _ => rfl) ?_
  repeat refine Parses.peekIf_no (forall_is fun _ => rfl) ?_
  exact Parses.accept_yes holds_sign fun _ _ => h.map (Expr.unary .neg)

/-- A literal that is one token. -/
theorem primary_atom {x : Expr} (hx : (∃ s, x = .str s) ∨ (∃ b, x = .bool b) ∨ x = .null ∨
    ∃ n, x = .param n) :
    Parses Token.Is G (primary pf (m + 1) e) (spell x) x := by
  rcases hx with ⟨s, rfl⟩ | ⟨_ | _, rfl⟩ | rfl | ⟨n, rfl⟩ <;>
  · repeat refine Parses.accept_no (forall_is fun _ => rfl) ?_
    exact Parses.accept_yes (forall_is fun _ => rfl) (forall_is fun _ => parses_pure _)

def Primary (pf : Bytes → UInt64) (ps : List Piece) (x : Expr) : Prop :=
  ∀ m j, ps.length ≤ m + 1 → ps.length ≤ j →
    Parses Token.Is (Follows 2) (primary pf (m + 1) (expr pf j)) ps x

/-- What a primary reads, an expression reads. -/
theorem Primary.reads {ps : List Piece} {x : Expr} (h : Primary pf ps x) (hps : Opens ps) :
    Reads (expr pf) ps x := by
  refine ⟨hps, fun j hj => ?_⟩
  obtain ⟨j, rfl⟩ : ∃ k, j = k + 1 := ⟨j - 1, by omega⟩
  exact parses_operand (h j j (by omega) (by omega)) hps (Nat.succ_pos j)

theorem Primary.not {ps : List Piece} {x : Expr} (h : Primary pf ps x) (hps : Opens ps) :
    Primary pf (sign "(" :: word "NOT" :: (ps ++ [sign ")"])) (.unary .not x) := by
  intro m j _ hj
  simp only [List.length_cons, List.length_append, List.length_nil] at hj
  obtain ⟨j, rfl⟩ : ∃ k, j = k + 1 := ⟨j - 1, by omega⟩
  exact primary_paren (parses_not (h j j (by omega) (by omega)) hps (by omega)) follows_close

theorem Primary.neg {ps : List Piece} {x : Expr} (h : Primary pf ps x) :
    Primary pf (sign "(" :: sign "-" :: (ps ++ [sign ")"])) (.unary .neg x) := by
  intro m j _ hj
  simp only [List.length_cons, List.length_append, List.length_nil] at hj
  obtain ⟨j, rfl⟩ : ∃ k, j = k + 2 := ⟨j - 2, by omega⟩
  have hneg : Parses Token.Is (Follows 2) (primary pf (j + 2) (expr pf (j + 1))) (sign "-" :: ps)
      (.unary .neg x) := primary_neg (h j (j + 1) (by omega) (by omega))
  exact primary_paren (parses_operand hneg ⟨_, _, rfl, rfl⟩ (by omega)) follows_close

/-- A binary operator between two primaries. -/
theorem Primary.binary (op : BinOp) {ps qs : List Piece} {x y : Expr} (hx : Primary pf ps x)
    (hy : Primary pf qs y) (hps : Opens ps) (hqs : Opens qs) :
    Primary pf (sign "(" :: (ps ++ opPiece op :: qs ++ [sign ")"])) (.binary op x y) := by
  intro m j _ hj
  simp only [List.length_cons, List.length_append, List.length_nil] at hj
  have hpos := List.length_pos_of_ne_nil hps.ne_nil
  obtain ⟨j, rfl⟩ : ∃ k, j = k + 1 := ⟨j - 1, by omega⟩
  exact primary_paren (parses_binary op (hx j j (by omega) (by omega))
    (hy j j (by omega) (by omega))
    hps hqs (by omega)) follows_close

end

mutual

/-- An expression is read as it is spelled. -/
theorem primary_spell (pf : Bytes → UInt64) : ∀ x, plain x = true → Primary pf (spell x) x
  | .int i, hx => by
    intro m j _ _
    have h : Parses Token.Is (Follows 2) (primary pf (m + 1) (expr pf j)) [.int (formatInt i)] _ :=
      primary_int (formatInt i)
    rwa [intLiteral_formatInt (by simpa [plain] using hx)] at h
  | .float _, hx => by simp [plain] at hx
  | .str s, _ => fun _ _ _ _ => primary_atom (.inl ⟨s, rfl⟩)
  | .bool b, _ => fun _ _ _ _ => primary_atom (.inr (.inl ⟨b, rfl⟩))
  | .null, _ => fun _ _ _ _ => primary_atom (.inr (.inr (.inl rfl)))
  | .param n, _ => fun _ _ _ _ => primary_atom (.inr (.inr (.inr ⟨n, rfl⟩)))
  | .var v, _ => fun _ _ _ _ => primary_var v
  | .prop v p, _ => fun _ _ _ _ => primary_prop v p
  | .list items, hx => by
    intro m j hm hj
    simp only [spell, List.length_cons, List.length_append, List.length_nil] at hm hj ⊢
    exact primary_list (reads_items pf items (by simpa [plain] using hx)) (by omega) (by omega)
  | .map entries, hx => by
    intro m j hm hj
    simp only [plain, Bool.and_eq_true, decide_eq_true_eq] at hx
    simp only [spell, List.length_cons, List.length_append, List.length_nil] at hm hj ⊢
    exact primary_map (reads_entries pf entries hx.2) hx.1 (by omega) (by omega)
  | .call name args, hx => by
    intro m j hm hj
    simp only [plain, Bool.and_eq_true, decide_eq_true_eq] at hx
    simp only [spell, List.length_cons, List.length_append, List.length_nil] at hm hj ⊢
    have h := primary_call (m := m) (j := j) (G := Follows 2) (a := (callNames name).1)
      (b := (callNames name).2) (reads_items pf args hx.2) (by omega) (by omega)
    rwa [← hx.1.2] at h
  | .unary .not e, hx => by
    rw [plain] at hx
    exact (primary_spell pf e hx).not (opens_spell hx)
  | .unary .neg e, hx => by
    rw [plain] at hx
    exact (primary_spell pf e hx).neg
  | .binary op l r, hx => by
    simp only [plain, Bool.and_eq_true] at hx
    exact .binary op (primary_spell pf l hx.1) (primary_spell pf r hx.2) (opens_spell hx.1)
      (opens_spell hx.2)

theorem reads_items (pf : Bytes → UInt64) : ∀ es, plainItems es = true →
    List.Forall₂ (Reads (expr pf)) (spellItems es) es
  | [], _ => .nil
  | e :: es, h => by
    simp only [plainItems, Bool.and_eq_true] at h
    exact .cons ((primary_spell pf e h.1).reads (opens_spell h.1)) (reads_items pf es h.2)

theorem reads_entries (pf : Bytes → UInt64) : ∀ es, plainEntries es = true →
    List.Forall₂ (Reads fun j => property (expr pf j)) (spellEntries es) es
  | [], _ => .nil
  | (k, e) :: es, h => by
    simp only [plainEntries, Bool.and_eq_true] at h
    have he := (primary_spell pf e h.1.2).reads (opens_spell h.1.2)
    refine .cons ⟨⟨_, _, rfl, rfl⟩, fun j hj => parses_property (he.2 j ?_) k⟩
      (reads_entries pf es h.2)
    simp only [List.length_cons] at hj
    omega

end

/-! ## Queries -/

theorem valid_intercalate {pss : List (List Piece)} (h : ∀ ps ∈ pss, ∀ p ∈ ps, p.Valid) :
    ∀ p ∈ [sign ","].intercalate pss, p.Valid := by
  have hcomma : (sign ",").Valid := show ascii "," ∈ puncts by decide
  induction pss with
  | nil => simp
  | cons ps pss ih =>
    rw [List.forall_mem_cons] at h
    cases pss with
    | nil => simpa using h.1
    | cons ps' pss =>
      rw [intercalate_cons_cons, List.forall_mem_append, List.forall_mem_cons]
      exact ⟨h.1, hcomma, ih h.2⟩

/-- Items between a left and a right piece. -/
theorem valid_between {l r : Piece} {ps : List Piece} (hl : l.Valid) (hr : r.Valid)
    (h : ∀ p ∈ ps, p.Valid) : ∀ p ∈ l :: (ps ++ [r]), p.Valid := by
  rw [List.forall_mem_cons, List.forall_mem_append, List.forall_mem_singleton]
  exact ⟨hl, h, hr⟩

theorem valid_sign {s : String} (h : ascii s ∈ puncts) : (sign s).Valid := h

theorem valid_word {s : String} (h : ascii s ∈ keywords) : (word s).Valid := h

theorem valid_opPiece (op : BinOp) : (opPiece op).Valid := by
  cases op <;> first | exact valid_sign (by decide) | exact valid_word (by decide)

mutual

/-- Every piece of an expression's spelling is valid. -/
theorem valid_spell : ∀ x, plain x = true → ∀ p ∈ spell x, p.Valid
  | .int i, hx => by simpa [spell] using valid_formatInt (by simpa [plain] using hx)
  | .float _, hx => by simp [plain] at hx
  | .str s, _ => by simp [spell, Piece.Valid]
  | .bool true, _ | .bool false, _ | .null, _ => by
    simpa [spell] using valid_word (by decide)
  | .param n, hx => by simpa [spell, Piece.Valid, plain] using hx
  | .var v, hx => by simpa [spell, Piece.Valid, plain] using hx
  | .prop v p, hx => by
    simp only [plain, Bool.and_eq_true] at hx
    rw [spell, List.forall_mem_cons, List.forall_mem_cons, List.forall_mem_singleton]
    exact ⟨hx.1, valid_sign (by decide), hx.2⟩
  | .list items, hx => by
    rw [plain] at hx
    rw [spell]
    exact valid_between (valid_sign (by decide)) (valid_sign (by decide))
      (valid_intercalate (valid_items items hx))
  | .map entries, hx => by
    simp only [plain, Bool.and_eq_true] at hx
    rw [spell]
    exact valid_between (valid_sign (by decide)) (valid_sign (by decide))
      (valid_intercalate (valid_entries entries hx.2))
  | .call name args, hx => by
    simp only [plain, Bool.and_eq_true] at hx
    have hargs := valid_between (valid_sign (s := "(") (by decide))
        (valid_sign (s := ")") (by decide))
      (valid_intercalate (valid_items args hx.2))
    rw [spell, List.forall_mem_cons, List.forall_mem_cons, List.forall_mem_cons]
    exact ⟨hx.1.1.1, valid_sign (by decide), hx.1.1.2, hargs⟩
  | .unary .not e, hx => by
    rw [plain] at hx
    rw [spell, ← List.cons_append]
    refine valid_between (valid_sign (by decide)) (valid_sign (by decide)) ?_
    exact List.forall_mem_cons.mpr ⟨valid_word (by decide), valid_spell e hx⟩
  | .unary .neg e, hx => by
    rw [plain] at hx
    rw [spell, ← List.cons_append]
    refine valid_between (valid_sign (by decide)) (valid_sign (by decide)) ?_
    exact List.forall_mem_cons.mpr ⟨valid_sign (by decide), valid_spell e hx⟩
  | .binary op l r, hx => by
    simp only [plain, Bool.and_eq_true] at hx
    rw [spell]
    refine valid_between (valid_sign (by decide)) (valid_sign (by decide)) ?_
    rw [List.forall_mem_append, List.forall_mem_cons]
    exact ⟨valid_spell l hx.1, valid_opPiece op, valid_spell r hx.2⟩

theorem valid_items : ∀ es, plainItems es = true → ∀ ps ∈ spellItems es, ∀ p ∈ ps, p.Valid
  | [], _ => by simp [spellItems]
  | e :: es, h => by
    simp only [plainItems, Bool.and_eq_true] at h
    rw [spellItems, List.forall_mem_cons]
    exact ⟨valid_spell e h.1, valid_items es h.2⟩

theorem valid_entries : ∀ es, plainEntries es = true → ∀ ps ∈ spellEntries es, ∀ p ∈ ps, p.Valid
  | [], _ => by simp [spellEntries]
  | (k, e) :: es, h => by
    simp only [plainEntries, Bool.and_eq_true] at h
    rw [spellEntries, List.forall_mem_cons, List.forall_mem_cons, List.forall_mem_cons]
    exact ⟨⟨h.1.1, valid_sign (by decide), valid_spell e h.1.2⟩, valid_entries es h.2⟩

end

def returning (x : Expr) : List Clause := [.returnClause { items := [{ expr := x }] }]

/-- A query that returns one expression. -/
theorem parses_returning {pf : Bytes → UInt64} {ps : List Piece} {x : Expr}
    (h : Reads (expr pf) ps x)
    {m : Nat} (hm : ps.length + 1 < m) :
    Parses Token.Is (fun t => isEOF t = true) (query pf m) (word "RETURN" :: ps) (returning x) := by
  have hend {c : Test isEOF} (t : Token) (ht : isEOF t = true) : c.holds t = false := by
    cases hc : c.holds t with
    | false => rfl
    | true => rw [c.inside t hc] at ht; cases ht
  have hexpr := h.2 m (by omega)
  have hitem : Parses Token.Is (fun t => isEOF t = true) (returnItem pf m) ps { expr := x } :=
    hexpr.last (fun t ht c _ => hend t ht)
      ((parses_stop hend none).last (fun _ ht => ht) (parses_pure _))
  obtain ⟨m, rfl⟩ : ∃ k, m = k + 2 := ⟨m - 2, by omega⟩
  have hproj : Parses Token.Is (fun t => isEOF t = true) (projection pf (m + 2)) ps
      { items := [{ expr := x }] } := by
    have hdistinct : Parses Token.Is (Front Token.Is (fun t => isEOF t = true) ps)
        (optionally "DISTINCT" (pure ())) [] none := parses_stop (h.1.keyword (by decide)) none
    refine hdistinct.bind (fun _ ht => ht) ?_
    refine (parses_sepBy_one hitem (fun _ ht => ht) hend).last (fun _ ht => ht) ?_
    refine (parses_stop hend none).last (fun _ ht => ht) ?_
    refine (parses_stop hend none).last (fun _ ht => ht) ?_
    exact (parses_stop hend none).last (fun _ ht => ht) (parses_pure _)
  have hclause : Parses Token.Is (fun t => isEOF t = true) (clause pf (m + 2)) (word "RETURN" :: ps)
      (.returnClause { items := [{ expr := x }] }) := by
    repeat refine Parses.accept_no (forall_is fun _ => rfl) ?_
    exact Parses.accept_yes (forall_is fun _ => rfl) fun _ _ => hproj.map Clause.returnClause
  have hmany : Parses Token.Is (fun t => isEOF t = true) (many (m + 2) notEOF (clause pf (m + 2)))
      (word "RETURN" :: ps) (returning x) := by
    refine Parses.peekIf_yes (forall_is fun _ => rfl) (hclause.last (fun _ ht => ht) ?_)
    exact (Parses.peekIf_no hend (parses_pure [])).map _
  exact hmany.last (fun _ ht => ht) (parses_pure _)

/-- The text of such a query is parsed into it. -/
theorem parse_writes {pf : Bytes → UInt64} {ps : List Piece} {x : Expr} (h : Reads (expr pf) ps x)
    {text : Bytes} (htext : Writes (word "RETURN" :: ps) text) :
    ∃ rest, parse pf text = .ok (returning x) rest := by
  obtain ⟨ts, t, hlex, hts, ht⟩ := lex_writes htext
  have hlen := hts.length_eq
  rw [List.length_cons] at hlen
  refine ⟨[t], ?_⟩
  rw [parse, hlex]
  refine parses_returning h ?_ ts t [] hts (by simp [isEOF, ht])
  simp only [List.length_append, List.length_cons, List.length_nil]
  omega

/-- An expression comes back from any text that writes its pieces behind `RETURN`, and from the text
with one blank behind each of them. -/
theorem parse_spell (pf : Bytes → UInt64) {x : Expr} (hx : plain x = true) :
    (∀ text, Writes (word "RETURN" :: spell x) text → ∃ rest, parse pf text =
      .ok (returning x) rest) ∧
      ∃ rest, parse pf (render (word "RETURN" :: spell x)) = .ok (returning x) rest := by
  have hreads := (primary_spell pf x hx).reads (opens_spell hx)
  refine ⟨fun text htext => parse_writes hreads htext, parse_writes hreads (writes_render ?_)⟩
  exact List.forall_mem_cons.mpr ⟨valid_word (by decide), valid_spell x hx⟩

/-- The text `RETURN ( ( - 1 ) <= kv . get ( 'it\'s' , [ ] ) )`. -/
theorem parse_spell_call :
    let x : Expr := .binary .le (.unary .neg (.int 1))
      (.call (ascii "kv.get") [.str (ascii "it's"), .list []])
    plain x = true ∧ ∃ rest, parse (fun _ => 0) (render (word "RETURN" :: spell x)) =
      .ok (returning x) rest :=
  ⟨by decide +kernel, (parse_spell _ (by decide +kernel)).2⟩

end WaveSpan.Cypher
