/-
WaveSpan.Cypher.Parser — from the text of a query to its clauses
(`internal/cypher/parser/lexer.go`, `parser.go`).

The lexer works on bytes: a byte of a name is taken for the Latin-1 letter it is. The parser
descends by the functions of the source, each under its name, over the tokens still to come. It
looks at the next token and takes it, and a look past the last one is a crash.

What a float literal denotes is left open (`parseFloat`). An integer literal beyond 64 bits denotes
the largest integer: the error of `strconv.ParseInt` is not looked at.
-/
import WaveSpan.Lib.Descent
import WaveSpan.Cypher.Ast

namespace WaveSpan.Cypher

open WaveSpan.Wire WaveSpan.Descent
open WaveSpan.Collections (ascii)

/-! ## Tokens -/

inductive TokenType where
  | eof | keyword | ident | int | float | string | param | punct
  deriving DecidableEq, Repr

structure Token where
  type : TokenType
  val : Bytes
  pos : Nat
  deriving DecidableEq, Repr

/-- An error: its text, and the token or position it is about. -/
structure ParseErr where
  text : String
  val : Bytes := []
  pos : Nat := 0
  deriving DecidableEq, Repr

def keywords : List Bytes :=
  ["MATCH", "OPTIONAL", "WHERE", "CREATE", "SET", "DELETE", "RETURN", "WITH", "UNWIND", "AS",
    "ORDER", "BY", "SKIP", "LIMIT", "DISTINCT", "AND", "OR", "NOT", "NULL", "TRUE", "FALSE", "ASC",
    "DESC", "IN", "CALL", "YIELD", "MERGE", "REMOVE", "DETACH", "LOAD"].map ascii

/-! ## The lexer -/

def isDigit (c : UInt8) : Bool := 0x30 ≤ c && c ≤ 0x39

def isLetter (c : UInt8) : Bool :=
  (0x41 ≤ c && c ≤ 0x5a) || (0x61 ≤ c && c ≤ 0x7a) || c = 0xaa || c = 0xb5 || c = 0xba ||
    (0xc0 ≤ c && c ≠ 0xd7 && c ≠ 0xf7)

def isIdentStart (c : UInt8) : Bool := isLetter c || c = 0x5f

def isIdentChar (c : UInt8) : Bool := isLetter c || isDigit c || c = 0x5f

/-- `strings.ToUpper`, as far as a keyword can come of it. -/
def toUpper (word : Bytes) : Bytes := word.map fun c => if 0x61 ≤ c && c ≤ 0x7a then c - 0x20 else c

/-- The text up to the closing quote and the bytes up to behind it. A backslash stands for the byte
after it. -/
def lexString (quote : UInt8) : Bytes → Option (Bytes × Nat)
  | [] => none
  | [c] => if c = quote then some ([], 1) else none
  | c :: d :: rest =>
    if c = 0x5c then (lexString quote rest).map fun r => (d :: r.1, r.2 + 2)
    else if c = quote then some ([], 1)
    else (lexString quote (d :: rest)).map fun r => (c :: r.1, r.2 + 1)

def multiPunct : List Bytes := ["<>", "<=", ">=", "->", "<-", "=~"].map ascii

def lexPunct (input : Bytes) : Option Bytes :=
  match multiPunct.find? (·.isPrefixOf input) with
  | some op => some op
  | none => (input.take 1).head?.bind fun c =>
    if c ∈ ascii "()[]\x7b\x7d:,.-><=+*/|" then some [c] else none

/-- The lexeme at the front of an input, unless it is a blank, and the number of its bytes. -/
def lexeme (i : Nat) (c : UInt8) (rest : Bytes) :
    Except ParseErr (Option (TokenType × Bytes) × Nat) :=
  if c = 0x20 || c = 0x09 || c = 0x0a || c = 0x0d then .ok (none, 1)
  else if c = 0x27 || c = 0x22 then
    match lexString c rest with
    | none => .error { text := "unterminated string", pos := i }
    | some (s, k) => .ok (some (.string, s), k + 1)
  else if c = 0x24 then
    let name := rest.takeWhile isIdentChar
    .ok (some (.param, name), name.length + 1)
  else if isDigit c || (c = 0x2e && (rest.head?.map isDigit).getD false) then
    let num := (c :: rest).takeWhile fun c => isDigit c || c = 0x2e
    .ok (some (if 0x2e ∈ num then .float else .int, num), num.length)
  else if isIdentStart c then
    let word := (c :: rest).takeWhile isIdentChar
    .ok (some (if toUpper word ∈ keywords then (.keyword, toUpper word) else (.ident, word)),
      word.length)
  else
    match lexPunct (c :: rest) with
    | none => .error { text := "unexpected character", val := [c], pos := i }
    | some op => .ok (some (.punct, op), op.length)

/-- The tokens of an input from position `i` on; nothing if the bound is reached. -/
def lexFrom : Nat → Nat → Bytes → Option (Except ParseErr (List Token))
  | 0, _, _ => none
  | _ + 1, i, [] => some (.ok [⟨.eof, [], i⟩])
  | m + 1, i, c :: rest =>
    match lexeme i c rest with
    | .error err => some (.error err)
    | .ok (l, k) =>
      let toks := (l.map fun tv => ⟨tv.1, tv.2, i⟩ : Option Token).toList
      (lexFrom m (i + k) (rest.drop (k - 1))).map fun r => r.map (toks ++ ·)

def lex (input : Bytes) : Option (Except ParseErr (List Token)) :=
    lexFrom (input.length + 1) 0 input

/-! ## Looking at tokens -/

abbrev P (α : Type) := Parser ParseErr Token α

def isEOF (t : Token) : Bool := t.type = .eof

def ofType (ty : TokenType) (h : ty ≠ .eof) : Test isEOF where
  holds t := t.type = ty
  inside t ht := by
    have hty : t.type = ty := by simpa using ht
    simpa [isEOF, hty] using h

def keyword (s : String) : Test isEOF where
  holds t := t.type = .keyword && t.val = ascii s
  inside t ht := by
    have hty : t.type = .keyword := by simp at ht; exact ht.1
    simp [isEOF, hty]

def punctIn (texts : List Bytes) : Test isEOF where
  holds t := t.type = .punct && t.val ∈ texts
  inside t ht := by
    have hty : t.type = .punct := by simp at ht; exact ht.1
    simp [isEOF, hty]

def punct (s : String) : Test isEOF := punctIn [ascii s]

def identT : Test isEOF := ofType .ident (by decide)

/-- Names that may be keywords: labels, types and property keys. -/
def nameT : Test isEOF where
  holds t := t.type = .ident || t.type = .keyword
  inside t ht := by
    have hty : t.type = .ident ∨ t.type = .keyword := by simpa using ht
    rcases hty with h | h <;> simp [isEOF, h]

def notEOF : Test isEOF where
  holds t := !isEOF t
  inside t ht := by simpa using ht

def expectKeyword (s : String) : P Token :=
  expect (keyword s) fun t => { text := "expected " ++ s, val := t.val, pos := t.pos }

def expectPunct (s : String) : P Token :=
  expect (punct s) fun t => { text := "expected " ++ s, val := t.val, pos := t.pos }

def ident (text : String) : P Bytes := Token.val <$> expect identT fun t => { text, val := t.val }

def name (text : String) : P Bytes := Token.val <$> expect nameT fun _ => { text }

def optionally {α : Type} (s : String) (part : P α) : P (Option α) :=
  accept (keyword s) (fun _ => some <$> part) (pure none)

/-! ## Expressions -/

/-- `strconv.ParseInt` of digits, its error left aside. -/
def intLiteral (digits : Bytes) : Int64 :=
  Int64.ofNat (min (digits.foldl (fun n d => n * 10 + (d.toNat - 0x30)) 0) (2 ^ 63 - 1))

def compareOps : List (Bytes × BinOp) :=
  [(ascii "=", .eq), (ascii "<>", .ne), (ascii "<", .lt), (ascii ">", .gt), (ascii "<=", .le),
    (ascii ">=", .ge)]

def compareOp (t : Token) : BinOp := (compareOps.lookup t.val).getD .eq

def bracketed {α : Type} (m : Nat) (left right : String) (item : P α) : P (List α) := do
  let _ ← expectPunct left
  let items ← peekIf (punct right) (pure []) (sepBy m (punct ",") item)
  let _ ← expectPunct right
  return items

def setKey (props : List (Bytes × Expr)) (kv : Bytes × Expr) : List (Bytes × Expr) :=
  props.filter (·.1 ≠ kv.1) ++ [kv]

section
variable (parseFloat : Bytes → UInt64)

def property (expr : P Expr) : P (Bytes × Expr) := do
  let key ← name "expected property key"
  let _ ← expectPunct ":"
  return (key, ← expr)

def properties (m : Nat) (expr : P Expr) : P (List (Bytes × Expr)) := do
  return (← bracketed m "\x7b" "\x7d" (property expr)).foldl setKey []

def primary : Nat → P Expr → P Expr
  | 0, _ => stuck
  | m + 1, expr =>
    accept (ofType .int (by decide)) (fun t => pure (.int (intLiteral t.val))) <|
    accept (ofType .float (by decide)) (fun t => pure (.float (parseFloat t.val))) <|
    accept (ofType .string (by decide)) (fun t => pure (.str t.val)) <|
    accept (ofType .param (by decide)) (fun t => pure (.param t.val)) <|
    accept (keyword "TRUE") (fun _ => pure (.bool true)) <|
    accept (keyword "FALSE") (fun _ => pure (.bool false)) <|
    accept (keyword "NULL") (fun _ => pure .null) <|
    accept identT (fun t =>
      accept (punct ".") (fun _ => do
        let p ← ident "expected property name after '.'"
        peekIf (punct "(") (.call (t.val ++ ascii "." ++ p) <$> bracketed m "(" ")" expr)
          (pure (.prop t.val p)))
        (pure (.var t.val))) <|
    accept (punct "(") (fun _ => do
      let e ← expr
      let _ ← expectPunct ")"
      return e) <|
    peekIf (punct "[") (.list <$> bracketed m "[" "]" expr) <|
    peekIf (punct "\x7b") (.map <$> properties m expr) <|
    accept (punct "-") (fun _ => .unary .neg <$> primary m expr) do
      let t ← peek
      fail (if t.type = .keyword then { text := "unexpected keyword in expression", val := t.val }
        else { text := "unexpected token in expression", val := t.val, pos := t.pos })

def multiplicative (m : Nat) (expr : P Expr) : P Expr := do
  let left ← primary parseFloat m expr
  chain m (punctIn [ascii "*", ascii "/"])
    (fun l t r => .binary (if t.val = ascii "*" then .mul else .div) l r)
    (primary parseFloat m expr) left

def additive (m : Nat) (expr : P Expr) : P Expr := do
  let left ← multiplicative parseFloat m expr
  chain m (punctIn [ascii "+", ascii "-"])
    (fun l t r => .binary (if t.val = ascii "+" then .add else .sub) l r)
    (multiplicative parseFloat m expr) left

def comparison (m : Nat) (expr : P Expr) : P Expr := do
  let left ← additive parseFloat m expr
  accept (punctIn (compareOps.map Prod.fst))
    (fun t => .binary (compareOp t) left <$> additive parseFloat m expr) <|
    accept (keyword "IN") (fun _ => .binary .isIn left <$> additive parseFloat m expr) (pure left)

def notExpr (m : Nat) (expr : P Expr) : Nat → P Expr
  | 0 => stuck
  | k + 1 =>
    accept (keyword "NOT") (fun _ => .unary .not <$> notExpr m expr k)
      (comparison parseFloat m expr)

def andExpr (m : Nat) (expr : P Expr) : P Expr := do
  let left ← notExpr parseFloat m expr m
  chain m (keyword "AND") (fun l _ r => .binary .and l r) (notExpr parseFloat m expr m) left

def orExpr (m : Nat) (expr : P Expr) : P Expr := do
  let left ← andExpr parseFloat m expr
  chain m (keyword "OR") (fun l _ r => .binary .or l r) (andExpr parseFloat m expr) left

def expr : Nat → P Expr
  | 0 => stuck
  | m + 1 => orExpr parseFloat (m + 1) (expr m)

/-! ## Patterns -/

variable (m : Nat)

def nodePattern : P NodePattern := do
  let _ ← expectPunct "("
  let var ← accept identT (fun t => pure t.val) (pure [])
  let labels ← many m (punct ":") (do let _ ← expectPunct ":"; name "expected label after ':'")
  let props ← peekIf (punct "\x7b") (properties m (expr parseFloat m)) (pure [])
  let _ ← expectPunct ")"
  return { var := var, labels := labels, properties := props }

def relDetail : P RelPattern := do
  let var ← accept identT (fun t => pure t.val) (pure [])
  let types ← accept (punct ":")
    (fun _ => sepBy m (punct "|") (name "expected relationship type after ':'")) (pure [])
  let props ← peekIf (punct "\x7b") (properties m (expr parseFloat m)) (pure [])
  let _ ← expectPunct "]"
  return { var := var, types := types, properties := props }

def relPattern : P RelPattern := do
  let leftArrow ← accept (punct "<-") (fun _ => pure true)
      (do let _ ← expectPunct "-"; return false)
  let rel ← accept (punct "[") (fun _ => relDetail parseFloat m) (pure {})
  let rightArrow ← accept (punct "->") (fun _ => pure true)
      (do let _ ← expectPunct "-"; return false)
  return { rel with direction :=
    if leftArrow && !rightArrow then .into else if !leftArrow && rightArrow then .out else .both }

def patternPart : P PatternPart := do
  let node ← nodePattern parseFloat m
  let hops ← many m (punctIn [ascii "-", ascii "<-"]) do
    let rel ← relPattern parseFloat m
    return (rel, ← nodePattern parseFloat m)
  return { node := node, hops := hops }

def patternList : P (List PatternPart) := sepBy m (punct ",") (patternPart parseFloat m)

/-! ## Clauses -/

def matchClause (isOptional : Bool) : P Clause := do
  let patterns ← patternList parseFloat m
  let filter ← optionally "WHERE" (expr parseFloat m)
  return .matchClause { isOptional := isOptional, patterns := patterns, filter := filter }

def setItemOf : P SetItem := do
  let v ← ident "SET expects a variable"
  let _ ← expect (punct ".") fun _ => { text := "SET supports property assignment" }
  let p ← ident "SET expects a property name"
  let _ ← expectPunct "="
  return { var := v, property := p, value := ← expr parseFloat m }

def callClause : P Clause := do
  let first ← ident "CALL expects a procedure name"
  let more ← many m (punct ".") (do let _ ← expectPunct "."; ident "malformed procedure name")
  let procedure := more.foldl (fun n x => n ++ ascii "." ++ x) first
  if !(ascii "vector.").isPrefixOf procedure && !(ascii "kv.").isPrefixOf procedure then
    fail { text := "procedure is unsupported in v1", val := procedure }
  else do
    let args ← bracketed m "(" ")" (expr parseFloat m)
    let yields ← optionally "YIELD" (sepBy m (punct ",") (ident "YIELD expects a column name"))
    return .callClause procedure args (yields.getD [])

def unwindClause : P Clause := do
  let e ← expr parseFloat m
  let _ ← expectKeyword "AS"
  return .unwindClause e (← ident "UNWIND ... AS expects a variable")

def returnItem : P ReturnItem := do
  let e ← expr parseFloat m
  let aliasName ← optionally "AS" (ident "AS expects an alias")
  return { expr := e, aliasName := aliasName.getD [] }

def sortItem : P SortItem := do
  let e ← expr parseFloat m
  let desc ← accept (keyword "DESC") (fun _ => pure true)
    (accept (keyword "ASC") (fun _ => pure false) (pure false))
  return { expr := e, desc := desc }

/-- What `RETURN` and `WITH` share: `returnItems` and `orderSkipLimit`. -/
def projection : P Projection := do
  let distinct ← optionally "DISTINCT" (pure ())
  let items ← sepBy m (punct ",") (returnItem parseFloat m)
  let orderBy ← optionally "ORDER" do
    let _ ← expectKeyword "BY"
    sepBy m (punct ",") (sortItem parseFloat m)
  let skip ← optionally "SKIP" (expr parseFloat m)
  let limit ← optionally "LIMIT" (expr parseFloat m)
  return { distinct := distinct.isSome, items := items, orderBy := orderBy.getD [], skip := skip
           limit := limit }

def withClause : P Clause := do
  let p ← projection parseFloat m
  return .withClause p (← optionally "WHERE" (expr parseFloat m))

def clause : P Clause :=
  accept (keyword "MATCH") (fun _ => matchClause parseFloat m false) <|
  accept (keyword "OPTIONAL") (fun _ => do
    let _ ← expectKeyword "MATCH"
    matchClause parseFloat m true) <|
  accept (keyword "CREATE") (fun _ => .createClause <$> patternList parseFloat m) <|
  accept (keyword "SET") (fun _ => .setClause <$> sepBy m (punct ",") (setItemOf parseFloat m)) <|
  accept (keyword "DELETE")
    (fun _ => .deleteClause <$> sepBy m (punct ",") (ident "DELETE expects a variable")) <|
  accept (keyword "RETURN") (fun _ => .returnClause <$> projection parseFloat m) <|
  accept (keyword "WITH") (fun _ => withClause parseFloat m) <|
  accept (keyword "UNWIND") (fun _ => unwindClause parseFloat m) <|
  accept (keyword "CALL") (fun _ => callClause parseFloat m) do
    let t ← peek
    fail (if t.type = .keyword &&
        t.val ∈ [ascii "MERGE", ascii "REMOVE", ascii "DETACH", ascii "LOAD"] then
      { text := "recommended-after-core and unsupported in v1", val := t.val }
      else { text := "unexpected token", val := t.val, pos := t.pos })

def query : P (List Clause) := do
  let clauses ← many m notEOF (clause parseFloat m)
  if clauses.isEmpty then fail { text := "empty query" } else return clauses

end

def parse (parseFloat : Bytes → UInt64) (input : Bytes) : Res ParseErr Token (List Clause) :=
  match lex input with
  | none => .stuck
  | some (.error err) => .fail err
  | some (.ok toks) => query parseFloat (toks.length + 1) toks

end WaveSpan.Cypher
