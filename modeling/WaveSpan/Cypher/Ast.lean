/-
WaveSpan.Cypher.Ast — parsed queries and the expressions in them
(`internal/cypher/parser/ast.go`, `internal/cypher/planner/eval.go`).

A query is a list of clauses over patterns and expressions. An expression is
evaluated in a row of bindings and always yields a value; what goes wrong on the
way (an unknown function, a call that fails) is recorded on the side, the first
error winning, and ends the query after the current operator. The value never
depends on what was recorded, so the two are separate functions here: `evalScalar`
for the value and `exprErr` for the first error recorded.

Numbers compare as floats, everything else by a spelled-out key. The conversion
from integers and the order of floats are spelled out on bit patterns; the other
float operations are the host's (`FloatOps`).
-/
import WaveSpan.Graph.Store
import WaveSpan.Collections.StateMachine

namespace WaveSpan.Cypher

open WaveSpan.Wire WaveSpan.Graph
open WaveSpan.Collections (GoMap ascii formatInt signBit)

/-! ## Expressions and patterns -/

inductive UnOp where
  | not
  | neg
  deriving DecidableEq, Repr

inductive BinOp where
  | and | or
  | eq | ne | lt | gt | le | ge
  | add | sub | mul | div
  | isIn
  deriving DecidableEq, Repr

/-- An expression; the first seven forms are the literals. -/
inductive Expr where
  | int (i : Int64)
  | float (bits : UInt64)
  | str (s : Bytes)
  | bool (b : Bool)
  | null
  | list (items : List Expr)
  | map (entries : List (Bytes × Expr))
  | param (name : Bytes)
  | var (name : Bytes)
  | prop (v property : Bytes)
  | unary (op : UnOp) (e : Expr)
  | binary (op : BinOp) (l r : Expr)
  | call (name : Bytes) (args : List Expr)
  deriving Repr

/-- `(var:Label {props})`; an anonymous node has the empty variable. The
properties are a Go map, listed in some order. -/
structure NodePattern where
  var : Bytes := []
  labels : List Bytes := []
  properties : List (Bytes × Expr) := []

inductive Direction where
  | out
  | into
  | both
  deriving DecidableEq, Repr

structure RelPattern where
  var : Bytes := []
  types : List Bytes := []
  direction : Direction := .out
  properties : List (Bytes × Expr) := []

/-- A node followed by hops, each a relationship and the node it reaches. -/
structure PatternPart where
  node : NodePattern
  hops : List (RelPattern × NodePattern) := []

/-! ## Clauses -/

structure MatchClause where
  isOptional : Bool := false
  patterns : List PatternPart
  filter : Option Expr := none

structure SetItem where
  var : Bytes
  property : Bytes
  value : Expr

structure ReturnItem where
  expr : Expr
  aliasName : Bytes := []

structure SortItem where
  expr : Expr
  desc : Bool := false

structure Projection where
  distinct : Bool := false
  items : List ReturnItem
  orderBy : List SortItem := []
  skip : Option Expr := none
  limit : Option Expr := none

inductive Clause where
  | matchClause (m : MatchClause)
  | createClause (patterns : List PatternPart)
  | setClause (items : List SetItem)
  | deleteClause (vars : List Bytes)
  | unwindClause (expr : Expr) (aliasName : Bytes)
  | callClause (procedure : Bytes) (args : List Expr) (yields : List Bytes)
  | withClause (p : Projection) (filter : Option Expr)
  | returnClause (p : Projection)

/-! ## Floats -/

/-- The host's float operations that are not spelled out here. -/
structure FloatOps where
  add : UInt64 → UInt64 → UInt64
  sub : UInt64 → UInt64 → UInt64
  mul : UInt64 → UInt64 → UInt64
  div : UInt64 → UInt64 → UInt64
  format : UInt64 → Bytes
  deriving Inhabited

/-- The number of units nearest to a number, ties to even. -/
def roundEven (n unit : Nat) : Nat :=
  let q := n / unit
  let r := n % unit
  if unit < 2 * r ∨ (2 * r = unit ∧ q % 2 = 1) then q + 1 else q

/-- The float nearest to a natural number, ties to even. A mantissa rounded up
past its width carries into the exponent. -/
def floatOfNat (n : Nat) : UInt64 :=
  if n = 0 then 0
  else
    let e := n.log2
    let mantissa := if e ≤ 52 then n * 2 ^ (52 - e) else roundEven n (2 ^ (e - 52))
    UInt64.ofNat ((e + 1022) * 2 ^ 52 + mantissa)

def floatOfInt (i : Int64) : UInt64 :=
  if i.toInt < 0 then signBit ||| floatOfNat i.toInt.natAbs else floatOfNat i.toInt.natAbs

/-- A float's place among the floats: its magnitude with its sign, one place for
the two zeros. -/
def floatPlace (bits : UInt64) : Int :=
  let magnitude : Int := (bits &&& 0x7fffffffffffffff).toNat
  if bits &&& signBit ≠ 0 then -magnitude else magnitude

/-- `a < b` on floats; nothing compares with a NaN. -/
def floatLt (a b : UInt64) : Bool :=
  !isNaN a && !isNaN b && floatPlace a < floatPlace b

/-! ## Values -/

def vNull : Value := .null true

def valueTruthy : Value → Bool
  | .bool b => b
  | .null _ => false
  | .unset => false
  | _ => true

def asFloat : Value → Option UInt64
  | .int i => some (floatOfInt i)
  | .double bits => some bits
  | _ => none

def valueKey (fl : FloatOps) : Value → Bytes
  | .int i => ascii "i" ++ formatInt i
  | .double bits => ascii "f" ++ fl.format bits
  | .string s => ascii "s" ++ s
  | .bool b => ascii "b" ++ ascii (if b then "true" else "false")
  | .bytes b => ascii "y" ++ b
  | _ => ascii "n"

/-- Numbers compare as floats, a NaN equal to everything; other values by key. -/
def compareValues (fl : FloatOps) (a b : Value) : Ordering :=
  match asFloat a, asFloat b with
  | some x, some y => if floatLt x y then .lt else if floatLt y x then .gt else .eq
  | _, _ => compare (valueKey fl a) (valueKey fl b)

def arith (ff : UInt64 → UInt64 → UInt64) (fi : Int64 → Int64 → Int64) (l r : Value) : Value :=
  match l, r with
  | .int a, .int b => .int (fi a b)
  | _, _ =>
    match asFloat l, asFloat r with
    | some x, some y => .double (ff x y)
    | _, _ => vNull

/-! ## Bindings -/

/-- What a variable is bound to. -/
inductive Binding where
  | node (n : NodeRecord)
  | edge (e : EdgeRecord)
  | value (v : Value)

abbrev Row := GoMap Binding

def Binding.node? : Option Binding → Option NodeRecord
  | some (.node n) => some n
  | _ => none

/-- A property of a bound element; null if it has none. -/
def propOf (binding : Option Binding) (prop : Bytes) : Value :=
  match binding with
  | some (.node n) => n.properties[prop]?.getD vNull
  | some (.edge e) => e.properties[prop]?.getD vNull
  | _ => vNull

def bindingToValue : Option Binding → Value
  | some (.value v) => v
  | some (.node n) => .string n.nodeId
  | some (.edge e) => .string e.edgeId
  | none => vNull

/-! ## Evaluation -/

inductive EvalErr where
  | unknownFunction (name : Bytes)
  | callFailed (message : Bytes)
  deriving DecidableEq, Repr

/-- What an evaluation refers to besides the row: the parameters, and the
functions with the stores behind them. -/
structure Env where
  params : GoMap Value := ∅
  funcs : Bytes → Option (List Value → Except EvalErr Value) := fun _ => none
  fl : FloatOps

def Expr.isLiteral : Expr → Bool
  | .int _ | .float _ | .str _ | .bool _ | .null | .list _ | .map _ => true
  | _ => false

mutual

def literalValue : Expr → Value
  | .int i => .int i
  | .float bits => .double bits
  | .str s => .string s
  | .bool b => .bool b
  | .list items => .list (literalItems items)
  | .map entries => .map (literalEntries entries)
  | _ => vNull

def literalItems : List Expr → List Value
  | [] => []
  | e :: es => if e.isLiteral then literalValue e :: literalItems es else literalItems es

def literalEntries : List (Bytes × Expr) → List (Bytes × Value)
  | [] => []
  | (k, e) :: es =>
    if e.isLiteral then (k, literalValue e) :: literalEntries es else literalEntries es

end

def evalUnary (op : UnOp) (v : Value) : Value :=
  match op with
  | .not => .bool (!valueTruthy v)
  | .neg =>
    match v with
    | .int i => .int (-i)
    | .double bits => .double (bits ^^^ signBit)
    | _ => vNull

def evalBinary (fl : FloatOps) (op : BinOp) (l r : Value) : Value :=
  match op with
  | .and => .bool (valueTruthy l && valueTruthy r)
  | .or => .bool (valueTruthy l || valueTruthy r)
  | .eq => .bool (compareValues fl l r == .eq)
  | .ne => .bool (compareValues fl l r != .eq)
  | .lt => .bool (compareValues fl l r == .lt)
  | .gt => .bool (compareValues fl l r == .gt)
  | .le => .bool (compareValues fl l r != .gt)
  | .ge => .bool (compareValues fl l r != .lt)
  | .add => arith fl.add (· + ·) l r
  | .sub => arith fl.sub (· - ·) l r
  | .mul => arith fl.mul (· * ·) l r
  | .div => arith fl.div (fun a b => if b = 0 then 0 else a / b) l r
  | .isIn =>
    match r with
    | .list vs => .bool (vs.any fun elem => compareValues fl l elem == .eq)
    | _ => .bool false

mutual

def evalScalar (env : Env) (row : Row) : Expr → Value
  | .param name => env.params[name]?.getD vNull
  | .var name => bindingToValue row[name]?
  | .prop v p => propOf row[v]? p
  | .unary op e => evalUnary op (evalScalar env row e)
  | .binary op l r => evalBinary env.fl op (evalScalar env row l) (evalScalar env row r)
  | .call name args =>
    match env.funcs name with
    | none => vNull
    | some fn =>
      match fn (evalArgs env row args) with
      | .ok v => v
      | .error _ => vNull
  | e => literalValue e

def evalArgs (env : Env) (row : Row) : List Expr → List Value
  | [] => []
  | e :: es => evalScalar env row e :: evalArgs env row es

end

mutual

/-- The first error recorded while an expression is evaluated. `AND` and `OR`
look at the right side only if the left leaves it open. -/
def exprErr (env : Env) (row : Row) : Expr → Option EvalErr
  | .unary _ e => exprErr env row e
  | .binary .and l r =>
    (exprErr env row l).or
      (if valueTruthy (evalScalar env row l) then exprErr env row r else none)
  | .binary .or l r =>
    (exprErr env row l).or
      (if valueTruthy (evalScalar env row l) then none else exprErr env row r)
  | .binary _ l r => (exprErr env row l).or (exprErr env row r)
  | .call name args =>
    match env.funcs name with
    | none => some (.unknownFunction name)
    | some fn =>
      (argsErr env row args).or
        (match fn (evalArgs env row args) with
        | .ok _ => none
        | .error err => some err)
  | _ => none

def argsErr (env : Env) (row : Row) : List Expr → Option EvalErr
  | [] => none
  | e :: es => (exprErr env row e).or (argsErr env row es)

end

def evalBool (env : Env) (e : Expr) (row : Row) : Bool := valueTruthy (evalScalar env row e)

end WaveSpan.Cypher
