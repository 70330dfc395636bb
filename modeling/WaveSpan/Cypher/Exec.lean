/-
WaveSpan.Cypher.Exec — the plan of a query and its execution
(`internal/cypher/planner/logical.go`, `executor.go`, `executor_write.go`,
`guardrails.go`).

A query is lowered to a line of operators (`plan`), and each operator turns the
rows of bindings so far into new ones. A pattern becomes a scan for its first node
and an expansion per hop. Rows hold whole records, as they were when they were
read.

The updating operators keep the rows and write to the graph store, one batch an
operator. An evaluation error ends the query only after the operator that met it,
so a writing operator has committed by then.
-/
import WaveSpan.Cypher.Ast

namespace WaveSpan.Cypher

open WaveSpan.Wire WaveSpan.Graph
open WaveSpan.Collections (GoMap ascii)
open WaveSpan.Collections (formatInt)

/-! ## Plans -/

inductive LogicalOp where
  | labelScan (var label : Bytes)
  | allNodesScan (var : Bytes)
  | propertyFilter (predicate : Expr)
  | expandOutgoing (src dst relVar type : Bytes)
  | expandIncoming (src dst relVar type : Bytes)
  | expandBoth (src dst relVar type : Bytes)
  | unwind (expr : Expr) (aliasName : Bytes)
  | project (items : List ReturnItem) (distinct : Bool)
  | sort (keys : List SortItem)
  | skipLimit (skip limit : Option Expr)
  | createPatterns (patterns : List PatternPart)
  | setItems (items : List SetItem)
  | deleteVars (vars : List Bytes)
  | procCall (procedure : Bytes) (args : List Expr) (yields : List Bytes)

def andEq (v : Bytes) (pred : Option Expr) (kv : Bytes × Expr) : Expr :=
  let eq := Expr.binary .eq (.prop v kv.1) kv.2
  match pred with
  | none => eq
  | some p => .binary .and p eq

def inlinePropFilter (n : NodePattern) : List LogicalOp :=
  let pred := n.properties.foldl (fun pred kv => some (andEq n.var pred kv)) none
  pred.toList.map .propertyFilter

/-- The scan of a pattern's first node: by its first label, if it has one. -/
def planAnchor (n : NodePattern) : List LogicalOp :=
  (match n.labels with
    | label :: _ => .labelScan n.var label
    | [] => .allNodesScan n.var) :: inlinePropFilter n

/-- The first of a relationship's types, empty for any. -/
def RelPattern.typ (r : RelPattern) : Bytes := r.types.headD []

def planHop (src : Bytes) (rel : RelPattern) (n : NodePattern) : List LogicalOp :=
  (match rel.direction with
    | .into => .expandIncoming src n.var rel.var rel.typ
    | .both => .expandBoth src n.var rel.var rel.typ
    | .out => .expandOutgoing src n.var rel.var rel.typ) :: inlinePropFilter n

def planHops (src : Bytes) : List (RelPattern × NodePattern) → List LogicalOp
  | [] => []
  | (rel, n) :: hops => planHop src rel n ++ planHops n.var hops

def planPart (part : PatternPart) : List LogicalOp :=
  planAnchor part.node ++ planHops part.node.var part.hops

def planMatch (m : MatchClause) : List LogicalOp :=
  m.patterns.flatMap planPart ++
    match m.filter with
    | some pred => [.propertyFilter pred]
    | none => []

def planOrder (p : Projection) : List LogicalOp :=
  (if p.orderBy.isEmpty then [] else [.sort p.orderBy]) ++
    if p.skip.isNone && p.limit.isNone then [] else [.skipLimit p.skip p.limit]

def planClause : Clause → List LogicalOp
  | .matchClause m => planMatch m
  | .createClause patterns => [.createPatterns patterns]
  | .setClause items => [.setItems items]
  | .deleteClause vars => [.deleteVars vars]
  | .unwindClause expr aliasName => [.unwind expr aliasName]
  | .callClause procedure args yields => [.procCall procedure args yields]
  | .withClause p filter =>
    .project p.items p.distinct ::
      ((match filter with
        | some pred => [.propertyFilter pred]
        | none => []) ++ planOrder p)
  | .returnClause p => .project p.items p.distinct :: planOrder p

def plan (query : List Clause) : List LogicalOp := query.flatMap planClause

/-! ## Executors -/

structure Limits where
  maxRowsReturned : Int := 0
  maxIntermediateRows : Int := 0
  maxTraversalDepth : Int := 0
  maxRemoteFragments : Int := 0
  queryTimeoutMs : Int := 0
  maxMemoryBytes : Int64 := 0
  deriving DecidableEq, Repr

def defaultLimits : Limits :=
  { maxRowsReturned := 100000
    maxIntermediateRows := 1000000
    maxTraversalDepth := 8
    maxRemoteFragments := 128
    queryTimeoutMs := 30000
    maxMemoryBytes := 512 * 1024 * 1024 }

inductive Guardrail where
  | maxRowsReturned
  | maxIntermediateRows
  | maxTraversalDepth
  deriving DecidableEq, Repr

inductive Err where
  | guardrail (limit : Guardrail) (value max : Int)
  | eval (err : EvalErr)
  | unknownProcedure (name : Bytes)
  | procedureFailed (message : Bytes)
  /-- A slice bound out of range: the process stops. -/
  | crash
  deriving DecidableEq, Repr

/-- What a query runs with. A procedure extends a row by what it yields; the stores
behind it are not the graph. -/
structure Executor extends Env where
  graphID : Bytes
  limits : Limits := {}
  procedures : Bytes → Option (List Value → List Bytes → Row → Except Err (List Row)) :=
    fun _ => none

/-- The limits in force: the defaults if none are set. -/
def Executor.effective (e : Executor) : Limits :=
  if e.limits = {} then defaultLimits else e.limits

def Limits.checkIntermediate (l : Limits) (n : Nat) : Except Err Unit :=
  if l.maxIntermediateRows < n then
    .error (.guardrail .maxIntermediateRows n l.maxIntermediateRows)
  else .ok ()

def Limits.checkDepth (l : Limits) (d : Int) : Except Err Unit :=
  if l.maxTraversalDepth < d then .error (.guardrail .maxTraversalDepth d l.maxTraversalDepth)
  else .ok ()

structure State where
  store : Store
  rows : List Row := [∅]
  columns : List Bytes := []
  evalErr : Option EvalErr := none

/-! ## Reading operators -/

variable (e : Executor)

def nodesByID (s : Store) (ids : List Bytes) : List NodeRecord :=
  ids.filterMap (s.getNode e.graphID)

/-- A variable already bound to a node is kept as it is; otherwise one row per node
fetched. -/
def scanRow (var : Bytes) (nodes : List NodeRecord) (r : Row) : List Row :=
  match Binding.node? r[var]? with
  | some _ => [r]
  | none => nodes.map fun n => r.insert var (.node n)

/-- A row with a hop's end, and its edge unless the edge is anonymous. -/
def bindHop (dst relVar : Bytes) (r : Row) (edge : EdgeRecord) (other : NodeRecord) : Row :=
  let r' := r.insert dst (.node other)
  if relVar = [] then r' else r'.insert relVar (.edge edge)

/-- The rows of one hop from a row, along the edges given with their far ends. -/
def hopRows (s : Store) (dst relVar : Bytes) (r : Row) (edges : List (EdgeRecord × Bytes)) :
    List Row :=
  edges.filterMap fun ed => (s.getNode e.graphID ed.2).map (bindHop dst relVar r ed.1)

def expandRow (s : Store) (src dst relVar type : Bytes) (outgoing : Bool) (r : Row) : List Row :=
  match Binding.node? r[src]? with
  | none => []
  | some node =>
    hopRows e s dst relVar r
      (if outgoing then (s.scanOutgoing e.graphID node.nodeId type).map fun x => (x, x.endNode)
      else (s.scanIncoming e.graphID node.nodeId type).map fun x => (x, x.startNode))

/-- An undirected hop: along the edges that leave the node, then along those that
reach it. -/
def expandBothRow (s : Store) (src dst relVar type : Bytes) (r : Row) : List Row :=
  match Binding.node? r[src]? with
  | none => []
  | some node =>
    hopRows e s dst relVar r
      ((s.scanOutgoing e.graphID node.nodeId type).map (fun x => (x, x.endNode)) ++
        (s.scanIncoming e.graphID node.nodeId type).map fun x => (x, x.startNode))

def unwindRow (expr : Expr) (aliasName : Bytes) (r : Row) : List Row :=
  match evalScalar e.toEnv r expr with
  | .list vs => vs.map fun v => r.insert aliasName (.value v)
  | _ => []

def itemName (item : ReturnItem) : Bytes :=
  if item.aliasName ≠ [] then item.aliasName
  else
    match item.expr with
    | .var name => name
    | .prop v p => v ++ ascii "." ++ p
    | _ => ascii "expr"

/-- A row's projection and the key `DISTINCT` tells it apart by. -/
def projectRow (items : List ReturnItem) (r : Row) : Row × Bytes :=
  items.foldl (fun acc item =>
    let v := evalScalar e.toEnv r item.expr
    (acc.1.insert (itemName item) (.value v), acc.2 ++ valueKey e.fl v ++ [0x1f])) (∅, [])

/-- The projected rows; with `DISTINCT` only the first of each key. -/
def projectRows (items : List ReturnItem) (distinct : Bool) (rows : List Row) : List Row :=
  (rows.foldl (fun (acc : List Row × List Bytes) r =>
    let p := projectRow e items r
    if distinct && acc.2.contains p.2 then acc else (acc.1 ++ [p.1], acc.2 ++ [p.2]))
    ([], [])).1

/-- Whether a row sorts before another: the first key on which they differ
decides. -/
def sortsBefore (keys : List SortItem) (a b : Row) : Bool :=
  match keys with
  | [] => false
  | k :: keys =>
    match compareValues e.fl (evalScalar e.toEnv a k.expr) (evalScalar e.toEnv b k.expr) with
    | .eq => sortsBefore keys a b
    | .lt => !k.desc
    | .gt => k.desc

def sortRows (keys : List SortItem) (rows : List Row) : List Row :=
  rows.mergeSort fun a b => !sortsBefore e keys b a

/-- `GetIntValue`: zero for anything but an integer. -/
def intValue : Value → Int64
  | .int i => i
  | _ => 0

/-- `rows[skip:]`, then `rows[:limit]`; a negative bound is out of range. -/
def skipLimitRows (skip limit : Option Expr) (rows : List Row) : Except Err (List Row) := do
  let skipN : Int := (skip.map fun x => (intValue (evalScalar e.toEnv ∅ x)).toInt).getD 0
  let skipN := if (rows.length : Int) < skipN then (rows.length : Int) else skipN
  if skipN < 0 then throw .crash
  let rows := rows.drop skipN.toNat
  match limit with
  | none => return rows
  | some x =>
    let limitN := (intValue (evalScalar e.toEnv ∅ x)).toInt
    if limitN < rows.length then
      if limitN < 0 then throw .crash
      return rows.take limitN.toNat
    else return rows

/-- A procedure is called once a row, and its first failure ends the query. -/
def procRows (proc : List Value → List Bytes → Row → Except Err (List Row)) (args : List Expr)
    (yields : List Bytes) : List Row → Except Err (List Row)
  | [] => .ok []
  | r :: rows => do
    let out ← proc (evalArgs e.toEnv r args) yields r
    let rest ← procRows proc args yields rows
    return out ++ rest

/-! ## Writing operators -/

def evalProps (props : List (Bytes × Expr)) (row : Row) : GoMap Value :=
  props.foldl (fun m kv => m.insert kv.1 (evalScalar e.toEnv row kv.2)) ∅

/-- `GetStringValue`: empty for anything but a string. -/
def stringValue : Value → Bytes
  | .string s => s
  | _ => []

/-- `_n1`, `_n2`, …: the ids of nodes created without one. -/
def generatedID (seq : Nat) : Bytes := ascii "_n" ++ ascii (toString seq)

/-- The id a new node asks for by its `id` property; empty for none. -/
def requestedID (props : GoMap Value) : Bytes := (props[ascii "id"]?.map stringValue).getD []

/-- A clause being executed: its batch and the number of ids generated. -/
structure Creation where
  batch : Batch := {}
  seq : Nat := 0

/-- The node a bound variable names, or a new node. -/
def emitNode (c : Creation) (np : NodePattern) (row : Row) : Bytes × Creation :=
  match if np.var = [] then none else Binding.node? row[np.var]? with
  | some bound => (bound.nodeId, c)
  | none =>
    let props := evalProps e np.properties row
    let asked := requestedID props
    let seq := if asked = [] then c.seq + 1 else c.seq
    let id := if asked = [] then generatedID seq else asked
    (id, { batch := c.batch.putNode { graphId := e.graphID, nodeId := id, labels := np.labels,
                                      properties := props }
           seq := seq })

def edgeIDOf (start typ stop : Bytes) : Bytes := start ++ ascii "|" ++ typ ++ ascii "|" ++ stop

def emitHops (row : Row) : Bytes → Creation → List (RelPattern × NodePattern) → Creation
  | _, c, [] => c
  | src, c, (rel, np) :: hops =>
    let r := emitNode e c np row
    let ends := if rel.direction = .into then (r.1, src) else (src, r.1)
    emitHops row r.1
      { r.2 with
        batch := r.2.batch.putEdge
          { graphId := e.graphID, edgeId := edgeIDOf ends.1 rel.typ ends.2,
            startNode := ends.1, endNode := ends.2, type := rel.typ,
            properties := evalProps e rel.properties row } }
      hops

def emitPart (row : Row) (c : Creation) (part : PatternPart) : Creation :=
  let r := emitNode e c part.node row
  emitHops e row r.1 r.2 part.hops

/-- The rows a clause creates for: one empty row if there are none. -/
def creatingRows (rows : List Row) : List Row := if rows.isEmpty then [∅] else rows

/-- The patterns written once per row, in one batch. -/
def create (patterns : List PatternPart) (s : Store) (rows : List Row) : Store :=
  let c := (creatingRows rows).foldl (fun c row => patterns.foldl (emitPart e row) c) {}
  c.batch.commit s

def cloneNode (n : NodeRecord) : NodeRecord := { n with tombstone := false }

/-- One assignment: the node's record is the one updated so far in this clause, or
the one the row holds. -/
def setItem (row : Row) (updated : GoMap NodeRecord) (item : SetItem) : GoMap NodeRecord :=
  match Binding.node? row[item.var]? with
  | none => updated
  | some n =>
    let cur := updated[n.nodeId]?.getD (cloneNode n)
    let v := evalScalar e.toEnv row item.value
    updated.insert n.nodeId { cur with properties := cur.properties.insert item.property v }

/-- Each updated node is written once. -/
def setNodes (items : List SetItem) (s : Store) (rows : List Row) : Store :=
  let updated := rows.foldl (fun m row => items.foldl (setItem e row) m) (∅ : GoMap NodeRecord)
  (updated.toList.foldl (fun (b : Batch) kv => b.putNode kv.2) {}).commit s

/-- The ids of the elements a row binds to the variables. -/
def deletedOf (vars : List Bytes) (acc : GoMap Unit × GoMap Unit) (row : Row) :
    GoMap Unit × GoMap Unit :=
  vars.foldl (fun (acc : GoMap Unit × GoMap Unit) (v : Bytes) =>
    match row[v]? with
    | some (.node n) => (acc.1.insert n.nodeId (), acc.2)
    | some (.edge x) => (acc.1, acc.2.insert x.edgeId ())
    | _ => acc) acc

/-- The bound elements are overwritten by tombstones. -/
def del (vars : List Bytes) (s : Store) (rows : List Row) : Store :=
  let ids := rows.foldl (deletedOf vars) ((∅ : GoMap Unit), (∅ : GoMap Unit))
  let b := ids.1.toList.foldl (fun (b : Batch) kv =>
    b.putNode { graphId := e.graphID, nodeId := kv.1, tombstone := true }) {}
  (ids.2.toList.foldl (fun (b : Batch) kv =>
    b.putEdge { graphId := e.graphID, edgeId := kv.1, tombstone := true }) b).commit s

/-! ## Errors met by an operator -/

def propsErr (props : List (Bytes × Expr)) (row : Row) : Option EvalErr :=
  props.findSome? fun kv => exprErr e.toEnv row kv.2

def emitNodeErr (np : NodePattern) (row : Row) : Option EvalErr :=
  match if np.var = [] then none else Binding.node? row[np.var]? with
  | some _ => none
  | none => propsErr e np.properties row

def emitPartErr (row : Row) (part : PatternPart) : Option EvalErr :=
  (emitNodeErr e part.node row).or
    (part.hops.findSome? fun hop =>
      (emitNodeErr e hop.2 row).or (propsErr e hop.1.properties row))

/-- The first error an operator records on its rows. -/
def LogicalOp.evalErr (op : LogicalOp) (rows : List Row) : Option EvalErr :=
  match op with
  | .propertyFilter pred => rows.findSome? fun r => exprErr e.toEnv r pred
  | .unwind expr _ => rows.findSome? fun r => exprErr e.toEnv r expr
  | .project items _ =>
    rows.findSome? fun r => items.findSome? fun item => exprErr e.toEnv r item.expr
  | .sort keys =>
    -- a single row is compared with nothing
    if rows.length < 2 then none
    else rows.findSome? fun r => keys.findSome? fun k => exprErr e.toEnv r k.expr
  | .skipLimit skip limit =>
    (skip.bind (exprErr e.toEnv ∅)).or (limit.bind (exprErr e.toEnv ∅))
  | .createPatterns patterns =>
    (creatingRows rows).findSome? fun r => patterns.findSome? (emitPartErr e r)
  | .setItems items =>
    rows.findSome? fun r => items.findSome? fun item =>
      (Binding.node? r[item.var]?).bind fun _ => exprErr e.toEnv r item.value
  | .procCall _ args _ => rows.findSome? fun r => argsErr e.toEnv r args
  | _ => none

/-! ## Execution -/

/-- The rows a reading operator makes of the rows so far. -/
def readRows (op : LogicalOp) (s : Store) (rows : List Row) : Except Err (List Row) :=
  match op with
  | .labelScan var label =>
    .ok (rows.flatMap (scanRow var (nodesByID e s (s.scanLabel e.graphID label))))
  | .allNodesScan var => .ok (rows.flatMap (scanRow var (s.allNodes e.graphID)))
  | .propertyFilter pred => .ok (rows.filter (evalBool e.toEnv pred))
  | .expandOutgoing src dst relVar type => do
    e.effective.checkDepth 1
    return rows.flatMap (expandRow e s src dst relVar type true)
  | .expandIncoming src dst relVar type => do
    e.effective.checkDepth 1
    return rows.flatMap (expandRow e s src dst relVar type false)
  | .expandBoth src dst relVar type => do
    e.effective.checkDepth 1
    return rows.flatMap (expandBothRow e s src dst relVar type)
  | .unwind expr aliasName => .ok (rows.flatMap (unwindRow e expr aliasName))
  | .project items distinct => .ok (projectRows e items distinct rows)
  | .sort keys => .ok (sortRows e keys rows)
  | .skipLimit skip limit => skipLimitRows e skip limit rows
  | .procCall procedure args yields =>
    match e.procedures procedure with
    | none => .error (.unknownProcedure procedure)
    | some proc => procRows e proc args yields rows
  | .createPatterns _ | .setItems _ | .deleteVars _ => .ok rows

def writtenStore (op : LogicalOp) (s : Store) (rows : List Row) : Store :=
  match op with
  | .createPatterns patterns => create e patterns s rows
  | .setItems items => setNodes e items s rows
  | .deleteVars vars => del e vars s rows
  | _ => s

def apply (op : LogicalOp) (st : State) : Except Err State := do
  let rows ← readRows e op st.store st.rows
  return { store := writtenStore e op st.store st.rows
           rows := rows
           columns :=
             match op with
             | .project items _ => items.map itemName
             | _ => st.columns
           evalErr := op.evalErr e st.rows }

/-- The operators one after another, up to the first that fails. What was written
until then stays. -/
def exec : List LogicalOp → State → State × Option Err
  | [], st => (st, none)
  | op :: ops, st =>
    match apply e op st with
    | .error err => (st, some err)
    | .ok st' =>
      match st'.evalErr with
      | some err => (st', some (.eval err))
      | none =>
        match e.effective.checkIntermediate st'.rows.length with
        | .error err => (st', some err)
        | .ok _ => exec ops st'

/-- A row as returned: the projected columns, or every variable if nothing was
projected. -/
def outputRow (columns : List Bytes) (r : Row) : GoMap Value :=
  if columns.isEmpty then r.map fun _ b => bindingToValue (some b)
  else
    columns.foldl (fun (m : GoMap Value) (col : Bytes) =>
      match r[col]? with
      | some (.value v) => m.insert col v
      | _ => m) ∅

structure Result where
  columns : List Bytes
  rows : List (GoMap Value)

def execute (query : List Clause) (s : Store) : Except Err Result × Store :=
  match exec e (plan query) { store := s } with
  | (st, some err) => (.error err, st.store)
  | (st, none) =>
    let rows := st.rows.map (outputRow st.columns)
    if e.effective.maxRowsReturned < rows.length then
      (.error (.guardrail .maxRowsReturned rows.length e.effective.maxRowsReturned), st.store)
    else (.ok { columns := st.columns, rows := rows }, st.store)

end WaveSpan.Cypher
