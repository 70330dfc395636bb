/-
WaveSpan.Graph.Store — the property-graph store and its scans
(`internal/graph/store.go`, `index.go`).

A batch collects writes and commits them at once. Putting a node writes its
record and, unless it is a tombstone, an entry per label and per label and
property; putting an edge writes its record and an entry at either end. Nothing
is ever removed from the index: a later put overwrites the record and leaves the
entries of the earlier one behind.

The scans make up for that by looking at the record. A node id found in the index
is kept if the current record is live and still has the label (and, for a
property seek, a matching value). An edge id found in the adjacency is kept if the
edge is live; where it starts, ends and what type it has is not looked at again.
-/
import WaveSpan.Graph.Keys

namespace WaveSpan.Graph

open WaveSpan.Wire WaveSpan.Rows
open WaveSpan.Collections (GoMap prefixEnd inRange)

/-! ## Records -/

structure NodeRecord where
  graphId : Bytes
  nodeId : Bytes
  labels : List Bytes := []
  properties : GoMap Value := ∅
  tombstone : Bool := false

/-- A directed, typed relationship. -/
structure EdgeRecord where
  graphId : Bytes
  edgeId : Bytes
  startNode : Bytes := []
  endNode : Bytes := []
  type : Bytes := []
  properties : GoMap Value := ∅
  tombstone : Bool := false

inductive Record where
  | node (n : NodeRecord)
  | edge (e : EdgeRecord)

def decodeNode : Record → Option NodeRecord
  | .node n => some n
  | .edge _ => none

def decodeEdge : Record → Option EdgeRecord
  | .edge e => some e
  | .node _ => none

/-! ## Writes -/

/-- The records and the entries derived from them. -/
structure Store where
  data : GoMap Record := ∅
  index : GoMap Bytes := ∅

/-- Pending writes, by column family. -/
structure Batch where
  data : List (Op Bytes Record) := []
  index : List (Op Bytes Bytes) := []

/-- The index entries of a live node: one per label, one per label and property. -/
def nodeEntries (n : NodeRecord) : List (Op Bytes Bytes) :=
  n.labels.flatMap fun label =>
    .put (labelKey n.graphId label n.nodeId) [] ::
      n.properties.toList.map fun kv =>
        .put (propKey n.graphId label kv.1 kv.2 n.nodeId) []

/-- The index entries of a live edge, both holding the edge id. -/
def edgeEntries (e : EdgeRecord) : List (Op Bytes Bytes) :=
  [.put (outAdjKey e.graphId e.startNode e.type e.endNode e.edgeId) e.edgeId,
    .put (inAdjKey e.graphId e.endNode e.type e.startNode e.edgeId) e.edgeId]

def Batch.putNode (b : Batch) (n : NodeRecord) : Batch :=
  { data := b.data ++ [.put (nodeKey n.graphId n.nodeId) (.node n)]
    -- the entries of an earlier put are left stale
    index := b.index ++ if n.tombstone then [] else nodeEntries n }

def Batch.putEdge (b : Batch) (e : EdgeRecord) : Batch :=
  { data := b.data ++ [.put (edgeKey e.graphId e.edgeId) (.edge e)]
    index := b.index ++ if e.tombstone then [] else edgeEntries e }

def Batch.commit (b : Batch) (s : Store) : Store :=
  { data := runOps s.data b.data, index := runOps s.index b.index }

inductive Put where
  | node (n : NodeRecord)
  | edge (e : EdgeRecord)

def Batch.put (b : Batch) : Put → Batch
  | .node n => b.putNode n
  | .edge e => b.putEdge e

/-- A batch is filled by its calls and committed. -/
def Store.commit (s : Store) (puts : List Put) : Store := (puts.foldl Batch.put {}).commit s

def Store.run (s : Store) (batches : List (List Put)) : Store := batches.foldl Store.commit s

/-! ## Reads -/

def Store.getNode (s : Store) (graph nodeID : Bytes) : Option NodeRecord := do
  let v ← s.data[nodeKey graph nodeID]?
  let n ← decodeNode v
  if n.tombstone then none else some n

def Store.getEdge (s : Store) (graph edgeID : Bytes) : Option EdgeRecord := do
  let v ← s.data[edgeKey graph edgeID]?
  let e ← decodeEdge v
  if e.tombstone then none else some e

def Store.scanIndex (s : Store) (start : Bytes) (stop : Option Bytes) : List (Bytes × Bytes) :=
  s.index.toList.filter fun r => inRange start stop r.1

/-- The live edges that the entries under a key prefix name. -/
def Store.scanAdjacency (s : Store) (graph pfx : Bytes) : List EdgeRecord :=
  (s.scanIndex pfx (prefixEnd pfx)).filterMap fun r => s.getEdge graph r.2

/-- The live edges that leave a node; an empty type is any type. -/
def Store.scanOutgoing (s : Store) (graph src edgeType : Bytes) : List EdgeRecord :=
  s.scanAdjacency graph (adjPrefix (outAdjPrefix graph src) edgeType)

def Store.scanIncoming (s : Store) (graph dst edgeType : Bytes) : List EdgeRecord :=
  s.scanAdjacency graph (adjPrefix (inAdjPrefix graph dst) edgeType)

def hasLabel (n : NodeRecord) (label : Bytes) : Bool := n.labels.contains label

def isNaN (bits : UInt64) : Bool := 0x7ff0000000000000 < bits &&& 0x7fffffffffffffff

/-- Equality of doubles: nothing equals a NaN, and the two zeros are equal. -/
def doubleEq (a b : UInt64) : Bool :=
  !isNaN a && !isNaN b && (a == b || (a <<< 1 == 0 && b <<< 1 == 0))

def valueEqual : Value → Value → Bool
  | .int a, .int b => a == b
  | .string a, .string b => a == b
  | .double a, .double b => doubleEq a b
  | .bool a, .bool b => a == b
  | _, _ => false

/-- Whether a current value is the one sought or an integer from a bound on. -/
def propMatches (cur : Value) (eq : Option Value) (gte : Option Int64) : Bool :=
  match eq, gte with
  | some v, _ => valueEqual cur v
  | none, some bound =>
    match cur with
    | .int i => bound ≤ i
    | _ => false
  | none, none => true

/-- The ids that pass a check, each once, in the order they are met. The ids
collected so far are the ones marked as seen. -/
def collectIDs (keep : Bytes → Bool) (ids : List Bytes) : List Bytes :=
  ids.foldl
    (fun out id => if out.contains id then out else if keep id then out ++ [id] else out) []

def Store.scanLabel (s : Store) (graph label : Bytes) : List Bytes :=
  let pfx := labelPrefix graph label
  collectIDs (fun nodeID => (s.getNode graph nodeID).any (hasLabel · label))
    ((s.scanIndex pfx (prefixEnd pfx)).map fun r =>
      -- an entry that cannot be read counts as the empty id
      match decodeLP (r.1.drop pfx.length) with
      | some (nodeID, _) => nodeID
      | none => [])

/-- The live nodes in a range of the property index whose current value matches;
the node id starts at `nodeOffset` of the key. -/
def Store.seekProp (s : Store) (graph label prop start : Bytes) (stop : Option Bytes)
    (nodeOffset : Nat) (eq : Option Value) (gte : Option Int64) : List Bytes :=
  collectIDs
    (fun nodeID => (s.getNode graph nodeID).any fun n =>
      hasLabel n label && n.properties[prop]?.any (propMatches · eq gte))
    ((s.scanIndex start stop).filterMap fun r =>
      if r.1.length < nodeOffset then none else some (r.1.drop nodeOffset))

def Store.seekProperty (s : Store) (graph label prop : Bytes) (val : Value) : List Bytes :=
  let pfx := propValuePrefix graph label prop val
  s.seekProp graph label prop pfx (prefixEnd pfx) pfx.length (some val) none

/-- The live nodes whose property is an integer from a bound on. -/
def Store.seekPropertyGTE (s : Store) (graph label prop : Bytes) (bound : Int64) : List Bytes :=
  let typePrefix := propTypePrefix graph label prop tagInt
  s.seekProp graph label prop (propValuePrefix graph label prop (.int bound))
    -- a tag and eight bytes stand before the node id
    (prefixEnd typePrefix) (typePrefix.length + 8) none (some bound)

/-- The records under a key prefix, in key order. -/
def Store.scanData (s : Store) (pfx : Bytes) : List (Bytes × Record) :=
  s.data.toList.filter fun r => inRange pfx (prefixEnd pfx) r.1

def Store.allNodes (s : Store) (graph : Bytes) : List NodeRecord :=
  ((s.scanData (nodePrefix graph)).filterMap fun r => decodeNode r.2).filter fun n => !n.tombstone

end WaveSpan.Graph
