/-
WaveSpan.Graph.Index — what the graph's scans answer after a run of batches
(`internal/graph/index.go`, `store.go`).

What a run leaves is simple: under the key of a node or edge the last record put
(`currentNode`, `currentEdge`), and in the index every entry of every live record
ever put (`index_run`). A scan answers exactly (`Answers`) if it returns each id or
edge with a property once and nothing else.

The scans of nodes are exact because they ask the record: an id they return is
live and matches now, and a node that matches now has the entry that leads to it.
That holds for property seeks as well, although their keys run value and id
together; only byte strings are never found, since `valueEqual` has no case for
them. The scans of edges ask the record only whether it is live, so an edge put
again with another start, end or type is still found where it was before. They are
exact as long as the live records of an edge agree on those three (`Settled`).
-/
import Mathlib.Data.List.Induction
import WaveSpan.Graph.Store

namespace WaveSpan.Graph

open WaveSpan.Wire WaveSpan.Rows
open WaveSpan.Collections (GoMap prefixEnd inRange)

/-! ## What a run leaves -/

def Put.row : Put → Op Bytes Record
  | .node n => .put (nodeKey n.graphId n.nodeId) (.node n)
  | .edge e => .put (edgeKey e.graphId e.edgeId) (.edge e)

def Put.entries : Put → List (Op Bytes Bytes)
  | .node n => if n.tombstone then [] else nodeEntries n
  | .edge e => if e.tombstone then [] else edgeEntries e

theorem foldl_put (puts : List Put) (b : Batch) :
    puts.foldl Batch.put b =
      { data := b.data ++ puts.map Put.row, index := b.index ++ puts.flatMap Put.entries } := by
  induction puts generalizing b with
  | nil => simp
  | cons p puts ih =>
    rw [List.foldl_cons, ih]
    cases p with
    | node n => simp [Batch.put, Batch.putNode, Put.row, Put.entries]
    | edge e => simp [Batch.put, Batch.putEdge, Put.row, Put.entries]

/-- A run is the puts of its batches, in turn. -/
theorem Store.run_eq (s : Store) (batches : List (List Put)) :
    s.run batches =
      { data := runOps s.data (batches.flatten.map Put.row)
        index := runOps s.index (batches.flatten.flatMap Put.entries) } := by
  induction batches generalizing s with
  | nil => simp [Store.run]
  | cons puts batches ih =>
    show Store.run (s.commit puts) batches = _
    rw [ih, Store.commit, foldl_put]
    simp [Batch.commit, runOps_append]

def Put.node? (g id : Bytes) : Put → Option NodeRecord
  | .node n => if n.graphId = g ∧ n.nodeId = id then some n else none
  | .edge _ => none

def Put.edge? (g id : Bytes) : Put → Option EdgeRecord
  | .edge e => if e.graphId = g ∧ e.edgeId = id then some e else none
  | .node _ => none

/-- What nodes and edges have in common as records of the store. -/
structure Kind (α : Type) where
  key : Bytes → Bytes → Bytes
  space : Bytes → Bytes
  record : α → Record
  decode : Record → Option α
  put : α → Put
  put? : Bytes → Bytes → Put → Option α
  graphId : α → Bytes
  ident : α → Bytes
  key_inj : ∀ {g id g' id'}, key g id = key g' id' ↔ g = g' ∧ id = id'
  space_isPrefix : ∀ {g g' id}, space g <+: key g' id ↔ g = g'
  decode_eq_some : ∀ {r a}, decode r = some a ↔ r = record a
  put?_eq_some : ∀ {g id p a}, put? g id p = some a ↔ p = put a ∧ graphId a = g ∧ ident a = id
  row_eq_put : ∀ {p k a}, Put.row p = .put k (record a) ↔ p = put a ∧ k = key (graphId a) (ident a)
  put_of_key : ∀ {p g id}, (Put.row p).key = key g id → ∃ a, p = put a

namespace Kind

def nodes : Kind NodeRecord where
  key := nodeKey
  space := nodePrefix
  record := .node
  decode := decodeNode
  put := .node
  put? := Put.node?
  graphId := NodeRecord.graphId
  ident := NodeRecord.nodeId
  key_inj := nodeKey_inj
  space_isPrefix := by simp [nodePrefix, nodeKey, lp, lenPrefix_prefix]
  decode_eq_some {r _} := by cases r <;> simp [decodeNode]
  put?_eq_some {_ _ p _} := by cases p <;> grind [Put.node?]
  row_eq_put {p _ _} := by cases p <;> grind [Put.row]
  put_of_key {p g id} h := by
    cases p with
    | node n => exact ⟨n, rfl⟩
    | edge e => exact absurd h.symm (nodeKey_ne_edgeKey g id _ _)

def edges : Kind EdgeRecord where
  key := edgeKey
  space := edgePrefix
  record := .edge
  decode := decodeEdge
  put := .edge
  put? := Put.edge?
  graphId := EdgeRecord.graphId
  ident := EdgeRecord.edgeId
  key_inj := edgeKey_inj
  space_isPrefix := by simp [edgePrefix, edgeKey, lp, lenPrefix_prefix]
  decode_eq_some {r _} := by cases r <;> simp [decodeEdge]
  put?_eq_some {_ _ p _} := by cases p <;> grind [Put.edge?]
  row_eq_put {p _ _} := by cases p <;> grind [Put.row]
  put_of_key {p g id} h := by
    cases p with
    | node n => exact absurd h (nodeKey_ne_edgeKey _ _ g id)
    | edge e => exact ⟨e, rfl⟩

section
variable {α : Type} (K : Kind α)

theorem record_inj {a b : α} : K.record a = K.record b ↔ a = b := by
  refine ⟨fun h => ?_, congrArg _⟩
  have hb := K.decode_eq_some.mpr h
  rw [K.decode_eq_some.mpr rfl] at hb
  exact Option.some.inj hb

/-- What one put does to a row. -/
theorem getElem?_row (m : GoMap Record) (p : Put) (g id : Bytes) :
    (runOp m p.row)[K.key g id]? = ((K.put? g id p).map K.record).or m[K.key g id]? := by
  cases hp : K.put? g id p with
  | some a =>
    obtain ⟨rfl, rfl, rfl⟩ := K.put?_eq_some.mp hp
    rw [K.row_eq_put.mpr ⟨rfl, rfl⟩, getElem?_runOp_put, if_pos rfl]
    rfl
  | none =>
    refine getElem?_runOp_of_ne m fun hkey => ?_
    obtain ⟨a, rfl⟩ := K.put_of_key hkey
    rw [K.row_eq_put.mpr ⟨rfl, rfl⟩] at hkey
    rw [K.put?_eq_some.mpr ⟨rfl, K.key_inj.mp hkey⟩] at hp
    cases hp

/-- The last record put under an identifier, tombstones included. -/
def current (puts : List Put) (g id : Bytes) : Option α := puts.reverse.findSome? (K.put? g id)

/-- The last put decides a row. -/
theorem getElem?_rows (puts : List Put) (g id : Bytes) :
    (runOps (∅ : GoMap Record) (puts.map Put.row))[K.key g id]? =
      (K.current puts g id).map K.record := by
  induction puts using List.reverseRecOn with
  | nil => simp [current]
  | append_singleton puts p ih =>
    rw [List.map_append, List.map_singleton, runOps_concat, K.getElem?_row, ih, current,
      current, List.reverse_append, List.reverse_singleton, List.singleton_append,
        List.findSome?_cons]
    cases K.put? g id p <;> rfl

/-- A row holds the last record put. -/
theorem data_run {batches : List (List Put)} {g id : Bytes} {a : α} :
    (Store.run {} batches).data[K.key g id]? = some (K.record a) ↔
      K.current batches.flatten g id = some a := by
  have hrow := K.getElem?_rows batches.flatten g id
  rw [Store.run_eq]
  simp only [hrow, Option.map_eq_some_iff, K.record_inj, exists_eq_right]

theorem mem_of_current {puts : List Put} {g id : Bytes} {a : α}
    (h : K.current puts g id = some a) :
    K.put a ∈ puts ∧ K.graphId a = g ∧ K.ident a = id := by
  obtain ⟨p, hp, ha⟩ := List.exists_of_findSome?_eq_some h
  obtain ⟨rfl, hid⟩ := K.put?_eq_some.mp ha
  exact ⟨List.mem_reverse.mp hp, hid⟩

/-- Reading a record that is no tombstone. -/
theorem get_eq_some {row : Option Record} {tombstone : α → Bool} {a : α} :
    (row.bind fun r => (K.decode r).bind fun b => if tombstone b then none else some b) = some a ↔
      row = some (K.record a) ∧ tombstone a = false := by
  simp only [Option.bind_eq_some_iff, K.decode_eq_some]
  constructor
  · rintro ⟨_, rfl, b, rfl, hb⟩
    cases ht : tombstone b <;> simp_all
  · rintro ⟨rfl, ha⟩
    exact ⟨_, rfl, a, rfl, by simp [ha]⟩

end

end Kind

def currentNode (puts : List Put) (g id : Bytes) : Option NodeRecord := Kind.nodes.current puts g id

def currentEdge (puts : List Put) (g id : Bytes) : Option EdgeRecord := Kind.edges.current puts g id

/-- The record put last for a node, if it is no tombstone. -/
def LiveNode (puts : List Put) (g id : Bytes) (n : NodeRecord) : Prop :=
  currentNode puts g id = some n ∧ n.tombstone = false

def LiveEdge (puts : List Put) (g id : Bytes) (e : EdgeRecord) : Prop :=
  currentEdge puts g id = some e ∧ e.tombstone = false

/-- A node is read if its row holds a live record. -/
theorem getNode_eq_some {s : Store} {g id : Bytes} {n : NodeRecord} :
    s.getNode g id = some n ↔ s.data[nodeKey g id]? = some (.node n) ∧ n.tombstone = false :=
  Kind.nodes.get_eq_some

theorem getEdge_eq_some {s : Store} {g id : Bytes} {e : EdgeRecord} :
    s.getEdge g id = some e ↔ s.data[edgeKey g id]? = some (.edge e) ∧ e.tombstone = false :=
  Kind.edges.get_eq_some

/-- A node is read if it is live. -/
theorem getNode_run {batches : List (List Put)} {g id : Bytes} {n : NodeRecord} :
    (Store.run {} batches).getNode g id = some n ↔ LiveNode batches.flatten g id n :=
  getNode_eq_some.trans (and_congr_left' Kind.nodes.data_run)

theorem getEdge_run {batches : List (List Put)} {g id : Bytes} {e : EdgeRecord} :
    (Store.run {} batches).getEdge g id = some e ↔ LiveEdge batches.flatten g id e :=
  getEdge_eq_some.trans (and_congr_left' Kind.edges.data_run)

theorem LiveNode.mem {puts : List Put} {g id : Bytes} {n : NodeRecord} (h : LiveNode puts g id n) :
    Put.node n ∈ puts ∧ n.graphId = g ∧ n.nodeId = id :=
  Kind.nodes.mem_of_current h.1

theorem LiveEdge.mem {puts : List Put} {g id : Bytes} {e : EdgeRecord} (h : LiveEdge puts g id e) :
    Put.edge e ∈ puts ∧ e.graphId = g ∧ e.edgeId = id :=
  Kind.edges.mem_of_current h.1

/-! ## The index after a run -/

/-- A live node's label leads to it. -/
theorem labelKey_mem_entries {n : NodeRecord} (hn : n.tombstone = false) {label : Bytes}
    (hl : label ∈ n.labels) : .put (labelKey n.graphId label n.nodeId) [] ∈
      (Put.node n).entries := by
  rw [Put.entries, hn]
  exact List.mem_flatMap.mpr ⟨label, hl, List.mem_cons_self⟩

/-- So does each of its values, under every label. -/
theorem propKey_mem_entries {n : NodeRecord} (hn : n.tombstone = false) {label prop : Bytes}
    {val : Value} (hl : label ∈ n.labels) (hv : n.properties[prop]? = some val) :
    .put (propKey n.graphId label prop val n.nodeId) [] ∈ (Put.node n).entries := by
  rw [Put.entries, hn]
  refine List.mem_flatMap.mpr ⟨label, hl, List.mem_cons_of_mem _ ?_⟩
  exact List.mem_map.mpr ⟨(prop, val), Std.ExtTreeMap.mem_toList_iff_getElem?_eq_some.mpr hv, rfl⟩

/-- Under the key of an adjacency entry there is only one put of a live edge. -/
theorem mem_entries {p : Put} {k v : Bytes} (h : .put k v ∈ p.entries) :
    (∃ (n : NodeRecord) (label : Bytes), p = .node n ∧ v = [] ∧
      (k = labelKey n.graphId label n.nodeId ∨
        ∃ kv : Bytes × Value, k = propKey n.graphId label kv.1 kv.2 n.nodeId)) ∨
      ∃ e : EdgeRecord, p = .edge e ∧ e.tombstone = false ∧ v = e.edgeId ∧
        (k = outAdjKey e.graphId e.startNode e.type e.endNode e.edgeId ∨
          k = inAdjKey e.graphId e.endNode e.type e.startNode e.edgeId) := by
  cases p with
  | node n =>
    left
    cases hn : n.tombstone with
    | true => simp [Put.entries, hn] at h
    | false =>
      simp only [Put.entries, hn, nodeEntries, Bool.false_eq_true, if_false,
        List.mem_flatMap, List.mem_cons, List.mem_map, Op.put.injEq] at h
      obtain ⟨label, -, ⟨rfl, rfl⟩ | ⟨kv, -, rfl, rfl⟩⟩ := h
      · exact ⟨n, label, rfl, rfl, .inl rfl⟩
      · exact ⟨n, label, rfl, rfl, .inr ⟨kv, rfl⟩⟩
  | edge e =>
    right
    cases he : e.tombstone with
    | true => simp [Put.entries, he] at h
    | false =>
      simp only [Put.entries, he, edgeEntries, Bool.false_eq_true, if_false, List.mem_cons,
        Op.put.injEq, List.not_mem_nil, or_false] at h
      rcases h with ⟨rfl, rfl⟩ | ⟨rfl, rfl⟩
      · exact ⟨e, rfl, he, rfl, .inl rfl⟩
      · exact ⟨e, rfl, he, rfl, .inr rfl⟩

theorem mem_entries_cases {p : Put} {k v : Bytes} (h : .put k v ∈ p.entries) :
    (v = [] ∧ (pfxLabel <+: k ∨ pfxProp <+: k)) ∨
      ∃ e : EdgeRecord, p = .edge e ∧ e.tombstone = false ∧ v = e.edgeId ∧
        (k = outAdjKey e.graphId e.startNode e.type e.endNode e.edgeId ∨
          k = inAdjKey e.graphId e.endNode e.type e.startNode e.edgeId) := by
  refine (mem_entries h).imp_left ?_
  rintro ⟨n, label, -, rfl, rfl | ⟨kv, rfl⟩⟩
  · exact ⟨rfl, .inl (by simp [labelKey, labelPrefix, lp])⟩
  · exact ⟨rfl, .inr (by simp [propKey, propValuePrefix, propSpace, lp])⟩

theorem outAdjKey_ne_inAdjKey (g v t w id g' v' t' w' id' : Bytes) :
    outAdjKey g v t w id ≠ inAdjKey g' v' t' w' id' := by
  simp [outAdjKey, outAdjPrefix, inAdjKey, inAdjPrefix, lp, pfxOutAdj, pfxInAdj]

/-- Adjacency keys lie outside the space of the node entries. -/
theorem adjKey_not_node {k : Bytes} (hk : pfxLabel <+: k ∨ pfxProp <+: k) (g v t w id : Bytes) :
    k ≠ outAdjKey g v t w id ∧ k ≠ inAdjKey g v t w id := by
  constructor
  · rintro rfl
    simp [outAdjKey, outAdjPrefix, lp, pfxOutAdj, pfxLabel, pfxProp] at hk
  · rintro rfl
    simp [inAdjKey, inAdjPrefix, lp, pfxInAdj, pfxLabel, pfxProp] at hk

/-- An entry's key settles its value. -/
theorem entries_agree {p q : Put} {k v w : Bytes} (hv : .put k v ∈ p.entries)
    (hw : .put k w ∈ q.entries) : v = w := by
  rcases mem_entries_cases hv with ⟨rfl, hk⟩ | ⟨e, -, -, rfl, hk⟩
  · rcases mem_entries_cases hw with ⟨rfl, -⟩ | ⟨e', -, -, -, hk'⟩
    · rfl
    · rcases hk' with hk' | hk'
      · exact absurd hk' (adjKey_not_node hk ..).1
      · exact absurd hk' (adjKey_not_node hk ..).2
  · rcases mem_entries_cases hw with ⟨-, hk'⟩ | ⟨e', -, -, rfl, hk'⟩
    · rcases hk with hk | hk
      · exact absurd hk (adjKey_not_node hk' ..).1
      · exact absurd hk (adjKey_not_node hk' ..).2
    · rcases hk with rfl | rfl
      · rcases hk' with hk' | hk'
        · exact (outAdjKey_inj.mp hk').2.2.2.2
        · exact absurd hk' (outAdjKey_ne_inAdjKey _ _ _ _ _ _ _ _ _ _)
      · rcases hk' with hk' | hk'
        · exact absurd hk'.symm (outAdjKey_ne_inAdjKey _ _ _ _ _ _ _ _ _ _)
        · exact (inAdjKey_inj.mp hk').2.2.2.2

/-- A put only ever adds to the index. -/
theorem eq_put_of_mem_entries {p : Put} {op : Op Bytes Bytes} (h : op ∈ p.entries) :
    ∃ v, op = .put op.key v := by
  cases op with
  | put k v => exact ⟨v, rfl⟩
  | del k =>
    cases p with
    | node n => cases hn : n.tombstone <;> simp [Put.entries, nodeEntries, hn] at h
    | edge e => cases he : e.tombstone <;> simp [Put.entries, edgeEntries, he] at h

/-- The index holds the entries of every live record ever put. -/
theorem index_run {batches : List (List Put)} {k v : Bytes} :
    (Store.run {} batches).index[k]? = some v ↔
      ∃ p ∈ batches.flatten, .put k v ∈ p.entries := by
  rw [Store.run_eq]
  constructor
  · intro h
    rcases getElem?_runOps_cases h with hold | ⟨op, hop, rfl, hval⟩
    · simp at hold
    · obtain ⟨p, hp, hmem⟩ := List.mem_flatMap.mp hop
      obtain ⟨w, hw⟩ := eq_put_of_mem_entries hmem
      rw [hw] at hmem hval
      obtain rfl : w = v := by simpa [Op.value] using hval
      exact ⟨p, hp, hmem⟩
  · rintro ⟨p, hp, hmem⟩
    refine getElem?_runOps_of_agree _ ?_ ⟨.put k v, List.mem_flatMap.mpr ⟨p, hp, hmem⟩, rfl⟩
    intro op hop hkey
    obtain ⟨q, -, hq⟩ := List.mem_flatMap.mp hop
    obtain ⟨w, hw⟩ := eq_put_of_mem_entries hq
    rw [hkey] at hw
    subst hw
    exact congrArg some (entries_agree hq hmem)

theorem mem_scanIndex {s : Store} {start : Bytes} {stop : Option Bytes} {k v : Bytes} :
    (k, v) ∈ s.scanIndex start stop ↔ s.index[k]? = some v ∧ inRange start stop k = true := by
  simp [Store.scanIndex, Std.ExtTreeMap.mem_toList_iff_getElem?_eq_some]

/-- A reading of a range that tells its keys apart does not repeat itself. -/
theorem nodup_filterMap_scanIndex {α : Type} {s : Store} {start : Bytes} {stop : Option Bytes}
    {f : Bytes × Bytes → Option α}
    (hf : ∀ {k v k' v' a}, (k, v) ∈ s.scanIndex start stop → (k', v') ∈ s.scanIndex start stop →
      f (k, v) = some a → f (k', v') = some a → k = k') :
    ((s.scanIndex start stop).filterMap f).Nodup := by
  have hrows : (s.scanIndex start stop).Nodup := (nodup_toList _).filter _
  rw [List.Nodup, List.pairwise_filterMap]
  refine hrows.imp_of_mem ?_
  rintro ⟨k, v⟩ ⟨k', v'⟩ hr hr' hne a ha _ ha' rfl
  obtain rfl := hf hr hr' ha ha'
  have hv := (mem_scanIndex.mp hr).1.symm.trans (mem_scanIndex.mp hr').1
  exact hne (by rw [Option.some.inj hv])

/-! ## Scans of nodes -/

/-- A scan answers a question exactly: everything asked for, each once, and
nothing else. -/
def Answers {α : Type} (found : List α) (P : α → Prop) : Prop :=
  found.Nodup ∧ ∀ a, a ∈ found ↔ P a

theorem collectIDs_concat (keep : Bytes → Bool) (ids : List Bytes) (a : Bytes) :
    collectIDs keep (ids ++ [a]) =
      if a ∈ collectIDs keep ids then collectIDs keep ids
      else if keep a then collectIDs keep ids ++ [a] else collectIDs keep ids := by
  rw [collectIDs, List.foldl_append, List.foldl_cons, List.foldl_nil, ← collectIDs]
  simp only [List.contains_iff_mem]

theorem mem_collectIDs {keep : Bytes → Bool} {ids : List Bytes} {id : Bytes} :
    id ∈ collectIDs keep ids ↔ id ∈ ids ∧ keep id = true := by
  induction ids using List.reverseRecOn with
  | nil => simp [collectIDs]
  | append_singleton ids a ih =>
    rw [collectIDs_concat]
    by_cases hseen : a ∈ collectIDs keep ids <;> cases hk : keep a <;> grind

theorem nodup_collectIDs (keep : Bytes → Bool) (ids : List Bytes) :
    (collectIDs keep ids).Nodup := by
  induction ids using List.reverseRecOn with
  | nil => simp [collectIDs]
  | append_singleton ids a ih =>
    rw [collectIDs_concat]
    by_cases hseen : a ∈ collectIDs keep ids
    · rwa [if_pos hseen]
    · rw [if_neg hseen]
      cases keep a with
      | true => simpa [List.nodup_append] using ⟨ih, fun x hx hxa => hseen (hxa ▸ hx)⟩
      | false => exact ih

theorem hasLabel_iff {n : NodeRecord} {label : Bytes} :
    hasLabel n label = true ↔ label ∈ n.labels := by
  simp [hasLabel]

section Nodes

variable {batches : List (List Put)} {g label prop : Bytes}

/-- A label scan returns the live nodes that have the label now. Node ids are
strings of the source, so their length fits its 64-bit spelling. -/
theorem scanLabel_answers
    (hfit : ∀ n, Put.node n ∈ batches.flatten → n.nodeId.length < 2 ^ 64) :
    Answers ((Store.run {} batches).scanLabel g label) fun id =>
      ∃ n, LiveNode batches.flatten g id n ∧ label ∈ n.labels := by
  refine ⟨nodup_collectIDs _ _, fun id => ?_⟩
  simp only [Store.scanLabel, mem_collectIDs, Option.any_eq_true, getNode_run, hasLabel_iff]
  refine ⟨And.right, fun h => ⟨?_, h⟩⟩
  obtain ⟨n, hn, hl⟩ := h
  obtain ⟨hput, rfl, rfl⟩ := hn.mem
  -- the entry the node's last put wrote
  refine List.mem_map.mpr ⟨(labelKey n.graphId label n.nodeId, []), ?_, ?_⟩
  · exact mem_scanIndex.mpr ⟨index_run.mpr ⟨_, hput, labelKey_mem_entries hn.2 hl⟩,
      (WaveSpan.Collections.inRange_prefixEnd _ _).mpr (List.prefix_append _ _)⟩
  · simp only [decodeLP_labelKey (hfit n hput)]

/-- A seek of the property index returns the live nodes that match now, if every
value that matches is spelled within the range. -/
theorem seekProp_answers {start : Bytes} {stop : Option Bytes} {nodeOffset : Nat}
    {eq : Option Value} {gte : Option Int64}
    (hrange : ∀ cur id, propMatches cur eq gte = true →
      inRange start stop (propKey g label prop cur id) = true ∧
        (propValuePrefix g label prop cur).length = nodeOffset) :
    Answers ((Store.run {} batches).seekProp g label prop start stop nodeOffset eq gte) fun id =>
      ∃ n, LiveNode batches.flatten g id n ∧ label ∈ n.labels ∧
        ∃ cur, n.properties[prop]? = some cur ∧ propMatches cur eq gte = true := by
  refine ⟨nodup_collectIDs _ _, fun id => ?_⟩
  simp only [Store.seekProp, mem_collectIDs, Option.any_eq_true, getNode_run, hasLabel_iff,
    Bool.and_eq_true]
  refine ⟨And.right, fun h => ⟨?_, h⟩⟩
  obtain ⟨n, hn, hl, cur, hcur, hmatch⟩ := h
  obtain ⟨hput, rfl, rfl⟩ := hn.mem
  obtain ⟨hin, rfl⟩ := hrange cur n.nodeId hmatch
  refine List.mem_filterMap.mpr ⟨(propKey n.graphId label prop cur n.nodeId, []), ?_, ?_⟩
  · exact mem_scanIndex.mpr
      ⟨index_run.mpr ⟨_, hput, propKey_mem_entries hn.2 hl hcur⟩, hin⟩
  · simp [propKey]

/-- The values an equality seek finds: those `valueEqual` compares by themselves. -/
def Seekable : Value → Prop
  | .bool _ | .int _ | .string _ => True
  | _ => False

theorem valueEqual_iff {cur val : Value} (h : Seekable val) :
    valueEqual cur val = true ↔ cur = val := by
  cases val <;> simp only [Seekable] at h <;> cases cur <;> simp [valueEqual]

/-- An equality seek returns the live nodes with the value now. -/
theorem seekProperty_answers {val : Value} (hval : Seekable val) :
    Answers ((Store.run {} batches).seekProperty g label prop val) fun id =>
      ∃ n, LiveNode batches.flatten g id n ∧ label ∈ n.labels ∧
        n.properties[prop]? = some val := by
  have hseek : Answers ((Store.run {} batches).seekProperty g label prop val) _ :=
    seekProp_answers (by
      intro cur id hcur
      obtain rfl : cur = val := (valueEqual_iff hval).mp hcur
      exact ⟨(WaveSpan.Collections.inRange_prefixEnd _ _).mpr (List.prefix_append _ _), rfl⟩)
  refine ⟨hseek.1, fun id => (hseek.2 id).trans ?_⟩
  simp [propMatches, valueEqual_iff hval]

theorem propMatches_gte {cur : Value} {bound : Int64} :
    propMatches cur none (some bound) = true ↔ ∃ i, cur = .int i ∧ bound ≤ i := by
  cases cur <;> simp [propMatches]

/-- The entries of the integers from a bound on lie in the range from the bound's own key to the end
of the property's integers. -/
theorem gte_in_range {bound : Int64} (cur : Value) (id : Bytes)
    (hcur : propMatches cur none (some bound) = true) :
    inRange (propValuePrefix g label prop (.int bound))
      (prefixEnd (propTypePrefix g label prop tagInt))
        (propKey g label prop cur id) = true ∧
      (propValuePrefix g label prop cur).length =
        (propTypePrefix g label prop tagInt).length + 8 := by
  obtain ⟨i, rfl, hle⟩ := propMatches_gte.mp hcur
  have hin : inRange (propTypePrefix g label prop tagInt)
      (prefixEnd (propTypePrefix g label prop tagInt)) (propKey g label prop (.int i) id) = true :=
    (WaveSpan.Collections.inRange_prefixEnd _ _).mpr (by
      simp [propTypePrefix, propKey, propValuePrefix, encodeOrderedValue])
  have hge : (compare (propKey g label prop (.int i) id)
      (propValuePrefix g label prop (.int bound))).isGE = true := by
    rw [propKey, propValuePrefix, propValuePrefix, List.append_assoc,
      WaveSpan.Collections.compare_append_left]
    exact isGE_ordered_int hle id
  unfold inRange at hin ⊢
  rw [Bool.and_eq_true] at hin ⊢
  exact ⟨⟨hge, hin.2⟩, by simp [propValuePrefix, propTypePrefix, encodeOrderedValue]⟩

theorem seekPropertyGTE_answers {bound : Int64} :
    Answers ((Store.run {} batches).seekPropertyGTE g label prop bound) fun id =>
      ∃ n, LiveNode batches.flatten g id n ∧ label ∈ n.labels ∧
        ∃ i, n.properties[prop]? = some (.int i) ∧ bound ≤ i := by
  have hseek : Answers ((Store.run {} batches).seekPropertyGTE g label prop bound) _ :=
    seekProp_answers gte_in_range
  refine ⟨hseek.1, fun id => (hseek.2 id).trans ?_⟩
  simp only [propMatches_gte]
  grind

end Nodes

/-! ## Scans of edges -/

def adjKeyOf (outgoing : Bool) (e : EdgeRecord) : Bytes :=
  if outgoing then outAdjKey e.graphId e.startNode e.type e.endNode e.edgeId
  else inAdjKey e.graphId e.endNode e.type e.startNode e.edgeId

def nearNode (outgoing : Bool) (e : EdgeRecord) : Bytes :=
  if outgoing then e.startNode else e.endNode

def Store.scanEdges (s : Store) (outgoing : Bool) (g node edgeType : Bytes) : List EdgeRecord :=
  if outgoing then s.scanOutgoing g node edgeType else s.scanIncoming g node edgeType

/-- The live records of an edge that is live now agree with it on where it
starts, where it ends and its type. -/
def Settled (puts : List Put) (g : Bytes) : Prop :=
  ∀ e, LiveEdge puts g e.edgeId e →
    ∀ e', Put.edge e' ∈ puts → e'.tombstone = false → e'.graphId = g → e'.edgeId = e.edgeId →
      e'.startNode = e.startNode ∧ e'.type = e.type ∧ e'.endNode = e.endNode

section Edges

variable {batches : List (List Put)} {g node edgeType : Bytes}

def adjSpace (outgoing : Bool) (g node : Bytes) : Bytes :=
  if outgoing then outAdjPrefix g node else inAdjPrefix g node

theorem scanEdges_eq (s : Store) (outgoing : Bool) :
    s.scanEdges outgoing g node edgeType =
      (s.scanIndex (adjPrefix (adjSpace outgoing g node) edgeType)
        (prefixEnd (adjPrefix (adjSpace outgoing g node) edgeType))).filterMap fun r =>
          s.getEdge g r.2 := by
  cases outgoing <;> rfl

/-- What a scan of edges meets. -/
theorem mem_scanEdges {s : Store} {outgoing : Bool} {e : EdgeRecord} :
    e ∈ s.scanEdges outgoing g node edgeType ↔
      ∃ k v, s.index[k]? = some v ∧ adjPrefix (adjSpace outgoing g node) edgeType <+: k ∧
        s.getEdge g v = some e := by
  simp [scanEdges_eq, mem_scanIndex, WaveSpan.Collections.inRange_prefixEnd, and_assoc]

theorem adjPrefix_append (space t : Bytes) : space <+: adjPrefix space t := by
  unfold adjPrefix
  split
  · exact List.prefix_rfl
  · exact List.prefix_append _ _

/-- The entries of one direction lie under its own two bytes. -/
theorem pfx_of_adjPrefix {outgoing : Bool} {k : Bytes}
    (h : adjPrefix (adjSpace outgoing g node) edgeType <+: k) :
    (if outgoing then pfxOutAdj else pfxInAdj) <+: k := by
  have hspace := (adjPrefix_append (adjSpace outgoing g node) edgeType).trans h
  cases outgoing with
  | true => exact List.IsPrefix.trans ⟨_, (List.append_assoc _ _ _).symm⟩ hspace
  | false => exact List.IsPrefix.trans ⟨_, (List.append_assoc _ _ _).symm⟩ hspace

/-- An entry a scan meets is one of a live record put for an edge at the node, and
of the type if one is given. -/
theorem entry_scanEdges {outgoing : Bool} {k v : Bytes}
    (h : (Store.run {} batches).index[k]? = some v)
    (hk : adjPrefix (adjSpace outgoing g node) edgeType <+: k) :
    ∃ e, Put.edge e ∈ batches.flatten ∧ e.tombstone = false ∧ v = e.edgeId ∧
      k = adjKeyOf outgoing e ∧ e.graphId = g ∧ nearNode outgoing e = node ∧
      (edgeType = [] ∨ edgeType = e.type) := by
  obtain ⟨p, hp, hmem⟩ := index_run.mp h
  have hpfx := pfx_of_adjPrefix hk
  rcases mem_entries_cases hmem with ⟨-, hnode⟩ | ⟨e, rfl, he, rfl, rfl | rfl⟩
  · -- a node entry starts with another byte
    cases k with
    | nil => cases outgoing <;> simp [pfxOutAdj, pfxInAdj] at hpfx
    | cons b bs =>
      cases outgoing <;> simp [pfxOutAdj, pfxInAdj, pfxLabel, pfxProp] at hpfx hnode <;> grind
  · cases outgoing with
    | true =>
      obtain ⟨rfl, rfl, ht⟩ := (adjPrefix_isPrefix pfxOutAdj).mp hk
      exact ⟨e, hp, he, rfl, rfl, rfl, rfl, ht⟩
    | false => simp [outAdjKey, outAdjPrefix, lp, pfxOutAdj, pfxInAdj] at hpfx
  · cases outgoing with
    | true => simp [inAdjKey, inAdjPrefix, lp, pfxOutAdj, pfxInAdj] at hpfx
    | false =>
      obtain ⟨rfl, rfl, ht⟩ := (adjPrefix_isPrefix pfxInAdj).mp hk
      exact ⟨e, hp, he, rfl, rfl, rfl, rfl, ht⟩

/-- The entry of an edge that is live now is met by the scans of its node. -/
theorem scanEdges_entry (outgoing : Bool) {e : EdgeRecord} (he : e.tombstone = false)
    (hput : Put.edge e ∈ batches.flatten) (ht : edgeType = [] ∨ edgeType = e.type) :
    (Store.run {} batches).index[adjKeyOf outgoing e]? = some e.edgeId ∧
      adjPrefix (adjSpace outgoing e.graphId (nearNode outgoing e)) edgeType <+:
        adjKeyOf outgoing e := by
  constructor
  · refine index_run.mpr ⟨_, hput, ?_⟩
    cases outgoing <;> simp [Put.entries, he, edgeEntries, adjKeyOf]
  · cases outgoing with
    | true => exact (adjPrefix_isPrefix pfxOutAdj).mpr ⟨rfl, rfl, ht⟩
    | false => exact (adjPrefix_isPrefix pfxInAdj).mpr ⟨rfl, rfl, ht⟩

theorem adjKeyOf_eq {e e' : EdgeRecord} {outgoing : Bool} (hg : e'.graphId = e.graphId)
    (hid : e'.edgeId = e.edgeId)
    (h : e'.startNode = e.startNode ∧ e'.type = e.type ∧ e'.endNode = e.endNode) :
    adjKeyOf outgoing e' = adjKeyOf outgoing e := by
  obtain ⟨hs, ht, he⟩ := h
  simp only [adjKeyOf, hg, hid, hs, ht, he]

/-- While edges stay where they are, a scan returns the live edges at the node, of
the type if one is given. -/
theorem scanEdges_answers (hset : Settled batches.flatten g) (outgoing : Bool) :
    Answers ((Store.run {} batches).scanEdges outgoing g node edgeType) fun e =>
      LiveEdge batches.flatten g e.edgeId e ∧ nearNode outgoing e = node ∧
        (edgeType = [] ∨ e.type = edgeType) := by
  -- an entry that leads to a live edge is that edge's own entry
  have hown : ∀ {k v e}, (Store.run {} batches).index[k]? = some v →
      adjPrefix (adjSpace outgoing g node) edgeType <+: k →
      (Store.run {} batches).getEdge g v = some e →
      v = e.edgeId ∧ k = adjKeyOf outgoing e ∧ nearNode outgoing e = node ∧
        (edgeType = [] ∨ e.type = edgeType) := by
    intro k v e hidx hk hget
    obtain ⟨e', hput, hlive', rfl, rfl, rfl, rfl, ht⟩ := entry_scanEdges hidx hk
    have hlive := getEdge_run.mp hget
    obtain ⟨-, hg, hid⟩ := hlive.mem
    have hsame := hset e (hid.symm ▸ hlive) e' hput hlive' rfl hid.symm
    refine ⟨hid.symm, adjKeyOf_eq hg.symm hid.symm hsame, ?_, ?_⟩
    · cases outgoing with
      | true => exact hsame.1.symm
      | false => exact hsame.2.2.symm
    · exact ht.imp_right fun h => hsame.2.1.symm.trans h.symm
  constructor
  · rw [scanEdges_eq]
    refine nodup_filterMap_scanIndex fun hr hr' he he' => ?_
    rw [mem_scanIndex, WaveSpan.Collections.inRange_prefixEnd] at hr hr'
    obtain ⟨-, hk, -⟩ := hown hr.1 hr.2 he
    obtain ⟨-, hk', -⟩ := hown hr'.1 hr'.2 he'
    exact hk.trans hk'.symm
  · intro e
    rw [mem_scanEdges]
    constructor
    · rintro ⟨k, v, hidx, hk, hget⟩
      obtain ⟨rfl, -, hnode, ht⟩ := hown hidx hk hget
      exact ⟨getEdge_run.mp hget, hnode, ht⟩
    · rintro ⟨hlive, rfl, ht⟩
      obtain ⟨hput, rfl, -⟩ := hlive.mem
      obtain ⟨hidx, hk⟩ := scanEdges_entry outgoing hlive.2 hput (ht.imp_right Eq.symm)
      exact ⟨_, _, hidx, hk, getEdge_run.mpr hlive⟩

end Edges

/-! ## The scans together -/

/-- After any run of batches the node scans answer exactly for every node, and the
property seeks for every value `valueEqual` compares; the edge scans do so while
edges stay where they are. -/
theorem indexes_answer_exactly (batches : List (List Put))
    (hfit : ∀ n, Put.node n ∈ batches.flatten → n.nodeId.length < 2 ^ 64) (g : Bytes) :
    (∀ label, Answers ((Store.run {} batches).scanLabel g label) fun id =>
      ∃ n, LiveNode batches.flatten g id n ∧ label ∈ n.labels) ∧
    (∀ label prop val, Seekable val →
      Answers ((Store.run {} batches).seekProperty g label prop val) fun id =>
        ∃ n, LiveNode batches.flatten g id n ∧ label ∈ n.labels ∧
          n.properties[prop]? = some val) ∧
    (∀ label prop bound,
      Answers ((Store.run {} batches).seekPropertyGTE g label prop bound) fun id =>
        ∃ n, LiveNode batches.flatten g id n ∧ label ∈ n.labels ∧
          ∃ i, n.properties[prop]? = some (.int i) ∧ bound ≤ i) ∧
    (Settled batches.flatten g →
      (∀ src edgeType, Answers ((Store.run {} batches).scanOutgoing g src edgeType) fun e =>
        LiveEdge batches.flatten g e.edgeId e ∧ e.startNode = src ∧
          (edgeType = [] ∨ e.type = edgeType)) ∧
      (∀ dst edgeType, Answers ((Store.run {} batches).scanIncoming g dst edgeType) fun e =>
        LiveEdge batches.flatten g e.edgeId e ∧ e.endNode = dst ∧
          (edgeType = [] ∨ e.type = edgeType))) := by
  refine ⟨fun label => scanLabel_answers hfit, fun label prop val => seekProperty_answers,
    fun label prop bound => seekPropertyGTE_answers, fun hset => ⟨?_, ?_⟩⟩
  · exact fun src edgeType => scanEdges_answers hset true
  · exact fun dst edgeType => scanEdges_answers hset false

/-- Graph `g` with nodes `a` and `b` and an edge `e` of type `T` between them; the
second batch takes label `L` from `a`. -/
def relabelled : List (List Put) :=
  [[.node { graphId := [0x67], nodeId := [0x61], labels := [[0x4c]] },
    .node { graphId := [0x67], nodeId := [0x62], labels := [[0x4c]] },
    .edge { graphId := [0x67], edgeId := [0x65], startNode := [0x61], endNode := [0x62],
            type := [0x54] }],
    [.node { graphId := [0x67], nodeId := [0x61], labels := [[0x4d]] }]]

theorem relabelled_node {n : NodeRecord} (hn : Put.node n ∈ relabelled.flatten) :
    n.nodeId = [0x61] ∨ n = { graphId := [0x67], nodeId := [0x62], labels := [[0x4c]] } := by
  simp only [relabelled, List.flatten_cons, List.flatten_nil, List.cons_append,
    List.nil_append, List.mem_cons, Put.node.injEq, reduceCtorEq, List.not_mem_nil, or_false,
    false_or] at hn
  rcases hn with rfl | rfl | rfl
  · exact .inl rfl
  · exact .inr rfl
  · exact .inl rfl

theorem relabelled_edge {e : EdgeRecord} (he : Put.edge e ∈ relabelled.flatten) :
    e = { graphId := [0x67], edgeId := [0x65], startNode := [0x61], endNode := [0x62],
          type := [0x54] } := by
  simpa [relabelled] using he

theorem relabelled_fits {n : NodeRecord} (hn : Put.node n ∈ relabelled.flatten) :
    n.nodeId.length < 2 ^ 64 := by
  rcases relabelled_node hn with h | h <;> rw [h] <;> decide

theorem relabelled_settled : Settled relabelled.flatten [0x67] := by
  intro e he e' he' _ _ _
  rw [relabelled_edge he.mem.1, relabelled_edge he']
  exact ⟨rfl, rfl, rfl⟩

theorem indexes_answer_exactly_relabelled :
    (Store.run {} relabelled).scanLabel [0x67] [0x4c] = [[0x62]] ∧
      (Answers ((Store.run {} relabelled).scanLabel [0x67] [0x4c]) fun id =>
        ∃ n, LiveNode relabelled.flatten [0x67] id n ∧ [0x4c] ∈ n.labels) ∧
      Answers ((Store.run {} relabelled).scanIncoming [0x67] [0x62] [0x54]) fun e =>
        LiveEdge relabelled.flatten [0x67] e.edgeId e ∧ e.endNode = [0x62] ∧
          (([0x54] : Bytes) = [] ∨ e.type = [0x54]) := by
  have hall := indexes_answer_exactly relabelled (fun _ => relabelled_fits) [0x67]
  exact ⟨by decide +kernel, hall.1 _, (hall.2.2.2 relabelled_settled).2 _ _⟩

/-- The edge `e` is put again with another start node. -/
def moved : List (List Put) :=
  [[.edge { graphId := [0x67], edgeId := [0x65], startNode := [0x61], endNode := [0x63] }],
    [.edge { graphId := [0x67], edgeId := [0x65], startNode := [0x62], endNode := [0x63] }]]

def withBytes : List (List Put) :=
  [[.node { graphId := [0x67], nodeId := [0x61], labels := [[0x4c]],
            properties := (∅ : GoMap Value).insert [0x70] (.bytes [0x01]) }]]

/-- An edge that moved is still found at its old start, and twice from its end; a
byte string is never found. -/
theorem stale_edge_found :
    ((Store.run {} moved).scanOutgoing [0x67] [0x61] []).map (·.startNode) = [[0x62]] ∧
      ((Store.run {} moved).scanIncoming [0x67] [0x63] []).map (·.edgeId) = [[0x65], [0x65]] ∧
      (Store.run {} withBytes).seekProperty [0x67] [0x4c] [0x70] (.bytes [0x01]) = [] ∧
      (Store.run {} withBytes).scanLabel [0x67] [0x4c] = [[0x61]] := by
  decide +kernel

end WaveSpan.Graph
