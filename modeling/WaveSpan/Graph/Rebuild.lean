/-
WaveSpan.Graph.Rebuild — rebuilding the indexes of a graph (`internal/graph/index.go`).

A rebuild first wipes the index, and the index is one column family for all graphs: `wipeIndex`
deletes what it finds from the first key to the last. Then it writes the entries of the graph's live
records again. What is left is the index of a run that has put the graph's current records and
nothing else (`index_rebuildIndexes`), over the same records.

So on the graph itself the queries answer what they answered before, apart from what only a stale
entry led to: an edge at a place it has left, or a node sought by one zero whose value is now the
other. Every query on another graph answers nothing.
-/
import WaveSpan.Graph.Index

namespace WaveSpan.Graph

open WaveSpan.Wire WaveSpan.Rows
open WaveSpan.Collections (GoMap prefixEnd inRange)

/-! ## The rebuild -/

/-- Every entry is deleted, whichever graph it belongs to. -/
def Store.wipeIndex (s : Store) : Store :=
  { s with index := runOps s.index (s.index.toList.map fun r => .del r.1) }

def rebuildNode (graph : Bytes) (n : NodeRecord) : List (Op Bytes Bytes) :=
  if n.tombstone then []
  else n.labels.flatMap fun label =>
    .put (labelKey graph label n.nodeId) [] ::
      n.properties.toList.map fun kv => .put (propKey graph label kv.1 kv.2 n.nodeId) []

def rebuildEdge (graph : Bytes) (e : EdgeRecord) : List (Op Bytes Bytes) :=
  if e.tombstone then []
  else [.put (outAdjKey graph e.startNode e.type e.endNode e.edgeId) e.edgeId,
    .put (inAdjKey graph e.endNode e.type e.startNode e.edgeId) e.edgeId]

def Store.nodesOf (s : Store) (graph : Bytes) : List NodeRecord :=
  (s.scanData (nodePrefix graph)).filterMap fun r => decodeNode r.2

def Store.edgesOf (s : Store) (graph : Bytes) : List EdgeRecord :=
  (s.scanData (edgePrefix graph)).filterMap fun r => decodeEdge r.2

def Store.rebuildIndexes (s : Store) (graph : Bytes) : Store :=
  let wiped := s.wipeIndex
  { wiped with
    index := runOps wiped.index
      ((wiped.nodesOf graph).flatMap (rebuildNode graph) ++
        (wiped.edgesOf graph).flatMap (rebuildEdge graph)) }

/-- Nothing is left of the index. -/
theorem wipeIndex_index (s : Store) : s.wipeIndex.index = ∅ := by
  refine Std.ExtTreeMap.ext_getElem? fun k => ?_
  rw [Std.ExtTreeMap.getElem?_empty]
  by_cases hk : k ∈ s.index.toList.map Prod.fst
  · refine getElem?_runOps_of_agree s.index ?_ ?_
    · rintro op hop -
      obtain ⟨r, -, rfl⟩ := List.mem_map.mp hop
      rfl
    · obtain ⟨r, hr, rfl⟩ := List.mem_map.mp hk
      exact ⟨_, List.mem_map_of_mem hr, rfl⟩
  · have hkeep : s.wipeIndex.index[k]? = s.index[k]? := by
      refine getElem?_runOps_of_forall_ne s.index fun op hop => ?_
      obtain ⟨r, hr, rfl⟩ := List.mem_map.mp hop
      rintro rfl
      exact hk (List.mem_map_of_mem hr)
    rw [hkeep]
    cases hrow : s.index[k]? with
    | none => rfl
    | some v =>
      exact absurd (List.mem_map_of_mem (Std.ExtTreeMap.mem_toList_iff_getElem?_eq_some.mpr hrow))
        hk

/-! ## The records of a graph -/

/-- Every record lies under its own key. -/
def Keyed (s : Store) : Prop := ∀ k r, s.data[k]? = some r → ∃ p : Put, p.row = .put k r

/-- Puts file records under their keys. -/
theorem keyed_run (batches : List (List Put)) : Keyed (Store.run {} batches) := by
  intro k r h
  rw [Store.run_eq] at h
  rcases getElem?_runOps_cases h with hold | ⟨op, hop, rfl, hval⟩
  · simp at hold
  · obtain ⟨p, -, rfl⟩ := List.mem_map.mp hop
    refine ⟨p, ?_⟩
    cases p <;> simp_all [Put.row, Op.value, Op.key]

/-- The records of a kind that a graph has, tombstones included. -/
def Kind.of {α : Type} (K : Kind α) (s : Store) (graph : Bytes) : List α :=
  (s.scanData (K.space graph)).filterMap fun r => K.decode r.2

section
variable {s : Store} {g : Bytes} {α : Type} {K : Kind α}

theorem mem_scanData {pfx k : Bytes} {r : Record} :
    (k, r) ∈ s.scanData pfx ↔ s.data[k]? = some r ∧ pfx <+: k := by
  simp [Store.scanData, Std.ExtTreeMap.mem_toList_iff_getElem?_eq_some,
    WaveSpan.Collections.inRange_prefixEnd]

theorem Keyed.key_eq (hs : Keyed s) {k : Bytes} {a : α} (h : s.data[k]? = some (K.record a)) :
    k = K.key (K.graphId a) (K.ident a) := by
  obtain ⟨p, hp⟩ := hs k _ h
  exact (K.row_eq_put.mp hp).2

/-- The records of a graph lie under its keys. -/
theorem Keyed.mem_of (hs : Keyed s) {a : α} :
    a ∈ K.of s g ↔ K.graphId a = g ∧ s.data[K.key g (K.ident a)]? = some (K.record a) := by
  simp only [Kind.of, List.mem_filterMap, Prod.exists, mem_scanData, K.decode_eq_some]
  constructor
  · rintro ⟨k, _, ⟨hrow, hk⟩, rfl⟩
    obtain rfl := hs.key_eq hrow
    obtain rfl := K.space_isPrefix.mp hk
    exact ⟨rfl, hrow⟩
  · rintro ⟨rfl, hrow⟩
    exact ⟨_, _, ⟨hrow, K.space_isPrefix.mpr rfl⟩, rfl⟩

def Store.records (s : Store) (graph : Bytes) : List Put :=
  (s.nodesOf graph).map .node ++ (s.edgesOf graph).map .edge

/-- A rebuilt index is that of a store into which only the graph's records were put. -/
theorem index_rebuildIndexes (hs : Keyed s) :
    (s.rebuildIndexes g).index = (Store.run {} [s.records g]).index := by
  have hnodes : (s.nodesOf g).flatMap (rebuildNode g) =
      (s.nodesOf g).flatMap fun n => (Put.node n).entries :=
    List.flatMap_congr fun n hn => by
      obtain ⟨rfl, -⟩ := (hs.mem_of (K := Kind.nodes)).mp hn
      rfl
  have hedges : (s.edgesOf g).flatMap (rebuildEdge g) =
      (s.edgesOf g).flatMap fun e => (Put.edge e).entries :=
    List.flatMap_congr fun e he => by
      obtain ⟨rfl, -⟩ := (hs.mem_of (K := Kind.edges)).mp he
      rfl
  rw [Store.run_eq]
  show runOps s.wipeIndex.index ((s.nodesOf g).flatMap (rebuildNode g) ++
    (s.edgesOf g).flatMap (rebuildEdge g)) = _
  rw [wipeIndex_index, hnodes, hedges]
  simp [Store.records, List.flatMap_map]

theorem node_mem_records {n : NodeRecord} : Put.node n ∈ s.records g ↔ n ∈ Kind.nodes.of s g := by
  simp [Store.records, Store.nodesOf, Kind.of, Kind.nodes]

theorem edge_mem_records {e : EdgeRecord} : Put.edge e ∈ s.records g ↔ e ∈ Kind.edges.of s g := by
  simp [Store.records, Store.edgesOf, Kind.of, Kind.edges]

/-- What is found in a list that holds all the answers and nothing else. -/
theorem findSome?_eq_some_iff_of_mem {α β : Type} {f : α → Option β} {l : List α} {P : β → Prop}
    (h : ∀ b, (∃ a ∈ l, f a = some b) ↔ P b) (huniq : ∀ b b', P b → P b' → b = b') (b : β) :
    l.findSome? f = some b ↔ P b := by
  constructor
  · intro hb
    exact (h b).mp (List.exists_of_findSome?_eq_some hb)
  · intro hb
    obtain ⟨a, ha, hfa⟩ := (h b).mpr hb
    cases hfind : l.findSome? f with
    | none =>
      rw [List.findSome?_eq_none_iff] at hfind
      rw [hfind a ha] at hfa
      cases hfa
    | some b' => rw [huniq b b' hb ((h b').mp (List.exists_of_findSome?_eq_some hfind))]

/-- A graph's records alone have the same current records. -/
theorem current_records (hs : Keyed s) (hmem : ∀ a, K.put a ∈ s.records g ↔ a ∈ K.of s g)
    {id : Bytes} {a : α} :
    K.current (s.records g) g id = some a ↔ s.data[K.key g id]? = some (K.record a) := by
  refine findSome?_eq_some_iff_of_mem (P := fun a => s.data[K.key g id]? = some (K.record a))
    (fun b => ?_) (fun b b' hb hb' => ?_) a
  · simp only [List.mem_reverse, K.put?_eq_some]
    constructor
    · rintro ⟨_, hput, rfl, rfl, rfl⟩
      exact (hs.mem_of.mp ((hmem b).mp hput)).2
    · intro hrow
      obtain ⟨rfl, rfl⟩ := K.key_inj.mp (hs.key_eq hrow)
      exact ⟨_, (hmem b).mpr (hs.mem_of.mpr ⟨rfl, hrow⟩), rfl, rfl, rfl⟩
  · exact K.record_inj.mp (Option.some.inj (hb.symm.trans hb'))

/-- The graph's records are the ones a store into which they alone were put has. -/
theorem getNode_records (hs : Keyed s) (id : Bytes) :
    (Store.run {} [s.records g]).getNode g id = s.getNode g id := by
  refine Option.ext fun n => ?_
  rw [getNode_run, getNode_eq_some, LiveNode, List.flatten_singleton]
  exact and_congr_left' (current_records hs fun _ => node_mem_records)

theorem getEdge_records (hs : Keyed s) (id : Bytes) :
    (Store.run {} [s.records g]).getEdge g id = s.getEdge g id := by
  refine Option.ext fun e => ?_
  rw [getEdge_run, getEdge_eq_some, LiveEdge, List.flatten_singleton]
  exact and_congr_left' (current_records hs fun _ => edge_mem_records)

/-- Each edge is among the records once, so it stays where it is. -/
theorem settled_records (hs : Keyed s) : Settled [s.records g].flatten g := by
  intro e he e' he' _ hg hid
  rw [List.flatten_singleton] at he he'
  have hrow := (current_records hs fun _ => edge_mem_records).mp he.1
  have hrow' := (hs.mem_of.mp (edge_mem_records.mp he')).2
  rw [show Kind.edges.ident e' = e.edgeId from hid, hrow] at hrow'
  obtain rfl := Kind.edges.record_inj.mp (Option.some.inj hrow')
  exact ⟨rfl, rfl, rfl⟩

/-! ## Queries on the graph itself -/

/-- A rebuilt store answers a query on the graph as the store of its records does. -/
theorem rebuildIndexes_scans (hs : Keyed s) :
    (∀ label, (s.rebuildIndexes g).scanLabel g label =
      (Store.run {} [s.records g]).scanLabel g label) ∧
    (∀ label prop start stop off eq gte,
      (s.rebuildIndexes g).seekProp g label prop start stop off eq gte =
      (Store.run {} [s.records g]).seekProp g label prop start stop off eq gte) ∧
    ∀ pfx, (s.rebuildIndexes g).scanAdjacency g pfx =
      (Store.run {} [s.records g]).scanAdjacency g pfx := by
  have hnode : ∀ id, (s.rebuildIndexes g).getNode g id =
      (Store.run {} [s.records g]).getNode g id :=
    fun id => (getNode_records hs id).symm
  have hedge : ∀ id, (s.rebuildIndexes g).getEdge g id =
      (Store.run {} [s.records g]).getEdge g id :=
    fun id => (getEdge_records hs id).symm
  refine ⟨fun label => ?_, fun label prop start stop off eq gte => ?_, fun pfx => ?_⟩
  · simp only [Store.scanLabel, Store.scanIndex, index_rebuildIndexes hs, hnode]
  · simp only [Store.seekProp, Store.scanIndex, index_rebuildIndexes hs, hnode]
  · simp only [Store.scanAdjacency, Store.scanIndex, index_rebuildIndexes hs, hedge]

/-- Two exact answers to one question agree up to order. -/
theorem Answers.perm {α : Type} {found found' : List α} {P P' : α → Prop} (h : Answers found P)
    (h' : Answers found' P') (hP : ∀ a, P a ↔ P' a) : found.Perm found' :=
  (List.perm_ext_iff_of_nodup h.1 h'.1).mpr fun a => (h.2 a).trans ((hP a).trans (h'.2 a).symm)

end

section
variable {batches : List (List Put)} {g id : Bytes}

theorem liveNode_records {n : NodeRecord} :
    LiveNode [(Store.run {} batches).records g].flatten g id n ↔
      LiveNode batches.flatten g id n := by
  rw [← getNode_run, ← getNode_run, getNode_records (keyed_run batches)]

theorem liveEdge_records {e : EdgeRecord} :
    LiveEdge [(Store.run {} batches).records g].flatten g id e ↔
      LiveEdge batches.flatten g id e := by
  rw [← getEdge_run, ← getEdge_run, getEdge_records (keyed_run batches)]

/-- What is among the records was put. -/
theorem mem_of_mem_records {p : Put} (h : p ∈ (Store.run {} batches).records g) :
    p ∈ batches.flatten := by
  have hs := keyed_run batches
  cases p with
  | node n =>
    have hrow := (hs.mem_of.mp (node_mem_records.mp h)).2
    exact (Kind.nodes.mem_of_current (Kind.nodes.data_run.mp hrow)).1
  | edge e =>
    have hrow := (hs.mem_of.mp (edge_mem_records.mp h)).2
    exact (Kind.edges.mem_of_current (Kind.edges.data_run.mp hrow)).1

/-- A rebuild adds no entry and keeps the order of those that stay. -/
theorem scanIndex_rebuild (start : Bytes) (stop : Option Bytes) :
    (((Store.run {} batches).rebuildIndexes g).scanIndex start stop).Sublist
      ((Store.run {} batches).scanIndex start stop) := by
  refine (toList_sublist fun k v h => ?_).filter _
  rw [index_rebuildIndexes (keyed_run batches), index_run, List.flatten_singleton] at h
  obtain ⟨p, hp, hentry⟩ := h
  exact index_run.mpr ⟨p, mem_of_mem_records hp, hentry⟩

/-- Ids that are met once are collected in the order they are met. -/
theorem collectIDs_of_nodup (keep : Bytes → Bool) {ids : List Bytes} (h : ids.Nodup) :
    collectIDs keep ids = ids.filter keep := by
  induction ids using List.reverseRecOn with
  | nil => rfl
  | append_singleton ids a ih =>
    obtain ⟨hids, -, hnew⟩ := List.nodup_append.mp h
    have hfresh : a ∉ collectIDs keep ids := fun hin =>
      hnew a (mem_collectIDs.mp hin).1 a (List.mem_singleton_self a) rfl
    rw [collectIDs_concat, if_neg hfresh, ih hids, List.filter_append]
    cases hk : keep a <;> simp [hk]

/-- In order, a part that has all the kept ids yields the same. -/
theorem collectIDs_eq_of_sublist {keep : Bytes → Bool} {ids ids' : List Bytes}
    (hsub : ids'.Sublist ids) (hnd : ids.Nodup)
    (hperm : (collectIDs keep ids').Perm (collectIDs keep ids)) :
    collectIDs keep ids' = collectIDs keep ids := by
  rw [collectIDs_of_nodup keep hnd, collectIDs_of_nodup keep (hnd.sublist hsub)] at hperm ⊢
  exact (hsub.filter keep).eq_of_length hperm.length_eq

/-- The entries under a label are those of its nodes. -/
theorem entry_scanLabel {label k v : Bytes} (h : (Store.run {} batches).index[k]? = some v)
    (hk : labelPrefix g label <+: k) :
    ∃ n, Put.node n ∈ batches.flatten ∧ k = labelKey g label n.nodeId := by
  obtain ⟨p, hp, hentry⟩ := index_run.mp h
  rcases mem_entries hentry with ⟨n, l, rfl, -, rfl | ⟨kv, rfl⟩⟩ | ⟨e, rfl, -, -, rfl | rfl⟩
  · obtain ⟨rfl, rfl⟩ : g = n.graphId ∧ label = l := by
      simpa [labelPrefix, labelKey, lp, lenPrefix_append_prefix, lenPrefix_prefix] using hk
    exact ⟨n, hp, rfl⟩
  · simp [labelPrefix, propKey, propValuePrefix, propSpace, lp, pfxLabel, pfxProp] at hk
  · simp [labelPrefix, outAdjKey, outAdjPrefix, lp, pfxLabel, pfxOutAdj] at hk
  · simp [labelPrefix, inAdjKey, inAdjPrefix, lp, pfxLabel, pfxInAdj] at hk

/-- A label scan of the rebuilt index. -/
theorem scanLabel_rebuild
    (hfit : ∀ n, Put.node n ∈ batches.flatten → n.nodeId.length < 2 ^ 64) (label : Bytes) :
    ((Store.run {} batches).rebuildIndexes g).scanLabel g label =
      (Store.run {} batches).scanLabel g label := by
  refine collectIDs_eq_of_sublist ((scanIndex_rebuild _ _).map _) ?_ ?_
  · rw [← List.filterMap_eq_map]
    refine nodup_filterMap_scanIndex fun {k v k' v' id} hr hr' hid hid' => ?_
    rw [mem_scanIndex, WaveSpan.Collections.inRange_prefixEnd] at hr hr'
    obtain ⟨n, hn, rfl⟩ := entry_scanLabel hr.1 hr.2
    obtain ⟨n', hn', rfl⟩ := entry_scanLabel hr'.1 hr'.2
    simp only [Function.comp_apply, decodeLP_labelKey (hfit n hn),
      decodeLP_labelKey (hfit n' hn')] at hid hid'
    rw [Option.some.inj (hid.trans hid'.symm)]
  · show (((Store.run {} batches).rebuildIndexes g).scanLabel g label).Perm
      ((Store.run {} batches).scanLabel g label)
    rw [(rebuildIndexes_scans (keyed_run batches)).1]
    have hfits : ∀ n, Put.node n ∈ [(Store.run {} batches).records g].flatten →
        n.nodeId.length < 2 ^ 64 := by
      intro n hn
      rw [List.flatten_singleton] at hn
      exact hfit n (mem_of_mem_records hn)
    refine (scanLabel_answers hfits).perm (scanLabel_answers hfit) fun id => ?_
    simp only [liveNode_records]

/-- A seek of the rebuilt index, up to order. -/
theorem seekProp_rebuild {label prop start : Bytes} {stop : Option Bytes} {nodeOffset : Nat}
    {eq : Option Value} {gte : Option Int64}
    (hrange : ∀ cur id, propMatches cur eq gte = true →
      inRange start stop (propKey g label prop cur id) = true ∧
        (propValuePrefix g label prop cur).length = nodeOffset) :
    (((Store.run {} batches).rebuildIndexes g).seekProp g label prop start stop
      nodeOffset eq gte).Perm
      ((Store.run {} batches).seekProp g label prop start stop nodeOffset eq gte) := by
  rw [(rebuildIndexes_scans (keyed_run batches)).2.1]
  refine (seekProp_answers hrange).perm (seekProp_answers hrange) fun id => ?_
  simp only [liveNode_records]

/-- Only the two zeros are equal without being the same. -/
theorem eq_of_valueEqual {cur val : Value} (hval : ∀ bits, val = .double bits → bits <<< 1 ≠ 0)
    (h : valueEqual cur val = true) : cur = val := by
  cases cur <;> cases val <;> simp only [valueEqual, Bool.false_eq_true, beq_iff_eq] at h
  case double.double a b =>
    simp only [doubleEq, Bool.and_eq_true, Bool.or_eq_true, beq_iff_eq] at h
    rcases h.2 with rfl | hz
    · rfl
    · exact absurd hz.2 (hval b rfl)
  all_goals rw [h]

/-- An equality seek of the rebuilt index. -/
theorem seekProperty_rebuild (label prop : Bytes) {val : Value}
    (hval : ∀ bits, val = .double bits → bits <<< 1 ≠ 0) :
    ((Store.run {} batches).rebuildIndexes g).seekProperty g label prop val =
      (Store.run {} batches).seekProperty g label prop val := by
  refine collectIDs_eq_of_sublist ((scanIndex_rebuild _ _).filterMap _) ?_
    (seekProp_rebuild fun cur id hcur => ?_)
  · -- the id is the rest of the key
    refine nodup_filterMap_scanIndex fun {k v k' v' id} hr hr' hid hid' => ?_
    rw [mem_scanIndex, WaveSpan.Collections.inRange_prefixEnd] at hr hr'
    obtain ⟨r, rfl⟩ := hr.2
    obtain ⟨r', rfl⟩ := hr'.2
    simp only [List.length_append, Nat.not_lt.mpr (Nat.le_add_right _ _), if_false,
      List.drop_left] at hid hid'
    rw [Option.some.inj (hid.trans hid'.symm)]
  · obtain rfl := eq_of_valueEqual hval hcur
    exact ⟨(WaveSpan.Collections.inRange_prefixEnd _ _).mpr (List.prefix_append _ _), rfl⟩

/-- A scan of edges over the rebuilt index. -/
theorem scanEdges_rebuild (hset : Settled batches.flatten g) (outgoing : Bool)
    (node edgeType : Bytes) :
    ((Store.run {} batches).rebuildIndexes g).scanEdges outgoing g node edgeType =
      (Store.run {} batches).scanEdges outgoing g node edgeType := by
  have hsub : (((Store.run {} batches).rebuildIndexes g).scanEdges outgoing g node edgeType).Sublist
      ((Store.run {} batches).scanEdges outgoing g node edgeType) := by
    rw [scanEdges_eq, scanEdges_eq]
    exact (scanIndex_rebuild _ _).filterMap _
  have heq : ((Store.run {} batches).rebuildIndexes g).scanEdges outgoing g node edgeType =
      (Store.run {} [(Store.run {} batches).records g]).scanEdges outgoing g node edgeType := by
    cases outgoing <;> exact (rebuildIndexes_scans (keyed_run batches)).2.2 _
  refine hsub.eq_of_length (List.Perm.length_eq ?_)
  rw [heq]
  refine (scanEdges_answers (settled_records (keyed_run batches)) outgoing).perm
    (scanEdges_answers hset outgoing) fun e => ?_
  simp only [liveEdge_records]

end

/-! ## Queries on other graphs -/

def kinds : List Bytes := [pfxLabel, pfxProp, pfxOutAdj, pfxInAdj]

/-- An entry names one graph. -/
theorem graph_of_kind {pfx pfx' g g' r r' : Bytes} (h : pfx ∈ kinds) (h' : pfx' ∈ kinds)
    (heq : pfx ++ (lenPrefix g ++ r) = pfx' ++ (lenPrefix g' ++ r')) : g = g' := by
  simp only [kinds, List.mem_cons, List.not_mem_nil, or_false] at h h'
  rcases h with rfl | rfl | rfl | rfl <;> rcases h' with rfl | rfl | rfl | rfl <;>
    simp [pfxLabel, pfxProp, pfxOutAdj, pfxInAdj, lenPrefix_append_inj] at heq
  all_goals exact heq.1

def Put.graphId : Put → Bytes
  | .node n => n.graphId
  | .edge e => e.graphId

/-- An entry stands in the space of its graph. -/
theorem kind_of_entry {p : Put} {k v : Bytes} (h : .put k v ∈ p.entries) :
    ∃ pfx ∈ kinds, ∃ r, k = pfx ++ (lenPrefix p.graphId ++ r) := by
  rcases mem_entries h with ⟨n, label, rfl, -, rfl | ⟨kv, rfl⟩⟩ | ⟨e, rfl, -, -, rfl | rfl⟩
  · exact ⟨pfxLabel, by simp [kinds], _, by
      simp only [labelKey, labelPrefix, lp, List.append_assoc]; rfl⟩
  · exact ⟨pfxProp, by simp [kinds], _, by
      simp only [propKey, propValuePrefix, propSpace, lp, List.append_assoc]; rfl⟩
  · exact ⟨pfxOutAdj, by simp [kinds], _, by
      simp only [outAdjKey, outAdjPrefix, lp, List.append_assoc]; rfl⟩
  · exact ⟨pfxInAdj, by simp [kinds], _, by
      simp only [inAdjKey, inAdjPrefix, lp, List.append_assoc]; rfl⟩

section
variable {s : Store} {g h : Bytes}

/-- A scan within the space of another graph meets nothing. -/
theorem scanIndex_rebuild_other (hs : Keyed s) (hne : h ≠ g) {pfx start : Bytes}
    {stop : Option Bytes}
    (hpfx : pfx ∈ kinds) (hrange : ∀ k, inRange start stop k = true → pfx ++ lenPrefix h <+: k) :
    (s.rebuildIndexes g).scanIndex start stop = [] := by
  refine List.eq_nil_iff_forall_not_mem.mpr fun ⟨k, v⟩ hmem => ?_
  rw [mem_scanIndex, index_rebuildIndexes hs, index_run, List.flatten_singleton] at hmem
  obtain ⟨⟨p, hp, hentry⟩, hin⟩ := hmem
  obtain ⟨pfx', hpfx', r', rfl⟩ := kind_of_entry hentry
  have hgraph : p.graphId = g := by
    cases p with
    | node n => exact (hs.mem_of.mp (node_mem_records.mp hp)).1
    | edge e => exact (hs.mem_of.mp (edge_mem_records.mp hp)).1
  obtain ⟨r, hr⟩ := hrange _ hin
  rw [List.append_assoc, hgraph] at hr
  exact hne (graph_of_kind hpfx hpfx' hr)

/-- Every query on another graph answers nothing. -/
theorem queries_rebuild_other (hs : Keyed s) (hne : h ≠ g) :
    (∀ label, (s.rebuildIndexes g).scanLabel h label = []) ∧
    (∀ label prop val, (s.rebuildIndexes g).seekProperty h label prop val = []) ∧
    (∀ label prop bound, (s.rebuildIndexes g).seekPropertyGTE h label prop bound = []) ∧
    (∀ src edgeType, (s.rebuildIndexes g).scanOutgoing h src edgeType = []) ∧
    ∀ dst edgeType, (s.rebuildIndexes g).scanIncoming h dst edgeType = [] := by
  -- the scan of a key prefix in the space of `h`
  have hscan (pfx q : Bytes) (hpfx : pfx ∈ kinds) (hq : pfx ++ lenPrefix h <+: q) :
      (s.rebuildIndexes g).scanIndex q (prefixEnd q) = [] :=
    scanIndex_rebuild_other hs hne hpfx fun k hk =>
      hq.trans ((WaveSpan.Collections.inRange_prefixEnd q k).mp hk)
  have hprop (label prop r : Bytes) : pfxProp ++ lenPrefix h <+: propSpace h label prop ++ r :=
    ⟨lenPrefix label ++ (lenPrefix prop ++ r), by simp [propSpace, lp]⟩
  refine ⟨fun label => ?_, fun label prop val => ?_, fun label prop bound => ?_,
    fun src edgeType => ?_, fun dst edgeType => ?_⟩
  · have hempty := hscan pfxLabel (labelPrefix h label) (by simp [kinds]) (List.prefix_append _ _)
    simp [Store.scanLabel, hempty, collectIDs]
  · have hempty := hscan pfxProp (propValuePrefix h label prop val) (by simp [kinds])
      (hprop label prop _)
    simp [Store.seekProperty, Store.seekProp, hempty, collectIDs]
  · have hstart : propValuePrefix h label prop (.int bound) =
        propTypePrefix h label prop tagInt ++ u64
          (bound.toUInt64 ^^^ WaveSpan.Collections.signBit) := by
      simp [propValuePrefix, propTypePrefix, encodeOrderedValue]
    have hempty : (s.rebuildIndexes g).scanIndex (propValuePrefix h label prop (.int bound))
        (prefixEnd (propTypePrefix h label prop tagInt)) = [] := by
      refine scanIndex_rebuild_other hs hne (show pfxProp ∈ kinds by simp [kinds]) fun k hk => ?_
      rw [hstart] at hk
      obtain ⟨u, rfl, -⟩ := (WaveSpan.Collections.inRange_append _ _ k none).mp hk
      rw [propTypePrefix, List.append_assoc]
      exact hprop label prop _
    simp [Store.seekPropertyGTE, Store.seekProp, hempty, collectIDs]
  · have hempty := hscan pfxOutAdj (adjPrefix (outAdjPrefix h src) edgeType) (by simp [kinds])
      ((List.prefix_append _ _).trans (adjPrefix_append _ edgeType))
    simp [Store.scanOutgoing, Store.scanAdjacency, hempty]
  · have hempty := hscan pfxInAdj (adjPrefix (inAdjPrefix h dst) edgeType) (by simp [kinds])
      ((List.prefix_append _ _).trans (adjPrefix_append _ edgeType))
    simp [Store.scanIncoming, Store.scanAdjacency, hempty]

end

/-! ## The queries together -/

/-- After any run of batches, a rebuild of a graph leaves what label scans on that graph answer, and
in which order; equality seeks too, unless for a zero; and adjacency scans while its edges stay
where they are. A range seek may answer in another order. On every other graph all of them answer
nothing. -/
theorem rebuild_results (batches : List (List Put))
    (hfit : ∀ n, Put.node n ∈ batches.flatten → n.nodeId.length < 2 ^ 64) (g : Bytes) :
    let s := Store.run {} batches
    let s' := s.rebuildIndexes g
    (∀ label, s'.scanLabel g label = s.scanLabel g label) ∧
    (∀ label prop val, (∀ bits : UInt64, val = .double bits → bits <<< 1 ≠ 0) →
      s'.seekProperty g label prop val = s.seekProperty g label prop val) ∧
    (∀ label prop bound,
      (s'.seekPropertyGTE g label prop bound).Perm (s.seekPropertyGTE g label prop bound)) ∧
    (Settled batches.flatten g → ∀ node edgeType,
      s'.scanOutgoing g node edgeType = s.scanOutgoing g node edgeType ∧
        s'.scanIncoming g node edgeType = s.scanIncoming g node edgeType) ∧
    ∀ h, h ≠ g →
      (∀ label, s'.scanLabel h label = []) ∧
      (∀ label prop val, s'.seekProperty h label prop val = []) ∧
      (∀ label prop bound, s'.seekPropertyGTE h label prop bound = []) ∧
      (∀ src edgeType, s'.scanOutgoing h src edgeType = []) ∧
      ∀ dst edgeType, s'.scanIncoming h dst edgeType = [] := by
  refine ⟨scanLabel_rebuild hfit, fun label prop val hval => seekProperty_rebuild label prop hval,
    fun label prop bound => seekProp_rebuild gte_in_range, fun hset node edgeType => ?_,
    fun h hne => queries_rebuild_other (keyed_run batches) hne⟩
  exact ⟨scanEdges_rebuild hset true node edgeType, scanEdges_rebuild hset false node edgeType⟩

theorem rebuild_results_relabelled :
    ((Store.run {} relabelled).rebuildIndexes [0x67]).scanLabel [0x67] [0x4c] =
        (Store.run {} relabelled).scanLabel [0x67] [0x4c] ∧
      ((Store.run {} relabelled).rebuildIndexes [0x67]).scanIncoming [0x67] [0x62] [0x54] =
        (Store.run {} relabelled).scanIncoming [0x67] [0x62] [0x54] := by
  obtain ⟨hlabel, -, -, hadj, -⟩ := rebuild_results relabelled (fun _ => relabelled_fits) [0x67]
  exact ⟨hlabel _, (hadj relabelled_settled _ _).2⟩

/-- Graphs `g` and `h`, each with a node of label `L` with property `p` and a loop at it. -/
def twoGraphs : List (List Put) :=
  [[[0x67], [0x68]].flatMap fun g =>
    [.node { graphId := g, nodeId := [0x61], labels := [[0x4c]],
             properties := (∅ : GoMap Value).insert [0x70] (.int 1) },
      .edge { graphId := g, edgeId := [0x65], startNode := [0x61], endNode := [0x61] }]]

/-- A rebuild of `g` takes the entries of `h` away, and in `g` the edge that moved from the place it
was still found at. -/
theorem rebuild_wipes_other :
    (Store.run {} twoGraphs).scanLabel [0x68] [0x4c] = [[0x61]] ∧
      ((Store.run {} twoGraphs).rebuildIndexes [0x67]).scanLabel [0x68] [0x4c] = [] ∧
      (Store.run {} twoGraphs).seekProperty [0x68] [0x4c] [0x70] (.int 1) = [[0x61]] ∧
      ((Store.run {} twoGraphs).rebuildIndexes [0x67]).seekProperty [0x68] [0x4c] [0x70]
        (.int 1) = [] ∧
      ((Store.run {} twoGraphs).scanOutgoing [0x68] [0x61] []).length = 1 ∧
      ((Store.run {} twoGraphs).rebuildIndexes [0x67]).scanOutgoing [0x68] [0x61] [] = [] ∧
      ((Store.run {} moved).scanOutgoing [0x67] [0x61] []).length = 1 ∧
      (((Store.run {} moved).rebuildIndexes [0x67]).scanOutgoing [0x67] [0x61] []).length = 0 := by
  have hother := queries_rebuild_other (keyed_run twoGraphs) (g := [0x67]) (h := [0x68]) (by decide)
  refine ⟨by decide +kernel, hother.1 _, by decide +kernel, hother.2.1 _ _ _, by decide +kernel,
    hother.2.2.2.1 _ _, by decide +kernel, by decide +kernel⟩

end WaveSpan.Graph
