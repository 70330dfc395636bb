/-
WaveSpan.Backup.Selection — a backup of selected namespaces, graphs and collections
(`internal/backup/selector.go`, `protomap.go`, `contributors.go`, `logical_export.go`,
`coordinator.go`, `client.go`, `internal/collections/reshard.go`).

A request names what it wants; a member's export asks, for each row, the contributor
of its column family whether the row is selected, and that reads the owner off the
row's key. There are five key layouts, and each is read back (`selects_iff`): for
records as long as no namespace's length starts with the index sentinel. The selection
travels to a member in the request or directly, unchanged either way
(`selectorFromProto_selectionToProto`).

In between stands the assigner, which says what each live member is to export. It is
given the members and not the selection, and the one in use hands every member the
empty selection: a request for one namespace exports everything, and has what it asked for
exactly if nothing else is there (`backup_holds_selection`).
-/
import WaveSpan.Backup.Repaired
import WaveSpan.Collections.Moves
import WaveSpan.Graph.Keys
import WaveSpan.Vector.Keys

namespace WaveSpan.Backup

open WaveSpan.Wire WaveSpan.Collections
open WaveSpan.Records (latestKey dataKey ttlKey namespaceOfKey StartsWithSentinel Version)
open WaveSpan.Rows (runOps getElem?_runOps_of_agree getElem?_runOps_cases)

/-! ## Selectors -/

/-- What a backup is restricted to; a set that is empty selects nothing of its kind,
and if all are empty everything is selected. -/
structure Selector where
  namespaces : GoMap Unit := ∅
  graphs : GoMap Unit := ∅
  vectorCollections : GoMap Unit := ∅

def Selector.isEmpty (s : Selector) : Bool :=
  s.namespaces.isEmpty && s.graphs.isEmpty && s.vectorCollections.isEmpty

structure SelectionMsg where
  namespaces : List Bytes := []
  graphs : List Bytes := []
  vectorCollections : List Bytes := []

def setFromSlice (ss : List Bytes) : GoMap Unit := ss.foldl (fun m s => m.insert s ()) ∅

def sliceFromSet (set : GoMap Unit) : List Bytes := set.toList.map Prod.fst

def selectorFromProto : Option SelectionMsg → Selector
  | none => {}
  | some s =>
    { namespaces := setFromSlice s.namespaces, graphs := setFromSlice s.graphs
      vectorCollections := setFromSlice s.vectorCollections }

def selectionToProto (s : Selector) : Option SelectionMsg :=
  if s.isEmpty then none
  else
    some { namespaces := sliceFromSet s.namespaces, graphs := sliceFromSet s.graphs
           vectorCollections := sliceFromSet s.vectorCollections }

theorem mem_setFromSlice {ss : List Bytes} {s : Bytes} : s ∈ setFromSlice ss ↔ s ∈ ss := by
  have hfold : ∀ m : GoMap Unit, s ∈ ss.foldl (fun m s => m.insert s ()) m ↔ s ∈ m ∨ s ∈ ss := by
    induction ss with
    | nil => simp
    | cons a ss ih =>
      intro m
      rw [List.foldl_cons, ih, Std.ExtTreeMap.mem_insert, List.mem_cons]
      simp only [Std.compare_eq_iff_eq, eq_comm (a := a)]
      tauto
  rw [setFromSlice, hfold]
  simp

/-- A selection goes to a slice and back. -/
theorem setFromSlice_sliceFromSet (set : GoMap Unit) : setFromSlice (sliceFromSet set) = set := by
  refine Std.ExtTreeMap.ext_getElem? fun k => ?_
  have hmem : k ∈ setFromSlice (sliceFromSet set) ↔ k ∈ set := by
    rw [mem_setFromSlice, sliceFromSet]
    simp
  rw [Std.ExtTreeMap.mem_iff_isSome_getElem?, Std.ExtTreeMap.mem_iff_isSome_getElem?] at hmem
  revert hmem
  cases (setFromSlice (sliceFromSet set))[k]? <;> cases set[k]? <;> simp

theorem eq_of_isEmpty {s : Selector} (h : s.isEmpty = true) : s = {} := by
  simp only [Selector.isEmpty, Bool.and_eq_true, Std.ExtTreeMap.isEmpty_iff] at h
  obtain ⟨⟨hn, hg⟩, hv⟩ := h
  cases s
  simp_all

/-- A selection arrives as it was sent. -/
theorem selectorFromProto_selectionToProto (s : Selector) :
    selectorFromProto (selectionToProto s) = s := by
  unfold selectionToProto
  split
  · rename_i h
    exact (eq_of_isEmpty h).symm
  · simp only [selectorFromProto, setFromSlice_sliceFromSet]

/-! ## Who a row belongs to -/

/-- The collection that a full collections key belongs to; none for rows of the
control shards and for those a shard keeps for itself. -/
def namespaceCollectionOfKey (key : Bytes) : Option (Bytes × Bytes) :=
  if key.length < 8 then none
  else if getU64 (key.take 8) < firstDataShard then none
  else Restore.nsCollOfSuffix (key.drop 8)

/-- Whether a family's contributor includes a row. -/
def selects (cf : ColumnFamily) (key : Bytes) (sel : Selector) : Bool :=
  match cf with
  | .sys => true
  | .kvData | .kvMeta => (namespaceOfKey key).any fun ns => sel.namespaces.contains ns
  | .replData =>
    (namespaceCollectionOfKey key).any fun nc => sel.namespaces.contains nc.1
  | .graphData | .graphIndex => (Graph.ofKey key).any fun g => sel.graphs.contains g
  | .vectorRaw | .vectorIndex =>
    (Vector.collectionOfKey key).any fun c => sel.vectorCollections.contains c
  -- no contributor owns these, and they are never exported
  | .replLog | .cacheMeta => false

inductive Entity where
  | ns (name : Bytes)
  | graph (name : Bytes)
  | vectors (name : Bytes)
  deriving DecidableEq, Repr

def Selector.Has (sel : Selector) : Entity → Prop
  | .ns name => name ∈ sel.namespaces
  | .graph name => name ∈ sel.graphs
  | .vectors name => name ∈ sel.vectorCollections

/-- The keys the tiers write, and to what each belongs. -/
inductive KeyOf : ColumnFamily → Bytes → Option Entity → Prop
  | sys (key) : KeyOf .sys key none
  | data (ns key v) : KeyOf .kvData (dataKey ns key v) (some (.ns ns))
  | latest (ns key) : KeyOf .kvMeta (latestKey ns key) (some (.ns ns))
  | ttl (expires ns key) : KeyOf .kvMeta (ttlKey expires ns key) (some (.ns ns))
  | control (shard rest) : shard < firstDataShard → KeyOf .replData (u64 shard ++ rest) none
  | own (shard) (k : RowKey) : firstDataShard ≤ shard → k.scope = none →
      KeyOf .replData (k.enc shard) none
  | row (shard) (k : RowKey) (scope) : firstDataShard ≤ shard → k.scope = some scope →
      KeyOf .replData (k.enc shard) (some (.ns scope.1.val))
  | node (g id) : KeyOf .graphData (Graph.nodeKey g id) (some (.graph g))
  | edge (g id) : KeyOf .graphData (Graph.edgeKey g id) (some (.graph g))
  | label (g l id) : KeyOf .graphIndex (Graph.labelKey g l id) (some (.graph g))
  | prop (g l p val id) : KeyOf .graphIndex (Graph.propKey g l p val id) (some (.graph g))
  | outAdj (g v t w id) : KeyOf .graphIndex (Graph.outAdjKey g v t w id) (some (.graph g))
  | inAdj (g v t w id) : KeyOf .graphIndex (Graph.inAdjKey g v t w id) (some (.graph g))
  | raw (c id) : KeyOf .vectorRaw (Vector.rawKey c id) (some (.vectors c))
  | vecMeta (c id) : KeyOf .vectorIndex (Vector.metaKey c id) (some (.vectors c))
  | attach (node c id) : KeyOf .vectorIndex (Vector.attachKey node c id) (some (.vectors c))

/-! ## Reading the owner off a key -/

theorem length_le_lenPrefix (b : Bytes) : b.length ≤ (lenPrefix b).length := by
  simp [lenPrefix]

/-- The collection of an element row. -/
theorem nsCollOfSuffix_data {b r t : Bytes} {ns coll : Chunk} (hns : takeChunk b = some (ns, r))
    (hcoll : takeChunk r = some (coll, t)) :
    Restore.nsCollOfSuffix (0x01 :: b) = some (ns.val, coll.val) := by
  simp [Restore.nsCollOfSuffix, hns, hcoll]

/-- The collection of an index row. -/
theorem nsCollOfSuffix_due {sub : UInt8} {due : UInt64} {b r t : Bytes} {ns coll : Chunk}
    (hsub : sub = 0x02 ∨ sub = 0x05 ∨ sub = 0x06) (hns : takeChunk b = some (ns, r))
    (hcoll : takeChunk r = some (coll, t)) :
    Restore.nsCollOfSuffix (sub :: (u64 due ++ b)) = some (ns.val, coll.val) := by
  have hne : sub ≠ 0x01 := by rcases hsub with rfl | rfl | rfl <;> decide
  have hlen : ¬ (sub :: (u64 due ++ b)).length < 9 := by simp
  have hdrop : (sub :: (u64 due ++ b)).drop 9 = b := by
    rw [List.drop_succ_cons, drop_u64_append]
  unfold Restore.nsCollOfSuffix
  simp only [if_neg hne, if_pos hsub, if_neg hlen, hdrop, hns, hcoll]

/-- The collection of a shard's row is read off its key. -/
theorem nsCollOfSuffix_suffix {k : RowKey} (h : k.suffix.length < 2 ^ 32) :
    Restore.nsCollOfSuffix k.suffix = k.scope.map fun scope => (scope.1.val, scope.2.val) := by
  have hdata : ∀ {ns coll : Chunk} {t : Bytes}, (0x01 :: inScope ns coll t).length < 2 ^ 32 →
      Restore.nsCollOfSuffix (0x01 :: inScope ns coll t) = some (ns.val, coll.val) := by
    intro ns coll t hlen
    have hscope : (inScope ns coll t).length < 2 ^ 32 := by
      rw [List.length_cons] at hlen
      omega
    obtain ⟨r, hns, hcoll⟩ := takeChunk_inScope hscope
    exact nsCollOfSuffix_data hns hcoll
  have hdue : ∀ {sub : UInt8} {due : UInt64} {ns coll : Chunk} {t : Bytes},
      sub = 0x02 ∨ sub = 0x05 ∨ sub = 0x06 →
      (sub :: (u64 due ++ inScope ns coll t)).length < 2 ^ 32 →
      Restore.nsCollOfSuffix (sub :: (u64 due ++ inScope ns coll t)) = some (ns.val, coll.val) := by
    intro sub due ns coll t hsub hlen
    have hscope : (inScope ns coll t).length < 2 ^ 32 := by
      rw [List.length_cons, List.length_append] at hlen
      omega
    obtain ⟨r, hns, hcoll⟩ := takeChunk_inScope hscope
    exact nsCollOfSuffix_due hsub hns hcoll
  cases k with
  | applied | dedupSeq | frozen | dedup | ring => rfl
  | card | elem | zptr | type | ttlPtr | pool | lease | tomb => exact hdata h
  | ttlIdx => exact hdue (.inl rfl) h
  | budExp => exact hdue (.inr (.inl rfl)) h
  | budTombGC => exact hdue (.inr (.inr rfl)) h

/-- The collection is read off the key of its rows. -/
theorem namespaceCollectionOfKey_enc {shard : UInt64} (hshard : firstDataShard ≤ shard)
    {k : RowKey} (h : (k.enc shard).length < 2 ^ 32) :
    namespaceCollectionOfKey (k.enc shard) =
      k.scope.map fun scope => (scope.1.val, scope.2.val) := by
  have hlen : (u64 shard ++ k.suffix).length < 2 ^ 32 := h
  rw [List.length_append] at hlen
  show namespaceCollectionOfKey (u64 shard ++ k.suffix) = _
  unfold namespaceCollectionOfKey
  rw [if_neg (by simp), take_u64_append, getU64_u64, if_neg (by simpa using hshard),
    drop_u64_append, nsCollOfSuffix_suffix (by omega)]

/-- Rows of the control shards belong to no collection. -/
theorem namespaceCollectionOfKey_control {shard : UInt64} (hshard : shard < firstDataShard)
    (rest : Bytes) : namespaceCollectionOfKey (u64 shard ++ rest) = none := by
  unfold namespaceCollectionOfKey
  rw [if_neg (by simp), take_u64_append, getU64_u64, if_pos hshard]

section
variable {ns key : Bytes}

/-- The namespace is read off a record's key. -/
theorem namespaceOfKey_dataKey (hlen : ns.length < 2 ^ 64) (h : ¬ StartsWithSentinel ns.length)
    (v : Version) : namespaceOfKey (dataKey ns key v) = some ns := by
  have hkey : dataKey ns key v = latestKey ns (lenPrefix key ++ Records.encodeVersion v) := by
    simp [dataKey, Records.dataKeyPrefix, latestKey]
  rw [hkey]
  exact Records.namespaceOfKey_latestKey hlen h

theorem namespaceOfKey_ttlKey (hlen : ns.length < 2 ^ 64) (expires : Int64) :
    namespaceOfKey (ttlKey expires ns key) = some ns := by
  have hparse := Records.parseTTLKey_ttlKey hlen expires key
  unfold ttlKey at hparse ⊢
  simp [namespaceOfKey, hparse]

end

/-- The graph of a record or an entry is read off its key. -/
theorem ofKey_of_prefix {g pfx k : Bytes} (h : pfx ++ lenPrefix g <+: k) (hlen : g.length < 2 ^ 64)
    (hpfx : pfx ∈ [Graph.pfxNode, Graph.pfxEdge, Graph.pfxLabel, Graph.pfxProp, Graph.pfxOutAdj,
      Graph.pfxInAdj]) : Graph.ofKey k = some g := by
  obtain ⟨rest, rfl⟩ := h
  simp only [List.mem_cons, List.not_mem_nil, or_false] at hpfx
  rcases hpfx with rfl | rfl | rfl | rfl | rfl | rfl <;>
    simp [Graph.ofKey, Graph.pfxNode, Graph.pfxEdge, Graph.pfxLabel, Graph.pfxProp,
      Graph.pfxOutAdj, Graph.pfxInAdj, Graph.decodeLP, takeLenPrefix_lenPrefix _ hlen]

/-- A family's contributor includes the rows of what is selected and no others. -/
theorem selects_iff {cf : ColumnFamily} {k : Bytes} {o : Option Entity} {sel : Selector}
    (hkey : KeyOf cf k o) (hlen : k.length < 2 ^ 32)
    (hplain : ∀ n, o = some (.ns n) → ¬ StartsWithSentinel n.length) :
    selects cf k sel = true ↔ cf = .sys ∨ ∃ en, o = some en ∧ sel.Has en := by
  -- a part of the key is no longer than the key
  have hpart : ∀ {pre b : Bytes}, pre ++ lenPrefix b <+: k → b.length < 2 ^ 64 := by
    intro pre b hpre
    have hle := hpre.length_le
    have := length_le_lenPrefix b
    rw [List.length_append] at hle
    omega
  have hone : ∀ a b : Bytes, a <+: a ++ b := List.prefix_append
  have hgraph : ∀ {pfx g : Bytes}, pfx ++ lenPrefix g <+: k →
      pfx ∈ [Graph.pfxNode, Graph.pfxEdge, Graph.pfxLabel, Graph.pfxProp, Graph.pfxOutAdj,
        Graph.pfxInAdj] → Graph.ofKey k = some g :=
    fun hpre hpfx => ofKey_of_prefix hpre (hpart hpre) hpfx
  cases hkey with
  | sys key => simp [selects]
  | data ns key v =>
    have hns : ns.length < 2 ^ 64 := @hpart [] ns ((hone _ _).trans (hone _ _))
    simp [selects, namespaceOfKey_dataKey hns (hplain ns rfl) v, Selector.Has]
  | latest ns key =>
    have hns : ns.length < 2 ^ 64 := @hpart [] ns (hone _ _)
    simp [selects, Records.namespaceOfKey_latestKey hns (hplain ns rfl), Selector.Has]
  | ttl expires ns key =>
    have hns : ns.length < 2 ^ 64 := by
      have := length_le_lenPrefix ns
      simp only [ttlKey, List.length_cons, List.length_append] at hlen
      omega
    simp [selects, namespaceOfKey_ttlKey hns expires, Selector.Has]
  | control shard rest hshard => simp [selects, namespaceCollectionOfKey_control hshard]
  | own shard k hshard hscope =>
    simp [selects, namespaceCollectionOfKey_enc hshard hlen, hscope]
  | row shard k scope hshard hscope =>
    simp [selects, namespaceCollectionOfKey_enc hshard hlen, hscope, Selector.Has]
  | node g id =>
    have hg : Graph.ofKey _ = some g := @hgraph Graph.pfxNode g (hone _ _) (by simp)
    simp [selects, hg, Selector.Has]
  | edge g id =>
    have hg : Graph.ofKey _ = some g := @hgraph Graph.pfxEdge g (hone _ _) (by simp)
    simp [selects, hg, Selector.Has]
  | label g l id =>
    have hg : Graph.ofKey _ = some g :=
      @hgraph Graph.pfxLabel g ((hone _ _).trans (hone _ _)) (by simp)
    simp [selects, hg, Selector.Has]
  | prop g l p val id =>
    have hg : Graph.ofKey _ = some g := @hgraph Graph.pfxProp g
      ((((hone _ _).trans (hone _ _)).trans (hone _ _)).trans (hone _ _)) (by simp)
    simp [selects, hg, Selector.Has]
  | outAdj g v t w id =>
    have hg : Graph.ofKey _ = some g := @hgraph Graph.pfxOutAdj g
      ((((hone _ _).trans (hone _ _)).trans (hone _ _)).trans (hone _ _)) (by simp)
    simp [selects, hg, Selector.Has]
  | inAdj g v t w id =>
    have hg : Graph.ofKey _ = some g := @hgraph Graph.pfxInAdj g
      ((((hone _ _).trans (hone _ _)).trans (hone _ _)).trans (hone _ _)) (by simp)
    simp [selects, hg, Selector.Has]
  | raw c id =>
    simp [selects, Vector.collectionOfKey_rawKey (hpart (hone _ _)), Selector.Has]
  | vecMeta c id =>
    simp [selects, Vector.collectionOfKey_metaKey (hpart (hone _ _)), Selector.Has]
  | attach node c id =>
    have hnode := hpart ((hone _ _).trans (hone _ _) : Vector.pfxAttach ++ lenPrefix node <+: _)
    have hc := hpart (hone _ _ : (Vector.pfxAttach ++ lenPrefix node) ++ lenPrefix c <+: _)
    simp [selects, Vector.collectionOfKey_attachKey hnode hc, Selector.Has]

/-! ## A member's export -/

section Export

variable (captureMs : Int64) (sel : Selector) (src : LocalStore)

/-- The pairs of a family in an export: those selected, up to the frontier. -/
def selectedPairs (cf : ColumnFamily) : List (Bytes × Row) :=
  (scanRows src cf [] none).filter fun kv =>
    (sel.isEmpty || selects cf kv.1 sel) && Restore.exported captureMs cf kv

/-- The logical export of a node under a selection; an empty family is left out. -/
def exportSelected : Restore.NodeExport :=
  let cfs := Restore.authoritativeCFs.filter fun cf => selectedPairs captureMs sel src cf ≠ []
  { formatVersion := Restore.manifestFormatVersion
    cfs := cfs.map fun cf => ⟨cf.name, (selectedPairs captureMs sel src cf).length⟩
    objects := cfs.foldl
      (fun m cf => m.insert cf.name ⟨selectedPairs captureMs sel src cf, false⟩) ∅ }

variable {captureMs sel src}

theorem exportSelected_object {name : Bytes} {obj : Restore.CFObject} :
    (exportSelected captureMs sel src).objects[name]? = some obj ↔
      ∃ cf ∈ Restore.authoritativeCFs, cf.name = name ∧ selectedPairs captureMs sel src cf ≠ [] ∧
        obj = ⟨selectedPairs captureMs sel src cf, false⟩ := by
  rw [exportSelected, Restore.getElem?_objects]
  simp only [List.mem_filter, decide_eq_true_eq]
  constructor
  · rintro ⟨cf, ⟨hcf, hne⟩, hname, rfl⟩
    exact ⟨cf, hcf, hname, hne, rfl⟩
  · rintro ⟨cf, hcf, hname, hne, rfl⟩
    exact ⟨cf, ⟨hcf, hne⟩, hname, rfl⟩

/-- The pairs of a selected export. -/
theorem mem_selectedPairs {cf : ColumnFamily} {k : Bytes} {row : Row} :
    (k, row) ∈ selectedPairs captureMs sel src cf ↔
      src[rowKey cf k]? = some row ∧ (sel.isEmpty = true ∨ selects cf k sel = true) ∧
        Restore.exported captureMs cf (k, row) = true := by
  have hall : inRange [] none k = true := by cases k <;> simp [inRange]
  simp [selectedPairs, List.mem_filter, Restore.mem_scanRows, hall]

end Export

/-! ## The coordinator -/

/-- A member as a backup finds it: whether its calls succeed, how it is reached, and
what it holds when it exports. -/
structure Peer where
  prepares : Bool := true
  exports : Bool := true
  overGRPC : Bool := true
  store : LocalStore := ∅

/-- The member's export, asked for in a request or in process. -/
def Peer.exportOf (p : Peer) (frontierT : Int64) (assignment : Selector) : Restore.NodeExport :=
  if p.overGRPC then
    exportSelected frontierT (selectorFromProto (selectionToProto assignment)) p.store
  else exportSelected frontierT assignment p.store

/-- What each live member is to export, and what nobody covers. -/
abbrev Assigner := List Bytes → GoMap Selector × List Bytes

/-- The assigner in use: every live member exports everything. -/
def allExportAssigner : Assigner := fun live =>
  if live = [] then (∅, [ascii "no live members to export"])
  else (live.foldl (fun m id => m.insert id {}) ∅, [])

/-- How far ahead of its start a backup sets its frontier. -/
def frontierLeaseMs : Int64 := 5000

namespace Selected

/-- Why a backup ends with an error of its own. -/
inductive Err where
  | selfFailed
  | noneExported
  deriving DecidableEq, Repr

section
variable (self : Bytes) (peers : Bytes → Peer)

/-- A member that cannot prepare is skipped, the coordinator's own node excepted. -/
def prepareAll : List Bytes → Except Err (List Bytes)
  | [] => .ok []
  | mid :: rest =>
    if (peers mid).prepares then do
      let prepared ← prepareAll rest
      return mid :: prepared
    else if mid = self then .error .selfFailed
    else prepareAll rest

def exportMembers (frontierT : Int64) (assignments : GoMap Selector) (prepared : List Bytes) :
    List Bytes → Except Err (List (Bytes × Restore.NodeExport))
  | [] => .ok []
  | mid :: rest =>
    if mid ∉ prepared then exportMembers frontierT assignments prepared rest
    else if (peers mid).exports then do
      let exports ← exportMembers frontierT assignments prepared rest
      return (mid, (peers mid).exportOf frontierT (assignments[mid]?.getD {})) :: exports
    else if mid = self then .error .selfFailed
    else exportMembers frontierT assignments prepared rest

def exportAll (frontierT : Int64) (assignments : GoMap Selector) (prepared : List Bytes) :
    Except Err (List (Bytes × Restore.NodeExport)) := do
  let exports ← exportMembers self peers frontierT assignments prepared assignments.keys
  if exports = [] then throw .noneExported
  return exports

end

/-- A backup's intent as far as it concerns the data. -/
structure Taken where
  selection : Selector
  frontierT : Int64
  gaps : List Bytes
  exports : List (Bytes × Restore.NodeExport)

/-- A backup up to its commit. The selection is recorded, and not looked at again. -/
def beginBackup (self : Bytes) (assigner : Assigner) (live : List Bytes) (peers : Bytes → Peer)
    (nowMs : Int64) (selection : Option SelectionMsg) : Except Err Taken := do
  let frontierT := nowMs + frontierLeaseMs
  let (assignments, gaps) := assigner live
  let prepared ← prepareAll self peers assignments.keys
  let exports ← exportAll self peers frontierT assignments prepared
  return { selection := selectorFromProto selection, frontierT := frontierT, gaps := gaps
           exports := exports }

/-- An export is made by its member, from what it was handed. -/
theorem mem_exportMembers {self : Bytes} {peers : Bytes → Peer} {frontierT : Int64}
    {assignments : GoMap Selector} {prepared members : List Bytes}
    {exports : List (Bytes × Restore.NodeExport)} {m : Bytes} {ex : Restore.NodeExport}
    (h : exportMembers self peers frontierT assignments prepared members = .ok exports)
    (hm : (m, ex) ∈ exports) :
    m ∈ members ∧ ex = (peers m).exportOf frontierT (assignments[m]?.getD {}) := by
  induction members generalizing exports with
  | nil => cases h; cases hm
  | cons mid rest ih =>
    rw [exportMembers] at h
    split at h
    · obtain ⟨hin, heq⟩ := ih h hm
      exact ⟨List.mem_cons_of_mem _ hin, heq⟩
    · split at h
      · cases hrest : exportMembers self peers frontierT assignments prepared rest with
        | error err => rw [hrest] at h; cases h
        | ok more =>
          rw [hrest] at h
          cases h
          rcases List.mem_cons.mp hm with heq | hm
          · cases heq
            exact ⟨List.mem_cons_self, rfl⟩
          · obtain ⟨hin, heq⟩ := ih hrest hm
            exact ⟨List.mem_cons_of_mem _ hin, heq⟩
      · split at h
        · cases h
        · obtain ⟨hin, heq⟩ := ih h hm
          exact ⟨List.mem_cons_of_mem _ hin, heq⟩

/-- What a member exported is its export under what it was assigned. -/
theorem mem_beginBackup {self : Bytes} {assigner : Assigner} {live : List Bytes}
    {peers : Bytes → Peer} {nowMs : Int64} {selection : Option SelectionMsg} {taken : Taken}
    {m : Bytes} {ex : Restore.NodeExport}
    (h : beginBackup self assigner live peers nowMs selection = .ok taken)
    (hm : (m, ex) ∈ taken.exports) :
    ∃ sel, (assigner live).1[m]? = some sel ∧
      ex = exportSelected (nowMs + frontierLeaseMs) sel (peers m).store := by
  unfold beginBackup at h
  cases hprep : prepareAll self peers (assigner live).1.keys with
  | error err => simp [hprep, bind, Except.bind] at h
  | ok prepared =>
    simp only [hprep, bind, Except.bind] at h
    cases hexp : exportAll self peers (nowMs + frontierLeaseMs) (assigner live).1 prepared with
    | error err => simp [hexp] at h
    | ok exports =>
      simp only [hexp, pure, Except.pure, Except.ok.injEq] at h
      subst h
      unfold exportAll at hexp
      cases hmem : exportMembers self peers (nowMs + frontierLeaseMs) (assigner live).1 prepared
        (assigner live).1.keys with
      | error err => simp [hmem, bind, Except.bind] at hexp
      | ok exports' =>
        simp only [hmem, bind, Except.bind] at hexp
        split at hexp
        · cases hexp
        · cases hexp
          obtain ⟨hin, rfl⟩ := mem_exportMembers hmem hm
          obtain ⟨sel, hsel⟩ := WaveSpan.Rows.mem_iff_exists.mp (Std.ExtTreeMap.mem_keys.mp hin)
          refine ⟨sel, hsel, ?_⟩
          rw [hsel, Option.getD_some, Peer.exportOf, selectorFromProto_selectionToProto, ite_self]

end Selected

/-! ## What is in a backup -/

/-- Every row of a store is under a key one of the tiers writes, and no namespace of
records has a length that starts with the index sentinel. -/
structure WellKeyed (src : LocalStore) : Prop where
  keyed : ∀ cf k row, src[rowKey cf k]? = some row → cf ∈ Restore.authoritativeCFs →
    ∃ o, KeyOf cf k o
  short : ∀ cf k row, src[rowKey cf k]? = some row → k.length < 2 ^ 32
  plain : ∀ cf k row n, src[rowKey cf k]? = some row → KeyOf cf k (some (.ns n)) →
    ¬ StartsWithSentinel n.length

def Restore.NodeExport.Holds (ex : Restore.NodeExport) (cf : ColumnFamily) (k : Bytes) (row : Row) :
    Prop :=
  ∃ obj, ex.objects[cf.name]? = some obj ∧ (k, row) ∈ obj.pairs

/-- What a selected export holds. -/
theorem holds_exportSelected {captureMs : Int64} {sel : Selector} {src : LocalStore}
    {cf : ColumnFamily} {k : Bytes} {row : Row} (hcf : cf ∈ Restore.authoritativeCFs) :
    (exportSelected captureMs sel src).Holds cf k row ↔
      src[rowKey cf k]? = some row ∧ (sel.isEmpty = true ∨ selects cf k sel = true) ∧
        Restore.exported captureMs cf (k, row) = true := by
  rw [← mem_selectedPairs]
  constructor
  · rintro ⟨obj, hobj, hkv⟩
    obtain ⟨cf', -, hname, -, rfl⟩ := exportSelected_object.mp hobj
    obtain rfl := Restore.ColumnFamily.name_inj hname
    exact hkv
  · intro hkv
    exact ⟨_, exportSelected_object.mpr ⟨cf, hcf, rfl, List.ne_nil_of_mem hkv, rfl⟩, hkv⟩

/-- The assigner in use hands out the selection of everything. -/
theorem allExportAssigner_full {live : List Bytes} {m : Bytes} {sel : Selector}
    (h : (allExportAssigner live).1[m]? = some sel) : sel = {} := by
  have hfold : ∀ acc : GoMap Selector, (∀ s, acc[m]? = some s → s = {}) →
      ∀ s, (live.foldl (fun m id => m.insert id {}) acc)[m]? = some s → s = {} := by
    clear h
    induction live with
    | nil => exact fun acc hacc => hacc
    | cons id live ih =>
      intro acc hacc
      refine ih _ ?_
      intro s hs
      rw [Std.ExtTreeMap.getElem?_insert] at hs
      split at hs
      · exact (Option.some.inj hs).symm
      · exact hacc s hs
  unfold allExportAssigner at h
  split at h
  · simp at h
  · exact hfold ∅ (by simp) sel h

/-- A member's export is what was asked for: no object but the system's has a row of anything
that is not selected, and every selected row up to the frontier is there; with nothing
selected, every row. -/
structure Asked (sel : Selector) (frontierT : Int64) (src : LocalStore) (ex : Restore.NodeExport) :
    Prop where
  sound : sel.isEmpty = false → ∀ (name : Bytes) (obj : Restore.CFObject),
    ex.objects[name]? = some obj → name ≠ ColumnFamily.sys.name →
      ∀ kv ∈ obj.pairs, ∃ cf en, name = cf.name ∧ KeyOf cf kv.1 (some en) ∧ sel.Has en
  complete : sel.isEmpty = false → ∀ cf ∈ Restore.authoritativeCFs, ∀ k row en,
    src[rowKey cf k]? = some row → KeyOf cf k (some en) → sel.Has en →
      Restore.exported frontierT cf (k, row) = true → ex.Holds cf k row
  full : sel.isEmpty = true → ∀ cf ∈ Restore.authoritativeCFs, ∀ k row,
    src[rowKey cf k]? = some row → Restore.exported frontierT cf (k, row) = true →
      ex.Holds cf k row

/-- Every row up to the frontier, the system's apart, is of something selected. -/
def OnlySelected (sel : Selector) (frontierT : Int64) (src : LocalStore) : Prop :=
  ∀ cf ∈ Restore.authoritativeCFs, cf ≠ .sys → ∀ k row, src[rowKey cf k]? = some row →
    Restore.exported frontierT cf (k, row) = true → ∃ en, KeyOf cf k (some en) ∧ sel.Has en

/-- An export of everything is what was asked for exactly if that is everything there is. -/
theorem asked_everything {sel : Selector} {frontierT : Int64} {src : LocalStore} :
    Asked sel frontierT src (exportSelected frontierT {} src) ↔
      sel.isEmpty = true ∨ OnlySelected sel frontierT src := by
  have hall : ∀ cf ∈ Restore.authoritativeCFs, ∀ k row, src[rowKey cf k]? = some row →
      Restore.exported frontierT cf (k, row) = true →
        (exportSelected frontierT {} src).Holds cf k row := fun cf hcf k row hrow hcut =>
    (holds_exportSelected hcf).mpr ⟨hrow, .inl (by decide), hcut⟩
  constructor
  · intro hasked
    cases hempty : sel.isEmpty with
    | true => exact .inl rfl
    | false =>
      refine .inr fun cf hcf hsys k row hrow hcut => ?_
      obtain ⟨obj, hobj, hkv⟩ := hall cf hcf k row hrow hcut
      obtain ⟨cf', en, hname, hkey, hen⟩ := hasked.sound hempty _ _ hobj
        (fun h => hsys (Restore.ColumnFamily.name_inj h)) _ hkv
      obtain rfl := Restore.ColumnFamily.name_inj hname
      exact ⟨en, hkey, hen⟩
  · intro honly
    refine ⟨fun hne name obj hobj hname kv hkv => ?_, fun _ cf hcf k row _ hrow _ _ =>
      hall cf hcf k row hrow, fun _ => hall⟩
    obtain ⟨cf, hcf, rfl, -, rfl⟩ := exportSelected_object.mp hobj
    obtain ⟨hrow, -, hcut⟩ := mem_selectedPairs.mp hkv
    obtain ⟨en, hkey, hen⟩ := honly.resolve_left (by simp [hne]) cf hcf
      (fun h => hname (by rw [h])) kv.1 kv.2 hrow hcut
    exact ⟨cf, en, rfl, hkey, hen⟩

/-- An export of what is selected is what was asked for, where the owners can be read off the
keys. -/
theorem asked_selected {sel : Selector} {frontierT : Int64} {src : LocalStore}
    (hkeys : WellKeyed src) : Asked sel frontierT src (exportSelected frontierT sel src) where
  sound := by
    intro hne name obj hobj hname kv hkv
    obtain ⟨cf, hcf, rfl, -, rfl⟩ := exportSelected_object.mp hobj
    obtain ⟨hrow, hselects, -⟩ := mem_selectedPairs.mp hkv
    obtain ⟨o, ho⟩ := hkeys.keyed cf kv.1 kv.2 hrow hcf
    have hin := hselects.resolve_left (by simp [hne])
    have hplain : ∀ n, o = some (.ns n) → ¬ StartsWithSentinel n.length := by
      rintro n rfl
      exact hkeys.plain cf kv.1 kv.2 n hrow ho
    rcases (selects_iff ho (hkeys.short cf kv.1 kv.2 hrow) hplain).mp hin with rfl | ⟨en, rfl, hen⟩
    · exact absurd rfl hname
    · exact ⟨cf, en, rfl, ho, hen⟩
  complete := by
    intro hne cf hcf k row en hrow hkey hen hcut
    have hplain : ∀ n, some en = some (.ns n) → ¬ StartsWithSentinel n.length := by
      rintro n heq
      obtain rfl := Option.some.inj heq
      exact hkeys.plain cf k row n hrow hkey
    have hin := (selects_iff hkey (hkeys.short cf k row hrow) hplain).mpr (.inr ⟨en, rfl, hen⟩)
    exact (holds_exportSelected hcf).mpr ⟨hrow, .inr hin, hcut⟩
  full := fun hempty _ hcf _ _ hrow hcut =>
    (holds_exportSelected hcf).mpr ⟨hrow, .inl hempty, hcut⟩

/-- With the assigner in use the exports are what was asked for exactly if nothing was selected,
or each exporting member holds, up to the frontier, only rows of what was selected. With one
that hands every member the selection of the request they are, where the owners of rows can be
read off their keys. -/
theorem backup_holds_selection (self : Bytes) (live : List Bytes) (peers : Bytes → Peer)
    (nowMs : Int64) (selection : Option SelectionMsg) :
    (∀ taken, Selected.beginBackup self allExportAssigner live peers nowMs selection = .ok taken →
      ((∀ m ex, (m, ex) ∈ taken.exports →
          Asked (selectorFromProto selection) (nowMs + frontierLeaseMs) (peers m).store ex) ↔
        (selectorFromProto selection).isEmpty = true ∨ ∀ m ex, (m, ex) ∈ taken.exports →
          OnlySelected (selectorFromProto selection) (nowMs + frontierLeaseMs) (peers m).store)) ∧
      ∀ assigner taken, Selected.beginBackup self assigner live peers nowMs selection = .ok taken →
        (∀ (m : Bytes) (sel : Selector), (assigner live).1[m]? = some sel →
          sel = selectorFromProto selection) → (∀ m, WellKeyed (peers m).store) →
          ∀ m ex, (m, ex) ∈ taken.exports →
            Asked (selectorFromProto selection) (nowMs + frontierLeaseMs) (peers m).store ex := by
  refine ⟨fun taken htaken => ?_, fun assigner taken htaken hassign hkeys m ex hm => ?_⟩
  · have hmember : ∀ m ex, (m, ex) ∈ taken.exports →
        (Asked (selectorFromProto selection) (nowMs + frontierLeaseMs) (peers m).store ex ↔
          (selectorFromProto selection).isEmpty = true ∨
            OnlySelected (selectorFromProto selection) (nowMs + frontierLeaseMs)
              (peers m).store) := by
      intro m ex hm
      obtain ⟨sel, hsel, rfl⟩ := Selected.mem_beginBackup htaken hm
      obtain rfl := allExportAssigner_full hsel
      exact asked_everything
    constructor
    · intro hasked
      by_cases hempty : (selectorFromProto selection).isEmpty = true
      · exact .inl hempty
      · exact .inr fun m ex hm => ((hmember m ex hm).mp (hasked m ex hm)).resolve_left hempty
    · intro hcond m ex hm
      exact (hmember m ex hm).mpr (hcond.imp_right fun honly => honly m ex hm)
  · obtain ⟨sel, hsel, rfl⟩ := Selected.mem_beginBackup htaken hm
    obtain rfl := hassign m sel hsel
    exact asked_selected (hkeys m)

def recordIn (ns : Bytes) : Records.StoredRecord :=
    { ns := ns, logicalKey := [0x6b], version := {} }

/-- A node with one record in each of the namespaces `a` and `b`. -/
def twoSpaces : LocalStore :=
  ((∅ : LocalStore).insert (rowKey .kvData (dataKey [0x61] [0x6b] {}))
    (.record (recordIn [0x61]))).insert
    (rowKey .kvData (dataKey [0x62] [0x6b] {})) (.record (recordIn [0x62]))

theorem twoSpaces_rows {cf : ColumnFamily} {k : Bytes} {row : Row}
    (h : twoSpaces[rowKey cf k]? = some row) :
    cf = .kvData ∧ (k = dataKey [0x61] [0x6b] {} ∨ k = dataKey [0x62] [0x6b] {}) := by
  rw [twoSpaces, Std.ExtTreeMap.getElem?_insert, Std.ExtTreeMap.getElem?_insert] at h
  split at h
  · rename_i heq
    obtain ⟨rfl, rfl⟩ := rowKey_inj.mp (Std.LawfulEqCmp.eq_of_compare heq)
    exact ⟨rfl, .inr rfl⟩
  · split at h
    · rename_i heq
      obtain ⟨rfl, rfl⟩ := rowKey_inj.mp (Std.LawfulEqCmp.eq_of_compare heq)
      exact ⟨rfl, .inl rfl⟩
    · simp at h

theorem twoSpaces_wellKeyed : WellKeyed twoSpaces where
  keyed := by
    intro cf k row h _
    obtain ⟨rfl, rfl | rfl⟩ := twoSpaces_rows h
    · exact ⟨_, .data [0x61] [0x6b] {}⟩
    · exact ⟨_, .data [0x62] [0x6b] {}⟩
  short := by
    intro cf k row h
    obtain ⟨rfl, rfl | rfl⟩ := twoSpaces_rows h
    · decide +kernel
    · decide +kernel
  plain := by
    intro cf k row n h hkey
    have hlen : ∀ ns : Bytes, ns.length = 1 → k = dataKey ns [0x6b] {} →
        ¬ StartsWithSentinel n.length := by
      rintro ns hns rfl
      obtain ⟨rfl, -⟩ := twoSpaces_rows h
      generalize hk : dataKey ns [0x6b] {} = k at hkey
      cases hkey with
      | data ns' key v =>
        obtain ⟨rfl, -⟩ := Records.dataKey_inj.mp hk
        rw [hns]
        decide
    obtain ⟨-, hk | hk⟩ := twoSpaces_rows h
    · exact hlen _ rfl hk
    · exact hlen _ rfl hk

def onlyA : Option SelectionMsg := some { namespaces := [[0x61]] }

def handOut (sel : Selector) : Assigner := fun live =>
  (live.foldl (fun m id => m.insert id sel) ∅, [])

theorem handOut_one {sel sel' : Selector} {m : Bytes}
    (h : (handOut sel [[1]]).1[m]? = some sel') : sel' = sel := by
  rw [handOut, List.foldl_cons, List.foldl_nil, Std.ExtTreeMap.getElem?_insert] at h
  split at h
  · exact (Option.some.inj h).symm
  · simp at h

/-- A backup of the one member that holds `twoSpaces`. -/
def takeOne (assigner : Assigner) (selection : Option SelectionMsg) :
    Except Selected.Err Selected.Taken :=
  Selected.beginBackup [1] assigner [[1]] (fun _ => { store := twoSpaces }) 0 selection

/-- With namespace `a` selected and handed out the export is what was asked for; so is that of
the assigner in use if nothing is selected. -/
theorem backup_holds_selection_one :
    (∃ taken, takeOne (handOut (selectorFromProto onlyA)) onlyA = .ok taken ∧
      ∀ m ex, (m, ex) ∈ taken.exports →
        Asked (selectorFromProto onlyA) (0 + frontierLeaseMs) twoSpaces ex) ∧
    ∃ taken, takeOne allExportAssigner none = .ok taken ∧
      ∀ m ex, (m, ex) ∈ taken.exports → Asked {} (0 + frontierLeaseMs) twoSpaces ex := by
  have hok : (takeOne (handOut (selectorFromProto onlyA)) onlyA).isOk = true ∧
      (takeOne allExportAssigner none).isOk = true := by decide +kernel
  refine ⟨?_, ?_⟩
  · cases htaken : takeOne (handOut (selectorFromProto onlyA)) onlyA with
    | error err => simp [htaken, Except.isOk, Except.toBool] at hok
    | ok taken =>
      exact ⟨taken, rfl, (backup_holds_selection [1] [[1]] (fun _ => { store := twoSpaces }) 0
        onlyA).2 _ taken htaken (fun _ _ => handOut_one) fun _ => twoSpaces_wellKeyed⟩
  · cases htaken : takeOne allExportAssigner none with
    | error err => simp [htaken, Except.isOk, Except.toBool] at hok
    | ok taken =>
      exact ⟨taken, rfl, ((backup_holds_selection [1] [[1]] (fun _ => { store := twoSpaces }) 0
        none).1 taken htaken).mpr (.inl (by decide +kernel))⟩

/-- The same request with the assigner in use: the export holds the record of
namespace `b` as well. -/
theorem selection_not_handed_out :
    (takeOne allExportAssigner onlyA).toOption.map (fun t => t.exports.map fun ex =>
        ex.2.objects[ColumnFamily.kvData.name]?.map fun obj => obj.pairs.map Prod.fst) =
      some [some [dataKey [0x61] [0x6b] {}, dataKey [0x62] [0x6b] {}]] ∧
    ¬ (selectorFromProto onlyA).Has (.ns [0x62]) := by
  refine ⟨by decide +kernel, ?_⟩
  show [0x62] ∉ (selectorFromProto onlyA).namespaces
  decide +kernel

end WaveSpan.Backup
