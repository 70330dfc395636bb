/-
WaveSpan.Vector.Store — the rows of the vector store (`internal/vector/store.go`).

A put writes the record under its collection and id, and for a live record a meta entry and, if it
is attached to a graph node, an entry under that node. Nothing is ever removed: a tombstone is a
record too, and a record that moves to another node leaves the entry under the old one. Rows hold
records, not their encoding; a record that cannot be marshalled is not put.

A scan of a collection reads the records themselves and is exact (`mem_scanCollection`). A scan by
node reads the entries and looks up what they point to, without a look at the node of what it finds,
so it answers with the live vectors that have ever been attached to the node (`mem_getByNode`).
-/
import WaveSpan.Collections.Store
import WaveSpan.Vector.Keys
import WaveSpan.Vector.Rebucket

namespace WaveSpan.Vector

open WaveSpan.Wire WaveSpan.Rows
open WaveSpan.Collections (GoMap prefixEnd inRange inRange_prefixEnd)
open WaveSpan.Records (Version)

abbrev GoString := { b : Bytes // b.length < 2 ^ 63 }

structure StoredVector extends Rebucket.VectorRecord where
  collection : GoString
  vectorId : GoString
  version : Option Version := none
deriving DecidableEq

inductive IndexEntry where
  | vectorMeta (collection vectorId : Bytes) (dimensions : UInt32) (graphNodeId : Bytes)
  | attached (vectorId : Bytes)
deriving DecidableEq

/-- The two column families of the vectors. -/
structure Store where
  raw : GoMap StoredVector := ∅
  index : GoMap IndexEntry := ∅

/-! ## Operations -/

def rawPrefix (collection : Bytes) : Bytes := lp pfxRaw collection

def attachPrefix (nodeID : Bytes) : Bytes := lp pfxAttach nodeID

def StoredVector.key (v : StoredVector) : Bytes := rawKey v.collection.val v.vectorId.val

def StoredVector.entries (v : StoredVector) : List (Op Bytes IndexEntry) :=
  if v.tombstone then []
  else
    .put (metaKey v.collection.val v.vectorId.val)
        (.vectorMeta v.collection.val v.vectorId.val v.dimensions v.graphNodeId) ::
      if v.graphNodeId ≠ [] then
        [.put (attachKey v.graphNodeId v.collection.val v.vectorId.val) (.attached v.vectorId.val)]
      else []

def Store.put (s : Store) (v : StoredVector) : Store :=
  { raw := runOps s.raw [.put v.key v], index := runOps s.index v.entries }

def Store.get (s : Store) (collection vectorID : Bytes) : Option StoredVector :=
  s.raw[rawKey collection vectorID]?.filter fun v => !v.tombstone

def tombstone (collection vectorID : GoString) (version : Option Version) : StoredVector :=
  { collection, vectorId := vectorID, tombstone := true, version }

def Store.delete (s : Store) (collection vectorID : GoString) (version : Option Version) : Store :=
  s.put (tombstone collection vectorID version)

/-- The rows under a leading part of their keys. -/
def scanPrefix {ν : Type} (m : GoMap ν) (pfx : Bytes) : List (Bytes × ν) :=
  m.toList.filter fun r => inRange pfx (prefixEnd pfx) r.1

def Store.scanCollection (s : Store) (collection : Bytes) : List StoredVector :=
  ((scanPrefix s.raw (rawPrefix collection)).map Prod.snd).filter fun v => !v.tombstone

/-- The collection and id an entry's key ends with. -/
def refOf (rest : Bytes) : Bytes × Bytes :=
  let (collection, rest2) := (decodeLP rest).getD ([], [])
  (collection, ((decodeLP rest2).getD ([], [])).1)

def Store.getByNode (s : Store) (nodeID : Bytes) : List StoredVector :=
  let refs := (scanPrefix s.index (attachPrefix nodeID)).map fun r =>
    refOf (r.1.drop (attachPrefix nodeID).length)
  refs.filterMap fun r => s.get r.1 r.2

/-! ## Runs -/

inductive Call where
  | put (v : StoredVector)
  | delete (collection vectorID : GoString) (version : Option Version)

def Store.call (s : Store) : Call → Store
  | .put v => s.put v
  | .delete collection vectorID version => s.delete collection vectorID version

def Call.record : Call → StoredVector
  | .put v => v
  | .delete collection vectorID version => tombstone collection vectorID version

def Store.run (calls : List Call) : Store := calls.foldl Store.call {}

theorem call_eq (s : Store) (c : Call) : s.call c = s.put c.record := by
  cases c <;> rfl

def current (calls : List Call) (collection vectorID : GoString) : Option StoredVector :=
  (calls.map Call.record).reverse.find? fun v =>
    decide (v.collection = collection ∧ v.vectorId = vectorID)

/-- A vector's current record, if it is not a tombstone. -/
def Live (calls : List Call) (v : StoredVector) : Prop :=
  current calls v.collection v.vectorId = some v ∧ v.tombstone = false

def StoredVector.AttachedTo (v : StoredVector) (node : Bytes) : Prop :=
  v.graphNodeId ≠ [] ∧ v.graphNodeId = node

/-- Some live record of the vector was attached to the node. -/
def EverAttached (calls : List Call) (node : Bytes) (v : StoredVector) : Prop :=
  ∃ c ∈ calls, c.record.tombstone = false ∧ c.record.AttachedTo node ∧
    c.record.collection = v.collection ∧ c.record.vectorId = v.vectorId

section
variable {calls : List Call} {c : Call} {v w : StoredVector} {k node : Bytes}

theorem key_inj : v.key = w.key ↔ v.collection = w.collection ∧ v.vectorId = w.vectorId := by
  simp [StoredVector.key, rawKey, lp, lenPrefix_append_inj, lenPrefix_inj, Subtype.ext_iff]

/-- The last call decides. -/
theorem current_concat (collection vectorID : GoString) :
    current (calls ++ [c]) collection vectorID =
      if c.record.collection = collection ∧ c.record.vectorId = vectorID then some c.record
      else current calls collection vectorID := by
  simp only [current, List.map_append, List.map_cons, List.map_nil, List.reverse_append,
    List.reverse_cons, List.reverse_nil, List.nil_append, List.singleton_append, List.find?_cons]
  split <;> simp_all

/-- A row holds the current record of its key. -/
theorem raw_run :
    (Store.run calls).raw[k]? = some v ↔
      k = v.key ∧ current calls v.collection v.vectorId = some v := by
  induction calls using List.reverseRecOn with
  | nil => simp [Store.run, current]
  | append_singleton calls c ih =>
    have hrun : (Store.run (calls ++ [c])).raw =
        (Store.run calls).raw.insert c.record.key c.record := by
      rw [Store.run, List.foldl_append, List.foldl_cons, List.foldl_nil, call_eq]
      rfl
    rw [hrun, Std.ExtTreeMap.getElem?_insert, current_concat]
    by_cases hk : c.record.key = k
    · subst hk
      simp only [Std.compare_eq_iff_eq, if_true, Option.some.injEq]
      constructor
      · rintro rfl
        simp
      · rintro ⟨hkey, hcur⟩
        rw [if_pos (key_inj.mp hkey)] at hcur
        exact Option.some.inj hcur
    · rw [if_neg (by simpa using hk), ih]
      constructor
      · rintro ⟨rfl, hcur⟩
        rw [if_neg (fun h => hk (key_inj.mpr h))]
        exact ⟨rfl, hcur⟩
      · rintro ⟨rfl, hcur⟩
        rw [if_neg (fun h => hk (key_inj.mpr h))] at hcur
        exact ⟨rfl, hcur⟩

/-- A record is read if it is live. -/
theorem get_run {collection vectorID : GoString} :
    (Store.run calls).get collection.val vectorID.val = some v ↔
      v.collection = collection ∧ v.vectorId = vectorID ∧ Live calls v := by
  have hkey : rawKey collection.val vectorID.val = v.key ↔
      v.collection = collection ∧ v.vectorId = vectorID := by
    rw [eq_comm]
    exact key_inj (w := { collection, vectorId := vectorID })
  rw [Store.get, Option.filter_eq_some_iff, raw_run, hkey, Live]
  simp [and_assoc]

/-! ## The entries under a node -/

theorem mem_entries {op : Op Bytes IndexEntry} (h : op ∈ v.entries) :
    op.value ≠ none ∧ v.tombstone = false ∧
      (op.key = metaKey v.collection.val v.vectorId.val ∨
        v.graphNodeId ≠ [] ∧ op.key = attachKey v.graphNodeId v.collection.val v.vectorId.val) := by
  cases ht : v.tombstone with
  | true => simp [StoredVector.entries, ht] at h
  | false =>
    by_cases hn : v.graphNodeId = []
    · obtain rfl : op = _ := by simpa [StoredVector.entries, ht, hn] using h
      exact ⟨Option.some_ne_none _, rfl, .inl rfl⟩
    · simp only [StoredVector.entries, ht, ne_eq, hn, not_false_eq_true, if_true,
        Bool.false_eq_true,
        if_false, List.mem_cons, List.not_mem_nil, or_false] at h
      rcases h with rfl | rfl
      · exact ⟨Option.some_ne_none _, rfl, .inl rfl⟩
      · exact ⟨Option.some_ne_none _, rfl, .inr ⟨hn, rfl⟩⟩

/-- The index has an entry for everything a put has ever written. -/
theorem index_run :
    k ∈ (Store.run calls).index ↔ ∃ c ∈ calls, ∃ op ∈ c.record.entries, op.key = k := by
  have hrun : (Store.run calls).index = runOps ∅ (calls.flatMap fun c => c.record.entries) := by
    induction calls using List.reverseRecOn with
    | nil => rfl
    | append_singleton calls c ih =>
      rw [List.flatMap_append, runOps_append, ← ih, Store.run, List.foldl_append, List.foldl_cons,
        List.foldl_nil, call_eq, List.flatMap_cons, List.flatMap_nil, List.append_nil]
      rfl
  rw [hrun, mem_runOps_iff fun op hop => ?_]
  · simp only [Std.ExtTreeMap.not_mem_empty, false_or, List.mem_flatMap]
    exact ⟨fun ⟨op, ⟨c, hc, hop⟩, hk⟩ => ⟨c, hc, op, hop, hk⟩,
      fun ⟨c, hc, op, hop, hk⟩ => ⟨op, ⟨c, hc, hop⟩, hk⟩⟩
  · obtain ⟨c, -, hmem⟩ := List.mem_flatMap.mp hop
    exact (mem_entries hmem).1

/-- The rows under a key prefix. -/
theorem mem_scanPrefix {ν : Type} {m : GoMap ν} {pfx : Bytes} {r : Bytes × ν} :
    r ∈ scanPrefix m pfx ↔ m[r.1]? = some r.2 ∧ pfx <+: r.1 := by
  obtain ⟨k, a⟩ := r
  simp [scanPrefix, Std.ExtTreeMap.mem_toList_iff_getElem?_eq_some, inRange_prefixEnd]

theorem attachPrefix_attachKey {node' collection vectorID : Bytes} :
    attachPrefix node <+: attachKey node' collection vectorID ↔ node = node' := by
  simp [attachPrefix, attachKey, lp, lenPrefix_prefix, List.append_assoc]

theorem attachKey_inj {c c' v v' : GoString} :
    attachKey node c.val v.val = attachKey node c'.val v'.val ↔ c = c' ∧ v = v' := by
  simp [attachKey, lp, lenPrefix_append_inj, lenPrefix_inj, Subtype.ext_iff]

theorem refOf_attachKey (node : Bytes) (collection vectorID : GoString) :
    refOf ((attachKey node collection.val vectorID.val).drop (attachPrefix node).length) =
      (collection.val, vectorID.val) := by
  have hdrop : (attachKey node collection.val vectorID.val).drop (attachPrefix node).length =
      lenPrefix collection.val ++ (lenPrefix vectorID.val ++ []) := by
    simp [attachKey, attachPrefix, lp]
  have hc := collection.property
  have hv := vectorID.property
  rw [hdrop, refOf, decodeLP, takeLenPrefix_lenPrefix _ (by omega)]
  simp only [Option.getD_some, decodeLP]
  rw [takeLenPrefix_lenPrefix _ (by omega)]
  rfl

/-- The entries under a node are those of the vectors that were attached to it. -/
theorem attached_run :
    (k ∈ (Store.run calls).index ∧ attachPrefix node <+: k) ↔
      ∃ c ∈ calls, c.record.tombstone = false ∧ c.record.AttachedTo node ∧
        k = attachKey node c.record.collection.val c.record.vectorId.val := by
  rw [index_run]
  constructor
  · rintro ⟨⟨c, hc, op, hop, rfl⟩, hpfx⟩
    obtain ⟨-, hlive, hkey | ⟨hn, hkey⟩⟩ := mem_entries hop
    · rw [hkey] at hpfx
      simp [attachPrefix, metaKey, lp, pfxAttach, pfxMeta] at hpfx
    · rw [hkey, attachPrefix_attachKey] at hpfx
      subst hpfx
      exact ⟨c, hc, hlive, ⟨hn, rfl⟩, hkey⟩
  · rintro ⟨c, hc, hlive, ⟨hn, rfl⟩, rfl⟩
    refine ⟨⟨c, hc, .put (attachKey _ _ _) (.attached c.record.vectorId.val), ?_, rfl⟩,
      attachPrefix_attachKey.mpr rfl⟩
    simp [StoredVector.entries, hlive, hn]

/-! ## Scans -/

/-- A scan of a collection has its live vectors. -/
theorem mem_scanCollection {collection : GoString} :
    v ∈ (Store.run calls).scanCollection collection.val ↔ Live calls v ∧
      v.collection = collection := by
  have hpfx : rawPrefix collection.val <+: v.key ↔ v.collection = collection := by
    simp [rawPrefix, StoredVector.key, rawKey, lp, lenPrefix_prefix, Subtype.ext_iff, eq_comm]
  simp only [Store.scanCollection, List.mem_filter, List.mem_map, mem_scanPrefix, raw_run,
    Bool.not_eq_true', Live]
  constructor
  · rintro ⟨⟨r, ⟨⟨hkey, hcur⟩, hr⟩, rfl⟩, hlive⟩
    exact ⟨⟨hcur, hlive⟩, hpfx.mp (hkey ▸ hr)⟩
  · rintro ⟨⟨hcur, hlive⟩, hcoll⟩
    exact ⟨⟨(v.key, v), ⟨⟨rfl, hcur⟩, hpfx.mpr hcoll⟩, rfl⟩, hlive⟩

theorem nodup_scanCollection {collection : GoString} :
    ((Store.run calls).scanCollection collection.val).Nodup := by
  refine (List.Nodup.map_on ?_ ((nodup_toList _).filter _)).filter _
  intro r hr r' hr' heq
  obtain ⟨hkey, -⟩ := raw_run.mp (mem_scanPrefix.mp hr).1
  obtain ⟨hkey', -⟩ := raw_run.mp (mem_scanPrefix.mp hr').1
  exact Prod.ext (by rw [hkey, hkey', heq]) heq

/-- What the row of an entry leads to. -/
theorem get_row {r : Bytes × IndexEntry}
    (hr : r ∈ scanPrefix (Store.run calls).index (attachPrefix node)) :
    (Store.run calls).get (refOf (r.1.drop (attachPrefix node).length)).1
        (refOf (r.1.drop (attachPrefix node).length)).2 = some v ↔
      Live calls v ∧ r.1 = attachKey node v.collection.val v.vectorId.val := by
  obtain ⟨hrow, hpfx⟩ := mem_scanPrefix.mp hr
  obtain ⟨c, -, -, -, hkey⟩ := attached_run.mp ⟨mem_iff_exists.mpr ⟨_, hrow⟩, hpfx⟩
  rw [hkey, refOf_attachKey, get_run, attachKey_inj]
  exact ⟨fun ⟨hc, hv, hlive⟩ => ⟨hlive, hc.symm, hv.symm⟩,
    fun ⟨hlive, hc, hv⟩ => ⟨hc.symm, hv.symm, hlive⟩⟩

/-- A node leads to the live vectors that were ever attached to it. -/
theorem mem_getByNode :
    v ∈ (Store.run calls).getByNode node ↔ Live calls v ∧ EverAttached calls node v := by
  simp only [Store.getByNode, List.filterMap_map, List.mem_filterMap, Function.comp_def]
  constructor
  · rintro ⟨r, hr, hget⟩
    obtain ⟨hlive, hkey⟩ := (get_row hr).mp hget
    obtain ⟨hrow, hpfx⟩ := mem_scanPrefix.mp hr
    obtain ⟨c, hc, hct, hcn, hck⟩ := attached_run.mp ⟨mem_iff_exists.mpr ⟨_, hrow⟩, hpfx⟩
    rw [hkey, attachKey_inj] at hck
    exact ⟨hlive, c, hc, hct, hcn, hck.1.symm, hck.2.symm⟩
  · rintro ⟨hlive, c, hc, hct, hcn, hcc, hcv⟩
    obtain ⟨hmem, hpfx⟩ := attached_run.mpr ⟨c, hc, hct, hcn, rfl⟩
    obtain ⟨e, he⟩ := mem_iff_exists.mp hmem
    have hr : (attachKey node c.record.collection.val c.record.vectorId.val, e) ∈
        scanPrefix (Store.run calls).index (attachPrefix node) := mem_scanPrefix.mpr ⟨he, hpfx⟩
    exact ⟨_, hr, (get_row hr).mpr ⟨hlive, by rw [hcc, hcv]⟩⟩

theorem Live.everAttached (h : Live calls v) (hv : v.AttachedTo node) :
    EverAttached calls node v := by
  obtain ⟨c, hc, rfl⟩ := List.mem_map.mp (List.mem_reverse.mp (List.mem_of_find?_eq_some h.1))
  exact ⟨c, hc, h.2, hv, rfl, rfl⟩

theorem nodup_getByNode : ((Store.run calls).getByNode node).Nodup := by
  have hrows : (scanPrefix (Store.run calls).index (attachPrefix node)).Nodup :=
    (nodup_toList _).filter _
  rw [Store.getByNode, List.filterMap_map]
  refine List.pairwise_filterMap.mpr (hrows.imp_of_mem ?_)
  rintro r r' hr hr' hne v hv w hw rfl
  obtain ⟨-, hkey⟩ := (get_row hr).mp hv
  obtain ⟨-, hkey'⟩ := (get_row hr').mp hw
  have hfst : r.1 = r'.1 := hkey.trans hkey'.symm
  refine hne (Prod.ext hfst ?_)
  have hrow := (mem_scanPrefix.mp hr).1
  rw [hfst, (mem_scanPrefix.mp hr').1] at hrow
  exact (Option.some.inj hrow).symm

end

/-- A scan of a collection returns its live vectors, each once. A scan by node returns the live
vectors that have ever been attached to the node, each once; these are the ones attached to it now
exactly if no vector that has left the node is still live. -/
theorem vectors_attached (calls : List Call) :
    (∀ collection : GoString, ((Store.run calls).scanCollection collection.val).Nodup ∧
      ∀ v, v ∈ (Store.run calls).scanCollection collection.val ↔
        Live calls v ∧ v.collection = collection) ∧
    ∀ node : Bytes, ((Store.run calls).getByNode node).Nodup ∧
      (∀ v, v ∈ (Store.run calls).getByNode node ↔ Live calls v ∧ EverAttached calls node v) ∧
      ((∀ v, v ∈ (Store.run calls).getByNode node ↔ Live calls v ∧ v.AttachedTo node) ↔
        ∀ v, Live calls v → EverAttached calls node v → v.AttachedTo node) := by
  refine ⟨fun collection => ⟨nodup_scanCollection, fun v => mem_scanCollection⟩, fun node =>
    ⟨nodup_getByNode, fun v => mem_getByNode, fun h v hlive hever => ?_, fun h v => ?_⟩⟩
  · exact ((h v).mp (mem_getByNode.mpr ⟨hlive, hever⟩)).2
  · rw [mem_getByNode]
    exact and_congr_right fun hlive => ⟨h v hlive, hlive.everAttached⟩

/-- A vector that moves from node `a` to node `b` is still found under `a`. -/
def moved : List Call :=
  [.put { collection := ⟨[0x63], by decide⟩, vectorId := ⟨[0x76], by decide⟩
          graphNodeId := [0x61] },
    .put { collection := ⟨[0x63], by decide⟩, vectorId := ⟨[0x76], by decide⟩
           graphNodeId := [0x62] }]

theorem moved_found :
    ((Store.run moved).getByNode [0x61]).map (·.graphNodeId) = [[0x62]] ∧
      ((Store.run moved).getByNode [0x62]).map (·.graphNodeId) = [[0x62]] := by
  decide +kernel

end WaveSpan.Vector
