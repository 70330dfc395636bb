/-
WaveSpan.Backup.Stream — the objects of a logical export as bytes
(`internal/backup/backup.go` `writeBytes`, `restore.go` `readBytes`, `logical_export.go`,
`logical_restore.go`).

An object is its family's pairs one after another, each key and each value behind its length. There
is no end mark: a reader that finds nothing where a key should start is done. It is also done if a
key's length is there and none of its bytes. So a stream that was cut short is either found broken
or yields fewer pairs than the manifest counts (`decodePairs_truncated`), and the restore stops on
both.

A whole stream yields the pairs it was written from, so a restore into an empty store copies the
authoritative rows of the source, and then repairs latest pointers: one whose version has no record
in the source is not restored as it was (`dangling_pointer_dropped`).

How values are spelled is left open, as long as the values of the source are read back.
-/
import WaveSpan.Backup.Repaired
import WaveSpan.Lib.Varint

namespace WaveSpan.Backup.Restore

open WaveSpan.Wire WaveSpan.Collections WaveSpan.Effect WaveSpan.Rows
open WaveSpan.Records (StoredRecord LatestPointer Version)

/-! ## Reading -/

/-- The end of the input before anything was read, or any other failure. -/
inductive ReadErr where
  | eof
  | broken
  deriving DecidableEq, Repr

def readUvarint (b : Bytes) : Except ReadErr (Nat × Bytes) :=
  match getUvarint b with
  | some r => .ok r
  | none => .error (if b = [] then .eof else .broken)

/-- A length and as many bytes; `io.ReadFull` reports the end of the input if it finds none at
all. -/
def readBytes (b : Bytes) : Except ReadErr (Bytes × Bytes) :=
  match readUvarint b with
  | .error err => .error err
  | .ok (n, rest) =>
    if rest.length < n then .error (if rest = [] then .eof else .broken)
    else .ok (rest.take n, rest.drop n)

/-- What is read stands behind its length. -/
theorem readBytes_eq_ok {b x rest : Bytes} : readBytes b = .ok (x, rest) ↔
    ∃ n r, getUvarint b = some (n, r) ∧ n ≤ r.length ∧ r.take n = x ∧ r.drop n = rest := by
  unfold readBytes readUvarint
  cases getUvarint b with
  | none => simp
  | some r =>
    obtain ⟨n, r⟩ := r
    by_cases hlt : r.length < n
    · simp [hlt]
    · simp [hlt, not_lt.mp hlt]

theorem readGroups_shorter {k n : Nat} {b rest : Bytes} (h : readGroups k b = some (n, rest)) :
    rest.length < b.length := by
  induction k generalizing b n with
  | zero => cases h
  | succ k ih =>
    cases b with
    | nil => cases h
    | cons c b =>
      rw [readGroups] at h
      split at h
      · split at h
        · cases h
        · obtain ⟨-, rfl⟩ := Prod.mk.inj (Option.some.inj h)
          simp
      · obtain ⟨⟨m, rest'⟩, hr, heq⟩ := Option.map_eq_some_iff.mp h
        obtain ⟨-, rfl⟩ := Prod.mk.inj heq
        exact (ih hr).trans (by simp)

theorem readBytes_shorter {b x rest : Bytes} (h : readBytes b = .ok (x, rest)) :
    rest.length < b.length := by
  obtain ⟨n, r, hr, -, -, rfl⟩ := readBytes_eq_ok.mp h
  have hlt := readGroups_shorter hr
  rw [List.length_drop]
  omega

/-- The loop of a restore over an object: its pairs, and whether it ended in an error. -/
def decodePairs (b : Bytes) : List (Bytes × Bytes) × Bool :=
  match _hkey : readBytes b with
  | .error .eof => ([], false)
  | .error .broken => ([], true)
  | .ok (key, rest) =>
    match _hval : readBytes rest with
    | .error _ => ([], true)
    | .ok (val, rest') =>
      let out := decodePairs rest'
      ((key, val) :: out.1, out.2)
termination_by b.length
decreasing_by
  exact (readBytes_shorter _hval).trans (readBytes_shorter _hkey)

def encodePairs (pairs : List (Bytes × Bytes)) : Bytes :=
  pairs.flatMap fun kv => lenPrefix kv.1 ++ lenPrefix kv.2

/-! ## Streams whole and cut short -/

def Fits (kv : Bytes × Bytes) : Prop := kv.1.length < 2 ^ 64 ∧ kv.2.length < 2 ^ 64

theorem readBytes_lenPrefix {x : Bytes} (rest : Bytes) (h : x.length < 2 ^ 64) :
    readBytes (lenPrefix x ++ rest) = .ok (x, rest) := by
  refine readBytes_eq_ok.mpr ⟨x.length, x ++ rest, ?_, by simp, by simp, by simp⟩
  rw [lenPrefix, List.append_assoc]
  exact getUvarint_putUvarint _ h

/-- Pairs are read back from their bytes. -/
theorem decodePairs_encodePairs {pairs : List (Bytes × Bytes)} (h : ∀ kv ∈ pairs, Fits kv) :
    decodePairs (encodePairs pairs) = (pairs, false) := by
  induction pairs with
  | nil =>
    rw [decodePairs]
    rfl
  | cons kv pairs ih =>
    obtain ⟨hk, hv⟩ := h kv List.mem_cons_self
    have hkey : readBytes (encodePairs (kv :: pairs)) =
        .ok (kv.1, lenPrefix kv.2 ++ encodePairs pairs) := by
      rw [encodePairs, List.flatMap_cons, List.append_assoc]
      exact readBytes_lenPrefix _ hk
    rw [decodePairs]
    split
    · simp_all
    · simp_all
    · rename_i key rest hread
      obtain ⟨rfl, rfl⟩ := Prod.mk.inj (Except.ok.inj (hkey.symm.trans hread))
      have hval := readBytes_lenPrefix (encodePairs pairs) hv
      split
      · simp_all
      · rename_i val rest' hread'
        obtain ⟨rfl, rfl⟩ := Prod.mk.inj (Except.ok.inj (hval.symm.trans hread'))
        rw [ih fun kv' h' => h kv' (.tail _ h')]

theorem readGroups_append {k n : Nat} {b rest : Bytes} (t : Bytes)
    (h : readGroups k b = some (n, rest)) : readGroups k (b ++ t) = some (n, rest ++ t) := by
  induction k generalizing b n with
  | zero => cases h
  | succ k ih =>
    cases b with
    | nil => cases h
    | cons c b =>
      rw [readGroups] at h
      rw [List.cons_append, readGroups]
      split at h
      · rename_i hlast
        rw [if_pos hlast]
        split at h
        · cases h
        · rename_i hok
          obtain ⟨rfl, rfl⟩ := Prod.mk.inj (Option.some.inj h)
          rw [if_neg hok]
      · rename_i hmore
        obtain ⟨⟨m, rest'⟩, hr, heq⟩ := Option.map_eq_some_iff.mp h
        obtain ⟨rfl, rfl⟩ := Prod.mk.inj heq
        rw [if_neg hmore, ih hr]
        rfl

/-- What was read is read as well with more behind it. -/
theorem readBytes_append {b x rest : Bytes} (t : Bytes) (h : readBytes b = .ok (x, rest)) :
    readBytes (b ++ t) = .ok (x, rest ++ t) := by
  obtain ⟨n, r, hr, hle, rfl, rfl⟩ := readBytes_eq_ok.mp h
  exact readBytes_eq_ok.mpr ⟨n, r ++ t, readGroups_append t hr, by simp; omega,
    List.take_append_of_le_length hle, List.drop_append_of_le_length hle⟩

/-- A stream cut short is broken, or has fewer pairs. -/
theorem decodePairs_truncated {pairs : List (Bytes × Bytes)} (h : ∀ kv ∈ pairs, Fits kv)
    {q t : Bytes} (hcut : q ++ t = encodePairs pairs) (ht : t ≠ []) :
    (decodePairs q).2 = true ∨ (decodePairs q).1.length < pairs.length := by
  induction pairs generalizing q with
  | nil => exact absurd (List.append_eq_nil_iff.mp hcut).2 ht
  | cons kv pairs ih =>
    obtain ⟨hk, hv⟩ := h kv List.mem_cons_self
    rw [encodePairs, List.flatMap_cons, List.append_assoc, ← encodePairs] at hcut
    rw [decodePairs]
    split
    · exact .inr (by simp)
    · exact .inl rfl
    · rename_i key rest hread
      have hkey := (readBytes_append t hread).symm.trans (hcut ▸ readBytes_lenPrefix _ hk)
      obtain ⟨rfl, hrest⟩ := Prod.mk.inj (Except.ok.inj hkey)
      split
      · exact .inl rfl
      · rename_i val rest' hread'
        have hval := (readBytes_append t hread').symm.trans (hrest ▸ readBytes_lenPrefix _ hv)
        obtain ⟨rfl, hrest'⟩ := Prod.mk.inj (Except.ok.inj hval)
        rcases ih (fun kv' h' => h kv' (.tail _ h')) hrest' with htorn | hfew
        · exact .inl htorn
        · exact .inr (by simpa using hfew)

/-! ## Exports as bytes -/

/-- A node manifest and the objects next to it. -/
structure LogicalExport where
  formatVersion : Int
  cfs : List CFEntry
  objects : GoMap Bytes

section
variable (enc : Row → Bytes) (dec : ColumnFamily → Bytes → Row)

def encodeObject (obj : CFObject) : Bytes := encodePairs (obj.pairs.map fun kv => (kv.1, enc kv.2))

/-- Values are read as those of the object's family; a family that is not known is not restored. -/
def decodeObject (name b : Bytes) : CFObject :=
  { pairs := (decodePairs b).1.map fun kv =>
      (kv.1, (cfByName name).elim (.bytes kv.2) fun cf => dec cf kv.2)
    torn := (decodePairs b).2 }

/-- `ExportLogical` without a selection and without a cut. -/
def exportBytes (src : LocalStore) : LogicalExport :=
  let node := exportLogical 0 src
  { formatVersion := node.formatVersion
    cfs := node.cfs
    objects := node.objects.map fun _ obj => encodeObject enc obj }

def LogicalExport.read (ex : LogicalExport) : NodeExport :=
  { formatVersion := ex.formatVersion
    cfs := ex.cfs
    objects := ex.objects.map fun name b => decodeObject dec name b }

end

/-- The values of a store are read back, and keys and values can be held in memory. -/
def Spelled (enc : Row → Bytes) (dec : ColumnFamily → Bytes → Row) (src : LocalStore) : Prop :=
  ∀ (cf : ColumnFamily) (k : Bytes) (row : Row), src[rowKey cf k]? = some row →
    dec cf (enc row) = row ∧ k.length < 2 ^ 64 ∧ (enc row).length < 2 ^ 64

variable {enc : Row → Bytes} {dec : ColumnFamily → Bytes → Row} {src : LocalStore}
  {cf : ColumnFamily}

theorem exportRow_zero (src : LocalStore) (cf : ColumnFamily) (k : Bytes) :
    exportRow 0 src cf k = src[rowKey cf k]? := by
  unfold exportRow
  cases src[rowKey cf k]? with
  | none => rfl
  | some row => simp [exported]

theorem mem_exportPairs_zero {k : Bytes} {row : Row} :
    (k, row) ∈ exportPairs 0 src cf ↔ src[rowKey cf k]? = some row := by
  rw [mem_exportPairs, exportRow_zero]

theorem spelled_fits (h : Spelled enc dec src) :
    ∀ kv ∈ (exportPairs 0 src cf).map fun kv => (kv.1, enc kv.2), Fits kv := by
  intro kv hkv
  obtain ⟨⟨k, row⟩, hmem, rfl⟩ := List.mem_map.mp hkv
  exact (h cf k row (mem_exportPairs_zero.mp hmem)).2

/-- A whole object is read back. -/
theorem decodeObject_encodeObject (h : Spelled enc dec src) :
    decodeObject dec cf.name (encodeObject enc ⟨exportPairs 0 src cf, false⟩) =
      ⟨exportPairs 0 src cf, false⟩ := by
  have hback : (exportPairs 0 src cf).map
      ((fun kv => (kv.1, dec cf kv.2)) ∘ fun kv => (kv.1, enc kv.2)) = exportPairs 0 src cf := by
    refine (List.map_congr_left fun kv hkv => ?_).trans (List.map_id _)
    obtain ⟨k, row⟩ := kv
    exact congrArg (Prod.mk k) (h cf k row (mem_exportPairs_zero.mp hkv)).1
  rw [decodeObject, encodeObject, decodePairs_encodePairs (spelled_fits h), cfByName_name,
    List.map_map]
  exact congrArg (CFObject.mk · false) hback

/-- An export is read back from its objects. -/
theorem read_exportBytes (h : Spelled enc dec src) :
    (exportBytes enc src).read dec = exportLogical 0 src := by
  have hobjects : ((exportBytes enc src).read dec).objects = (exportLogical 0 src).objects := by
    refine Std.ExtTreeMap.ext_getElem? fun name => ?_
    simp only [LogicalExport.read, exportBytes, Std.ExtTreeMap.getElem?_map]
    cases hobj : (exportLogical 0 src).objects[name]? with
    | none => rfl
    | some obj =>
      obtain ⟨cf, -, rfl, rfl⟩ := (getElem?_objects _ _ _ _).mp hobj
      exact congrArg some (decodeObject_encodeObject h)
  exact congrArg (NodeExport.mk _ _) hobjects

/-! ## The restore of a whole export -/

/-- A row an export carries over: of an authoritative family, and not the storage identity. -/
def Carried (cf : ColumnFamily) (k : Bytes) : Prop :=
  cf ∈ authoritativeCFs ∧ ¬ (cf = .sys ∧ k = storageIdentityKey)

/-- Every latest pointer the repair looks at names records that are there. -/
def Anchored (s : LocalStore) : Prop :=
  ∀ p ∈ pointersOf s, ∀ v ∈ p.lp.winner :: p.lp.siblingVersions, present s p.ns p.userKey v = true

/-- The rows of a source as they are copied into an empty store. -/
def copied (src : LocalStore) : LocalStore := runOps ∅ (nodeOps 0 {} src)

/-- A restore to the same shards keeps every key but the identity. -/
theorem targetKey_same (cf : ColumnFamily) (k : Bytes) :
    targetKey cf {} k = if cf = .sys ∧ k = storageIdentityKey then .ok none else .ok (some k) := by
  have hshards : ¬ (cf = .replData ∧ (0 : UInt64) < 0) := fun h => absurd h.2 (by decide)
  rw [targetKey, if_neg hshards]

/-- A restored row is that of the source. -/
theorem getElem?_copied {k : Bytes} (h : Carried cf k) :
    (copied src)[rowKey cf k]? = src[rowKey cf k]? := by
  have hto (k' t : Bytes) (ht : targetKey cf {} k' = .ok (some t)) : t = k' := by
    rw [targetKey_same] at ht
    split at ht
    · cases ht
    · exact (Option.some.inj (Except.ok.inj ht)).symm
  have hk : targetKey cf {} k = .ok (some k) := by rw [targetKey_same, if_neg h.2]
  rw [copied, getElem?_nodeOps_of_kept h.1 hto hk, exportRow_zero]
  simp

/-- The repair has nothing to do where every pointer has its record. -/
theorem repaired_of_anchored {s : LocalStore} (h : Anchored s) : repaired s = s := by
  have hnone : (pointersOf s).flatMap (repairOps s) = [] := by
    refine List.flatMap_eq_nil_iff.mpr fun p hp => ?_
    rw [repairOps, if_pos (h p hp _ List.mem_cons_self), if_pos]
    exact List.all_eq_true.mpr fun v hv => h p hp v (.tail _ hv)
  rw [repaired, hnone]
  rfl

/-- What is copied from an anchored store is anchored. -/
theorem anchored_copied (h : Anchored src) : Anchored (copied src) := by
  have hmeta : pointersOf (copied src) = pointersOf src := by
    unfold pointersOf
    rw [scanRows_congr fun k => getElem?_copied ⟨by decide, by simp⟩]
  intro p hp v hv
  rw [hmeta] at hp
  rw [present, getElem?_copied ⟨by decide, by simp⟩]
  exact h p hp v hv

theorem routable_same : Routable 0 {} src := by
  intro cf kv _
  rw [targetKey_same]
  split
  · exact ⟨_, rfl⟩
  · exact ⟨_, rfl⟩

/-! ## The restore of a cut one -/

/-- An object that is torn or has another number of pairs stops the restore. -/
theorem restoreLogical_stops {node : NodeExport} {ri : RestoreInfo} {entry : CFEntry}
    {obj : CFObject} (hentry : entry ∈ node.cfs) (hcf : cfByName entry.cf = some cf)
    (hobj : node.objects[entry.cf]? = some obj)
    (hbad : obj.torn = true ∨ (obj.pairs.length : Int) ≠ entry.entries) (d : LocalStore) :
    ∃ err, (finish answer d (restoreLogical node ri)).1 = .error err := by
  refine Safe.fails ?_
  unfold restoreLogical
  split
  · exact trivial
  · have hturn (d : LocalStore) : Safe answer True (fun _ _ => False) d
        (restoreEntry node ri entry) := by
      simp only [restoreEntry, hcf, hobj, restoreCFObject]
      refine Safe.bind ((safe_anything d _).imp fun ops d' _ => ?_)
      split
      · exact trivial
      · rename_i htorn
        rw [if_pos (hbad.resolve_left htorn)]
        exact trivial
    -- the entry is among those still to come
    refine Safe.bind ((Safe.foldlM (J := fun rest _ _ => entry ∈ rest) (fun a _ rest _ d ha => ?_)
      hentry).imp fun _ _ h => absurd h List.not_mem_nil)
    by_cases heq : a = entry
    · rw [heq]
      exact (hturn d).imp fun _ _ h => h.elim
    · exact (safe_anything d _).imp fun _ _ _ => (List.mem_cons.mp ha).resolve_left (Ne.symm heq)

/-- **Export and restore are inverse up to the repair, and a cut object is found.** Restored into an
empty store, an export without selection and cut leaves what the repair of latest pointers makes
of the source's authoritative rows without the storage identity; if the pointers of the source name
records that are there, exactly these rows. And if any object is replaced by a strict part of its
front, the restore ends in an error. -/
theorem logical_restore_inverse (enc : Row → Bytes) (dec : ColumnFamily → Bytes → Row)
    (src : LocalStore) (hsrc : Spelled enc dec src) :
    (∃ d', finish answer ∅ (restoreLogical ((exportBytes enc src).read dec) {}) = (.ok (), d') ∧
      d' = repaired (copied src) ∧
      (∀ cf k, Carried cf k → (copied src)[rowKey cf k]? = src[rowKey cf k]?) ∧
      (Anchored src →
        ∀ cf k, Carried cf k → d'[rowKey cf k]? = src[rowKey cf k]?)) ∧
    ∀ (name whole cut rest : Bytes) (d : LocalStore),
      (exportBytes enc src).objects[name]? = some whole → whole = cut ++ rest → rest ≠ [] →
      ∃ err, (finish answer d (restoreLogical
        (LogicalExport.read dec { exportBytes enc src with
          objects := (exportBytes enc src).objects.insert name cut }) {})).1 = .error err := by
  constructor
  · obtain ⟨_, d', hend, hleft⟩ := (leaves_restoreLogical (d := ∅) routable_same).ends
    rw [read_exportBytes hsrc]
    refine ⟨d', hend, hleft, fun cf k h => getElem?_copied h, fun hanch cf k h => ?_⟩
    rw [hleft]
    show (repaired (copied src))[rowKey cf k]? = _
    rw [repaired_of_anchored (anchored_copied hanch), getElem?_copied h]
  · intro name whole cut rest d hobj hcut hrest
    rw [exportBytes, Std.ExtTreeMap.getElem?_map, Option.map_eq_some_iff] at hobj
    obtain ⟨obj, hobj, rfl⟩ := hobj
    obtain ⟨cf, hcf, rfl, rfl⟩ := (getElem?_objects _ _ _ _).mp hobj
    have hbad := decodePairs_truncated (spelled_fits hsrc) hcut.symm hrest
    set ex : NodeExport := LogicalExport.read dec { exportBytes enc src with
      objects := (exportBytes enc src).objects.insert cf.name cut } with hex
    have hentry : (⟨cf.name, (exportPairs 0 src cf).length⟩ : CFEntry) ∈ ex.cfs :=
      List.mem_map_of_mem hcf
    have hobj' : ex.objects[cf.name]? = some (decodeObject dec cf.name cut) := by
      simp [hex, LogicalExport.read]
    refine restoreLogical_stops hentry (cfByName_name cf) hobj' ?_ d
    simp only [decodeObject, List.length_map] at hbad ⊢
    exact hbad.imp_right fun h => by omega

def rawBytes : Row → Bytes
  | .bytes b => b
  | _ => []

/-- A source with an identity, an empty key and an empty value. -/
def twoRows : LocalStore :=
  runOps ∅ [.put (rowKey .sys storageIdentityKey) (.bytes [0x75]),
    .put (rowKey .graphData []) (.bytes [0x31]), .put (rowKey .vectorRaw [0x76]) (.bytes [])]

theorem logical_restore_inverse_rows :
    ∃ d', finish answer ∅ (restoreLogical ((exportBytes rawBytes twoRows).read
        fun _ => .bytes) {}) = (.ok (), d') ∧
      d'[rowKey .graphData []]? = twoRows[rowKey .graphData []]? := by
  have hspelled : Spelled rawBytes (fun _ => .bytes) twoRows := by
    intro cf k row hrow
    rcases getElem?_runOps_cases hrow with hold | ⟨op, hop, hkey, hval⟩
    · simp at hold
    · simp only [List.mem_cons, List.not_mem_nil, or_false] at hop
      rcases hop with rfl | rfl | rfl <;> obtain rfl := Option.some.inj hval <;>
        obtain ⟨rfl, rfl⟩ := rowKey_inj.mp hkey <;> decide
  have hanchored : Anchored twoRows := by
    have hnone : pointersOf twoRows = [] := by decide +kernel
    rw [Anchored, hnone]
    exact fun p hp => absurd hp List.not_mem_nil
  obtain ⟨⟨d', hend, -, -, hsame⟩, -⟩ :=
    logical_restore_inverse rawBytes (fun _ => .bytes) twoRows hspelled
  exact ⟨d', hend, hsame hanchored _ _ ⟨by decide, by decide⟩⟩

def unanchored : LatestPointer := { winner := { hlcPhysicalMs := 1 } }

def dangling : LocalStore := runOps ∅ [putLatest [0x6e] [0x6b] unanchored]

/-- It is gone after the restore. -/
theorem dangling_pointer_dropped :
    (finish answer ∅ (restoreLogical ((exportBytes (fun _ => []) dangling).read
        fun _ _ => .latest unanchored) {})).2.isEmpty = true ∧
      dangling[rowKey .kvMeta (Records.latestKey [0x6e] [0x6b])]? = some (.latest unanchored) := by
  have hspelled : Spelled (fun _ => []) (fun _ _ => .latest unanchored) dangling := by
    intro cf k row hrow
    rcases getElem?_runOps_cases hrow with hold | ⟨op, hop, hkey, hval⟩
    · simp at hold
    · obtain rfl := List.mem_singleton.mp hop
      obtain rfl := Option.some.inj hval
      obtain ⟨-, rfl⟩ := rowKey_inj.mp hkey
      exact ⟨rfl, by decide +kernel, by decide⟩
  rw [read_exportBytes hspelled]
  decide +kernel

end WaveSpan.Backup.Restore
