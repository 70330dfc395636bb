/-
WaveSpan.Records.Keys — records, latest pointers and the keys they live under
(`internal/recordstore/encode.go`, `internal/storage/envelope.go`,
`proto/wavespan/v1/common.proto`).

Two column families hold a key's state. The versioned records sit in one, each
under namespace, user key and version (`dataKey`); the latest pointer sits in the
other under namespace and user key (`latestKey`). The TTL index shares the second
family: its keys start with the byte `0xff`, followed by the 60-second bucket of
the expiry (`ttlKey`).

Namespace and user key can be read back off every key, so none of the three
layouts sends two keys to one row. The pointers and the index stay apart as long
as no namespace is so long that its length starts with the sentinel byte; the
source counts on lengths below 128 (`latestKey_ne_ttlKey`).
-/
import WaveSpan.Lib.Varint
import WaveSpan.Records.Clock

namespace WaveSpan.Records

open WaveSpan.Wire

/-! ## Records -/

/-- A record's value: inline bytes, or a pointer to storage elsewhere. -/
inductive ValueBody where
  | unset
  | inline (bytes : Bytes)
  | external (uri : Bytes) (size : UInt64) (checksum : Bytes)
  deriving DecidableEq, Repr

def ValueBody.getInline : ValueBody → Bytes
  | .inline b => b
  | _ => []

structure StoredRecord where
  ns : Bytes
  logicalKey : Bytes
  value : ValueBody := .unset
  version : Version
  expiresAtUnixMs : Option Int64 := none
  tombstone : Bool := false
  originClusterId : Bytes := []
  originMemberId : Bytes := []
  deriving DecidableEq, Repr

/-- The summary of a key's current winner. -/
structure LatestPointer where
  winner : Version
  siblingVersions : List Version := []
  expiresAtUnixMs : Option Int64 := none
  tombstone : Bool := false
  inlineValue : Option Bytes := none
  deriving DecidableEq, Repr

inductive MutationKind where
  | put
  | delete
  deriving DecidableEq, Repr

/-- An entry of the local mutation log. -/
structure MutationEnvelope where
  mutationId : Bytes
  kind : MutationKind
  logicalKey : Bytes
  value : ValueBody
  version : Version
  expiresAtUnixMs : Option Int64
  tombstone : Bool
  ns : Bytes
  originClusterId : Bytes
  originMemberId : Bytes
  originSequence : UInt64
  deriving DecidableEq, Repr

/-- The size up to which a value is copied into the latest pointer. -/
def inlineValueMax : Nat := 512

/-- The copy of a record's value that rides its pointer: a live record's inline
value, unless it is too large. -/
def inlineValue (rec : StoredRecord) : Option Bytes :=
  if rec.tombstone then none
  else
    match rec.value with
    | .inline b => if inlineValueMax < b.length then none else some b
    | _ => none

/-! ## Key functions -/

/-- The pointer's key: user keys keep their byte order within a namespace. -/
def latestKey (ns userKey : Bytes) : Bytes := lenPrefix ns ++ userKey

def namespacePrefix (ns : Bytes) : Bytes := lenPrefix ns

def encodeVersion (v : Version) : Bytes :=
  u64 v.hlcPhysicalMs ++ (beBytes 4 v.hlcLogical.toNat ++
    (lenPrefix v.writerClusterID ++ (lenPrefix v.writerMemberID ++ u64 v.writerSequence)))

def dataKeyPrefix (ns userKey : Bytes) : Bytes := lenPrefix ns ++ lenPrefix userKey

def dataKey (ns userKey : Bytes) (v : Version) : Bytes :=
  dataKeyPrefix ns userKey ++ encodeVersion v

/-- The first byte of every TTL index key. -/
def ttlSentinel : UInt8 := 0xff

def ttlBucketMs : Int64 := 60000

/-- The start of an expiry's bucket (division rounds toward zero). -/
def ttlBucketStart (expiresMs : Int64) : Int64 := expiresMs / ttlBucketMs * ttlBucketMs

def ttlKey (expiresMs : Int64) (ns userKey : Bytes) : Bytes :=
  ttlSentinel :: (u64 (ttlBucketStart expiresMs).toUInt64 ++ (lenPrefix ns ++ userKey))

/-- The index entries due by `nowMs` lie between these two bounds. -/
def ttlLowBound : Bytes := [ttlSentinel]

def ttlScanBound (nowMs : Int64) : Bytes :=
  ttlSentinel :: u64 (ttlBucketStart nowMs + ttlBucketMs).toUInt64

/-- The namespace and user key of an index key. -/
def parseTTLKey (k : Bytes) : Option (Bytes × Bytes) :=
  if k.length < 9 ∨ k.head? ≠ some ttlSentinel then none else takeLenPrefix (k.drop 9)

/-- `"local" | partition | seq`, each behind its length. -/
def replLogKey (part : Bytes) (seq : UInt64) : Bytes :=
  lenPrefix [0x6c, 0x6f, 0x63, 0x61, 0x6c] ++ (lenPrefix part ++ lenPrefix (u64 seq))

/-! ## Keys can be taken apart -/

theorem latestKey_inj {ns ns' key key' : Bytes} :
    latestKey ns key = latestKey ns' key' ↔ ns = ns' ∧ key = key' :=
  lenPrefix_append_inj

theorem encodeVersion_inj {v w : Version} : encodeVersion v = encodeVersion w ↔ v = w := by
  constructor
  · intro h
    unfold encodeVersion at h
    rw [u64_append_inj] at h
    obtain ⟨hp, h⟩ := h
    obtain ⟨hl, h⟩ := List.append_inj h (by simp)
    rw [lenPrefix_append_inj, lenPrefix_append_inj] at h
    obtain ⟨hc, hm, hs⟩ := h
    have hl' : v.hlcLogical = w.hlcLogical :=
      UInt32.toNat_inj.mp (beBytes_inj v.hlcLogical.toNat_lt w.hlcLogical.toNat_lt hl)
    exact Version.ext hp hl' hc hm (u64_inj hs)
  · rintro rfl
    rfl

/-- A record's key is its own. -/
theorem dataKey_inj {ns ns' key key' : Bytes} {v w : Version} :
    dataKey ns key v = dataKey ns' key' w ↔ ns = ns' ∧ key = key' ∧ v = w := by
  unfold dataKey dataKeyPrefix
  rw [List.append_assoc, List.append_assoc, lenPrefix_append_inj, lenPrefix_append_inj,
    encodeVersion_inj]

/-- A key of the data family starts with a key's space exactly when it is a
version of that key. -/
theorem dataKeyPrefix_isPrefix {ns ns' key key' : Bytes} {v : Version} :
    dataKeyPrefix ns key <+: dataKey ns' key' v ↔ ns = ns' ∧ key = key' := by
  constructor
  · rintro ⟨r, hr⟩
    unfold dataKey dataKeyPrefix at hr
    rw [List.append_assoc, List.append_assoc, lenPrefix_append_inj, lenPrefix_append_inj] at hr
    exact ⟨hr.1, hr.2.1⟩
  · rintro ⟨rfl, rfl⟩
    exact List.prefix_append _ _

/-- A pointer starts with a namespace's space exactly when it is one of its keys. -/
theorem namespacePrefix_isPrefix {ns ns' key : Bytes} :
    namespacePrefix ns <+: latestKey ns' key ↔ ns = ns' := by
  constructor
  · rintro ⟨r, hr⟩
    exact (lenPrefix_append_inj.mp hr).1
  · rintro rfl
    exact List.prefix_append _ _

theorem ttlKey_inj {e e' : Int64} {ns ns' key key' : Bytes} :
    ttlKey e ns key = ttlKey e' ns' key' ↔
      ttlBucketStart e = ttlBucketStart e' ∧ ns = ns' ∧ key = key' := by
  unfold ttlKey
  rw [List.cons.injEq, u64_append_inj, lenPrefix_append_inj]
  constructor
  · rintro ⟨-, hb, hn, hk⟩
    exact ⟨Int64.toBitVec_inj.mp (congrArg UInt64.toBitVec hb), hn, hk⟩
  · rintro ⟨hb, hn, hk⟩
    exact ⟨rfl, congrArg _ hb, hn, hk⟩

/-- An index key names the record it was written for. -/
theorem parseTTLKey_ttlKey {ns : Bytes} (h : ns.length < 2 ^ 64) (e : Int64) (key : Bytes) :
    parseTTLKey (ttlKey e ns key) = some (ns, key) := by
  have hdrop : (ttlKey e ns key).drop 9 = lenPrefix ns ++ key := by
    show (u64 _ ++ (lenPrefix ns ++ key)).drop 8 = _
    exact drop_u64_append _ _
  have hlen : ¬ (ttlKey e ns key).length < 9 := by
    simp only [ttlKey, List.length_cons, List.length_append, length_u64]
    omega
  have hhead : (ttlKey e ns key).head? = some ttlSentinel := rfl
  unfold parseTTLKey
  rw [if_neg (by simp [hlen, hhead]), hdrop, takeLenPrefix_lenPrefix key h]

/-- Below 128 bytes a namespace's pointers are clear of the TTL index. -/
theorem namespacePrefix_not_ttlKey {ns ns' key : Bytes} {e : Int64} (h : ns.length < 128) :
    ¬ namespacePrefix ns <+: ttlKey e ns' key := by
  intro hp
  unfold namespacePrefix lenPrefix ttlKey at hp
  rw [putUvarint_of_lt h, List.singleton_append, List.cons_prefix_cons] at hp
  have hv := congrArg UInt8.toNat hp.1
  rw [toNat_group (by omega)] at hv
  simp only [ttlSentinel, UInt8.reduceToNat] at hv
  omega

/-- Pointers of short namespaces lie outside the index. -/
theorem latestKey_ne_ttlKey {ns key ns' key' : Bytes} {e : Int64} (h : ns.length < 128) :
    latestKey ns key ≠ ttlKey e ns' key' := by
  intro heq
  have hp : namespacePrefix ns <+: latestKey ns key := namespacePrefix_isPrefix.mpr rfl
  rw [heq] at hp
  exact namespacePrefix_not_ttlKey h hp

/-- A key's own index entries are not its pointer: they are nine bytes longer. -/
theorem ttlKey_ne_latestKey_self (e : Int64) (ns key : Bytes) :
    ttlKey e ns key ≠ latestKey ns key := by
  intro h
  have hlen := congrArg List.length h
  simp only [ttlKey, latestKey, List.length_cons, List.length_append, length_u64] at hlen
  omega

end WaveSpan.Records
