/-
WaveSpan.Graph.Keys — property values and the keys of the property graph
(`internal/graph/keys.go`, `selection.go`, `proto/wavespan/v1/cypher.proto`).

Node and edge records live in one column family, under `n` and `e`. A second
family holds what is derived from them: a label entry (`l`) per label, a property
entry (`p`) per label and property, and two adjacency entries (`ao`, `ai`) per
edge. Every part of a key stands behind its length, with one exception: the value
of a property entry is spelled so that it sorts, and the node id follows it raw.

So records, label entries and adjacency entries can be read back off their keys
(`nodeKey_inj`, `edgeKey_inj`, `outAdjKey_inj`, `inAdjKey_inj`), while a property
entry cannot: what stands between value and node id has to be settled against the
record. Integers sort as numbers (`isGE_ordered_int`).
-/
import WaveSpan.Lib.Varint
import WaveSpan.Collections.Store
import WaveSpan.Collections.Keys

namespace WaveSpan.Graph

open WaveSpan.Wire
open WaveSpan.Collections (GoMap prefixEnd inRange signBit)

inductive Value where
  | unset
  | null (b : Bool)
  | bool (b : Bool)
  | int (i : Int64)
  | double (bits : UInt64)
  | string (s : Bytes)
  | bytes (b : Bytes)
  | list (values : List Value)
  | map (entries : List (Bytes × Value))
  deriving Repr

/-! ## Key functions -/

def pfxNode : Bytes := [0x6e]

def pfxEdge : Bytes := [0x65]

def pfxLabel : Bytes := [0x6c]

def pfxProp : Bytes := [0x70]

def pfxOutAdj : Bytes := [0x61, 0x6f]

def pfxInAdj : Bytes := [0x61, 0x69]

def lp (dst s : Bytes) : Bytes := dst ++ lenPrefix s

/-- The string at the front of a buffer and what follows it. -/
def decodeLP (b : Bytes) : Option (Bytes × Bytes) := takeLenPrefix b

def nodePrefix (graph : Bytes) : Bytes := lp pfxNode graph

def edgePrefix (graph : Bytes) : Bytes := lp pfxEdge graph

def nodeKey (graph nodeID : Bytes) : Bytes := lp (lp pfxNode graph) nodeID

def edgeKey (graph edgeID : Bytes) : Bytes := lp (lp pfxEdge graph) edgeID

def labelPrefix (graph label : Bytes) : Bytes := lp (lp pfxLabel graph) label

def labelKey (graph label nodeID : Bytes) : Bytes := lp (labelPrefix graph label) nodeID

def tagNull : UInt8 := 0

def tagBool : UInt8 := 1

def tagInt : UInt8 := 2

def tagDouble : UInt8 := 3

def tagString : UInt8 := 4

def tagBytes : UInt8 := 5

def encodeOrderedValue : Value → Bytes
  | .bool true => [tagBool, 1]
  | .bool false => [tagBool, 0]
  -- the flipped sign bit sorts the negative numbers first
  | .int i => tagInt :: u64 (i.toUInt64 ^^^ signBit)
  | .double bits =>
    tagDouble :: u64 (if bits &&& signBit ≠ 0 then ~~~bits else bits ||| signBit)
  | .string s => tagString :: s
  | .bytes b => tagBytes :: b
  | _ => [tagNull]

def propSpace (graph label prop : Bytes) : Bytes := lp (lp (lp pfxProp graph) label) prop

/-- A property entry's key without the node id. -/
def propValuePrefix (graph label prop : Bytes) (val : Value) : Bytes :=
  propSpace graph label prop ++ encodeOrderedValue val

def propKey (graph label prop : Bytes) (val : Value) (nodeID : Bytes) : Bytes :=
  propValuePrefix graph label prop val ++ nodeID

/-- The space of a property's entries of one value type. -/
def propTypePrefix (graph label prop : Bytes) (typeTag : UInt8) : Bytes :=
  propSpace graph label prop ++ [typeTag]

def outAdjPrefix (graph src : Bytes) : Bytes := lp (lp pfxOutAdj graph) src

/-- The key of an edge's entry at its start node. -/
def outAdjKey (graph src edgeType dst edgeID : Bytes) : Bytes :=
  lp (lp (lp (outAdjPrefix graph src) edgeType) dst) edgeID

def inAdjPrefix (graph dst : Bytes) : Bytes := lp (lp pfxInAdj graph) dst

def inAdjKey (graph dst edgeType src edgeID : Bytes) : Bytes :=
  lp (lp (lp (inAdjPrefix graph dst) edgeType) src) edgeID

/-- The graph a key belongs to, for a backup of selected graphs. -/
def ofKey (key : Bytes) : Option Bytes :=
  if 2 ≤ key.length ∧ (key.take 2 = pfxOutAdj ∨ key.take 2 = pfxInAdj) then
    (decodeLP (key.drop 2)).map Prod.fst
  else if 1 ≤ key.length ∧ (key.take 1 = pfxNode ∨ key.take 1 = pfxEdge ∨
      key.take 1 = pfxLabel ∨ key.take 1 = pfxProp) then
    (decodeLP (key.drop 1)).map Prod.fst
  else none

/-! ## Records and entries by key -/

theorem nodeKey_inj {g g' id id' : Bytes} :
    nodeKey g id = nodeKey g' id' ↔ g = g' ∧ id = id' := by
  simp [nodeKey, lp, lenPrefix_append_inj, lenPrefix_inj]

theorem edgeKey_inj {g g' id id' : Bytes} :
    edgeKey g id = edgeKey g' id' ↔ g = g' ∧ id = id' := by
  simp [edgeKey, lp, lenPrefix_append_inj, lenPrefix_inj]

theorem nodeKey_ne_edgeKey (g id g' id' : Bytes) : nodeKey g id ≠ edgeKey g' id' := by
  simp [nodeKey, edgeKey, lp, pfxNode, pfxEdge]

/-- The node id of a label entry is read back. -/
theorem decodeLP_labelKey {id : Bytes} (h : id.length < 2 ^ 64) (g label : Bytes) :
    decodeLP ((labelKey g label id).drop (labelPrefix g label).length) = some (id, []) := by
  have hrest := takeLenPrefix_lenPrefix [] h
  rw [List.append_nil] at hrest
  rw [labelKey, lp, List.drop_left]
  exact hrest

/-- What a scan of the entries that leave a node looks for: the node, and the
type if one is given. -/
def adjPrefix (space edgeType : Bytes) : Bytes :=
  if edgeType = [] then space else space ++ lp [] edgeType

section Adjacency

variable {g g' v v' t t' w w' id id' : Bytes}

theorem outAdjKey_inj :
    outAdjKey g v t w id = outAdjKey g' v' t' w' id' ↔
      g = g' ∧ v = v' ∧ t = t' ∧ w = w' ∧ id = id' := by
  simp [outAdjKey, outAdjPrefix, lp, lenPrefix_append_inj, lenPrefix_inj]

theorem inAdjKey_inj :
    inAdjKey g v t w id = inAdjKey g' v' t' w' id' ↔
      g = g' ∧ v = v' ∧ t = t' ∧ w = w' ∧ id = id' := by
  simp [inAdjKey, inAdjPrefix, lp, lenPrefix_append_inj, lenPrefix_inj]

/-- A scan of a node's entries meets those of the node, and of the type if one is
given. -/
theorem adjPrefix_isPrefix (pfx : Bytes) :
    adjPrefix (lp (lp pfx g) v) t <+: lp (lp (lp (lp (lp pfx g') v') t') w') id' ↔
      g = g' ∧ v = v' ∧ (t = [] ∨ t = t') := by
  unfold adjPrefix
  by_cases ht : t = []
  · simp [ht, lp, lenPrefix_append_prefix, lenPrefix_prefix]
  · simp [ht, lp, lenPrefix_append_prefix, lenPrefix_prefix]

end Adjacency

/-! ## Order of integers -/

theorem xor_two_pow_63 {a : Nat} (h : a < 2 ^ 64) : a ^^^ 2 ^ 63 = (2 ^ 63 + a) % 2 ^ 64 := by
  apply Nat.eq_of_testBit_eq
  intro k
  rw [Nat.testBit_xor, Nat.testBit_mod_two_pow, Nat.testBit_two_pow]
  rcases Nat.lt_trichotomy k 63 with hk | rfl | hk
  · have hne : 63 ≠ k := by omega
    have hlt : k < 64 := by omega
    rw [Nat.testBit_two_pow_add_gt hk]
    simp [hne, hlt]
  · rw [Nat.testBit_two_pow_add_eq]
    simp
  · have hbit : a.testBit k = false :=
      Nat.testBit_lt_two_pow (Nat.lt_of_lt_of_le h (Nat.pow_le_pow_right (by decide) hk))
    have hne : 63 ≠ k := by omega
    have hge : ¬ k < 64 := by omega
    simp [hbit, hne, hge]

/-- The flipped sign bit adds half the range, so that the smallest number comes
first. -/
theorem toNat_flip (i : Int64) : ((i.toUInt64 ^^^ signBit).toNat : Int) = i.toInt + 2 ^ 63 := by
  have hlt := i.toUInt64.toNat_lt
  have hint : i.toInt =
      if 2 * i.toUInt64.toNat < 2 ^ 64 then (i.toUInt64.toNat : Int)
      else i.toUInt64.toNat - 2 ^ 64 :=
    BitVec.toInt_eq_toNat_cond i.toBitVec
  rw [UInt64.toNat_xor, WaveSpan.Collections.signBit_toNat, xor_two_pow_63 hlt, hint]
  split <;> omega

/-- Entries of integers from a bound on come no earlier than the bound's own,
whatever follows the number. -/
theorem isGE_ordered_int {bound i : Int64} (h : bound ≤ i) (r : Bytes) :
    (compare (encodeOrderedValue (.int i) ++ r) (encodeOrderedValue (.int bound))).isGE = true := by
  by_cases heq : bound = i
  · rw [heq]
    exact WaveSpan.Collections.isGE_append _ _
  · have hlt : (bound.toUInt64 ^^^ signBit).toNat < (i.toUInt64 ^^^ signBit).toNat := by
      have hb := toNat_flip bound
      have hi := toNat_flip i
      have hle : bound.toInt ≤ i.toInt := Int64.le_iff_toInt_le.mp h
      have hne : bound.toInt ≠ i.toInt := fun hc => heq (Int64.toInt_inj.mp hc)
      omega
    have hcmp := WaveSpan.Collections.compare_u64_append hlt [] r
    rw [List.append_nil] at hcmp
    simp only [encodeOrderedValue, List.cons_append, WaveSpan.Collections.compare_cons_cons]
    rw [Std.OrientedCmp.gt_iff_lt.mpr hcmp]
    simp

end WaveSpan.Graph
