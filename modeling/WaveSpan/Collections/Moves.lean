/-
WaveSpan.Collections.Moves — the rows of a range and the entries that move them.

Rows are moved by their shard-relative keys. A range scan reads the rows whose routing key
lies in the range (`mem_scanRange`), an ingest entry carries rows and a purge entry the
bounds of a range, and both are read back (`decodeIngest_encodeIngest`,
`decodePurge_chunks`).
-/
import WaveSpan.Collections.Locality

namespace WaveSpan.Collections

open WaveSpan.Wire WaveSpan.Rows WaveSpan.Prog

/-! ## Scopes -/

/-- A scope is read back. -/
theorem takeChunk_inScope {ns coll : Chunk} {t : Bytes} (h : (inScope ns coll t).length < 2 ^ 32) :
    ∃ r, takeChunk (inScope ns coll t) = some (ns, r) ∧ takeChunk r = some (coll, t) := by
  have hwire : inScope ns coll t
      = appendChunk [] ns.val ++ (appendChunk [] coll.val ++ t) := by
    simp [inScope, appendChunk]
  rw [hwire] at h ⊢
  simp only [List.length_append, length_appendChunk, List.length_nil] at h
  exact ⟨_, takeChunk_append ns _ (by simp; omega), takeChunk_append coll t (by omega)⟩

/-! ## Scanning a range -/

section
variable {st : Store} {s : UInt64} {start stop : Bytes} {k : RowKey}

theorem scanRange_subset {pfx : Bytes} {limit : Int} :
    scanRange st pfx start stop limit ⊆ scanRange st pfx start stop 0 := by
  unfold scanRange
  simp only [show ¬ (0 : Int) < 0 by decide, if_false]
  split
  · exact List.take_subset ..
  · exact fun _ h => h

/-- The rows a migration scans. -/
theorem mem_scanRange {pfx : Bytes} {kv : RawKV} :
    kv ∈ scanRange st pfx start stop 0 ↔ st[pfx ++ kv.suffix]? = some kv.value ∧
      ∃ rk, routeKeyOf kv.suffix = some rk ∧ inRoute rk start stop = true := by
  unfold scanRange
  rw [if_neg (by decide), List.mem_filterMap]
  constructor
  · rintro ⟨⟨key, v⟩, hmem, hkv⟩
    obtain ⟨hrow, tail, rfl⟩ := mem_scan_iff.mp hmem
    simp only [List.drop_left] at hkv
    cases hr : routeKeyOf tail with
    | none => rw [hr] at hkv; cases hkv
    | some rk =>
      rw [hr] at hkv
      simp only at hkv
      split at hkv
      · rename_i hin
        cases hkv
        exact ⟨hrow, rk, hr, hin⟩
      · cases hkv
  · rintro ⟨hrow, rk, hr, hin⟩
    refine ⟨(pfx ++ kv.suffix, kv.value), mem_scan_iff.mpr ⟨hrow, _, rfl⟩, ?_⟩
    simp only [List.drop_left, hr, hin, if_true]

end

/-! ## The entries a move proposes -/

section
variable {st : Store} {s : UInt64} {start stop : Bytes}

/-- Two chunks behind an opcode, as in a purge. -/
theorem decodePurge_eq (op : UInt8) (b : Bytes) :
    decodePurge (op :: b) = (Format.bytes.seq .bytes).read .shortCommand b := by
  simp only [decodePurge, Format.read, Format.seq, Format.bytes]
  cases takeChunk b with
  | none => rfl
  | some p => cases hstop : takeChunk p.2 <;> simp [hstop]

/-- Two chunks after an opcode, below four gigabytes, are read back. -/
theorem decodePurge_chunks {op : UInt8}
    (h : (appendChunk (appendChunk [op] start) stop).length < 2 ^ 32) :
    decodePurge (appendChunk (appendChunk [op] start) stop) = .ok (start, stop) := by
  have hwire : appendChunk (appendChunk [op] start) stop =
      op :: (Format.bytes.seq .bytes).enc (start, stop) := by
    simp [Format.seq, Format.bytes, appendChunk]
  rw [hwire, List.length_cons] at h
  rw [hwire, decodePurge_eq, Format.read_enc (by omega)]

def rowFormat : Format RawKV :=
  (Format.bytes.seq .bytes).iso (fun p => ⟨p.1, p.2⟩) (fun kv => (kv.suffix, kv.value))
    (fun _ => rfl) (fun _ => rfl)

theorem takeRows_eq (n : Nat) (b : Bytes) :
    takeRows n b = (rowFormat.takeN n b).map Prod.fst := by
  induction n generalizing b with
  | zero => rfl
  | succ n ih =>
    simp only [takeRows, Format.takeN, rowFormat, Format.iso, Format.seq, Format.bytes]
    cases takeChunk b with
    | none => rfl
    | some p =>
      cases hv : takeChunk p.2 with
      | none => simp [hv]
      | some q =>
        simp [hv, ih, rowFormat, Format.iso, Format.seq, Format.bytes, Function.comp_def]

def ingestFormat : Format (List RawKV) :=
  rowFormat.list fun kv => by simp [rowFormat, Format.iso, Format.seq, Format.bytes]

theorem encodeIngest_eq (kvs : List RawKV) :
    encodeIngest kvs = OpKind.ingest.toByte :: ingestFormat.enc kvs := by
  simp [encodeIngest, ingestFormat, Format.list, rowFormat, Format.iso, Format.seq, Format.bytes,
    appendChunk]

theorem decodeIngest_eq (op : UInt8) (b : Bytes) :
    decodeIngest (op :: b) = ingestFormat.read .shortCommand b := by
  simp only [decodeIngest, Format.read, ingestFormat, Format.list, List.length_cons, takeRows_eq,
    List.drop_succ_cons, List.drop_zero]
  by_cases h : b.length < 4
  · rw [if_pos (by omega), if_pos h]
  · rw [if_neg (by omega), if_neg h]
    cases rowFormat.takeN (beVal (b.take 4)) (b.drop 4) <;> rfl

/-- An ingest is read back. -/
theorem decodeIngest_encodeIngest {kvs : List RawKV} (h : (encodeIngest kvs).length < 2 ^ 32) :
    decodeIngest (encodeIngest kvs) = .ok kvs := by
  rw [encodeIngest_eq, List.length_cons] at h
  rw [encodeIngest_eq, decodeIngest_eq, Format.read_enc (by omega)]

end

end WaveSpan.Collections
