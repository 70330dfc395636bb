/-
WaveSpan.Collections.Codec — the wire formats of the collections tier
(`internal/collections/command.go`, `proposer.go`, `migrate.go`, `meta.go`).

Commands, coalesced commands and their results, the entries of a move and the meta shard's
commands are all chunks, words and counted lists, so each of them is a `Format`: below four
gigabytes it is read back, and what a decoder accepts starts with what the encoder would write
(`wire_exact`). The decoders of a move do not look at the opcode, which is their caller's.

From four gigabytes on the length check of a chunk wraps, and a command is refused that was
encoded properly (`wire_long`).
-/
import WaveSpan.Collections.Moves

namespace WaveSpan.Collections

open WaveSpan.Wire

/-! ## Scratch space -/

/-- An array and how much of it is in use. -/
structure Slice (α : Type) where
  backing : List α := []
  len : Nat := 0
  fits : len ≤ backing.length := by simp

variable {α : Type}

def Slice.view (s : Slice α) : List α := s.backing.take s.len

theorem Slice.set_fits (s : Slice α) (a : α) (h : s.len < s.backing.length) :
    s.len + 1 ≤ (s.backing.set s.len a).length := by
  rw [List.length_set]
  exact h

theorem Slice.view_fits (s : Slice α) (a : α) : s.len + 1 ≤ (s.view ++ [a]).length := by
  simp [Slice.view, Nat.min_eq_left s.fits]

/-- Append in place if there is room, and to a longer copy if not. -/
def Slice.append (s : Slice α) (a : α) : Slice α :=
  if h : s.len < s.backing.length then ⟨s.backing.set s.len a, s.len + 1, s.set_fits a h⟩
  else ⟨s.view ++ [a], s.len + 1, s.view_fits a⟩

/-- Appending shows the element at the end, whichever array holds it. -/
theorem Slice.view_append (s : Slice α) (a : α) : (s.append a).view = s.view ++ [a] := by
  unfold Slice.append
  split
  · rename_i h
    simp [Slice.view, List.take_set, List.take_add_one, List.getElem?_set_self h,
      List.set_eq_of_length_le]
  · exact List.take_of_length_le (by simp [Slice.view])

theorem Slice.view_appends (s : Slice α) (l : List α) :
    (l.foldl Slice.append s).view = s.view ++ l := by
  induction l generalizing s with
  | nil => simp
  | cons a l ih => rw [List.foldl_cons, ih, Slice.view_append, List.append_assoc]; rfl

/-- A command whose items are appended to a scratch array if it holds them all, and to a new one
if not. -/
def decodeCommandScratch (b : Bytes) (scratch : Slice Item) : Except ApplyErr Command :=
  (decodeCommandInto b).map fun c =>
    let empty :=
      if c.items.length ≤ scratch.backing.length then ⟨scratch.backing, 0, by simp⟩ else {}
    { c with items := (c.items.foldl Slice.append empty).view }

/-- The scratch buffer makes no difference. -/
theorem decodeCommandScratch_eq (b : Bytes) (scratch : Slice Item) :
    decodeCommandScratch b scratch = decodeCommandInto b := by
  unfold decodeCommandScratch
  cases decodeCommandInto b with
  | error e => rfl
  | ok c =>
    simp only [Except.map, Slice.view_appends]
    split <;> simp [Slice.view]

/-! ## The results of a coalesced entry -/

def takeResults : Nat → Bytes → Option (List ProposeResult)
  | 0, _ => some []
  | n + 1, b =>
    if b.length < 8 then none
    else
      match takeChunk (b.drop 8) with
      | none => none
      | some (data, rest) =>
        (takeResults n rest).map ({ value := getU64 b, data := data.val } :: ·)

def decodeBatchResult (b : Bytes) (want : Nat) : Except ApplyErr (List ProposeResult) :=
  if b.length < 4 then .error .shortCommand
  else if beVal (b.take 4) ≠ want then .error .shortCommand
  else
    match takeResults (beVal (b.take 4)) (b.drop 4) with
    | none => .error .shortCommand
    | some rs => .ok rs

def resultFormat : Format ProposeResult :=
  (Format.word.seq .bytes).iso (fun p => ⟨p.1, p.2⟩) (fun r => (r.value, r.data)) (fun _ => rfl)
    (fun _ => rfl)

theorem takeResults_eq (n : Nat) (b : Bytes) :
    takeResults n b = (resultFormat.takeN n b).map Prod.fst := by
  induction n generalizing b with
  | zero => rfl
  | succ n ih =>
    simp only [takeResults, Format.takeN, resultFormat, Format.iso, Format.seq, Format.bytes,
      Format.word]
    split
    · rfl
    · cases hd : takeChunk (b.drop 8) <;> simp [hd, ih, resultFormat, Format.iso, Format.seq,
        Format.bytes, Format.word, Function.comp_def]

def resultsFormat : Format (List ProposeResult) :=
  resultFormat.list fun r => by simp [resultFormat, Format.iso, Format.seq, Format.word]

theorem decodeBatchResult_eq (b : Bytes) (want : Nat) :
    decodeBatchResult b want = (resultsFormat.read .shortCommand b).bind fun rs =>
      if rs.length = want then .ok rs else .error .shortCommand := by
  simp only [decodeBatchResult, Format.read, resultsFormat, Format.list, takeResults_eq]
  split
  · rfl
  · cases htake : resultFormat.takeN (beVal (b.take 4)) (b.drop 4) with
    | none => simp [Except.bind]
    | some p => simp [Except.bind, (resultFormat.takeN_exact htake).1]

/-! ## The meta shard's commands -/

/-- The opcode is whatever byte is there: the state machine rejects unknown ones. -/
structure MetaCommand where
  op : UInt8
  start : Bytes := []
  stop : Bytes := []
  shardID : UInt64 := 0

def encodeMetaCommand (c : MetaCommand) : Bytes :=
  appendChunk (appendChunk [c.op] c.start) c.stop ++ u64 c.shardID

def decodeMetaCommand (b : Bytes) : Except ApplyErr MetaCommand :=
  match b with
  | [] => .error .shortCommand
  | op :: rest =>
    match takeChunk rest with
    | none => .error .shortCommand
    | some (start, rest) =>
      match takeChunk rest with
      | none => .error .shortCommand
      | some (stop, rest) =>
        if rest.length < 8 then .error .shortCommand
        else .ok { op, start := start.val, stop := stop.val, shardID := getU64 rest }

def metaFormat : Format ((Bytes × Bytes) × UInt64) := (Format.bytes.seq .bytes).seq .word

theorem encodeMetaCommand_eq (c : MetaCommand) :
    encodeMetaCommand c = c.op :: metaFormat.enc ((c.start, c.stop), c.shardID) := by
  simp [encodeMetaCommand, metaFormat, Format.seq, Format.bytes, Format.word, appendChunk]

theorem decodeMetaCommand_eq (op : UInt8) (b : Bytes) :
    decodeMetaCommand (op :: b) = (metaFormat.read .shortCommand b).map fun p =>
      { op, start := p.1.1, stop := p.1.2, shardID := p.2 } := by
  simp only [decodeMetaCommand, Format.read, metaFormat, Format.seq, Format.bytes, Format.word]
  cases takeChunk b with
  | none => rfl
  | some p =>
    cases hstop : takeChunk p.2 with
    | none => simp [hstop, Except.map]
    | some q =>
      simp only [hstop, Option.bind_some, Option.map_some]
      split <;> rfl

/-! ## All of them -/

theorem enc_prefix_map {β ε : Type} {f : Format α} {e : ε} {b : Bytes} {g : α → β} {x : β}
    (h : (f.read e b).map g = .ok x) : ∃ a, g a = x ∧ f.enc a <+: b := by
  cases hr : f.read e b with
  | error e => rw [hr] at h; cases h
  | ok a =>
    rw [hr] at h
    cases h
    exact ⟨a, rfl, Format.enc_prefix hr⟩

/-- What is decoded was encoded at the front of the input. -/
theorem encodeCommand_prefix {b : Bytes} {c : Command} (h : decodeCommandInto b = .ok c) :
    encodeCommand c <+: b := by
  cases b with
  | nil => cases h
  | cons byte b =>
    have hdec := h
    unfold decodeCommandInto at hdec
    cases hop : OpKind.ofByte? byte with
    | none => simp [hop] at hdec
    | some op =>
      simp only [hop] at hdec
      split at hdec
      · cases hdec
      · rename_i hknown
        obtain rfl : op.toByte = byte := OpKind.toByte_of_ofByte? hop
        have hmut : mutates op = true := by
          by_contra hno
          exact hknown (by simpa [mutates, and_assoc] using hno)
        rw [decodeCommandInto_eq hmut] at h
        obtain ⟨p, rfl, hp⟩ := enc_prefix_map h
        rw [encodeCommand_eq]
        exact List.cons_prefix_cons.mpr ⟨rfl, hp⟩

/-- The opcode at the head of an entry. -/
theorem cons_of_opByte? {b : Bytes} {op : OpKind} (h : opByte? b = some op) :
    ∃ rest, b = op.toByte :: rest := by
  cases b with
  | nil => cases h
  | cons byte rest => exact ⟨rest, congrArg (· :: rest) (OpKind.toByte_of_ofByte? h).symm⟩

/-- Below four gigabytes what is encoded is read back, whatever the scratch array; and what is
accepted starts with its encoding. -/
theorem wire_exact (c : Command) (scratch : Slice Item) (cmds : List Bytes)
    (rs : List ProposeResult) (kvs : List RawKV) (start stop : Bytes) (mc : MetaCommand)
    (b : Bytes) (want : Nat) :
    (mutates c.op = true → (encodeCommand c).length < 2 ^ 32 →
      decodeCommandScratch (encodeCommand c) scratch = .ok c) ∧
    ((encodeBatchInto cmds).length < 2 ^ 32 → decodeBatch (encodeBatchInto cmds) = .ok cmds) ∧
    ((encodeBatchResult rs).length < 2 ^ 32 →
      decodeBatchResult (encodeBatchResult rs) rs.length = .ok rs) ∧
    ((encodeIngest kvs).length < 2 ^ 32 → decodeIngest (encodeIngest kvs) = .ok kvs) ∧
    ((encodePurge start stop).length < 2 ^ 32 →
      decodePurge (encodePurge start stop) = .ok (start, stop)) ∧
    ((encodeMetaCommand mc).length < 2 ^ 32 → decodeMetaCommand (encodeMetaCommand mc) = .ok mc) ∧
    (decodeCommandScratch b scratch = .ok c → encodeCommand c <+: b) ∧
    (decodeBatch b = .ok cmds → encodeBatchInto cmds <+: b) ∧
    (decodeBatchResult b want = .ok rs → encodeBatchResult rs <+: b) ∧
    (opByte? b = some .ingest → decodeIngest b = .ok kvs → encodeIngest kvs <+: b) ∧
    (opByte? b = some .purge → decodePurge b = .ok (start, stop) →
      encodePurge start stop <+: b) ∧
    (decodeMetaCommand b = .ok mc → encodeMetaCommand mc <+: b) := by
  have hresults : encodeBatchResult rs = resultsFormat.enc rs := rfl
  have hpurge : encodePurge start stop =
      OpKind.purge.toByte :: (Format.bytes.seq .bytes).enc (start, stop) := by
    simp [encodePurge, Format.seq, Format.bytes, appendChunk]
  rw [decodeCommandScratch_eq, decodeCommandScratch_eq, hresults]
  refine ⟨decodeCommandInto_encodeCommand, decodeBatch_encodeBatchInto, fun h => ?_,
    decodeIngest_encodeIngest, decodePurge_chunks, fun h => ?_, encodeCommand_prefix,
    fun h => ?_, fun h => ?_, fun hop h => ?_, fun hop h => ?_, fun h => ?_⟩
  · rw [decodeBatchResult_eq, Format.read_enc h]
    exact if_pos rfl
  · rw [encodeMetaCommand_eq, List.length_cons] at h
    rw [encodeMetaCommand_eq, decodeMetaCommand_eq, Format.read_enc (by omega)]
    rfl
  · cases b with
    | nil => cases h
    | cons byte rest =>
      have hbyte : byte = OpKind.batch.toByte := by
        by_contra hne
        simp [decodeBatch, hne] at h
      rw [hbyte, decodeBatch_eq] at h
      rw [hbyte]
      exact List.cons_prefix_cons.mpr ⟨rfl, Format.enc_prefix h⟩
  · rw [decodeBatchResult_eq] at h
    cases hr : resultsFormat.read ApplyErr.shortCommand b with
    | error e => rw [hr] at h; cases h
    | ok rs' =>
      rw [hr] at h
      simp only [Except.bind] at h
      split at h
      · cases h
        exact Format.enc_prefix hr
      · cases h
  · obtain ⟨rest, rfl⟩ := cons_of_opByte? hop
    rw [decodeIngest_eq] at h
    rw [encodeIngest_eq]
    exact List.cons_prefix_cons.mpr ⟨rfl, Format.enc_prefix h⟩
  · obtain ⟨rest, rfl⟩ := cons_of_opByte? hop
    rw [decodePurge_eq] at h
    rw [hpurge]
    exact List.cons_prefix_cons.mpr ⟨rfl, Format.enc_prefix h⟩
  · cases b with
    | nil => cases h
    | cons op rest =>
      rw [decodeMetaCommand_eq] at h
      obtain ⟨p, rfl, hp⟩ := enc_prefix_map h
      rw [encodeMetaCommand_eq]
      exact List.cons_prefix_cons.mpr ⟨rfl, hp⟩

def oneAdd : Command :=
  { op := .sAdd, ns := ⟨[1], by decide⟩, coll := ⟨[2], by decide⟩,
    items := [{ key := ⟨[3], by decide⟩ }] }

theorem wire_exact_oneAdd :
    decodeCommandScratch (encodeCommand oneAdd) ⟨[{ key := ⟨[9], by decide⟩ }], 1, by decide⟩ =
        .ok oneAdd ∧
      decodePurge (encodePurge [1] [2]) = .ok ([1], [2]) := by
  obtain ⟨hcommand, -, -, -, hpurge, -⟩ := wire_exact oneAdd
    ⟨[{ key := ⟨[9], by decide⟩ }], 1, by decide⟩ [] [] [] [1] [2] { op := 1 } [] 0
  exact ⟨hcommand rfl (by decide), hpurge (by decide)⟩

/-- A set add in a namespace with a name of nearly four gigabytes is refused. And the decoder of a
purge accepts an entry that is none. -/
theorem wire_long :
    (∃ c : Command, mutates c.op = true ∧
      decodeCommandInto (encodeCommand c) = .error .shortCommand) ∧
    decodePurge (List.replicate 9 0) = .ok ([], []) ∧
      ¬ encodePurge [] [] <+: List.replicate 9 0 := by
  obtain ⟨ns, hns⟩ := exists_long
  refine ⟨⟨{ op := .sAdd, ns, coll := ⟨[], by decide⟩ }, rfl, ?_⟩, by decide, by decide⟩
  have hwire : commandFormat.enc ((ns, ⟨[], by decide⟩), [], []) =
      appendChunk [] ns.val ++ List.replicate 12 0 := by
    simp [commandFormat, Format.seq, Format.chunk, Format.bytes, Format.list, appendChunk, beBytes]
  have hnone : commandFormat.dec (appendChunk [] ns.val ++ List.replicate 12 0) = none :=
    Format.seq_none (Format.seq_none (takeChunk_long hns (by simp) (by simp)))
  rw [encodeCommand_eq, hwire, decodeCommandInto_eq rfl, Format.read, hnone]
  rfl

end WaveSpan.Collections
