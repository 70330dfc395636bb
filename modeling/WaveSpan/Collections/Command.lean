/-
WaveSpan.Collections.Command — opcodes, datatypes and the log-command codec of
the replicated-collections tier (`internal/collections/command.go`, `bulk.go`
batch wrappers, `proposer.go` batch results).

A committed Raft entry carries one command, or an `opBatch` wrapper around
several. A command is decoded from arbitrary bytes: every read is bounds-checked
and a short or unknown buffer is an error, never a partial command. Chunk lengths
are 32-bit, which is why names, keys and values of a command are `Chunk`s here.

A float64 score is carried as its 64 IEEE bits: the codec, the score index and
the score pointer move the bits and never compute with them.
-/
import WaveSpan.Lib.Format

namespace WaveSpan.Collections

open WaveSpan.Wire

/-! ## Opcodes and datatypes -/

/-- The log-command opcode. -/
inductive OpKind where
  | sAdd | sRem | hSet | hDel | zAdd | zRem | expire | ingest | purge | freeze | unfreeze
  | hIncrBy | hIncrByFloat | remove | batch
  | budInit | budGrant | budReport | budReturn | budExpire | budTombGC | budReconcile
  deriving DecidableEq, Repr

def OpKind.toByte : OpKind → UInt8
  | .sAdd => 1 | .sRem => 2 | .hSet => 3 | .hDel => 4 | .zAdd => 5 | .zRem => 6
  | .expire => 7 | .ingest => 8 | .purge => 9 | .freeze => 10 | .unfreeze => 11
  | .hIncrBy => 12 | .hIncrByFloat => 13 | .remove => 14 | .batch => 15
  | .budInit => 16 | .budGrant => 17 | .budReport => 18 | .budReturn => 19
  | .budExpire => 20 | .budTombGC => 21 | .budReconcile => 22

def OpKind.ofByte? (b : UInt8) : Option OpKind :=
  match b with
  | 1 => some .sAdd | 2 => some .sRem | 3 => some .hSet | 4 => some .hDel
  | 5 => some .zAdd | 6 => some .zRem | 7 => some .expire | 8 => some .ingest
  | 9 => some .purge | 10 => some .freeze | 11 => some .unfreeze | 12 => some .hIncrBy
  | 13 => some .hIncrByFloat | 14 => some .remove | 15 => some .batch
  | 16 => some .budInit | 17 => some .budGrant | 18 => some .budReport
  | 19 => some .budReturn | 20 => some .budExpire | 21 => some .budTombGC
  | 22 => some .budReconcile
  | _ => none

@[simp] theorem OpKind.ofByte?_toByte (op : OpKind) : OpKind.ofByte? op.toByte = some op := by
  cases op <;> rfl

/-- An operation byte stands for one operation. -/
theorem OpKind.toByte_of_ofByte? {b : UInt8} {op : OpKind} (h : OpKind.ofByte? b = some op) :
    op.toByte = b := by
  unfold OpKind.ofByte? at h
  split at h <;> cases h <;> rfl

/-- The fixed datatype of a collection, recorded in its header. -/
inductive CollType where
  | set | hash | zset | budget
  deriving DecidableEq, Repr

/-- The header byte of a datatype; 0 is "no header". -/
def CollType.toByte : CollType → UInt8
  | .set => 1 | .hash => 2 | .zset => 3 | .budget => 4

/-- The datatype a mutation requires (`none` = type-agnostic or no mutation). -/
def typeForOp : OpKind → Option CollType
  | .sAdd | .sRem => some .set
  | .hSet | .hDel | .hIncrBy | .hIncrByFloat => some .hash
  | .zAdd | .zRem => some .zset
  | .budInit | .budGrant | .budReport | .budReturn | .budExpire | .budTombGC | .budReconcile =>
    some .budget
  | _ => none

/-- Whether an op changes element state, and so must respect a subrange freeze. -/
def mutates (op : OpKind) : Bool :=
  (typeForOp op).isSome || op == .expire || op == .remove

/-! ## Commands -/

/-- One element of a command: a set member, a hash field with its value, or a
sorted-set member with its score. `expiryMs`, when positive, is the absolute
expiry the leader stamped before proposing. -/
structure Item where
  key : Chunk
  val : Chunk := Chunk.empty
  score : UInt64 := 0
  expiryMs : Int64 := 0
  deriving DecidableEq, Repr

structure Command where
  op : OpKind
  ns : Chunk
  coll : Chunk
  idem : Bytes := []
  items : List Item := []
  deriving DecidableEq

/-- Why an entry could not be applied. Only `fatal` stops the replica; every
other reason skips the entry, `panicked` being a recovered run-time panic. -/
inductive ApplyErr where
  | shortCommand | unknownOp
  | shortPool | shortLease | shortTomb | missingPool
  | panicked
  | fatal
  deriving DecidableEq, Repr

/-- Whether an error is a storage-layer fault that must stop the replica. -/
def isFatal : ApplyErr → Bool
  | .fatal => true
  | _ => false

/-- An op's apply result. -/
structure ProposeResult where
  value : UInt64 := 0
  data : Bytes := []
  deriving DecidableEq, Repr

def ascii (s : String) : Bytes := s.toList.map (fun c => UInt8.ofNat c.toNat)

/-- Result sentinel: the op targets a collection of another datatype. -/
def wrongType : Bytes := ascii "WRONGTYPE"

/-- Result sentinel: the mutation was rejected, its subrange is migrating. -/
def frozenMark : Bytes := ascii "FROZEN"

/-- Result sentinel: an increment of a field that is not a number. -/
def notNumber : Bytes := ascii "NOTNUM"

/-! ## Encoding -/

def encodeItem (it : Item) : Bytes :=
  appendChunk (appendChunk [] it.key.val) it.val.val ++ u64 it.score ++ u64 it.expiryMs.toUInt64

def encodeCommand (c : Command) : Bytes :=
  appendChunk (appendChunk (appendChunk [c.op.toByte] c.ns.val) c.coll.val) c.idem
    ++ beBytes 4 c.items.length ++ c.items.flatMap encodeItem

def encodeBatchInto (cmds : List Bytes) : Bytes :=
  OpKind.batch.toByte :: beBytes 4 cmds.length ++ cmds.flatMap (appendChunk [])

/-- The per-command results of one `opBatch` entry. -/
def encodeBatchResult (results : List ProposeResult) : Bytes :=
  beBytes 4 results.length
    ++ results.flatMap (fun r => u64 r.value ++ appendChunk [] r.data)

/-! ## Decoding -/

def takeChunks : Nat → Bytes → Option (List Bytes)
  | 0, _ => some []
  | n + 1, b =>
    match takeChunk b with
    | none => none
    | some (x, rest) => (takeChunks n rest).map (x.val :: ·)

def decodeBatch (b : Bytes) : Except ApplyErr (List Bytes) :=
  match b with
  | [] => .error .shortCommand
  | op :: rest =>
    if op ≠ OpKind.batch.toByte then .error .shortCommand
    else if rest.length < 4 then .error .shortCommand
    else
      match takeChunks (beVal (rest.take 4)) (rest.drop 4) with
      | none => .error .shortCommand
      | some cmds => .ok cmds

/-- The bytes `decodeBatch` asks the runtime for before it reads the commands: a slice header for
each of the stated number. -/
def decodeBatchAsks (b : Bytes) : Nat :=
  match b with
  | [] => 0
  | op :: rest =>
    if op ≠ OpKind.batch.toByte ∨ rest.length < 4 then 0 else 24 * beVal (rest.take 4)

def takeItems : Nat → Bytes → Option (List Item)
  | 0, _ => some []
  | n + 1, b =>
    match takeChunk b with
    | none => none
    | some (key, rest) =>
      match takeChunk rest with
      | none => none
      | some (val, rest) =>
        if rest.length < 16 then none
        else
          let it : Item :=
            { key, val, score := getU64 rest,
              expiryMs := (getU64 (rest.drop 8)).toInt64 }
          (takeItems n (rest.drop 16)).map (it :: ·)

def decodeCommandInto (b : Bytes) : Except ApplyErr Command :=
  match b with
  | [] => .error .shortCommand
  | opByte :: rest =>
    match OpKind.ofByte? opByte with
    | none => .error .unknownOp
    | some op =>
      if typeForOp op = none ∧ op ≠ .expire ∧ op ≠ .remove then .error .unknownOp
      else
        match takeChunk rest with
        | none => .error .shortCommand
        | some (ns, rest) =>
          match takeChunk rest with
          | none => .error .shortCommand
          | some (coll, rest) =>
            match takeChunk rest with
            | none => .error .shortCommand
            | some (idem, rest) =>
              if rest.length < 4 then .error .shortCommand
              else
                match takeItems (beVal (rest.take 4)) (rest.drop 4) with
                | none => .error .shortCommand
                | some items =>
                  .ok { op, ns, coll, idem := idem.val, items }

/-- The bytes `decodeCommandInto` asks for: an item for each of the stated number. The apply loop
has no scratch for it to reuse. -/
def decodeCommandAsks (b : Bytes) : Nat :=
  match b with
  | [] => 0
  | opByte :: rest =>
    match OpKind.ofByte? opByte with
    | none => 0
    | some op =>
      if typeForOp op = none ∧ op ≠ .expire ∧ op ≠ .remove then 0
      else Option.getD (do
        let (_, rest) ← takeChunk rest
        let (_, rest) ← takeChunk rest
        let (_, rest) ← takeChunk rest
        if rest.length < 4 then none else some (64 * beVal (rest.take 4))) 0

/-! ## What is encoded is read back -/

def itemFormat : Format Item :=
  ((Format.chunk.seq .chunk).seq (Format.word.seq .word)).iso
    (fun p => ⟨p.1.1, p.1.2, p.2.1, p.2.2.toInt64⟩)
    (fun it => ((it.key, it.val), it.score, it.expiryMs.toUInt64)) (fun _ => rfl) (fun _ => rfl)

theorem itemFormat_enc : itemFormat.enc = encodeItem := by
  funext it
  simp [itemFormat, Format.iso, Format.seq, Format.chunk, Format.word, encodeItem, appendChunk]

theorem takeItems_eq (n : Nat) (b : Bytes) :
    takeItems n b = (itemFormat.takeN n b).map Prod.fst := by
  induction n generalizing b with
  | zero => rfl
  | succ n ih =>
    simp only [takeItems, Format.takeN, itemFormat, Format.iso, Format.seq, Format.chunk,
      Format.word]
    cases takeChunk b with
    | none => rfl
    | some p =>
      cases hv : takeChunk p.2 with
      | none => simp [hv]
      | some q =>
        by_cases h8 : q.2.length < 8
        · simp [hv, h8, show q.2.length < 16 by omega]
        · by_cases h16 : q.2.length < 16
          · simp [hv, h8, h16, show q.2.length - 8 < 8 by omega]
          · simp [hv, h8, h16, show ¬ q.2.length - 8 < 8 by omega, ih, itemFormat,
              Format.iso, Format.seq, Format.chunk, Format.word, Function.comp_def]

def commandFormat : Format ((Chunk × Chunk) × Bytes × List Item) :=
  (Format.chunk.seq .chunk).seq (Format.bytes.seq (itemFormat.list fun it => by
    rw [itemFormat_enc]
    simp [encodeItem]))

/-- A command as a format. -/
theorem encodeCommand_eq (c : Command) :
    encodeCommand c = c.op.toByte :: commandFormat.enc ((c.ns, c.coll), c.idem, c.items) := by
  simp [encodeCommand, commandFormat, Format.seq, Format.chunk, Format.bytes, Format.list,
    appendChunk, itemFormat_enc]

/-- Decoding by the format. -/
theorem decodeCommandInto_eq {op : OpKind} (hop : mutates op = true) (b : Bytes) :
    decodeCommandInto (op.toByte :: b) = (commandFormat.read .shortCommand b).map fun p =>
      { op, ns := p.1.1, coll := p.1.2, idem := p.2.1, items := p.2.2 } := by
  have hknown : ¬ (typeForOp op = none ∧ op ≠ .expire ∧ op ≠ .remove) := by
    rintro ⟨ht, hne, hnr⟩
    simp [mutates, ht, hne, hnr] at hop
  simp only [decodeCommandInto, OpKind.ofByte?_toByte, if_neg hknown, Format.read, commandFormat,
    Format.seq, Format.chunk, Format.bytes, Format.list]
  cases takeChunk b with
  | none => rfl
  | some p =>
    cases hcoll : takeChunk p.2 with
    | none => simp [hcoll, Except.map]
    | some q =>
      cases hidem : takeChunk q.2 with
      | none => simp [hcoll, hidem, Except.map]
      | some t =>
        simp only [hcoll, hidem, takeItems_eq, Option.bind_some, Option.map_some]
        split
        · rfl
        · cases itemFormat.takeN (beVal (t.2.take 4)) (t.2.drop 4) <;> rfl

/-- A mutation below four gigabytes is read back. -/
theorem decodeCommandInto_encodeCommand {c : Command} (hop : mutates c.op = true)
    (h : (encodeCommand c).length < 2 ^ 32) : decodeCommandInto (encodeCommand c) = .ok c := by
  rw [encodeCommand_eq] at h ⊢
  rw [List.length_cons] at h
  rw [decodeCommandInto_eq hop, Format.read_enc (by omega)]
  rfl

theorem takeChunks_eq (n : Nat) (b : Bytes) :
    takeChunks n b = (Format.bytes.takeN n b).map Prod.fst := by
  induction n generalizing b with
  | zero => rfl
  | succ n ih =>
    simp only [takeChunks, Format.takeN, Format.bytes]
    cases takeChunk b with
    | none => rfl
    | some p => simp [ih, Format.bytes, Function.comp_def]

def batchFormat : Format (List Bytes) := Format.bytes.list fun b => by simp [Format.bytes]

theorem decodeBatch_eq (b : Bytes) :
    decodeBatch (OpKind.batch.toByte :: b) = batchFormat.read .shortCommand b := by
  simp only [decodeBatch, Format.read, batchFormat, Format.list, takeChunks_eq, ne_eq,
    not_true_eq_false,
    if_false]
  split
  · rfl
  · cases Format.bytes.takeN (beVal (b.take 4)) (b.drop 4) <;> rfl

/-- A coalesced entry below four gigabytes is taken apart into its commands. -/
theorem decodeBatch_encodeBatchInto {cmds : List Bytes}
    (h : (encodeBatchInto cmds).length < 2 ^ 32) :
    decodeBatch (encodeBatchInto cmds) = .ok cmds := by
  have hwire : encodeBatchInto cmds = OpKind.batch.toByte :: batchFormat.enc cmds := rfl
  rw [hwire, List.length_cons] at h
  rw [hwire, decodeBatch_eq, Format.read_enc (by omega)]

end WaveSpan.Collections
