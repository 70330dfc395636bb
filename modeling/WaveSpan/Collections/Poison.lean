/-
WaveSpan.Collections.Poison — entries that cannot be applied are skipped exactly.

`skips` marks the entries of a batch the loop rolls back. On every reachable
shard the batch succeeds, and its rows and the other entries' results are those
of the batch with the marked entries deleted; only the applied index tells the
two apart. That is if the process survives: the decoders reserve memory by the
counts the entries state, and a request the runtime cannot meet ends the process
(`update_skips_poison`). Five bytes can state a count of 96 GiB
(`poison_ends_process`).

What could still stop a replica is a corrupt element counter, so reachability
has to rule one out. No command writes a counter row, the end of a batch writes
eight bytes, and a migration entry copies rows of another reachable shard; that
is why `Reachable` and `EntryOk` are defined together.
-/
import WaveSpan.Collections.Moves

namespace WaveSpan.Collections

open WaveSpan.Wire WaveSpan.Rows WaveSpan.Prog

/-! ## Element counters -/

section
variable (s : UInt64)

/-- Every element counter is eight bytes long. -/
def CardRows (st : Store) : Prop :=
  ∀ (ns coll : Chunk) (v : Bytes), st[(RowKey.card ns coll).enc s]? = some v → v.length = 8

/-- A write that leaves every element counter eight bytes long. -/
def KeepsCards : StoreOp → Prop
  | .put k v => ∀ ns coll : Chunk, k = (RowKey.card ns coll).enc s → v.length = 8
  | .del _ => True

def CardsOk (u : UpdateCtx) : Prop := ∀ op ∈ u.ops, KeepsCards s op

/-- An ingest entry whose counter rows are eight bytes long. -/
def IngestOk (cmd : Bytes) : Prop :=
  opByte? cmd = some .ingest → ∀ kvs, decodeIngest cmd = .ok kvs → ∀ kv ∈ kvs,
    ∀ ns coll : Chunk, kv.suffix = (RowKey.card ns coll).suffix → kv.value.length = 8

end

section
variable {fl : FloatOps} {s : UInt64} {c : Command} {u u' : UpdateCtx} {st st' : Store}

theorem cardRows_runOps {ops : List StoreOp} (hst : CardRows s st)
    (h : ∀ op ∈ ops, KeepsCards s op) : CardRows s (batchRC st ops) := by
  induction ops generalizing st with
  | nil => exact hst
  | cons op ops ih =>
    refine ih (fun ns coll v hv => ?_) (fun op' h' => h op' (by simp [h']))
    cases op with
    | put k w =>
      rw [getElem?_runOp_put] at hv
      split at hv
      · rename_i hk
        cases hv
        exact h (.put k v) (by simp) ns coll hk
      · exact hst ns coll v hv
    | del k =>
      rw [getElem?_runOp_del] at hv
      split at hv
      · cases hv
      · exact hst ns coll v hv

/-- An op on a row that is no counter keeps the counters. -/
theorem keepsCards_of_key {op : StoreOp} {k : RowKey} (hk : k.isCard = false)
    (he : op.key = k.enc s) : KeepsCards s op := by
  cases op with
  | del _ => trivial
  | put k' v =>
    intro ns coll hck
    have : k = .card ns coll := RowKey.enc_inj.mp (he.symm.trans hck)
    rw [this] at hk
    cases hk

theorem RowKey.ofKeyed.isCard_eq {k : RowKey} (h : k.ofKeyed c) : k.isCard = false := by
  rcases h with h | ⟨key, rfl⟩ | ⟨slot, rfl⟩
  · exact h.card
  · rfl
  · rfl

/-- A command keeps the counts readable. -/
theorem CardsOk.cmdStep {r : ProposeResult} (hu : CardsOk s u) (h : CmdStep s c u r u') :
    CardsOk s u' := by
  obtain ⟨new, hnew, hkeys⟩ := h.emits
  intro op hop
  rw [hnew] at hop
  rcases List.mem_append.mp hop with hop | hop
  · exact hu op hop
  · obtain ⟨k, hk, he⟩ := hkeys op hop
    exact keepsCards_of_key hk.isCard_eq he

theorem CardsOk.run {cs : List Command} (hu : CardsOk s u) (h : Run s cs u u') :
    CardsOk s u' := by
  induction h with
  | nil => exact hu
  | cons h _ ih => exact ih (hu.cmdStep h)

theorem CardsOk.emit {ops : List StoreOp} (hu : CardsOk s u)
    (h : ∀ op ∈ ops, KeepsCards s op) : CardsOk s (u.emit ops) := by
  intro op hop
  rcases List.mem_append.mp hop with hop | hop
  · exact hu op hop
  · exact h op hop

theorem CardsOk.entryStep {cmd : Bytes} (hu : CardsOk s u) (hok : IngestOk cmd)
    (h : EntryStep s cmd u u') : CardsOk s u' := by
  have hfrozen : ∀ start : Bytes, ∀ op : StoreOp, op.key = frozenKey s start →
      ∀ op' ∈ [op], KeepsCards s op' := by
    intro start op hop op' hop'
    rw [List.mem_singleton.mp hop']
    exact keepsCards_of_key (k := .frozen start) rfl (hop.trans (frozenKey_eq s start))
  cases h with
  | ingest hop hd =>
    refine hu.emit fun op hmem => ?_
    obtain ⟨kv, hkv, rfl⟩ := List.mem_map.mp hmem
    intro ns coll hk
    exact hok hop _ hd kv hkv ns coll (List.append_cancel_left hk)
  | purge _ _ =>
    refine hu.emit fun op hmem => ?_
    obtain ⟨kv, -, rfl⟩ := List.mem_map.mp hmem
    trivial
  | freeze _ _ => exact hu.emit (hfrozen _ _ rfl)
  | unfreeze _ _ => exact hu.emit (hfrozen _ _ rfl)
  | commands _ hrun => exact hu.run hrun

theorem readCard_ok (ns coll : Chunk) (hst : CardRows s st) :
    ∃ n, readCard st ((RowKey.card ns coll).enc s) = .ok n := by
  unfold readCard
  cases hv : st[(RowKey.card ns coll).enc s]? with
  | none => exact ⟨0, rfl⟩
  | some v => exact ⟨getU64 v, by simp [hst ns coll v hv]⟩

theorem cardOp_ok (ns coll : Chunk) (hst : CardRows s st) (d : Int64) :
    ∃ ops, cardOp st ((RowKey.card ns coll).enc s) d = .ok ops ∧
      ∀ op ∈ ops, KeepsCards s op := by
  obtain ⟨n, hn⟩ := readCard_ok ns coll hst
  unfold cardOp
  split
  · exact ⟨[], rfl, by simp⟩
  · refine ⟨_, by rw [hn], fun op hop => ?_⟩
    rw [List.mem_singleton.mp hop]
    intro _ _ _
    exact length_u64 _

/-- On readable counters the end of the batch succeeds and writes counters of
eight bytes. -/
theorem flushCards_ok {l : List (Bytes × Int64)} (hst : CardRows s st)
    (hl : ∀ p ∈ l, ∃ ns coll : Chunk, p.1 = (RowKey.card ns coll).enc s) :
    ∃ ops, flushCards st l = .ok ops ∧ ∀ op ∈ ops, KeepsCards s op := by
  induction l with
  | nil => exact ⟨[], rfl, by simp⟩
  | cons p l ih =>
    obtain ⟨ck, d⟩ := p
    obtain ⟨ns, coll, hck⟩ := hl (ck, d) (by simp)
    simp only at hck
    subst hck
    obtain ⟨ops, hops, hk⟩ := cardOp_ok ns coll hst d
    obtain ⟨ops', hops', hk'⟩ := ih (fun p hp => hl p (by simp [hp]))
    refine ⟨ops ++ ops', by simp [flushCards, hops, hops', Except.map], fun op hop => ?_⟩
    rcases List.mem_append.mp hop with h | h
    · exact hk op h
    · exact hk' op h

theorem newCtx_cardsOk : CardsOk s (newCtx s st) := by
  simp [CardsOk, newCtx]

variable (fl) in
/-- On a shard with readable counters a batch succeeds and keeps them readable. -/
theorem update_cardRows {es : List Entry} (hst : CardRows s st)
    (hes : ∀ e ∈ es, IngestOk e.cmd) :
    ∃ st' rs, update fl s st es = .ok (st', rs) ∧ CardRows s st' := by
  cases hlast : es.getLast? with
  | none => exact ⟨st, [], by simp [update, hlast], hst⟩
  | some last =>
    obtain ⟨u, rs, hu, -⟩ := applyEntries_ok fl s (loadFrozen s st) (newCtx s st) es
    have hok : CardsOk s u := applyEntries_inv
      (fun e he v w hv hw => hv.entryStep (hes e he) hw) newCtx_cardsOk hu
    obtain ⟨cards, hcards, hkeep⟩ := flushCards_ok (l := u.cardDelta.toList) hst
      (fun p hp => applyEntries_cardKeys (.newCtx st) hu p.1 p.2
        (Std.ExtTreeMap.mem_toList_iff_getElem?_eq_some.mp hp))
    refine ⟨_, rs, update_of hlast hu hcards, cardRows_runOps hst fun op hop => ?_⟩
    simp only [List.mem_append, List.mem_singleton] at hop
    rcases hop with ((hop | hop) | hop) | rfl
    · exact hok op hop
    · unfold seqOps at hop
      split at hop
      · rw [List.mem_singleton.mp hop]
        exact keepsCards_of_key (k := .dedupSeq) rfl (dedupSeqKey_eq s)
      · cases hop
    · exact hkeep op hop
    · exact keepsCards_of_key (k := .applied) rfl (appliedKey_eq s)

end

/-! ## Reachable shards -/

mutual

/-- The states of a shard: from the empty store, batches of entries. -/
inductive Reachable (fl : FloatOps) : UInt64 → Store → Prop where
  | empty (s : UInt64) : Reachable fl s ∅
  | update {s : UInt64} {st st' : Store} {es : List Entry} {rs : List ProposeResult}
      (h : Reachable fl s st) (hes : ∀ e ∈ es, EntryOk fl e.cmd)
      (hu : update fl s st es = .ok (st', rs)) : Reachable fl s st'

/-- Committed bytes: arbitrary, except that an ingest carries rows scanned off
some shard. -/
inductive EntryOk (fl : FloatOps) : Bytes → Prop where
  | plain {cmd : Bytes} (h : opByte? cmd ≠ some .ingest) : EntryOk fl cmd
  | ingest {s : UInt64} {st : Store} {start stop : Bytes} {limit : Int}
      (h : Reachable fl s st)
      (hsize : (encodeIngest (scanRange st (shardPrefix s) start stop limit)).length < 2 ^ 32) :
      EntryOk fl (encodeIngest (scanRange st (shardPrefix s) start stop limit))

end

section
variable {fl : FloatOps} {s : UInt64} {st : Store}

/-- Rows scanned off a shard with readable counters make a good ingest. -/
theorem ingestOk_scanRange {start stop : Bytes} {limit : Int} (hst : CardRows s st)
    (hsize : (encodeIngest (scanRange st (shardPrefix s) start stop limit)).length < 2 ^ 32) :
    IngestOk (encodeIngest (scanRange st (shardPrefix s) start stop limit)) := by
  intro _ kvs hkvs kv hkv ns coll hsuf
  rw [decodeIngest_encodeIngest hsize] at hkvs
  cases hkvs
  have hrow := (mem_scanRange.mp (scanRange_subset hkv)).1
  rw [hsuf] at hrow
  exact hst ns coll kv.value hrow

/-- One batch keeps the count rows. -/
theorem cardRows_step {es : List Entry} {st' : Store} {rs : List ProposeResult}
    (hst : CardRows s st) (hes : ∀ e ∈ es, IngestOk e.cmd)
    (hu : update fl s st es = .ok (st', rs)) : CardRows s st' := by
  obtain ⟨st'', rs', hu', hst'⟩ := update_cardRows fl hst hes
  rw [hu] at hu'
  cases hu'
  exact hst'

/-- Every reachable store has readable counts. -/
theorem Reachable.cardRows (h : Reachable fl s st) : CardRows s st :=
  @Reachable.rec fl (fun s st _ => CardRows s st) (fun cmd _ => IngestOk cmd)
    (fun _ _ _ _ hv => by simp at hv)
    (fun _ _ hu hst hes => cardRows_step hst hes hu)
    (fun hne hop => absurd hop hne)
    (fun _ hsize hst => ingestOk_scanRange hst hsize) s st h

end

/-! ## Skipping -/

section
variable (fl : FloatOps) (s : UInt64)

def skipFlags (frozen : List FrozenRange) : List Entry → UpdateCtx → List Bool
  | [], _ => []
  | e :: es, u =>
    match applyEntry fl s frozen e.cmd u with
    | .ok _ u' => false :: skipFlags frozen es u'
    | .error _ u' => true :: skipFlags frozen es (u'.restore u.snapshot)

def skips (st : Store) (es : List Entry) : List Bool :=
  skipFlags fl s (loadFrozen s st) es (newCtx s st)

end

/-! ## Memory -/

section
variable (fl : FloatOps) (s : UInt64)

/-- What the commands of a coalesced entry ask for, up to one that fails. -/
def subsAsk (frozen : List FrozenRange) : List Bytes → UpdateCtx → List Nat
  | [], _ => []
  | b :: bs, u =>
    decodeCommandAsks b ::
      match applyOne fl s frozen b u with
      | .ok _ u' => subsAsk frozen bs u'
      | .error _ _ => []

def entryAsks (frozen : List FrozenRange) (cmd : Bytes) (u : UpdateCtx) : List Nat :=
  match opByte? cmd with
  | some .ingest => [decodeIngestAsks cmd]
  | some .purge | some .freeze | some .unfreeze => []
  | some .batch =>
    decodeBatchAsks cmd ::
      match decodeBatch cmd with
      | .ok subs => subsAsk fl s frozen subs u
      | .error _ => []
  | _ => [decodeCommandAsks cmd]

def entriesAsk (frozen : List FrozenRange) : List Entry → UpdateCtx → List Nat
  | [], _ => []
  | e :: es, u =>
    entryAsks fl s frozen e.cmd u ++
      match applyEntry fl s frozen e.cmd u with
      | .ok _ u' => entriesAsk frozen es u'
      | .error _ u' => entriesAsk frozen es (u'.restore u.snapshot)

def updateAsks (st : Store) (es : List Entry) : List Nat :=
  entriesAsk fl s (loadFrozen s st) es (newCtx s st)

/-- `Update` in a process that can be given `room` bytes at once. A larger request is a fatal
error of the runtime, which no `recover` catches: there is no outcome. -/
def updateWithin (room : Nat) (st : Store) (es : List Entry) :
    Option (Except ApplyErr (Store × List ProposeResult)) :=
  if ∀ n ∈ updateAsks fl s st es, n ≤ room then some (update fl s st es) else none

end

def unmarked {α : Type} : List Bool → List α → List α
  | false :: ms, x :: xs => x :: unmarked ms xs
  | true :: ms, _ :: xs => unmarked ms xs
  | _, _ => []

section
variable {fl : FloatOps} {s : UInt64} {frozen : List FrozenRange} {u u' : UpdateCtx} {st : Store}

/-- The loop over the entries that are not skipped ends in the same context, with
the same results; the skipped ones' results are empty. -/
theorem applyEntries_unmarked {es : List Entry} {rs : List ProposeResult}
    (h : applyEntries fl s frozen es u = .ok (u', rs)) :
    applyEntries fl s frozen (unmarked (skipFlags fl s frozen es u) es) u
        = .ok (u', unmarked (skipFlags fl s frozen es u) rs) ∧
      ∀ i : Nat, (skipFlags fl s frozen es u)[i]? = some true →
        rs[i]? = some ({} : ProposeResult) := by
  induction es generalizing u rs with
  | nil => cases h; exact ⟨rfl, by simp [skipFlags]⟩
  | cons e es ih =>
    obtain ⟨v, r, rs', hturn, hw, rfl⟩ := applyEntries_cons_ok h
    obtain ⟨ih₁, ih₂⟩ := ih hw
    cases hturn with
    | applied he =>
      simp only [skipFlags, he, unmarked]
      refine ⟨by simp [applyEntries, he, ih₁, Except.map], fun i hi => ?_⟩
      cases i with
      | zero => cases hi
      | succ i => exact ih₂ i hi
    | skipped he =>
      have hdone := applyEntry_done fl s frozen u e.cmd
      rw [he] at hdone
      simp only [skipFlags, he, unmarked, restore_snapshot hdone.2]
      refine ⟨ih₁, fun i hi => ?_⟩
      cases i with
      | zero => rfl
      | succ i => exact ih₂ i hi

/-- Without the skipped entries nothing else is asked for. -/
theorem entriesAsk_unmarked (es : List Entry) :
    entriesAsk fl s frozen (unmarked (skipFlags fl s frozen es u) es) u ⊆
      entriesAsk fl s frozen es u := by
  induction es generalizing u with
  | nil => exact List.Subset.refl _
  | cons e es ih =>
    have hdone := applyEntry_done fl s frozen u e.cmd
    cases he : applyEntry fl s frozen e.cmd u with
    | ok r v =>
      simp only [skipFlags, he, unmarked, entriesAsk]
      exact List.append_subset.mpr ⟨List.subset_append_left _ _,
        List.subset_append_of_subset_right _ ih⟩
    | error err v =>
      rw [he] at hdone
      simp only [skipFlags, he, unmarked, entriesAsk, restore_snapshot hdone.2]
      exact List.subset_append_of_subset_right _ ih

/-- The last row a batch writes is its applied index; the others do not depend
on it. -/
theorem getElem?_closed {ops : List StoreOp} {v w k : Bytes} (hk : k ≠ appliedKey s) :
    (batchRC st (ops ++ [.put (appliedKey s) v]))[k]?
      = (batchRC st (ops ++ [.put (appliedKey s) w]))[k]? := by
  simp only [batchRC, runOps_concat, getElem?_runOp_put, if_neg (Ne.symm hk)]

/-- On a reachable shard a batch of arbitrary entries that the process survives succeeds, and what
it leaves behind, the applied index apart, and the results of the entries it does not skip are
those of the batch without the skipped ones. -/
theorem update_unmarked (es : List Entry) (hst : Reachable fl s st) :
    ∃ st' rs st'', update fl s st es = .ok (st', rs) ∧
      update fl s st (unmarked (skips fl s st es) es)
        = .ok (st'', unmarked (skips fl s st es) rs) ∧
      (∀ k, k ≠ appliedKey s → st''[k]? = st'[k]?) ∧
      rs.length = es.length ∧
      ∀ i : Nat, (skips fl s st es)[i]? = some true → rs[i]? = some ({} : ProposeResult) := by
  obtain ⟨u, rs, hu, hlen⟩ := applyEntries_ok fl s (loadFrozen s st) (newCtx s st) es
  obtain ⟨hkept, hempty⟩ := applyEntries_unmarked hu
  obtain ⟨cards, hcards, -⟩ := flushCards_ok (l := u.cardDelta.toList) hst.cardRows
    (fun p hp => applyEntries_cardKeys (.newCtx st) hu p.1 p.2
          (Std.ExtTreeMap.mem_toList_iff_getElem?_eq_some.mp hp))
  cases hlast : es.getLast? with
  | none =>
    have : es = [] := List.getLast?_eq_none_iff.mp hlast
    subst this
    cases hu
    exact ⟨st, [], st, rfl, rfl, fun _ _ => rfl, rfl, by simp [skips, skipFlags]⟩
  | some last =>
    cases hlast' : (unmarked (skips fl s st es) es).getLast? with
    | none =>
      -- everything was skipped: the batch wrote its applied index only
      have hnil : unmarked (skips fl s st es) es = [] := List.getLast?_eq_none_iff.mp hlast'
      change applyEntries fl s (loadFrozen s st) (unmarked (skips fl s st es) es) (newCtx s st)
        = .ok (u, unmarked (skips fl s st es) rs) at hkept
      rw [hnil, applyEntries, Except.ok.injEq, Prod.mk.injEq] at hkept
      obtain ⟨hctx, hrs⟩ := hkept
      refine ⟨_, rs, st, update_of hlast hu hcards, by simp [update, hnil, ← hrs],
        fun k hk => ?_,
        hlen, hempty⟩
      subst hctx
      cases hcards
      simp only [newCtx, seqOps, ne_eq, not_true_eq_false, if_false, batchRC, List.nil_append,
        runOps, List.foldl_cons, List.foldl_nil]
      rw [getElem?_runOp_put, if_neg (Ne.symm hk)]
    | some last' =>
      refine ⟨_, rs, _, update_of hlast hu hcards, update_of hlast' hkept hcards, fun k hk => ?_,
        hlen, hempty⟩
      exact getElem?_closed hk

/-- Poison entries are skipped exactly, if and only if no count that an entry states makes a
decoder ask for more memory than there is room for. -/
theorem update_skips_poison (room : Nat) (es : List Entry) (hst : Reachable fl s st) :
    (∃ st' rs st'', updateWithin fl s room st es = some (.ok (st', rs)) ∧
      updateWithin fl s room st (unmarked (skips fl s st es) es)
        = some (.ok (st'', unmarked (skips fl s st es) rs)) ∧
      (∀ k, k ≠ appliedKey s → st''[k]? = st'[k]?) ∧
      rs.length = es.length ∧
      ∀ i : Nat, (skips fl s st es)[i]? = some true → rs[i]? = some ({} : ProposeResult)) ↔
    ∀ n ∈ updateAsks fl s st es, n ≤ room := by
  constructor
  · rintro ⟨st', rs, -, h, -⟩
    by_contra hmore
    rw [updateWithin, if_neg hmore] at h
    cases h
  · intro hroom
    obtain ⟨st', rs, st'', h, h', hrest⟩ := update_unmarked es hst
    refine ⟨st', rs, st'', ?_, ?_, hrest⟩
    · rw [updateWithin, if_pos hroom, h]
    · have hfewer : ∀ n ∈ updateAsks fl s st (unmarked (skips fl s st es) es), n ≤ room :=
        fun n hn => hroom n (entriesAsk_unmarked es hn)
      rw [updateWithin, if_pos hfewer, h']

end

/-- An unknown opcode, a truncated command and an ingest around one set add: the
first two are skipped. -/
def poisonedBatch : List Entry :=
  [{ index := 1, cmd := [0xff] },
   { index := 2, cmd := [OpKind.sAdd.toByte, 0, 0] },
   { index := 3, cmd := encodeIngest (scanRange ∅ (shardPrefix 1) [] [] 0) },
   { index := 4, cmd := encodeCommand
      { op := .sAdd, ns := Chunk.byte 1, coll := Chunk.byte 2,
        items := [{ key := Chunk.byte 7 }] } }]

theorem poisonedBatch_skips :
    skips FloatOps.absent 1 ∅ poisonedBatch = [true, true, false, false] ∧
      ∃ st' rs st'', updateWithin FloatOps.absent 1 4096 ∅ poisonedBatch = some (.ok (st', rs)) ∧
        updateWithin FloatOps.absent 1 4096 ∅
            (unmarked (skips FloatOps.absent 1 ∅ poisonedBatch) poisonedBatch)
          = some (.ok (st'', unmarked (skips FloatOps.absent 1 ∅ poisonedBatch) rs)) ∧
        (∀ k, k ≠ appliedKey 1 → st''[k]? = st'[k]?) ∧
        rs.length = poisonedBatch.length ∧
        ∀ i : Nat, (skips FloatOps.absent 1 ∅ poisonedBatch)[i]? = some true →
          rs[i]? = some ({} : ProposeResult) :=
  ⟨by decide +kernel, (update_skips_poison 4096 poisonedBatch (.empty 1)).mpr (by decide +kernel)⟩

/-- A wrapper of no commands that states the largest count. -/
def hungryEntry : Entry := { index := 1, cmd := [15, 0xff, 0xff, 0xff, 0xff] }

/-- The wrapper is one to skip, and deleted it costs nothing; but to decode it a process asks for
96 GiB, and one that cannot be given that much ends. -/
theorem poison_ends_process :
    EntryOk FloatOps.absent hungryEntry.cmd ∧ skips FloatOps.absent 1 ∅ [hungryEntry] = [true] ∧
    updateAsks FloatOps.absent 1 ∅ [hungryEntry] = [24 * (2 ^ 32 - 1)] ∧
    updateWithin FloatOps.absent 1 (2 ^ 36) ∅ [hungryEntry] = none ∧
    (updateWithin FloatOps.absent 1 (2 ^ 36) ∅ []).isSome := by
  have hasks : updateAsks FloatOps.absent 1 ∅ [hungryEntry] = [24 * (2 ^ 32 - 1)] := by
    decide +kernel
  refine ⟨.plain (by decide), by decide +kernel, hasks, ?_, by decide +kernel⟩
  exact if_neg (by rw [hasks]; decide)

end WaveSpan.Collections
