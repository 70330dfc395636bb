/-
WaveSpan.Collections.Snapshot — saving a shard and recovering it
(`internal/collections/base_sm.go`, `command.go`).

A snapshot stream is the applied index and then every row under the shard's key
prefix, in key order. Recovery clears the prefix and installs the rows, in commits
of 1024 writes each, and writes the applied index once more at the end. What a
crash leaves behind is the store after some number of those commits, and what
`Open` then reads decides whether the snapshot is run again.

The applied index is also one of the rows, and it sorts before the data. A
snapshot of more than 1024 rows therefore installs it with its first commit, and a
crash right after that leaves a store that claims to be complete and is not
(`recovery_cut_short`). Every crash point is safe exactly if the index comes with the
last of the rows, and a shard that is at the index already has the rows and loses its
index first (`snapshot_recovery_safe`).
-/
import WaveSpan.Collections.Keys

namespace WaveSpan.Collections

open WaveSpan.Wire WaveSpan.Rows

/-! ## The stream -/

/-- Why a read from the stream fails. -/
inductive StreamErr where
  | eof
  | unexpectedEOF
  deriving DecidableEq, Repr

def writeChunk (w b : Bytes) : Bytes := appendChunk w b

/-- A chunk and the rest of the stream; `eof` only at a frame boundary. -/
def readChunk (r : Bytes) : Except StreamErr (Bytes × Bytes) :=
  if r = [] then .error .eof
  else if r.length < 4 then .error .unexpectedEOF
  else
    let n := beVal (r.take 4)
    if (r.drop 4).length < n then .error .unexpectedEOF
    else .ok ((r.drop 4).take n, (r.drop 4).drop n)

/-- What is read is gone from the stream. -/
theorem readChunk_length {r b rest : Bytes} (h : readChunk r = .ok (b, rest)) :
    rest.length < r.length := by
  unfold readChunk at h
  split at h
  · cases h
  · split at h
    · cases h
    · simp only at h
      split at h
      · cases h
      · cases h
        simp only [List.length_drop]
        omega

/-- A chunk is read back. -/
theorem readChunk_writeChunk {b : Bytes} (h : b.length < 2 ^ 32) (rest : Bytes) :
    readChunk (writeChunk [] b ++ rest) = .ok (b, rest) := by
  have hval : beVal (beBytes 4 b.length) = b.length := by
    rw [beVal_beBytes, Nat.mod_eq_of_lt (by omega)]
  have hform : writeChunk [] b ++ rest = beBytes 4 b.length ++ (b ++ rest) := by
    simp [writeChunk, appendChunk]
  have htake : (beBytes 4 b.length ++ (b ++ rest)).take 4 = beBytes 4 b.length :=
    List.take_left' (length_beBytes 4 _)
  have hdrop : (beBytes 4 b.length ++ (b ++ rest)).drop 4 = b ++ rest :=
    List.drop_left' (length_beBytes 4 _)
  have hlen : (beBytes 4 b.length ++ (b ++ rest)).length = 4 + (b ++ rest).length := by simp
  rw [hform, readChunk, if_neg (List.ne_nil_of_length_pos (by omega)), if_neg (by omega)]
  simp only [htake, hdrop, hval]
  rw [if_neg (by simp)]
  simp

/-! ## Saving and recovering -/

section
variable (s : UInt64)

def shardRows (st : Store) : List (Bytes × Bytes) :=
  scan st (shardPrefix s) (prefixEnd (shardPrefix s)) 0

/-- `Open`: the persisted applied index, 0 for a new shard. -/
def openIndex (st : Store) : Except String UInt64 :=
  match st[appliedKey s]? with
  | none => .ok 0
  | some v =>
    if v.length ≠ 8 then .error "collections: corrupt applied-index value"
    else .ok (getU64 v)

structure SnapState where
  snap : Store
  applied : UInt64

def prepareSnapshot (st : Store) : SnapState where
  snap := st
  applied :=
    match st[appliedKey s]? with
    | some v => if v.length = 8 then getU64 v else 0
    | none => 0

def saveSnapshot (st : SnapState) : Bytes :=
  (shardRows s st.snap).foldl
    (fun w r => writeChunk (writeChunk w (r.1.drop (shardPrefix s).length)) r.2)
    (writeChunk [] (u64 st.applied))

/-- A commit of the collected writes, if there are any. -/
def flush (ops : List StoreOp) : List (List StoreOp) := if ops = [] then [] else [ops]

/-- The commits that delete `keys`, after the writes collected so far. -/
def clearKeys : List Bytes → List StoreOp → List (List StoreOp)
  | [], ops => flush ops
  | k :: keys, ops =>
    if 1024 ≤ (ops ++ [Op.del k]).length then flush (ops ++ [.del k]) ++ clearKeys keys []
    else clearKeys keys (ops ++ [.del k])

def clearPrefix (st : Store) : List (List StoreOp) := clearKeys ((shardRows s st).map (·.1)) []

/-- The commits that install a stream of rows, after the writes collected so far,
and how the call ends. -/
def install (idxBytes : Bytes) (r : Bytes) (ops : List StoreOp) :
    List (List StoreOp) × Except StreamErr Unit :=
  match hkey : readChunk r with
  | .error .eof => (flush (ops ++ [.put (appliedKey s) idxBytes]), .ok ())
  | .error e => ([], .error e)
  | .ok (suffix, r') =>
    match hval : readChunk r' with
    | .error e => ([], .error e)
    | .ok (val, r'') =>
      have : r''.length < r.length := (readChunk_length hval).trans (readChunk_length hkey)
      if 1024 ≤ (ops ++ [Op.put (shardPrefix s ++ suffix) val]).length then
        let rest := install idxBytes r'' []
        (flush (ops ++ [.put (shardPrefix s ++ suffix) val]) ++ rest.1, rest.2)
      else install idxBytes r'' (ops ++ [.put (shardPrefix s ++ suffix) val])
termination_by r.length

/-- The commits of a recovery over `st`, and how the call ends. -/
def recoverFromSnapshot (st : Store) (r : Bytes) : List (List StoreOp) × Except StreamErr Unit :=
  match readChunk r with
  | .error e => ([], .error e)
  | .ok (idxBytes, r) =>
    let rest := install s idxBytes r []
    (clearPrefix s st ++ rest.1, rest.2)

end

/-! ## Commits -/

/-- Commits one after the other. -/
theorem foldl_batchRC (st : Store) (commits : List (List StoreOp)) :
    commits.foldl batchRC st = runOps st commits.flatten := by
  induction commits generalizing st with
  | nil => rfl
  | cons ops commits ih => rw [List.foldl_cons, ih, List.flatten_cons, runOps_append, batchRC]

@[simp] theorem flatten_flush (ops : List StoreOp) : (flush ops).flatten = ops := by
  unfold flush
  split
  · rename_i h
    rw [h]
    rfl
  · simp

/-- Keys are deleted in commits of 1024. -/
theorem clearKeys_chunk {keys : List Bytes} {ops : List StoreOp} (hops : ops.length < 1024) :
    clearKeys keys ops =
      if 1024 ≤ ops.length + keys.length then
        (ops ++ (keys.take (1024 - ops.length)).map .del) ::
          clearKeys (keys.drop (1024 - ops.length)) []
      else flush (ops ++ keys.map .del) := by
  induction keys generalizing ops with
  | nil => simp [clearKeys, Nat.not_le.mpr hops]
  | cons k keys ih =>
    have hlen : (ops ++ [Op.del k]).length = ops.length + 1 := by simp
    rw [clearKeys, List.length_cons]
    split
    · have hlast : 1024 - ops.length = 1 := by omega
      rw [if_pos (by omega), hlast]
      simp [flush]
    · have hnext : 1024 - ops.length = 1024 - (ops ++ [Op.del k]).length + 1 := by omega
      rw [ih (by omega), hnext]
      by_cases hfull : 1024 ≤ ops.length + (keys.length + 1)
      · rw [if_pos hfull, if_pos (by omega)]
        simp
      · rw [if_neg hfull, if_neg (by omega)]
        simp

/-- Every commit deletes the next 1024 keys. -/
theorem clearKeys_take (keys : List Bytes) (n : Nat) :
    ((clearKeys keys []).take n).flatten = (keys.take (1024 * n)).map .del := by
  induction n generalizing keys with
  | zero => simp
  | succ n ih =>
    rw [clearKeys_chunk (by decide)]
    split
    · rw [List.take_succ_cons, List.flatten_cons, ih, List.nil_append, ← List.map_append,
        show 1024 * (n + 1) = 1024 + 1024 * n by omega, List.take_add]
      rfl
    · rename_i hfew
      have hall : keys.length ≤ 1024 * (n + 1) := by
        simp at hfew
        omega
      rw [List.take_of_length_le hall, List.nil_append, List.take_of_length_le]
      · exact flatten_flush _
      · unfold flush
        split <;> simp

section
variable {s : UInt64}

/-- The rows of a shard. -/
theorem mem_shardRows {st : Store} {r : Bytes × Bytes} :
    r ∈ shardRows s st ↔ st[r.1]? = some r.2 ∧ shardPrefix s <+: r.1 := mem_scan_iff

theorem appliedKey_prefix : shardPrefix s <+: appliedKey s := by
  unfold appliedKey
  rw [List.append_assoc]
  exact List.prefix_append _ _

theorem nodup_shardRows (st : Store) : ((shardRows s st).map (·.1)).Nodup := by
  have hord : st.toList.Pairwise fun a b => compare a.1 b.1 = .lt :=
    Std.ExtTreeMap.ordered_keys_toList
  refine List.pairwise_map.mpr ((hord.filter _).imp fun hlt heq => ?_)
  rw [heq] at hlt
  simp at hlt

def firstKeys (s : UInt64) (st : Store) (n : Nat) : List Bytes :=
  ((shardRows s st).take n).map (·.1)

/-- All keys are among the first that many. -/
theorem mem_firstKeys {st : Store} {n : Nat} {k v : Bytes} (hn : (shardRows s st).length ≤ n)
    (hrow : st[k]? = some v) (hk : shardPrefix s <+: k) : k ∈ firstKeys s st n := by
  rw [firstKeys, List.take_of_length_le hn]
  exact List.mem_map.mpr ⟨(k, v), mem_shardRows.mpr ⟨hrow, hk⟩, rfl⟩

/-- What `n` commits of the clearing leave. -/
theorem getElem?_clearing (st : Store) (n : Nat) (k : Bytes) :
    (runOps st ((clearPrefix s st).take n).flatten)[k]? =
      if k ∈ firstKeys s st (1024 * n) then none else st[k]? := by
  rw [clearPrefix, clearKeys_take, ← List.map_take]
  change (runOps st ((firstKeys s st (1024 * n)).map .del))[k]? = _
  split
  · rename_i hk
    refine getElem?_runOps_of_agree st (fun op hop _ => ?_) ⟨.del k, List.mem_map_of_mem hk, rfl⟩
    obtain ⟨k', -, rfl⟩ := List.mem_map.mp hop
    rfl
  · rename_i hk
    refine getElem?_runOps_of_forall_ne st fun op hop hkey => hk ?_
    obtain ⟨k', hk', rfl⟩ := List.mem_map.mp hop
    exact hkey ▸ hk'

/-- After the whole clearing the shard has no rows. -/
theorem getElem?_cleared (st : Store) {k : Bytes} (hk : shardPrefix s <+: k) :
    (runOps st (clearPrefix s st).flatten)[k]? = none := by
  have hall := getElem?_clearing (s := s) st ((clearPrefix s st).length + (shardRows s st).length) k
  rw [List.take_of_length_le (Nat.le_add_right _ _)] at hall
  rw [hall]
  split
  · rfl
  · rename_i hnot
    cases hrow : st[k]? with
    | none => rfl
    | some v => exact absurd (mem_firstKeys (by omega) hrow hk) hnot

/-! ## Installing a saved stream -/

def rowBytes (s : UInt64) (rows : List (Bytes × Bytes)) : Bytes :=
  rows.flatMap fun r => writeChunk [] (r.1.drop (shardPrefix s).length) ++ writeChunk [] r.2

theorem writeChunk_eq (w b : Bytes) : writeChunk w b = w ++ writeChunk [] b := by
  simp [writeChunk, appendChunk]

/-- A snapshot is its index and its rows. -/
theorem saveSnapshot_eq (st : SnapState) :
    saveSnapshot s st = writeChunk [] (u64 st.applied) ++ rowBytes s (shardRows s st.snap) := by
  unfold saveSnapshot
  generalize writeChunk [] (u64 st.applied) = w
  induction shardRows s st.snap generalizing w with
  | nil => simp [rowBytes]
  | cons r rows ih =>
    rw [List.foldl_cons, ih, writeChunk_eq, writeChunk_eq w]
    simp [rowBytes]

/-- Rows of the shard whose keys and values fit the length field. -/
def Fitting (s : UInt64) (rows : List (Bytes × Bytes)) : Prop :=
  ∀ r ∈ rows, shardPrefix s <+: r.1 ∧ r.1.length < 2 ^ 32 ∧ r.2.length < 2 ^ 32

def putRow (r : Bytes × Bytes) : StoreOp := .put r.1 r.2

variable {idxBytes : Bytes} {ops : List StoreOp}

theorem install_nil :
    install s idxBytes [] ops = ([ops ++ [.put (appliedKey s) idxBytes]], .ok ()) := by
  rw [install]
  simp [readChunk, flush]

/-- One row more: its write is collected, and committed if it is the 1024th. -/
theorem install_read {r suffix r' val r'' : Bytes} (hkey : readChunk r = .ok (suffix, r'))
    (hval : readChunk r' = .ok (val, r'')) :
    install s idxBytes r ops =
      if 1024 ≤ ops.length + 1 then
        ((ops ++ [.put (shardPrefix s ++ suffix) val]) :: (install s idxBytes r'' []).1,
          (install s idxBytes r'' []).2)
      else install s idxBytes r'' (ops ++ [.put (shardPrefix s ++ suffix) val]) := by
  rw [install]
  split
  · rename_i h
    rw [hkey] at h
    cases h
  · rename_i h
    rw [hkey] at h
    cases h
  · rename_i h
    rw [hkey] at h
    cases h
    split
    · rename_i h'
      rw [hval] at h'
      cases h'
    · rename_i h'
      rw [hval] at h'
      cases h'
      simp [flush]

/-- Installing one row. -/
theorem install_cons {r : Bytes × Bytes} {rows : List (Bytes × Bytes)}
    (hfit : Fitting s (r :: rows)) :
    install s idxBytes (rowBytes s (r :: rows)) ops =
      if 1024 ≤ ops.length + 1 then
        ((ops ++ [putRow r]) :: (install s idxBytes (rowBytes s rows) []).1,
          (install s idxBytes (rowBytes s rows) []).2)
      else install s idxBytes (rowBytes s rows) (ops ++ [putRow r]) := by
  obtain ⟨⟨suffix, hsuffix⟩, hk, hv⟩ := hfit r (by simp)
  have hdrop : r.1.drop (shardPrefix s).length = suffix := by rw [← hsuffix]; simp
  have hlen : suffix.length < 2 ^ 32 := by
    have : suffix.length ≤ r.1.length := by rw [← hsuffix]; simp
    omega
  have hread : readChunk (rowBytes s (r :: rows)) =
      .ok (suffix, writeChunk [] r.2 ++ rowBytes s rows) := by
    simp only [rowBytes, List.flatMap_cons, hdrop, List.append_assoc]
    exact readChunk_writeChunk hlen _
  rw [install_read hread (readChunk_writeChunk hv _), hsuffix]
  rfl

theorem Fitting.tail {r : Bytes × Bytes} {rows : List (Bytes × Bytes)}
    (h : Fitting s (r :: rows)) : Fitting s rows := fun q hq => h q (List.mem_cons_of_mem _ hq)

/-- A stream that was saved is read to its end. -/
theorem install_ok {rows : List (Bytes × Bytes)} (hfit : Fitting s rows) :
    (install s idxBytes (rowBytes s rows) ops).2 = .ok () := by
  induction rows generalizing ops with
  | nil => rw [rowBytes, List.flatMap_nil, install_nil]
  | cons r rows ih =>
    rw [install_cons hfit]
    split <;> exact ih hfit.tail

/-- Rows are installed in commits of 1024. -/
theorem install_chunk (idxBytes : Bytes) {rows : List (Bytes × Bytes)} (hfit : Fitting s rows)
    (hops : ops.length < 1024) :
    (install s idxBytes (rowBytes s rows) ops).1 =
      if 1024 ≤ ops.length + rows.length then
        (ops ++ (rows.take (1024 - ops.length)).map putRow) ::
          (install s idxBytes (rowBytes s (rows.drop (1024 - ops.length))) []).1
      else [ops ++ rows.map putRow ++ [.put (appliedKey s) idxBytes]] := by
  induction rows generalizing ops with
  | nil =>
    rw [rowBytes, List.flatMap_nil, install_nil]
    simp [Nat.not_le.mpr hops]
  | cons r rows ih =>
    have hlen : (ops ++ [putRow r]).length = ops.length + 1 := by simp
    rw [install_cons hfit, List.length_cons]
    split
    · have hlast : 1024 - ops.length = 1 := by omega
      rw [if_pos (by omega), hlast]
      simp
    · have hnext : 1024 - ops.length = 1024 - (ops ++ [putRow r]).length + 1 := by omega
      rw [ih hfit.tail (by omega), hnext]
      by_cases hfull : 1024 ≤ ops.length + (rows.length + 1)
      · rw [if_pos hfull, if_pos (by omega)]
        simp
      · rw [if_neg hfull, if_neg (by omega)]
        simp

/-- Every commit installs the next 1024 rows; the last one the index once more. -/
theorem install_take {rows : List (Bytes × Bytes)} (hfit : Fitting s rows) (idxBytes : Bytes)
    (m : Nat) :
    ((install s idxBytes (rowBytes s rows) []).1.take m).flatten =
      (rows.take (1024 * m)).map putRow ++
        if rows.length < 1024 * m then [.put (appliedKey s) idxBytes] else [] := by
  induction m generalizing rows with
  | zero => simp
  | succ m ih =>
    have hsplit : 1024 * (m + 1) = 1024 + 1024 * m := by omega
    rw [install_chunk idxBytes hfit (by decide)]
    split
    · rename_i hfull
      simp only [List.length_nil, Nat.zero_add] at hfull
      have hmore : rows.length - 1024 < 1024 * m ↔ rows.length < 1024 + 1024 * m := by omega
      rw [List.take_succ_cons, List.flatten_cons, List.length_nil, Nat.sub_zero,
        ih fun r hr => hfit r (List.mem_of_mem_drop hr), List.nil_append, ← List.append_assoc,
        ← List.map_append, hsplit, List.take_add, List.length_drop]
      simp only [hmore]
    · rename_i hfew
      simp only [List.length_nil, Nat.zero_add] at hfew
      rw [if_pos (by omega), List.take_of_length_le (by omega : rows.length ≤ _),
        List.take_of_length_le (by simp)]
      simp

/-! ## Crash points -/

theorem openIndex_congr {st st' : Store} (h : st[appliedKey s]? = st'[appliedKey s]?) :
    openIndex s st = openIndex s st' := by
  unfold openIndex
  rw [h]

/-- A snapshot with an index has it as a row. -/
theorem applied_row {snap : Store} (h : (prepareSnapshot s snap).applied ≠ 0) :
    snap[appliedKey s]? = some (u64 (prepareSnapshot s snap).applied) := by
  unfold prepareSnapshot at h ⊢
  simp only at h ⊢
  cases hrow : snap[appliedKey s]? with
  | none => simp [hrow] at h
  | some v =>
    simp only [hrow] at h ⊢
    split at h
    · rename_i hlen
      rw [if_pos hlen, u64_getU64 hlen]
    · exact absurd rfl h

/-- The commits of a recovery from a saved snapshot. -/
theorem recoverFromSnapshot_save (snap : SnapState) (prior : Store) :
    recoverFromSnapshot s prior (saveSnapshot s snap) =
      (clearPrefix s prior ++
        (install s (u64 snap.applied) (rowBytes s (shardRows s snap.snap)) []).1,
        (install s (u64 snap.applied) (rowBytes s (shardRows s snap.snap)) []).2) := by
  rw [saveSnapshot_eq, recoverFromSnapshot, readChunk_writeChunk (by simp)]

/-- What is left after the clearing and `m` commits of the install. -/
theorem getElem?_installing {snap : Store} (prior : Store) (m : Nat)
    (hfit : Fitting s (shardRows s snap)) {k : Bytes} (hk : shardPrefix s <+: k) :
    (runOps (runOps prior (clearPrefix s prior).flatten)
        ((install s idxBytes (rowBytes s (shardRows s snap)) []).1.take m).flatten)[k]? =
      if k = appliedKey s ∧ (shardRows s snap).length < 1024 * m then some idxBytes
      else if k ∈ firstKeys s snap (1024 * m) then snap[k]? else none := by
  have hrows : (runOps (runOps prior (clearPrefix s prior).flatten)
      (((shardRows s snap).take (1024 * m)).map putRow))[k]? =
        if k ∈ firstKeys s snap (1024 * m) then snap[k]? else none := by
    split
    · rename_i hmem
      obtain ⟨r, hr, hrk⟩ := List.mem_map.mp hmem
      refine getElem?_runOps_of_agree _ (fun op hop hkey => ?_)
        ⟨putRow r, List.mem_map_of_mem hr, hrk⟩
      obtain ⟨q, hq, rfl⟩ := List.mem_map.mp hop
      rw [← hkey]
      exact (mem_shardRows.mp (List.mem_of_mem_take hq)).1.symm
    · rename_i hnot
      rw [getElem?_runOps_of_forall_ne _ fun op hop hkey => hnot ?_, getElem?_cleared prior hk]
      obtain ⟨q, hq, rfl⟩ := List.mem_map.mp hop
      exact hkey ▸ List.mem_map_of_mem hq
  rw [install_take hfit, runOps_append]
  by_cases hall : (shardRows s snap).length < 1024 * m
  · rw [if_pos hall, runOps, List.foldl_cons, List.foldl_nil, getElem?_runOp_put]
    by_cases happ : k = appliedKey s
    · rw [if_pos happ.symm, if_pos ⟨happ, hall⟩]
    · rw [if_neg (Ne.symm happ), if_neg fun h => happ h.1, hrows]
  · rw [if_neg hall, if_neg fun h => hall h.2]
    exact hrows

section
variable (s : UInt64) (snap prior : Store)

/-- The store a crash leaves after `n` commits of a recovery. -/
def crashed (n : Nat) : Store :=
  ((recoverFromSnapshot s prior (saveSnapshot s (prepareSnapshot s snap))).1.take n).foldl
    batchRC prior

/-- A crash after `n` commits is safe: `Open` returns the snapshot's index only if the shard's rows
are the snapshot's; otherwise 0, or what it returned before the recovery. -/
def CrashSafe (n : Nat) : Prop :=
  (openIndex s (crashed s snap prior n) = .ok (prepareSnapshot s snap).applied →
    ∀ suffix, (crashed s snap prior n)[shardPrefix s ++ suffix]? =
      snap[shardPrefix s ++ suffix]?) ∧
  (openIndex s (crashed s snap prior n) = .ok (prepareSnapshot s snap).applied ∨
    openIndex s (crashed s snap prior n) = .ok 0 ∨
    openIndex s (crashed s snap prior n) = openIndex s prior)

/-- The snapshot has an index; the commit that installs its row installs the last of the rows; and
a shard that is at the index already has the snapshot's rows, and its index among the first 1024,
which are deleted first. -/
structure Recoverable : Prop where
  index : (prepareSnapshot s snap).applied ≠ 0
  together : ∀ m, appliedKey s ∈ firstKeys s snap (1024 * m) →
    (shardRows s snap).length ≤ 1024 * m
  same : openIndex s prior = .ok (prepareSnapshot s snap).applied →
    (∀ suffix, prior[shardPrefix s ++ suffix]? = snap[shardPrefix s ++ suffix]?) ∧
      appliedKey s ∈ firstKeys s prior 1024

end

variable {snap prior : Store}

/-- After some commits of the clearing. -/
theorem crashed_clearing (snap : Store) {n : Nat} (hn : n ≤ (clearPrefix s prior).length)
    (k : Bytes) :
    (crashed s snap prior n)[k]? =
      if k ∈ firstKeys s prior (1024 * n) then none else prior[k]? := by
  rw [crashed, foldl_batchRC, recoverFromSnapshot_save, List.take_append_of_le_length hn]
  exact getElem?_clearing prior n k

/-- After some commits of the installation. -/
theorem crashed_installing (prior : Store) (hfit : Fitting s (shardRows s snap)) (m : Nat)
    {k : Bytes} (hk : shardPrefix s <+: k) :
    (crashed s snap prior ((clearPrefix s prior).length + m))[k]? =
      if k = appliedKey s ∧ (shardRows s snap).length < 1024 * m then
        some (u64 (prepareSnapshot s snap).applied)
      else if k ∈ firstKeys s snap (1024 * m) then snap[k]? else none := by
  rw [crashed, foldl_batchRC, recoverFromSnapshot_save, List.take_length_add_append,
    List.flatten_append, runOps_append]
  exact getElem?_installing prior m hfit hk

theorem openIndex_none {st : Store} (h : st[appliedKey s]? = none) : openIndex s st = .ok 0 := by
  rw [openIndex, h]

theorem openIndex_u64 {st : Store} {i : UInt64} (h : st[appliedKey s]? = some (u64 i)) :
    openIndex s st = .ok i := by
  rw [openIndex, h]
  simp

/-- A crash while clearing is safe. -/
theorem Recoverable.clearing (h : Recoverable s snap prior) {n : Nat}
    (hn : n ≤ (clearPrefix s prior).length) : CrashSafe s snap prior n := by
  have hrow := crashed_clearing snap hn
  by_cases hgone : appliedKey s ∈ firstKeys s prior (1024 * n)
  · -- the index is deleted
    have hopen : openIndex s (crashed s snap prior n) = .ok 0 :=
      openIndex_none (by rw [hrow, if_pos hgone])
    rw [CrashSafe, hopen]
    exact ⟨fun he => absurd (Except.ok.inj he).symm h.index, .inr (.inl rfl)⟩
  have hopen : openIndex s (crashed s snap prior n) = openIndex s prior :=
    openIndex_congr (by rw [hrow, if_neg hgone])
  rw [CrashSafe, hopen]
  refine ⟨fun he suffix => ?_, .inr (.inr rfl)⟩
  obtain ⟨hrows, hfirst⟩ := h.same he
  obtain rfl : n = 0 := by
    by_contra hpos
    refine hgone (List.map_subset _ (fun r hr => ?_) hfirst)
    exact List.take_subset_take_left _ (by omega) hr
  rw [hrow, Nat.mul_zero, firstKeys, List.take_zero, List.map_nil, if_neg List.not_mem_nil,
    hrows suffix]

/-- A crash while installing is safe. -/
theorem Recoverable.installing (h : Recoverable s snap prior)
    (hfit : Fitting s (shardRows s snap)) (m : Nat) :
    CrashSafe s snap prior ((clearPrefix s prior).length + m) := by
  have happlied := applied_row h.index
  have hrow := @crashed_installing s snap prior hfit m
  have hindex := hrow appliedKey_prefix
  by_cases hall : (shardRows s snap).length ≤ 1024 * m
  · have hsame : ∀ {k}, shardPrefix s <+: k →
        (crashed s snap prior ((clearPrefix s prior).length + m))[k]? = snap[k]? := by
      intro k hk
      rw [hrow hk]
      split
      · rename_i happ
        rw [happ.1, happlied]
      split
      · rfl
      · rename_i hnot
        cases hget : snap[k]? with
        | none => rfl
        | some v => exact absurd (mem_firstKeys hall hget hk) hnot
    have hopen : openIndex s (crashed s snap prior ((clearPrefix s prior).length + m)) =
        .ok (prepareSnapshot s snap).applied :=
      openIndex_u64 (by rw [hsame appliedKey_prefix, happlied])
    exact ⟨fun _ suffix => hsame (List.prefix_append _ _), .inl hopen⟩
  · rw [if_neg fun hlt => hall hlt.2.le, if_neg fun hmem => hall (h.together m hmem)] at hindex
    rw [CrashSafe, openIndex_none hindex]
    exact ⟨fun he => absurd (Except.ok.inj he).symm h.index, .inr (.inl rfl)⟩

/-- The index of a snapshot that is safe to recover is not zero: with the shard cleared `Open`
returns 0, and at the end the shard has an index. -/
theorem index_of_safe (hfit : Fitting s (shardRows s snap))
    (hsafe : ∀ n, CrashSafe s snap prior n) : (prepareSnapshot s snap).applied ≠ 0 := by
  intro hzero
  have hcleared : ∀ {k}, shardPrefix s <+: k →
      (crashed s snap prior ((clearPrefix s prior).length + 0))[k]? = none := by
    intro k hk
    rw [crashed_installing prior hfit 0 hk]
    simp [firstKeys]
  have hempty : ∀ suffix, snap[shardPrefix s ++ suffix]? = none := by
    intro suffix
    rw [← (hsafe _).1 (by rw [openIndex_none (hcleared appliedKey_prefix), hzero]) suffix]
    exact hcleared (List.prefix_append _ _)
  have hnone : shardRows s snap = [] := by
    refine List.eq_nil_iff_forall_not_mem.mpr fun r hr => ?_
    obtain ⟨hget, suffix, hk⟩ := mem_shardRows.mp hr
    rw [← hk, hempty] at hget
    cases hget
  have hlast := crashed_installing prior hfit 1 appliedKey_prefix
  rw [hnone, if_pos ⟨rfl, by decide⟩] at hlast
  obtain ⟨suffix, hk⟩ : shardPrefix s <+: appliedKey s := appliedKey_prefix
  have hrow := (hsafe _).1 (openIndex_u64 hlast) suffix
  rw [hempty, hk, hlast] at hrow
  cases hrow

/-- If every crash is safe, the index comes with the last rows. -/
theorem together_of_safe (hfit : Fitting s (shardRows s snap))
    (hindex : (prepareSnapshot s snap).applied ≠ 0) (hsafe : ∀ n, CrashSafe s snap prior n)
    {m : Nat} (hm : appliedKey s ∈ firstKeys s snap (1024 * m)) :
    (shardRows s snap).length ≤ 1024 * m := by
  by_contra hmore
  have hrow := @crashed_installing s snap prior hfit m
  have hopen := hrow appliedKey_prefix
  rw [if_neg fun h => hmore h.2.le, if_pos hm, applied_row hindex] at hopen
  -- the first row that is still missing
  obtain ⟨r, rest, hdrop⟩ := List.exists_cons_of_length_pos
    (show 0 < ((shardRows s snap).drop (1024 * m)).length by rw [List.length_drop]; omega)
  have hmem : r ∈ (shardRows s snap).drop (1024 * m) := hdrop ▸ List.mem_cons_self
  obtain ⟨hget, hk⟩ := mem_shardRows.mp (List.mem_of_mem_drop hmem)
  have hnew : r.1 ∉ firstKeys s snap (1024 * m) := by
    have hnodup := nodup_shardRows (s := s) snap
    rw [← List.take_append_drop (1024 * m) (shardRows s snap), List.map_append] at hnodup
    exact fun h => List.disjoint_of_nodup_append hnodup h (List.mem_map_of_mem hmem)
  have hlost := hrow hk
  rw [if_neg fun h => hmore h.2.le, if_neg hnew] at hlost
  obtain ⟨suffix, hsuffix⟩ := hk
  have hsame := (hsafe _).1 (openIndex_u64 hopen) suffix
  rw [hsuffix, hlost, hget] at hsame
  cases hsame

/-- If every crash is safe, an equal index means equal rows. -/
theorem same_of_safe (hindex : (prepareSnapshot s snap).applied ≠ 0)
    (hsafe : ∀ n, CrashSafe s snap prior n)
    (hopen : openIndex s prior = .ok (prepareSnapshot s snap).applied) :
    (∀ suffix, prior[shardPrefix s ++ suffix]? = snap[shardPrefix s ++ suffix]?) ∧
      appliedKey s ∈ firstKeys s prior 1024 := by
  have hrows : ∀ suffix, prior[shardPrefix s ++ suffix]? = snap[shardPrefix s ++ suffix]? :=
    (hsafe 0).1 hopen
  refine ⟨hrows, ?_⟩
  by_contra hlater
  have hmem : ∃ v, (appliedKey s, v) ∈ shardRows s prior := by
    cases hget : prior[appliedKey s]? with
    | none =>
      rw [openIndex_none hget] at hopen
      exact absurd (Except.ok.inj hopen).symm hindex
    | some v => exact ⟨v, mem_shardRows.mpr ⟨hget, appliedKey_prefix⟩⟩
  obtain ⟨v, hmem⟩ := hmem
  obtain ⟨r, rest, hcons⟩ := List.exists_cons_of_ne_nil (List.ne_nil_of_mem hmem)
  have hfirst : r.1 ∈ firstKeys s prior (1024 * 1) := by
    rw [firstKeys, hcons, List.take_succ_cons]
    exact List.mem_cons_self
  have hcommits : 1 ≤ (clearPrefix s prior).length := by
    refine List.length_pos_iff.mpr fun hnil => ?_
    have hclear := clearKeys_take ((shardRows s prior).map (·.1)) 1
    rw [← clearPrefix, hnil, hcons] at hclear
    simp at hclear
  -- the first commit deletes rows, and not the index
  have hrow := crashed_clearing snap hcommits
  obtain ⟨hget, suffix, hk⟩ := mem_shardRows.mp (hcons ▸ List.mem_cons_self : r ∈ shardRows s prior)
  have hsame := (hsafe 1).1 (by
    rw [← hopen]
    exact openIndex_congr (by rw [hrow, if_neg hlater])) suffix
  rw [hrow, hk, if_pos hfirst, ← hk, ← hrows suffix, hk, hget] at hsame
  cases hsame

end

/-- **Snapshot recovery is crash-safe** exactly if the snapshot has an index, the commit with the
index's row has the last of the rows, and a shard at that index has the snapshot's rows and loses
its index first. The call reads the stream to its end, and after all its commits `Open` returns
the snapshot's index. -/
theorem snapshot_recovery_safe (s : UInt64) (snap prior : Store)
    (hfit : ∀ r ∈ shardRows s snap, r.1.length < 2 ^ 32 ∧ r.2.length < 2 ^ 32) :
    ((∀ n, CrashSafe s snap prior n) ↔ Recoverable s snap prior) ∧
    (recoverFromSnapshot s prior (saveSnapshot s (prepareSnapshot s snap))).2 = .ok () ∧
    ∃ commits, ∀ n, commits ≤ n →
      openIndex s (crashed s snap prior n) = .ok (prepareSnapshot s snap).applied := by
  have hfitting : Fitting s (shardRows s snap) :=
    fun r hr => ⟨(mem_shardRows.mp hr).2, hfit r hr⟩
  refine ⟨⟨fun hsafe => ?_, fun h n => ?_⟩, ?_, ?_⟩
  · have hindex := index_of_safe hfitting hsafe
    exact ⟨hindex, fun m => together_of_safe hfitting hindex hsafe, same_of_safe hindex hsafe⟩
  · rcases Nat.le_total n (clearPrefix s prior).length with hle | hge
    · exact h.clearing hle
    · obtain ⟨m, rfl⟩ := Nat.exists_eq_add_of_le hge
      exact h.installing hfitting m
  · rw [recoverFromSnapshot_save]
    exact install_ok hfitting
  · refine ⟨(clearPrefix s prior).length + ((shardRows s snap).length + 1), fun n hn => ?_⟩
    obtain ⟨m, rfl⟩ := Nat.exists_eq_add_of_le (Nat.le_of_add_right_le hn)
    refine openIndex_u64 ?_
    rw [crashed_installing prior hfitting m appliedKey_prefix, if_pos ⟨rfl, by omega⟩]

/-! ## More rows than one commit -/

/-- What the first commit installs into an empty store. -/
theorem recover_first {s : UInt64} {snap : Store} (hfit : Fitting s (shardRows s snap))
    (hlen : 1024 ≤ (shardRows s snap).length) :
    ((recoverFromSnapshot s ∅ (saveSnapshot s (prepareSnapshot s snap))).1.take 1).foldl batchRC ∅ =
      runOps ∅ (((shardRows s snap).take 1024).map putRow) := by
  have hrows : (∅ : Store).toList = [] := rfl
  have hclear : clearPrefix s ∅ = [] := by
    simp [clearPrefix, shardRows, scan, hrows, clearKeys, flush]
  have hempty : ([] : List StoreOp).length < 1024 := by decide
  have hfirst := install_chunk (u64 (prepareSnapshot s snap).applied) hfit hempty
  rw [if_pos (by simpa using hlen)] at hfirst
  have hsnap : (prepareSnapshot s snap).snap = snap := rfl
  rw [recoverFromSnapshot_save, hclear, List.nil_append, foldl_batchRC, hsnap, hfirst]
  simp

def memberKey (i : Nat) : Bytes := elemKey 2 [0x6e] [0x63] (beBytes 2 i)

def members (n : Nat) : Store :=
  (List.range n).foldl (fun st i => st.insert (memberKey i) [])
    ((∅ : Store).insert (appliedKey 2) (u64 7))

/-- A shard at index 3 is caught up by a snapshot at index 7. -/
theorem snapshot_recovery_safe_oneMember :
    let prior : Store := ((∅ : Store).insert (appliedKey 2) (u64 3)).insert (dedupSeqKey 2) (u64 1)
    (prepareSnapshot 2 (members 1)).applied = 7 ∧ ∀ n, CrashSafe 2 (members 1) prior n := by
  intro prior
  have hlen : (shardRows 2 (members 1)).length = 2 := by decide +kernel
  refine ⟨by decide +kernel, (snapshot_recovery_safe 2 (members 1) prior
    (by decide +kernel)).1.mpr ⟨by decide +kernel, fun m hm => ?_, fun h => ?_⟩⟩
  · rcases m with _ | m
    · simp [firstKeys] at hm
    · omega
  · exact absurd h (by decide +kernel)

theorem members_succ (n : Nat) : members (n + 1) = (members n).insert (memberKey n) [] := by
  simp [members, List.range_succ]

theorem memberKey_inj {i j : Nat} (hi : i < 2 ^ 16) (hj : j < 2 ^ 16)
    (h : memberKey i = memberKey j) : i = j :=
  beBytes_inj hi hj (List.append_cancel_left h)

theorem applied_lt_member (i : Nat) : compare (appliedKey 2) (memberKey i) = .lt := by
  have happlied : appliedKey 2 =
      shardPrefix 2 ++ 0x00 :: [0x61, 0x70, 0x70, 0x6c, 0x69, 0x65, 0x64] := by
    simp [appliedKey]
  obtain ⟨rest, hrest⟩ : ∃ rest, memberKey i = shardPrefix 2 ++ 0x01 :: rest :=
    ⟨_, by simp only [memberKey, elemKey, elemPrefix, collScope, dataSpace, appendChunk,
      List.append_assoc, List.cons_append]; rfl⟩
  rw [happlied, hrest, compare_append_left, compare_cons_cons]
  rfl

theorem member_gt_applied (i : Nat) : compare (memberKey i) (appliedKey 2) = .gt :=
  Std.OrientedCmp.gt_iff_lt.mpr (applied_lt_member i)

/-- The rows of the sample. -/
theorem members_rows {n : Nat} {k v : Bytes} (h : (members n)[k]? = some v) :
    (k = appliedKey 2 ∧ v = u64 7) ∨ ∃ i < n, k = memberKey i ∧ v = [] := by
  induction n with
  | zero =>
    rcases getElem?_insert_cases h with hempty | ⟨rfl, rfl⟩
    · simp at hempty
    · exact .inl ⟨rfl, rfl⟩
  | succ n ih =>
    rw [members_succ] at h
    rcases getElem?_insert_cases h with hold | ⟨rfl, rfl⟩
    · exact (ih hold).imp id fun ⟨i, hi, hk⟩ => ⟨i, by omega, hk⟩
    · exact .inr ⟨n, by omega, rfl, rfl⟩

theorem members_applied (n : Nat) : (members n)[appliedKey 2]? = some (u64 7) := by
  induction n with
  | zero => simp [members]
  | succ n ih =>
    have hne : compare (memberKey n) (appliedKey 2) ≠ .eq := by
      rw [member_gt_applied]
      decide
    rw [members_succ, Std.ExtTreeMap.getElem?_insert, if_neg hne, ih]

theorem size_members {n : Nat} (hn : n ≤ 2 ^ 16) : (members n).size = n + 1 := by
  induction n with
  | zero => simp [members, Std.ExtTreeMap.size_insert]
  | succ n ih =>
    have hnew : (members n).contains (memberKey n) = false := by
      rw [Std.ExtTreeMap.contains_eq_isSome_getElem?]
      cases hrow : (members n)[memberKey n]? with
      | none => rfl
      | some v =>
        rcases members_rows hrow with ⟨hk, -⟩ | ⟨i, hi, hk, -⟩
        · have hlt := applied_lt_member n
          rw [hk] at hlt
          simp at hlt
        · have := memberKey_inj (by omega) (by omega) hk
          omega
    rw [members_succ, Std.ExtTreeMap.size_insert, hnew, ih (by omega)]
    rfl

theorem member_prefix (i : Nat) : shardPrefix 2 <+: memberKey i := by
  simp only [memberKey, elemKey, elemPrefix, collScope, dataSpace, appendChunk, List.append_assoc]
  exact List.prefix_append _ _

theorem fitting_members (n : Nat) : Fitting 2 (shardRows 2 (members n)) := by
  intro r hr
  obtain ⟨hrow, hpre⟩ := mem_shardRows.mp hr
  refine ⟨hpre, ?_⟩
  rcases members_rows hrow with ⟨hk, hv⟩ | ⟨i, -, hk, hv⟩
  · rw [hk, hv]
    simp [appliedKey, shardPrefix]
  · rw [hk, hv]
    simp [memberKey, elemKey, elemPrefix, collScope, dataSpace, shardPrefix]

/-- All rows are the shard's, and the index is the first of them. -/
theorem shardRows_members (n : Nat) :
    shardRows 2 (members n) = (members n).toList ∧
      ∃ rows, shardRows 2 (members n) = (appliedKey 2, u64 7) :: rows := by
  have hall : shardRows 2 (members n) = (members n).toList := by
    unfold shardRows scan
    rw [if_neg (by decide), List.filter_eq_self]
    rintro ⟨k, v⟩ hmem
    rw [inRange_prefixEnd]
    rcases members_rows (Std.ExtTreeMap.mem_toList_iff_getElem?_eq_some.mp hmem)
      with ⟨rfl, -⟩ | ⟨i, -, rfl, -⟩
    · exact appliedKey_prefix
    · exact member_prefix i
  refine ⟨hall, ?_⟩
  have hord : (members n).toList.Pairwise fun a b => compare a.1 b.1 = .lt :=
    Std.ExtTreeMap.ordered_keys_toList
  have hmem : (appliedKey 2, u64 7) ∈ (members n).toList :=
    Std.ExtTreeMap.mem_toList_iff_getElem?_eq_some.mpr (members_applied n)
  rw [hall]
  cases hlist : (members n).toList with
  | nil => simp [hlist] at hmem
  | cons r rows =>
    rw [hlist] at hord hmem
    rcases List.mem_cons.mp hmem with rfl | htail
    · exact ⟨rows, rfl⟩
    · -- nothing sorts before the index
      have hlt := List.rel_of_pairwise_cons hord htail
      have hr : (members n)[r.1]? = some r.2 :=
        Std.ExtTreeMap.mem_toList_iff_getElem?_eq_some.mp (hlist ▸ List.mem_cons_self)
      rcases members_rows hr with ⟨hk, -⟩ | ⟨i, -, hk, -⟩
      · rw [hk] at hlt
        simp at hlt
      · rw [hk, member_gt_applied] at hlt
        cases hlt

theorem size_runOps_le (st : Store) (ops : List StoreOp) :
    (runOps st ops).size ≤ st.size + ops.length := by
  induction ops generalizing st with
  | nil => simp
  | cons op ops ih =>
    have hone : (runOp st op).size ≤ st.size + 1 := by
      cases op with
      | put k v => exact Std.ExtTreeMap.size_insert_le
      | del k => exact Std.ExtTreeMap.size_erase_le.trans (Nat.le_succ _)
    have hrest := ih (runOp st op)
    show (runOps (runOp st op) ops).size ≤ _
    rw [List.length_cons]
    omega

/-- A snapshot of more than 1024 rows, after its first commit: the index is there,
and at most 1024 rows are. -/
theorem members_first {n : Nat} (hn : 1024 ≤ n) (hmax : n ≤ 2 ^ 16) :
    let st := ((recoverFromSnapshot 2 ∅
      (saveSnapshot 2 (prepareSnapshot 2 (members n)))).1.take 1).foldl batchRC ∅
    openIndex 2 st = .ok 7 ∧ st.size ≤ 1024 := by
  obtain ⟨hall, rows, hcons⟩ := shardRows_members n
  have hlen : (shardRows 2 (members n)).length = n + 1 := by
    rw [hall, Std.ExtTreeMap.length_toList, size_members hmax]
  rw [recover_first (fitting_members n) (by omega)]
  refine ⟨?_, ?_⟩
  · have hrow : (runOps (∅ : Store)
        (((shardRows 2 (members n)).take 1024).map putRow))[appliedKey 2]? = some (u64 7) := by
      refine getElem?_runOps_of_agree ∅ (fun op hop hkey => ?_)
        ⟨putRow (appliedKey 2, u64 7), ?_, rfl⟩
      · obtain ⟨r, hr, rfl⟩ := List.mem_map.mp hop
        have hget := (mem_shardRows.mp (List.mem_of_mem_take hr)).1
        have hk : r.1 = appliedKey 2 := hkey
        rw [hk, members_applied] at hget
        exact hget.symm
      · rw [hcons, List.take_succ_cons, List.map_cons]
        exact List.mem_cons_self
    rw [openIndex, hrow]
    simp
  · refine (size_runOps_le _ _).trans ?_
    rw [List.length_map, List.length_take, Std.ExtTreeMap.size_empty]
    omega

/-- A snapshot of 1025 rows, installed into an empty store: after the first commit
`Open` returns the snapshot's index, and a row is missing. -/
theorem recovery_cut_short :
    let run := recoverFromSnapshot 2 ∅ (saveSnapshot 2 (prepareSnapshot 2 (members 1024)))
    let st := (run.1.take 1).foldl batchRC ∅
    openIndex 2 (members 1024) = .ok 7 ∧ openIndex 2 st = .ok 7 ∧
      (members 1024).size = 1025 ∧ st.size ≤ 1024 := by
  have hsnap : openIndex 2 (members 1024) = .ok 7 := by
    rw [openIndex, members_applied]
    simp
  obtain ⟨hopen, hsize⟩ := members_first (le_refl 1024) (by decide)
  exact ⟨hsnap, hopen, size_members (by decide), hsize⟩

end WaveSpan.Collections
