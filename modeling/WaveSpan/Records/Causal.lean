/-
WaveSpan.Records.Causal — versions issued after what a node has stored
(`internal/recordstore/store.go` `NextVersion`, `Apply`;
`internal/version/hlc.go`).

A node applies records from elsewhere and issues versions of its own. `apply`
does not show the record's stamp to the clock, so a version issued afterwards is
above the record's only when the clock has passed that stamp on its own account:
it has already handed out a stamp as high, or the wall clock has moved past its
millisecond. Under that condition `next_above_applied` gives the causal order,
and with it that the node's own overwrite or delete wins. `next_below_applied` is
a run within the skew bound where it does not.

`Tracks s vs` is what the second half rests on: every pointer of the store names a
version that was applied to it, whatever the keys.
-/
import WaveSpan.Records.Converge

namespace WaveSpan.Records

open WaveSpan.Wire WaveSpan.Collections

/-- A later stamp makes a later version. -/
theorem Version.lt_of_timestamp_lt {a b : Version} (h : a.timestamp < b.timestamp) : a < b := by
  have hlt : a.hlcPhysicalMs.toNat < b.hlcPhysicalMs.toNat ∨
      a.hlcPhysicalMs.toNat = b.hlcPhysicalMs.toNat ∧ a.hlcLogical.toNat < b.hlcLogical.toNat :=
    Timestamp.lt_iff.mp h
  rw [Version.lt_def, Version.compare_eq_lex]
  rcases hlt with hp | ⟨hp, hl⟩
  · have hc : Ord.compare a.hlcPhysicalMs b.hlcPhysicalMs = .lt :=
      Std.compare_eq_lt.mpr (UInt64.lt_iff_toNat_lt.mpr hp)
    simp [hc]
  · have hc : Ord.compare a.hlcLogical b.hlcLogical = .lt :=
      Std.compare_eq_lt.mpr (UInt32.lt_iff_toNat_lt.mpr hl)
    simp [UInt64.toNat_inj.mp hp, hc]

/-! ## The versions a store's pointers name -/

/-- Every pointer of the store names one of the versions `vs`, and everything
else beside the pointers is a TTL index entry. -/
structure Tracks (s : Store) (vs : Set Version) : Prop where
  pointers : ∀ {k : Bytes} {lp : LatestPointer},
    s.disk.kvMeta[k]? = some (.pointer lp) → lp.winner ∈ vs
  entries : ∀ {k v : Bytes}, s.disk.kvMeta[k]? = some (.ttl v) → ∃ e ns key, k = ttlKey e ns key

theorem tracks_newStore (clusterID memberID : Bytes) (clock : Clock) (seq : Sequencer) :
    Tracks (newStore {} clusterID memberID clock seq) ∅ where
  pointers h := by simp [newStore] at h
  entries h := by simp [newStore] at h

namespace Tracks

variable {s : Store} {vs : Set Version} {rec : StoredRecord}

/-- The winner is the stored one or the new one. -/
theorem readWinner_mem (h : Tracks s vs) {sel : Store.Selected}
    (hsel : s.readWinner rec = some sel) : sel.winner ∈ insert rec.version vs := by
  unfold Store.readWinner at hsel
  cases hrow : s.disk.kvMeta[latestKey rec.ns rec.logicalKey]? with
  | none =>
    rw [hrow] at hsel
    cases hsel
    exact Set.mem_insert _ _
  | some row =>
    rw [hrow] at hsel
    cases row with
    | ttl v => cases hsel
    | pointer lp =>
      simp only [decodeLatestPointer, Option.bind_eq_bind, Option.bind_some] at hsel
      split at hsel
      · cases hsel
        exact Set.mem_insert_of_mem _ (h.pointers hrow)
      · cases hsel
        exact Set.mem_insert _ _

/-- The winner chosen is the record's version or one the store knows. -/
theorem selectWinner_mem (h : Tracks s vs) {sel : Store.Selected}
    (hsel : s.selectWinner rec = some sel) : sel.winner ∈ insert rec.version vs := by
  unfold Store.selectWinner at hsel
  split at hsel
  · split at hsel
    · cases hsel
      exact Set.mem_insert _ _
    · exact h.readWinner_mem hsel
  · exact h.readWinner_mem hsel

/-- Stored versions are among those seen. -/
theorem apply (h : Tracks s vs) {kind : MutationKind} {v : Version} {s' : Store}
    (happ : s.apply rec kind = some (v, s')) : Tracks s' (insert rec.version vs) := by
  obtain ⟨sel, hsel, heq⟩ := Option.map_eq_some_iff.mp happ
  cases heq
  constructor
  · intro k lp hk
    rcases Store.commit_meta_cases s rec kind sel hk with hold | ⟨-, hrow⟩ | ⟨e, -, -, -, hrow⟩
    · exact Set.mem_insert_of_mem _ (h.pointers hold)
    · cases hrow
      exact h.selectWinner_mem hsel
    · cases hrow
  · intro k v hk
    rcases Store.commit_meta_cases s rec kind sel hk with hold | ⟨-, hrow⟩ | ⟨e, -, -, hkey, -⟩
    · exact h.entries hold
    · cases hrow
    · exact ⟨e, rec.ns, rec.logicalKey, hkey⟩

/-- A record above every version the store knows wins, on either path. -/
theorem selectWinner_of_above (h : Tracks s vs) (habove : ∀ v ∈ vs, v < rec.version)
    (hns : rec.ns.length < 128) :
    ∃ prior, s.selectWinner rec = some (Store.incoming rec prior) := by
  have hread : ∃ prior, s.readWinner rec = some (Store.incoming rec prior) := by
    unfold Store.readWinner
    cases hrow : s.disk.kvMeta[latestKey rec.ns rec.logicalKey]? with
    | none => exact ⟨none, rfl⟩
    | some row =>
      cases row with
      | ttl v =>
        obtain ⟨e, ns, key, hk⟩ := h.entries hrow
        exact absurd hk (latestKey_ne_ttlKey hns)
      | pointer lp =>
        have hlt : lp.winner.compare rec.version = .lt := habove _ (h.pointers hrow)
        exact ⟨some lp.tombstone, by
          simp only [decodeLatestPointer, Option.bind_eq_bind, Option.bind_some, hlt, ne_eq,
            not_true_eq_false, if_false]⟩
  unfold Store.selectWinner
  split
  · split
    · exact ⟨_, rfl⟩
    · exact hread
  · exact hread

end Tracks

/-! ## Runs of one node -/

/-- A node applies a record it received, or issues a version at a reading of the
wall clock. -/
inductive NodeCall where
  | apply (rec : StoredRecord) (kind : MutationKind)
  | next (wall : UInt64)

/-- The wall reading of a call, zero for one that makes none. -/
def NodeCall.wall : NodeCall → UInt64
  | .apply _ _ => 0
  | .next wall => wall

/-- A node's store with the records whose `apply` has returned. -/
structure NodeRun where
  store : Store
  applied : List StoredRecord := []

def NodeRun.step (n : NodeRun) : NodeCall → NodeRun
  | .apply rec kind =>
    match n.store.apply rec kind with
    | some (_, s') => { store := s', applied := rec :: n.applied }
    | none => n
  | .next wall => { n with store := (n.store.nextVersion wall).2 }

/-- A node that starts over an empty disk and makes these calls. -/
def runNode (clusterID memberID : Bytes) (maxSkewMs start : UInt64) (calls : List NodeCall) :
    NodeRun :=
  calls.foldl NodeRun.step
    { store := newStore {} clusterID memberID (newClock maxSkewMs) (newSequencer start) }

/-- What holds of a node after `n` calls: the clock has room for more, and the
pointers name applied versions. -/
structure NodeRun.Sound (r : NodeRun) (n : Nat) : Prop where
  clock : Ahead r.store.clock n []
  tracks : Tracks r.store {v | ∃ rec ∈ r.applied, rec.version = v}

theorem Store.apply_clock {s s' : Store} {rec : StoredRecord} {kind : MutationKind} {v : Version}
    (h : s.apply rec kind = some (v, s')) : s'.clock = s.clock := by
  obtain ⟨sel, -, heq⟩ := Option.map_eq_some_iff.mp h
  cases heq
  rfl

theorem Ahead.later {c : Clock} {n : Nat} {hist : List Timestamp} (h : Ahead c n hist) :
    Ahead c (n + 1) [] :=
  ⟨by simp, h.carried, by have := h.ticks; omega⟩

/-- Issuing a version is one `now` of the clock. -/
theorem Ahead.now {c : Clock} {n : Nat} (h : Ahead c n []) (hn : n < 2 ^ 77) {wall : UInt64}
    (hwall : wall.toNat < 2 ^ 62) : Moved c (.now wall) ∧ Ahead (c.now wall).2 (n + 1) [] := by
  have hm : Moved c (.now wall) := now_moved hwall h.carried (by
    have := h.ticks
    unfold remoteCeiling at this
    omega)
  have hstep := h.call hm
  exact ⟨hm, ⟨by simp, hstep.carried, hstep.ticks⟩⟩

/-- One call of a node. -/
theorem NodeRun.Sound.step {r : NodeRun} {n : Nat} (h : r.Sound n) (hn : n < 2 ^ 77)
    {call : NodeCall} (hwall : call.wall.toNat < 2 ^ 62) : (r.step call).Sound (n + 1) := by
  cases call with
  | apply rec kind =>
    cases happ : r.store.apply rec kind with
    | none =>
      have hstep : r.step (.apply rec kind) = r := by simp only [NodeRun.step, happ]
      rw [hstep]
      exact ⟨h.clock.later, h.tracks⟩
    | some p =>
      obtain ⟨v, s'⟩ := p
      have hstep : r.step (.apply rec kind) = { store := s', applied := rec :: r.applied } := by
        simp only [NodeRun.step, happ]
      rw [hstep]
      refine ⟨?_, ?_⟩
      · show Ahead s'.clock (n + 1) []
        rw [Store.apply_clock happ]
        exact h.clock.later
      · have hset : {v | ∃ q ∈ rec :: r.applied, q.version = v} =
            insert rec.version {v | ∃ q ∈ r.applied, q.version = v} := by
          ext v
          simp [eq_comm]
        show Tracks s' {v | ∃ q ∈ rec :: r.applied, q.version = v}
        rw [hset]
        exact h.tracks.apply happ
  | next wall => exact ⟨(h.clock.now hn hwall).2, h.tracks.pointers, h.tracks.entries⟩

/-- Whole runs of a node. -/
theorem runNode_sound (clusterID memberID : Bytes) (maxSkewMs start : UInt64)
    (calls : List NodeCall) (hlen : calls.length < 2 ^ 77)
    (hwalls : ∀ c ∈ calls, c.wall.toNat < 2 ^ 62) :
    (runNode clusterID memberID maxSkewMs start calls).Sound calls.length := by
  have hfold : ∀ (cs : List NodeCall) (r : NodeRun) (n : Nat), r.Sound n →
      n + cs.length < 2 ^ 77 → (∀ c ∈ cs, c.wall.toNat < 2 ^ 62) →
      (cs.foldl NodeRun.step r).Sound (n + cs.length) := by
    intro cs
    induction cs with
    | nil => intro r n h _ _; exact h
    | cons c cs ih =>
      intro r n h hn hw
      rw [List.length_cons] at hn ⊢
      have hstep := h.step (by omega) (hw c (by simp))
      have := ih (r.step c) (n + 1) hstep (by omega) fun d hd => hw d (by simp [hd])
      rwa [show n + (cs.length + 1) = n + 1 + cs.length by omega]
  have hinit : NodeRun.Sound
      { store := newStore {} clusterID memberID (newClock maxSkewMs) (newSequencer start) } 0 := by
    refine ⟨ahead_newClock maxSkewMs, ?_⟩
    have hset : {v : Version | ∃ rec ∈ ([] : List StoredRecord), rec.version = v} = ∅ := by
      ext v
      simp
    show Tracks _ {v : Version | ∃ rec ∈ ([] : List StoredRecord), rec.version = v}
    rw [hset]
    exact tracks_newStore _ _ _ _
  have := hfold calls _ 0 hinit (by omega) hwalls
  rwa [Nat.zero_add] at this

/-- The clock has passed a stamp by the time it is read at `wall`: it has handed
out one as high, or the wall clock is past its millisecond. -/
def Passed (c : Clock) (wall : UInt64) (t : Timestamp) : Prop :=
  t ≤ c.last ∨ t.physicalMs < wall

/-- A version issued when the clock has passed every applied record's stamp is
above each of them, and a record stored under it wins its key. -/
theorem next_above_applied (clusterID memberID : Bytes) (maxSkewMs start : UInt64)
    (calls : List NodeCall) (wall : UInt64) (hlen : calls.length < 2 ^ 77)
    (hwalls : ∀ c ∈ calls, c.wall.toNat < 2 ^ 62) (hwall : wall.toNat < 2 ^ 62)
    (hpassed : ∀ r ∈ (runNode clusterID memberID maxSkewMs start calls).applied,
      Passed (runNode clusterID memberID maxSkewMs start calls).store.clock wall
        r.version.timestamp) :
    (∀ r ∈ (runNode clusterID memberID maxSkewMs start calls).applied,
        r.version.compare
          ((runNode clusterID memberID maxSkewMs start calls).store.nextVersion wall).1 = .lt) ∧
      ∀ (rec : StoredRecord) (kind : MutationKind),
        rec.version =
          ((runNode clusterID memberID maxSkewMs start calls).store.nextVersion wall).1 →
        rec.ns.length < 128 →
        ∃ s', ((runNode clusterID memberID maxSkewMs start calls).store.nextVersion wall).2.apply
            rec kind = some (rec.version, s') ∧
          s'.pointer? rec.ns rec.logicalKey = some (pointerOf rec) := by
  have hsound := runNode_sound clusterID memberID maxSkewMs start calls hlen hwalls
  generalize runNode clusterID memberID maxSkewMs start calls = r at hsound hpassed
  obtain ⟨hm, -⟩ := hsound.clock.now hlen hwall
  have habove : ∀ q ∈ r.applied, q.version < (r.store.nextVersion wall).1 := by
    intro q hq
    refine Version.lt_of_timestamp_lt ?_
    show q.version.timestamp < (r.store.clock.now wall).1
    cases hm with
    | refused hret hlast hacc => cases hret
    | stamped t hret hlast hgt hpast hmerged hcar hticks =>
      cases hret
      rcases hpassed q hq with hle | hlt
      · exact lt_of_le_of_lt hle hgt
      · exact hpast _ hlt
  refine ⟨habove, ?_⟩
  intro rec kind hver hns
  have htracks : Tracks (r.store.nextVersion wall).2 {v | ∃ q ∈ r.applied, q.version = v} :=
    ⟨hsound.tracks.pointers, hsound.tracks.entries⟩
  obtain ⟨prior, hsel⟩ : ∃ prior, (r.store.nextVersion wall).2.selectWinner rec =
      some (Store.incoming rec prior) := by
    refine htracks.selectWinner_of_above ?_ hns
    rintro v ⟨q, hq, rfl⟩
    rw [hver]
    exact habove q hq
  refine ⟨_, by rw [Store.apply, hsel]; rfl, ?_⟩
  unfold Store.pointer?
  rw [Store.commit_pointer _ _ _ _ fun e => (latestKey_ne_ttlKey hns).symm,
    if_pos ⟨rfl, rfl⟩, newPointer_incoming]
  rfl

/-- A record from another cluster, stamped at a millisecond of its own clock. -/
def remoteRecord (value : Bytes) (physicalMs : UInt64) : StoredRecord :=
  { ns := [0x6e], logicalKey := [0x6b], value := .inline value,
    version := { hlcPhysicalMs := physicalMs, writerClusterID := [0x62] } }

/-- A record stamped before the wall clock's reading is passed. -/
theorem next_above_applied_onePast :
    (runNode [0x61] [0x31] 500 0 [.apply (remoteRecord [1] 900) .put]).applied =
        [remoteRecord [1] 900] ∧
      (remoteRecord [1] 900).version.compare
        ((runNode [0x61] [0x31] 500 0 [.apply (remoteRecord [1] 900) .put]).store.nextVersion
          1000).1 = .lt := by
  have happ : (runNode [0x61] [0x31] 500 0 [.apply (remoteRecord [1] 900) .put]).applied =
      [remoteRecord [1] 900] := by decide +kernel
  refine ⟨happ, (next_above_applied [0x61] [0x31] 500 0 [.apply (remoteRecord [1] 900) .put] 1000
    (by decide) (by decide) (by decide) ?_).1 _ (by rw [happ]; exact List.mem_singleton_self _)⟩
  rw [happ]
  intro r hr
  obtain rfl := List.mem_singleton.mp hr
  exact .inr (by decide)

/-- A record stamped 400 ms ahead of the node's wall clock, within the skew bound
of 500 ms, is applied; the version issued next is below the record's, and the
node's own overwrite loses to it. -/
theorem next_below_applied :
    let run := runNode [0x61] [0x31] 500 0 [.apply (remoteRecord [1] 1400) .put]
    let issued := run.store.nextVersion 1000
    let overwrite : StoredRecord :=
      { ns := [0x6e], logicalKey := [0x6b], value := .inline [2], version := issued.1 }
    run.applied = [remoteRecord [1] 1400] ∧
      (remoteRecord [1] 1400).version.hlcPhysicalMs ≤ 1000 + run.store.clock.maxSkewMs ∧
      (remoteRecord [1] 1400).version.compare issued.1 = .gt ∧
      (issued.2.apply overwrite .put).map (·.1) = some (remoteRecord [1] 1400).version := by
  decide +kernel

end WaveSpan.Records
