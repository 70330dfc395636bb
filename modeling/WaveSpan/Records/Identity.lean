/-
WaveSpan.Records.Identity — mutation identities over restarts
(`cmd/wavespan-node/main.go`, `internal/version/version.go`,
`internal/replication/local/store_replica.go`,
`internal/replication/global/applier.go`).

A mutation is known by its writer's cluster, member and sequence number. A member
originates mutations and may crash and start again over what is on disk; the
receivers of its copies and the appliers of its mutations stay up and take any
mutation of the member's at any time, any number of times.

Two caches recognise a mutation by its identity alone, and the sequencer lives in
memory: the node builds it with `NewSequencer(0)` whenever it starts, so the
numbers begin again at one. `identity_reused` is the run: the second life's first
write is acknowledged by a receiver that does not store it, and an applier passes
it over. Where every start resumes at or above the last number issued,
`identity_unique` gives the three properties in every reachable state.
-/
import WaveSpan.Lib.Guarded
import WaveSpan.Records.Applier
import WaveSpan.Records.Receiver

namespace WaveSpan.Records

open WaveSpan.Wire WaveSpan.Collections WaveSpan.Guarded

/-! ## The system -/

def mutationOf (r : StoredRecord) : GlobalMutation :=
  { id := ⟨r.version.writerClusterID, r.version.writerMemberID, r.version.writerSequence⟩,
    ns := r.ns, key := r.logicalKey, record := some r }

/-- A member, the receivers of its copies and the appliers of its mutations.
`issued` lists what the member has originated, `shipped i` what applier `i` has
taken. -/
structure Peers where
  member : Store
  receivers : Nat → Receiver
  appliers : Nat → Applier
  issued : List StoredRecord := []
  shipped : Nat → List StoredRecord := fun _ => []

inductive PeersEvent where
  /-- The member originates a record. -/
  | originate (wall expiryWall : UInt64) (ns key value : Bytes) (tombstone : Bool)
      (ttlMs : Option Int64)
  /-- The member crashes and starts again over its disk, its sequencer at `start`:
  the node starts it at 0. -/
  | restart (start : UInt64)
  /-- A copy of the `n`-th record reaches receiver `i`. -/
  | replicate (i n : Nat)
  /-- The `n`-th record's mutation reaches applier `i`. -/
  | ship (i n : Nat)
  deriving DecidableEq

namespace Peers

def step (policyFor : Bytes → Policy) (st : Peers) : PeersEvent → Peers
  | .originate wall expiryWall ns key value tombstone ttlMs =>
    let w := st.member.write wall expiryWall ns key value tombstone ttlMs
    { st with member := w.2, issued := st.issued ++ w.1.toList }
  | .restart start =>
    { st with
      member := newStore st.member.disk st.member.clusterID st.member.memberID (newClock 500)
        (newSequencer start) }
  | .replicate i n =>
    match st.issued[n]?.bind fun r => (st.receivers i).apply (buildRequest r) with
    | some (_, rcv) => { st with receivers := Function.update st.receivers i rcv }
    | none => st
  | .ship i n =>
    match st.issued[n]? with
    | none => st
    | some r =>
      match (st.appliers i).apply policyFor (mutationOf r) with
      | some (_, a) =>
        { st with
          appliers := Function.update st.appliers i a,
          shipped := Function.update st.shipped i (st.shipped i ++ [r]) }
      | none => st

def peerStore (name : Bytes × Bytes) : Store :=
  newStore {} name.1 name.2 (newClock 500) (newSequencer 0)

/-- A member and its peers before anything was written. -/
def init (clusterID memberID : Bytes) (names : Nat → Bytes × Bytes) : Peers :=
  { member := newStore {} clusterID memberID (newClock 500) (newSequencer 0),
    receivers := fun i => { store := peerStore (names i) },
    appliers := fun i => { store := peerStore (names i) } }

/-- Namespaces are plain and the counter has room, and a start resumes at or
above the last number issued. -/
def Fits (st : Peers) : PeersEvent → Prop
  | .originate _ _ ns _ _ _ _ => PlainNamespace ns ∧ st.member.seq.last.toNat + 1 < 2 ^ 64
  | .restart start => ∀ r ∈ st.issued, r.version.writerSequence.toNat ≤ start.toNat
  | _ => True

instance (st : Peers) : ∀ e, Decidable (st.Fits e)
  | .originate _ _ ns _ _ _ _ =>
    inferInstanceAs (Decidable (PlainNamespace ns ∧ st.member.seq.last.toNat + 1 < 2 ^ 64))
  | .restart start =>
    inferInstanceAs (Decidable (∀ r ∈ st.issued, r.version.writerSequence.toNat ≤ start.toNat))
  | .replicate _ _ => inferInstanceAs (Decidable True)
  | .ship _ _ => inferInstanceAs (Decidable True)

end Peers

/-! ## Identities and records -/

/-- The sequence numbers of two versions of one writer are read off their ids. -/
theorem mutationID_inj {v w : Version} (hc : v.writerClusterID = w.writerClusterID)
    (hm : v.writerMemberID = w.writerMemberID) (h : v.mutationID = w.mutationID) :
    v.writerSequence = w.writerSequence := by
  unfold Version.mutationID mutationID at h
  rw [hc, hm] at h
  exact formatUint_inj.mp (List.append_cancel_left h)

/-- A mutation's key is its own. -/
theorem mutationKey_inj {r q : StoredRecord}
    (hc : r.version.writerClusterID = q.version.writerClusterID)
    (hm : r.version.writerMemberID = q.version.writerMemberID)
    (h : mutationKey (mutationOf r).id = mutationKey (mutationOf q).id) :
    r.version.writerSequence = q.version.writerSequence := by
  unfold mutationKey mutationOf at h
  simp only [hc, hm] at h
  have htail := List.append_cancel_left h
  have hrest := List.append_cancel_left (List.cons.inj htail).2
  exact formatUint_inj.mp (List.cons.inj hrest).2

/-- What the applier notes is the mutation it was given. -/
theorem Applier.applied_apply {policyFor : Bytes → Policy} {a a' : Applier} {m : GlobalMutation}
    {b : Bool} (h : a.apply policyFor m = some (b, a')) {k : Bytes}
    (hk : a'.applied.contains k = true) : a.applied.contains k = true ∨ k = mutationKey m.id := by
  have hrecord : ∀ s : Store, (({ a with store := s } : Applier).record m).applied.contains k =
      true →
      a.applied.contains k = true ∨ k = mutationKey m.id := by
    intro s hs
    exact (Rows.contains_insert_iff.mp hs).symm.imp id Eq.symm
  unfold Applier.apply at h
  split at h
  · cases h
    exact .inl hk
  · split at h
    · cases h
      exact hrecord a.store hk
    · obtain ⟨s, -, heq⟩ := Option.map_eq_some_iff.mp h
      cases heq
      exact hrecord s hk

/-- A mutation is passed over only when its key was noted. -/
theorem Applier.applied_of_replay {policyFor : Bytes → Policy} {a a' : Applier}
    {m : GlobalMutation} (h : a.apply policyFor m = some (false, a')) :
    a.applied.contains (mutationKey m.id) = true := by
  unfold Applier.apply at h
  split at h
  · assumption
  · split at h
    · cases h
    · obtain ⟨s, -, heq⟩ := Option.map_eq_some_iff.mp h
      cases heq

/-! ## Invariant -/

/-- A receiver's store reflects issued records, and every id it has seen is one
of theirs. -/
def Receiver.Faithful (issued : List StoredRecord) (rcv : Receiver) : Prop :=
  ∃ S : Set StoredRecord, (∀ r ∈ S, r ∈ issued) ∧ Reflects rcv.store S ∧
    ∀ id v, rcv.idem.seen[id]? = some v → ∃ r ∈ S, r.version.mutationID = id

/-- What the member has issued is its own, under distinct numbers no higher than
its sequencer, and what its peers have noted is from that. -/
structure Peers.Sound (clusterID memberID : Bytes) (st : Peers) : Prop where
  name : st.member.clusterID = clusterID ∧ st.member.memberID = memberID
  own : ∀ r ∈ st.issued, r.version.writerClusterID = clusterID ∧
    r.version.writerMemberID = memberID ∧ PlainNamespace r.ns
  below : ∀ r ∈ st.issued, r.version.writerSequence.toNat ≤ st.member.seq.last.toNat
  distinct : (st.issued.map fun r => r.version.writerSequence).Nodup
  received : ∀ i, (st.receivers i).Faithful st.issued
  shipped : ∀ i, ∀ r ∈ st.shipped i, r ∈ st.issued
  applied : ∀ i k, (st.appliers i).applied.contains k = true →
    ∃ r ∈ st.shipped i, mutationKey (mutationOf r).id = k

theorem Peers.sound_init (clusterID memberID : Bytes) (names : Nat → Bytes × Bytes) :
    (Peers.init clusterID memberID names).Sound clusterID memberID where
  name := ⟨rfl, rfl⟩
  own := by simp [Peers.init]
  below := by simp [Peers.init]
  distinct := List.nodup_nil
  received i := ⟨∅, by simp, Reflects.newStore _ _ _ _, by simp [Peers.init]⟩
  shipped := by simp [Peers.init]
  applied := by simp [Peers.init]

namespace Peers.Sound

variable {clusterID memberID : Bytes} {st : Peers}

/-- A number names one of the issued records. -/
theorem unique (h : st.Sound clusterID memberID) {r q : StoredRecord} (hr : r ∈ st.issued)
    (hq : q ∈ st.issued) (hseq : r.version.writerSequence = q.version.writerSequence) : r = q :=
  List.inj_on_of_nodup_map h.distinct hr hq hseq

/-- What a member issued is consistent. -/
theorem consistent (h : st.Sound clusterID memberID) {S : Set StoredRecord}
    (hS : ∀ r ∈ S, r ∈ st.issued) : Consistent S := by
  rintro ns key r ⟨hr, -⟩ q ⟨hq, -⟩ hv
  exact h.unique (hS r hr) (hS q hq) (by rw [hv])

/-- A copy of an issued record is acknowledged, and then the receiver holds it or
something newer. -/
theorem replicate (h : st.Sound clusterID memberID) (i : Nat) {r : StoredRecord}
    (hr : r ∈ st.issued) :
    ∃ resp rcv, (st.receivers i).apply (buildRequest r) = some (resp, rcv) ∧
      resp.durable = true ∧ rcv.Faithful st.issued ∧
      ∃ lp, rcv.store.pointer? r.ns r.logicalKey = some lp ∧ r.version ≤ lp.winner := by
  obtain ⟨S, hS, hrefl, hseen⟩ := h.received i
  cases hcheck : (st.receivers i).idem.check (buildRequest r).mutationId with
  | some v =>
    -- the id was seen, and it is this record's
    refine ⟨⟨true, v⟩, st.receivers i, by rw [Receiver.apply, hcheck], rfl,
      ⟨S, hS, hrefl, hseen⟩, ?_⟩
    obtain ⟨q, hq, hid⟩ := hseen _ v hcheck
    obtain ⟨hqc, hqm, -⟩ := h.own q (hS q hq)
    obtain ⟨hrc, hrm, -⟩ := h.own r hr
    have hqr : q = r := h.unique (hS q hq) hr
      (mutationID_inj (hqc.trans hrc.symm) (hqm.trans hrm.symm) hid)
    exact hqr ▸ hrefl.holds hq
  | none =>
    have hins : ∀ q ∈ insert r S, q ∈ st.issued := by
      rintro q (rfl | hq)
      · exact hr
      · exact hS q hq
    obtain ⟨v, s', happ, hrefl'⟩ := hrefl.apply (h.own r hr).2.2
      (fun q hq => (h.own q (hS q hq)).2.2) (h.consistent hins)
      (if r.tombstone then .delete else .put)
    refine ⟨⟨true, v⟩, ⟨s', (st.receivers i).idem.record r.version.mutationID r.version⟩, ?_, rfl,
      ⟨insert r S, hins, hrefl', ?_⟩, hrefl'.holds (Set.mem_insert _ _)⟩
    · rw [Receiver.apply, hcheck]
      exact congrArg (Option.map _) happ
    · intro id w hw
      rcases Idempotency.seen_record hw with hold | ⟨rfl, -⟩
      · obtain ⟨q, hq, hid⟩ := hseen id w hold
        exact ⟨q, Set.mem_insert_of_mem _ hq, hid⟩
      · exact ⟨r, Set.mem_insert _ _, rfl⟩

/-- An applier passes over only what it has taken. -/
theorem ship (h : st.Sound clusterID memberID) {policyFor : Bytes → Policy} {i : Nat}
    {r : StoredRecord} {a : Applier} (hr : r ∈ st.issued)
    (happ : (st.appliers i).apply policyFor (mutationOf r) = some (false, a)) :
    r ∈ st.shipped i := by
  obtain ⟨q, hq, hkey⟩ := h.applied i _ (Applier.applied_of_replay happ)
  obtain ⟨hqc, hqm, -⟩ := h.own q (h.shipped i q hq)
  obtain ⟨hrc, hrm, -⟩ := h.own r hr
  have hqr : q = r := h.unique (h.shipped i q hq) hr
    (mutationKey_inj (hqc.trans hrc.symm) (hqm.trans hrm.symm) hkey)
  exact hqr ▸ hq

/-- A write of the member. -/
theorem originate (h : st.Sound clusterID memberID) {policyFor : Bytes → Policy}
    {wall expiryWall : UInt64} {ns key value : Bytes} {tombstone : Bool} {ttlMs : Option Int64}
    (hns : PlainNamespace ns) (hroom : st.member.seq.last.toNat + 1 < 2 ^ 64) :
    (st.step policyFor (.originate wall expiryWall ns key value tombstone ttlMs)).Sound
      clusterID memberID := by
  obtain ⟨⟨hseq, hcl, hmem⟩, hrec⟩ :=
    st.member.write_origin wall expiryWall ns key value tombstone ttlMs
  have hnext : (st.member.seq.last + 1).toNat = st.member.seq.last.toNat + 1 := by
    rw [UInt64.toNat_add]
    exact Nat.mod_eq_of_lt hroom
  -- what is issued now is an old record or the new one, under the next number
  have hmemb : ∀ r ∈ st.issued ++
      (st.member.write wall expiryWall ns key value tombstone ttlMs).1.toList, r ∈ st.issued ∨
        (r.ns = ns ∧ r.version.writerClusterID = st.member.clusterID ∧
          r.version.writerMemberID = st.member.memberID ∧
          r.version.writerSequence = st.member.seq.last + 1) := by
    intro r hr
    rcases List.mem_append.mp hr with hold | hnew
    · exact .inl hold
    · obtain ⟨hn, -, hc, hm, hs⟩ := hrec r (Option.mem_toList.mp hnew)
      exact .inr ⟨hn, hc, hm, hs⟩
  constructor
  · exact ⟨hcl.trans h.name.1, hmem.trans h.name.2⟩
  · intro r hr
    rcases hmemb r hr with hold | ⟨hn, hc, hm, -⟩
    · exact h.own r hold
    · exact ⟨hc.trans h.name.1, hm.trans h.name.2, hn ▸ hns⟩
  · intro r hr
    show r.version.writerSequence.toNat ≤ (Store.write ..).2.seq.last.toNat
    rw [hseq, hnext]
    rcases hmemb r hr with hold | ⟨-, -, -, hs⟩
    · exact (h.below r hold).trans (Nat.le_succ _)
    · rw [hs, hnext]
  · show ((st.issued ++ Option.toList _).map _).Nodup
    rw [List.map_append]
    refine List.Nodup.append h.distinct ?_ ?_
    · cases (st.member.write wall expiryWall ns key value tombstone ttlMs).1 <;> simp
    · -- the new number is above all the old ones
      intro n hold hnew
      obtain ⟨r, hr, rfl⟩ := List.mem_map.mp hold
      obtain ⟨q, hq, hqr⟩ := List.mem_map.mp hnew
      obtain ⟨-, -, -, -, hs⟩ := hrec q (Option.mem_toList.mp hq)
      have hle := h.below r hr
      rw [← hqr, hs, hnext] at hle
      omega
  · intro i
    obtain ⟨S, hS, hrefl, hseen⟩ := h.received i
    exact ⟨S, fun r hr => List.mem_append_left _ (hS r hr), hrefl, hseen⟩
  · exact fun i r hr => List.mem_append_left _ (h.shipped i r hr)
  · exact h.applied

/-- A restart above what was issued. -/
theorem restart (h : st.Sound clusterID memberID) {policyFor : Bytes → Policy} {start : UInt64}
    (hstart : ∀ r ∈ st.issued, r.version.writerSequence.toNat ≤ start.toNat) :
    (st.step policyFor (.restart start)).Sound clusterID memberID where
  name := h.name
  own := h.own
  below := hstart
  distinct := h.distinct
  received := h.received
  shipped := h.shipped
  applied := h.applied

/-- One event that fits. -/
theorem step (h : st.Sound clusterID memberID) {policyFor : Bytes → Policy} {e : PeersEvent}
    (hfits : st.Fits e) : (st.step policyFor e).Sound clusterID memberID := by
  cases e with
  | originate wall expiryWall ns key value tombstone ttlMs => exact h.originate hfits.1 hfits.2
  | restart start => exact h.restart hfits
  | replicate i n =>
    cases hn : st.issued[n]? with
    | none =>
      have hstep : st.step policyFor (.replicate i n) = st := by simp [Peers.step, hn]
      rw [hstep]
      exact h
    | some r =>
      obtain ⟨resp, rcv, happ, -, hfaith, -⟩ := h.replicate i (List.mem_of_getElem? hn)
      have hstep : st.step policyFor (.replicate i n) =
          { st with receivers := Function.update st.receivers i rcv } := by
        simp [Peers.step, hn, happ]
      rw [hstep]
      refine ⟨h.name, h.own, h.below, h.distinct, fun j => ?_, h.shipped, h.applied⟩
      show (Function.update st.receivers i rcv j).Faithful st.issued
      by_cases hj : j = i
      · subst hj
        rw [Function.update_self]
        exact hfaith
      · rw [Function.update_of_ne hj]
        exact h.received j
  | ship i n =>
    cases hn : st.issued[n]? with
    | none =>
      have hstep : st.step policyFor (.ship i n) = st := by simp [Peers.step, hn]
      rw [hstep]
      exact h
    | some r =>
      cases happ : (st.appliers i).apply policyFor (mutationOf r) with
      | none =>
        have hstep : st.step policyFor (.ship i n) = st := by simp [Peers.step, hn, happ]
        rw [hstep]
        exact h
      | some p =>
        have hstep : st.step policyFor (.ship i n) =
            { st with
              appliers := Function.update st.appliers i p.2,
              shipped := Function.update st.shipped i (st.shipped i ++ [r]) } := by
          simp [Peers.step, hn, happ]
        rw [hstep]
        refine ⟨h.name, h.own, h.below, h.distinct, h.received, fun j q hq => ?_,
          fun j k hk => ?_⟩
        · by_cases hj : j = i
          · subst hj
            simp only [Function.update_self, List.mem_append, List.mem_singleton] at hq
            rcases hq with hq | rfl
            · exact h.shipped j q hq
            · exact List.mem_of_getElem? hn
          · simp only [Function.update_of_ne hj] at hq
            exact h.shipped j q hq
        · by_cases hj : j = i
          · subst hj
            simp only [Function.update_self] at hk ⊢
            rcases Applier.applied_apply happ hk with hold | rfl
            · obtain ⟨q, hq, hkey⟩ := h.applied j k hold
              exact ⟨q, List.mem_append_left _ hq, hkey⟩
            · exact ⟨r, by simp, rfl⟩
          · simp only [Function.update_of_ne hj] at hk ⊢
            exact h.applied j k hk

end Peers.Sound

/-- In every run in which a start resumes at or above the last number issued: no
two mutations the member has originated carry the same id; a copy of any of them
is acknowledged as durable, and then its receiver holds that version or a newer
one; and an applier never passes over a mutation it has not taken. -/
theorem identity_unique (policyFor : Bytes → Policy) (clusterID memberID : Bytes)
    (names : Nat → Bytes × Bytes) (run : List PeersEvent)
    (hfits : Along (Peers.step policyFor) Peers.Fits (Peers.init clusterID memberID names) run) :
    let st := run.foldl (Peers.step policyFor) (Peers.init clusterID memberID names)
    (st.issued.map fun r => (mutationOf r).id).Nodup ∧
      (∀ i, ∀ r ∈ st.issued, ∃ resp rcv,
        (st.receivers i).apply (buildRequest r) = some (resp, rcv) ∧ resp.durable = true ∧
          ∃ lp, rcv.store.pointer? r.ns r.logicalKey = some lp ∧ r.version ≤ lp.winner) ∧
      ∀ i, ∀ r ∈ st.issued, r ∉ st.shipped i → ∀ b a,
        (st.appliers i).apply policyFor (mutationOf r) = some (b, a) → b = true := by
  intro st
  have hs : st.Sound clusterID memberID :=
    hfits.invariant (fun _ _ h hok => h.step hok) (Peers.sound_init clusterID memberID names)
  refine ⟨?_, ?_, ?_⟩
  · have hseq : (st.issued.map fun r => (mutationOf r).id).map GlobalMutationId.writerSequence =
        st.issued.map fun r => r.version.writerSequence := by simp [mutationOf]
    exact List.Nodup.of_map GlobalMutationId.writerSequence (hseq ▸ hs.distinct)
  · intro i r hr
    obtain ⟨resp, rcv, happ, hdur, -, hholds⟩ := hs.replicate i hr
    exact ⟨resp, rcv, happ, hdur, hholds⟩
  · intro i r hr hnew b a happ
    cases b with
    | true => rfl
    | false => exact absurd (hs.ship hr happ) hnew

/-- A member that resumes at its last number: the second life's record is stored
by the receiver that knows the first life's. -/
theorem identity_unique_resumed :
    let st := [PeersEvent.originate 1000 1000 [0x6e] [0x61] [0x31] false none, .replicate 0 0,
      .restart 1, .originate 2000 2000 [0x6e] [0x62] [0x32] false none].foldl
        (Peers.step fun _ => .hlcLastWriteWins) (Peers.init [0x63] [0x6d] fun _ => ([0x63], [0x72]))
    ∀ r ∈ st.issued, ∃ resp rcv, (st.receivers 0).apply (buildRequest r) = some (resp, rcv) ∧
      resp.durable = true ∧
        ∃ lp, rcv.store.pointer? r.ns r.logicalKey = some lp ∧ r.version ≤ lp.winner :=
  (identity_unique (fun _ => .hlcLastWriteWins) [0x63] [0x6d] (fun _ => ([0x63], [0x72]))
    [PeersEvent.originate 1000 1000 [0x6e] [0x61] [0x31] false none, .replicate 0 0,
      .restart 1, .originate 2000 2000 [0x6e] [0x62] [0x32] false none] (by decide +kernel)).2.1 0

/-- A member writes key `a`, crashes, starts again as the node does and writes key
`b`. The two mutations have one id; the receiver that stored the first
acknowledges the second as durable and has nothing under `b`; and the applier that
took the first reports the second as applied already. -/
theorem identity_reused :
    let st := [PeersEvent.originate 1000 1000 [0x6e] [0x61] [0x31] false none, .replicate 0 0,
      .ship 0 0, .restart 0, .originate 2000 2000 [0x6e] [0x62] [0x32] false none].foldl
        (Peers.step fun _ => .hlcLastWriteWins) (Peers.init [0x63] [0x6d] fun _ => ([0x63], [0x72]))
    st.issued.map (·.logicalKey) = [[0x61], [0x62]] ∧
      ¬ (st.issued.map fun r => (mutationOf r).id).Nodup ∧
      (st.issued[1]?.bind fun r => ((st.receivers 0).apply (buildRequest r)).map fun p =>
        (p.1.durable, p.2.store.pointer? r.ns r.logicalKey)) = some (true, none) ∧
      (st.shipped 0).map (·.logicalKey) = [[0x61]] ∧
      (st.issued[1]?.bind fun r =>
        ((st.appliers 0).apply (fun _ => .hlcLastWriteWins) (mutationOf r)).map (·.1)) =
          some false := by
  decide +kernel

end WaveSpan.Records
