/-
WaveSpan.Records.Receiver — where records come from and where they are copied to
(`internal/kv/coordinator.go` `write`, `internal/replication/local/store_replica.go`,
`internal/replication/local/idempotency.go`).

A member originates a record by stamping a version, building the record and
storing it (`Store.write`). A copy is sent to other members, whose `Receiver`
stores it and acknowledges. Repetitions are recognised by the mutation's identity
in a bounded cache (`Idempotency`): a hit is acknowledged without a look at the
store.
-/
import WaveSpan.Records.Converge

namespace WaveSpan.Records

open WaveSpan.Wire WaveSpan.Collections

/-! ## Originating -/

/-- The local part of a coordinated write: the record stored, if it could be. The
clock is read for the version and once more for an expiry. -/
def Store.write (s : Store) (wall expiryWall : UInt64) (ns key value : Bytes) (tombstone : Bool)
    (ttlMs : Option Int64) : Option StoredRecord × Store :=
  let stamped := s.nextVersion wall
  let built := stamped.2.buildRecord expiryWall ns key value stamped.1 tombstone ttlMs
  match built.2.apply built.1 (if tombstone then .delete else .put) with
  | some (_, s') => (some built.1, s')
  | none => (none, built.2)

/-- What a record takes from the version stamped for it. -/
theorem Store.buildRecord_fields (s : Store) (wall : UInt64) (ns key value : Bytes) (v : Version)
    (tombstone : Bool) (ttlMs : Option Int64) :
    (s.buildRecord wall ns key value v tombstone ttlMs).1.ns = ns ∧
      (s.buildRecord wall ns key value v tombstone ttlMs).1.logicalKey = key ∧
      (s.buildRecord wall ns key value v tombstone ttlMs).1.version = v ∧
      (s.buildRecord wall ns key value v tombstone ttlMs).2.seq = s.seq ∧
      (s.buildRecord wall ns key value v tombstone ttlMs).2.clusterID = s.clusterID ∧
      (s.buildRecord wall ns key value v tombstone ttlMs).2.memberID = s.memberID := by
  unfold Store.buildRecord
  cases ttlMs with
  | none => exact ⟨rfl, rfl, rfl, rfl, rfl, rfl⟩
  | some ttl => exact ⟨rfl, rfl, rfl, rfl, rfl, rfl⟩

/-- Storing a record leaves the sequencer and the names alone. -/
theorem Store.apply_origin {s s' : Store} {rec : StoredRecord} {kind : MutationKind} {v : Version}
    (h : s.apply rec kind = some (v, s')) :
    s'.seq = s.seq ∧ s'.clusterID = s.clusterID ∧ s'.memberID = s.memberID := by
  obtain ⟨sel, -, heq⟩ := Option.map_eq_some_iff.mp h
  cases heq
  exact ⟨rfl, rfl, rfl⟩

/-- A write takes the next sequence number, and its record carries it. -/
theorem Store.write_origin (s : Store) (wall expiryWall : UInt64) (ns key value : Bytes)
    (tombstone : Bool) (ttlMs : Option Int64) :
    ((s.write wall expiryWall ns key value tombstone ttlMs).2.seq.last = s.seq.last + 1 ∧
        (s.write wall expiryWall ns key value tombstone ttlMs).2.clusterID = s.clusterID ∧
        (s.write wall expiryWall ns key value tombstone ttlMs).2.memberID = s.memberID) ∧
      ∀ r, (s.write wall expiryWall ns key value tombstone ttlMs).1 = some r →
        r.ns = ns ∧ r.logicalKey = key ∧ r.version.writerClusterID = s.clusterID ∧
          r.version.writerMemberID = s.memberID ∧ r.version.writerSequence = s.seq.last + 1 := by
  obtain ⟨hns, hkey, hver, hseq, hcl, hmem⟩ := (s.nextVersion wall).2.buildRecord_fields expiryWall
    ns key value (s.nextVersion wall).1 tombstone ttlMs
  unfold Store.write
  simp only
  cases happ : ((s.nextVersion wall).2.buildRecord expiryWall ns key value (s.nextVersion wall).1
      tombstone ttlMs).2.apply _ (if tombstone then .delete else .put) with
  | none =>
    refine ⟨⟨by rw [hseq]; rfl, by rw [hcl]; rfl, by rw [hmem]; rfl⟩, fun r hr => ?_⟩
    cases hr
  | some p =>
    obtain ⟨hs, hc, hm⟩ := Store.apply_origin happ
    refine ⟨⟨by rw [hs, hseq]; rfl, by rw [hc, hcl]; rfl, by rw [hm, hmem]; rfl⟩, fun r hr => ?_⟩
    cases hr
    exact ⟨hns, hkey, by rw [hver]; rfl, by rw [hver]; rfl, by rw [hver]; rfl⟩

/-! ## Receiving -/

/-- A bounded cache of mutation ids, the oldest dropped when it is full. -/
structure Idempotency where
  seen : GoMap Version := ∅
  order : List Bytes := []
  cap : Nat := 8192

namespace Idempotency

def check (i : Idempotency) (mutationID : Bytes) : Option Version := i.seen[mutationID]?

def record (i : Idempotency) (mutationID : Bytes) (v : Version) : Idempotency :=
  if i.seen.contains mutationID then i
  else
    let room :=
      match i.order with
      | oldest :: order =>
        if i.cap ≤ i.order.length then { i with order, seen := i.seen.erase oldest } else i
      | [] => i
    { room with seen := room.seen.insert mutationID v, order := room.order ++ [mutationID] }

/-- Recording an id adds its version and nothing else. -/
theorem seen_record {i : Idempotency} {id k : Bytes} {v w : Version}
    (h : (i.record id v).seen[k]? = some w) : i.seen[k]? = some w ∨ k = id ∧ w = v := by
  unfold record at h
  split at h
  · exact .inl h
  · rcases Rows.getElem?_insert_cases h with hold | hnew
    · left
      split at hold
      · split at hold
        · exact Rows.getElem?_of_erase hold
        · exact hold
      · exact hold
    · exact .inr hnew

end Idempotency

structure StoreReplicaRequest where
  ns : Bytes
  key : Bytes
  record : StoredRecord
  mutationId : Bytes

def buildRequest (r : StoredRecord) : StoreReplicaRequest :=
  { ns := r.ns, key := r.logicalKey, record := r, mutationId := r.version.mutationID }

structure StoreReplicaResponse where
  durable : Bool
  appliedVersion : Version
  deriving DecidableEq, Repr

structure Receiver where
  store : Store
  idem : Idempotency := {}

/-- Stores a copy, unless its mutation was seen before; `none` when the store
fails. -/
def Receiver.apply (r : Receiver) (req : StoreReplicaRequest) :
    Option (StoreReplicaResponse × Receiver) :=
  match r.idem.check req.mutationId with
  | some v => some (⟨true, v⟩, r)
  | none =>
    (r.store.apply req.record (if req.record.tombstone then .delete else .put)).map fun p =>
      (⟨true, p.1⟩,
        { store := p.2, idem := r.idem.record req.mutationId req.record.version })

/-- What applying a record leaves holds after a call, unless the receiver had seen the
mutation and it did not hold before. -/
theorem Receiver.apply_rule {r r' : Receiver} {req : StoreReplicaRequest}
    {resp : StoreReplicaResponse} {P : Store → Prop}
    (happly : ∀ {kind v s'}, r.store.apply req.record kind = some (v, s') → P s')
    (h : r.apply req = some (resp, r')) :
    P r'.store ↔ ((r.idem.check req.mutationId).isSome → P r.store) := by
  unfold Receiver.apply at h
  split at h
  · rename_i v hcheck
    cases h
    simp [hcheck]
  · rename_i hcheck
    obtain ⟨⟨v, s'⟩, hs', heq⟩ := Option.map_eq_some_iff.mp h
    cases heq
    simp [hcheck, happly hs']

/-- A copy that is answered is durable. -/
theorem Receiver.durable_apply {r r' : Receiver} {req : StoreReplicaRequest}
    {resp : StoreReplicaResponse} (h : r.apply req = some (resp, r')) : resp.durable = true := by
  unfold Receiver.apply at h
  split at h
  · cases h
    rfl
  · obtain ⟨p, -, heq⟩ := Option.map_eq_some_iff.mp h
    cases heq
    rfl

/-! ## A store that reflects what it was given -/

/-- The version of every record given, or a newer one, is what its key holds. -/
theorem Reflects.holds {s : Store} {S : Set StoredRecord} (h : Reflects s S) {r : StoredRecord}
    (hr : r ∈ S) :
    ∃ lp, s.pointer? r.ns r.logicalKey = some lp ∧ r.version ≤ lp.winner := by
  have hsome : ∃ w, WinnerOf S r.ns r.logicalKey w :=
    h.exists_winnerOf ⟨r, mem_keyed_self.mpr hr⟩
  obtain ⟨w, hw⟩ := hsome
  refine ⟨pointerOf w, ?_, hw.le (mem_keyed_self.mpr hr)⟩
  rw [Store.pointer?, h.pointer hw]
  rfl

end WaveSpan.Records
