/-
WaveSpan.Records.MinAck — a write acknowledged by the origin and `minAck` others
(`internal/kv/coordinator.go`, `write`, `replicateMinAck`).

`replicateMinAck` calls the first `minAck` candidates at once and one more for every call
that fails, reads results in the order they come, and returns when it has enough
acknowledgements or no call is out. The order is a list of choices among the calls that are
out. In every order the calls read and the calls out are the candidates called, each once,
and acknowledgements and calls out make up `minAck` until the candidates are used up
(`Gathering`). So a loop that ends with enough acknowledgements has no call out, and those it
read are the first `minAck` candidates that acknowledge, in whatever order they came
(`Gathering.acknowledgers`).

What an acknowledgement says of the member is up to its receiver. A receiver that has seen
the record's mutation id acknowledges without storing, and ids come again when the origin's
sequencer starts again at zero: a write can then succeed with no other member holding its
record (`write_unheld`).
-/
import WaveSpan.Records.Receiver

namespace WaveSpan.Records

open WaveSpan.Wire WaveSpan.Collections

/-- A member a record may be copied to. -/
structure Candidate where
  memberID : Bytes
  geoSpillover : Bool := false
  deriving DecidableEq, Repr

/-- The variables of the loop; `unread` are the calls whose results have not been
received, `read` those whose have. -/
structure Gather where
  next : Nat := 0
  inflight : Nat := 0
  acked : Nat := 0
  spill : Bool := false
  unread : List Candidate := []
  read : List Candidate := []
  deriving DecidableEq, Repr

namespace Gather

def launch (cands : List Candidate) (g : Gather) : Gather :=
  match cands[g.next]? with
  | some c =>
    { g with next := g.next + 1, inflight := g.inflight + 1, unread := g.unread ++ [c] }
  | none => g

/-- The calls made before any result is read. -/
def launchFirst (cands : List Candidate) (need : Int) : Nat → Gather → Gather
  | 0, g => g
  | fuel + 1, g =>
    if g.inflight < need ∧ g.next < cands.length then
      launchFirst cands need fuel (g.launch cands)
    else g

def receive (cands : List Candidate) (ok : Candidate → Bool) (g : Gather) (c : Candidate) :
    Gather :=
  let g := { g with inflight := g.inflight - 1, unread := g.unread.erase c, read := g.read ++ [c] }
  if ok c then { g with acked := g.acked + 1, spill := g.spill || c.geoSpillover }
  else if g.next < cands.length then g.launch cands
  else g

def Returned (need : Int) (g : Gather) : Prop := g.inflight = 0 ∨ need ≤ g.acked

instance (need : Int) (g : Gather) : Decidable (g.Returned need) :=
  inferInstanceAs (Decidable (_ ∨ _))

/-- One round of the loop: the result that comes next is the chosen one of those out. -/
def step (cands : List Candidate) (need : Int) (ok : Candidate → Bool) (g : Gather)
    (choice : Nat) : Gather :=
  if g.Returned need then g
  else
    match g.unread[choice % g.unread.length]? with
    | some c => g.receive cands ok c
    | none => g

end Gather

/-- The loop after some results have come, each a choice among the calls that were out. -/
def replicateMinAck (cands : List Candidate) (need : Int) (ok : Candidate → Bool)
    (choices : List Nat) : Gather :=
  if need ≤ 0 then {}
  else choices.foldl (Gather.step cands need ok) (Gather.launchFirst cands need cands.length {})

/-! ## What holds of the loop -/

namespace Gather

variable {cands : List Candidate} {need : Int} {ok : Candidate → Bool} {g : Gather}

/-- Before any result is read. -/
structure Launched (cands : List Candidate) (need : Int) (g : Gather) : Prop where
  inflight : g.inflight = g.next
  unread : g.unread = cands.take g.next
  next_le : g.next ≤ cands.length
  next_need : g.next ≤ need.toNat
  fresh : g.acked = 0 ∧ g.spill = false ∧ g.read = []

/-- Calls go out to as many as are needed. -/
theorem launched_launchFirst {fuel : Nat} (h : g.Launched cands need)
    (hfuel : cands.length ≤ g.next + fuel) :
    (launchFirst cands need fuel g).Launched cands need ∧
      ((launchFirst cands need fuel g).next = cands.length ∨
        (launchFirst cands need fuel g).next = need.toNat) := by
  induction fuel generalizing g with
  | zero => exact ⟨h, .inl (le_antisymm h.next_le hfuel)⟩
  | succ fuel ih =>
    rw [launchFirst]
    have hinflight := h.inflight
    have hneed := h.next_need
    split
    · rename_i hmore
      have hget : cands[g.next]? = some cands[g.next] := List.getElem?_eq_getElem hmore.2
      have hlaunch : g.launch cands =
          { g with next := g.next + 1, inflight := g.inflight + 1,
                   unread := g.unread ++ [cands[g.next]] } := by
        rw [launch, hget]
      rw [hlaunch]
      refine ih ⟨?_, ?_, ?_, ?_, h.fresh⟩ ?_
      · show g.inflight + 1 = g.next + 1
        omega
      · show g.unread ++ [cands[g.next]] = cands.take (g.next + 1)
        rw [h.unread, List.take_succ_eq_append_getElem hmore.2]
      · exact hmore.2
      · show g.next + 1 ≤ need.toNat
        omega
      · show cands.length ≤ g.next + 1 + fuel
        omega
    · rename_i hstop
      refine ⟨h, ?_⟩
      have := h.next_le
      omega

/-- The calls read and the calls out are the candidates called, each once; the counters
count them; a candidate beyond the first `need` is called for a failure read; and
acknowledgements and calls out make up `need` until the candidates are used up. -/
structure Gathering (cands : List Candidate) (need : Int) (ok : Candidate → Bool) (g : Gather) :
    Prop where
  inflight : g.inflight = g.unread.length
  called : (g.read ++ g.unread).Perm (cands.take g.next)
  next_le : g.next ≤ cands.length
  acked : g.acked = (g.read.filter ok).length
  spill : g.spill = g.read.any fun c => ok c && c.geoSpillover
  failures : g.next ≤ need.toNat + (g.read.filter fun c => !ok c).length
  full : g.next = cands.length ∨ g.acked + g.inflight = need.toNat
  bound : g.acked + g.inflight ≤ need.toNat

theorem Launched.gathering (h : g.Launched cands need)
    (hfull : g.next = cands.length ∨ g.next = need.toNat) : g.Gathering cands need ok := by
  obtain ⟨hacked, hspill, hread⟩ := h.fresh
  refine ⟨?_, ?_, h.next_le, ?_, ?_, ?_, ?_, ?_⟩
  · rw [h.inflight, h.unread, List.length_take, Nat.min_eq_left h.next_le]
  · rw [hread, h.unread, List.nil_append]
  · rw [hacked, hread]
    rfl
  · rw [hspill, hread]
    rfl
  · rw [hread]
    exact h.next_need
  · rw [hacked, h.inflight, Nat.zero_add]
    exact hfull
  · rw [hacked, h.inflight, Nat.zero_add]
    exact h.next_need

/-- A result that has come is counted, and a failure replaced. -/
theorem Gathering.receive (h : g.Gathering cands need ok) {c : Candidate} (hc : c ∈ g.unread) :
    (g.receive cands ok c).Gathering cands need ok ∧
      (g.receive cands ok c).read = g.read ++ [c] := by
  have hinflight := h.inflight
  have hlength := List.length_erase_of_mem hc
  have hpos := List.length_pos_of_mem hc
  have hbound := h.bound
  have hmoved : ((g.read ++ [c]) ++ g.unread.erase c).Perm (cands.take g.next) := by
    refine List.Perm.trans ?_ h.called
    rw [List.append_assoc]
    exact (List.perm_cons_erase hc).symm.append_left g.read
  unfold Gather.receive
  simp only
  cases hok : ok c with
  | true =>
    refine ⟨⟨?_, hmoved, h.next_le, ?_, ?_, ?_, ?_, ?_⟩, rfl⟩
    · show g.inflight - 1 = (g.unread.erase c).length
      omega
    · show g.acked + 1 = ((g.read ++ [c]).filter ok).length
      simp [h.acked, hok]
    · show (g.spill || c.geoSpillover) = _
      simp [h.spill, hok]
    · show g.next ≤ _
      simpa [hok] using h.failures
    · show g.next = _ ∨ g.acked + 1 + (g.inflight - 1) = _
      have := h.full
      omega
    · show g.acked + 1 + (g.inflight - 1) ≤ _
      omega
  | false =>
    have hacked : g.acked = ((g.read ++ [c]).filter ok).length := by simp [h.acked, hok]
    have hspill : g.spill = (g.read ++ [c]).any fun c => ok c && c.geoSpillover := by
      simp [h.spill, hok]
    have hfailures : g.next + 1 ≤
        need.toNat + ((g.read ++ [c]).filter fun c => !ok c).length := by
      have := h.failures
      simp [hok]
      omega
    simp only [Bool.false_eq_true, if_false]
    split
    · rename_i hmore
      have hget : cands[g.next]? = some cands[g.next] := List.getElem?_eq_getElem hmore
      unfold launch
      simp only [hget]
      refine ⟨⟨?_, ?_, hmore, hacked, hspill, hfailures, ?_, ?_⟩, trivial⟩
      · show g.inflight - 1 + 1 = (g.unread.erase c ++ [cands[g.next]]).length
        rw [List.length_append, List.length_singleton]
        omega
      · show ((g.read ++ [c]) ++ (g.unread.erase c ++ [cands[g.next]])).Perm
          (cands.take (g.next + 1))
        rw [← List.append_assoc, List.take_succ_eq_append_getElem hmore]
        exact hmoved.append_right _
      · show g.next + 1 = _ ∨ g.acked + (g.inflight - 1 + 1) = _
        have := h.full
        omega
      · show g.acked + (g.inflight - 1 + 1) ≤ _
        omega
    · rename_i hlast
      refine ⟨⟨?_, hmoved, h.next_le, hacked, hspill, Nat.le_of_succ_le hfailures, .inl ?_, ?_⟩,
        rfl⟩
      · show g.inflight - 1 = (g.unread.erase c).length
        omega
      · show g.next = cands.length
        have := h.next_le
        omega
      · show g.acked + (g.inflight - 1) ≤ _
        omega

/-- One round keeps it, and reads a result unless the loop is at its end. -/
theorem Gathering.step (h : g.Gathering cands need ok) (choice : Nat) :
    (g.step cands need ok choice).Gathering cands need ok ∧
      (g.Returned need ∧ g.step cands need ok choice = g ∨
        (g.step cands need ok choice).read.length = g.read.length + 1) := by
  unfold Gather.step
  split
  · rename_i hret
    exact ⟨h, .inl ⟨hret, rfl⟩⟩
  · rename_i hret
    have hpos : 0 < g.unread.length := by
      rw [← h.inflight]
      exact Nat.pos_of_ne_zero fun h0 => hret (.inl h0)
    have hlt := Nat.mod_lt choice hpos
    rw [List.getElem?_eq_getElem hlt]
    obtain ⟨hinv, hread⟩ := h.receive (List.getElem_mem hlt)
    refine ⟨hinv, .inr ?_⟩
    simp only
    rw [hread, List.length_append, List.length_singleton]

/-- Results that come later are not read. -/
theorem foldl_step_returned (h : g.Returned need) (choices : List Nat) :
    choices.foldl (Gather.step cands need ok) g = g := by
  induction choices with
  | nil => rfl
  | cons choice choices ih => rw [List.foldl_cons, Gather.step, if_pos h, ih]

/-- Over any results, the loop has returned or has read them all. -/
theorem Gathering.run (h : g.Gathering cands need ok) (choices : List Nat) :
    (choices.foldl (Gather.step cands need ok) g).Gathering cands need ok ∧
      ((choices.foldl (Gather.step cands need ok) g).Returned need ∨
        g.read.length + choices.length ≤
          (choices.foldl (Gather.step cands need ok) g).read.length) := by
  induction choices generalizing g with
  | nil => exact ⟨h, .inr (le_refl _)⟩
  | cons choice choices ih =>
    obtain ⟨hstep, hmoved⟩ := h.step choice
    obtain ⟨hrun, hprogress⟩ := ih hstep
    refine ⟨hrun, ?_⟩
    rw [List.foldl_cons]
    rcases hprogress with hret | hread
    · exact .inl hret
    · rcases hmoved with ⟨hret, hsame⟩ | hone
      · left
        rw [hsame, foldl_step_returned hret]
        exact hret
      · right
        rw [List.length_cons]
        omega

end Gather

section
variable {cands : List Candidate} {need : Int} {ok : Candidate → Bool} {choices : List Nat}

/-- A write gathers until it returns. -/
theorem gathering_replicateMinAck (hneed : 0 < need) :
    (replicateMinAck cands need ok choices).Gathering cands need ok ∧
      ((replicateMinAck cands need ok choices).Returned need ∨
        choices.length ≤ (replicateMinAck cands need ok choices).read.length) := by
  have hstart : Gather.Launched cands need {} :=
    ⟨rfl, rfl, Nat.zero_le _, Nat.zero_le _, rfl, rfl, rfl⟩
  obtain ⟨hlaunched, hfull⟩ := Gather.launched_launchFirst hstart (Nat.le_add_left cands.length 0)
  rw [replicateMinAck, if_neg (by omega)]
  obtain ⟨hrun, hprogress⟩ := (hlaunched.gathering hfull).run choices
  refine ⟨hrun, ?_⟩
  rwa [hlaunched.fresh.2.2, List.length_nil, Nat.zero_add] at hprogress

structure Accounted (cands : List Candidate) (need : Int) (ok : Candidate → Bool) (g : Gather) :
    Prop where
  once : g.read.Nodup
  called : ∀ c ∈ g.read, c ∈ cands.take g.next
  acked : g.acked = (g.read.filter ok).length
  replaced : ∀ i, need.toNat + i < g.next → i < (g.read.filter fun c => !ok c).length
  decided : g.Returned need → (need ≤ g.acked ↔ need ≤ (cands.filter ok).length)
  waited : g.Returned need → g.acked < need → g.unread = []

theorem Gather.Gathering.accounted {g : Gather} (h : g.Gathering cands need ok)
    (hneed : 0 < need) (hdistinct : cands.Nodup) : Accounted cands need ok g := by
  have hsub : g.read ⊆ cands.take g.next := fun c hc =>
    h.called.subset (List.mem_append_left _ hc)
  have hread : g.read.Nodup :=
    (h.called.nodup_iff.mpr (hdistinct.sublist (List.take_sublist _ _))).of_append_left
  have hunread : g.Returned need → g.acked < need → g.unread = [] := by
    intro hret hfew
    refine List.length_eq_zero_iff.mp (h.inflight ▸ ?_)
    exact hret.resolve_right (not_le.mpr hfew)
  refine ⟨hread, hsub, h.acked, fun i hi => ?_, fun hret => ⟨fun hle => ?_, fun hle => ?_⟩, hunread⟩
  · have := h.failures
    omega
  · -- the acknowledgements counted are among the candidates'
    have hperm := (hread.subperm (List.Subset.trans hsub (List.take_subset _ _))).filter ok
    rw [h.acked] at hle
    exact hle.trans (by exact_mod_cast hperm.length_le)
  · by_contra hfew
    -- all candidates were called and all results read
    have hnil := hunread hret (not_le.mp hfew)
    have hnext : g.next = cands.length := by
      have hfull := h.full
      have hinflight := h.inflight
      rw [hnil, List.length_nil] at hinflight
      omega
    have hall := h.called
    rw [hnil, List.append_nil, hnext, List.take_length] at hall
    rw [← (hall.filter ok).length_eq, ← h.acked] at hle
    exact hfew hle

/-- With enough acknowledgements no call is out, and those read are the first `need` there
are among the candidates. -/
theorem Gather.Gathering.acknowledgers {g : Gather} (h : g.Gathering cands need ok)
    (henough : need ≤ g.acked) :
    (g.read.filter ok).Perm ((cands.filter ok).take need.toNat) := by
  have hbound := h.bound
  have hnone : g.unread = [] := List.length_eq_zero_iff.mp (by rw [← h.inflight]; omega)
  have hcalled := h.called.filter ok
  rw [hnone, List.append_nil] at hcalled
  have hsplit : cands.filter ok = (cands.take g.next).filter ok ++
      (cands.drop g.next).filter ok := by
    rw [← List.filter_append, List.take_append_drop]
  have hlength : ((cands.take g.next).filter ok).length = need.toNat := by
    rw [← hcalled.length_eq, ← h.acked]
    omega
  rw [hsplit, ← hlength, List.take_left]
  exact hcalled

/-- Who is counted are the first that acknowledge. -/
theorem acknowledgers_replicateMinAck
    (henough : need ≤ (replicateMinAck cands need ok choices).acked) :
    ((replicateMinAck cands need ok choices).read.filter ok).Perm
      ((cands.filter ok).take need.toNat) := by
  by_cases hneed : 0 < need
  · exact (gathering_replicateMinAck hneed).1.acknowledgers henough
  · rw [replicateMinAck, if_pos (by omega), Int.toNat_of_nonpos (by omega), List.take_zero]
    rfl

theorem accounted_replicateMinAck (hdistinct : cands.Nodup) :
    Accounted cands need ok (replicateMinAck cands need ok choices) ∧
      (cands.length ≤ choices.length → (replicateMinAck cands need ok choices).Returned need) := by
  by_cases hneed : 0 < need
  · obtain ⟨hgather, hprogress⟩ := gathering_replicateMinAck hneed
    refine ⟨hgather.accounted hneed hdistinct, fun hlong => ?_⟩
    rcases hprogress with hret | hread
    · exact hret
    · -- every candidate's result was read
      have hlength := hgather.called.length_eq
      rw [List.length_append, List.length_take, ← hgather.inflight] at hlength
      exact .inl (by omega)
  · rw [replicateMinAck, if_pos (by omega)]
    refine ⟨⟨List.nodup_nil, by simp, rfl, by simp, fun _ => ?_, fun _ _ => rfl⟩, fun _ => .inl rfl⟩
    constructor
    · intro _
      omega
    · intro _
      show need ≤ ((0 : Nat) : Int)
      omega

end

/-! ## The write -/

def Store.Holds (s : Store) (rec : StoredRecord) : Prop :=
  s.disk.kvData[dataKey rec.ns rec.logicalKey rec.version]? = some rec

instance (s : Store) (rec : StoredRecord) : Decidable (s.Holds rec) :=
  inferInstanceAs (Decidable (_ = _))

theorem Store.holds_apply {s s' : Store} {rec : StoredRecord} {kind : MutationKind} {v : Version}
    (h : s.apply rec kind = some (v, s')) : s'.Holds rec := by
  rw [Store.apply, Option.map_eq_some_iff] at h
  obtain ⟨sel, -, heq⟩ := h
  cases heq
  rw [Store.Holds, Store.commit_data, if_pos ⟨rfl, rfl, rfl⟩]

/-- After its call a receiver has the record, unless it had seen the mutation and has not. -/
theorem Receiver.holds_apply_iff {r r' : Receiver} {rec : StoredRecord}
    {resp : StoreReplicaResponse} (h : r.apply (buildRequest rec) = some (resp, r')) :
    r'.store.Holds rec ↔
      ((r.idem.check rec.version.mutationID).isSome → r.store.Holds rec) :=
  Receiver.apply_rule (P := (·.Holds rec)) Store.holds_apply h

/-- Where a record is to be copied: to a given ring, or as placement has it, which may find
no candidate. -/
inductive Placing where
  | given (cands : List Candidate)
  | selected (cands : Option (List Candidate))

structure PutOutcome where
  version : Version
  ackedNearbyReplicas : Nat
  geoSpillover : Bool
  deriving DecidableEq, Repr

inductive WriteError where
  | store
  | insufficientNearbyReplicas
  deriving DecidableEq, Repr

/-- A write, with the clock's readings for its version and its expiry. -/
structure PutRequest where
  wall : UInt64
  expiryWall : UInt64
  ns : Bytes
  key : Bytes
  value : Bytes
  tombstone : Bool := false
  ttlMs : Option Int64 := none

/-- The node a write arrives at. -/
structure Coordinator where
  store : Store
  memberID : Bytes
  minAckNearbyReplicas : Int

namespace Coordinator

/-- Whether a call to a candidate comes back with a durable acknowledgement; a member that
is not there does not answer. -/
def durable (members : Bytes → Option Receiver) (rec : StoredRecord) (c : Candidate) : Bool :=
  match (members c.memberID).bind (·.apply (buildRequest rec)) with
  | some (resp, _) => resp.durable
  | none => false

/-- The answer once the copies are acknowledged; none while results are waited for. -/
def acknowledge (c : Coordinator) (members : Bytes → Option Receiver) (rec : StoredRecord)
    (cands : List Candidate) (choices : List Nat) : Option (Except WriteError PutOutcome) :=
  let g := replicateMinAck cands c.minAckNearbyReplicas (durable members rec) choices
  if g.Returned c.minAckNearbyReplicas then
    if g.acked < c.minAckNearbyReplicas then some (.error .insufficientNearbyReplicas)
    else some (.ok ⟨rec.version, g.acked, g.spill⟩)
  else none

/-- The origin's own copy: the record, and the store with it. -/
def stored (c : Coordinator) (p : PutRequest) : Option StoredRecord × Store :=
  c.store.write p.wall p.expiryWall p.ns p.key p.value p.tombstone p.ttlMs

def write (c : Coordinator) (p : PutRequest) (placing : Placing)
    (members : Bytes → Option Receiver) (choices : List Nat) :
    Option (Except WriteError PutOutcome) :=
  match (c.stored p).1 with
  | none => some (.error .store)
  | some rec =>
    match placing with
    | .selected none =>
      if c.minAckNearbyReplicas ≤ 0 then some (.ok ⟨rec.version, 0, false⟩)
      else some (.error .insufficientNearbyReplicas)
    | .given [] => some (.ok ⟨rec.version, 0, false⟩)
    | .selected (some cands) => c.acknowledge members rec cands choices
    | .given cands => c.acknowledge members rec cands choices

/-- A stored write is held. -/
theorem holds_stored {c : Coordinator} {p : PutRequest} {rec : StoredRecord}
    (h : (c.stored p).1 = some rec) : (c.stored p).2.Holds rec := by
  unfold stored Store.write at h ⊢
  simp only at h ⊢
  split at h
  · rename_i happly
    cases h
    exact Store.holds_apply happly
  · cases h

def HoldsAfter (members : Bytes → Option Receiver) (rec : StoredRecord) (d : Candidate) : Prop :=
  ∃ r resp r', members d.memberID = some r ∧ r.apply (buildRequest rec) = some (resp, r') ∧
    r'.store.Holds rec

/-- A member that has seen the record's mutation has the record. -/
def Genuine (members : Bytes → Option Receiver) (rec : StoredRecord) (d : Candidate) : Prop :=
  ∀ r, members d.memberID = some r →
    (r.idem.check rec.version.mutationID).isSome → r.store.Holds rec

theorem HoldsAfter.durable {members : Bytes → Option Receiver} {rec : StoredRecord}
    {d : Candidate} (h : HoldsAfter members rec d) : durable members rec d = true := by
  obtain ⟨r, resp, r', hr, happly, -⟩ := h
  simp [Coordinator.durable, hr, happly, Receiver.durable_apply happly]

/-- A candidate whose call comes back durable has the record after it, unless its receiver
took the mutation for one it had seen. -/
theorem holdsAfter_iff {members : Bytes → Option Receiver} {rec : StoredRecord} {d : Candidate}
    (h : durable members rec d = true) : HoldsAfter members rec d ↔ Genuine members rec d := by
  unfold durable at h
  split at h
  · rename_i resp r' heq
    obtain ⟨r, hr, happly⟩ := Option.bind_eq_some_iff.mp heq
    constructor
    · rintro ⟨r₁, resp₁, r₁', hr₁, happly₁, hholds⟩ r₂ hr₂
      obtain rfl : r₁ = r₂ := Option.some.inj (hr₁.symm.trans hr₂)
      exact (Receiver.holds_apply_iff happly₁).mp hholds
    · intro hgenuine
      exact ⟨r, resp, r', hr, happly, (Receiver.holds_apply_iff happly).mpr (hgenuine r hr)⟩
  · cases h

/-- The candidates among which a write looks for acknowledgements. -/
def Placing.Candidates (placing : Placing) (cands : List Candidate) : Prop :=
  placing = .selected (some cands) ∨ placing = .given cands ∧ cands ≠ []

/-- A write that returns has acknowledged its record. -/
theorem write_eq_acknowledge {c : Coordinator} {p : PutRequest} {placing : Placing}
    {members : Bytes → Option Receiver} {choices : List Nat} {cands : List Candidate}
    {out : PutOutcome} (hplacing : Placing.Candidates placing cands)
    (h : c.write p placing members choices = some (.ok out)) :
    ∃ rec, (c.stored p).1 = some rec ∧
      c.acknowledge members rec cands choices = some (.ok out) := by
  unfold write at h
  cases hrec : (c.stored p).1 with
  | none =>
    rw [hrec] at h
    cases h
  | some rec =>
    refine ⟨rec, rfl, ?_⟩
    rw [hrec] at h
    rcases hplacing with rfl | ⟨rfl, hne⟩
    · exact h
    · cases cands with
      | nil => exact absurd rfl hne
      | cons cand cands => exact h

/-- Among the members whose acknowledgements a write counted there are `minAck` different
ones, none of them the origin, that have its record. -/
def Held (c : Coordinator) (members : Bytes → Option Receiver) (rec : StoredRecord)
    (g : Gather) : Prop :=
  ∃ holders : List Candidate, holders ⊆ g.read ∧ c.minAckNearbyReplicas ≤ holders.length ∧
    (holders.map Candidate.memberID).Nodup ∧
    ∀ d ∈ holders, d.memberID ≠ c.memberID ∧ HoldsAfter members rec d

/-- A write with enough acknowledgements is held by as many members exactly if the first
members that acknowledge are genuine. -/
theorem held_iff {c : Coordinator} {members : Bytes → Option Receiver} {rec : StoredRecord}
    {cands : List Candidate} {choices : List Nat}
    (hdistinct : (cands.map Candidate.memberID).Nodup)
    (hself : c.memberID ∉ cands.map Candidate.memberID)
    (henough : c.minAckNearbyReplicas ≤
      (replicateMinAck cands c.minAckNearbyReplicas (durable members rec) choices).acked) :
    Held c members rec
        (replicateMinAck cands c.minAckNearbyReplicas (durable members rec) choices) ↔
      ∀ d ∈ (cands.filter (durable members rec)).take c.minAckNearbyReplicas.toNat,
        Genuine members rec d := by
  have hperm := acknowledgers_replicateMinAck henough
  have hsub : ((cands.filter (durable members rec)).take c.minAckNearbyReplicas.toNat).Sublist
      cands := (List.take_sublist _ _).trans List.filter_sublist
  generalize hg : replicateMinAck cands c.minAckNearbyReplicas (durable members rec) choices =
    g at *
  constructor
  · rintro ⟨holders, hread, hmany, hnodup, hholds⟩ d hd
    -- the holders are all that acknowledged
    have hacks : holders ⊆ (cands.filter (durable members rec)).take c.minAckNearbyReplicas.toNat :=
      fun x hx => hperm.subset (List.mem_filter.mpr ⟨hread hx, (hholds x hx).2.durable⟩)
    have hall := ((List.Nodup.of_map _ hnodup).subperm hacks).perm_of_length_le (by
      rw [List.length_take]
      omega)
    have hmem := hall.symm.subset hd
    exact (holdsAfter_iff (hholds d hmem).2.durable).mp (hholds d hmem).2
  · intro hgenuine
    refine ⟨g.read.filter (durable members rec), List.filter_subset_self _, ?_, ?_, fun d hd => ?_⟩
    · have hacked := (@accounted_replicateMinAck cands c.minAckNearbyReplicas
        (durable members rec) choices (List.Nodup.of_map _ hdistinct)).1.acked
      rw [hg] at hacked
      omega
    · exact (hperm.map _).nodup_iff.mpr (hdistinct.sublist (hsub.map _))
    · have hmem := hperm.subset hd
      refine ⟨fun heq => hself ?_, (holdsAfter_iff (List.mem_filter.mp hd).2).mpr (hgenuine d hmem)⟩
      rw [← heq]
      exact List.mem_map_of_mem (hsub.subset hmem)

/-- In every order of results: the calls read are of different candidates and the
acknowledgements counted are theirs; a further candidate is called only for a failure read;
once as many results have come as there are candidates the loop has returned, with enough
acknowledgements exactly if enough candidates acknowledge, and otherwise with every result
read. A write that succeeds with candidates is held by the origin; and by `minAck` of the
other members it counted exactly if, of the first `minAck` candidates that acknowledge, those
that have seen its mutation have its record. -/
theorem minAck_acknowledged {cands : List Candidate}
    (hdistinct : (cands.map Candidate.memberID).Nodup) (choices : List Nat) :
    (∀ (need : Int) (ok : Candidate → Bool),
      Accounted cands need ok (replicateMinAck cands need ok choices) ∧
        (cands.length ≤ choices.length → (replicateMinAck cands need ok choices).Returned need)) ∧
      ∀ (c : Coordinator) (p : PutRequest) (placing : Placing)
        (members : Bytes → Option Receiver) (out : PutOutcome),
        Placing.Candidates placing cands → c.memberID ∉ cands.map Candidate.memberID →
        c.write p placing members choices = some (.ok out) →
          ∃ rec, (c.stored p).1 = some rec ∧ out.version = rec.version ∧
            (c.stored p).2.Holds rec ∧
            (Held c members rec
                (replicateMinAck cands c.minAckNearbyReplicas (durable members rec) choices) ↔
              ∀ d ∈ (cands.filter (durable members rec)).take c.minAckNearbyReplicas.toNat,
                Genuine members rec d) := by
  refine ⟨fun need ok => accounted_replicateMinAck (List.Nodup.of_map _ hdistinct), ?_⟩
  intro c p placing members out hplacing hself hwrite
  obtain ⟨rec, hrec, hack⟩ := write_eq_acknowledge hplacing hwrite
  unfold acknowledge at hack
  simp only at hack
  split at hack
  · split at hack
    · cases hack
    · rename_i hret henough
      cases hack
      exact ⟨rec, hrec, rfl, holds_stored hrec, held_iff hdistinct hself (not_lt.mp henough)⟩
  · cases hack

def origin : Coordinator :=
  { store := newStore {} [0x63] [0x6d] (newClock 500) (newSequencer 0), memberID := [0x6d],
    minAckNearbyReplicas := 1 }

/-- A receiver that was sent the records of some writes of an origin. -/
def receiverOf (c : Coordinator) (ps : List PutRequest) : Receiver :=
  ps.foldl (fun r p =>
    (((c.stored p).1.bind fun rec => r.apply (buildRequest rec)).map (·.2)).getD r)
    { store := newStore {} [0x63] [0x72] (newClock 500) (newSequencer 0) }

def putKey (key : Bytes) (wall : UInt64) : PutRequest :=
  { wall, expiryWall := wall, ns := [0x6e], key, value := [1] }

/-- One of three candidates is not there, the next has seen nothing, and the last, which is
not called, has seen the mutation of another record. -/
theorem minAck_acknowledged_second :
    let members := fun id : Bytes =>
      if id = [0x72] then some (receiverOf origin [])
      else if id = [0x73] then some (receiverOf origin [putKey [0x62] 500]) else none
    let cands : List Candidate := [⟨[0x71], false⟩, ⟨[0x72], false⟩, ⟨[0x73], false⟩]
    ∃ rec, (origin.stored (putKey [0x61] 1000)).1 = some rec ∧
      (origin.stored (putKey [0x61] 1000)).2.Holds rec ∧
      Held origin members rec (replicateMinAck cands 1 (durable members rec) [0, 0]) := by
  intro members cands
  obtain ⟨rec, hrec, -, hholds, hheld⟩ := (minAck_acknowledged
    (show (cands.map Candidate.memberID).Nodup by decide) [0, 0]).2 origin (putKey [0x61] 1000)
    (.selected (some cands)) members ⟨_, _, _⟩ (.inl rfl) (by decide) rfl
  refine ⟨rec, hrec, hholds, hheld.mpr ?_⟩
  have hfirst : (cands.filter (durable members rec)).take origin.minAckNearbyReplicas.toNat =
      [⟨[0x72], false⟩] := by
    cases hrec
    decide +kernel
  intro d hd r hr hsome
  rw [hfirst, List.mem_singleton] at hd
  subst hd
  cases hr
  simp [receiverOf, Idempotency.check] at hsome

/-- The origin wrote key `a`, which a member has, and has started again; its write of key
`b` succeeds with that member's acknowledgement, and the member has no record of `b`. -/
theorem write_unheld :
    let member := receiverOf origin [putKey [0x61] 1000]
    let members := fun id : Bytes => if id = [0x72] then some member else none
    let p := putKey [0x62] 2000
    ((origin.write p (.selected (some [⟨[0x72], false⟩])) members [0]).map fun r =>
        r.toOption.map (·.ackedNearbyReplicas)) = some (some 1) ∧
      ((origin.stored p).1.bind fun rec => (member.apply (buildRequest rec)).map fun a =>
        (a.1.durable, decide (a.2.store.Holds rec), a.2.store.pointer? [0x6e] [0x62])) =
          some (true, false, none) := by
  decide +kernel

end Coordinator

end WaveSpan.Records
