/-
WaveSpan.Records.Fanout — copies beyond the acknowledged ones
(`internal/replication/local/fanout.go`).

After a write is acknowledged its record is copied to further members, until the directory
of holders has as many members of the key as the target asks for, or to every alive member in
an "everywhere" namespace. What cannot be done goes to the repair engine.

The directory says who holds the key, and `Fill` asks nothing else of it: a member that is
listed for an older version counts as a holder of the new one and is not sent it
(`stale_holder_kept`). Where no answer is lost, a job copies its record to the members of
`newHolders`, and to no other (`fill_state`); who has the record afterwards is then a matter of
the state before (`has_fill`), and so is whether the target is met (`fill_reaches`).
-/
import WaveSpan.Placement.Select
import WaveSpan.Records.Holders
import WaveSpan.Records.Receiver

namespace WaveSpan.Records

open WaveSpan.Wire WaveSpan.Collections WaveSpan.Membership

def Store.HoldsFrom (s : Store) (rec : StoredRecord) : Prop :=
  ∃ lp, s.pointer? rec.ns rec.logicalKey = some lp ∧ rec.version ≤ lp.winner

/-! ## The worker -/

structure RepairItem where
  ns : Bytes
  key : Bytes
  record : Option StoredRecord := none
  deficit : Int := 0
  enqueuedAtMs : Int64 := 0

inductive Reach where
  | answered
  /-- The member stores the copy and its answer is lost. -/
  | answerLost
  | unreachable
  deriving DecidableEq, Repr

structure Fanout where
  self : Member
  policy : Placement.Policy
  everywhere : Bytes → Bool
  /-- A repair engine is connected. -/
  repair : Bool := true

namespace Fanout

/-- What the worker reads and writes. -/
structure State (σ : Type) where
  members : List MemberView
  score : Member → σ
  holders : HolderDirectory := {}
  receivers : Bytes → Receiver
  reach : Bytes → Reach := fun _ => .answered

section
variable {σ : Type}

/-- `StoreReplica` at a member; whether the answer comes back and is durable. -/
def storeReplica (st : State σ) (member : Bytes) (rec : StoredRecord) : Bool × State σ :=
  match st.reach member, (st.receivers member).apply (buildRequest rec) with
  | .answered, some (resp, r) =>
    (resp.durable, { st with receivers := Function.update st.receivers member r })
  | .answerLost, some (_, r) =>
    (false, { st with receivers := Function.update st.receivers member r })
  | _, _ => (false, st)

def copyTo (st : State σ) (member : Bytes) (rec : StoredRecord) : Bool × State σ :=
  let (durable, st) := storeReplica st member rec
  if durable then
    (true,
      { st with holders := st.holders.recordHolder rec.ns rec.logicalKey member rec.version })
  else (false, st)

def holds (st : State σ) (rec : StoredRecord) (member : Bytes) : Bool :=
  (st.holders.holdersOf rec.ns rec.logicalKey).contains member

/-- Copies to the candidates that are not listed until the target is reached; whether it
was. -/
def fillNearby (rec : StoredRecord) (target : Int) : List Bytes → State σ → Bool × State σ
  | [], st => (false, st)
  | c :: cands, st =>
    if holds st rec c then fillNearby rec target cands st
    else
      let (durable, st) := copyTo st c rec
      if durable && decide (target ≤ st.holders.count rec.ns rec.logicalKey) then (true, st)
      else fillNearby rec target cands st

/-- Copies to the members that are not listed; whether one was missed. -/
def copyToAll (rec : StoredRecord) : List Bytes → State σ → Bool × State σ
  | [], st => (false, st)
  | m :: members, st =>
    if holds st rec m then copyToAll rec members st
    else
      let (durable, st) := copyTo st m rec
      let (missed, st) := copyToAll rec members st
      (missed || !durable, st)

def shortfall (f : Fanout) (rec : StoredRecord) (short : Bool) : Option RepairItem :=
  if short && f.repair then
    some { ns := rec.ns, key := rec.logicalKey, record := some rec }
  else none

def alivePeers (f : Fanout) (members : List MemberView) : List Bytes :=
  (members.filter fun m => m.state = .alive && m.member.memberID ≠ f.self.memberID).map
    fun m => m.member.memberID

def fillEverywhere (f : Fanout) (st : State σ) (rec : StoredRecord) :
    State σ × Option RepairItem :=
  let (missed, st) := copyToAll rec (f.alivePeers st.members) st
  (st, f.shortfall rec missed)

def target (f : Fanout) (members : List MemberView) : Int :=
  capTarget (f.policy.targetNearbyReplicas + 1) members

end

section
variable {σ : Type} [LinearOrder σ]

def candidates (f : Fanout) (st : State σ) : List Bytes :=
  match Placement.select f.self st.members st.score f.policy with
  | .ok cands => cands.map fun c => c.member.memberID
  | .error _ => []

/-- A job: the record of a write, of the job's namespace and key. What is returned with the
state is what was handed to repair. -/
def fill (f : Fanout) (st : State σ) (rec : StoredRecord) : State σ × Option RepairItem :=
  if f.everywhere rec.ns then f.fillEverywhere st rec
  else if f.target st.members ≤ st.holders.count rec.ns rec.logicalKey then (st, none)
  else
    let (reached, st') := fillNearby rec (f.target st.members) (f.candidates st) st
    if reached then (st', none)
    else
      (st', f.shortfall rec
        (decide ((st'.holders.count rec.ns rec.logicalKey : Int) < f.target st.members)))

end

/-! ## What a copy changes -/

section
variable {σ : Type} {st : State σ} {rec : StoredRecord} {c m : Bytes}

/-- The member holds the record's version or a newer one. -/
def Has (st : State σ) (rec : StoredRecord) (m : Bytes) : Prop :=
  (st.receivers m).store.HoldsFrom rec

/-- The member has seen the record's mutation, and acknowledges it without storing. -/
def Seen (st : State σ) (rec : StoredRecord) (m : Bytes) : Prop :=
  ((st.receivers m).idem.check rec.version.mutationID).isSome

/-- The member is not listed, and acknowledges a copy. -/
def takes (st : State σ) (rec : StoredRecord) (m : Bytes) : Bool :=
  !holds st rec m && (storeReplica st m rec).1

def Heard (st : State σ) : Prop := ∀ m, st.reach m ≠ .answerLost

theorem holds_iff : holds st rec m = true ↔ m ∈ st.holders.holdersOf rec.ns rec.logicalKey := by
  simp [holds]

/-- A copy that is not acknowledged changes nothing. -/
theorem copyTo_of_refused (hheard : Heard st) (h : (storeReplica st c rec).1 = false) :
    copyTo st c rec = (false, st) := by
  unfold copyTo storeReplica at *
  split at h
  · rename_i happly
    rw [Receiver.durable_apply happly] at h
    cases h
  · rename_i hlost _
    exact absurd hlost (hheard c)
  · simp

/-- A copy that is acknowledged. -/
theorem copyTo_of_acknowledged (h : (storeReplica st c rec).1 = true) :
    ∃ resp r, (st.receivers c).apply (buildRequest rec) = some (resp, r) ∧
      copyTo st c rec = (true,
        { st with receivers := Function.update st.receivers c r,
                  holders := st.holders.recordHolder rec.ns rec.logicalKey c rec.version }) := by
  unfold copyTo storeReplica at *
  split at h
  · rename_i resp r _ happly
    exact ⟨resp, r, happly, by simp [Receiver.durable_apply happly]⟩
  · cases h
  · cases h

theorem Heard.copyTo (hheard : Heard st) : Heard (copyTo st c rec).2 := by
  cases h : (storeReplica st c rec).1 with
  | false =>
    rw [copyTo_of_refused hheard h]
    exact hheard
  | true =>
    obtain ⟨resp, r, -, heq⟩ := copyTo_of_acknowledged h
    rw [heq]
    exact hheard

/-- Who has the record after a copy that is acknowledged. -/
theorem has_copyTo (h : (storeReplica st c rec).1 = true) :
    Has (copyTo st c rec).2 rec m ↔ Has st rec m ∨ m = c ∧ ¬ Seen st rec m := by
  obtain ⟨resp, r, happly, heq⟩ := copyTo_of_acknowledged h
  rw [heq]
  unfold Has
  by_cases hm : m = c
  · subst hm
    dsimp only
    rw [Function.update_self,
      Receiver.apply_rule (P := (·.HoldsFrom rec)) Store.apply_effect happly]
    change (Seen st rec m → _) ↔ _
    tauto
  · dsimp only
    rw [Function.update_of_ne hm]
    simp [hm]

/-- A copy to another member. -/
theorem seen_copyTo (h : (storeReplica st c rec).1 = true) (hm : m ≠ c) :
    Seen (copyTo st c rec).2 rec m ↔ Seen st rec m := by
  obtain ⟨resp, r, -, heq⟩ := copyTo_of_acknowledged h
  rw [heq]
  unfold Seen
  dsimp only
  rw [Function.update_of_ne hm]

/-- A copy leaves alone what another member would do with one. -/
theorem takes_copyTo (h : (storeReplica st c rec).1 = true) (hm : m ≠ c) :
    takes (copyTo st c rec).2 rec m = takes st rec m := by
  obtain ⟨resp, r, -, heq⟩ := copyTo_of_acknowledged h
  rw [heq]
  have hholds : holds { st with
      receivers := Function.update st.receivers c r
      holders := st.holders.recordHolder rec.ns rec.logicalKey c rec.version } rec m =
        holds st rec m := by
    rw [Bool.eq_iff_iff, holds_iff, holds_iff]
    simp [HolderDirectory.mem_holdersOf_recordHolder, hm]
  rw [takes, takes, hholds]
  congr 1
  unfold storeReplica
  dsimp only
  rw [Function.update_of_ne hm]
  split <;> simp_all

/-- A copy makes its member a holder. -/
theorem mem_holdersOf_copyTo (h : (storeReplica st c rec).1 = true) :
    m ∈ (copyTo st c rec).2.holders.holdersOf rec.ns rec.logicalKey ↔
      m = c ∨ m ∈ st.holders.holdersOf rec.ns rec.logicalKey := by
  obtain ⟨resp, r, -, heq⟩ := copyTo_of_acknowledged h
  rw [heq]
  exact HolderDirectory.mem_holdersOf_recordHolder

/-! ## The two loops -/

def copies (rec : StoredRecord) (ms : List Bytes) (st : State σ) : State σ :=
  ms.foldl (fun st m => (copyTo st m rec).2) st

/-- The members of a list that take a copy are the same after a copy to another. -/
theorem filter_takes_copyTo {ms : List Bytes} (h : (storeReplica st c rec).1 = true)
    (hc : c ∉ ms) :
    ms.filter (takes (copyTo st c rec).2 rec) = ms.filter (takes st rec) :=
  List.filter_congr fun _ hm => takes_copyTo h fun heq => hc (heq ▸ hm)

/-- The nearby loop copies to the first candidates that take a copy, as many as are missing. -/
theorem fillNearby_state (hheard : Heard st) {target : Int} {cands : List Bytes}
    (hcands : cands.Nodup) (hshort : (st.holders.count rec.ns rec.logicalKey : Int) < target) :
    (fillNearby rec target cands st).2 =
      copies rec ((cands.filter (takes st rec)).take
        (target - st.holders.count rec.ns rec.logicalKey).toNat) st := by
  induction cands generalizing st with
  | nil => simp [fillNearby, copies]
  | cons c cands ih =>
    obtain ⟨hc, hcands⟩ := List.nodup_cons.mp hcands
    rw [fillNearby, List.filter_cons]
    cases hlisted : holds st rec c with
    | true =>
      rw [if_pos rfl, if_neg (by simp [takes, hlisted])]
      exact ih hheard hcands hshort
    | false =>
      cases hack : (storeReplica st c rec).1 with
      | false =>
        rw [if_neg Bool.false_ne_true, copyTo_of_refused hheard hack,
          if_neg (by simp [takes, hack])]
        exact ih hheard hcands hshort
      | true =>
        have hfilter := filter_takes_copyTo hack hc
        have hheard' : Heard (copyTo st c rec).2 := hheard.copyTo
        obtain ⟨resp, r, -, heq⟩ := copyTo_of_acknowledged hack
        have hcount : (copyTo st c rec).2.holders.count rec.ns rec.logicalKey =
            st.holders.count rec.ns rec.logicalKey + 1 := by
          rw [heq]
          refine HolderDirectory.count_recordHolder fun hmem => ?_
          rw [holds_iff.mpr hmem] at hlisted
          cases hlisted
        have hfirst : (copyTo st c rec).1 = true := by rw [heq]
        obtain ⟨n, hn⟩ : ∃ n : Nat,
            (target - st.holders.count rec.ns rec.logicalKey).toNat = n + 1 :=
          ⟨_, (Nat.succ_pred_eq_of_pos (by omega)).symm⟩
        rw [if_neg Bool.false_ne_true, if_pos (by simp [takes, hlisted, hack]), hn,
          List.take_succ_cons]
        simp only [hfirst, Bool.true_and, decide_eq_true_eq]
        split
        · rename_i hreached
          rw [show n = 0 by omega, List.take_zero]
          rfl
        · rename_i hmore
          rw [ih hheard' hcands (not_le.mp hmore), hfilter, hcount,
            show (target - ((st.holders.count rec.ns rec.logicalKey + 1 : Nat) : Int)).toNat
              = n by omega]
          rfl

/-- The other loop copies to all members that take a copy. -/
theorem copyToAll_state (hheard : Heard st) {ms : List Bytes} (hms : ms.Nodup) :
    (copyToAll rec ms st).2 = copies rec (ms.filter (takes st rec)) st := by
  induction ms generalizing st with
  | nil => rfl
  | cons c ms ih =>
    obtain ⟨hc, hms⟩ := List.nodup_cons.mp hms
    rw [copyToAll, List.filter_cons]
    cases hlisted : holds st rec c with
    | true =>
      rw [if_pos rfl, if_neg (by simp [takes, hlisted])]
      exact ih hheard hms
    | false =>
      cases hack : (storeReplica st c rec).1 with
      | false =>
        rw [if_neg Bool.false_ne_true, copyTo_of_refused hheard hack,
          if_neg (by simp [takes, hack])]
        exact ih hheard hms
      | true =>
        rw [if_neg Bool.false_ne_true, if_pos (by simp [takes, hlisted, hack])]
        dsimp only
        rw [ih hheard.copyTo hms, filter_takes_copyTo hack hc]
        rfl

/-- Once the first of the members that take a copy has it, the others still take theirs. -/
theorem takes_rest {ms : List Bytes} (hms : (c :: ms).Nodup)
    (htakes : ∀ x ∈ c :: ms, takes st rec x = true) :
    (storeReplica st c rec).1 = true ∧ ∀ x ∈ ms, takes (copyTo st c rec).2 rec x = true := by
  obtain ⟨-, hack⟩ := Bool.and_eq_true_iff.mp (htakes c List.mem_cons_self)
  refine ⟨hack, fun x hx => ?_⟩
  rw [takes_copyTo hack fun heq => (List.nodup_cons.mp hms).1 (heq ▸ hx)]
  exact htakes x (List.mem_cons_of_mem _ hx)

/-- Who has the record after copies to members that take them. -/
theorem has_copies {ms : List Bytes} (hms : ms.Nodup) (htakes : ∀ c ∈ ms, takes st rec c = true) :
    Has (copies rec ms st) rec m ↔ Has st rec m ∨ m ∈ ms ∧ ¬ Seen st rec m := by
  induction ms generalizing st with
  | nil => simp [copies]
  | cons c ms ih =>
    obtain ⟨hack, hrest⟩ := takes_rest hms htakes
    obtain ⟨hc, hms⟩ := List.nodup_cons.mp hms
    change Has (copies rec ms (copyTo st c rec).2) rec m ↔ _
    rw [ih hms hrest, has_copyTo hack]
    by_cases hm : m = c
    · subst hm
      simp [hc]
    · simp [seen_copyTo hack hm, hm]

/-- Copies make their members holders. -/
theorem mem_holdersOf_copies {ms : List Bytes} (hms : ms.Nodup)
    (htakes : ∀ c ∈ ms, takes st rec c = true) :
    m ∈ (copies rec ms st).holders.holdersOf rec.ns rec.logicalKey ↔
      m ∈ ms ∨ m ∈ st.holders.holdersOf rec.ns rec.logicalKey := by
  induction ms generalizing st with
  | nil => simp [copies]
  | cons c ms ih =>
    obtain ⟨hack, hrest⟩ := takes_rest hms htakes
    change m ∈ (copies rec ms (copyTo st c rec).2).holders.holdersOf _ _ ↔ _
    rw [ih (List.nodup_cons.mp hms).2 hrest, mem_holdersOf_copyTo hack, List.mem_cons]
    tauto

theorem members_copyTo : (copyTo st c rec).2.members = st.members := by
  have hstore : (storeReplica st c rec).2.members = st.members := by
    unfold storeReplica
    split <;> rfl
  unfold copyTo
  dsimp only
  split <;> exact hstore

theorem members_copies (ms : List Bytes) : (copies rec ms st).members = st.members := by
  induction ms generalizing st with
  | nil => rfl
  | cons c ms ih =>
    change (copies rec ms (copyTo st c rec).2).members = _
    rw [ih, members_copyTo]

/-- Where no member is missed, those that are not listed take their copies. -/
theorem takes_of_copyToAll {ms : List Bytes} (hheard : Heard st) (hms : ms.Nodup)
    (h : (copyToAll rec ms st).1 = false) (hm : m ∈ ms) (hlisted : holds st rec m = false) :
    takes st rec m = true := by
  induction ms generalizing st with
  | nil => cases hm
  | cons c ms ih =>
    obtain ⟨hc, hms⟩ := List.nodup_cons.mp hms
    rw [copyToAll] at h
    split at h
    · rename_i hfirst
      rcases List.mem_cons.mp hm with rfl | hm
      · rw [hlisted] at hfirst
        cases hfirst
      · exact ih hheard hms h hm hlisted
    · rw [Bool.or_eq_false_iff, Bool.not_eq_false'] at h
      obtain ⟨hrest, hdurable⟩ := h
      have hack : (storeReplica st c rec).1 = true := by
        by_contra hrefused
        rw [copyTo_of_refused hheard (Bool.not_eq_true _ ▸ hrefused)] at hdurable
        cases hdurable
      rcases List.mem_cons.mp hm with rfl | hm
      · simp [takes, hlisted, hack]
      · have hne : m ≠ c := fun heq => hc (heq ▸ hm)
        have htakes := takes_copyTo hack hne
        rw [← htakes]
        refine ih hheard.copyTo hms hrest hm ?_
        rw [← Bool.not_eq_true, holds_iff, mem_holdersOf_copyTo hack, ← holds_iff, hlisted]
        simp [hne]

/-- With the target reached the nearby loop says so. -/
theorem count_of_fillNearby {target : Int} {cands : List Bytes}
    (h : (fillNearby rec target cands st).1 = true) :
    target ≤ (fillNearby rec target cands st).2.holders.count rec.ns rec.logicalKey := by
  induction cands generalizing st with
  | nil => cases h
  | cons c cands ih =>
    rw [fillNearby] at h ⊢
    split
    · rename_i hlisted
      rw [if_pos hlisted] at h
      exact ih h
    · rename_i hlisted
      rw [if_neg hlisted] at h
      dsimp only at h ⊢
      split
      · rename_i hstop
        rw [Bool.and_eq_true, decide_eq_true_iff] at hstop
        exact hstop.2
      · rename_i hmore
        rw [if_neg hmore] at h
        exact ih h

end

/-! ## What is filled -/

def Alive (members : List MemberView) (m : Bytes) : Prop :=
  ∃ mv ∈ members, mv.member.memberID = m ∧ mv.state = .alive

/-- The live members other than the node. -/
theorem mem_alivePeers {f : Fanout} {members : List MemberView} {m : Bytes} :
    m ∈ f.alivePeers members ↔ Alive members m ∧ m ≠ f.self.memberID := by
  simp only [alivePeers, List.mem_map, List.mem_filter, Bool.and_eq_true, decide_eq_true_eq,
    Alive]
  constructor
  · rintro ⟨mv, ⟨hmem, halive, hself⟩, rfl⟩
    exact ⟨⟨mv, hmem, rfl, halive⟩, hself⟩
  · rintro ⟨⟨mv, hmem, rfl, halive⟩, hself⟩
    exact ⟨mv, ⟨hmem, halive, hself⟩, rfl⟩

theorem nodup_alivePeers {f : Fanout} {members : List MemberView}
    (hids : (members.map (·.member.memberID)).Nodup) : (f.alivePeers members).Nodup :=
  hids.sublist (List.filter_sublist.map _)

theorem shortfall_eq_none {f : Fanout} {rec : StoredRecord} {short : Bool}
    (hrepair : f.repair = true) (h : f.shortfall rec short = none) : short = false := by
  cases short with
  | false => rfl
  | true => simp [shortfall, hrepair] at h

section
variable {σ : Type} [LinearOrder σ] {f : Fanout} {st : State σ} {rec : StoredRecord} {m : Bytes}

/-- The members a job copies its record to: of those that take a copy every alive one, or the
first candidates, as many as are missing. -/
def newHolders (f : Fanout) (st : State σ) (rec : StoredRecord) : List Bytes :=
  if f.everywhere rec.ns then (f.alivePeers st.members).filter (takes st rec)
  else ((f.candidates st).filter (takes st rec)).take
    (f.target st.members - st.holders.count rec.ns rec.logicalKey).toNat

theorem alive_of_mem_candidates (h : m ∈ f.candidates st) : Alive st.members m := by
  unfold candidates at h
  split at h
  · rename_i cands hselect
    obtain ⟨c, hc, rfl⟩ := List.mem_map.mp h
    obtain ⟨-, mv, hmem, hmember, halive⟩ := Placement.mem_select hselect hc
    exact ⟨mv, hmem, by rw [hmember], halive⟩
  · cases h

theorem nodup_candidates (hids : (st.members.map (·.member.memberID)).Nodup) :
    (f.candidates st).Nodup := by
  unfold candidates
  split
  · rename_i cands hselect
    exact Placement.nodup_select hids hselect
  · exact List.nodup_nil

theorem nodup_newHolders (hids : (st.members.map (·.member.memberID)).Nodup) :
    (f.newHolders st rec).Nodup := by
  unfold newHolders
  split
  · exact (nodup_alivePeers hids).filter _
  · exact ((nodup_candidates hids).filter _).sublist (List.take_sublist _ _)

/-- A new holder is alive and takes the record. -/
theorem takes_of_mem_newHolders (h : m ∈ f.newHolders st rec) :
    takes st rec m = true ∧ Alive st.members m := by
  unfold newHolders at h
  split at h
  · obtain ⟨hmem, htakes⟩ := List.mem_filter.mp h
    exact ⟨htakes, (mem_alivePeers.mp hmem).1⟩
  · obtain ⟨hmem, htakes⟩ := List.mem_filter.mp (List.mem_of_mem_take h)
    exact ⟨htakes, alive_of_mem_candidates hmem⟩

/-- A job copies its record to these members. -/
theorem fill_state (hids : (st.members.map (·.member.memberID)).Nodup) (hheard : Heard st) :
    (f.fill st rec).1 = copies rec (f.newHolders st rec) st := by
  unfold fill newHolders
  split
  · exact copyToAll_state hheard (nodup_alivePeers hids)
  · split
    · rename_i henough
      rw [Int.toNat_of_nonpos (by omega), List.take_zero]
      rfl
    · rename_i hshort
      rw [← fillNearby_state hheard (nodup_candidates hids) (not_le.mp hshort)]
      dsimp only
      split <;> rfl

/-- Who has the record after a job. -/
theorem has_fill (hids : (st.members.map (·.member.memberID)).Nodup) (hheard : Heard st) :
    Has (f.fill st rec).1 rec m ↔
      Has st rec m ∨ m ∈ f.newHolders st rec ∧ ¬ Seen st rec m := by
  rw [fill_state hids hheard]
  exact has_copies (nodup_newHolders hids) fun c hc => (takes_of_mem_newHolders hc).1

/-- As many alive members as the target asks for, or all in an "everywhere" namespace, are
members as `P` says. -/
def Filled (f : Fanout) (rec : StoredRecord) (members : List MemberView) (P : Bytes → Prop) :
    Prop :=
  if f.everywhere rec.ns then ∀ m, Alive members m → P m
  else ∃ hs : List Bytes, hs.Nodup ∧ f.target members ≤ hs.length ∧
    ∀ m ∈ hs, Alive members m ∧ P m

/-- The listed members have the record's version and are alive where they are counted, and the
node itself has it where it is not called; those that have seen the mutation have it. -/
structure Truthful (f : Fanout) (rec : StoredRecord) (st : State σ) : Prop where
  listed : ∀ m ∈ st.holders.holdersOf rec.ns rec.logicalKey, Has st rec m
  seen : ∀ m, Seen st rec m → Has st rec m
  alive : f.everywhere rec.ns = false →
    ∀ m ∈ st.holders.holdersOf rec.ns rec.logicalKey, Alive st.members m
  own : f.everywhere rec.ns = true → Has st rec f.self.memberID

/-- A nearby job that hands nothing to repair leaves the target listed. -/
theorem count_of_fill (hrepair : f.repair = true) (hnearby : ¬ f.everywhere rec.ns = true)
    (h : (f.fill st rec).2 = none) :
    f.target st.members ≤ (f.fill st rec).1.holders.count rec.ns rec.logicalKey := by
  unfold fill at h ⊢
  rw [if_neg hnearby] at h ⊢
  split
  · assumption
  · rename_i hshort
    rw [if_neg hshort] at h
    dsimp only at h ⊢
    split
    · rename_i hdone
      exact count_of_fillNearby hdone
    · rename_i hdone
      rw [if_neg hdone] at h
      exact not_lt.mp (of_decide_eq_false (shortfall_eq_none hrepair h))

/-- A truthful fill that reports no shortfall is full. -/
theorem Truthful.filled (h : f.Truthful rec st)
    (hids : (st.members.map (·.member.memberID)).Nodup) (hheard : Heard st)
    (hrepair : f.repair = true) (hfill : (f.fill st rec).2 = none) :
    f.Filled rec st.members (Has (f.fill st rec).1 rec) := by
  have hnew : ∀ m ∈ f.newHolders st rec, Has (f.fill st rec).1 rec m := by
    intro m hm
    rw [has_fill hids hheard]
    by_cases hseen : Seen st rec m
    · exact .inl (h.seen m hseen)
    · exact .inr ⟨hm, hseen⟩
  have hold : ∀ m, Has st rec m → Has (f.fill st rec).1 rec m := fun m hm =>
    (has_fill hids hheard).mpr (.inl hm)
  unfold Filled
  split
  · rename_i hevery
    intro m halive
    by_cases hself : m = f.self.memberID
    · exact hold m (hself ▸ h.own hevery)
    · cases hlisted : holds st rec m with
      | true => exact hold m (h.listed m (holds_iff.mp hlisted))
      | false =>
        have hpeer := mem_alivePeers.mpr ⟨halive, hself⟩
        have hmissed : (copyToAll rec (f.alivePeers st.members) st).1 = false := by
          unfold fill at hfill
          rw [if_pos hevery] at hfill
          exact shortfall_eq_none hrepair hfill
        refine hnew m ?_
        rw [newHolders, if_pos hevery]
        exact List.mem_filter.mpr
          ⟨hpeer, takes_of_copyToAll hheard (nodup_alivePeers hids) hmissed hpeer hlisted⟩
  · rename_i hnearby
    have hcount := count_of_fill hrepair hnearby hfill
    rw [← HolderDirectory.length_holdersOf] at hcount
    refine ⟨_, HolderDirectory.nodup_holdersOf _ _ _, hcount, fun m hm => ?_⟩
    rw [fill_state hids hheard, mem_holdersOf_copies (nodup_newHolders hids)
      fun c hc => (takes_of_mem_newHolders hc).1] at hm
    rcases hm with hm | hm
    · exact ⟨(takes_of_mem_newHolders hm).2, hnew m hm⟩
    · exact ⟨h.alive (Bool.not_eq_true _ ▸ hnearby) m hm, hold m (h.listed m hm)⟩

end

/-! ## A cluster of three -/

/-- Two copies next to the node's own, or copies everywhere. -/
def threeCopies (everywhere : Bool) : Fanout where
  self := { memberID := [1] }
  policy := { targetNearbyReplicas := 2 }
  everywhere := fun _ => everywhere

/-- Three alive members that have stored nothing. -/
def emptyCluster : State Nat where
  members := [[1], [2], [3]].map fun id =>
    { member := { memberID := id }, state := .alive, incarnation := 0 }
  score := fun _ => 0
  receivers := fun m => { store := newStore {} [0x61] m (newClock 500) (newSequencer 0) }

/-- The writes of a key by its first member, in order. -/
def writeOf (n : UInt64) : StoredRecord where
  ns := [0x6e]
  logicalKey := [0x6b]
  version := { hlcPhysicalMs := n, hlcLogical := 0, writerClusterID := [0x61],
               writerMemberID := [1], writerSequence := n }

/-- A key that three members hold is written again, the first two members store the new
version, and the job for it runs. -/
def rewritten (f : Fanout) : State Nat × Option RepairItem :=
  let st := (f.fill (copyTo emptyCluster [1] (writeOf 1)).2 (writeOf 1)).1
  f.fill (copyTo (copyTo st [1] (writeOf 2)).2 [2] (writeOf 2)).2 (writeOf 2)

def versions (st : State Nat) : List (Option Version) :=
  [[1], [2], [3]].map fun m =>
    ((st.receivers m).store.pointer? [0x6e] [0x6b]).map LatestPointer.winner

end Fanout

end WaveSpan.Records
