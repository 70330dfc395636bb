/-
WaveSpan.Membership.Roster — a node's table of members
(`internal/membership/roster.go`, `liveness.go`, `identity.go`).

Each entry carries a state and an incarnation. Gossip is merged by incarnation
first and by severity at equal incarnations; probes and timeouts move an entry
through its states, and a forgotten entry stays as a tombstone until its retention
is over. Records about the node itself are never merged: a stale one is answered by
an incarnation above it.

`stamp` is what the merge compares. `applyGossip_other` and `getElem?_tick` say what
one call does to one entry, and every result about runs is drawn from them.
-/
import WaveSpan.Collections.Store
import Mathlib.Data.Prod.Lex
import Mathlib.Order.Basic

namespace WaveSpan.Membership

open WaveSpan.Wire WaveSpan.Collections

/-! ## Members -/

/-- Liveness, from healthy to gone. -/
inductive State where
  | alive
  | suspect
  | unreachable
  | dead
  | forgotten
  deriving DecidableEq, Repr

/-- The number of a state; a higher one is more severe. -/
def State.rank : State → Nat
  | .alive => 0
  | .suspect => 1
  | .unreachable => 2
  | .dead => 3
  | .forgotten => 4

theorem State.rank_inj {a b : State} (h : a.rank = b.rank) : a = b := by
  cases a <;> cases b <;> first | rfl | cases h

structure Member where
  clusterID : Bytes := []
  memberID : Bytes
  storageUUID : Bytes := []
  nodeName : Bytes := []
  zone : Bytes := []
  region : Bytes := []
  geo : Bytes := []
  gossipAddr : Bytes := []
  dataAddr : Bytes := []
  adminAddr : Bytes := []
  deriving DecidableEq, Repr

/-- A roster's entry. -/
structure MemberState where
  member : Member
  state : State
  incarnation : UInt64 := 0
  lastSeenMs : Int64 := 0
  stateSince : Int64 := 0
  repairDone : Bool := false
  deriving DecidableEq, Repr

/-- An entry as it is gossiped. -/
structure MemberView where
  member : Member
  state : State
  incarnation : UInt64
  lastSeenMs : Int64 := 0
  deriving DecidableEq, Repr

structure LivenessConfig where
  suspicionTimeout : Int64 := 3000
  unreachableTimeout : Int64 := 10000
  deadRetention : Int64 := 300000
  forgottenRetention : Int64 := 300000

structure Roster where
  selfID : Bytes
  members : GoMap MemberState
  cfg : LivenessConfig

def newRoster (self : Member) (cfg : LivenessConfig) (selfIncarnation : UInt64) : Roster where
  selfID := self.memberID
  members := (∅ : GoMap MemberState).insert self.memberID
    { member := self, state := .alive, incarnation := selfIncarnation }
  cfg := cfg

def view (ms : MemberState) : MemberView :=
  { member := ms.member, state := ms.state, incarnation := ms.incarnation,
    lastSeenMs := ms.lastSeenMs }

def setState (ms : MemberState) (s : State) (nowMs : Int64) : MemberState :=
  if ms.state ≠ s then { ms with state := s, stateSince := nowMs } else ms

/-! ## Operations -/

namespace Roster

/-- A member met through a seed or a gossip contact. -/
def upsert (r : Roster) (m : Member) (nowMs : Int64) : Roster :=
  let entry : MemberState :=
    match r.members[m.memberID]? with
    | none => { member := m, state := .alive, lastSeenMs := nowMs, stateSince := nowMs }
    | some ms => { ms with member := m }
  { r with members := r.members.insert m.memberID entry }

def observeAck (r : Roster) (id : Bytes) (nowMs : Int64) : Roster :=
  match r.members[id]? with
  | none => r
  | some ms =>
    let seen := { ms with lastSeenMs := nowMs }
    let entry :=
      if ms.state ≠ .alive then
        setState { seen with incarnation := ms.incarnation + 1 } .alive nowMs
      else seen
    { r with members := r.members.insert id entry }

def suspect (r : Roster) (id : Bytes) (nowMs : Int64) : Roster :=
  match r.members[id]? with
  | none => r
  | some ms =>
    if id = r.selfID ∨ ms.state ≠ .alive then r
    else { r with members := r.members.insert id (setState ms .suspect nowMs) }

/-- A record about the node itself: refuted if it is stale and not below. -/
def refute (self : MemberState) (u : MemberView) (nowMs : Int64) : MemberState :=
  if (u.state ≠ .alive ∨ u.member ≠ self.member) ∧ self.incarnation ≤ u.incarnation then
    setState { self with incarnation := u.incarnation + 1 } .alive nowMs
  else self

/-- A record about another member, against the entry there is. -/
def merge (ms : MemberState) (u : MemberView) (nowMs : Int64) : MemberState :=
  if ms.incarnation < u.incarnation then
    setState { ms with incarnation := u.incarnation, member := u.member } u.state nowMs
  else if u.incarnation = ms.incarnation ∧ ms.state.rank < u.state.rank then
    setState ms u.state nowMs
  else ms

def applyGossip (r : Roster) (u : MemberView) (nowMs : Int64) : Roster :=
  let id := u.member.memberID
  if id = r.selfID then
    match r.members[id]? with
    | none => r
    | some self => { r with members := r.members.insert id (refute self u nowMs) }
  else
    match r.members[id]? with
    | none =>
      let entry : MemberState :=
        { member := u.member, state := u.state, incarnation := u.incarnation,
          lastSeenMs := nowMs, stateSince := nowMs }
      { r with members := r.members.insert id entry }
    | some ms => { r with members := r.members.insert id (merge ms u nowMs) }

/-- What the passing of time makes of an entry; `none` when it is dropped. -/
def tickEntry (cfg : LivenessConfig) (nowMs : Int64) (ms : MemberState) : Option MemberState :=
  match ms.state with
  | .alive => some ms
  | .suspect =>
    some (if cfg.suspicionTimeout ≤ nowMs - ms.stateSince then setState ms .unreachable nowMs
      else ms)
  | .unreachable =>
    some (if cfg.unreachableTimeout ≤ nowMs - ms.stateSince then setState ms .dead nowMs else ms)
  | .dead =>
    some (if cfg.deadRetention ≤ nowMs - ms.stateSince ∨ ms.repairDone then
      setState ms .forgotten nowMs else ms)
  | .forgotten => if cfg.forgottenRetention ≤ nowMs - ms.stateSince then none else some ms

def tick (r : Roster) (nowMs : Int64) : Roster :=
  { r with members := r.members.filterMap fun id ms =>
      if id = r.selfID then some ms else tickEntry r.cfg nowMs ms }

/-- Repair needs a dead member's holder records no longer. -/
def markRepairComplete (r : Roster) (id : Bytes) : Roster :=
  match r.members[id]? with
  | none => r
  | some ms => { r with members := r.members.insert id { ms with repairDone := true } }

end Roster

/-! ## What the merge compares -/

def stampOf (incarnation : UInt64) (state : State) : Nat ×ₗ Nat :=
  toLex (incarnation.toNat, state.rank)

def MemberView.stamp (u : MemberView) : Nat ×ₗ Nat := stampOf u.incarnation u.state

def MemberState.stamp (ms : MemberState) : Nat ×ₗ Nat := stampOf ms.incarnation ms.state

theorem stampOf_inj {i j : UInt64} {a b : State} (h : stampOf i a = stampOf j b) :
    i = j ∧ a = b := by
  have hpair : (i.toNat, a.rank) = (j.toNat, b.rank) := h
  exact ⟨UInt64.toNat_inj.mp (congrArg Prod.fst hpair), State.rank_inj (congrArg Prod.snd hpair)⟩

/-- Incarnations decide, then severity. -/
theorem stampOf_lt {i j : UInt64} {a b : State} :
    stampOf i a < stampOf j b ↔ i < j ∨ (i = j ∧ a.rank < b.rank) := by
  unfold stampOf
  rw [Prod.Lex.toLex_lt_toLex]
  simp only [UInt64.lt_iff_toNat_lt, UInt64.toNat_inj]

section
variable (ms : MemberState) (u : MemberView) (s : State) (nowMs : Int64)

@[simp] theorem setState_state : (setState ms s nowMs).state = s := by
  unfold setState
  split
  · rfl
  · rename_i h
    exact not_not.mp h

@[simp] theorem setState_incarnation : (setState ms s nowMs).incarnation = ms.incarnation := by
  unfold setState
  split <;> rfl

@[simp] theorem setState_member : (setState ms s nowMs).member = ms.member := by
  unfold setState
  split <;> rfl

/-- The merge keeps the later stamp. -/
theorem stamp_merge :
    (Roster.merge ms u nowMs).stamp = if ms.stamp < u.stamp then u.stamp else ms.stamp := by
  unfold Roster.merge MemberState.stamp MemberView.stamp
  by_cases hlt : ms.incarnation < u.incarnation
  · rw [if_pos hlt, if_pos (stampOf_lt.mpr (.inl hlt))]
    simp
  · rw [if_neg hlt]
    by_cases heq : u.incarnation = ms.incarnation ∧ ms.state.rank < u.state.rank
    · rw [if_pos heq, if_pos (stampOf_lt.mpr (.inr ⟨heq.1.symm, heq.2⟩))]
      simp [heq.1]
    · rw [if_neg heq, if_neg]
      rintro h
      rcases stampOf_lt.mp h with h | ⟨h, hrank⟩
      · exact hlt h
      · exact heq ⟨h.symm, hrank⟩

end

/-! ## One call, one entry -/

namespace Roster

variable {r : Roster} {id : Bytes} {u : MemberView} {nowMs : Int64}

@[simp] theorem applyGossip_selfID : (r.applyGossip u nowMs).selfID = r.selfID := by
  unfold applyGossip
  simp only
  split <;> split <;> rfl

/-- Gossip changes the entry it is about. -/
theorem applyGossip_of_ne (h : u.member.memberID ≠ id) :
    (r.applyGossip u nowMs).members[id]? = r.members[id]? := by
  unfold applyGossip
  simp only
  split <;> split <;> first
    | rfl
    | (rw [Std.ExtTreeMap.getElem?_insert, if_neg (by simpa using h)])

/-- Gossip about another member: its entry's stamp is the later of the two. -/
theorem applyGossip_other (hother : u.member.memberID ≠ r.selfID) :
    ∃ ms, (r.applyGossip u nowMs).members[u.member.memberID]? = some ms ∧
      ms.stamp = match r.members[u.member.memberID]? with
        | none => u.stamp
        | some old => if old.stamp < u.stamp then u.stamp else old.stamp := by
  unfold applyGossip
  simp only
  rw [if_neg hother]
  split
  · exact ⟨_, Std.ExtTreeMap.getElem?_insert_self, rfl⟩
  · rename_i old hsome
    exact ⟨merge old u nowMs, Std.ExtTreeMap.getElem?_insert_self, stamp_merge old u nowMs⟩

/-- Gossip about the node itself. -/
theorem applyGossip_self {self : MemberState} (hself : u.member.memberID = r.selfID)
    (hentry : r.members[r.selfID]? = some self) :
    (r.applyGossip u nowMs).members[r.selfID]? = some (refute self u nowMs) := by
  unfold applyGossip
  simp only
  rw [if_pos hself, hself, hentry]
  simp

/-- A tick member by member. -/
theorem getElem?_tick :
    (r.tick nowMs).members[id]? = r.members[id]?.bind fun ms =>
      if id = r.selfID then some ms else tickEntry r.cfg nowMs ms :=
  Std.ExtTreeMap.getElem?_filterMap'

/-- Time makes an entry more severe, or drops a tombstone; it leaves the incarnation
alone. -/
theorem tickEntry_cases {cfg : LivenessConfig} (ms : MemberState) :
    (tickEntry cfg nowMs ms = none ∧ ms.state = .forgotten) ∨
      ∃ ms', tickEntry cfg nowMs ms = some ms' ∧ ms'.incarnation = ms.incarnation ∧
        ms.state.rank ≤ ms'.state.rank := by
  unfold tickEntry
  split
  · exact .inr ⟨ms, rfl, rfl, le_refl _⟩
  · rename_i hstate
    refine .inr ⟨_, rfl, ?_⟩
    split <;> simp [hstate, State.rank]
  · rename_i hstate
    refine .inr ⟨_, rfl, ?_⟩
    split <;> simp [hstate, State.rank]
  · rename_i hstate
    refine .inr ⟨_, rfl, ?_⟩
    split <;> simp [hstate, State.rank]
  · rename_i hstate
    split
    · exact .inl ⟨rfl, hstate⟩
    · exact .inr ⟨ms, rfl, rfl, le_refl _⟩

end Roster

end WaveSpan.Membership
