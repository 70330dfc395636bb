/-
WaveSpan.Membership.Merge — gossip about members converges, and what a node says
about itself prevails.

Merging gossip keeps, for every member, the record with the latest stamp among those
seen (`Merged`), so two nodes that have seen the same records agree about everyone
but themselves, whatever the order and the repetitions. Time can only make an entry
more severe or drop a tombstone, so an entry that was given up comes back through a
higher incarnation or after its tombstone is gone, not through an old record.

A node refutes a stale record about itself by an incarnation above it. The counter is
64 bits wide and the record's incarnation is taken as it comes: a stale record at the
last incarnation makes the node's own one wrap to 0 (`refutation_wraps`), below the
record it refutes. Short of that value the node's own record prevails for good.
-/
import WaveSpan.Membership.Roster
import WaveSpan.Lib.Lww

namespace WaveSpan.Membership

open WaveSpan.Wire WaveSpan.Collections WaveSpan.Lww

/-! ## Runs -/

/-- The calls a roster answers. -/
inductive Op where
  | upsert (m : Member) (nowMs : Int64)
  | observeAck (id : Bytes) (nowMs : Int64)
  | suspect (id : Bytes) (nowMs : Int64)
  | applyGossip (u : MemberView) (nowMs : Int64)
  | tick (nowMs : Int64)
  | markRepairComplete (id : Bytes)

def Roster.step (r : Roster) : Op → Roster
  | .upsert m nowMs => r.upsert m nowMs
  | .observeAck id nowMs => r.observeAck id nowMs
  | .suspect id nowMs => r.suspect id nowMs
  | .applyGossip u nowMs => r.applyGossip u nowMs
  | .tick nowMs => r.tick nowMs
  | .markRepairComplete id => r.markRepairComplete id

/-- Updates merged one after another, each at its own time. -/
def Roster.gossipAll (r : Roster) (us : List (MemberView × Int64)) : Roster :=
  us.foldl (fun r u => r.applyGossip u.1 u.2) r

def Roster.standing (r : Roster) (id : Bytes) : Option (UInt64 × State) :=
  r.members[id]?.map fun ms => (ms.incarnation, ms.state)

@[simp] theorem Roster.step_selfID (r : Roster) (e : Op) : (r.step e).selfID = r.selfID := by
  cases e with
  | upsert m nowMs => rfl
  | observeAck id nowMs =>
    simp only [Roster.step, Roster.observeAck]
    split <;> rfl
  | suspect id nowMs =>
    simp only [Roster.step, Roster.suspect]
    split
    · rfl
    · split <;> rfl
  | applyGossip u nowMs => exact Roster.applyGossip_selfID
  | tick nowMs => rfl
  | markRepairComplete id =>
    simp only [Roster.step, Roster.markRepairComplete]
    split <;> rfl

theorem Roster.foldl_step_selfID (r : Roster) (es : List Op) :
    (es.foldl Roster.step r).selfID = r.selfID := by
  induction es generalizing r with
  | nil => rfl
  | cons e es ih => rw [List.foldl_cons, ih, Roster.step_selfID]

/-! ## Merging -/

def about (S : Set MemberView) (id : Bytes) : Set MemberView :=
  {u | u ∈ S ∧ u.member.memberID = id}

/-- The standing that the records of `S` give a member: incarnation and state of the
last one under the lexicographic order, and none where there is no record. -/
def BestOf (S : Set MemberView) (id : Bytes) : Option (UInt64 × State) → Prop
  | none => about S id = ∅
  | some best => ∃ w, Winner MemberView.stamp (about S id) w ∧ best = (w.incarnation, w.state)

/-- Records give a member one standing. -/
theorem BestOf.unique {S : Set MemberView} {id : Bytes} {a b : Option (UInt64 × State)}
    (ha : BestOf S id a) (hb : BestOf S id b) : a = b := by
  cases a with
  | none =>
    cases b with
    | none => rfl
    | some b =>
      obtain ⟨w, hw, -⟩ := hb
      exact absurd (ha ▸ hw.mem) (Set.notMem_empty w)
  | some a =>
    obtain ⟨v, hv, rfl⟩ := ha
    cases b with
    | none => exact absurd (hb ▸ hv.mem) (Set.notMem_empty v)
    | some b =>
      obtain ⟨w, hw, rfl⟩ := hb
      have hstamp : v.stamp = w.stamp := le_antisymm (hw.le hv.mem) (hv.le hw.mem)
      obtain ⟨hinc, hstate⟩ := stampOf_inj hstamp
      rw [hinc, hstate]

/-- Every other member stands as the records seen so far say. -/
def Merged (S : Set MemberView) (r : Roster) : Prop :=
  ∀ id, id ≠ r.selfID → BestOf S id (r.standing id)

/-- An update says nothing of the other members. -/
theorem about_insert_of_ne {S : Set MemberView} {u : MemberView} {id : Bytes}
    (h : u.member.memberID ≠ id) : about (insert u S) id = about S id := by
  ext v
  constructor
  · rintro ⟨rfl | hv, hid⟩
    · exact absurd hid h
    · exact ⟨hv, hid⟩
  · rintro ⟨hv, hid⟩
    exact ⟨Set.mem_insert_of_mem _ hv, hid⟩

theorem about_insert_self (S : Set MemberView) (u : MemberView) :
    about (insert u S) u.member.memberID = insert u (about S u.member.memberID) := by
  ext v
  constructor
  · rintro ⟨rfl | hv, hid⟩
    · exact Set.mem_insert _ _
    · exact Set.mem_insert_of_mem _ ⟨hv, hid⟩
  · rintro (rfl | ⟨hv, hid⟩)
    · exact ⟨Set.mem_insert _ _, rfl⟩
    · exact ⟨Set.mem_insert_of_mem _ hv, hid⟩

theorem bestOf_some {S : Set MemberView} {id : Bytes} {w : MemberView} {ms : MemberState}
    (hw : Winner MemberView.stamp (about S id) w) (h : ms.stamp = w.stamp) :
    BestOf S id (some (ms.incarnation, ms.state)) := by
  obtain ⟨hinc, hstate⟩ := stampOf_inj h
  exact ⟨w, hw, by rw [hinc, hstate]⟩

/-- One more record. -/
theorem Merged.applyGossip {S : Set MemberView} {r : Roster} (h : Merged S r) {u : MemberView}
    (hother : u.member.memberID ≠ r.selfID) (nowMs : Int64) :
    Merged (insert u S) (r.applyGossip u nowMs) := by
  intro id hid
  rw [Roster.applyGossip_selfID] at hid
  unfold Roster.standing
  by_cases hu : u.member.memberID = id
  · subst hu
    have hold := h _ hid
    unfold Roster.standing at hold
    obtain ⟨ms, hms, hstamp⟩ := @Roster.applyGossip_other r u nowMs hother
    rw [hms, Option.map_some]
    cases hentry : r.members[u.member.memberID]? with
    | none =>
      rw [hentry] at hold hstamp
      have hempty : about S u.member.memberID = ∅ := hold
      refine bestOf_some (w := u) ?_ hstamp
      rw [about_insert_self, hempty, insert_empty_eq]
      exact Winner.singleton u
    | some old =>
      rw [hentry] at hold hstamp
      obtain ⟨w, hw, hbest⟩ := hold
      have hsame : old.stamp = w.stamp := by
        obtain ⟨hinc, hstate⟩ := Prod.mk.inj hbest
        unfold MemberState.stamp MemberView.stamp
        rw [hinc, hstate]
      refine bestOf_some (w := if w.stamp < u.stamp then u else w) ?_ ?_
      · rw [about_insert_self]
        exact hw.insert u
      · simp only [hstamp, hsame, apply_ite MemberView.stamp]
  · rw [Roster.applyGossip_of_ne hu]
    have hold := h id hid
    unfold Roster.standing at hold
    unfold BestOf at hold ⊢
    rw [about_insert_of_ne hu]
    exact hold

/-- Merging a list of updates. -/
theorem Merged.gossipAll {S : Set MemberView} {r : Roster} (h : Merged S r)
    {us : List (MemberView × Int64)}
    (hother : ∀ u ∈ us.map Prod.fst, u.member.memberID ≠ r.selfID) :
    Merged (S ∪ {u | u ∈ us.map Prod.fst}) (r.gossipAll us) := by
  induction us generalizing S r with
  | nil => simpa [Roster.gossipAll] using h
  | cons u us ih =>
    have hstep := h.applyGossip (hother u.1 (by simp)) u.2
    have hrest := ih hstep (by
      intro v hv
      rw [Roster.applyGossip_selfID]
      exact hother v (by simp only [List.map_cons, List.mem_cons, hv, or_true]))
    have hset : insert u.1 S ∪ {v | v ∈ us.map Prod.fst}
        = S ∪ {v | v ∈ (u :: us).map Prod.fst} := by
      ext v
      simp only [Set.mem_union, Set.mem_insert_iff, Set.mem_ofPred_eq, List.map_cons,
        List.mem_cons]
      tauto
    rw [hset] at hrest
    exact hrest

theorem merged_newRoster (self : Member) (cfg : LivenessConfig) (inc : UInt64) :
    Merged ∅ (newRoster self cfg inc) := by
  intro id hid
  have hnone : (newRoster self cfg inc).standing id = none := by
    have hne : self.memberID ≠ id := Ne.symm hid
    simp [Roster.standing, newRoster, hne]
  rw [hnone]
  exact Set.eq_empty_of_forall_notMem fun u hu => hu.1

/-- A roster that knew only itself holds the best of what it was told. -/
theorem merged_all {self : Member} {us : List (MemberView × Int64)} (cfg : LivenessConfig)
    (inc : UInt64) (hother : ∀ u ∈ us.map Prod.fst, u.member.memberID ≠ self.memberID) :
    Merged {u | u ∈ us.map Prod.fst} ((newRoster self cfg inc).gossipAll us) := by
  have h := (merged_newRoster self cfg inc).gossipAll hother
  rwa [Set.empty_union] at h

theorem gossipAll_selfID (r : Roster) (us : List (MemberView × Int64)) :
    (r.gossipAll us).selfID = r.selfID := by
  unfold Roster.gossipAll
  induction us generalizing r with
  | nil => rfl
  | cons u us ih => rw [List.foldl_cons, ih, Roster.applyGossip_selfID]

/-- Gossip about others leaves an entry alone. -/
theorem gossipAll_of_ne {id : Bytes} (r : Roster) {us : List (MemberView × Int64)}
    (h : ∀ u ∈ us.map Prod.fst, u.member.memberID ≠ id) :
    (r.gossipAll us).members[id]? = r.members[id]? := by
  unfold Roster.gossipAll
  induction us generalizing r with
  | nil => rfl
  | cons u us ih =>
    rw [List.foldl_cons, ih _ fun v hv => h v (List.mem_cons_of_mem _ hv),
      Roster.applyGossip_of_ne (h u.1 (by simp))]

/-! ## Tombstones -/

/-- Calls that tell a roster nothing newer than incarnation `i` about a member: no
answered probe of it, and no gossip about it above `i`. -/
def Op.Quiet (id : Bytes) (i : UInt64) : Op → Prop
  | .observeAck a _ => a ≠ id
  | .applyGossip u _ => u.member.memberID = id → u.incarnation ≤ i
  | _ => True

/-- An entry at incarnation `i`, no less severe than `k`. -/
def Roster.Held (r : Roster) (id : Bytes) (i : UInt64) (k : Nat) : Prop :=
  ∃ ms, r.members[id]? = some ms ∧ ms.incarnation = i ∧ k ≤ ms.state.rank

section
variable {r : Roster} {id : Bytes} {i : UInt64} {k : Nat}

theorem Roster.Held.of_insert {r' : Roster} {a : Bytes} {ms : MemberState} (h : r.Held id i k)
    (hmembers : r'.members = r.members.insert a ms)
    (hms : a = id → ms.incarnation = i ∧ k ≤ ms.state.rank) : r'.Held id i k := by
  unfold Roster.Held
  rw [hmembers, Std.ExtTreeMap.getElem?_insert]
  by_cases ha : a = id
  · exact ⟨ms, by simp [ha], hms ha⟩
  · obtain ⟨old, hold⟩ := h
    exact ⟨old, by simpa [ha] using hold⟩

/-- Gossip no newer than the entry leaves it as severe as it was. -/
theorem Roster.Held.applyGossip (h : r.Held id i k) (hid : id ≠ r.selfID) {u : MemberView}
    (hu : u.member.memberID = id → u.incarnation ≤ i) (nowMs : Int64) :
    (r.applyGossip u nowMs).Held id i k := by
  by_cases hne : u.member.memberID = id
  · subst hne
    obtain ⟨old, hold, rfl, hk⟩ := h
    obtain ⟨ms, hms, hstamp⟩ := @Roster.applyGossip_other r u nowMs hid
    refine ⟨ms, hms, ?_⟩
    simp only [hold] at hstamp
    split at hstamp
    · -- the record wins: at the same incarnation, hence by its state
      rename_i hlt
      obtain ⟨hinc, hstate⟩ := stampOf_inj hstamp
      have hnlt : ¬ old.incarnation < u.incarnation :=
        fun hlt' => absurd hlt' (UInt64.not_lt.mpr (hu rfl))
      rcases stampOf_lt.mp hlt with hlt' | ⟨heq, hrank⟩
      · exact absurd hlt' hnlt
      · rw [hinc, hstate]
        exact ⟨heq.symm, by omega⟩
    · obtain ⟨hinc, hstate⟩ := stampOf_inj hstamp
      rw [hinc, hstate]
      exact ⟨rfl, hk⟩
  · unfold Roster.Held
    rw [Roster.applyGossip_of_ne hne]
    exact h

/-- One call: only time can end a tombstone. -/
theorem Roster.Held.step (h : r.Held id i k) (hid : id ≠ r.selfID) {e : Op} (hq : e.Quiet id i)
    (hkept : ∀ nowMs, e = .tick nowMs → (r.step e).members[id]? ≠ none) :
    (r.step e).Held id i k := by
  have hentry := h
  obtain ⟨old, hold, hinc, hk⟩ := hentry
  cases e with
  | upsert m nowMs =>
    refine h.of_insert rfl ?_
    intro hm
    rw [hm, hold]
    exact ⟨hinc, hk⟩
  | observeAck a nowMs =>
    have ha : a ≠ id := hq
    simp only [Roster.step, Roster.observeAck]
    split
    · exact h
    · exact h.of_insert rfl fun hm => absurd hm ha
  | suspect a nowMs =>
    simp only [Roster.step, Roster.suspect]
    split
    · exact h
    · rename_i ms hms
      split
      · exact h
      · rename_i hguard
        refine h.of_insert rfl ?_
        rintro rfl
        obtain rfl : old = ms := Option.some.inj (hold.symm.trans hms)
        have halive : old.state = .alive := not_not.mp (not_or.mp hguard).2
        rw [halive] at hk
        rw [setState_incarnation, setState_state]
        exact ⟨hinc, hk.trans (Nat.zero_le _)⟩
  | applyGossip u nowMs => exact h.applyGossip hid hq nowMs
  | tick nowMs =>
    have hentry : (r.tick nowMs).members[id]? = Roster.tickEntry r.cfg nowMs old := by
      rw [Roster.getElem?_tick, hold, Option.bind_some, if_neg hid]
    rcases @Roster.tickEntry_cases nowMs r.cfg old with ⟨hnone, -⟩ | ⟨ms, hms, hsame, hrank⟩
    · exact absurd (hentry.trans hnone) (hkept nowMs rfl)
    · exact ⟨ms, hentry.trans hms, hsame.trans hinc, hk.trans hrank⟩
  | markRepairComplete a =>
    simp only [Roster.step, Roster.markRepairComplete]
    split
    · exact h
    · rename_i ms hms
      refine h.of_insert rfl ?_
      rintro rfl
      obtain rfl : old = ms := Option.some.inj (hold.symm.trans hms)
      exact ⟨hinc, hk⟩

/-- A run: as long as no tick has dropped the entry, it is as severe as at the start. -/
theorem Roster.Held.run (h : r.Held id i k) (hid : id ≠ r.selfID) {es : List Op}
    (hq : ∀ e ∈ es, e.Quiet id i)
    (hkept : ∀ ds nowMs, ds ++ [.tick nowMs] <+: es →
      ((ds ++ [.tick nowMs]).foldl Roster.step r).members[id]? ≠ none) :
    (es.foldl Roster.step r).Held id i k := by
  induction es generalizing r with
  | nil => exact h
  | cons e es ih =>
    have hone : (r.step e).Held id i k := by
      refine h.step hid (hq e (by simp)) ?_
      rintro nowMs rfl
      exact hkept [] nowMs (by simp)
    refine ih hone (by rwa [Roster.step_selfID]) (fun d hd => hq d (by simp [hd])) ?_
    intro ds nowMs hds
    exact hkept (e :: ds) nowMs (by simpa using hds)

end

/-! ## A node's own entry -/

/-- What a call makes of the node's own entry, which is alive. -/
def ownAfter (selfID : Bytes) (ms : MemberState) : Op → MemberState
  | .upsert m _ => if m.memberID = selfID then { ms with member := m } else ms
  | .observeAck id nowMs => if id = selfID then { ms with lastSeenMs := nowMs } else ms
  | .suspect _ _ => ms
  | .applyGossip u nowMs =>
    if u.member.memberID = selfID then Roster.refute ms u nowMs else ms
  | .tick _ => ms
  | .markRepairComplete id => if id = selfID then { ms with repairDone := true } else ms

/-- What a call does to the node's own entry. -/
theorem step_own {r : Roster} {ms : MemberState} (h : r.members[r.selfID]? = some ms)
    (halive : ms.state = .alive) (e : Op) :
    (r.step e).members[r.selfID]? = some (ownAfter r.selfID ms e) := by
  cases e with
  | upsert m nowMs =>
    simp only [Roster.step, Roster.upsert, ownAfter, Std.ExtTreeMap.getElem?_insert]
    by_cases hm : m.memberID = r.selfID
    · simp [hm, h]
    · simp [hm, h]
  | observeAck id nowMs =>
    simp only [Roster.step, Roster.observeAck, ownAfter]
    by_cases hid : id = r.selfID
    · simp [hid, h, halive]
    · split <;> simp [Std.ExtTreeMap.getElem?_insert, hid, h]
  | suspect id nowMs =>
    simp only [Roster.step, Roster.suspect, ownAfter]
    split
    · exact h
    · split
      · exact h
      · rename_i hguard
        have hid : id ≠ r.selfID := (not_or.mp hguard).1
        simp [Std.ExtTreeMap.getElem?_insert, hid, h]
  | applyGossip u nowMs =>
    simp only [Roster.step, ownAfter]
    by_cases hu : u.member.memberID = r.selfID
    · rw [if_pos hu]
      exact Roster.applyGossip_self hu h
    · rw [if_neg hu, Roster.applyGossip_of_ne hu, h]
  | tick nowMs =>
    simp only [Roster.step, ownAfter]
    rw [Roster.getElem?_tick, h, Option.bind_some, if_pos rfl]
  | markRepairComplete id =>
    simp only [Roster.step, Roster.markRepairComplete, ownAfter]
    by_cases hid : id = r.selfID
    · simp [hid, h]
    · split <;> simp [Std.ExtTreeMap.getElem?_insert, hid, h]

theorem refute_state {ms : MemberState} (halive : ms.state = .alive) (u : MemberView)
    (nowMs : Int64) : (Roster.refute ms u nowMs).state = .alive := by
  unfold Roster.refute
  split
  · exact setState_state _ _ _
  · exact halive

theorem ownAfter_state {ms : MemberState} (halive : ms.state = .alive) (selfID : Bytes) (e : Op) :
    (ownAfter selfID ms e).state = .alive := by
  cases e with
  | applyGossip u nowMs =>
    simp only [ownAfter]
    split
    · exact refute_state halive u nowMs
    · exact halive
  | _ =>
    simp only [ownAfter]
    try split
    all_goals exact halive

/-- A node never gives itself up. -/
theorem own_alive (self : Member) (cfg : LivenessConfig) (inc : UInt64) (es : List Op) :
    ∃ ms, (es.foldl Roster.step (newRoster self cfg inc)).members[self.memberID]? = some ms ∧
      ms.state = .alive := by
  have hrun : ∀ r : Roster, (∃ ms, r.members[r.selfID]? = some ms ∧ ms.state = .alive) →
      ∃ ms, (es.foldl Roster.step r).members[r.selfID]? = some ms ∧ ms.state = .alive := by
    induction es with
    | nil => exact fun r h => h
    | cons e es ih =>
      rintro r ⟨ms, hms, halive⟩
      have hnext := ih (r.step e) ⟨ownAfter r.selfID ms e, by
        rw [Roster.step_selfID, step_own hms halive], ownAfter_state halive _ e⟩
      rwa [Roster.step_selfID] at hnext
  exact hrun (newRoster self cfg inc) ⟨_, Std.ExtTreeMap.getElem?_insert_self, rfl⟩

/-- Order and repetition of gossip do not matter: two nodes that have merged the same
records hold every other member at the last incarnation and state among them, and
themselves as they were. An entry
that is dead or forgotten stays at least as severe through whatever comes after, gossip
up to its own incarnation included, until a tick drops it. -/
theorem gossip_converges :
    (∀ (self₁ self₂ : Member) (cfg₁ cfg₂ : LivenessConfig) (inc₁ inc₂ : UInt64)
      (us vs : List (MemberView × Int64)),
      (∀ u, u ∈ us.map Prod.fst ↔ u ∈ vs.map Prod.fst) →
      (∀ u ∈ us.map Prod.fst,
        u.member.memberID ≠ self₁.memberID ∧ u.member.memberID ≠ self₂.memberID) →
      (∀ id, id ≠ self₁.memberID → id ≠ self₂.memberID →
        ((newRoster self₁ cfg₁ inc₁).gossipAll us).standing id
            = ((newRoster self₂ cfg₂ inc₂).gossipAll vs).standing id ∧
          BestOf {u | u ∈ us.map Prod.fst} id
            (((newRoster self₁ cfg₁ inc₁).gossipAll us).standing id)) ∧
      ((newRoster self₁ cfg₁ inc₁).gossipAll us).standing self₁.memberID = some (inc₁, .alive)) ∧
    (∀ (self : Member) (cfg : LivenessConfig) (inc : UInt64) (es fs : List Op) (id : Bytes)
      (ms : MemberState),
      (es.foldl Roster.step (newRoster self cfg inc)).members[id]? = some ms →
      ms.state = .dead ∨ ms.state = .forgotten →
      (∀ f ∈ fs, f.Quiet id ms.incarnation) →
      (∀ ds nowMs, ds ++ [Op.tick nowMs] <+: fs →
        ((es ++ (ds ++ [Op.tick nowMs])).foldl Roster.step (newRoster self cfg inc)).members[id]?
          ≠ none) →
      ((es ++ fs).foldl Roster.step (newRoster self cfg inc)).Held id ms.incarnation
        ms.state.rank) := by
  constructor
  · intro self₁ self₂ cfg₁ cfg₂ inc₁ inc₂ us vs hsame hother
    refine ⟨fun id hid₁ hid₂ => ?_, ?_⟩
    · have hbest₁ := merged_all cfg₁ inc₁ (fun u hu => (hother u hu).1) id
        (by rwa [gossipAll_selfID])
      have hbest₂ := merged_all cfg₂ inc₂ (fun u hu => (hother u ((hsame u).mpr hu)).2) id
        (by rwa [gossipAll_selfID])
      have hset : {u | u ∈ vs.map Prod.fst} = {u | u ∈ us.map Prod.fst} :=
        Set.ext fun u => (hsame u).symm
      rw [hset] at hbest₂
      exact ⟨hbest₁.unique hbest₂, hbest₁⟩
    · unfold Roster.standing
      rw [gossipAll_of_ne _ fun u hu => (hother u hu).1]
      simp [newRoster]
  · intro self cfg inc es fs id ms hms hgone hquiet hkept
    simp only [List.foldl_append] at hkept ⊢
    have hid : id ≠ (es.foldl Roster.step (newRoster self cfg inc)).selfID := by
      rw [Roster.foldl_step_selfID]
      rintro rfl
      obtain ⟨own, hown, halive⟩ := own_alive self cfg inc es
      obtain rfl : ms = own := Option.some.inj (hms.symm.trans hown)
      rw [halive] at hgone
      rcases hgone with h | h <;> cases h
    refine Roster.Held.run ⟨ms, hms, rfl, le_refl _⟩ hid hquiet ?_
    intro ds nowMs hds
    simpa only [List.foldl_append] using hkept ds nowMs hds

/-- Two nodes and a third one, told of in two orders; and a record of it alive that comes
after one of it dead at the same incarnation. -/
theorem gossip_converges_thirdNode :
    ((newRoster { memberID := [97] } {} 0).gossipAll
        [(⟨{ memberID := [99] }, .dead, 1, 0⟩, 0),
         (⟨{ memberID := [99] }, .alive, 2, 0⟩, 1)]).standing [99]
      = ((newRoster { memberID := [98] } {} 0).gossipAll
        [(⟨{ memberID := [99] }, .alive, 2, 0⟩, 5),
         (⟨{ memberID := [99] }, .dead, 1, 0⟩, 6),
         (⟨{ memberID := [99] }, .alive, 2, 0⟩, 7)]).standing [99] ∧
    (([Op.applyGossip ⟨{ memberID := [99] }, .dead, 1, 0⟩ 0] ++
        [Op.applyGossip ⟨{ memberID := [99] }, .alive, 1, 0⟩ 1]).foldl
      Roster.step (newRoster { memberID := [97] } {} 0)).Held [99] 1 3 := by
  constructor
  · refine ((gossip_converges.1 _ _ _ _ _ _ _ _ ?_ ?_).1 [99] (by decide) (by decide)).1
    · intro u
      simp only [List.map_cons, List.map_nil, List.mem_cons, List.not_mem_nil, or_false]
      tauto
    · simp
  · have hms : ([Op.applyGossip ⟨{ memberID := [99] }, .dead, 1, 0⟩ 0].foldl Roster.step
          (newRoster { memberID := [97] } {} 0)).members[([99] : Bytes)]?
        = some { member := { memberID := [99] }, state := .dead, incarnation := 1 } := by
      decide +kernel
    refine gossip_converges.2 _ _ _ _ _ [99] _ hms (.inl rfl) ?_ ?_
    · intro f hf
      rw [List.mem_singleton.mp hf]
      exact fun _ => UInt64.le_refl _
    · rintro ds nowMs ⟨t, ht⟩
      cases ds with
      | nil => simp at ht
      | cons d ds => simp at ht

/-! ## Refutation -/

/-- A record about a node that it has to refute. -/
def Stale (self : Member) (u : MemberView) : Prop :=
  u.member.memberID = self.memberID ∧ (u.state ≠ .alive ∨ u.member ≠ self)

instance (self : Member) (u : MemberView) : Decidable (Stale self u) :=
  inferInstanceAs (Decidable (_ ∧ _))

/-- Calls a node can answer without losing the argument: no stale record about it at the
last incarnation, and no contact that goes by its id. -/
def Op.Refutable (self : Member) : Op → Prop
  | .upsert m _ => m.memberID ≠ self.memberID
  | .applyGossip u _ => Stale self u → u.incarnation.toNat + 1 < 2 ^ 64
  | _ => True

/-- The node's own entry: alive, with its own addresses, at incarnation `n` or above. -/
def Roster.OwnAbove (r : Roster) (self : Member) (n : Nat) : Prop :=
  ∃ ms, r.members[r.selfID]? = some ms ∧ r.selfID = self.memberID ∧ ms.member = self ∧
    ms.state = .alive ∧ n ≤ ms.incarnation.toNat

theorem toNat_add_one {i : UInt64} (h : i.toNat + 1 < 2 ^ 64) : (i + 1).toNat = i.toNat + 1 := by
  rw [UInt64.toNat_add]
  exact Nat.mod_eq_of_lt h

/-- A stale claim is answered with a higher incarnation. -/
theorem refute_of_stale {ms : MemberState} {u : MemberView} (hstale : Stale ms.member u)
    (hu : u.incarnation.toNat + 1 < 2 ^ 64) (nowMs : Int64) :
    (Roster.refute ms u nowMs).member = ms.member ∧
      max ms.incarnation.toNat (u.incarnation.toNat + 1)
        ≤ (Roster.refute ms u nowMs).incarnation.toNat := by
  unfold Roster.refute
  split
  · rename_i hbump
    have hle : ms.incarnation.toNat ≤ u.incarnation.toNat := UInt64.le_iff_toNat_le.mp hbump.2
    rw [setState_member, setState_incarnation, toNat_add_one hu]
    exact ⟨rfl, by omega⟩
  · rename_i hbump
    have hlt : u.incarnation.toNat < ms.incarnation.toNat :=
      UInt64.lt_iff_toNat_lt.mp (UInt64.not_le.mp fun hle => hbump ⟨hstale.2, hle⟩)
    exact ⟨rfl, by omega⟩

theorem refute_of_not_stale {ms : MemberState} {u : MemberView}
    (hu : u.member.memberID = ms.member.memberID) (h : ¬ Stale ms.member u) (nowMs : Int64) :
    Roster.refute ms u nowMs = ms :=
  if_neg fun hbump => h ⟨hu, hbump.1⟩

/-- One call: the own entry stays, and its incarnation does not fall. -/
theorem Roster.OwnAbove.step {r : Roster} {self : Member} {n : Nat} (h : r.OwnAbove self n)
    {e : Op} (he : e.Refutable self) : (r.step e).OwnAbove self n := by
  obtain ⟨ms, hms, hid, rfl, halive, hn⟩ := h
  refine ⟨ownAfter r.selfID ms e, ?_, ?_, ?_⟩
  · rw [Roster.step_selfID, step_own hms halive]
  · rw [Roster.step_selfID, hid]
  · rw [and_left_comm]
    refine ⟨ownAfter_state halive _ e, ?_⟩
    cases e with
    | applyGossip u nowMs =>
      simp only [ownAfter]
      split
      · rename_i hu
        by_cases hstale : Stale ms.member u
        · obtain ⟨hmember, hinc⟩ := refute_of_stale hstale (he hstale) nowMs
          exact ⟨hmember, by omega⟩
        · rw [refute_of_not_stale (hu.trans hid) hstale]
          exact ⟨rfl, hn⟩
      · exact ⟨rfl, hn⟩
    | upsert m nowMs =>
      have hm : m.memberID ≠ r.selfID := by
        rw [hid]
        exact he
      simpa only [ownAfter, if_neg hm, true_and] using hn
    | observeAck id nowMs =>
      simp only [ownAfter]
      split <;> exact ⟨rfl, hn⟩
    | markRepairComplete id =>
      simp only [ownAfter]
      split <;> exact ⟨rfl, hn⟩
    | suspect id nowMs => exact ⟨rfl, hn⟩
    | tick nowMs => exact ⟨rfl, hn⟩

/-- The own entry stays above what was claimed of it. -/
theorem Roster.OwnAbove.run {r : Roster} {self : Member} {n : Nat} (h : r.OwnAbove self n)
    {es : List Op} (hes : ∀ e ∈ es, e.Refutable self) :
    (es.foldl Roster.step r).OwnAbove self n := by
  induction es generalizing r with
  | nil => exact h
  | cons e es ih => exact ih (h.step (hes e (by simp))) fun d hd => hes d (by simp [hd])

/-- A refuted record is below the own entry. -/
theorem Roster.OwnAbove.refutes {r : Roster} {self : Member} {n : Nat} (h : r.OwnAbove self n)
    {u : MemberView} (hstale : Stale self u) (hu : u.incarnation.toNat + 1 < 2 ^ 64)
    (nowMs : Int64) :
    (r.step (.applyGossip u nowMs)).OwnAbove self (u.incarnation.toNat + 1) := by
  obtain ⟨ms, hms, hid, rfl, halive, hn⟩ := h
  obtain ⟨hmember, hinc⟩ := refute_of_stale hstale hu nowMs
  refine ⟨Roster.refute ms u nowMs, ?_, ?_, hmember, refute_state halive u nowMs, by omega⟩
  · rw [Roster.step_selfID]
    exact Roster.applyGossip_self (hstale.1.trans hid.symm) hms
  · rw [Roster.step_selfID, hid]

theorem ownAbove_newRoster (self : Member) (cfg : LivenessConfig) (inc : UInt64) :
    (newRoster self cfg inc).OwnAbove self 0 :=
  ⟨_, Std.ExtTreeMap.getElem?_insert_self, rfl, rfl, rfl, Nat.zero_le _⟩

/-- What is above a record takes its place wherever it is merged. -/
theorem merge_of_lt {old : MemberState} {u : MemberView} (h : old.incarnation < u.incarnation)
    (nowMs : Int64) :
    (Roster.merge old u nowMs).member = u.member ∧ (Roster.merge old u nowMs).state = u.state ∧
      (Roster.merge old u nowMs).incarnation = u.incarnation := by
  unfold Roster.merge
  rw [if_pos h]
  simp

/-- As long as no stale record about it comes at the last incarnation, a node stays alive
in its own eyes under its own addresses, its incarnation never falls, and after every
stale record about it its own entry is the one that others keep. -/
theorem own_record_prevails (self : Member) (cfg : LivenessConfig) (inc : UInt64) (es : List Op)
    (hes : ∀ e ∈ es, e.Refutable self) :
    ∃ ms, (es.foldl Roster.step (newRoster self cfg inc)).members[self.memberID]? = some ms ∧
      ms.state = .alive ∧ ms.member = self ∧
      (∀ ds, ds <+: es → ∀ before,
        (ds.foldl Roster.step (newRoster self cfg inc)).members[self.memberID]? = some before →
        before.incarnation ≤ ms.incarnation) ∧
      (∀ ds u nowMs, ds ++ [.applyGossip u nowMs] <+: es → Stale self u →
        u.incarnation < ms.incarnation ∧
        ∀ old nowMs', old.incarnation ≤ u.incarnation →
          (Roster.merge old (view ms) nowMs').member = self ∧
          (Roster.merge old (view ms) nowMs').state = .alive ∧
          (Roster.merge old (view ms) nowMs').incarnation = ms.incarnation) := by
  have hown := ownAbove_newRoster self cfg inc
  have hrun := hown.run hes
  obtain ⟨ms, hms, hid, hmember, halive, -⟩ := hrun
  rw [hid] at hms
  -- an entry found above `n` after part of the run is above `n` at its end
  have habove : ∀ ds fs n, ds ++ fs = es →
      (ds.foldl Roster.step (newRoster self cfg inc)).OwnAbove self n →
      n ≤ ms.incarnation.toNat := by
    rintro ds fs n rfl h
    have hfs : ∀ e ∈ fs, e.Refutable self := fun e he => hes e (List.mem_append_right ds he)
    obtain ⟨ms', hms', hid', -, -, hn⟩ := h.run hfs
    rw [hid', ← List.foldl_append] at hms'
    obtain rfl : ms = ms' := Option.some.inj (hms.symm.trans hms')
    exact hn
  refine ⟨ms, hms, halive, hmember, ?_, ?_⟩
  · rintro ds ⟨fs, hfs⟩ before hbefore
    obtain ⟨own, hentry, hid', hmem, hal, -⟩ :=
      hown.run fun e he => hes e (hfs ▸ List.mem_append_left fs he)
    have hsame : own = before := by
      rw [hid'] at hentry
      exact Option.some.inj (hentry.symm.trans hbefore)
    exact UInt64.le_iff_toNat_le.mpr
      (habove ds fs _ hfs ⟨own, hentry, hid', hmem, hal, by rw [hsame]⟩)
  · rintro ds u nowMs ⟨fs, hfs⟩ hstale
    have hall : ∀ e ∈ ds ++ [.applyGossip u nowMs], e.Refutable self :=
      fun e he => hes e (hfs ▸ List.mem_append_left fs he)
    have hbound : u.incarnation.toNat + 1 < 2 ^ 64 := hall (.applyGossip u nowMs) (by simp) hstale
    have hds : ∀ e ∈ ds, e.Refutable self := fun e he => hall e (List.mem_append_left _ he)
    have hrefuted := (hown.run hds).refutes hstale hbound nowMs
    have hlt : u.incarnation < ms.incarnation := by
      refine UInt64.lt_iff_toNat_lt.mpr (habove (ds ++ [.applyGossip u nowMs]) fs _ hfs ?_)
      rw [List.foldl_append]
      exact hrefuted
    refine ⟨hlt, fun old nowMs' hold => ?_⟩
    have hbelow : old.incarnation < (view ms).incarnation :=
      UInt64.lt_of_le_of_lt hold hlt
    obtain ⟨h₁, h₂, h₃⟩ := merge_of_lt hbelow nowMs'
    exact ⟨h₁.trans hmember, h₂.trans halive, h₃⟩

/-- A suspicion at incarnation 7 is answered. -/
theorem own_record_prevails_suspected :
    ∃ ms, ([Op.applyGossip ⟨{ memberID := [97] }, .suspect, 7, 0⟩ 0].foldl Roster.step
          (newRoster { memberID := [97] } {} 5)).members[([97] : Bytes)]? = some ms ∧
      ms.state = .alive ∧ 7 < ms.incarnation := by
  obtain ⟨ms, hms, halive, -, -, hstale⟩ := own_record_prevails { memberID := [97] } {} 5
    [.applyGossip ⟨{ memberID := [97] }, .suspect, 7, 0⟩ 0] (by
      intro e he
      rw [List.mem_singleton.mp he]
      exact fun _ => by decide)
  have hlt := hstale [] ⟨{ memberID := [97] }, .suspect, 7, 0⟩ 0 (by simp) (by decide)
  exact ⟨ms, hms, halive, hlt.1⟩

/-- A suspicion at the last incarnation: the node's own incarnation falls from 5 to 0, and
a peer that has merged the suspicion keeps it against the node's own record. -/
theorem refutation_wraps :
    ∃ own, ((newRoster { memberID := [97] } {} 5).applyGossip
          ⟨{ memberID := [97] }, .suspect, 18446744073709551615, 0⟩ 0).members[([97] : Bytes)]?
        = some own ∧
      own.incarnation = 0 ∧
      ((newRoster { memberID := [98] } {} 0).gossipAll
        [(⟨{ memberID := [97] }, .suspect, 18446744073709551615, 0⟩, 0),
         (view own, 1)]).standing [97]
        = some (18446744073709551615, .suspect) :=
  ⟨{ member := { memberID := [97] }, state := .alive, incarnation := 0 },
    by decide +kernel, rfl, by decide +kernel⟩

end WaveSpan.Membership
