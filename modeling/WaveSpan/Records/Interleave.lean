/-
WaveSpan.Records.Interleave — `Store.Apply` and `Applier.Apply` on one key
(`internal/recordstore/store.go`, `internal/replication/global/applier.go`).

A call of the applier reads the key's record, resolves, and writes; other calls
may come between the read and the write. `KeyState.step` is one atomic step of
such an interleaving: a whole `Store.apply`, an applier's read, or the write of a
call that has read.

`Store.apply` compares with the stored pointer, so it never lowers the winner.
`Store.applySiblings` writes the highest of the records it was handed, and those
were chosen against the record read earlier: a write that finds the record
changed can lower the winner (`winner_goes_back`). Where a keep-siblings write
finds the record it read, the winner never goes back (`winner_never_back`).
-/
import WaveSpan.Lib.Guarded
import WaveSpan.Records.OneKey

namespace WaveSpan.Records

open WaveSpan.Wire WaveSpan.Collections WaveSpan.Guarded

/-! ## Resolution against at most one record -/

/-- Against at most one record a resolver rejects nothing at all, picks one of
the two, or, under keep-siblings, keeps both. -/
theorem resolve_cases (policy : Policy) (existing : Option StoredRecord) (m : GlobalMutation) :
    (existing = none ∧ m.record = none ∧ Applier.resolve policy existing m = noRecords) ∨
      (∃ x, (existing = some x ∨ m.record = some x) ∧
        Applier.resolve policy existing m = .single x) ∨
      (policy = .keepSiblings ∧ ∃ r q recs, existing = some r ∧ m.record = some q ∧
        recs.Perm [r, q] ∧ Applier.resolve policy existing m = .siblings recs) := by
  have hlww : ∀ e q : Option StoredRecord,
      (e = none ∧ q = none ∧ hlcLastWriteWins e.toList q = noRecords) ∨
        ∃ x, (e = some x ∨ q = some x) ∧ hlcLastWriteWins e.toList q = .single x := by
    intro e q
    cases e with
    | none =>
      cases q with
      | none => exact .inl ⟨rfl, rfl, rfl⟩
      | some q => exact .inr ⟨q, .inr rfl, rfl⟩
    | some r =>
      cases q with
      | none => exact .inr ⟨r, .inl rfl, rfl⟩
      | some q =>
        refine .inr ⟨_, ?_, hlcLastWriteWins_pair r q⟩
        split
        · exact .inl rfl
        · exact .inr rfl
  have hother : Policy.resolve policy = hlcLastWriteWins ∨ policy = .keepSiblings := by
    cases policy with
    | hlcLastWriteWins => exact .inl rfl
    | keepSiblings => exact .inr rfl
    | other name => exact .inl rfl
  rcases hother with hres | rfl
  · unfold Applier.resolve
    rw [hres]
    rcases hlww existing m.record with h | h
    · exact .inl h
    · exact .inr (.inl h)
  · unfold Applier.resolve
    simp only [Policy.resolve]
    cases he : existing with
    | none =>
      cases hq : m.record with
      | none => exact .inl ⟨rfl, rfl, rfl⟩
      | some q => exact .inr (.inl ⟨q, .inr rfl, (keepSiblings_alone q).2⟩)
    | some r =>
      cases hq : m.record with
      | none => exact .inr (.inl ⟨r, .inl rfl, (keepSiblings_alone r).1⟩)
      | some q =>
        by_cases hw : writerKey q.version = writerKey r.version
        · refine .inr (.inl ⟨_, ?_, keepSiblings_sameWriter hw⟩)
          split
          · exact .inr rfl
          · exact .inl rfl
        · refine .inr (.inr ⟨trivial, r, q, _, rfl, rfl, ?_, keepSiblings_twoWriters hw⟩)
          split
          · exact List.Perm.refl _
          · exact List.Perm.swap r q []

/-! ## The interleaving -/

/-- A call of the applier between its read and its write. -/
structure Inflight where
  policy : Policy
  mutation : GlobalMutation
  existing : Option StoredRecord

structure KeyState where
  applier : Applier
  inflight : List Inflight := []

inductive KeyEvent where
  /-- `Store.Apply`. -/
  | apply (rec : StoredRecord) (kind : MutationKind)
  /-- `Applier.Apply` up to its read of the key. -/
  | read (policy : Policy) (m : GlobalMutation)
  /-- The rest of the `i`-th call that has read. -/
  | write (i : Nat)

namespace KeyState

def step (st : KeyState) : KeyEvent → KeyState
  | .apply rec kind =>
    match st.applier.store.apply rec kind with
    | some (_, s) => { st with applier := { st.applier with store := s } }
    | none => st
  | .read policy m =>
    if st.applier.applied.contains (mutationKey m.id) then st
    else if isMutationNamespace m.ns then { st with applier := st.applier.record m }
    else { st with
      inflight := st.inflight ++ [⟨policy, m, st.applier.store.getRecord m.ns m.key⟩] }
  | .write i =>
    match st.inflight[i]? with
    | none => st
    | some c =>
      match Applier.write st.applier.store c.mutation
          (Applier.resolve c.policy c.existing c.mutation) with
      | some s =>
        { applier := ({ st.applier with store := s } : Applier).record c.mutation,
          inflight := st.inflight.eraseIdx i }
      | none => { st with inflight := st.inflight.eraseIdx i }

def init (clusterID memberID : Bytes) (clock : Clock) (seq : Sequencer) : KeyState :=
  { applier := { store := newStore {} clusterID memberID clock seq } }

def pointer? (st : KeyState) (ns key : Bytes) : Option LatestPointer :=
  st.applier.store.pointer? ns key

/-- The key's winner is in `b` at least what it was in `a`. -/
def NotBack (ns key : Bytes) (a b : KeyState) : Prop :=
  ∀ lp, a.pointer? ns key = some lp →
    ∃ lp', b.pointer? ns key = some lp' ∧ lp.winner ≤ lp'.winner

end KeyState

def GlobalMutation.Of (m : GlobalMutation) (ns key : Bytes) : Prop :=
  m.ns = ns ∧ m.key = key ∧ ∀ r, m.record = some r → r.Of ns key

def KeyEvent.On (ns key : Bytes) : KeyEvent → Prop
  | .apply rec _ => rec.Of ns key
  | .read _ m => m.Of ns key
  | .write _ => True

/-- A keep-siblings write finds the record its call has read. -/
def Undisturbed (ns key : Bytes) (st : KeyState) : KeyEvent → Prop
  | .write i => ∀ c, st.inflight[i]? = some c → c.policy = .keepSiblings →
      st.applier.store.getRecord ns key = c.existing
  | _ => True

/-! ## Invariant and step -/

/-- The store keeps the key, and every call in flight is about it. -/
structure KeyState.Sound (ns key : Bytes) (st : KeyState) : Prop where
  store : OneKey st.applier.store ns key
  inflight : ∀ c ∈ st.inflight, c.mutation.Of ns key ∧ ∀ r, c.existing = some r → r.Of ns key

theorem KeyState.sound_init (clusterID memberID : Bytes) (clock : Clock) (seq : Sequencer)
    (ns key : Bytes) : (KeyState.init clusterID memberID clock seq).Sound ns key where
  store := oneKey_newStore _ _ _ _ _ _
  inflight := by simp [KeyState.init]

section
variable {ns key : Bytes} {s : Store}

/-- `Store.apply` does not lower the winner. -/
theorem OneKey.apply_notBack (h : OneKey s ns key) {rec : StoredRecord} (hof : rec.Of ns key)
    (kind : MutationKind) :
    ∃ v s', s.apply rec kind = some (v, s') ∧ OneKey s' ns key ∧
      ∀ lp, s.pointer? ns key = some lp →
        ∃ lp', s'.pointer? ns key = some lp' ∧ lp.winner ≤ lp'.winner := by
  obtain ⟨s', lp', happ, hone, hptr, -, hwin⟩ := h.apply hof kind
  refine ⟨_, s', happ, hone, fun lp hlp => ⟨lp', hptr, ?_⟩⟩
  rw [hwin, hlp]
  exact le_max_left _ _

/-- The write of a call does not lower the winner when a keep-siblings one finds
the record it read. -/
theorem write_notBack (h : OneKey s ns key) {c : Inflight} (hof : c.mutation.Of ns key)
    (hex : ∀ r, c.existing = some r → r.Of ns key)
    (hsame : c.policy = .keepSiblings → s.getRecord ns key = c.existing) :
    ∃ s', Applier.write s c.mutation (Applier.resolve c.policy c.existing c.mutation) = some s' ∧
      OneKey s' ns key ∧
      ∀ lp, s.pointer? ns key = some lp →
        ∃ lp', s'.pointer? ns key = some lp' ∧ lp.winner ≤ lp'.winner := by
  rcases resolve_cases c.policy c.existing c.mutation with
    ⟨-, -, hres⟩ | ⟨x, hx, hres⟩ | ⟨hpol, r, q, recs, hr, hq, hperm, hres⟩
  · rw [hres]
    exact ⟨s, rfl, h, fun lp hlp => ⟨lp, hlp, le_rfl⟩⟩
  · -- one record: the store compares it with its pointer
    have hxof : x.Of ns key := by
      rcases hx with hx | hx
      · exact hex x hx
      · exact hof.2.2 x hx
    obtain ⟨v, s', happ, hone, hmono⟩ :=
      h.apply_notBack hxof (if x.tombstone then .delete else .put)
    rw [hres, Applier.write_single, happ]
    exact ⟨s', rfl, hone, hmono⟩
  · -- two records, one of which is the standing winner
    have hrecs : ∀ x ∈ recs, x.Of ns key := by
      intro x hx
      have hx' := hperm.mem_iff.mp hx
      simp only [List.mem_cons, List.not_mem_nil, or_false] at hx'
      rcases hx' with rfl | rfl
      · exact hex x hr
      · exact hof.2.2 x hq
    have hne : recs ≠ [] := fun he => by
      rw [he] at hperm
      exact absurd hperm.length_eq (by simp)
    obtain ⟨hone, lp', hptr, -, hmax, -⟩ := h.applySiblings hne hrecs
    have hwrite : Applier.write s c.mutation (Applier.resolve c.policy c.existing c.mutation) =
        some (s.applySiblings ns key recs) := by
      rw [hres]
      show some (s.applySiblings c.mutation.ns c.mutation.key recs) = _
      rw [hof.1, hof.2.1]
    refine ⟨_, hwrite, hone, fun lp hlp => ⟨lp', hptr, ?_⟩⟩
    obtain ⟨-, lp₀, hlp₀, hver⟩ := h.getRecord ((hsame hpol).trans hr)
    rw [hlp] at hlp₀
    cases hlp₀
    rw [← hver]
    exact hmax r (hperm.mem_iff.mpr (by simp))

end

/-- One step of the interleaving keeps the key and does not lower its winner. -/
theorem KeyState.Sound.step {ns key : Bytes} {st : KeyState} (h : st.Sound ns key) {e : KeyEvent}
    (hon : e.On ns key) (hun : Undisturbed ns key st e) :
    (st.step e).Sound ns key ∧ KeyState.NotBack ns key st (st.step e) := by
  have hrefl : KeyState.NotBack ns key st st := fun lp hlp => ⟨lp, hlp, le_rfl⟩
  cases e with
  | apply rec kind =>
    obtain ⟨v, s', happ, hone, hmono⟩ := h.store.apply_notBack hon kind
    have hstep : st.step (.apply rec kind) =
        { st with applier := { st.applier with store := s' } } := by
      simp only [KeyState.step, happ]
    rw [hstep]
    exact ⟨⟨hone, h.inflight⟩, hmono⟩
  | read policy m =>
    unfold KeyState.step
    simp only
    split
    · exact ⟨h, hrefl⟩
    · split
      · exact ⟨⟨h.store, h.inflight⟩, hrefl⟩
      · refine ⟨⟨h.store, ?_⟩, hrefl⟩
        intro c hc
        rcases List.mem_append.mp hc with hc | hc
        · exact h.inflight c hc
        · obtain rfl := List.mem_singleton.mp hc
          refine ⟨hon, fun r hr => ?_⟩
          simp only [hon.1, hon.2.1] at hr
          exact (h.store.getRecord hr).1
  | write i =>
    cases hc : st.inflight[i]? with
    | none =>
      have hstep : st.step (.write i) = st := by simp only [KeyState.step, hc]
      rw [hstep]
      exact ⟨h, hrefl⟩
    | some c =>
      obtain ⟨hof, hex⟩ := h.inflight c (List.mem_of_getElem? hc)
      obtain ⟨s', hw, hone, hmono⟩ := write_notBack h.store hof hex (hun c hc)
      have hstep : st.step (.write i) =
          { applier := ({ st.applier with store := s' } : Applier).record c.mutation,
            inflight := st.inflight.eraseIdx i } := by
        simp only [KeyState.step, hc, hw]
      rw [hstep]
      exact ⟨⟨hone, fun d hd => h.inflight d (List.mem_of_mem_eraseIdx hd)⟩, hmono⟩

/-- On one key, in every interleaving whose keep-siblings writes find the record
they read, the winner never goes back. -/
theorem winner_never_back (clusterID memberID : Bytes) (clock : Clock) (seq : Sequencer)
    (ns key : Bytes) (pre post : List KeyEvent)
    (hon : ∀ e ∈ pre ++ post, e.On ns key)
    (hun : Along KeyState.step (Undisturbed ns key)
      (KeyState.init clusterID memberID clock seq) (pre ++ post)) :
    KeyState.NotBack ns key
      (pre.foldl KeyState.step (KeyState.init clusterID memberID clock seq))
      ((pre ++ post).foldl KeyState.step (KeyState.init clusterID memberID clock seq)) := by
  have hguard : Along KeyState.step (fun st e => e.On ns key ∧ Undisturbed ns key st e)
      (KeyState.init clusterID memberID clock seq) (pre ++ post) := hun.and_mem hon
  obtain ⟨hpre, hpost⟩ := along_append.mp hguard
  have hsound := hpre.invariant (I := KeyState.Sound ns key)
    (fun st e hs hok => (hs.step hok.1 hok.2).1)
    (KeyState.sound_init clusterID memberID clock seq ns key)
  rw [List.foldl_append]
  refine hpost.relates (I := KeyState.Sound ns key)
    (R := KeyState.NotBack ns key) ?_ ?_ ?_ ?_ hsound
  · exact fun st lp hlp => ⟨lp, hlp, le_rfl⟩
  · intro a b c hab hbc lp hlp
    obtain ⟨lp', hlp', hle⟩ := hab lp hlp
    obtain ⟨lp'', hlp'', hle'⟩ := hbc lp' hlp'
    exact ⟨lp'', hlp'', hle.trans hle'⟩
  · exact fun st e hs hok => (hs.step hok.1 hok.2).1
  · exact fun st e hs hok => (hs.step hok.1 hok.2).2

def siblingRecord (cluster : UInt8) (seq physicalMs : UInt64) : StoredRecord :=
  { ns := [0x6e], logicalKey := [0x6b], value := .inline [cluster],
    version := { hlcPhysicalMs := physicalMs, writerClusterID := [cluster],
                 writerMemberID := [0x6d], writerSequence := seq } }

def siblingMutation (cluster : UInt8) (seq physicalMs : UInt64) : GlobalMutation :=
  { id := ⟨[cluster], [0x6d], seq⟩, ns := [0x6e], key := [0x6b],
    record := some (siblingRecord cluster seq physicalMs) }

/-- A keep-siblings call that is not disturbed between its read and its write. -/
theorem winner_never_back_undisturbed :
    KeyState.NotBack [0x6e] [0x6b]
      ([KeyEvent.apply (siblingRecord 0x62 1 5) .put].foldl KeyState.step
        (KeyState.init [] [] (newClock 500) (newSequencer 0)))
      ([KeyEvent.apply (siblingRecord 0x62 1 5) .put,
        .read .keepSiblings (siblingMutation 0x61 1 3), .write 0].foldl KeyState.step
        (KeyState.init [] [] (newClock 500) (newSequencer 0))) := by
  refine winner_never_back [] [] (newClock 500) (newSequencer 0) [0x6e] [0x6b]
    [.apply (siblingRecord 0x62 1 5) .put]
    [.read .keepSiblings (siblingMutation 0x61 1 3), .write 0] ?_ ?_
  · intro e he
    simp only [List.cons_append, List.nil_append, List.mem_cons, List.not_mem_nil, or_false] at he
    rcases he with rfl | rfl | rfl
    · exact ⟨rfl, rfl⟩
    · exact ⟨rfl, rfl, fun r hr => by cases hr; exact ⟨rfl, rfl⟩⟩
    · trivial
  · refine ⟨trivial, trivial, fun c hc _ => ?_, trivial⟩
    cases hc
    decide +kernel

/-- Cluster `b` wrote version 1. A keep-siblings call for cluster `a`'s version 2
reads it; then cluster `b`'s version 10 is applied; then the call writes the two
records it knows, and the winner goes back from 10 to 2. -/
theorem winner_goes_back :
    let init := KeyState.init [] [] (newClock 500) (newSequencer 0)
    let pre := [KeyEvent.apply (siblingRecord 0x62 1 1) .put,
      .read .keepSiblings (siblingMutation 0x61 1 2), .apply (siblingRecord 0x62 2 10) .put]
    ((pre.foldl KeyState.step init).pointer? [0x6e] [0x6b]).map (·.winner.hlcPhysicalMs) =
        some 10 ∧
      (((pre ++ [KeyEvent.write 0]).foldl KeyState.step init).pointer? [0x6e] [0x6b]).map
        (·.winner.hlcPhysicalMs) = some 2 := by
  decide +kernel

end WaveSpan.Records
