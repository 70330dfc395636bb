/-
WaveSpan.Records.Inbound — an inbound mutation that was applied is in the store
(`internal/replication/global/applier.go`, `cmd/wavespan-node/main.go`).

`Applier.apply` marks a mutation as applied and answers so on two routes. On the route of records
the store's winner for the key is at least as new as the mutation's record afterwards, if that is a
record of the key (`effect_own`). Mutations of the reserved vector namespaces take the other route,
to a vector sink. The node installs none: it counts on the record store's observer, which sees only
what the record store is given, and that route gives it nothing. Such a mutation is marked, answered
as applied and dropped, and its retries are replays (`vector_mutation_dropped`).

The record of a mutation names a key of its own, and the store files it there; that
it is the mutation's key is up to the sender. Without that, or on the route of vectors,
the mutation takes effect only where the winner was as new already (`TakesEffect`).
-/
import WaveSpan.Records.Applier

namespace WaveSpan.Records

open WaveSpan.Wire WaveSpan.Collections

/-- Every record is filed under its own key and version. -/
def Store.Filed (s : Store) : Prop :=
  ∀ ns key v r, s.disk.kvData[dataKey ns key v]? = some r →
    r.ns = ns ∧ r.logicalKey = key ∧ r.version = v

namespace Store

variable {s s' : Store} {rec : StoredRecord} {kind : MutationKind} {v : Version}

theorem filed_of_empty (h : s.disk.kvData = ∅) : s.Filed := by
  intro ns key v r hrow
  simp [h] at hrow

/-- Applying a record keeps the store filed, whatever wins. -/
theorem Filed.apply (h : s.Filed) (happly : s.apply rec kind = some (v, s')) : s'.Filed := by
  intro ns key w r hrow
  rw [Store.apply, Option.map_eq_some_iff] at happly
  obtain ⟨sel, -, heq⟩ := happly
  cases heq
  rw [commit_data] at hrow
  split at hrow
  · rename_i hrec
    cases hrow
    exact hrec
  · exact h ns key w r hrow

end Store

/-- The version of a mutation's record; the zero version if it has none. -/
def GlobalMutation.version (m : GlobalMutation) : Version := (m.record.map (·.version)).getD {}

/-- The TTL index entry of a record stands where the pointer of a key does. -/
def StoredRecord.Covers (rec : StoredRecord) (ns key : Bytes) : Prop :=
  rec.tombstone = false ∧
    ∃ e, rec.expiresAtUnixMs = some e ∧ ttlKey e rec.ns rec.logicalKey = latestKey ns key

theorem Version.zero_le (v : Version) : ({} : Version) ≤ v := by
  have hwords : ∀ x : UInt64, cmpUint64 0 x ≠ .gt := fun x => by
    rw [cmpUint64]
    split
    · decide
    · rw [if_neg (by simp)]
      decide
  have hword : cmpUint32 0 v.hlcLogical ≠ .gt := by
    rw [cmpUint32]
    split
    · decide
    · rw [if_neg (by simp)]
      decide
  have hbytes : ∀ b : Bytes, Ord.compare ([] : Bytes) b ≠ .gt := fun b => by cases b <;> simp
  rw [Version.le_def, Version.compare]
  grind

/-- A write of one key leaves the pointers of the others, but for one its index entry covers. -/
theorem Store.pointer?_apply_of_ne {s s' : Store} {rec : StoredRecord} {kind : MutationKind}
    {v : Version} (happly : s.apply rec kind = some (v, s')) {ns key : Bytes}
    (hne : ¬ (rec.ns = ns ∧ rec.logicalKey = key)) :
    (¬ rec.Covers ns key → s'.pointer? ns key = s.pointer? ns key) ∧
      (rec.Covers ns key → s'.pointer? ns key = none) := by
  rw [Store.apply, Option.map_eq_some_iff] at happly
  obtain ⟨sel, -, heq⟩ := happly
  cases heq
  have hrow : ∀ row : MetaRow, (s.disk.kvMeta.insert (latestKey rec.ns rec.logicalKey) row)[
      latestKey ns key]? = s.disk.kvMeta[latestKey ns key]? := fun row => by
    rw [Std.ExtTreeMap.getElem?_insert, if_neg]
    simpa [latestKey_inj] using hne
  constructor
  · intro hclear
    have hmeta : (s.commit rec kind sel).disk.kvMeta[latestKey ns key]? =
        s.disk.kvMeta[latestKey ns key]? := by
      show (indexTTL rec _)[latestKey ns key]? = _
      rw [indexTTL]
      split
      · rename_i e he
        split
        · exact hrow _
        · rename_i hlive
          rw [Std.ExtTreeMap.getElem?_insert, if_neg, hrow]
          simpa using fun h => hclear ⟨by simpa using hlive, e, he, h⟩
      · exact hrow _
    rw [Store.pointer?, hmeta, ← Store.pointer?]
  · rintro ⟨hlive, e, he, hkey⟩
    have hmeta : (s.commit rec kind sel).disk.kvMeta[latestKey ns key]? =
        some (.ttl (encodeVersion rec.version)) := by
      show (indexTTL rec _)[latestKey ns key]? = _
      simp only [indexTTL, he, hlive, Bool.false_eq_true, if_false]
      rw [hkey, Std.ExtTreeMap.getElem?_insert_self]
    rw [Store.pointer?, hmeta]
    rfl

/-- A mutation is off the route of vectors and has a record of its own key, or the winner of its key
is as new already, and no index entry the mutation brings covers the pointer. -/
def TakesEffect (s : Store) (m : GlobalMutation) : Prop :=
  (isMutationNamespace m.ns = false ∧
      ∃ rec, m.record = some rec ∧ rec.ns = m.ns ∧ rec.logicalKey = m.key) ∨
    (∃ lp, s.pointer? m.ns m.key = some lp ∧ m.version ≤ lp.winner) ∧
      (isMutationNamespace m.ns = false → ∀ rec, m.record = some rec → rec.Covers m.ns m.key →
        ∃ r, s.getRecord m.ns m.key = some r ∧ r.version.compare rec.version = .gt)

section
variable {s s' : Store} {m : GlobalMutation}

/-- A record of the mutation's key, as new as the mutation, is written. -/
theorem effect_own {r : StoredRecord} (hkey : r.ns = m.ns ∧ r.logicalKey = m.key)
    (hle : m.version ≤ r.version) (hwrite : Applier.write s m (.single r) = some s') :
    ∃ lp, s'.pointer? m.ns m.key = some lp ∧ m.version ≤ lp.winner := by
  rw [Applier.write_single] at hwrite
  obtain ⟨⟨v, s''⟩, happly, rfl⟩ := Option.map_eq_some_iff.mp hwrite
  obtain ⟨lp, hlp, hwin⟩ := Store.apply_effect happly
  rw [hkey.1, hkey.2] at hlp
  exact ⟨lp, hlp, hle.trans hwin⟩

/-- The stored record of a key names the key, and the pointer names its version. -/
theorem Store.Filed.stored (hfiled : s.Filed) {r : StoredRecord}
    (hget : s.getRecord m.ns m.key = some r) :
    (r.ns = m.ns ∧ r.logicalKey = m.key) ∧
      ∃ lp, s.pointer? m.ns m.key = some lp ∧ lp.winner = r.version := by
  obtain ⟨lp, hlp, hrow⟩ := Option.bind_eq_some_iff.mp hget
  obtain ⟨hns, hkey, hver⟩ := hfiled _ _ _ _ hrow
  exact ⟨⟨hns, hkey⟩, lp, hlp, hver.symm⟩

/-- Whatever last-write-wins picks, the store is filed after it. -/
theorem filed_write (hfiled : s.Filed) {existing : List StoredRecord}
    (hwrite : Applier.write s m (hlcLastWriteWins existing m.record) = some s') : s'.Filed := by
  unfold hlcLastWriteWins at hwrite
  simp only at hwrite
  split at hwrite
  · cases hwrite
    exact hfiled
  · rw [Applier.write_single] at hwrite
    obtain ⟨⟨v, s''⟩, happly, rfl⟩ := Option.map_eq_some_iff.mp hwrite
    exact hfiled.apply happly

/-- What a mutation off the route of vectors does for its key. -/
theorem effect_iff (hfiled : s.Filed) (hvector : isMutationNamespace m.ns = false)
    (hwrite : Applier.write s m (hlcLastWriteWins (s.getRecord m.ns m.key).toList m.record) =
      some s') :
    (∃ lp, s'.pointer? m.ns m.key = some lp ∧ m.version ≤ lp.winner) ↔ TakesEffect s m := by
  cases hrec : m.record with
  | none =>
    have hzero : m.version = {} := by rw [GlobalMutation.version, hrec]; rfl
    have heffect : TakesEffect s m ↔
        ∃ lp, s.pointer? m.ns m.key = some lp ∧ m.version ≤ lp.winner := by
      simp [TakesEffect, hrec]
    rw [hrec] at hwrite
    rw [heffect]
    cases hget : s.getRecord m.ns m.key with
    | none =>
      rw [hget] at hwrite
      cases hwrite
      rfl
    | some r =>
      obtain ⟨hkey, lp, hlp, -⟩ := hfiled.stored hget
      have hle : ∀ v, m.version ≤ v := fun v => hzero ▸ Version.zero_le v
      rw [hget] at hwrite
      exact iff_of_true (effect_own hkey (hle _) hwrite) ⟨lp, hlp, hle _⟩
  | some rec =>
    have hver : m.version = rec.version := by rw [GlobalMutation.version, hrec]; rfl
    rw [hrec] at hwrite
    by_cases hnewer : ∃ r, s.getRecord m.ns m.key = some r ∧ r.version.compare rec.version = .gt
    · -- the stored record is written once more
      obtain ⟨r, hget, hgt⟩ := hnewer
      obtain ⟨hkey, lp, hlp, hwin⟩ := hfiled.stored hget
      have hle : m.version ≤ r.version := by
        rw [hver, Version.le_def, ← Version.compare_swap, hgt]
        decide
      rw [hget, Option.toList_some, hlcLastWriteWins_pair, if_pos hgt] at hwrite
      refine iff_of_true (effect_own hkey hle hwrite) (.inr ⟨⟨lp, hlp, hwin ▸ hle⟩, ?_⟩)
      rintro - _ h' -
      obtain rfl := Option.some.inj (hrec.symm.trans h')
      exact ⟨r, hget, hgt⟩
    · have hsingle : hlcLastWriteWins (s.getRecord m.ns m.key).toList (some rec) =
          .single rec := by
        cases hget : s.getRecord m.ns m.key with
        | none => rfl
        | some r =>
          rw [Option.toList_some, hlcLastWriteWins_pair, if_neg fun hgt => hnewer ⟨r, hget, hgt⟩]
      rw [hsingle] at hwrite
      by_cases hkey : rec.ns = m.ns ∧ rec.logicalKey = m.key
      · exact iff_of_true (effect_own hkey hver.le hwrite) (.inl ⟨hvector, rec, hrec, hkey⟩)
      · -- a record of another key
        rw [Applier.write_single] at hwrite
        obtain ⟨⟨v, s''⟩, happly, rfl⟩ := Option.map_eq_some_iff.mp hwrite
        obtain ⟨hclear, hcovered⟩ := Store.pointer?_apply_of_ne happly hkey
        have hother : TakesEffect s m ↔
            (∃ lp, s.pointer? m.ns m.key = some lp ∧ m.version ≤ lp.winner) ∧
              ¬ rec.Covers m.ns m.key := by
          simp only [TakesEffect, hvector, hrec, Option.some.injEq, true_implies]
          grind
        rw [hother]
        by_cases hcovers : rec.Covers m.ns m.key
        · simp [hcovered hcovers, hcovers]
        · simp [hclear hcovers, hcovers]

end

/-- Under a policy that resolves by last write, a mutation that is answered as newly applied takes
effect, so that the winner of its key is at least as new as its record, under the condition above
and only then; and the store is filed still. -/
theorem applied_takes_effect (policyFor : Bytes → Policy) (a a' : Applier) (m : GlobalMutation)
    (hfiled : a.store.Filed) (hpolicy : policyFor m.ns ≠ .keepSiblings)
    (happly : a.apply policyFor m = some (true, a')) :
    ((∃ lp, a'.store.pointer? m.ns m.key = some lp ∧ m.version ≤ lp.winner) ↔
      TakesEffect a.store m) ∧ a'.store.Filed := by
  have hlww : (policyFor m.ns).resolve = hlcLastWriteWins := by
    cases hp : policyFor m.ns <;> first | rfl | exact absurd hp hpolicy
  unfold Applier.apply at happly
  split at happly
  · cases happly
  · split at happly
    · rename_i hvector
      cases happly
      refine ⟨?_, hfiled⟩
      show (∃ lp, a.store.pointer? m.ns m.key = some lp ∧ _) ↔ _
      simp [TakesEffect, hvector]
    · rename_i hvector
      obtain ⟨s', hwrite, heq⟩ := Option.map_eq_some_iff.mp happly
      cases heq
      rw [Applier.resolve, hlww] at hwrite
      exact ⟨effect_iff hfiled (by simpa using hvector) hwrite, filed_write hfiled hwrite⟩

/-- A mutation of another cluster for one key of a namespace. -/
def inboundMutation (ns : Bytes) : GlobalMutation :=
  { id := { clusterId := [0x62], memberId := [0x6d], writerSequence := 1 },
    ns, key := [0x6b],
    record := some
      { ns, logicalKey := [0x6b], value := .inline [1],
        version := { hlcPhysicalMs := 5, writerClusterID := [0x62], writerSequence := 1 } } }

def emptyApplier : Applier :=
  { store := newStore {} [0x61] [0x6d] (newClock 500) (newSequencer 0) }

theorem applied_takes_effect_firstRecord :
    ∃ a', emptyApplier.apply (fun _ => .hlcLastWriteWins) (inboundMutation [0x6e]) =
        some (true, a') ∧
      ∃ lp, a'.store.pointer? [0x6e] [0x6b] = some lp ∧
        ({ hlcPhysicalMs := 5, writerClusterID := [0x62], writerSequence := 1 } : Version) ≤
          lp.winner :=
  ⟨_, rfl, (applied_takes_effect (fun _ => .hlcLastWriteWins) emptyApplier _
    (inboundMutation [0x6e]) (Store.filed_of_empty rfl) (by decide) rfl).1.mpr
      (.inl ⟨by decide, _, rfl, rfl, rfl⟩)⟩

/-- The first mutation of a vector namespace is answered as applied, the store has
no winner for its key afterwards, and the next delivery is a replay. -/
theorem vector_mutation_dropped :
    let m := inboundMutation [0, 0x76, 0x65, 0x63, 0, 0x63]
    let answer := emptyApplier.apply (fun _ => .hlcLastWriteWins) m
    answer.map (·.1) = some true ∧
      (answer.map fun x => (x.2.store.pointer? m.ns m.key).isSome) = some false ∧
      (answer.bind fun x => (x.2.apply (fun _ => .hlcLastWriteWins) m).map (·.1)) = some false := by
  decide +kernel

end WaveSpan.Records
