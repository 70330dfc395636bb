/-
WaveSpan.Records.Applier — conflict policies and the cross-cluster applier
(`internal/conflict`, `internal/replication/global/applier.go`).

A mutation from another cluster is resolved against what the store holds for its
key, by the namespace's policy. Last-write-wins picks the record of the highest
version; keep-siblings picks each writer's highest and keeps them side by side.
The result goes to `Store.apply` when it is one record and to
`Store.applySiblings` when it is several. What the resolver is shown of the store
is the winning record alone.

`Applier.resolve` is the part of a call up to and including the read,
`Applier.write` the store write, so that the two can be interleaved with other
calls.
-/
import WaveSpan.Records.Converge
import Mathlib.Data.List.Sort

namespace WaveSpan.Records

open WaveSpan.Wire WaveSpan.Collections

/-! ## Resolvers -/

inductive ResolveResult where
  | winner (rec : StoredRecord)
  | tombstone (rec : StoredRecord)
  | siblings (recs : List StoredRecord)
  | reject (reason : String)
  deriving DecidableEq, Repr

def ResolveResult.single (r : StoredRecord) : ResolveResult :=
  if r.tombstone then .tombstone r else .winner r

def noRecords : ResolveResult := .reject "no records to resolve"

/-- The record of the highest version, the incoming one among equals. -/
def hlcLastWriteWins (existing : List StoredRecord) (incoming : Option StoredRecord) :
    ResolveResult :=
  let winner := existing.foldl (fun w e =>
    match w with
    | none => some e
    | some x => if e.version.compare x.version = .gt then some e else some x) incoming
  match winner with
  | none => noRecords
  | some r => .single r

def writerKey (v : Version) : Bytes := v.writerClusterID ++ 0 :: v.writerMemberID

/-- Keeps a record when it is its writer's first or newest. -/
def considerSibling (byWriter : GoMap StoredRecord) (r : StoredRecord) : GoMap StoredRecord :=
  match byWriter[writerKey r.version]? with
  | none => byWriter.insert (writerKey r.version) r
  | some cur =>
    if r.version.compare cur.version = .gt then byWriter.insert (writerKey r.version) r
    else byWriter

/-- Each writer's newest record, side by side in version order. -/
def keepSiblings (existing : List StoredRecord) (incoming : Option StoredRecord) :
    ResolveResult :=
  let byWriter := (existing ++ incoming.toList).foldl considerSibling ∅
  let sibs := (byWriter.toList.map (·.2)).insertionSort (fun a b => a.version ≤ b.version)
  match sibs with
  | [] => noRecords
  | [r] => .single r
  | _ => .siblings sibs

/-! ## One record against one record -/

theorem hlcLastWriteWins_pair (r q : StoredRecord) :
    hlcLastWriteWins [r] (some q) =
      .single (if r.version.compare q.version = .gt then r else q) := by
  by_cases h : r.version.compare q.version = .gt <;> simp [hlcLastWriteWins, h]

/-- A record alone is its writer's newest. -/
theorem keepSiblings_alone (q : StoredRecord) :
    keepSiblings [q] none = .single q ∧ keepSiblings [] (some q) = .single q := by
  have hmap : (considerSibling ∅ q).toList = [(writerKey q.version, q)] := by
    have hperm := Rows.toList_perm_of_getElem? (m := considerSibling ∅ q)
      (k := writerKey q.version) (v := q) (by simp [considerSibling])
    have herase : (considerSibling ∅ q).erase (writerKey q.version) = ∅ := by
      simp [considerSibling, Rows.erase_insert]
    rw [herase] at hperm
    exact List.perm_singleton.mp hperm
  constructor <;> simp [keepSiblings, hmap]

/-- Two records of one writer: the newer one stands. -/
theorem keepSiblings_sameWriter {r q : StoredRecord}
    (h : writerKey q.version = writerKey r.version) :
    keepSiblings [r] (some q) =
      .single (if q.version.compare r.version = .gt then q else r) := by
  have hstep : [r, q].foldl considerSibling ∅ =
      considerSibling ∅ (if q.version.compare r.version = .gt then q else r) := by
    apply Std.ExtTreeMap.ext_getElem?
    intro k
    by_cases hgt : q.version.compare r.version = .gt
    · simp only [List.foldl_cons, List.foldl_nil, considerSibling, h, hgt, if_true,
        Std.ExtTreeMap.getElem?_empty, Std.ExtTreeMap.getElem?_insert_self]
      simp only [Std.ExtTreeMap.getElem?_insert, Std.ExtTreeMap.getElem?_empty]
      split <;> rfl
    · simp only [List.foldl_cons, List.foldl_nil, considerSibling, h, hgt, if_false,
        Std.ExtTreeMap.getElem?_empty, Std.ExtTreeMap.getElem?_insert_self]
  have halone := (keepSiblings_alone (if q.version.compare r.version = .gt then q else r)).2
  unfold keepSiblings at halone ⊢
  simp only [Option.toList_some, List.cons_append, List.nil_append, hstep]
  exact halone

/-- Two records of different writers stand side by side, the lower version
first. -/
theorem keepSiblings_twoWriters {r q : StoredRecord}
    (h : writerKey q.version ≠ writerKey r.version) :
    keepSiblings [r] (some q) = .siblings (if r.version ≤ q.version then [r, q] else [q, r]) := by
  have hmap : [r, q].foldl considerSibling ∅ =
      ((∅ : GoMap StoredRecord).insert (writerKey r.version) r).insert (writerKey q.version) q := by
    simp [considerSibling, Ne.symm h]
  have hperm : (([r, q].foldl considerSibling ∅).toList.map (·.2)).Perm [q, r] := by
    have hq := Rows.toList_perm_of_getElem? (m := [r, q].foldl considerSibling ∅)
      (k := writerKey q.version) (v := q) (by rw [hmap]; simp)
    have herase : ([r, q].foldl considerSibling ∅).erase (writerKey q.version) =
        considerSibling ∅ r := by
      rw [hmap, Rows.erase_insert, Rows.erase_eq_self]
      · simp [considerSibling]
      · simp [Ne.symm h]
    have hr := Rows.toList_perm_of_getElem? (m := considerSibling ∅ r)
      (k := writerKey r.version) (v := r) (by simp [considerSibling])
    have hempty : (considerSibling ∅ r).erase (writerKey r.version) = ∅ := by
      simp [considerSibling, Rows.erase_insert]
    rw [herase] at hq
    rw [hempty] at hr
    exact (hq.trans (hr.cons _)).map (·.2)
  have hsorted : (([r, q].foldl considerSibling ∅).toList.map (·.2)).insertionSort
      (fun a b => a.version ≤ b.version) = if r.version ≤ q.version then [r, q] else [q, r] := by
    have hne : r.version ≠ q.version := fun he => h (by rw [he])
    have : Std.Total (fun a b : StoredRecord => a.version ≤ b.version) :=
      ⟨fun a b => le_total a.version b.version⟩
    have : IsTrans StoredRecord (fun a b => a.version ≤ b.version) :=
      ⟨fun _ _ _ => le_trans⟩
    have hpick : (if r.version ≤ q.version then [r, q] else [q, r]).Perm [q, r] := by
      split
      · exact List.Perm.swap q r []
      · exact List.Perm.refl _
    refine List.Perm.eq_of_pairwise ?_ (List.pairwise_insertionSort _ _) ?_
      (((List.perm_insertionSort _ _).trans hperm).trans hpick.symm)
    · -- of the two records, only one and the same are level
      intro a b ha hb hab hba
      have ha' := (((List.perm_insertionSort _ _).trans hperm).mem_iff.mp ha)
      have hb' := hpick.mem_iff.mp hb
      simp only [List.mem_cons, List.not_mem_nil, or_false] at ha' hb'
      rcases ha' with rfl | rfl <;> rcases hb' with rfl | rfl
      · rfl
      · exact absurd (le_antisymm hba hab) hne
      · exact absurd (le_antisymm hab hba) hne
      · rfl
    · split
      · rename_i hle
        simpa using hle
      · rename_i hle
        simpa using le_of_not_ge hle
  unfold keepSiblings
  simp only [Option.toList_some, List.cons_append, List.nil_append]
  rw [hsorted]
  by_cases hle : r.version ≤ q.version <;> simp [hle]

inductive Policy where
  | hlcLastWriteWins
  | keepSiblings
  | other (name : Bytes)
  deriving DecidableEq, Repr

def Policy.resolve : Policy → List StoredRecord → Option StoredRecord → ResolveResult
  | .keepSiblings => Records.keepSiblings
  | _ => Records.hlcLastWriteWins

/-! ## The applier -/

structure GlobalMutationId where
  clusterId : Bytes
  memberId : Bytes
  writerSequence : UInt64
  deriving DecidableEq, Repr

/-- A mutation shipped to a peer cluster. -/
structure GlobalMutation where
  id : GlobalMutationId
  ns : Bytes
  key : Bytes
  record : Option StoredRecord
  deriving DecidableEq, Repr

def mutationKey (id : GlobalMutationId) : Bytes :=
  id.clusterId ++ 0 :: (id.memberId ++ 0 :: formatUint id.writerSequence)

/-- Whether a namespace carries wrapped vectors: `"\x00vec\x00"` at its front. -/
def isMutationNamespace (ns : Bytes) : Bool := [0, 0x76, 0x65, 0x63, 0].isPrefixOf ns

structure Applier where
  store : Store
  applied : GoMap Unit := ∅

namespace Applier

def resolve (policy : Policy) (existing : Option StoredRecord) (m : GlobalMutation) :
    ResolveResult :=
  policy.resolve existing.toList m.record

def write (s : Store) (m : GlobalMutation) : ResolveResult → Option Store
  | .winner rec => (s.apply rec .put).map (·.2)
  | .tombstone rec => (s.apply rec .delete).map (·.2)
  | .siblings recs => some (s.applySiblings m.ns m.key recs)
  | .reject _ => some s

/-- A resolved record reaches the store through `Store.apply`. -/
theorem write_single (s : Store) (m : GlobalMutation) (x : StoredRecord) :
    write s m (.single x) = (s.apply x (if x.tombstone then .delete else .put)).map (·.2) := by
  unfold ResolveResult.single
  cases x.tombstone <;> rfl

def record (a : Applier) (m : GlobalMutation) : Applier :=
  { a with applied := a.applied.insert (mutationKey m.id) () }

/-- Applies a mutation: whether it was news, and the applier after it. A vector
mutation goes to the vector store and only its identity is kept here. -/
def apply (policyFor : Bytes → Policy) (a : Applier) (m : GlobalMutation) :
    Option (Bool × Applier) :=
  if a.applied.contains (mutationKey m.id) then some (false, a)
  else if isMutationNamespace m.ns then some (true, a.record m)
  else
    let res := resolve (policyFor m.ns) (a.store.getRecord m.ns m.key) m
    (write a.store m res).map fun s => (true, ({ a with store := s } : Applier).record m)

end Applier

end WaveSpan.Records
