/-
WaveSpan.Records.Read — reads that fetch on a miss
(`internal/kv/read.go`, `internal/cache/fetch.go`).

A key that the node does not have is fetched from the members the directory resolves for it,
closest first, and from those a member without the record names instead. The answer to the
client says whether it is complete: a key that is not found may be on a member that could not
be asked.

`Reader.get` calls the answer incomplete when the fetch returns an error, and
`Fetcher.fetch` never does: a member that cannot be dialled or that fails is passed over, so
an answer is complete with no member asked (`unasked_complete`). What the fetch brings is the
first of the replies with the record, in the order in which members are asked (`offers`). An
answer is honest exactly if that reply is one the reader can show or, where there is none,
every member called answers (`complete_miss`).
-/
import WaveSpan.Cache.Directory
import WaveSpan.Membership.Roster
import WaveSpan.Records.Evict

namespace WaveSpan.Records

open WaveSpan.Wire WaveSpan.Collections WaveSpan.Membership

/-! ## The fetcher -/

structure SubscriptionOffer where
  sourceMemberId : Bytes
  sourceDataAddr : Bytes
  deriving DecidableEq, Repr

structure FetchReplicaResponse where
  found : Bool
  record : Option StoredRecord := none
  subscriptionOffer : Option SubscriptionOffer := none
  alternateHolderMemberIds : List Bytes := []
  deriving DecidableEq, Repr

inductive FetchCall where
  | dialFailed
  | rpcError
  | reply (resp : FetchReplicaResponse)
  deriving DecidableEq, Repr

def FetchCall.found? : FetchCall → Option FetchReplicaResponse
  | .reply resp => if resp.found then some resp else none
  | _ => none

/-- The members to ask instead; a call that failed names none. -/
def FetchCall.alternates : FetchCall → List Bytes
  | .reply resp => resp.alternateHolderMemberIds
  | _ => []

structure FetchResult where
  found : Bool := false
  record : Option StoredRecord := none
  source : Bytes := []
  offer : Option SubscriptionOffer := none
  deriving DecidableEq, Repr

/-- The fetcher, with the roster it reads, the latency scores and what becomes of a call for
a key to a member. -/
structure Fetcher (σ : Type) where
  dir : Cache.Directory
  members : List MemberView
  score : Bytes → σ
  call : Bytes → Bytes → Member → FetchCall

namespace Fetcher

section
variable {σ : Type}

def memberByID (f : Fetcher σ) (id : Bytes) : Option Member :=
  (f.members.find? fun mv => mv.member.memberID == id && decide (mv.state = .alive)).map
    MemberView.member

/-- The calls made, in order, each with what became of it. -/
abbrev Calls := List (Member × FetchCall)

/-- Asks the members a reply names instead, until one has the record. -/
def fetchAlternates (f : Fetcher σ) (ns key : Bytes) : List Bytes → Option FetchResult × Calls
  | [] => (none, [])
  | alt :: alts =>
    match f.memberByID alt with
    | none => f.fetchAlternates ns key alts
    | some am =>
      match (f.call ns key am).found? with
      | some r2 =>
        (some { found := true, record := r2.record, source := am.memberID },
          [(am, f.call ns key am)])
      | none =>
        let rest := f.fetchAlternates ns key alts
        (rest.1, (am, f.call ns key am) :: rest.2)

/-- Asks the candidates in order, and the alternates of each, until one has the record. -/
def fetchFrom (f : Fetcher σ) (ns key : Bytes) : List Member → FetchResult × Calls
  | [] => ({ found := false }, [])
  | m :: candidates =>
    match (f.call ns key m).found? with
    | some resp =>
      ({ found := true, record := resp.record, source := m.memberID,
         offer := resp.subscriptionOffer }, [(m, f.call ns key m)])
    | none =>
      let alternates := f.fetchAlternates ns key (f.call ns key m).alternates
      match alternates.1 with
      | some served => (served, (m, f.call ns key m) :: alternates.2)
      | none =>
        let rest := f.fetchFrom ns key candidates
        (rest.1, (m, f.call ns key m) :: (alternates.2 ++ rest.2))

end

section
variable {σ : Type} [LinearOrder σ]

/-- One round of the insertion sort, over the sorted part from its end. -/
def insertByScore (f : Fetcher σ) (m : Member) : List Member → List Member
  | [] => [m]
  | x :: sorted =>
    if f.score m.memberID < f.score x.memberID then x :: f.insertByScore m sorted
    else m :: x :: sorted

/-- The alive members among the ids, closest first. -/
def orderHoldersByLatency (f : Fetcher σ) (ids : List Bytes) : List Member :=
  ((ids.filterMap f.memberByID).foldl (fun sorted m => f.insertByScore m sorted) []).reverse

def run (f : Fetcher σ) (ns key : Bytes) : FetchResult × Calls :=
  f.fetchFrom ns key (f.orderHoldersByLatency (f.dir.resolveHolders ns key))

def fetch (f : Fetcher σ) (ns key : Bytes) : Except Unit FetchResult := .ok (f.run ns key).1

end

end Fetcher

/-! ## The reader -/

inductive ReadSource where
  | localDurable
  | localDynamicCache
  | fetchedClosestHolder
  deriving DecidableEq, Repr

inductive Completeness where
  | complete
  | incomplete
  deriving DecidableEq, Repr

inductive ConflictState where
  | none
  | siblingsPresent
  deriving DecidableEq, Repr

structure ResponseMeta where
  servedByClusterId : Bytes
  servedByMemberId : Bytes
  source : ReadSource
  conflictState : ConflictState
  completeness : Completeness
  observedAtUnixMs : Int64
  observedVersion : Option Version := none
  deriving DecidableEq, Repr

structure GetResult where
  responseMeta : ResponseMeta
  found : Bool
  value : Bytes
  expiresAtUnixMs : Option Int64 := none
  deriving DecidableEq, Repr

/-- The reader; without a fetcher it reads its own store only. `cached` is the index of
fetched copies. -/
structure Reader where
  store : Store
  self : Member
  fetcher : Option (Bytes → Bytes → Except Unit FetchResult) := none
  cached : Option (GoMap Int64) := none

namespace Reader

/-- Puts a fetched record into the cache; an error of the store is ignored. -/
def cachePut (r : Reader) (rec : StoredRecord) (nowMs : Int64) : Reader :=
  match r.cached with
  | none => r
  | some cached =>
    match r.store.apply rec (if rec.tombstone then .delete else .put) with
    | none => r
    | some (_, store) =>
      { r with
        store := store,
        cached := some (cached.insert (cacheKeyID rec.ns rec.logicalKey) nowMs) }

/-- Whether a key is a cached copy; its last use is noted. -/
def isCacheReplica (r : Reader) (ns key : Bytes) (nowMs : Int64) : Bool × Reader :=
  match r.cached with
  | none => (false, r)
  | some cached =>
    if cached.contains (cacheKeyID ns key) then
      (true, { r with cached := some (cached.insert (cacheKeyID ns key) nowMs) })
    else (false, r)

/-- The answer made of what was read; an expired value is hidden. -/
def answer (r : Reader) (out : Store.GetOutcome) (source : ReadSource)
    (completeness : Completeness) (nowMs : Int64) : GetResult :=
  let expired := out.expiresAtMs.any fun e => decide (e ≤ nowMs)
  { responseMeta :=
      { servedByClusterId := r.self.clusterID, servedByMemberId := r.self.memberID, source,
        conflictState := if out.conflictNone then .none else .siblingsPresent, completeness,
        observedAtUnixMs := nowMs,
        observedVersion := if out.found || out.tombstone then some out.version else none },
    found := out.found && !expired,
    value := if expired then [] else out.value,
    expiresAtUnixMs := out.expiresAtMs }

/-- `Get` at a reading of the clock; `none` when the store fails. -/
def get (r : Reader) (ns key : Bytes) (nowMs : Int64) : Option (GetResult × Reader) := do
  let out ← r.store.get ns key
  if out.found || out.tombstone then
    let (cacheReplica, r) := r.isCacheReplica ns key nowMs
    return (r.answer out (if cacheReplica then .localDynamicCache else .localDurable)
      .complete nowMs,
      r)
  else
    match r.fetcher with
    | none => return (r.answer out .localDurable .complete nowMs, r)
    | some fetch =>
      match fetch ns key with
      | .ok fr =>
        if fr.found then
          let r := (fr.record.map fun rec => r.cachePut rec nowMs).getD r
          let out ← r.store.get ns key
          return (r.answer out .fetchedClosestHolder .complete nowMs, r)
        else return (r.answer out .localDurable .complete nowMs, r)
      | .error _ => return (r.answer out .localDurable .incomplete nowMs, r)

end Reader

/-! ## Who is asked -/

theorem FetchCall.found?_eq_none {call : FetchCall} :
    call.found? = none ↔ ∀ resp, call = .reply resp → resp.found = false := by
  cases call with
  | reply resp => simp [found?]
  | dialFailed => simp [found?]
  | rpcError => simp [found?]

namespace Fetcher

section
variable {σ : Type} {f : Fetcher σ} {ns key : Bytes}

/-- The replies with the record to be had from members with these ids. -/
def offersBy (f : Fetcher σ) (ns key : Bytes) (ids : List Bytes) : List FetchReplicaResponse :=
  ids.filterMap fun id => (f.memberByID id).bind fun m => (f.call ns key m).found?

/-- The replies with the record to be had through a member: its own, and those of the members
it names instead. -/
def offersOf (f : Fetcher σ) (ns key : Bytes) (m : Member) : List FetchReplicaResponse :=
  (f.call ns key m).found?.toList ++ f.offersBy ns key (f.call ns key m).alternates

/-- The first alternate that has the record answers. -/
theorem fetchAlternates_record (f : Fetcher σ) (ns key : Bytes) (alts : List Bytes) :
    (f.fetchAlternates ns key alts).1.map (fun res => (res.found, res.record)) =
      (f.offersBy ns key alts).head?.map fun resp => (true, resp.record) := by
  induction alts with
  | nil => rfl
  | cons alt alts ih =>
    rw [fetchAlternates, offersBy, List.filterMap_cons]
    cases hm : f.memberByID alt with
    | none => exact ih
    | some am =>
      cases hcall : (f.call ns key am).found? with
      | none =>
        simp only [Option.bind_some, hcall]
        exact ih
      | some resp => simp [hcall]

/-- The fetch brings the first of the replies with the record. -/
theorem fetchFrom_record (f : Fetcher σ) (ns key : Bytes) (candidates : List Member) :
    ((f.fetchFrom ns key candidates).1.found, (f.fetchFrom ns key candidates).1.record) =
      ((candidates.flatMap (f.offersOf ns key)).head?.map fun resp =>
        (true, resp.record)).getD (false, none) := by
  induction candidates with
  | nil => rfl
  | cons m candidates ih =>
    rw [fetchFrom, List.flatMap_cons, List.head?_append]
    cases hcall : (f.call ns key m).found? with
    | some resp => simp [offersOf, hcall]
    | none =>
      have halt := f.fetchAlternates_record ns key (f.call ns key m).alternates
      have hoffers : f.offersOf ns key m = f.offersBy ns key (f.call ns key m).alternates := by
        simp [offersOf, hcall]
      rw [hoffers]
      cases hserved : (f.fetchAlternates ns key (f.call ns key m).alternates).1 with
      | none =>
        rw [hserved, Option.map_none, eq_comm, Option.map_eq_none_iff] at halt
        simpa [hserved, halt] using ih
      | some served =>
        rw [hserved, Option.map_some, eq_comm, Option.map_eq_some_iff] at halt
        obtain ⟨resp, hresp, heq⟩ := halt
        simp [hserved, hresp, heq]

/-- The member was called and did not serve the record. -/
def Unserved (f : Fetcher σ) (ns key : Bytes) (calls : Calls) (m : Member) : Prop :=
  (m, f.call ns key m) ∈ calls ∧ (f.call ns key m).found? = none

theorem Unserved.mono {calls calls' : Calls} {m : Member} (h : f.Unserved ns key calls m)
    (hsub : calls ⊆ calls') : f.Unserved ns key calls' m :=
  ⟨hsub h.1, h.2⟩

/-- Where no alternate served the record, all that are alive were called. -/
theorem fetchAlternates_unserved {alts : List Bytes}
    (h : (f.fetchAlternates ns key alts).1 = none) {alt : Bytes} (halt : alt ∈ alts) {am : Member}
    (ham : f.memberByID alt = some am) :
    f.Unserved ns key (f.fetchAlternates ns key alts).2 am := by
  induction alts with
  | nil => cases halt
  | cons a alts ih =>
    rw [fetchAlternates] at h ⊢
    split at h
    · rename_i hnone
      rcases List.mem_cons.mp halt with rfl | halt
      · rw [hnone] at ham
        cases ham
      · exact ih h halt
    · rename_i m hm
      split at h
      · cases h
      · rename_i hcall
        rcases List.mem_cons.mp halt with rfl | halt
        · rw [hm] at ham
          cases ham
          exact ⟨List.mem_cons_self, hcall⟩
        · exact (ih h halt).mono (List.subset_cons_self _ _)

/-- The member was called without the record coming back, and so were those alive that it named
instead. -/
def Exhausted (f : Fetcher σ) (ns key : Bytes) (calls : Calls) (m : Member) : Prop :=
  f.Unserved ns key calls m ∧ ∀ alt ∈ (f.call ns key m).alternates, ∀ am,
    f.memberByID alt = some am → f.Unserved ns key calls am

theorem Exhausted.mono {calls calls' : Calls} {m : Member} (h : f.Exhausted ns key calls m)
    (hsub : calls ⊆ calls') : f.Exhausted ns key calls' m :=
  ⟨h.1.mono hsub, fun alt halt am ham => (h.2 alt halt am ham).mono hsub⟩

/-- A fetch that does not find the record has called every candidate in vain. -/
theorem fetchFrom_exhausted {candidates : List Member}
    (h : (f.fetchFrom ns key candidates).1.found = false) {m : Member} (hm : m ∈ candidates) :
    f.Exhausted ns key (f.fetchFrom ns key candidates).2 m := by
  induction candidates with
  | nil => cases hm
  | cons x candidates ih =>
    rw [fetchFrom] at h ⊢
    split at h
    · cases h
    · rename_i hcall
      simp only at h ⊢
      split at h
      · rename_i served halt
        -- an alternate's reply is one with the record
        have hrecord := f.fetchAlternates_record ns key (f.call ns key x).alternates
        rw [halt, Option.map_some, eq_comm, Option.map_eq_some_iff] at hrecord
        obtain ⟨resp, -, heq⟩ := hrecord
        rw [← (Prod.mk.inj heq).1] at h
        cases h
      · rename_i halt
        rcases List.mem_cons.mp hm with rfl | hm
        · exact ⟨⟨List.mem_cons_self, hcall⟩, fun a ha am ham =>
            (fetchAlternates_unserved halt ha ham).mono
              (List.subset_cons_of_subset _ (List.subset_append_left _ _))⟩
        · exact (ih h hm).mono (List.subset_cons_of_subset _ (List.subset_append_right _ _))

end

section
variable {σ : Type} [LinearOrder σ] {f : Fetcher σ} {ns key : Bytes}

theorem mem_insertByScore {m x : Member} {sorted : List Member} :
    x ∈ f.insertByScore m sorted ↔ x = m ∨ x ∈ sorted := by
  induction sorted with
  | nil => simp [insertByScore]
  | cons y sorted ih =>
    rw [insertByScore]
    split
    · rw [List.mem_cons, ih, List.mem_cons]
      exact or_left_comm
    · rw [List.mem_cons]

/-- The holders that are members. -/
theorem mem_orderHoldersByLatency {ids : List Bytes} {m : Member} :
    m ∈ f.orderHoldersByLatency ids ↔ ∃ id ∈ ids, f.memberByID id = some m := by
  have hfold : ∀ (ms sorted : List Member),
      m ∈ ms.foldl (fun sorted x => f.insertByScore x sorted) sorted ↔ m ∈ sorted ∨ m ∈ ms := by
    intro ms
    induction ms with
    | nil => simp
    | cons x ms ih =>
      intro sorted
      rw [List.foldl_cons, ih, mem_insertByScore, List.mem_cons]
      tauto
  rw [orderHoldersByLatency, List.mem_reverse, hfold, List.mem_filterMap]
  simp

/-- Every alive member the directory resolves for the key satisfies `P`, and so does every
alive one that it names instead. -/
def Resolved (f : Fetcher σ) (ns key : Bytes) (P : Member → Prop) : Prop :=
  ∀ id ∈ f.dir.resolveHolders ns key, ∀ m, f.memberByID id = some m →
    P m ∧ ∀ alt ∈ (f.call ns key m).alternates, ∀ am, f.memberByID alt = some am → P am

def Answers (f : Fetcher σ) (ns key : Bytes) (m : Member) : Prop :=
  ∃ resp, f.call ns key m = .reply resp

/-- The member was asked and said that it does not have the record. -/
def Absent (f : Fetcher σ) (ns key : Bytes) (m : Member) : Prop :=
  ∃ resp, (m, FetchCall.reply resp) ∈ (f.run ns key).2 ∧ f.call ns key m = .reply resp ∧
    resp.found = false

theorem Answers.absent {m : Member} (h : f.Answers ns key m)
    (hunserved : f.Unserved ns key (f.run ns key).2 m) : f.Absent ns key m := by
  obtain ⟨resp, hcall⟩ := h
  obtain ⟨hmem, hnone⟩ := hunserved
  rw [hcall] at hmem
  exact ⟨resp, hmem, hcall, FetchCall.found?_eq_none.mp hnone resp hcall⟩

/-- The replies with the record, in the order in which members are asked. -/
def offers (f : Fetcher σ) (ns key : Bytes) : List FetchReplicaResponse :=
  (f.orderHoldersByLatency (f.dir.resolveHolders ns key)).flatMap (f.offersOf ns key)

/-- Nothing is offered if no member has it. -/
theorem offers_eq_nil :
    f.offers ns key = [] ↔ f.Resolved ns key fun m => (f.call ns key m).found? = none := by
  simp only [offers, List.flatMap_eq_nil_iff, mem_orderHoldersByLatency, offersOf, offersBy,
    List.append_eq_nil_iff, Option.toList_eq_nil_iff, List.filterMap_eq_nil_iff,
    Option.bind_eq_none_iff, Resolved]
  constructor
  · exact fun h id hid m hm => h m ⟨id, hid, hm⟩
  · exact fun h m ⟨id, hid, hm⟩ => h id hid m hm

/-- A fetch answers with the first offer. -/
theorem run_offers (f : Fetcher σ) (ns key : Bytes) :
    ((f.run ns key).1.found, (f.run ns key).1.record) =
      ((f.offers ns key).head?.map fun resp => (true, resp.record)).getD (false, none) :=
  f.fetchFrom_record ns key _

theorem found_run : (f.run ns key).1.found = true ↔ f.offers ns key ≠ [] := by
  have hfound := congrArg Prod.fst (f.run_offers ns key)
  cases hoffers : f.offers ns key <;> simp_all

theorem record_run {resp : FetchReplicaResponse} (h : (f.offers ns key).head? = some resp) :
    (f.run ns key).1.record = resp.record := by
  have hrecord := congrArg Prod.snd (f.run_offers ns key)
  rwa [h] at hrecord

/-- Where every call is answered and none with the record, all said that they do not have
it. -/
theorem absent_of_answers (hnone : f.offers ns key = [])
    (hreach : f.Resolved ns key (f.Answers ns key)) : f.Resolved ns key (f.Absent ns key) := by
  have hfound : (f.run ns key).1.found = false := by
    rw [← Bool.not_eq_true, found_run, not_not]
    exact hnone
  intro id hid m hm
  obtain ⟨hunserved, halts⟩ :=
    fetchFrom_exhausted hfound (mem_orderHoldersByLatency.mpr ⟨id, hid, hm⟩)
  obtain ⟨hanswers, haltAnswers⟩ := hreach id hid m hm
  exact ⟨hanswers.absent hunserved, fun alt halt am ham =>
    (haltAnswers alt halt am ham).absent (halts alt halt am ham)⟩

/-- Members that all say they do not have the record offer none. -/
theorem offers_of_absent (h : f.Resolved ns key (f.Absent ns key)) : f.offers ns key = [] := by
  have hnone {m : Member} : f.Absent ns key m → (f.call ns key m).found? = none := by
    rintro ⟨resp, -, hcall, hfound⟩
    simp [hcall, FetchCall.found?, hfound]
  exact offers_eq_nil.mpr fun id hid m hm =>
    ⟨hnone (h id hid m hm).1, fun alt halt am ham => hnone ((h id hid m hm).2 alt halt am ham)⟩

end

end Fetcher

/-! ## What a complete miss says -/

/-- The store has neither a value nor a tombstone for the key. -/
def Reader.Misses (r : Reader) (ns key : Bytes) : Prop :=
  ∃ out, r.store.get ns key = some out ∧ out.found = false ∧ out.tombstone = false

/-- A record that is fetched for the key is one the reader can show: it is cached, and the
store then has a value for the key that has not expired. -/
def Reader.Shown (r : Reader) (ns key : Bytes) (nowMs : Int64) (record : Option StoredRecord) :
    Prop :=
  ∃ out, ((record.map fun rec => r.cachePut rec nowMs).getD r).store.get ns key = some out ∧
    out.found = true ∧ ∀ e, out.expiresAtMs = some e → nowMs < e

/-- Not found and complete is said only when every resolved member was asked and does not have
the record; with a member out of reach, and none that has the record, the answer is
incomplete. -/
structure Fetcher.Honest {σ : Type} [LinearOrder σ] (f : Fetcher σ) (ns key : Bytes)
    (res : GetResult) : Prop where
  absent : res.found = false → res.responseMeta.completeness = .complete →
    f.Resolved ns key (f.Absent ns key)
  unreached : ¬ f.Resolved ns key (f.Answers ns key) → f.offers ns key = [] →
    res.responseMeta.completeness = .incomplete

/-- A read finds what has not expired. -/
theorem Reader.found_answer {r : Reader} {out : Store.GetOutcome} {source : ReadSource}
    {completeness : Completeness} {nowMs : Int64} :
    (r.answer out source completeness nowMs).found = true ↔
      out.found = true ∧ ∀ e, out.expiresAtMs = some e → nowMs < e := by
  unfold Reader.answer
  cases out.expiresAtMs <;> simp

/-- On a miss the answer is complete, and shows a value exactly if the first reply with the
record can be shown. -/
theorem Reader.get_of_misses {σ : Type} [LinearOrder σ] {f : Fetcher σ} {r r' : Reader}
    {ns key : Bytes} {nowMs : Int64} {res : GetResult} (hfetcher : r.fetcher = some f.fetch)
    (hmiss : r.Misses ns key) (hget : r.get ns key nowMs = some (res, r')) :
    res.responseMeta.completeness = .complete ∧
      (res.found = true ↔
        ∃ resp, (f.offers ns key).head? = some resp ∧ r.Shown ns key nowMs resp.record) := by
  obtain ⟨out, hout, hfound, htombstone⟩ := hmiss
  have hread : ¬ (out.found || out.tombstone) = true := by simp [hfound, htombstone]
  unfold Reader.get at hget
  rw [hout, Option.bind_eq_bind, Option.bind_some, if_neg hread, hfetcher] at hget
  dsimp only [Fetcher.fetch] at hget
  cases hoffers : f.offers ns key with
  | nil =>
    rw [if_neg (by rw [Fetcher.found_run]; exact not_not.mpr hoffers)] at hget
    cases hget
    exact ⟨rfl, by simp [Reader.found_answer, hfound]⟩
  | cons resp rest =>
    rw [if_pos (Fetcher.found_run.mpr (by simp [hoffers])),
      Fetcher.record_run (by rw [hoffers]; rfl)] at hget
    obtain ⟨out', hout', heq⟩ := Option.bind_eq_some_iff.mp hget
    cases heq
    refine ⟨rfl, ?_⟩
    rw [Reader.found_answer]
    constructor
    · exact fun h => ⟨resp, rfl, out', hout', h⟩
    · rintro ⟨resp', hresp, out₂, hout₂, h⟩
      cases hresp
      cases hout'.symm.trans hout₂
      exact h

/-- Where a key has no row, a read returns the record of the key that is applied. -/
theorem Store.get_apply_absent {s : Store} {rec : StoredRecord} (kind : MutationKind)
    (hrow : s.disk.kvMeta[latestKey rec.ns rec.logicalKey]? = none) :
    ∃ p, s.apply rec kind = some p ∧ p.2.get rec.ns rec.logicalKey = some (outcomeOf rec) := by
  obtain ⟨prior, hsel⟩ : ∃ prior, s.selectWinner rec = some (Store.incoming rec prior) := by
    have hwin : s.readWinner rec = some (Store.incoming rec none) := by
      rw [Store.readWinner, hrow]
    unfold Store.selectWinner
    split
    · split
      · exact ⟨_, rfl⟩
      · exact ⟨none, hwin⟩
    · exact ⟨none, hwin⟩
  refine ⟨_, by rw [Store.apply, hsel]; rfl, Store.get_of_pointer ?_ ?_⟩
  · rw [Store.commit_pointer _ _ _ _ fun e => ttlKey_ne_latestKey_self e _ _,
      if_pos ⟨rfl, rfl⟩, newPointer_incoming]
  · rw [Store.commit_data, if_pos ⟨rfl, rfl, rfl⟩]

/-- A record of another key brings nothing to a key without a row: it still has none, or one of
the TTL index. -/
theorem Store.get_apply_other {s : Store} {rec : StoredRecord} {kind : MutationKind}
    {ns key : Bytes} (hrow : s.disk.kvMeta[latestKey ns key]? = none)
    (hkey : ¬ (rec.ns = ns ∧ rec.logicalKey = key)) {p : Version × Store}
    (happly : s.apply rec kind = some p) {out : Store.GetOutcome}
    (hout : p.2.get ns key = some out) : out.found = false := by
  obtain ⟨sel, -, rfl⟩ := Option.map_eq_some_iff.mp happly
  simp only [Store.get] at hout
  split at hout
  · cases hout
    rfl
  · rename_i row hmeta
    rcases Store.commit_meta_cases _ _ _ _ hmeta with hold | ⟨hptr, -⟩ | ⟨e, -, -, -, rfl⟩
    · rw [hrow] at hold
      cases hold
    · obtain ⟨hns, hlogical⟩ := latestKey_inj.mp hptr
      exact absurd ⟨hns.symm, hlogical.symm⟩ hkey
    · cases hout

/-- With nothing stored for the key, what can be shown is a record of the key that is neither
a tombstone nor expired, by a reader with a cache. -/
theorem Reader.shown_iff {r : Reader} {ns key : Bytes} {nowMs : Int64}
    (hrow : r.store.disk.kvMeta[latestKey ns key]? = none) (record : Option StoredRecord) :
    r.Shown ns key nowMs record ↔ r.cached.isSome = true ∧
      ∃ rec, record = some rec ∧ rec.ns = ns ∧ rec.logicalKey = key ∧ rec.tombstone = false ∧
        ∀ e, rec.expiresAtUnixMs = some e → nowMs < e := by
  have hunshown : ¬ ∃ out, r.store.get ns key = some out ∧ out.found = true ∧
      ∀ e, out.expiresAtMs = some e → nowMs < e := by
    rintro ⟨out, hout, hfound, -⟩
    rw [Store.get, hrow] at hout
    cases hout
    cases hfound
  unfold Reader.Shown
  cases record with
  | none => simpa using hunshown
  | some rec =>
    rw [Option.map_some, Option.getD_some, Reader.cachePut]
    cases hcached : r.cached with
    | none => simpa using hunshown
    | some cached =>
      generalize (if rec.tombstone = true then MutationKind.delete else .put) = kind
      by_cases hkey : rec.ns = ns ∧ rec.logicalKey = key
      · obtain ⟨rfl, rfl⟩ := hkey
        obtain ⟨p, happly, hget⟩ := Store.get_apply_absent kind hrow
        simp [happly, hget, outcomeOf]
      · refine iff_of_false ?_ ?_
        · cases happly : r.store.apply rec kind with
          | none => exact hunshown
          | some p =>
            rintro ⟨out, hout, hfound, -⟩
            rw [Store.get_apply_other hrow hkey happly hout] at hfound
            cases hfound
        · rintro ⟨-, rec', heq, hns, hlogical, -⟩
          cases heq
          exact hkey ⟨hns, hlogical⟩

/-- The answer to a miss is complete whatever was reached. It is honest exactly if the first
reply with the record, where there is one, can be shown and, where there is none, every
resolved member and every one named instead answers. For a key with no row, what can be shown
is a live record of the key. -/
theorem Reader.complete_miss {σ : Type} [LinearOrder σ] (f : Fetcher σ) (r r' : Reader)
    (ns key : Bytes) (nowMs : Int64) (res : GetResult) (hfetcher : r.fetcher = some f.fetch)
    (hmiss : r.Misses ns key) (hget : r.get ns key nowMs = some (res, r')) :
    res.responseMeta.completeness = .complete ∧
      (f.Honest ns key res ↔
        (f.offers ns key = [] → f.Resolved ns key (f.Answers ns key)) ∧
          ∀ resp, (f.offers ns key).head? = some resp → r.Shown ns key nowMs resp.record) ∧
      (r.store.disk.kvMeta[latestKey ns key]? = none → ∀ record,
        (r.Shown ns key nowMs record ↔ r.cached.isSome = true ∧
          ∃ rec, record = some rec ∧ rec.ns = ns ∧ rec.logicalKey = key ∧
            rec.tombstone = false ∧ ∀ e, rec.expiresAtUnixMs = some e → nowMs < e)) := by
  obtain ⟨hcomplete, hfound⟩ := Reader.get_of_misses hfetcher hmiss hget
  refine ⟨hcomplete, ⟨fun hhonest => ⟨fun hnone => ?_, fun resp hresp => ?_⟩,
    fun ⟨hreach, hshown⟩ => ⟨fun hmissing _ => ?_, fun hunreached hnone => ?_⟩⟩,
    fun hrow record => Reader.shown_iff hrow record⟩
  · by_contra hunreached
    have hincomplete := hhonest.unreached hunreached hnone
    rw [hcomplete] at hincomplete
    cases hincomplete
  · by_contra hunshown
    have hmissing : res.found = false := by
      rw [← Bool.not_eq_true, hfound]
      rintro ⟨resp', hresp', hshown⟩
      cases hresp.symm.trans hresp'
      exact hunshown hshown
    rw [Fetcher.offers_of_absent (hhonest.absent hmissing hcomplete)] at hresp
    cases hresp
  · cases hoffers : f.offers ns key with
    | nil => exact Fetcher.absent_of_answers hoffers (hreach hoffers)
    | cons resp rest =>
      have hfirst : (f.offers ns key).head? = some resp := by rw [hoffers]; rfl
      rw [hfound.mpr ⟨resp, hfirst, hshown resp hfirst⟩] at hmissing
      cases hmissing
  · exact absurd (hreach hnone) hunreached

/-! ## A key that is fetched -/

def secondAdvertises : Cache.PeerSummary :=
  ⟨({} : Cache.Bloom).add (Cache.combinedKey [0x6e] [0x6b]), 1⟩

/-- A node that resolves the second member for the key; the third is alive as well. -/
def secondResolved (call : Member → FetchCall) : Fetcher Nat where
  dir := { self := [1], peers := (∅ : GoMap Cache.PeerSummary).insert [2] secondAdvertises }
  members := [[1], [2], [3]].map fun id =>
    { member := { memberID := id }, state := .alive, incarnation := 0 }
  score := fun _ => 0
  call := fun _ _ m => call m

def emptyReader (f : Fetcher Nat) : Reader where
  store := newStore {} [0x61] [1] (newClock 500) (newSequencer 0)
  self := { memberID := [1] }
  fetcher := some f.fetch
  cached := some ∅

/-- The second member does not have the record and names the third. -/
def namesThird : FetchCall := .reply { found := false, alternateHolderMemberIds := [[3]] }

theorem Reader.complete_miss_alternate :
    let f := secondResolved fun _ => namesThird
    ∃ res r', (emptyReader f).get [0x6e] [0x6b] 7 = some (res, r') ∧
      res.responseMeta.completeness = .complete ∧ f.Honest [0x6e] [0x6b] res := by
  intro f
  have hsome : ((emptyReader f).get [0x6e] [0x6b] 7).isSome := by decide +kernel
  obtain ⟨⟨res, r'⟩, hget⟩ := Option.isSome_iff_exists.mp hsome
  obtain ⟨hcomplete, hhonest, -⟩ := Reader.complete_miss f (emptyReader f) r' [0x6e] [0x6b] 7 res
    rfl ⟨{}, by decide +kernel, rfl, rfl⟩ hget
  refine ⟨res, r', hget, hcomplete, hhonest.mpr ⟨fun _ => ?_, fun resp hresp => ?_⟩⟩
  · have hanswers (m : Member) : f.Answers [0x6e] [0x6b] m := ⟨_, rfl⟩
    exact fun _ _ m _ => ⟨hanswers m, fun _ _ am _ => hanswers am⟩
  · rw [show f.offers [0x6e] [0x6b] = [] by decide +kernel] at hresp
    cases hresp

/-- The one resolved member fails, or it names another that cannot be dialled: the key is not
found and the answer is called complete. -/
theorem Reader.unasked_complete :
    let failing := secondResolved fun _ => .rpcError
    let undialled := secondResolved fun m => if m.memberID = [2] then namesThird else .dialFailed
    (failing.dir.resolveHolders [0x6e] [0x6b] = [[2]] ∧
      (failing.memberByID [2]).isSome = true ∧
      ((emptyReader failing).get [0x6e] [0x6b] 7).map
        (fun x => (x.1.found, x.1.responseMeta.completeness)) = some (false, .complete)) ∧
    ((undialled.memberByID [3]).isSome = true ∧
      ((emptyReader undialled).get [0x6e] [0x6b] 7).map
        (fun x => (x.1.found, x.1.responseMeta.completeness)) = some (false, .complete)) := by
  decide +kernel

end WaveSpan.Records
