/-
WaveSpan.Records.Evict — the dynamic cache and its evictor
(`internal/cache/store.go`, `internal/cache/eviction.go`,
`cmd/wavespan-node/main.go`).

A node keeps copies it has fetched in its record store, beside the records it
holds durably, and lists the copies in a cache index. The evictor takes the listed
copies that were idle for ten minutes and drops each from the store.

`Promote` is there to take a key off the list when the node becomes a durable
holder of it, but nothing calls it: a durable store only advertises the key and
notifies subscribers. So a key that is in the index when it is acknowledged stays
there and is dropped once idle (`durable_evicted`). Where a key is not in the
index, or on an eviction's list, when it is acknowledged, and is not put into the
cache afterwards, `durable_never_forgotten` holds in every reachable state.
-/
import WaveSpan.Lib.Guarded
import WaveSpan.Records.Receiver

namespace WaveSpan.Records

open WaveSpan.Wire WaveSpan.Collections WaveSpan.Guarded

/-! ## The cache index -/

def cacheKeyID (ns key : Bytes) : Bytes := ns ++ 0 :: key

/-- Namespace and key of an index entry: what stands before the first zero byte,
and what stands after it. -/
def splitCacheKeyID : Bytes → Bytes × Bytes
  | [] => ([], [])
  | b :: rest =>
    if b = 0 then ([], rest) else (b :: (splitCacheKeyID rest).1, (splitCacheKeyID rest).2)

/-- An entry's parts make the entry again, if not always the parts it was made
from. -/
theorem cacheKeyID_split {id : Bytes} (h : (0 : UInt8) ∈ id) :
    cacheKeyID (splitCacheKeyID id).1 (splitCacheKeyID id).2 = id := by
  induction id with
  | nil => cases h
  | cons b rest ih =>
    unfold splitCacheKeyID
    by_cases hb : b = 0
    · simp [hb, cacheKeyID]
    · have hrest : (0 : UInt8) ∈ rest := by
        rcases List.mem_cons.mp h with h0 | h0
        · exact absurd h0.symm hb
        · exact h0
      have := ih hrest
      simp only [if_neg hb, cacheKeyID, List.cons_append] at this ⊢
      rw [this]

/-- The evictor's idle time: ten minutes. -/
def idleTTLMs : Int64 := 600000

def idleBefore (cached : GoMap Int64) (cutoffMs : Int64) : List (Bytes × Bytes) :=
  (cached.toList.filter fun e => e.2 < cutoffMs).map fun e => splitCacheKeyID e.1

/-! ## The node -/

/-- A node's record store behind its receiver, and its cache index. `idle` lists
what evictions have picked and not dropped yet, `dropped` what they have dropped
and not taken off the index yet; `durable` is what the node has acknowledged. -/
structure CacheNode where
  receiver : Receiver
  cached : GoMap Int64 := ∅
  idle : List (Bytes × Bytes) := []
  dropped : List (Bytes × Bytes) := []
  durable : List (Bytes × Bytes) := []

inductive CacheEvent where
  /-- A fetched record or a subscription's update is put into the cache. -/
  | put (rec : StoredRecord) (nowMs : Int64)
  /-- A read is served from the cache. -/
  | hit (ns key : Bytes) (nowMs : Int64)
  /-- A copy arrives to be stored durably. -/
  | receive (req : StoreReplicaRequest)
  /-- The node coordinates a write, acknowledged or not. -/
  | write (wall expiryWall : UInt64) (ns key value : Bytes) (tombstone : Bool)
      (ttlMs : Option Int64) (acked : Bool)
  /-- An eviction picks the idle entries. -/
  | pick (nowMs : Int64)
  /-- The eviction drops the `i`-th key it has picked from the store. -/
  | forget (i : Nat)
  /-- The eviction takes the `i`-th key it has dropped off the index. -/
  | unlist (i : Nat)

namespace CacheNode

def step (st : CacheNode) : CacheEvent → CacheNode
  | .put rec nowMs =>
    match st.receiver.store.apply rec (if rec.tombstone then .delete else .put) with
    | some (_, s) =>
      { st with
        receiver := { st.receiver with store := s },
        cached := st.cached.insert (cacheKeyID rec.ns rec.logicalKey) nowMs }
    | none => st
  | .hit ns key nowMs =>
    if st.cached.contains (cacheKeyID ns key) then
      { st with cached := st.cached.insert (cacheKeyID ns key) nowMs }
    else st
  | .receive req =>
    match st.receiver.apply req with
    | some (resp, rcv) =>
      { st with
        receiver := rcv,
        durable := if resp.durable then st.durable ++ [(req.ns, req.key)] else st.durable }
    | none => st
  | .write wall expiryWall ns key value tombstone ttlMs acked =>
    let w := st.receiver.store.write wall expiryWall ns key value tombstone ttlMs
    { st with
      receiver := { st.receiver with store := w.2 },
      durable := if w.1.isSome && acked then st.durable ++ [(ns, key)] else st.durable }
  | .pick nowMs => { st with idle := st.idle ++ idleBefore st.cached (nowMs - idleTTLMs) }
  | .forget i =>
    match st.idle[i]? with
    | some (ns, key) =>
      { st with
        receiver := { st.receiver with store := st.receiver.store.forget ns key },
        idle := st.idle.eraseIdx i,
        dropped := st.dropped ++ [(ns, key)] }
    | none => st
  | .unlist i =>
    match st.dropped[i]? with
    | some (ns, key) =>
      { st with
        cached := st.cached.erase (cacheKeyID ns key),
        dropped := st.dropped.eraseIdx i }
    | none => st

/-- The key is neither in the index nor picked by an eviction. -/
def Clear (st : CacheNode) (ns key : Bytes) : Prop :=
  st.cached.contains (cacheKeyID ns key) = false ∧ (ns, key) ∉ st.idle

/-- Keys are acknowledged while they are clear of the cache, and none that was
acknowledged is put into it. -/
def Fits (st : CacheNode) : CacheEvent → Prop
  | .put rec _ => ∀ d ∈ st.durable, cacheKeyID d.1 d.2 ≠ cacheKeyID rec.ns rec.logicalKey
  | .receive req => st.Clear req.ns req.key
  | .write _ _ ns key _ _ _ acked => acked = true → st.Clear ns key
  | _ => True

end CacheNode

/-! ## Forgetting one key -/

/-- Forgetting a key leaves the records of every other key. -/
theorem Store.getRecord_forget {s : Store} {ns key ns' key' : Bytes}
    (hne : (ns, key) ≠ (ns', key')) : (s.forget ns key).getRecord ns' key' =
      s.getRecord ns' key' := by
  have hother : ¬ (ns = ns' ∧ key = key') := fun h => hne (by rw [h.1, h.2])
  have hptr : (s.forget ns key).pointer? ns' key' = s.pointer? ns' key' := by
    show ((s.disk.kvMeta.erase (latestKey ns key))[latestKey ns' key']?).bind _ = _
    rw [Std.ExtTreeMap.getElem?_erase, if_neg]
    · rfl
    · rw [Std.LawfulEqCmp.compare_eq_iff_eq, latestKey_inj]
      exact hother
  have hdata : ∀ v, (s.forget ns key).disk.kvData[dataKey ns' key' v]? =
      s.disk.kvData[dataKey ns' key' v]? := by
    intro v
    refine Rows.getElem?_foldl_erase fun hmem => ?_
    obtain ⟨row, hrow, hk⟩ := List.mem_map.mp hmem
    have hin := (List.mem_filter.mp hrow).2
    rw [hk, inRange_prefixEnd, dataKeyPrefix_isPrefix] at hin
    exact hother hin
  unfold Store.getRecord
  rw [hptr]
  cases s.pointer? ns' key' with
  | none => rfl
  | some lp => exact hdata lp.winner

/-! ## Invariant and step -/

/-- Entries of the index can be split, and what was acknowledged is clear of the
cache. -/
structure CacheNode.Sound (st : CacheNode) : Prop where
  ids : ∀ id, st.cached.contains id = true → (0 : UInt8) ∈ id
  clear : ∀ d ∈ st.durable, st.Clear d.1 d.2

/-- What is idle is in the index. -/
theorem mem_idleBefore {cached : GoMap Int64} {cutoffMs : Int64} {p : Bytes × Bytes}
    (h : p ∈ idleBefore cached cutoffMs) :
    ∃ id, cached.contains id = true ∧ splitCacheKeyID id = p := by
  obtain ⟨⟨id, last⟩, he, hp⟩ := List.mem_map.mp h
  have hrow := Std.ExtTreeMap.mem_toList_iff_getElem?_eq_some.mp (List.mem_filter.mp he).1
  refine ⟨id, ?_, hp⟩
  rw [Std.ExtTreeMap.contains_eq_isSome_getElem?, hrow]
  rfl

namespace CacheNode.Sound

variable {st : CacheNode}

/-- What a change to the cache's side keeps: no new key in the index or on an
eviction's list is one that was acknowledged. -/
theorem of_cache (h : st.Sound) {st' : CacheNode} (hdur : st'.durable = st.durable)
    (hcached : ∀ id, st'.cached.contains id = true →
      st.cached.contains id = true ∨
        ((0 : UInt8) ∈ id ∧ ∀ d ∈ st.durable, cacheKeyID d.1 d.2 ≠ id))
    (hidle : ∀ p ∈ st'.idle, p ∈ st.idle ∨ p ∉ st.durable) : st'.Sound where
  ids id hid := by
    rcases hcached id hid with hold | ⟨h0, -⟩
    · exact h.ids id hold
    · exact h0
  clear d hd := by
    rw [hdur] at hd
    obtain ⟨hnot, hlist⟩ := h.clear d hd
    constructor
    · rw [Bool.eq_false_iff]
      intro hc
      rcases hcached _ hc with hold | ⟨-, hne⟩
      · rw [hnot] at hold
        cases hold
      · exact hne d hd rfl
    · intro hd'
      rcases hidle d hd' with hold | hne
      · exact hlist hold
      · exact hne hd

/-- Acknowledging a key that is clear of the cache. -/
theorem of_durable (h : st.Sound) {st' : CacheNode} (hcached : st'.cached = st.cached)
    (hidle : st'.idle = st.idle)
    (hdur : ∀ d ∈ st'.durable, d ∈ st.durable ∨ st.Clear d.1 d.2) : st'.Sound where
  ids id hid := h.ids id (hcached ▸ hid)
  clear d hd := by
    unfold CacheNode.Clear
    rw [hcached, hidle]
    rcases hdur d hd with hold | hclear
    · exact h.clear d hold
    · exact hclear

/-- A put of a key that is not durable. -/
theorem put (h : st.Sound) {rec : StoredRecord} (nowMs : Int64)
    (hnew : ∀ d ∈ st.durable, cacheKeyID d.1 d.2 ≠ cacheKeyID rec.ns rec.logicalKey) :
    (st.step (.put rec nowMs)).Sound := by
  simp only [CacheNode.step]
  split
  · refine h.of_cache rfl (fun id hid => ?_) (fun p hp => .inl hp)
    rcases Rows.contains_insert_iff.mp hid with rfl | hold
    · exact .inr ⟨by simp [cacheKeyID], hnew⟩
    · exact .inl hold
  · exact h

theorem hit (h : st.Sound) (ns key : Bytes) (nowMs : Int64) :
    (st.step (.hit ns key nowMs)).Sound := by
  simp only [CacheNode.step]
  split
  · rename_i hin
    refine h.of_cache rfl (fun id hid => .inl ?_) (fun p hp => .inl hp)
    rcases Rows.contains_insert_iff.mp hid with rfl | hold
    · exact hin
    · exact hold
  · exact h

/-- A copy of a key that is clear. -/
theorem receive (h : st.Sound) {req : StoreReplicaRequest} (hclear : st.Clear req.ns req.key) :
    (st.step (.receive req)).Sound := by
  simp only [CacheNode.step]
  split
  · refine h.of_durable rfl rfl fun d hd => ?_
    simp only at hd
    split at hd
    · rcases List.mem_append.mp hd with hold | hnew
      · exact .inl hold
      · obtain rfl := List.mem_singleton.mp hnew
        exact .inr hclear
    · exact .inl hd
  · exact h

theorem write (h : st.Sound) (wall expiryWall : UInt64) {ns key : Bytes} (value : Bytes)
    (tombstone : Bool) (ttlMs : Option Int64) {acked : Bool}
    (hclear : acked = true → st.Clear ns key) :
    (st.step (.write wall expiryWall ns key value tombstone ttlMs acked)).Sound := by
  refine h.of_durable rfl rfl fun d hd => ?_
  simp only [CacheNode.step] at hd
  split at hd
  · rename_i hack
    rcases List.mem_append.mp hd with hold | hnew
    · exact .inl hold
    · obtain rfl := List.mem_singleton.mp hnew
      exact .inr (hclear (Bool.and_eq_true_iff.mp hack).2)
  · exact .inl hd

/-- A picked entry is in the index, and an acknowledged key is not. -/
theorem pick (h : st.Sound) (nowMs : Int64) : (st.step (.pick nowMs)).Sound := by
  refine h.of_cache rfl (fun id hid => .inl hid) fun p hp => ?_
  refine (List.mem_append.mp hp).imp id fun hnew hd => ?_
  obtain ⟨id, hid, rfl⟩ := mem_idleBefore hnew
  have hnot := (h.clear _ hd).1
  rw [cacheKeyID_split (h.ids id hid), hid] at hnot
  cases hnot

theorem forget (h : st.Sound) (i : Nat) : (st.step (.forget i)).Sound := by
  simp only [CacheNode.step]
  split
  · exact h.of_cache rfl (fun id hid => .inl hid)
      fun q hq => .inl (List.mem_of_mem_eraseIdx hq)
  · exact h

theorem unlist (h : st.Sound) (i : Nat) : (st.step (.unlist i)).Sound := by
  simp only [CacheNode.step]
  split
  · rename_i ns key hi
    refine h.of_cache rfl (fun id hid => .inl ?_) (fun q hq => .inl hq)
    have hid' : (st.cached.erase (cacheKeyID ns key)).contains id = true := hid
    rw [Std.ExtTreeMap.contains_erase, Bool.and_eq_true] at hid'
    exact hid'.2
  · exact h

/-- One event that fits. -/
theorem step (h : st.Sound) {e : CacheEvent} (hfits : st.Fits e) : (st.step e).Sound := by
  cases e with
  | put rec nowMs => exact h.put nowMs hfits
  | hit ns key nowMs => exact h.hit ns key nowMs
  | receive req => exact h.receive hfits
  | write wall expiryWall ns key value tombstone ttlMs acked =>
    exact h.write wall expiryWall value tombstone ttlMs hfits
  | pick nowMs => exact h.pick nowMs
  | forget i => exact h.forget i
  | unlist i => exact h.unlist i

end CacheNode.Sound

/-- In every run whose keys are acknowledged while clear of the cache and not put
into it afterwards: a key the evictor is about to forget is not an acknowledged
one, and forgetting it leaves the records of every acknowledged key. -/
theorem durable_never_forgotten (receiver : Receiver) (run : List CacheEvent)
    (hfits : Along CacheNode.step CacheNode.Fits { receiver } run) :
    let st := run.foldl CacheNode.step { receiver }
    ∀ d ∈ st.durable, d ∉ st.idle ∧
      ∀ i, (st.step (.forget i)).receiver.store.getRecord d.1 d.2 =
        st.receiver.store.getRecord d.1 d.2 := by
  intro st d hd
  have hs : st.Sound :=
    hfits.invariant (fun _ _ h hok => h.step hok) ⟨by simp, by simp⟩
  have hnot := (hs.clear d hd).2
  refine ⟨hnot, fun i => ?_⟩
  cases hi : st.idle[i]? with
  | none =>
    have hstep : st.step (.forget i) = st := by simp only [CacheNode.step, hi]
    rw [hstep]
  | some p =>
    have hstep : (st.step (.forget i)).receiver.store = st.receiver.store.forget p.1 p.2 := by
      simp only [CacheNode.step, hi]
    rw [hstep]
    refine Store.getRecord_forget fun hp => hnot ?_
    have hpd : p = d := hp
    exact hpd ▸ List.mem_of_getElem? hi

def cachedRecord (key : UInt8) : StoredRecord :=
  { ns := [0x6e], logicalKey := [key], value := .inline [0x76],
    version := { hlcPhysicalMs := 1000, writerClusterID := [0x63], writerMemberID := [0x6d],
                 writerSequence := key.toUInt64 } }

/-- One key is cached and idle, another is acknowledged: the eviction of the first
leaves the second. -/
theorem durable_never_forgotten_other :
    let st := [CacheEvent.put (cachedRecord 0x61) 0, .receive (buildRequest (cachedRecord 0x62)),
      .pick 700000].foldl CacheNode.step
        { receiver := { store := newStore {} [0x63] [0x72] (newClock 500) (newSequencer 0) } }
    (st.step (.forget 0)).receiver.store.getRecord [0x6e] [0x62] =
      st.receiver.store.getRecord [0x6e] [0x62] := by
  refine (durable_never_forgotten
    { store := newStore {} [0x63] [0x72] (newClock 500) (newSequencer 0) }
    [CacheEvent.put (cachedRecord 0x61) 0, .receive (buildRequest (cachedRecord 0x62)),
      .pick 700000] ⟨?_, ⟨?_, ?_⟩, trivial, trivial⟩ ([0x6e], [0x62]) ?_).2 0
  · exact fun d hd => absurd hd (List.not_mem_nil)
  · decide +kernel
  · decide +kernel
  · decide +kernel

/-- A key is fetched into the cache, then a copy of it arrives and is acknowledged
as durable; the key is not read for ten minutes, and the eviction drops the
record. -/
theorem durable_evicted :
    let st := [CacheEvent.put (cachedRecord 0x61) 0, .receive (buildRequest (cachedRecord 0x61)),
      .pick 700000].foldl CacheNode.step
        { receiver := { store := newStore {} [0x63] [0x72] (newClock 500) (newSequencer 0) } }
    ([0x6e], [0x61]) ∈ st.durable ∧
      st.receiver.store.getRecord [0x6e] [0x61] = some (cachedRecord 0x61) ∧
      (st.step (.forget 0)).receiver.store.getRecord [0x6e] [0x61] = none := by
  decide +kernel

end WaveSpan.Records
