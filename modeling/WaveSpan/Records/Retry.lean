/-
WaveSpan.Records.Retry — client writes that carry an idempotency key
(`internal/kv/coordinator.go` `write`, `internal/replication/local/idempotency.go`,
`store_replica.go`, `cmd/wavespan-node/main.go`).

A node has one cache for two purposes. A client write looks its idempotency key up in it before
anything else, and on a hit is answered with the version found there; a write that succeeds
puts its key and version in. A receiver of copies uses the same cache under mutation ids. An
entry says neither which purpose it came from nor which record it is about.

Writes interleave: the lookup, the store's write and the answer are steps of their own, with
other writes and copies between them (`ClientEvent`). Every entry of the cache is the version of
a client mutation applied under that idempotency key, or goes back to a received mutation id
(`Accounted`). So a success means the write happened where an idempotency key is used for one
record and none is a mutation id (`success_applied`); otherwise it need not
(`success_unapplied`).
-/
import WaveSpan.Records.Receiver

namespace WaveSpan.Records

open WaveSpan.Wire WaveSpan.Collections

structure ClientWrite where
  ns : Bytes
  key : Bytes
  value : Bytes := []
  tombstone : Bool := false
  ttlMs : Option Int64 := none
  idemKey : Bytes := []
  deriving DecidableEq, Repr

/-- A node: its store and cache, and the client writes that missed the cache and have no answer
yet, with the record once it is stored. The rest is history: the client mutations applied and
the successes returned. -/
structure ClientNode where
  store : Store
  idem : Idempotency := {}
  waiting : List (ClientWrite × Option StoredRecord) := []
  applied : List (ClientWrite × StoredRecord) := []
  answers : List (ClientWrite × Version) := []

inductive ClientEvent where
  /-- A write arrives and is looked up. -/
  | call (w : ClientWrite)
  /-- The `i`-th waiting write passes the disk gate, or is shed, and is stored. -/
  | store (i : Nat) (pressure : Bool) (wall expiryWall : UInt64)
  /-- The `i`-th waiting write has its acknowledgements, or too few. -/
  | finish (i : Nat) (acked : Bool)
  /-- A copy arrives. -/
  | receive (req : StoreReplicaRequest)

namespace ClientNode

def step (n : ClientNode) : ClientEvent → ClientNode
  | .call w =>
    match (if w.idemKey = [] then none else n.idem.check w.idemKey) with
    | some v => { n with answers := n.answers ++ [(w, v)] }
    | none => { n with waiting := n.waiting ++ [(w, none)] }
  | .store i pressure wall expiryWall =>
    match n.waiting[i]? with
    | some (w, none) =>
      if pressure then { n with waiting := n.waiting.eraseIdx i }
      else
        let p := n.store.write wall expiryWall w.ns w.key w.value w.tombstone w.ttlMs
        match p.1 with
        | some rec =>
          { n with store := p.2, waiting := n.waiting.set i (w, some rec),
                   applied := n.applied ++ [(w, rec)] }
        | none => { n with store := p.2, waiting := n.waiting.eraseIdx i }
    | _ => n
  | .finish i acked =>
    match n.waiting[i]? with
    | some (w, some rec) =>
      let n := { n with waiting := n.waiting.eraseIdx i }
      if acked then
        { n with
          idem := if w.idemKey = [] then n.idem else n.idem.record w.idemKey rec.version
          answers := n.answers ++ [(w, rec.version)] }
      else n
    | _ => n
  | .receive req =>
    match ({ store := n.store, idem := n.idem } : Receiver).apply req with
    | some (_, r) => { n with store := r.store, idem := r.idem }
    | none => n

def run (n : ClientNode) (es : List ClientEvent) : ClientNode := es.foldl step n

/-- The client mutation was applied, and its record is of the write's key. -/
def Applied (n : ClientNode) (ns key idemKey : Bytes) (v : Version) : Prop :=
  ∃ p ∈ n.applied, p.1.ns = ns ∧ p.1.key = key ∧ p.1.idemKey = idemKey ∧
    p.2.ns = ns ∧ p.2.logicalKey = key ∧ p.2.version = v

end ClientNode

/-! ## What the cache holds -/

/-- The writes called and the mutation ids received in a run. -/
structure Traffic where
  calls : ClientWrite → Prop
  received : Bytes → Prop

namespace ClientNode

def Of (T : Traffic) : ClientEvent → Prop
  | .call w => T.calls w
  | .receive req => T.received req.mutationId
  | _ => True

/-- What every event keeps: writes waiting and answered are of the traffic, a waiting write with
a record was applied, and an entry of the cache is of an applied client write or of a received
copy. -/
structure Accounted (T : Traffic) (n : ClientNode) : Prop where
  waiting : ∀ p ∈ n.waiting, T.calls p.1 ∧ ∀ rec, p.2 = some rec → (p.1, rec) ∈ n.applied
  applied : ∀ p ∈ n.applied, T.calls p.1 ∧ p.2.ns = p.1.ns ∧ p.2.logicalKey = p.1.key
  cache : ∀ (k : Bytes) v, n.idem.seen[k]? = some v →
    (∃ p ∈ n.applied, p.1.idemKey = k ∧ p.2.version = v) ∨ T.received k
  answers : ∀ a ∈ n.answers, T.calls a.1 ∧
    ((∃ p ∈ n.applied, p.1 = a.1 ∧ p.2.version = a.2) ∨
      a.1.idemKey ≠ [] ∧ ((∃ p ∈ n.applied, p.1.idemKey = a.1.idemKey ∧ p.2.version = a.2) ∨
        T.received a.1.idemKey))

variable {T : Traffic} {n : ClientNode}

/-- A call of the client. -/
theorem Accounted.call (h : Accounted T n) {w : ClientWrite} (hw : T.calls w) :
    Accounted T (n.step (.call w)) := by
  unfold step
  dsimp only
  split
  · rename_i v hhit
    split at hhit
    · cases hhit
    · rename_i hkey
      refine ⟨h.waiting, h.applied, h.cache, fun a ha => ?_⟩
      rcases List.mem_append.mp ha with hold | hnew
      · exact h.answers a hold
      · rw [List.mem_singleton.mp hnew]
        exact ⟨hw, .inr ⟨hkey, h.cache _ _ hhit⟩⟩
  · refine ⟨fun p hp => ?_, h.applied, h.cache, h.answers⟩
    rcases List.mem_append.mp hp with hold | hnew
    · exact h.waiting p hold
    · rw [List.mem_singleton.mp hnew]
      exact ⟨hw, nofun⟩

/-- A node with fewer writes waiting and the rest as it was. -/
theorem Accounted.drop (h : Accounted T n) (i : Nat) (s : Store) :
    Accounted T { n with store := s, waiting := n.waiting.eraseIdx i } :=
  ⟨fun p hp => h.waiting p (List.mem_of_mem_eraseIdx hp), h.applied, h.cache, h.answers⟩

/-- A store on behalf of a call. -/
theorem Accounted.store (h : Accounted T n) (i : Nat) (pressure : Bool) (wall expiryWall : UInt64) :
    Accounted T (n.step (.store i pressure wall expiryWall)) := by
  unfold step
  dsimp only
  split
  · rename_i w hwait
    split
    · exact h.drop i n.store
    · split
      · rename_i rec hrec
        have hcall := (h.waiting _ (List.mem_of_getElem? hwait)).1
        have hfields := (n.store.write_origin wall expiryWall w.ns w.key w.value w.tombstone
          w.ttlMs).2 rec hrec
        have hgrow : ∀ {p}, p ∈ n.applied → p ∈ n.applied ++ [(w, rec)] := List.mem_append_left _
        refine ⟨fun p hp => ?_, fun p hp => ?_, fun k v hk => ?_, fun a ha => ?_⟩
        · rcases List.mem_or_eq_of_mem_set hp with hold | rfl
          · exact ⟨(h.waiting p hold).1, fun r hr => hgrow ((h.waiting p hold).2 r hr)⟩
          · refine ⟨hcall, fun r hr => ?_⟩
            cases hr
            exact List.mem_append_right _ List.mem_cons_self
        · rcases List.mem_append.mp hp with hold | hnew
          · exact h.applied p hold
          · rw [List.mem_singleton.mp hnew]
            exact ⟨hcall, hfields.1, hfields.2.1⟩
        · exact (h.cache k v hk).imp_left fun ⟨p, hp, hrest⟩ => ⟨p, hgrow hp, hrest⟩
        · obtain ⟨hof, hcase⟩ := h.answers a ha
          refine ⟨hof, hcase.imp (fun ⟨p, hp, hrest⟩ => ⟨p, hgrow hp, hrest⟩) ?_⟩
          exact fun ⟨hkey, hentry⟩ =>
            ⟨hkey, hentry.imp_left fun ⟨p, hp, hrest⟩ => ⟨p, hgrow hp, hrest⟩⟩
      · exact h.drop i _
  · exact h

theorem Accounted.finish (h : Accounted T n) (i : Nat) (acked : Bool) :
    Accounted T (n.step (.finish i acked)) := by
  unfold step
  dsimp only
  split
  · rename_i w rec hwait
    obtain ⟨hcall, happlied⟩ := h.waiting _ (List.mem_of_getElem? hwait)
    have happlied : (w, rec) ∈ n.applied := happlied rec rfl
    have hdrop := h.drop i n.store
    split
    · refine ⟨hdrop.waiting, h.applied, fun k v hk => ?_, fun a ha => ?_⟩
      · split at hk
        · exact h.cache k v hk
        · rcases Idempotency.seen_record hk with hold | ⟨rfl, rfl⟩
          · exact h.cache k v hold
          · exact .inl ⟨_, happlied, rfl, rfl⟩
      · rcases List.mem_append.mp ha with hold | hnew
        · exact h.answers a hold
        · rw [List.mem_singleton.mp hnew]
          exact ⟨hcall, .inl ⟨_, happlied, rfl, rfl⟩⟩
    · exact hdrop
  · exact h

theorem Accounted.receive (h : Accounted T n) {req : StoreReplicaRequest}
    (hreq : T.received req.mutationId) : Accounted T (n.step (.receive req)) := by
  unfold step
  dsimp only
  split
  · rename_i resp r happ
    refine ⟨h.waiting, h.applied, fun k v hk => ?_, h.answers⟩
    unfold Receiver.apply at happ
    split at happ
    · cases happ
      exact h.cache k v hk
    · obtain ⟨p, -, heq⟩ := Option.map_eq_some_iff.mp happ
      cases heq
      rcases Idempotency.seen_record hk with hold | ⟨rfl, -⟩
      · exact h.cache k v hold
      · exact .inr hreq
  · exact h

theorem Accounted.run (h : Accounted T n) {es : List ClientEvent} (hes : ∀ e ∈ es, Of T e) :
    Accounted T (n.run es) := by
  induction es generalizing n with
  | nil => exact h
  | cons e es ih =>
    refine ih ?_ fun e' he' => hes e' (List.mem_cons_of_mem _ he')
    have hof := hes e List.mem_cons_self
    cases e with
    | call w => exact h.call hof
    | store i pressure wall expiryWall => exact h.store i pressure wall expiryWall
    | finish i acked => exact h.finish i acked
    | receive req => exact h.receive hof

/-- **An idempotent success means this write happened**, in every history of a node in which an
idempotency key is used for one record and is the id of no mutation received. -/
theorem success_applied (store : Store) (cap : Nat) (es : List ClientEvent)
    (hone : ∀ w w', .call w ∈ es → .call w' ∈ es → w.idemKey = w'.idemKey → w.idemKey ≠ [] →
      w.ns = w'.ns ∧ w.key = w'.key)
    (hids : ∀ w req, .call w ∈ es → .receive req ∈ es → w.idemKey ≠ [] →
      w.idemKey ≠ req.mutationId)
    {w : ClientWrite} {v : Version}
    (h : (w, v) ∈ (ClientNode.run { store, idem := { cap } } es).answers) :
    (ClientNode.run { store, idem := { cap } } es).Applied w.ns w.key w.idemKey v := by
  let T : Traffic := ⟨fun w => .call w ∈ es, fun id => ∃ req, .receive req ∈ es ∧
      req.mutationId = id⟩
  have hempty : Accounted T { store, idem := { cap } } :=
    ⟨nofun, nofun, fun k v hk => by simp at hk, nofun⟩
  have hrun := hempty.run fun e (he : e ∈ es) => by
    cases e with
    | call w => exact he
    | receive req => exact ⟨req, he, rfl⟩
    | store | finish => trivial
  obtain ⟨hcall, hanswer⟩ := hrun.answers _ h
  rcases hanswer with ⟨p, hp, rfl, rfl⟩ | ⟨hkey, ⟨p, hp, hpkey, rfl⟩ | ⟨req, hreq, hid⟩⟩
  · obtain ⟨-, hns, hlk⟩ := hrun.applied p hp
    exact ⟨p, hp, rfl, rfl, rfl, hns, hlk, rfl⟩
  · obtain ⟨hpcall, hns, hlk⟩ := hrun.applied p hp
    obtain ⟨hsame, hsame'⟩ := hone p.1 w hpcall hcall hpkey (hpkey ▸ hkey)
    exact ⟨p, hp, hsame, hsame', hpkey, hns.trans hsame, hlk.trans hsame', rfl⟩
  · exact absurd hid.symm (hids w req hcall hreq hkey)

/-! ## One key for two records -/

def fresh : ClientNode := { store := newStore {} [0x63] [0x6d] (newClock 500) (newSequencer 0) }

def written (w : ClientWrite) (wall : UInt64) : List ClientEvent :=
  [.call w, .store 0 false wall wall, .finish 0 true]

theorem success_applied_retry :
    let w : ClientWrite := { ns := [1], key := [2], value := [3], idemKey := [0x78] }
    let n := fresh.run (written w 1000 ++ [.call w])
    n.answers.length = 2 ∧ ∀ v, (w, v) ∈ n.answers → n.Applied [1] [2] [0x78] v := by
  refine ⟨by decide +kernel, fun v hv => ?_⟩
  exact success_applied _ _ _ (by simp +contextual [written]) (by simp [written]) hv

/-- The idempotency key of a write of one record is used again for another: the second is answered
with the version of the first and its record is not there. And a client's key that is the id of
a mutation received: the write is answered without any client write applied. -/
theorem success_unapplied :
    let first : ClientWrite := { ns := [1], key := [2], value := [3], idemKey := [0x78] }
    let second : ClientWrite := { ns := [1], key := [4], value := [5], idemKey := [0x78] }
    let n := fresh.run (written first 1000 ++ [.call second])
    n.answers.map (·.1) = [first, second] ∧ n.applied.map (·.1) = [first] ∧
      n.store.pointer? [1] [4] = none ∧
    ∀ rec ∈ (fresh.store.write 1000 1000 [1] [2] [3] false none).1,
      let w : ClientWrite := { ns := [1], key := [4], idemKey := rec.version.mutationID }
      let n := fresh.run [.receive (buildRequest rec), .call w]
      n.answers = [(w, rec.version)] ∧ n.applied.isEmpty ∧ n.store.pointer? [1] [4] = none := by
  decide +kernel

end ClientNode

end WaveSpan.Records
