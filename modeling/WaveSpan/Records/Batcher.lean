/-
WaveSpan.Records.Batcher — replica writes to one destination, batched
(`internal/replication/local/batcher.go`).

Callers append their requests to a queue under a lock; the first one that finds no flusher
starts one. The flusher takes up to 128 requests at a time, makes one call for them and
puts a result into each caller's channel; a peer that does not know the batched call is
sent the requests one by one. It ends when it finds the queue empty, in the same critical
section. Callers may stop waiting at any time.

A step of the flusher is one critical section, one call or one send, so that callers come
and go between any two of them. Beside the batcher's own fields the state keeps an account:
what has arrived, the groups that were shipped, the calls made and what they returned.
Requests shipped and requests queued are those that have arrived, in order; results sent
and requests the flusher still has in hand are those that were shipped, in order (`Sound`).
-/
import Mathlib.Algebra.GroupWithZero.Nat
import Mathlib.Data.List.Basic
import Mathlib.Data.List.Nodup
import Mathlib.Data.List.Range

namespace WaveSpan.Batcher

/-! ## The batcher -/

/-- The codes the flusher tells apart. -/
inductive Code where
  | unimplemented
  | internal
  | other (n : Nat)
  deriving DecidableEq, Repr

structure CallError where
  code : Code
  message : String
  deriving DecidableEq, Repr

/-- The error for a batch that was answered with the wrong number of responses. -/
def wrongCount (got want : Nat) : CallError :=
  { code := .internal,
    message := s!"wavespan: StoreReplicaBatch returned {got} responses for {want} requests" }

abbrev Result (ρ : Type) := Except CallError ρ

structure PendingStore (κ : Type) where
  call : Nat
  req : κ
  deriving DecidableEq, Repr

/-- Where a flusher stands: before it takes a group, with a group to call for, with
results to send, or with requests to send one by one. -/
inductive Phase (κ ρ : Type) where
  | asleep
  | shipping (group : List (PendingStore κ))
  | replying (left : List (PendingStore κ × Result ρ))
  | replaying (left : List (PendingStore κ))

inductive Caller (ρ : Type) where
  | waiting
  | received (r : Result ρ)
  | gone

/-- The batcher of a destination with its flushers, the results in the callers' channels
and the callers; and the account. -/
structure DestBatcher (κ ρ : Type) where
  queue : List (PendingStore κ) := []
  flushing : Bool := false
  flushers : List (Phase κ ρ) := []
  sent : List (Nat × Result ρ) := []
  callers : List (Caller ρ) := []
  arrived : List (PendingStore κ) := []
  shipped : List (List (PendingStore κ)) := []
  batches : List (List (PendingStore κ) × Result (List ρ)) := []
  unaries : List (PendingStore κ × Result ρ) := []

def batchMaxOps : Nat := 128

/-- What happens: a call arrives, a flusher takes its next step (with the answers its call
would get), a caller reads its channel or gives up. -/
inductive Event (κ ρ : Type) where
  | enqueue (req : κ)
  | flush (i : Nat) (batch : Result (List ρ)) (unary : Result ρ)
  | receive (call : Nat)
  | giveUp (call : Nat)

def Event.req? {κ ρ : Type} : Event κ ρ → Option κ
  | .enqueue req => some req
  | _ => none

namespace DestBatcher

variable {κ ρ : Type}

def enqueue (b : DestBatcher κ ρ) (req : κ) : DestBatcher κ ρ :=
  let p : PendingStore κ := { call := b.callers.length, req }
  let b := { b with queue := b.queue ++ [p], arrived := b.arrived ++ [p],
                    callers := b.callers ++ [Caller.waiting] }
  if b.flushing then b else { b with flushing := true, flushers := b.flushers ++ [Phase.asleep] }

/-- What a batched call's outcome leaves to do. -/
def ship (group : List (PendingStore κ)) : Result (List ρ) → Phase κ ρ
  | .ok resps =>
    if resps.length = group.length then .replying (group.zip (resps.map .ok))
    else .replying (group.map fun p => (p, .error (wrongCount resps.length group.length)))
  | .error e =>
    if e.code = .unimplemented then .replaying group
    else .replying (group.map fun p => (p, .error e))

def flushStep (b : DestBatcher κ ρ) (i : Nat) (batch : Result (List ρ)) (unary : Result ρ) :
    Phase κ ρ → DestBatcher κ ρ
  | .asleep =>
    let group := b.queue.take batchMaxOps
    let b := { b with queue := b.queue.drop batchMaxOps }
    if group.isEmpty then { b with flushing := false, flushers := b.flushers.eraseIdx i }
    else { b with flushers := b.flushers.set i (.shipping group), shipped := b.shipped ++ [group] }
  | .shipping group =>
    { b with flushers := b.flushers.set i (ship group batch),
             batches := b.batches ++ [(group, batch)] }
  | .replying [] => { b with flushers := b.flushers.set i .asleep }
  | .replying ((p, r) :: left) =>
    { b with flushers := b.flushers.set i (.replying left), sent := b.sent ++ [(p.call, r)] }
  | .replaying [] => { b with flushers := b.flushers.set i .asleep }
  | .replaying (p :: left) =>
    { b with flushers := b.flushers.set i (.replaying left), sent := b.sent ++ [(p.call, unary)],
             unaries := b.unaries ++ [(p, unary)] }

def step (b : DestBatcher κ ρ) : Event κ ρ → DestBatcher κ ρ
  | .enqueue req => b.enqueue req
  | .flush i batch unary =>
    match b.flushers[i]? with
    | some phase => b.flushStep i batch unary phase
    | none => b
  | .receive call =>
    match b.callers[call]?, b.sent.find? (·.1 == call) with
    | some .waiting, some x => { b with callers := b.callers.set call (.received x.2) }
    | _, _ => b
  | .giveUp call =>
    match b.callers[call]? with
    | some .waiting => { b with callers := b.callers.set call .gone }
    | _ => b

def run (b : DestBatcher κ ρ) (es : List (Event κ ρ)) : DestBatcher κ ρ := es.foldl step b

/-! ## The invariant -/

/-- A result for a call: an error, the response at the call's place in a batch that was
answered one for one, or the response to its own request sent alone. -/
def Own (b : DestBatcher κ ρ) (call : Nat) : Result ρ → Prop
  | .error _ => True
  | .ok resp =>
    (∃ (group : List (PendingStore κ)) (resps : List ρ) (i : Nat) (p : PendingStore κ),
      (group, .ok resps) ∈ b.batches ∧ resps.length = group.length ∧
        group[i]? = some p ∧ p.call = call ∧ resps[i]? = some resp) ∨
    ∃ p : PendingStore κ, p.call = call ∧ (p, .ok resp) ∈ b.unaries

end DestBatcher

def Phase.left {κ ρ : Type} : Phase κ ρ → List Nat
  | .asleep => []
  | .shipping group => group.map PendingStore.call
  | .replying left => left.map (·.1.call)
  | .replaying left => left.map PendingStore.call

def Phase.work {κ ρ : Type} : Phase κ ρ → Nat
  | .asleep => 1
  | .shipping group => group.length + 3
  | .replying left => left.length + 2
  | .replaying left => left.length + 2

/-- What a flusher has in hand was shipped, and its results are the calls' own. -/
def Phase.Fits {κ ρ : Type} (b : DestBatcher κ ρ) : Phase κ ρ → Prop
  | .asleep => True
  | .shipping group => group ∈ b.shipped
  | .replying left => ∀ x ∈ left, b.Own x.1.call x.2
  | .replaying left => left ⊆ b.shipped.flatten

namespace DestBatcher

variable {κ ρ : Type}

/-- What holds after any events. -/
structure Sound (b : DestBatcher κ ρ) : Prop where
  one : (b.flushing = false ∧ b.flushers = [] ∧ b.queue = []) ∨
    (b.flushing = true ∧ ∃ phase, b.flushers = [phase])
  calls : b.arrived.map PendingStore.call = List.range b.callers.length
  parts : b.shipped.flatten ++ b.queue = b.arrived
  groups : ∀ group ∈ b.shipped, group ≠ [] ∧ group.length ≤ batchMaxOps
  answered : b.sent.map Prod.fst ++ b.flushers.flatMap Phase.left =
    b.shipped.flatten.map PendingStore.call
  own : ∀ x ∈ b.sent, b.Own x.1 x.2
  phase : ∀ phase ∈ b.flushers, phase.Fits b
  received : ∀ call r, b.callers[call]? = some (.received r) → (call, r) ∈ b.sent
  logged : ∀ x ∈ b.batches, x.1 ∈ b.shipped
  alone : ∀ x ∈ b.unaries, x.1 ∈ b.shipped.flatten

theorem sound_empty : ({} : DestBatcher κ ρ).Sound where
  one := .inl ⟨rfl, rfl, rfl⟩
  calls := rfl
  parts := rfl
  groups := by simp
  answered := rfl
  own := by simp
  phase := by simp
  received := by simp
  logged := by simp
  alone := by simp

/-- A longer account keeps what it shows. -/
theorem Own.mono {b b' : DestBatcher κ ρ} (hb : b.batches ⊆ b'.batches)
    (hu : b.unaries ⊆ b'.unaries) {call : Nat} {r : Result ρ} (h : b.Own call r) :
    b'.Own call r := by
  cases r with
  | error e => exact h
  | ok resp =>
    rcases h with ⟨group, resps, i, p, hmem, hrest⟩ | ⟨p, hcall, hmem⟩
    · exact .inl ⟨group, resps, i, p, hb hmem, hrest⟩
    · exact .inr ⟨p, hcall, hu hmem⟩

theorem Sound.enqueue {b : DestBatcher κ ρ} (h : b.Sound) (req : κ) : (b.enqueue req).Sound := by
  have hcalls : (b.arrived ++ [(⟨b.callers.length, req⟩ : PendingStore κ)]).map PendingStore.call =
      List.range (b.callers ++ [Caller.waiting]).length := by
    rw [List.map_append, h.calls, List.length_append, List.length_singleton, List.range_succ]
    rfl
  have hparts : b.shipped.flatten ++ (b.queue ++ [⟨b.callers.length, req⟩]) =
      b.arrived ++ [⟨b.callers.length, req⟩] := by
    rw [← List.append_assoc, h.parts]
  have hreceived : ∀ call r, (b.callers ++ [Caller.waiting])[call]? = some (.received r) →
      (call, r) ∈ b.sent := by
    intro call r hget
    rw [List.getElem?_append] at hget
    split at hget
    · exact h.received call r hget
    · rw [List.getElem?_singleton] at hget
      split at hget <;> cases hget
  unfold DestBatcher.enqueue
  simp only
  split
  · rename_i hflushing
    refine ⟨.inr ?_, hcalls, hparts, h.groups, h.answered, h.own, h.phase, hreceived, h.logged,
      h.alone⟩
    rcases h.one with ⟨hoff, -⟩ | hon
    · rw [hoff] at hflushing
      cases hflushing
    · exact hon
  · rename_i hflushing
    -- there was no flusher: one starts
    obtain ⟨-, hnone, -⟩ : b.flushing = false ∧ b.flushers = [] ∧ b.queue = [] :=
      h.one.resolve_right fun hon => hflushing hon.1
    have hanswered := h.answered
    rw [hnone] at hanswered
    refine ⟨.inr ⟨rfl, .asleep, by rw [hnone]; rfl⟩, hcalls, hparts, h.groups, ?_, h.own, ?_,
      hreceived, h.logged, h.alone⟩
    · rw [hnone]
      exact hanswered
    · rw [hnone]
      intro phase hphase
      rw [List.mem_singleton.mp hphase]
      trivial

/-- A batched call's outcome is for every call of the group. -/
theorem left_ship (group : List (PendingStore κ)) (batch : Result (List ρ)) :
    (ship group batch).left = group.map PendingStore.call := by
  cases batch with
  | ok resps =>
    unfold ship
    simp only
    split
    · rename_i hlen
      show (group.zip (resps.map Except.ok)).map (fun x => x.1.call) = _
      have hfst : (group.zip (resps.map (Except.ok : ρ → Result ρ))).map Prod.fst = group :=
        List.map_fst_zip (by rw [List.length_map, hlen])
      conv_rhs => rw [← hfst, List.map_map]
      rfl
    · simp [Phase.left]
  | error e =>
    unfold ship
    simp only
    split
    · rfl
    · simp [Phase.left]

theorem fits_ship {b : DestBatcher κ ρ} {group : List (PendingStore κ)} {batch : Result (List ρ)}
    (h : (group, batch) ∈ b.batches) (hgroup : group ∈ b.shipped) :
    (ship group batch).Fits b := by
  cases batch with
  | ok resps =>
    unfold ship
    simp only
    split
    · rename_i hlen
      intro x hx
      obtain ⟨i, hi⟩ := List.mem_iff_getElem?.mp hx
      obtain ⟨hp, hr⟩ := List.getElem?_zip_eq_some.mp hi
      rw [List.getElem?_map, Option.map_eq_some_iff] at hr
      obtain ⟨resp, hresp, hok⟩ := hr
      rw [← hok]
      exact .inl ⟨group, resps, i, x.1, h, hlen, hp, rfl, hresp⟩
    · intro x hx
      obtain ⟨p, -, rfl⟩ := List.mem_map.mp hx
      trivial
  | error e =>
    unfold ship
    simp only
    split
    · exact fun p hp => List.mem_flatten_of_mem hgroup hp
    · intro x hx
      obtain ⟨p, -, rfl⟩ := List.mem_map.mp hx
      trivial

theorem Sound.flushing_of {b : DestBatcher κ ρ} (h : b.Sound) {phase : Phase κ ρ}
    (hphase : b.flushers = [phase]) : b.flushing = true := by
  rcases h.one with ⟨-, hnone, -⟩ | ⟨hon, -⟩
  · rw [hnone] at hphase
    cases hphase
  · exact hon

/-- The flusher takes or leaves an empty queue, or ships what it took. -/
theorem Sound.take {b : DestBatcher κ ρ} (h : b.Sound) (hphase : b.flushers = [.asleep])
    (batch : Result (List ρ)) (unary : Result ρ) : (b.flushStep 0 batch unary .asleep).Sound := by
  have hanswered := h.answered
  rw [hphase, List.flatMap_singleton, Phase.left, List.append_nil] at hanswered
  have hcut := List.take_append_drop batchMaxOps b.queue
  simp only [DestBatcher.flushStep, hphase, List.eraseIdx_cons_zero, List.set_cons_zero]
  split
  · rename_i hempty
    have hqueue : b.queue = [] := by
      rw [List.isEmpty_iff, List.take_eq_nil_iff] at hempty
      exact hempty.resolve_left (by decide)
    refine ⟨.inl ⟨rfl, rfl, by simp [hqueue]⟩, h.calls, ?_, h.groups, ?_, h.own, by simp,
      h.received, h.logged, h.alone⟩
    · simpa [hqueue] using h.parts
    · simpa using hanswered
  · rename_i hgroup
    refine ⟨.inr ⟨h.flushing_of hphase, _, rfl⟩, h.calls, ?_, ?_, ?_, h.own, ?_, h.received, ?_,
      ?_⟩
    · simpa [hcut] using h.parts
    · intro group hmem
      rcases List.mem_append.mp hmem with hmem | hmem
      · exact h.groups group hmem
      · rw [List.mem_singleton.mp hmem]
        refine ⟨fun hnil => hgroup (by simp [hnil]), ?_⟩
        rw [List.length_take]
        exact Nat.min_le_left _ _
    · simp [Phase.left, hanswered]
    · simp [Phase.Fits]
    · exact fun x hx => List.mem_append_left _ (h.logged x hx)
    · intro x hx
      rw [List.flatten_append]
      exact List.mem_append_left _ (h.alone x hx)

/-- The flusher moves on with a group: it sends results it owes, and makes calls. -/
theorem Sound.move {b : DestBatcher κ ρ} (h : b.Sound) {phase : Phase κ ρ}
    (hphase : b.flushers = [phase]) (phase' : Phase κ ρ) (more : List (Nat × Result ρ))
    (calls : List (List (PendingStore κ) × Result (List ρ)))
    (alone : List (PendingStore κ × Result ρ))
    (hleft : phase.left = more.map Prod.fst ++ phase'.left)
    (hcalls : ∀ x ∈ calls, x.1 ∈ b.shipped) (halone : ∀ x ∈ alone, x.1 ∈ b.shipped.flatten) :
    let b' : DestBatcher κ ρ :=
      { b with flushers := [phase'], sent := b.sent ++ more, batches := b.batches ++ calls,
               unaries := b.unaries ++ alone }
    (∀ x ∈ more, b'.Own x.1 x.2) → phase'.Fits b' → b'.Sound := by
  intro b' hown hfits
  have hbatches : b.batches ⊆ b'.batches := List.subset_append_left _ _
  have hunaries : b.unaries ⊆ b'.unaries := List.subset_append_left _ _
  refine ⟨.inr ⟨h.flushing_of hphase, phase', rfl⟩, h.calls, h.parts, h.groups, ?_, fun x hx => ?_,
    fun phase hmem => ?_, fun call r hr => ?_, fun x hx => ?_, fun x hx => ?_⟩
  · have hanswered := h.answered
    rw [hphase, List.flatMap_singleton, hleft] at hanswered
    simpa [b'] using hanswered
  · rcases List.mem_append.mp hx with hx | hx
    · exact (h.own x hx).mono hbatches hunaries
    · exact hown x hx
  · rw [List.mem_singleton.mp hmem]
    exact hfits
  · exact List.mem_append_left _ (h.received call r hr)
  · rcases List.mem_append.mp hx with hx | hx
    · exact h.logged x hx
    · exact hcalls x hx
  · rcases List.mem_append.mp hx with hx | hx
    · exact h.alone x hx
    · exact halone x hx

/-- A step of the flusher. -/
theorem Sound.flushStep {b : DestBatcher κ ρ} (h : b.Sound) {phase : Phase κ ρ}
    (hphase : b.flushers = [phase]) (batch : Result (List ρ)) (unary : Result ρ) :
    (b.flushStep 0 batch unary phase).Sound := by
  have hfits := h.phase phase (by simp [hphase])
  cases phase with
  | asleep => exact h.take hphase batch unary
  | shipping group =>
    have hmove := h.move hphase (ship group batch) [] [(group, batch)] []
      (by rw [left_ship]; rfl)
      (fun x hx => by
        rw [List.mem_singleton.mp hx]
        exact hfits)
      (by simp) (by simp) (fits_ship (List.mem_append_right _ (by simp)) hfits)
    simpa [DestBatcher.flushStep, hphase] using hmove
  | replying left =>
    cases left with
    | nil =>
      have hmove := h.move hphase .asleep [] [] [] rfl (by simp) (by simp) (by simp) trivial
      simpa [DestBatcher.flushStep, hphase] using hmove
    | cons x left =>
      have hmove := h.move hphase (.replying left) [(x.1.call, x.2)] [] [] rfl (by simp)
        (by simp)
        (fun y hy => by
          rw [List.mem_singleton.mp hy]
          exact (hfits x (by simp)).mono (List.subset_append_left _ _)
            (List.subset_append_left _ _))
        (fun y hy => (hfits y (List.mem_cons_of_mem _ hy)).mono (List.subset_append_left _ _)
          (List.subset_append_left _ _))
      simpa [DestBatcher.flushStep, hphase] using hmove
  | replaying left =>
    cases left with
    | nil =>
      have hmove := h.move hphase .asleep [] [] [] rfl (by simp) (by simp) (by simp) trivial
      simpa [DestBatcher.flushStep, hphase] using hmove
    | cons p left =>
      have hp : p ∈ b.shipped.flatten := hfits (by simp)
      have hmove := h.move hphase (.replaying left) [(p.call, unary)] [] [(p, unary)] rfl
        (by simp) (by simpa using hp)
        (fun y hy => by
          rw [List.mem_singleton.mp hy]
          cases unary with
          | error e => trivial
          | ok resp => exact .inr ⟨p, rfl, List.mem_append_right _ (by simp)⟩)
        (fun q hq => hfits (List.mem_cons_of_mem _ hq))
      simpa [DestBatcher.flushStep, hphase] using hmove

/-- A caller that is no longer waiting; a result it has is one that was sent to it. -/
theorem Sound.setCaller {b : DestBatcher κ ρ} (h : b.Sound) {call : Nat} {c : Caller ρ}
    (hc : ∀ r, c = .received r → (call, r) ∈ b.sent) :
    ({ b with callers := b.callers.set call c } : DestBatcher κ ρ).Sound := by
  refine ⟨h.one, ?_, h.parts, h.groups, h.answered, h.own, h.phase, ?_, h.logged, h.alone⟩
  · rw [List.length_set]
    exact h.calls
  · intro call' r hget
    rw [List.getElem?_set] at hget
    split at hget
    · rename_i heq
      split at hget
      · rw [← heq]
        exact hc r (Option.some.inj hget)
      · cases hget
    · exact h.received call' r hget

theorem Sound.step {b : DestBatcher κ ρ} (h : b.Sound) (e : Event κ ρ) : (b.step e).Sound := by
  cases e with
  | enqueue req => exact h.enqueue req
  | flush i batch unary =>
    unfold DestBatcher.step
    simp only
    split
    · rename_i phase hget
      rcases h.one with ⟨-, hnone, -⟩ | ⟨-, phase', hphase⟩
      · rw [hnone] at hget
        cases hget
      · rw [hphase, List.getElem?_singleton] at hget
        split at hget
        · rename_i hzero
          cases hget
          rw [hzero]
          exact h.flushStep hphase batch unary
        · cases hget
    · exact h
  | receive call =>
    unfold DestBatcher.step
    simp only
    split
    · rename_i x hwaiting hfind
      refine h.setCaller fun r hr => ?_
      cases hr
      have hcall : x.1 = call := by simpa using List.find?_some hfind
      rw [← hcall]
      exact List.mem_of_find?_eq_some hfind
    · exact h
  | giveUp call =>
    unfold DestBatcher.step
    simp only
    split
    · refine h.setCaller fun r hr => ?_
      cases hr
    · exact h

theorem Sound.run {b : DestBatcher κ ρ} (h : b.Sound) (es : List (Event κ ρ)) :
    (b.run es).Sound := by
  induction es generalizing b with
  | nil => exact h
  | cons e es ih => exact ih (h.step e)

/-! ## What callers read -/

/-- No caller is sent twice. -/
theorem Sound.nodup_sent {b : DestBatcher κ ρ} (h : b.Sound) : (b.sent.map Prod.fst).Nodup := by
  have hsub : (b.sent.map Prod.fst).Sublist (List.range b.callers.length) := by
    rw [← h.calls, ← h.parts, List.map_append, ← h.answered, List.append_assoc]
    exact List.sublist_append_left _ _
  exact List.nodup_range.sublist hsub

/-- A caller that waits reads the result sent to its call. -/
theorem Sound.receive {b : DestBatcher κ ρ} (h : b.Sound) {call : Nat} {r : Result ρ}
    (hwaiting : b.callers[call]? = some .waiting) (hsent : (call, r) ∈ b.sent) :
    (b.step (.receive call)).callers[call]? = some (.received r) := by
  obtain ⟨x, hfind⟩ : ∃ x, b.sent.find? (·.1 == call) = some x :=
    Option.isSome_iff_exists.mp (List.find?_isSome.mpr ⟨_, hsent, beq_self_eq_true call⟩)
  -- only one result is sent to a call
  have hx : x = (call, r) := by
    have hcall : x.1 = call := by simpa using List.find?_some hfind
    exact List.inj_on_of_nodup_map h.nodup_sent (List.mem_of_find?_eq_some hfind) hsent hcall
  have hlt : call < b.callers.length := (List.getElem?_eq_some_iff.mp hwaiting).1
  simp only [DestBatcher.step, hwaiting, hfind, hx]
  exact List.getElem?_set_self hlt

/-- What a caller has read it keeps. -/
theorem received_step {b : DestBatcher κ ρ} {call : Nat} {r : Result ρ}
    (hread : b.callers[call]? = some (.received r)) (e : Event κ ρ) :
    (b.step e).callers[call]? = some (.received r) := by
  have hset : ∀ call' c, b.callers[call']? = some .waiting →
      (b.callers.set call' c)[call]? = some (.received r) := by
    intro call' c hwaiting
    rw [List.getElem?_set_ne]
    · exact hread
    · rintro rfl
      rw [hread] at hwaiting
      cases hwaiting
  cases e with
  | enqueue req =>
    have happend : (b.callers ++ [Caller.waiting])[call]? = some (.received r) := by
      rw [List.getElem?_append_left (List.getElem?_eq_some_iff.mp hread).1, hread]
    unfold DestBatcher.step DestBatcher.enqueue
    simp only
    split <;> exact happend
  | flush i batch unary =>
    simp only [DestBatcher.step]
    split
    · unfold DestBatcher.flushStep
      split
      · simp only
        split <;> exact hread
      all_goals exact hread
    · exact hread
  | receive call' =>
    simp only [DestBatcher.step]
    split
    · rename_i hwaiting _
      exact hset call' _ hwaiting
    · exact hread
  | giveUp call' =>
    simp only [DestBatcher.step]
    split
    · rename_i hwaiting
      exact hset call' _ hwaiting
    · exact hread

/-! ## The flusher comes to an end -/

/-- A bound on the steps the flusher makes when nothing arrives. -/
def work (b : DestBatcher κ ρ) : Nat :=
  4 * b.queue.length + (b.flushers.map Phase.work).sum

theorem work_ship (group : List (PendingStore κ)) (batch : Result (List ρ)) :
    Phase.work (ship group batch) = group.length + 2 := by
  cases batch with
  | ok resps =>
    unfold ship
    simp only
    split
    · rename_i hlen
      simp [Phase.work, hlen]
    · simp [Phase.work]
  | error e =>
    unfold ship
    simp only
    split
    · rfl
    · simp [Phase.work]

/-- Every answer shrinks what is left to send. -/
theorem work_flushStep {b : DestBatcher κ ρ} {phase : Phase κ ρ} (hphase : b.flushers = [phase])
    (batch : Result (List ρ)) (unary : Result ρ) :
    (b.flushStep 0 batch unary phase).work < b.work := by
  have hwork : b.work = 4 * b.queue.length + phase.work := by simp [work, hphase]
  rw [hwork]
  cases phase with
  | asleep =>
    simp only [DestBatcher.flushStep, hphase, List.eraseIdx_cons_zero, List.set_cons_zero]
    have hlength := congrArg List.length (List.take_append_drop batchMaxOps b.queue)
    rw [List.length_append] at hlength
    split
    · simp only [work, List.map_nil, List.sum_nil, Phase.work]
      omega
    · rename_i hgroup
      have hpos : 0 < (b.queue.take batchMaxOps).length :=
        List.length_pos_iff.mpr fun hnil => hgroup (by simp [hnil])
      simp only [work, List.map_cons, List.map_nil, List.sum_cons, List.sum_nil, Phase.work]
      omega
  | shipping group =>
    simp only [DestBatcher.flushStep, hphase, List.set_cons_zero, work, List.map_cons,
      List.map_nil, List.sum_cons, List.sum_nil, work_ship]
    simp only [Phase.work]
    omega
  | replying left =>
    cases left <;> simp [DestBatcher.flushStep, hphase, work, Phase.work]
  | replaying left =>
    cases left <;> simp [DestBatcher.flushStep, hphase, work, Phase.work]

/-- The steps of the flusher alone, with whatever answers its calls get. -/
def flushes (answers : List (Result (List ρ) × Result ρ)) : List (Event κ ρ) :=
  answers.map fun x => .flush 0 x.1 x.2

/-- After enough answers nothing is being sent. -/
theorem flushers_flushes {b : DestBatcher κ ρ} (h : b.Sound)
    {answers : List (Result (List ρ) × Result ρ)} (hlong : b.work ≤ answers.length) :
    (b.run (flushes answers)).flushers = [] := by
  induction answers generalizing b with
  | nil =>
    rcases h.one with ⟨-, hnone, -⟩ | ⟨-, phase, hphase⟩
    · exact hnone
    · -- a flusher has work to do
      have hpos : 0 < phase.work := by cases phase <;> simp [Phase.work]
      simp [work, hphase] at hlong
      omega
  | cons x answers ih =>
    refine ih (h.step (.flush 0 x.1 x.2)) ?_
    rcases h.one with ⟨hoff, hnone, hqueue⟩ | ⟨-, phase, hphase⟩
    · simp [DestBatcher.step, hnone, work, hqueue]
    · have hless := work_flushStep hphase x.1 x.2
      have hstep : b.step (.flush 0 x.1 x.2) = b.flushStep 0 x.1 x.2 phase := by
        simp [DestBatcher.step, hphase]
      rw [hstep]
      rw [List.length_cons] at hlong
      omega

/-- What has arrived are the requests of the calls, in order. -/
theorem arrived_run (b : DestBatcher κ ρ) (es : List (Event κ ρ)) :
    (b.run es).arrived.map PendingStore.req =
      b.arrived.map PendingStore.req ++ es.filterMap Event.req? := by
  induction es generalizing b with
  | nil => simp [run]
  | cons e es ih =>
    have hstep : (b.step e).arrived.map PendingStore.req =
        b.arrived.map PendingStore.req ++ e.req?.toList := by
      cases e with
      | enqueue req =>
        unfold DestBatcher.step DestBatcher.enqueue
        simp only
        split <;> simp [Event.req?]
      | flush i batch unary =>
        simp only [DestBatcher.step, Event.req?, Option.toList_none, List.append_nil]
        split
        · unfold DestBatcher.flushStep
          split
          · simp only
            split <;> rfl
          all_goals rfl
        · rfl
      | receive call =>
        simp only [DestBatcher.step, Event.req?, Option.toList_none, List.append_nil]
        split <;> rfl
      | giveUp call =>
        simp only [DestBatcher.step, Event.req?, Option.toList_none, List.append_nil]
        split <;> rfl
    show ((b.step e).run es).arrived.map PendingStore.req = _
    rw [ih, hstep]
    cases hreq : e.req? <;> simp [hreq]

/-- After any events: at most one flusher runs; the requests that have arrived are those in
the shipped groups, of at most 128 each, and behind them those in the queue, in the order
of arrival; calls are made for shipped requests only; every call has been sent at most one
result, and that is its own; a caller that waits reads the result sent to it, and what a
caller has read was sent to it and stays; with no flusher running nothing is queued and every
call has been sent its result; and the flusher, left alone, gets there. -/
theorem batching_transparent (es : List (Event κ ρ)) :
    let b := ({} : DestBatcher κ ρ).run es
    b.flushers.length ≤ 1 ∧
      (b.arrived.map PendingStore.req = es.filterMap Event.req? ∧
        b.arrived.map PendingStore.call = List.range b.callers.length ∧
        b.shipped.flatten ++ b.queue = b.arrived ∧
        ∀ group ∈ b.shipped, group.length ≤ batchMaxOps) ∧
      ((∀ x ∈ b.batches, x.1 ∈ b.shipped) ∧ ∀ x ∈ b.unaries, x.1 ∈ b.shipped.flatten) ∧
      ((b.sent.map Prod.fst).Nodup ∧ (∀ x ∈ b.sent, b.Own x.1 x.2) ∧
        (∀ call r, b.callers[call]? = some (.received r) →
          (call, r) ∈ b.sent ∧ ∀ e, (b.step e).callers[call]? = some (.received r)) ∧
        ∀ call r, b.callers[call]? = some .waiting → (call, r) ∈ b.sent →
          (b.step (.receive call)).callers[call]? = some (.received r)) ∧
      (b.flushers = [] → b.queue = [] ∧ b.sent.map Prod.fst = List.range b.callers.length) ∧
      ∀ answers : List (Result (List ρ) × Result ρ), b.work ≤ answers.length →
        (b.run (flushes answers)).flushers = [] := by
  intro b
  have h : b.Sound := sound_empty.run es
  have hpart : b.shipped.flatten.map PendingStore.call ++ b.queue.map PendingStore.call =
      List.range b.callers.length := by
    rw [← List.map_append, h.parts, h.calls]
  refine ⟨?_, ⟨?_, h.calls, h.parts, fun group hgroup => (h.groups group hgroup).2⟩,
    ⟨h.logged, h.alone⟩,
    ⟨h.nodup_sent, h.own, fun call r hread => ⟨h.received call r hread, received_step hread⟩,
      fun call r => h.receive⟩,
    fun hnone => ?_, fun answers hlong => flushers_flushes h hlong⟩
  · rcases h.one with ⟨-, hnone, -⟩ | ⟨-, phase, hphase⟩
    · simp [hnone]
    · simp [hphase]
  · have harrived := arrived_run ({} : DestBatcher κ ρ) es
    simpa using harrived
  · rcases h.one with ⟨-, -, hqueue⟩ | ⟨-, phase, hphase⟩
    · refine ⟨hqueue, ?_⟩
      have hanswered := h.answered
      rw [hnone, List.flatMap_nil, List.append_nil] at hanswered
      rw [hanswered, ← hpart, hqueue, List.map_nil, List.append_nil]
    · rw [hphase] at hnone
      cases hnone

/-- Two calls, one of which is given up, and a peer that answers the batch with one response
for the two. -/
def mismatched : List (Event Nat Nat) :=
  [.enqueue 10, .enqueue 11, .giveUp 0, .flush 0 (.ok []) (.ok 0), .flush 0 (.ok [7]) (.ok 0)]

/-- Five more steps of the flusher end it, whatever its calls return. -/
theorem batching_transparent_mismatched :
    ((({} : DestBatcher Nat Nat).run mismatched).run
        (flushes (List.replicate 5 (.ok [], .ok 0)))).flushers = [] ∧
      (({} : DestBatcher Nat Nat).run mismatched).flushers.length ≤ 1 :=
  ⟨(batching_transparent mismatched).2.2.2.2.2 _ (by decide), (batching_transparent mismatched).1⟩

end DestBatcher

end WaveSpan.Batcher
