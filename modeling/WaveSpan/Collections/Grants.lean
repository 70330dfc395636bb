/-
WaveSpan.Collections.Grants — what a grant promises: that pacing lets it through, that a
retry repeats it, and when its lease is due.

An accrual counts at most `4 * burst * 1000 / rate` milliseconds. Up to a rate of 4000 times
the burst that is time enough to fill the bucket (`paced_grant`); above, the quotient is zero,
nothing ever accrues, and a pool that has given out its first burst gives out nothing again
(`bucket_wedged`).

A retried grant is answered from the lease row. The row has the expiry and not the TTL, and
only a positive expiry counts: a negative TTL, or one whose sum with the stamp wraps, is
answered differently the second time (`grant_replay`).

The reclaim deadline is a sum of four numbers, of which only the stamp is the shard's own.
Where it fits int64, the expiry scan returns the lease from its deadline on and not before
(`reclaim_deadline`).
-/
import WaveSpan.Collections.Moves
import WaveSpan.Collections.Pacing

namespace WaveSpan.Collections

open WaveSpan.Wire WaveSpan.Rows WaveSpan.Prog

/-! ## The bucket fills -/

/-- The time in which an empty bucket fills: `ceil(1000 * burst / rate) + 1` ms. -/
def refillTimeMs (p : PoolRec) : Int :=
  (1000 * p.burst.toInt + p.rate.toInt - 1) / p.rate.toInt + 1

section
variable {p : PoolRec} {t : Int64}

/-- After the refill time the burst is full. -/
theorem refillTimeMs_enough (h : Paced p) :
    1000 * p.burst.toInt ≤ p.rate.toInt * refillTimeMs p := by
  have hrate := h.rate
  have hmod := Int.emod_lt_of_pos (1000 * p.burst.toInt + p.rate.toInt - 1) hrate
  have hdiv := Int.mul_ediv_add_emod (1000 * p.burst.toInt + p.rate.toInt - 1) p.rate.toInt
  rw [refillTimeMs, Int.mul_add, Int.mul_one]
  omega

/-- Up to a rate of 4000 times the burst the window of an accrual is long enough to fill the
bucket. -/
theorem window_enough (h : Paced p) (hwindow : p.rate.toInt ≤ 4000 * p.burst.toInt) :
    1000 * p.burst.toInt ≤ p.rate.toInt * (pacingMaxElapsedMs p.rate p.burst).toInt := by
  have hrate := h.rate
  rw [(maxElapsed_exact h).2.2]
  have hmod := Int.emod_lt_of_pos (4 * p.burst.toInt * 1000) hrate
  have hdiv := Int.mul_ediv_add_emod (4 * p.burst.toInt * 1000) p.rate.toInt
  have hone : p.rate.toInt * 1 ≤ p.rate.toInt * (4 * p.burst.toInt * 1000 / p.rate.toInt) :=
    Int.mul_le_mul_of_nonneg_left ((Int.le_ediv_iff_mul_le hrate).mpr (by omega)) hrate.le
  omega

/-- Above it the window is empty. -/
theorem accrued_wedged (h : Paced p) (ht : Stamp t)
    (hwindow : 4000 * p.burst.toInt < p.rate.toInt) : (accrued p t).toInt = 0 := by
  have hmax : (pacingMaxElapsedMs p.rate p.burst).toInt = 0 := by
    rw [(maxElapsed_exact h).2.2]
    exact Int.ediv_eq_zero_of_lt (by have := h.burst; omega) (by omega)
  obtain ⟨-, hnonneg, -, -⟩ := elapsedMs_bounds h ht
  obtain ⟨-, hhi⟩ := @clampI64_between (t - refillFrom p t) 0 _ (by rw [hmax]; rfl)
  have helapsed : (elapsedMs p t).toInt = 0 := le_antisymm (hmax ▸ hhi) hnonneg
  rw [(accrued_exact h ht).2.1, helapsed, Int.mul_zero]
  rfl

/-- After the refill time the accrual alone is a burst. -/
theorem burst_le_accrued (h : Paced p) (ht : Stamp t) (hset : p.lastRefillMs.toInt ≠ 0)
    (hwindow : p.rate.toInt ≤ 4000 * p.burst.toInt)
    (hdue : p.lastRefillMs.toInt + refillTimeMs p ≤ t.toInt) :
    p.burst.toInt ≤ (accrued p t).toInt := by
  have hfrom := refillFrom_toInt p t
  rw [if_neg hset] at hfrom
  obtain ⟨hdiff, -, -, -⟩ := elapsedMs_bounds h ht
  have hprod : 1000 * p.burst.toInt ≤ p.rate.toInt * (elapsedMs p t).toInt := by
    -- the clamp leaves the time that has passed, or the whole window
    have htime : refillTimeMs p ≤ (t - refillFrom p t).toInt := by omega
    have hrefill := refillTimeMs_enough h
    have hpassed : p.rate.toInt * refillTimeMs p ≤ p.rate.toInt * (t - refillFrom p t).toInt :=
      Int.mul_le_mul_of_nonneg_left htime h.rate.le
    unfold elapsedMs clampI64
    split
    · rename_i hneg
      rw [Int64.lt_iff_toInt_lt, Int64.toInt_zero] at hneg
      have hle : p.rate.toInt * (t - refillFrom p t).toInt ≤ 0 :=
        Int.mul_nonpos_of_nonneg_of_nonpos h.rate.le hneg.le
      rw [Int64.toInt_zero, Int.mul_zero]
      omega
    · split
      · exact window_enough h hwindow
      · omega
  rw [(accrued_exact h ht).2.1]
  omega

/-- An accrual that covers the burst, or that meets a full bucket, leaves as much as the burst
and the room below the cap allow. -/
theorem accrueTokens_full (h : Paced p) (ht : Stamp t)
    (hroom : (p.cap - p.spent).toInt = p.cap.toInt - p.spent.toInt)
    (hspent : p.spent.toInt < p.cap.toInt)
    (hfull : p.burst.toInt ≤ p.tokens.toInt + (accrued p t).toInt) :
    (accrueTokens p t).tokens.toInt = min p.burst.toInt (p.cap.toInt - p.spent.toInt) := by
  obtain ⟨-, -, -, hsum⟩ := accrued_exact h ht
  have hburst := h.burst
  have htokens : (min64 (min64 p.burst (p.cap - p.spent)) (p.tokens + accrued p t)).toInt =
      min p.burst.toInt (p.cap.toInt - p.spent.toInt) := by
    rw [toInt_min64, toInt_min64, hsum, hroom]
    omega
  rw [accrueTokens_eq h]
  show (if _ < (0 : Int64) then (0 : Int64) else _).toInt = _
  rw [if_neg, htokens]
  rw [Int64.lt_iff_toInt_lt, htokens, Int64.toInt_zero]
  omega

/-- A request of at least one meets a pool with tokens and free quantity. -/
theorem grantable_pos {amount : Int64} (h : Paced p) (hamount : 0 < amount.toInt)
    (htokens : 0 < p.tokens.toInt) (havail : 0 < p.available.toInt) :
    0 < (grantable p amount).toInt := by
  have hrate : p.rate > 0 := pos_iff_toInt.mpr h.rate
  have hmin := toInt_min64 amount p.tokens
  unfold grantable
  rw [if_pos hrate]
  dsimp only
  split <;> omega

end

namespace Ledger

def allotted (a : GrantArgs) (b : Book) : Book :=
  { pool := takeGrant (accrueTokens b.pool a.grantedMs)
      (grantable (accrueTokens b.pool a.grantedMs) a.amount)
    leases := b.leases.insert a.leaseID (newLease (accrueTokens b.pool a.grantedMs) a.holder
      (grantable (accrueTokens b.pool a.grantedMs) a.amount) a.grantedMs
      (resolveTTL b.pool a.ttlOverride)) }

def allottedResult (a : GrantArgs) (b : Book) : ProposeResult :=
  { value := (grantable (accrueTokens b.pool a.grantedMs) a.amount).toUInt64
    data := encodeGrantResult
      { granted := grantable (accrueTokens b.pool a.grantedMs) a.amount
        grantedMs := a.grantedMs, ttlMs := resolveTTL b.pool a.ttlOverride
        selfGuardMs := (accrueTokens b.pool a.grantedMs).selfGuardMs
        maxPauseMs := (accrueTokens b.pool a.grantedMs).maxPauseMs } }

/-- A grant passes every check. -/
structure Grantable (a : GrantArgs) (b : Book) (L : Ledger) : Prop where
  book : L.book = some b
  amount : ¬ a.amount < 0
  tomb : L.tombs[a.leaseID]? = none
  lease : b.leases[a.leaseID]? = none
  guard : ¬ (resolveTTL b.pool a.ttlOverride > 0 ∧ b.pool.selfGuardMs < maxClockSkewMs)
  positive : ¬ grantable (accrueTokens b.pool a.grantedMs) a.amount ≤ 0

variable {L : Ledger} {a : GrantArgs} {b : Book}

/-- A grant that goes through. -/
theorem Grantable.grant (h : Grantable a b L) :
    L.grant a = ({ L with book := some (allotted a b) }, allottedResult a b) := by
  rw [Ledger.grant, if_neg h.amount]
  simp only [h.tomb, h.book, h.lease, allot, if_neg h.guard, if_neg h.positive]
  rfl

/-- A grant that made a lease passed every check. -/
theorem grantable_of_lease (hnew : L.lease? a.leaseID = none)
    (hlease : ((L.grant a).1.lease? a.leaseID).isSome) : ∃ b, Grantable a b L := by
  have hchanged : (L.grant a).1 ≠ L := by
    intro heq
    rw [heq, hnew] at hlease
    cases hlease
  unfold Ledger.grant at hchanged
  split at hchanged
  · exact absurd rfl hchanged
  rename_i hneg
  split at hchanged
  · exact absurd rfl hchanged
  rename_i ht
  split at hchanged
  · exact absurd rfl hchanged
  rename_i b hb
  split at hchanged
  · exact absurd rfl hchanged
  rename_i hl
  simp only [allot] at hchanged
  split at hchanged
  · exact absurd rfl hchanged
  rename_i hguard
  split at hchanged
  · exact absurd rfl hchanged
  rename_i hg
  exact ⟨b, hb, hneg, ht, hl, hguard, hg⟩

theorem lease?_allotted (a : GrantArgs) (b : Book) (tombs : GoMap TombRec) :
    lease? { book := some (allotted a b), tombs } a.leaseID =
      some (allotted a b, newLease (accrueTokens b.pool a.grantedMs) a.holder
        (grantable (accrueTokens b.pool a.grantedMs) a.amount) a.grantedMs
        (resolveTTL b.pool a.ttlOverride)) := by
  rw [lease?_of_book rfl, allotted, Std.ExtTreeMap.getElem?_insert_self]
  rfl

end Ledger

/-- The bucket of a pool that has not granted yet is full. -/
def SeededFull (p : PoolRec) : Prop := p.lastRefillMs.toInt = 0 → p.tokens = p.burst

/-- A grant sets the refill stamp, so along a run an unset one means a full bucket. -/
theorem run_seededFull {ops : List BudOp} {b : Book} (hops : ∀ op ∈ ops, op.Stamped)
    (hb : (Ledger.run ops {}).book = some b) (hrate : 0 < b.pool.rate.toInt) :
    SeededFull b.pool := by
  refine Ledger.run_book_induct (P := fun b => 0 < b.pool.rate.toInt →
    Paced b.pool ∧ SeededFull b.pool) (fun a _ hparam hrate' => ?_)
    (fun op hop L b b' hL hb' hlimits hP hrate' => ?_) hb hrate |>.2
  · have hpos : a.rate > 0 := pos_iff_toInt.mpr hrate'
    exact ⟨newPool_paced hparam hrate', fun _ => if_pos hpos⟩
  · rw [hlimits.rate] at hrate'
    obtain ⟨hp, hseed⟩ := hP hrate'
    obtain ⟨b₂, hb₂, -, hdrawn⟩ := Ledger.apply_drawn hL hp (hops op hop)
    rw [hb'] at hb₂
    cases hb₂
    refine ⟨hdrawn.paced, fun hzero => ?_⟩
    have hold : b.pool.lastRefillMs.toInt = 0 := by
      have := hp.stamp
      have := hdrawn.stamp
      omega
    cases op with
    | grant a =>
      -- a grant that allots moves the stamp off zero
      change (L.grant a).1.book = _ at hb'
      rcases L.grant_cases a with heq | ⟨b₀, hb₀, -, -, -, heq⟩
      · rw [heq, hL] at hb'
        cases hb'
        exact hseed hold
      · rw [hL] at hb₀
        cases hb₀
        rw [heq] at hb'
        cases hb'
        have hstamp : Stamp a.grantedMs := hops _ hop
        have hmax := (accrueTokens_spec hp hstamp).2.2.2.1
        have hzero' : (accrueTokens b.pool a.grantedMs).lastRefillMs.toInt = 0 := hzero
        unfold Stamp at hstamp
        omega
    | _ =>
      obtain ⟨b₁, hb₁, -, hsame⟩ := Ledger.apply_same hL _
      rw [hb'] at hb₁
      cases hb₁
      rw [(hsame nofun).tokens, hlimits.burst]
      exact hseed hold

/-- Pacing lets a grant through. Take any run of budget commands whose grants carry stamps of
the leader, with a spend that no reconcile has set or a cap below 2^62, at whose end a pool has a
rate of at most 4000 times its burst, free quantity and room below its cap. A request stamped a
refill time after the last refill finds as many tokens as the burst and the room allow; if its
lease id is new and its TTL admissible, it gets a positive amount. -/
theorem paced_grant {ops : List BudOp} {b : Book} {a : GrantArgs}
    (hops : ∀ op ∈ ops, op.Stamped) (hb : (Ledger.run ops {}).book = some b)
    (hexact : (∀ n, .reconcile n ∉ ops) ∨ b.pool.cap.toInt < 2 ^ 62)
    (hrate : 0 < b.pool.rate.toInt) (hburst : 0 < b.pool.burst.toInt)
    (hwindow : b.pool.rate.toInt ≤ 4000 * b.pool.burst.toInt)
    (havail : 0 < b.pool.available.toInt) (hspent : b.pool.spent.toInt < b.pool.cap.toInt)
    (hamount : 1 ≤ a.amount.toInt) (ht : Stamp a.grantedMs)
    (hdue : b.pool.lastRefillMs.toInt + refillTimeMs b.pool ≤ a.grantedMs.toInt) :
    (accrueTokens b.pool a.grantedMs).tokens.toInt =
        min b.pool.burst.toInt (b.pool.cap.toInt - b.pool.spent.toInt) ∧
      ((Ledger.run ops {}).tombs[a.leaseID]? = none → b.leases[a.leaseID]? = none →
        ¬ (resolveTTL b.pool a.ttlOverride > 0 ∧ b.pool.selfGuardMs < maxClockSkewMs) →
        ∃ b' l, ((Ledger.run ops {}).grant a).1.lease? a.leaseID = some (b', l) ∧
          0 < l.amount.toInt) := by
  have hp := run_paced hops hb hrate
  have hroom := (run_grantExact hb hp hexact 0 ht).room
  have hfull : b.pool.burst.toInt ≤ b.pool.tokens.toInt + (accrued b.pool a.grantedMs).toInt := by
    have htokens := hp.tokens
    obtain ⟨-, -, hpos, -⟩ := accrued_exact hp ht
    by_cases hset : b.pool.lastRefillMs.toInt = 0
    · rw [run_seededFull hops hb hrate hset]
      omega
    · have := burst_le_accrued hp ht hset hwindow hdue
      omega
  have htokens := accrueTokens_full hp ht hroom hspent hfull
  refine ⟨htokens, fun htomb hlease hguard => ?_⟩
  have hpos : 0 < (grantable (accrueTokens b.pool a.grantedMs) a.amount).toInt := by
    refine grantable_pos (accrueTokens_spec hp ht).1 (by omega) (by omega) ?_
    rw [(accrueTokens_buckets b.pool a.grantedMs).2.1]
    exact havail
  have hneg : ¬ a.amount < 0 := by
    rw [Int64.lt_iff_toInt_lt, Int64.toInt_zero]
    omega
  have hgrant : ¬ grantable (accrueTokens b.pool a.grantedMs) a.amount ≤ 0 := by
    rw [Int64.le_iff_toInt_le, Int64.toInt_zero]
    omega
  have hgrantable : Ledger.Grantable a b (Ledger.run ops {}) :=
    ⟨hb, hneg, htomb, hlease, hguard, hgrant⟩
  rw [hgrantable.grant]
  exact ⟨_, _, Ledger.lease?_allotted .., by rw [newLease_amount]; exact hpos⟩

/-- A rate of ten a second and a burst of five, drained at one second, is full again half a
second later. -/
theorem paced_grant_ten :
    ∃ b' l, ((Ledger.run (pacedStart ++ pacedRest) {}).grant
        { leaseID := [4], amount := 5, grantedMs := 1800, ttlOverride := 0, holder := [] }).1.lease?
          [4] = some (b', l) ∧ 0 < l.amount.toInt := by
  have hpool : (Ledger.run (pacedStart ++ pacedRest) {}).book.map (fun b => ((b.pool.cap,
      b.pool.rate, b.pool.burst), (b.pool.available, b.pool.spent, b.pool.lastRefillMs),
      (b.pool.defaultTTLMs, b.leases[([4] : Bytes)]?)))
      = some ((100, 10, 5), (93, 0, 1200), (0, none)) := by decide +kernel
  obtain ⟨b, hb, hfields⟩ := Option.map_eq_some_iff.mp hpool
  simp only [Prod.mk.injEq] at hfields
  obtain ⟨⟨hcap, hrate, hburst⟩, ⟨havail, hspent, hlast⟩, httl, hlease⟩ := hfields
  refine (paced_grant paced_stamped hb (.inr (by rw [hcap]; decide)) (by rw [hrate]; decide)
    (by rw [hburst]; decide) (by rw [hrate, hburst]; decide) (by rw [havail]; decide)
    (by rw [hspent, hcap]; decide) (by decide) ⟨by decide, by decide⟩
    (by rw [refillTimeMs, hlast, hrate, hburst]; decide)).2 (by decide +kernel) hlease ?_
  rintro ⟨hpos, -⟩
  rw [resolveTTL, if_pos rfl, httl] at hpos
  exact absurd hpos (by decide)

/-- Create a pool with a rate of 5000 a second and a burst of one, and take it. -/
def wedgedStart : List BudOp :=
  [.init { mode := modeStrict, capacity := 100, rate := 5000, burst := 1 }, grantAt 1 1 1]

/-- The pool has 99 free and its cap is not spent, and yet no request at any later time is
given a token. -/
theorem bucket_wedged :
    (∀ op ∈ wedgedStart, op.Stamped) ∧
      ∃ b, (Ledger.run wedgedStart {}).book = some b ∧ b.pool.rate = 5000 ∧ b.pool.burst = 1 ∧
        b.pool.available = 99 ∧ b.pool.spent = 0 ∧ b.pool.cap = 100 ∧
        ∀ a : GrantArgs, Stamp a.grantedMs →
          (accrueTokens b.pool a.grantedMs).tokens.toInt = 0 ∧
            ((Ledger.run wedgedStart {}).grant a).1 = Ledger.run wedgedStart {} := by
  have hops : ∀ op ∈ wedgedStart, op.Stamped := by
    intro op hop
    simp only [wedgedStart, grantAt, List.mem_cons, List.not_mem_nil, or_false] at hop
    rcases hop with rfl | rfl
    · trivial
    · exact ⟨by decide, by decide⟩
  have hpool : (Ledger.run wedgedStart {}).book.map (fun b => ((b.pool.cap, b.pool.rate,
      b.pool.burst), (b.pool.available, b.pool.spent, b.pool.tokens)))
      = some ((100, 5000, 1), (99, 0, 0)) := by decide +kernel
  obtain ⟨b, hb, hfields⟩ := Option.map_eq_some_iff.mp hpool
  simp only [Prod.mk.injEq] at hfields
  obtain ⟨⟨hcap, hrate, hburst⟩, havail, hspent, htokens⟩ := hfields
  have hp : Paced b.pool := run_paced hops hb (by rw [hrate]; decide)
  refine ⟨hops, b, hb, hrate, hburst, havail, hspent, hcap, fun a ht => ?_⟩
  have haccrued := accrued_wedged hp ht (by rw [hrate, hburst]; decide)
  have hspec := (accrueTokens_spec hp ht).1
  have hzero : (accrueTokens b.pool a.grantedMs).tokens.toInt = 0 := by
    have hle : (accrueTokens b.pool a.grantedMs).tokens.toInt ≤
        (b.pool.tokens + accrued b.pool a.grantedMs).toInt := by
      rw [(accrued_exact hp ht).2.2.2, haccrued, htokens, accrueTokens_eq hp]
      show (if _ < (0 : Int64) then (0 : Int64) else _).toInt ≤ _
      split
      · decide
      · rw [toInt_min64, (accrued_exact hp ht).2.2.2, haccrued, htokens]
        exact min_le_right _ _
    rw [(accrued_exact hp ht).2.2.2, haccrued, htokens, Int64.toInt_zero] at hle
    exact le_antisymm hle hspec.tokens.1
  refine ⟨hzero, ?_⟩
  rcases (Ledger.run wedgedStart {}).grant_cases a with heq | ⟨b₀, hb₀, -, -, hg, -⟩
  · exact heq
  · rw [hb] at hb₀
    cases hb₀
    have hle := grantable_le_tokens hspec a.amount
    rw [Int64.le_iff_toInt_le, Int64.toInt_zero] at hg
    omega

/-! ## A retry repeats the grant -/

namespace Ledger

/-- A lease is outstanding, not settled, and a retry of its grant is answered with `r`. -/
def Echoes (r : GrantResult) (id : Bytes) (L : Ledger) : Prop :=
  L.tombs[id]? = none ∧ ∃ b l, L.lease? id = some (b, l) ∧ echoGrant l (some b.pool) = r

variable {L : Ledger} {a : GrantArgs} {b b' : Book} {l : LeaseRec} {r : GrantResult} {id : Bytes}

/-- The parts of the pool an answer shows are part of its configuration. -/
theorem accrueTokens_timing (p : PoolRec) (t : Int64) :
    (accrueTokens p t).selfGuardMs = p.selfGuardMs ∧ (accrueTokens p t).maxPauseMs =
      p.maxPauseMs := by
  unfold accrueTokens
  split <;> exact ⟨rfl, rfl⟩

theorem foldFinal_timing (final : Option Int64) (l : LeaseRec) (p : PoolRec) :
    (foldFinal final l p).2.selfGuardMs = p.selfGuardMs ∧
      (foldFinal final l p).2.maxPauseMs = p.maxPauseMs := by
  cases final with
  | none => exact ⟨rfl, rfl⟩
  | some n =>
    unfold foldFinal
    dsimp only
    split <;> exact ⟨rfl, rfl⟩

theorem echoGrant_congr {p p' : PoolRec} (l : LeaseRec) (hguard : p'.selfGuardMs = p.selfGuardMs)
    (hpause : p'.maxPauseMs = p.maxPauseMs) : echoGrant l (some p') = echoGrant l (some p) := by
  simp only [echoGrant, Option.map_some, hguard, hpause]

/-- An answer is kept with the lease, the pool's configuration and the open tombstone. -/
theorem Echoes.of_lease {L' : Ledger} (hr : echoGrant l (some b.pool) = r)
    (hb' : L'.book = some b') (hl' : b'.leases[id]? = some l)
    (hguard : b'.pool.selfGuardMs = b.pool.selfGuardMs)
    (hpause : b'.pool.maxPauseMs = b.pool.maxPauseMs) (ht : L'.tombs[id]? = none) :
    Echoes r id L' := by
  refine ⟨ht, b', l, ?_, (echoGrant_congr l hguard hpause).trans hr⟩
  rw [lease?_of_book hb', hl']
  rfl

/-- A return that leaves its lease outstanding did nothing. -/
theorem giveBack_kept {a : ReturnArgs} (h : ((L.giveBack a).1.lease? a.leaseID).isSome) :
    (L.giveBack a).1 = L := by
  rcases L.giveBack_cases a with heq | ⟨b, l, -, -, hbook⟩
  · exact heq
  · rw [lease?_of_book hbook, Std.ExtTreeMap.getElem?_erase_self] at h
    cases h

/-- A lease that an expiry leaves outstanding leaves all as it was. -/
theorem expire_kept {a : LeaseArgs} (hl : L.lease? a.leaseID = some (b, l))
    (h : ((L.expire a).1.lease? a.leaseID).isSome) : (L.expire a).1 = L := by
  rw [expire, hl] at h ⊢
  split
  · rfl
  · rename_i ht
    simp only [ht] at h ⊢
    split
    · rfl
    · rename_i hdue
      rw [if_neg hdue, lease?_of_book rfl, Std.ExtTreeMap.getElem?_erase_self] at h
      cases h

/-- Settling one lease writes no tombstone for another. -/
theorem giveBack_tombs_other {a : ReturnArgs} (hne : a.leaseID ≠ id) :
    (L.giveBack a).1.tombs[id]? = L.tombs[id]? := by
  unfold giveBack
  split
  · rfl
  split
  · rfl
  split
  · rfl
  dsimp only
  split
  · exact getElem?_insert_of_ne hne
  · rfl

theorem expire_tombs_other {a : LeaseArgs} (hne : a.leaseID ≠ id) :
    (L.expire a).1.tombs[id]? = L.tombs[id]? := by
  unfold expire
  split
  · rfl
  split
  · exact getElem?_insert_of_ne hne
  split
  · rfl
  · exact getElem?_insert_of_ne hne

/-- A command that leaves a lease outstanding leaves the answer to its retry. -/
theorem apply_echoes {op : BudOp} (h : Echoes r id L)
    (hkept : ((L.apply op).1.lease? id).isSome) : Echoes r id (L.apply op).1 := by
  have hstay := h
  obtain ⟨ht, b, l, hlease, hr⟩ := h
  obtain ⟨hb, hl⟩ := lease?_some hlease
  cases op with
  | init a =>
    show Echoes r id (L.init a).1
    rcases L.init_cases a with heq | ⟨hnone, -⟩
    · rwa [heq]
    · rw [hb] at hnone
      cases hnone
  | grant a =>
    show Echoes r id (L.grant a).1
    rcases L.grant_cases a with heq | ⟨b₀, hb₀, -, hnone, -, heq⟩
    · rwa [heq]
    · rw [hb] at hb₀
      cases hb₀
      have hne : a.leaseID ≠ id := fun hid => by rw [hid, hl] at hnone; cases hnone
      obtain ⟨hguard, hpause⟩ := accrueTokens_timing b.pool a.grantedMs
      rw [heq]
      exact .of_lease hr rfl ((getElem?_insert_of_ne hne).trans hl) hguard hpause ht
  | report a =>
    show Echoes r id (L.report a).1
    rcases L.report_cases a with heq | ⟨b₀, l₀, hlease₀, -, heq⟩
    · rwa [heq]
    · obtain ⟨hb₀, hl₀⟩ := lease?_some hlease₀
      rw [hb] at hb₀
      cases hb₀
      rw [heq]
      by_cases hid : a.leaseID = id
      · -- a report of the lease itself raises its spend, which an answer does not show
        rw [hid, hl] at hl₀
        cases hl₀
        have hr' : echoGrant { l with spent := if a.num > l.amount then l.amount else a.num }
            (some b.pool) = r := hr
        rw [hid]
        exact .of_lease hr' rfl Std.ExtTreeMap.getElem?_insert_self rfl rfl ht
      · exact .of_lease hr rfl ((getElem?_insert_of_ne hid).trans hl) rfl rfl ht
  | giveBack a =>
    change ((L.giveBack a).1.lease? id).isSome at hkept
    show Echoes r id (L.giveBack a).1
    by_cases hid : a.leaseID = id
    · subst hid
      rwa [giveBack_kept hkept]
    rcases L.giveBack_cases a with heq | ⟨b₀, l₀, -, hlease₀, hbook⟩
    · rwa [heq]
    · rw [(lease?_some hlease₀).1] at hb
      cases hb
      obtain ⟨hguard, hpause⟩ := foldFinal_timing a.final l₀ b.pool
      exact .of_lease hr hbook ((getElem?_erase_of_ne hid).trans hl) hguard hpause
        ((giveBack_tombs_other hid).trans ht)
  | expire a =>
    change ((L.expire a).1.lease? id).isSome at hkept
    show Echoes r id (L.expire a).1
    by_cases hid : a.leaseID = id
    · subst hid
      rwa [expire_kept hlease hkept]
    rcases L.expire_cases a with heq | ⟨b₀, l₀, -, hlease₀, -, hbook⟩
    · exact .of_lease hr (heq.trans hb) hl rfl rfl ((expire_tombs_other hid).trans ht)
    · rw [(lease?_some hlease₀).1] at hb
      cases hb
      exact .of_lease hr hbook ((getElem?_erase_of_ne hid).trans hl) rfl rfl
        ((expire_tombs_other hid).trans ht)
  | tombGC a =>
    refine ⟨?_, b, l, hlease, hr⟩
    show (L.tombs.erase a.leaseID)[id]? = none
    rw [Std.ExtTreeMap.getElem?_erase]
    split
    · rfl
    · exact ht
  | reconcile n =>
    show Echoes r id (L.reconcile n).1
    rw [reconcile, hb]
    exact .of_lease hr rfl hl rfl rfl ht

/-- The lease of an id is outstanding after each command of a run. -/
def Outstanding (id : Bytes) : List BudOp → Ledger → Prop
  | [], _ => True
  | op :: ops, L => ((L.apply op).1.lease? id).isSome ∧ Outstanding id ops (L.apply op).1

/-- A lease that stays outstanding echoes the same answer. -/
theorem run_echoes {ops : List BudOp} (h : Echoes r id L) (hkept : Outstanding id ops L) :
    Echoes r id (run ops L) := by
  induction ops generalizing L with
  | nil => exact h
  | cons op ops ih => exact ih (apply_echoes h hkept.1) hkept.2

end Ledger

/-- The TTLs a lease row keeps: none, or a positive one with a positive expiry. -/
def KeptTTL (grantedMs ttl : Int64) : Prop := ttl = 0 ∨ 0 < ttl ∧ 0 < grantedMs + ttl

theorem newLease_times (p : PoolRec) (holder : Bytes) (g t ttl : Int64) :
    (newLease p holder g t ttl).grantedMs = t ∧
      (newLease p holder g t ttl).expiresMs = if ttl > 0 then t + ttl else 0 := by
  unfold newLease
  split <;> exact ⟨rfl, rfl⟩

/-- The TTL a retry is told is the one of the grant exactly when the row keeps it. -/
theorem echo_ttl (p q : PoolRec) (holder : Bytes) (g t ttl : Int64) :
    (echoGrant (newLease p holder g t ttl) (some q)).ttlMs = ttl ↔ KeptTTL t ttl := by
  obtain ⟨ht, hexp⟩ := newLease_times p holder g t ttl
  show (if (newLease p holder g t ttl).expiresMs > 0 then (newLease p holder g t ttl).expiresMs -
    (newLease p holder g t ttl).grantedMs else 0) = ttl ↔ _
  rw [ht, hexp]
  by_cases hpos : 0 < ttl
  · have hne : ttl ≠ 0 := fun h => by rw [h] at hpos; exact absurd hpos (by decide)
    rw [if_pos hpos]
    by_cases hsum : 0 < t + ttl
    · rw [if_pos hsum]
      exact ⟨fun _ => .inr ⟨hpos, hsum⟩, fun _ => by rw [Int64.add_comm, Int64.add_sub_cancel]⟩
    · rw [if_neg hsum]
      exact ⟨fun h => absurd h.symm hne, fun h => absurd (h.resolve_left hne).2 hsum⟩
  · rw [if_neg hpos, if_neg (by decide)]
    exact ⟨fun h => .inl h.symm, fun h => (h.resolve_right fun h' => hpos h'.1).symm⟩

theorem encodeGrantResult_inj {r r' : GrantResult}
    (h : encodeGrantResult r = encodeGrantResult r') : r.ttlMs = r'.ttlMs := by
  have hget : ∀ r : GrantResult, getI64 ((encodeGrantResult r).drop 16) = r.ttlMs := by
    intro r
    simp [encodeGrantResult, drop_putI64_append, getI64_putI64]
  rw [← hget r, h, hget r']

section
variable {s : UInt64} {c c' : Command} {a a' : GrantArgs} {L : Ledger} {u u' v : UpdateCtx}

/-- A retry writes nothing and returns the answer. -/
theorem applyBudGrant_echo {r : GrantResult} (ha : grantArgs c = some a)
    (h : Represents s c.ns c.coll L u) (hamount : ¬ a.amount < 0)
    (hr : Ledger.Echoes r a.leaseID L) :
    applyBudGrant s c u = .ok { value := r.granted.toUInt64, data := encodeGrantResult r } u := by
  obtain ⟨ht, b, l, hl, rfl⟩ := hr
  have hb := (lease?_some hl).1
  have hends : Ends (fun x w => x = { value := l.amount.toUInt64
                                      data := encodeGrantResult (echoGrant l (some b.pool)) } ∧
      w = u) (fun _ _ => False) (applyBudGrant s c u) := by
    unfold applyBudGrant
    simp only [ha]
    rw [if_neg hamount, ends_bind, ends_tryReads_ok (h.getTomb a.leaseID), ht, ends_bind,
      ends_tryReads_ok (h.getLease a.leaseID), hl, Option.map_some, ends_bind,
      ends_tryReads_ok h.getPool, hb]
    exact ⟨rfl, rfl⟩
  obtain ⟨x, w, hres, rfl, rfl⟩ := hends.returns
  exact hres

/-- A retry repeats its grant. Take a grant that made a lease, in any batch and on any ledger,
and any run of commands through which the lease stays outstanding. A retry under the same lease
id, with any other arguments but a negative amount, changes nothing, and its result is that of
the grant exactly when the lease row keeps the grant's TTL. -/
theorem grant_replay {ops : List BudOp} {r : ProposeResult} (ha : grantArgs c = some a)
    (hu : Represents s c.ns c.coll L u) (hgrant : applyBudGrant s c u = .ok r u')
    (hnew : L.lease? a.leaseID = none) (hlease : ((L.grant a).1.lease? a.leaseID).isSome)
    (hkept : Ledger.Outstanding a.leaseID ops (L.grant a).1)
    (hv : Represents s c.ns c.coll (Ledger.run ops (L.grant a).1) v)
    (hns : c'.ns = c.ns) (hcoll : c'.coll = c.coll) (ha' : grantArgs c' = some a')
    (hid : a'.leaseID = a.leaseID) (hamount : 0 ≤ a'.amount.toInt) :
    ∃ b r', L.book = some b ∧ applyBudGrant s c' v = .ok r' v ∧
      (r' = r ↔ KeptTTL a.grantedMs (resolveTTL b.pool a.ttlOverride)) := by
  obtain ⟨b, hgrantable⟩ := Ledger.grantable_of_lease hnew hlease
  have heq := hgrantable.grant
  rw [← hns, ← hcoll] at hv
  have hr : r = (L.grant a).2 := by
    have href := applyBudGrant_refines ha hu
    rw [hgrant] at href
    exact href.1
  rw [Ledger.allottedResult] at heq
  generalize hp : accrueTokens b.pool a.grantedMs = p at heq
  generalize hg : grantable p a.amount = g at heq
  have hechoes : Ledger.Echoes (echoGrant (newLease p a.holder g a.grantedMs
      (resolveTTL b.pool a.ttlOverride)) (some (takeGrant p g))) a.leaseID (L.grant a).1 := by
    rw [heq]
    refine ⟨hgrantable.tomb, Ledger.allotted a b, _, Ledger.lease?_allotted .., ?_⟩
    rw [Ledger.allotted, hp, hg]
  have hneg : ¬ a'.amount < 0 := by
    rw [Int64.lt_iff_toInt_lt, Int64.toInt_zero]
    omega
  refine ⟨b, _, hgrantable.book, applyBudGrant_echo ha' hv hneg
    (hid.symm ▸ Ledger.run_echoes hechoes hkept), ?_⟩
  have hecho := echo_ttl p (takeGrant p g) a.holder g a.grantedMs (resolveTTL b.pool a.ttlOverride)
  rw [hr, heq, ← hecho, ProposeResult.mk.injEq]
  have hamt : (echoGrant (newLease p a.holder g a.grantedMs (resolveTTL b.pool a.ttlOverride))
      (some (takeGrant p g))).granted = g := newLease_amount ..
  constructor
  · exact fun h => encodeGrantResult_inj h.2
  · intro httl
    refine ⟨by rw [hamt], congrArg encodeGrantResult ?_⟩
    rw [GrantResult.mk.injEq]
    exact ⟨hamt, (newLease_times ..).1, httl, rfl, rfl⟩

end

def onSeven (op : OpKind) (val : Chunk) : Command :=
  { op, ns := Chunk.byte 1, coll := Chunk.byte 2, items := [{ key := Chunk.byte 7, val }] }

def draw (amount t ttl : Int64) : Command := onSeven .budGrant
  ⟨putI64 amount ++ (putI64 t ++ putI64 ttl), by simp [length_putI64]⟩

def reportTen : Command := onSeven .budReport ⟨putI64 10, by simp [length_putI64]⟩

def hundredPool : PoolRec :=
  newPool { mode := modeStrict, capacity := 100, rate := 0, burst := 0, selfGuardMs := 1000 }

def hundred : Ledger := { book := some { pool := hundredPool } }

def sixtyForAMinute : GrantArgs :=
  { leaseID := [7], amount := 60, grantedMs := 5, ttlOverride := 60000, holder := [] }

theorem draw_sixty : grantArgs (draw 60 5 60000) = some sixtyForAMinute := by decide +kernel

theorem hundred_represents : ∃ u,
    Represents 1 (draw 60 5 60000).ns (draw 60 5 60000).coll hundred u :=
  ⟨_, Represents.empty.openPool rfl _⟩

/-- A report later, a retry for one, at another time and with no TTL, is answered with the sixty
and the minute. -/
theorem grant_replay_minute :
    ∃ u u' v r, applyBudGrant 1 (draw 60 5 60000) u = .ok r u' ∧ r.value = 60 ∧
      (∃ x, applyBudReport 1 reportTen u' = .ok x v) ∧
      applyBudGrant 1 (draw 1 9 0) v = .ok r v := by
  obtain ⟨u, hu⟩ := hundred_represents
  obtain ⟨r, u', hg, hr, hu'⟩ := (applyBudGrant_refines draw_sixty hu).returns
  have hc : leaseArgs reportTen = some { leaseID := [7], num := 10, holder := [] } := by
    decide +kernel
  obtain ⟨x, v, hrep, -, hv⟩ := (applyBudReport_refines hc hu').returns
  have hkept : Ledger.Outstanding [7]
      [.report { leaseID := [7], num := 10, holder := [] }] (hundred.grant sixtyForAMinute).1 :=
    ⟨by decide +kernel, trivial⟩
  have ha' : grantArgs (draw 1 9 0) = some
      { leaseID := [7], amount := 1, grantedMs := 9, ttlOverride := 0, holder := [] } := by
    decide +kernel
  have hns : (draw 1 9 0).ns = (draw 60 5 60000).ns := rfl
  obtain ⟨b, r', hb, hretry, hiff⟩ := grant_replay draw_sixty hu hg (by decide +kernel)
    (by decide +kernel) hkept hv hns rfl ha' rfl (by decide)
  have httl : resolveTTL b.pool sixtyForAMinute.ttlOverride = 60000 := if_neg (by decide)
  have hsame : r' = r := hiff.mpr (by rw [httl]; exact .inr ⟨by decide, by decide⟩)
  refine ⟨u, u', v, r, hg, by rw [hr]; decide +kernel, ⟨x, hrep⟩, ?_⟩
  rw [← hsame]
  exact hretry

/-- A negative TTL makes a lease without one. The grant is answered with the TTL it asked for,
its retry with none. -/
theorem retry_forgets_ttl :
    (update FloatOps.absent 1 ∅ [{ index := 1, cmd := initHundred },
        { index := 2, cmd := encodeCommand (draw 60 5 (-1)) },
        { index := 3, cmd := encodeCommand (draw 60 5 (-1)) }]).map
      (fun p => p.2.map ProposeResult.data) = .ok [[],
        encodeGrantResult { granted := 60, grantedMs := 5, ttlMs := -1, selfGuardMs := 1000 },
        encodeGrantResult { granted := 60, grantedMs := 5, ttlMs := 0, selfGuardMs := 1000 }] := by
  decide +kernel

/-! ## When a lease is due -/

/-- A key after its space, time first, lies below a bound by its time. -/
theorem compare_u64_bound {t n : UInt64} (rest : Bytes) :
    compare (u64 t ++ rest) (u64 n) = .lt ↔ t.toNat < n.toNat := by
  rw [← List.append_nil (u64 n)]
  constructor
  · intro h
    by_contra hle
    rcases Nat.lt_or_eq_of_le (not_lt.mp hle) with hlt | heq
    · have := Std.OrientedCmp.gt_iff_lt.mpr (compare_u64_append hlt [] rest)
      rw [this] at h
      cases h
    · rw [UInt64.toNat_inj.mp heq, compare_append_left] at h
      exact compare_nil_ne_lt _ h
  · exact fun h => compare_u64_append h rest []

/-- The bound of a due scan. -/
theorem toNat_scanBound {now : Int64} (h : 0 ≤ now.toInt) :
    ((now.toUInt64 + 1).toNat : Int) = now.toInt + 1 := by
  have hlt := now.toInt_lt
  have hnow := toNat_toUInt64 h
  have hone : (1 : UInt64).toNat = 1 := rfl
  rw [UInt64.toNat_add, hone]
  omega

section
variable {st : Store} {space : Bytes} {now : Int64} {d : Due}

/-- What a scan of due entries meets. -/
theorem mem_scanDue : d ∈ scanDue st space now 0 ↔ ∃ suffix v, st[space ++ suffix]? = some v ∧
    compare suffix (u64 (now.toUInt64 + 1)) = .lt ∧ dueOf suffix = some d := by
  have hrange := fun k => inRange_append space [] k (some (u64 (now.toUInt64 + 1)))
  simp only [List.append_nil] at hrange
  have hstart : ∀ u : Bytes, inRange [] (some (u64 (now.toUInt64 + 1))) u = true ↔
      compare u (u64 (now.toUInt64 + 1)) = .lt := by
    intro u
    have hge : (compare u ([] : Bytes)).isGE = true := isGE_append [] u
    rw [inRange, hge, Bool.true_and]
    exact Ordering.isLT_iff_eq_lt
  unfold scanDue scan
  simp only [lt_irrefl, if_false, List.mem_filterMap, List.mem_filter,
    Std.ExtTreeMap.mem_toList_iff_getElem?_eq_some, hrange, Prod.exists]
  constructor
  · rintro ⟨k, v, ⟨hrow, u, rfl, hin⟩, hdue⟩
    rw [List.drop_left] at hdue
    exact ⟨u, v, hrow, (hstart u).mp hin, hdue⟩
  · rintro ⟨u, v, hrow, hlt, hdue⟩
    refine ⟨_, v, ⟨hrow, u, rfl, (hstart u).mpr hlt⟩, ?_⟩
    rw [List.drop_left]
    exact hdue

/-- A due scan with a limit returns some of what it returns without one. -/
theorem scanDue_subset {limit : Int} (h : d ∈ scanDue st space now limit) :
    d ∈ scanDue st space now 0 := by
  unfold scanDue scan at h ⊢
  rw [List.mem_filterMap] at h ⊢
  obtain ⟨r, hr, hd⟩ := h
  refine ⟨r, ?_, hd⟩
  dsimp only at hr ⊢
  rw [if_neg (lt_irrefl _)]
  split at hr
  · exact List.mem_of_mem_take hr
  · exact hr

theorem dueOf_inScope {ns coll : Chunk} {t : UInt64} {id : Bytes}
    (h : (inScope ns coll id).length < 2 ^ 32) :
    dueOf (u64 t ++ inScope ns coll id) =
      some { ns := ns.val, coll := coll.val, member := id, due := t } := by
  obtain ⟨r, hns, hcoll⟩ := takeChunk_inScope h
  have hlen : ¬ (u64 t ++ inScope ns coll id).length < 8 := by simp
  rw [dueOf, if_neg hlen, drop_u64_append]
  simp only [hns, hcoll, getU64_u64_append]

/-- No due scan returns a row before its time. -/
theorem scanDue_due {limit : Int} (hnow : 0 ≤ now.toInt) (h : d ∈ scanDue st space now limit) :
    (d.due.toNat : Int) ≤ now.toInt := by
  obtain ⟨suffix, v, -, hlt, hdue⟩ := mem_scanDue.mp (scanDue_subset h)
  unfold dueOf at hdue
  split at hdue
  · cases hdue
  rename_i hlen
  have hsplit : suffix = u64 (getU64 suffix) ++ suffix.drop 8 := by
    have htake : u64 (getU64 (suffix.take 8)) = suffix.take 8 := u64_getU64 (by simp; omega)
    have hget : getU64 (suffix.take 8) = getU64 suffix := by simp [getU64, List.take_take]
    rw [← hget, htake, List.take_append_drop]
  have hbound := toNat_scanBound hnow
  have hdueEq : d.due = getU64 suffix := by
    split at hdue
    · cases hdue
    split at hdue
    · cases hdue
    cases hdue
    rfl
  rw [hsplit, compare_u64_bound] at hlt
  rw [hdueEq]
  omega

/-- A row of a due index is returned from its time on. -/
theorem mem_scanDue_row {s : UInt64} {ns coll : Chunk} {t : Int64} {id v : Bytes}
    (hnow : 0 ≤ now.toInt) (ht : 0 ≤ t.toInt) (hkey : (inScope ns coll id).length < 2 ^ 32)
    (hrow : st[budExpKey s t ns.val coll.val id]? = some v) :
    { ns := ns.val, coll := coll.val, member := id, due := t.toUInt64 }
        ∈ scanDue st (budExpSpace s) now 0 ↔ t.toInt ≤ now.toInt := by
  have htime := toNat_toUInt64 ht
  have hbound := toNat_scanBound hnow
  constructor
  · intro h
    have := scanDue_due hnow h
    rw [htime] at this
    exact this
  · intro hle
    have hsplit : budExpKey s t ns.val coll.val id =
        budExpSpace s ++ (u64 t.toUInt64 ++ inScope ns coll id) := by
      simp [budExpKey, appendChunk, inScope]
    rw [hsplit] at hrow
    refine mem_scanDue.mpr ⟨_, v, hrow, ?_, dueOf_inScope hkey⟩
    rw [compare_u64_bound]
    omega

end

/-- When a deadline is right: its sum, and with the tombstone window too, stays inside int64, and
the pause allowance is not negative, unless the expiry has wrapped below every deadline. -/
structure DeadlineFits (p : PoolRec) (t ttl : Int64) : Prop where
  deadline : t.toInt + ttl.toInt + 1500 + p.maxPauseMs.toInt < 2 ^ 63
  pause : 0 ≤ p.maxPauseMs.toInt ∨ 2 ^ 63 ≤ t.toInt + ttl.toInt
  window : t.toInt + ttl.toInt + 1500 + p.maxPauseMs.toInt + p.dedupRetryWindowMs.toInt < 2 ^ 63

/-- The times of a lease are right exactly where the sums fit. -/
theorem newLease_deadline {p : PoolRec} {t ttl : Int64} (holder : Bytes) (g : Int64) (ht : Stamp t)
    (httl : 0 < ttl.toInt) :
    ((newLease p holder g t ttl).reclaimNotBeforeMs.toInt =
        t.toInt + ttl.toInt + 3 * maxClockSkewMs.toInt + p.maxPauseMs.toInt ∧
      (newLease p holder g t ttl).expiresMs.toInt + 3 * maxClockSkewMs.toInt ≤
        (newLease p holder g t ttl).reclaimNotBeforeMs.toInt ∧
      ((newLease p holder g t ttl).reclaimNotBeforeMs + p.dedupRetryWindowMs).toInt =
        (newLease p holder g t ttl).reclaimNotBeforeMs.toInt + p.dedupRetryWindowMs.toInt) ↔
    DeadlineFits p t ttl := by
  have hskew : maxClockSkewMs.toInt = 500 := by decide
  have hskew3 : (3 * maxClockSkewMs).toInt = 1500 := by decide
  unfold Stamp at ht
  have hmax := ttl.toInt_lt
  have hpauseLo := p.maxPauseMs.le_toInt
  have hpauseHi := p.maxPauseMs.toInt_lt
  have hwindowLo := p.dedupRetryWindowMs.le_toInt
  have hwindowHi := p.dedupRetryWindowMs.toInt_lt
  have hexpires : (t + ttl).toInt =
      if t.toInt + ttl.toInt < 2 ^ 63 then t.toInt + ttl.toInt else t.toInt +
        ttl.toInt - 2 ^ 64 := by
    rw [Int64.toInt_add]
    split
    · exact Int.bmod_eq_of_le (by omega) (by omega)
    · rw [← Int.sub_bmod_right]
      exact Int.bmod_eq_of_le (by omega) (by omega)
  have hreclaim : (t + ttl + 3 * maxClockSkewMs + p.maxPauseMs).toInt =
      if t.toInt + ttl.toInt + 1500 + p.maxPauseMs.toInt < 2 ^ 63 then
        t.toInt + ttl.toInt + 1500 + p.maxPauseMs.toInt
      else t.toInt + ttl.toInt + 1500 + p.maxPauseMs.toInt - 2 ^ 64 := by
    simp only [Int64.toInt_add, hskew3, Int.bmod_add_bmod]
    split
    · exact Int.bmod_eq_of_le (by omega) (by omega)
    · rw [← Int.sub_bmod_right]
      exact Int.bmod_eq_of_le (by omega) (by omega)
  have hgc : ∀ x : Int64, (x + p.dedupRetryWindowMs).toInt = x.toInt + p.dedupRetryWindowMs.toInt ↔
      -2 ^ 63 ≤ x.toInt + p.dedupRetryWindowMs.toInt ∧
        x.toInt + p.dedupRetryWindowMs.toInt < 2 ^ 63 := fun x =>
    ⟨fun h => by rw [← h]; exact ⟨Int64.le_toInt _, Int64.toInt_lt _⟩, fun h =>
      toInt_add_exact h.1 h.2⟩
  unfold newLease
  rw [if_pos (pos_iff_toInt.mpr httl)]
  dsimp only
  rw [hgc, hreclaim, hexpires, hskew]
  constructor
  · rintro ⟨hsum, hle, hwin⟩
    split at hsum <;> split at hle <;> constructor <;> omega
  · rintro ⟨hdeadline, hpause, hwindow⟩
    rw [if_pos hdeadline]
    split <;> omega

section
variable {s : UInt64} {c : Command} {a : GrantArgs} {b : Book} {L : Ledger} {u u' : UpdateCtx}

/-- A grant that passes every check writes pool, lease and, for a TTL, the expiry row. -/
theorem applyBudGrant_allots (ha : grantArgs c = some a) (h : Represents s c.ns c.coll L u)
    (hg : Ledger.Grantable a b L) :
    applyBudGrant s c u = .ok (Ledger.allottedResult a b)
      (writeGrant s c.ns.val c.coll.val a.leaseID (Ledger.allotted a b).pool
        (newLease (accrueTokens b.pool a.grantedMs) a.holder
          (grantable (accrueTokens b.pool a.grantedMs) a.amount) a.grantedMs
          (resolveTTL b.pool a.ttlOverride)) (resolveTTL b.pool a.ttlOverride) u) := by
  have hl : L.lease? a.leaseID = none := by rw [lease?_of_book hg.book, hg.lease]; rfl
  have hends : Ends (fun x w => x = Ledger.allottedResult a b ∧
      w = writeGrant s c.ns.val c.coll.val a.leaseID (Ledger.allotted a b).pool
        (newLease (accrueTokens b.pool a.grantedMs) a.holder
          (grantable (accrueTokens b.pool a.grantedMs) a.amount) a.grantedMs
          (resolveTTL b.pool a.ttlOverride)) (resolveTTL b.pool a.ttlOverride) u)
      (fun _ _ => False) (applyBudGrant s c u) := by
    unfold applyBudGrant
    simp only [ha]
    rw [if_neg hg.amount, ends_bind, ends_tryReads_ok (h.getTomb a.leaseID), hg.tomb, ends_bind,
      ends_tryReads_ok (h.getLease a.leaseID), hl, Option.map_none, ends_bind,
      ends_tryReads_ok h.getPool, hg.book, Option.map_some]
    simp only [if_neg hg.guard, if_neg hg.positive]
    exact ⟨rfl, rfl⟩
  obtain ⟨x, w, hres, rfl, rfl⟩ := hends.returns
  exact hres

/-- A grant leaves its expiry entry. -/
theorem rows_writeGrant {ns coll : Chunk} {id : Bytes} {p : PoolRec} {l : LeaseRec} {ttl : Int64}
    (httl : ttl > 0) :
    (writeGrant s ns.val coll.val id p l ttl u).rows[
      budExpKey s l.reclaimNotBeforeMs ns.val coll.val id]? = some [] := by
  have hne : budLeaseKey s ns.val coll.val id ≠
      budExpKey s l.reclaimNotBeforeMs ns.val coll.val id := by
    rw [budLeaseKey_eq, budExpKey_eq, ne_eq, RowKey.enc_inj]
    nofun
  unfold writeGrant
  simp only [if_pos httl]
  rw [setLease, UpdateCtx.setRec, rows_emit, batchRC, runOps, List.foldl_cons, List.foldl_nil,
    getElem?_runOp_put, if_neg hne]
  show ((setPool s ns.val coll.val p u).emit _).rows[_]? = _
  rw [rows_emit, batchRC, runOps, List.foldl_cons, List.foldl_nil, getElem?_runOp_put, if_pos rfl]

/-- The deadline of a lease. Take any grant with a TTL that writes a lease. The lease's deadline is
the exact sum, at least three clock skews after its expiry, and does not wrap with the tombstone
window added, if and only if `DeadlineFits`; then the grant has written the lease's expiry row, a
scan of a store with this row returns the lease at a time that is not negative exactly from its
deadline on, and no scan returns any row before its time. -/
theorem reclaim_deadline {r : ProposeResult} (ha : grantArgs c = some a)
    (hu : Represents s c.ns c.coll L u) (hgrant : applyBudGrant s c u = .ok r u')
    (hb : L.book = some b) (hnew : L.lease? a.leaseID = none)
    (hlease : ((L.grant a).1.lease? a.leaseID).isSome)
    (httl : 0 < (resolveTTL b.pool a.ttlOverride).toInt) (ht : Stamp a.grantedMs)
    (hkey : (inScope c.ns c.coll a.leaseID).length < 2 ^ 32) :
    (∃ b' l, (L.grant a).1.lease? a.leaseID = some (b', l) ∧
      (l.reclaimNotBeforeMs.toInt = a.grantedMs.toInt + (resolveTTL b.pool a.ttlOverride).toInt +
          3 * maxClockSkewMs.toInt + b.pool.maxPauseMs.toInt ∧
        l.expiresMs.toInt + 3 * maxClockSkewMs.toInt ≤ l.reclaimNotBeforeMs.toInt ∧
        (l.reclaimNotBeforeMs + b.pool.dedupRetryWindowMs).toInt =
          l.reclaimNotBeforeMs.toInt + b.pool.dedupRetryWindowMs.toInt) ∧
      u'.rows[budExpKey s l.reclaimNotBeforeMs c.ns.val c.coll.val a.leaseID]? = some [] ∧
      ∀ (st : Store) (now : Int64), 0 ≤ now.toInt →
        (∀ limit, ∀ d ∈ scanDue st (budExpSpace s) now limit, (d.due.toNat : Int) ≤ now.toInt) ∧
        ∀ v, st[budExpKey s l.reclaimNotBeforeMs c.ns.val c.coll.val a.leaseID]? = some v →
          ({ ns := c.ns.val, coll := c.coll.val, member := a.leaseID,
             due := l.reclaimNotBeforeMs.toUInt64 } ∈ scanDue st (budExpSpace s) now 0 ↔
            l.reclaimNotBeforeMs.toInt ≤ now.toInt)) ↔
      DeadlineFits b.pool a.grantedMs (resolveTTL b.pool a.ttlOverride) := by
  obtain ⟨b₀, hgrantable⟩ := Ledger.grantable_of_lease hnew hlease
  have hb₀ := hgrantable.book
  rw [hb] at hb₀
  cases hb₀
  -- The lease is written from the pool after its accrual, which has the same timing.
  obtain ⟨-, hpauseEq⟩ := Ledger.accrueTokens_timing b.pool a.grantedMs
  have hwindowEq : (accrueTokens b.pool a.grantedMs).dedupRetryWindowMs =
      b.pool.dedupRetryWindowMs := by
    unfold accrueTokens
    split <;> rfl
  have hfits : DeadlineFits (accrueTokens b.pool a.grantedMs) a.grantedMs
      (resolveTTL b.pool a.ttlOverride) ↔
        DeadlineFits b.pool a.grantedMs (resolveTTL b.pool a.ttlOverride) := by
    constructor <;> rintro ⟨hd, hp, hw⟩ <;> constructor <;> simp_all
  have htimes := newLease_deadline (p := accrueTokens b.pool a.grantedMs) a.holder
    (grantable (accrueTokens b.pool a.grantedMs) a.amount) ht httl
  rw [hpauseEq, hwindowEq, hfits] at htimes
  have hpos : resolveTTL b.pool a.ttlOverride > 0 := pos_iff_toInt.mpr httl
  rw [applyBudGrant_allots ha hu hgrantable] at hgrant
  cases hgrant
  have hwritten : (L.grant a).1.lease? a.leaseID = some (Ledger.allotted a b,
      newLease (accrueTokens b.pool a.grantedMs) a.holder
        (grantable (accrueTokens b.pool a.grantedMs) a.amount) a.grantedMs
        (resolveTTL b.pool a.ttlOverride)) := by
    rw [hgrantable.grant]
    exact Ledger.lease?_allotted ..
  rw [← htimes]
  constructor
  · rintro ⟨b', l, hl, htime, -⟩
    rw [hwritten] at hl
    cases hl
    exact htime
  · intro htime
    have hsum := htime.1
    have hdue := htimes.mp htime
    unfold Stamp at ht
    have hskew : maxClockSkewMs.toInt = 500 := by decide
    have hlow := b.pool.maxPauseMs.le_toInt
    refine ⟨_, _, hwritten, htime, rows_writeGrant hpos, fun st now hnow => ⟨?_, ?_⟩⟩
    · exact fun limit d hd => scanDue_due hnow hd
    · intro v hrow
      have hp := hdue.pause
      exact mem_scanDue_row hnow (by omega) hkey hrow

end

/-- The sixty for a minute are due 61,500 ms after their stamp, and not a millisecond earlier. -/
theorem reclaim_deadline_minute :
    ∃ u u' r, ∃ l : LeaseRec, applyBudGrant 1 (draw 60 5 60000) u = .ok r u' ∧
      l.reclaimNotBeforeMs.toInt = 61505 ∧
      { ns := [1], coll := [2], member := [7], due := l.reclaimNotBeforeMs.toUInt64 }
        ∈ scanDue u'.rows (budExpSpace 1) 61505 0 ∧
      { ns := [1], coll := [2], member := [7], due := l.reclaimNotBeforeMs.toUInt64 }
        ∉ scanDue u'.rows (budExpSpace 1) 61504 0 := by
  obtain ⟨u, hu⟩ := hundred_represents
  obtain ⟨r, u', hg, -, -⟩ := (applyBudGrant_refines draw_sixty hu).returns
  have hfits : DeadlineFits hundredPool 5 60000 := ⟨by decide, .inl (by decide), by decide⟩
  obtain ⟨b', l, -, ⟨hreclaim, -, -⟩, hrow, hscan⟩ := (reclaim_deadline draw_sixty hu hg rfl
    (by decide +kernel) (by decide +kernel) (by decide) ⟨by decide, by decide⟩
      (by decide)).mpr hfits
  have hdue : l.reclaimNotBeforeMs.toInt = 61505 := hreclaim.trans (by decide)
  refine ⟨u, u', r, l, hg, hdue, ?_, ?_⟩
  · refine ((hscan u'.rows 61505 (by decide)).2 _ hrow).mpr ?_
    rw [hdue]
    decide
  · intro hmem
    have hle := ((hscan u'.rows 61504 (by decide)).2 _ hrow).mp hmem
    rw [hdue] at hle
    exact absurd hle (by decide)

/-- A TTL of all int64 can hold wraps the deadline. The row is written as a large unsigned number,
and no scan at any time returns the lease. -/
theorem deadline_never_due :
    (update FloatOps.absent 1 ∅ [{ index := 1, cmd := initHundred },
        { index := 2, cmd := encodeCommand (draw 60 5 9223372036854775807) }]).map
      (fun p => (p.1[budLeaseKey 1 [1] [2] [7]]?.map decodeLease,
        scanDue p.1 (budExpSpace 1) 9223372036854775807 0)) = .ok (some (.ok
        { amount := 60, epoch := 1, grantedMs := 5, reclaimNotBeforeMs := -9223372036854774304,
          expiresMs := -9223372036854775804 }), []) := by
  decide +kernel

end WaveSpan.Collections
