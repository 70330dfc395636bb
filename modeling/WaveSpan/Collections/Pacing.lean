/-
WaveSpan.Collections.Pacing — what a paced pool gives out over time.

A pool with a rate holds tokens. A grant first adds what has accrued since the last refill,
by the stamps of the leader, and then takes its amount off them; nothing else touches them,
and a refused grant is not written. So over any part of a run the grants and the tokens left
are at most the tokens before and what the rate gives over the time the refill stamp moved
(`run_drawn`), whatever the order of the stamps and whatever happens to the other buckets.

The pacing arithmetic is bounded by the burst and does not wrap. The room below the cap is
`cap - spent`, and spend can wrap: a reconcile may set it to the cap while a lease is out,
and a report then adds to it (`spend_wraps`). Without reconciles, or with a cap below 2^62,
the buckets stay inside int64 (`Within`).
-/
import WaveSpan.Collections.Reconcile
import Mathlib.Tactic.Ring

namespace WaveSpan.Collections

open WaveSpan.Wire WaveSpan.Rows WaveSpan.Prog WaveSpan.Escrow

/-! ## The arithmetic of an accrual -/

theorem toInt_min64 (a b : Int64) : (min64 a b).toInt = min a.toInt b.toInt := by
  unfold min64
  split
  · rename_i h
    rw [Int64.lt_iff_toInt_lt] at h
    omega
  · rename_i h
    rw [Int64.lt_iff_toInt_lt] at h
    omega

/-- The stamp an accrual counts from: the first one counts from itself. -/
def refillFrom (p : PoolRec) (t : Int64) : Int64 := if p.lastRefillMs = 0 then t else p.lastRefillMs

def elapsedMs (p : PoolRec) (t : Int64) : Int64 :=
  clampI64 (t - refillFrom p t) 0 (pacingMaxElapsedMs p.rate p.burst)

def accrued (p : PoolRec) (t : Int64) : Int64 := p.rate * elapsedMs p t / 1000

/-- A pool with a rate, as it is between commands. -/
structure Paced (p : PoolRec) : Prop where
  rate : 0 < p.rate.toInt
  burst : 0 ≤ p.burst.toInt ∧ p.burst.toInt ≤ 2 ^ 50
  tokens : 0 ≤ p.tokens.toInt ∧ p.tokens.toInt ≤ p.burst.toInt
  stamp : 0 ≤ p.lastRefillMs.toInt ∧ p.lastRefillMs.toInt ≤ 2 ^ 62

def Stamp (t : Int64) : Prop := 1 ≤ t.toInt ∧ t.toInt ≤ 2 ^ 62

section
variable {p : PoolRec} {t : Int64}

/-- The clock a refill counts from. -/
theorem refillFrom_bounds (h : Paced p) (ht : Stamp t) :
    1 ≤ (refillFrom p t).toInt ∧ (refillFrom p t).toInt ≤ 2 ^ 62 := by
  unfold refillFrom
  split
  · exact ht
  · rename_i hne
    have hstamp := h.stamp
    have : p.lastRefillMs.toInt ≠ 0 := fun h0 =>
      hne (Int64.toInt_inj.mp (h0.trans Int64.toInt_zero.symm))
    omega

/-- The bound on the time of an accrual: its numerator fits, and with it the product of rate
and time does. -/
theorem maxElapsed_exact (h : Paced p) :
    (4 * p.burst).toInt = 4 * p.burst.toInt ∧
      (4 * p.burst * 1000).toInt = 4 * p.burst.toInt * 1000 ∧
      (pacingMaxElapsedMs p.rate p.burst).toInt = 4 * p.burst.toInt * 1000 / p.rate.toInt := by
  have hburst := h.burst
  have h4 : (4 : Int64).toInt = 4 := by decide
  have h1000 : (1000 : Int64).toInt = 1000 := by decide
  have hfour : (4 * p.burst).toInt = 4 * p.burst.toInt := by
    rw [toInt_mul_exact, h4] <;> rw [h4] <;> omega
  have hnum : (4 * p.burst * 1000).toInt = 4 * p.burst.toInt * 1000 := by
    rw [toInt_mul_exact, hfour, h1000] <;> rw [hfour, h1000] <;> omega
  refine ⟨hfour, hnum, ?_⟩
  have hrate : ¬ p.rate ≤ 0 := by
    rw [Int64.le_iff_toInt_le, Int64.toInt_zero]
    exact not_le.mpr h.rate
  rw [pacingMaxElapsedMs, if_neg hrate, toInt_div_exact (by omega), hnum]

/-- The time of an accrual: no more than the stamp moves, and so little that the rate times it
fits. -/
theorem elapsedMs_bounds (h : Paced p) (ht : Stamp t) :
    (t - refillFrom p t).toInt = t.toInt - (refillFrom p t).toInt ∧
      0 ≤ (elapsedMs p t).toInt ∧
      (elapsedMs p t).toInt ≤ max 0 (t.toInt - (refillFrom p t).toInt) ∧
      p.rate.toInt * (elapsedMs p t).toInt ≤ 4 * p.burst.toInt * 1000 := by
  obtain ⟨-, -, hmax⟩ := maxElapsed_exact h
  have hfrom := refillFrom_bounds h ht
  have hdiff : (t - refillFrom p t).toInt = t.toInt - (refillFrom p t).toInt := by
    unfold Stamp at ht
    exact toInt_sub_exact (by omega) (by omega)
  have hmaxNonneg : 0 ≤ (pacingMaxElapsedMs p.rate p.burst).toInt := by
    rw [hmax]
    exact Int.ediv_nonneg (by have := h.burst; omega) h.rate.le
  obtain ⟨hlo, hhi⟩ := @clampI64_between (t - refillFrom p t) 0 _ hmaxNonneg
  refine ⟨hdiff, hlo, ?_, ?_⟩
  · unfold elapsedMs clampI64
    split
    · exact le_max_left _ _
    · split
      · rename_i hgt
        rw [gt_iff_lt, Int64.lt_iff_toInt_lt, hdiff] at hgt
        exact le_max_of_le_right hgt.le
      · rw [hdiff]
        exact le_max_right _ _
  · calc p.rate.toInt * (elapsedMs p t).toInt
        ≤ p.rate.toInt * (4 * p.burst.toInt * 1000 / p.rate.toInt) :=
          Int.mul_le_mul_of_nonneg_left (hmax ▸ hhi) h.rate.le
      _ ≤ 4 * p.burst.toInt * 1000 := Int.mul_ediv_self_le h.rate.ne'

/-- The tokens that accrue, over the integers. -/
theorem accrued_exact (h : Paced p) (ht : Stamp t) :
    (p.rate * elapsedMs p t).toInt = p.rate.toInt * (elapsedMs p t).toInt ∧
      (accrued p t).toInt = p.rate.toInt * (elapsedMs p t).toInt / 1000 ∧
      0 ≤ (accrued p t).toInt ∧
      (p.tokens + accrued p t).toInt = p.tokens.toInt + (accrued p t).toInt := by
  obtain ⟨-, hnonneg, -, hprod⟩ := elapsedMs_bounds h ht
  have hburst := h.burst
  have htokens := h.tokens
  have hprodNonneg : 0 ≤ p.rate.toInt * (elapsedMs p t).toInt := Int.mul_nonneg h.rate.le hnonneg
  have hmul : (p.rate * elapsedMs p t).toInt = p.rate.toInt * (elapsedMs p t).toInt :=
    toInt_mul_exact (by omega) (by omega)
  have hdiv : (accrued p t).toInt = p.rate.toInt * (elapsedMs p t).toInt / 1000 := by
    rw [accrued, toInt_div_exact (by omega), hmul]
    rfl
  refine ⟨hmul, hdiv, by omega, toInt_add_exact (by omega) (by omega)⟩

/-- Tokens accrue by the elapsed time, up to the burst. -/
theorem accrueTokens_eq (h : Paced p) :
    accrueTokens p t =
      { p with
        tokens :=
          if min64 (min64 p.burst (p.cap - p.spent)) (p.tokens + accrued p t) < 0 then 0
          else min64 (min64 p.burst (p.cap - p.spent)) (p.tokens + accrued p t)
        lastRefillMs := if t > refillFrom p t then t else refillFrom p t } := by
  have hrate : p.rate > 0 := pos_iff_toInt.mpr h.rate
  rw [accrueTokens, if_pos hrate]
  rfl

/-- The tokens after an accrual: within the burst, and no more than were there and have
accrued over the time the stamp moved. -/
theorem accrueTokens_spec (h : Paced p) (ht : Stamp t) :
    Paced (accrueTokens p t) ∧ (accrueTokens p t).rate = p.rate ∧
      (accrueTokens p t).burst = p.burst ∧
      (accrueTokens p t).lastRefillMs.toInt = max t.toInt (refillFrom p t).toInt ∧
      (accrueTokens p t).tokens.toInt ≤ p.tokens.toInt +
        p.rate.toInt * ((accrueTokens p t).lastRefillMs.toInt - (refillFrom p t).toInt) / 1000 := by
  obtain ⟨-, hnonneg, hmoved, -⟩ := elapsedMs_bounds h ht
  obtain ⟨-, haccrued, hpos, hsum⟩ := accrued_exact h ht
  have hfrom := refillFrom_bounds h ht
  have htokens := h.tokens
  have hburst := h.burst
  unfold Stamp at ht
  have hstamp : (if t > refillFrom p t then t else refillFrom p t).toInt =
      max t.toInt (refillFrom p t).toInt := by
    split <;> rename_i hgt <;> rw [gt_iff_lt, Int64.lt_iff_toInt_lt] at hgt <;> omega
  have hle : 0 ≤ (if min64 (min64 p.burst (p.cap - p.spent)) (p.tokens + accrued p t) < 0 then 0
      else min64 (min64 p.burst (p.cap - p.spent)) (p.tokens + accrued p t)).toInt ∧
      (if min64 (min64 p.burst (p.cap - p.spent)) (p.tokens + accrued p t) < 0 then 0
        else min64 (min64 p.burst (p.cap - p.spent)) (p.tokens + accrued p t)).toInt ≤
        min p.burst.toInt (p.tokens.toInt + (accrued p t).toInt) := by
    split
    · rw [Int64.toInt_zero]
      omega
    · rename_i hneg
      rw [Int64.lt_iff_toInt_lt, Int64.toInt_zero] at hneg
      rw [toInt_min64, toInt_min64, hsum] at hneg ⊢
      omega
  have hrate : p.rate.toInt * (elapsedMs p t).toInt ≤
      p.rate.toInt * (max t.toInt (refillFrom p t).toInt - (refillFrom p t).toInt) :=
    Int.mul_le_mul_of_nonneg_left (by omega) h.rate.le
  rw [accrueTokens_eq h]
  dsimp only
  rw [hstamp]
  refine ⟨⟨h.rate, h.burst, ⟨hle.1, by dsimp only; omega⟩, ?_⟩, rfl, rfl, rfl, ?_⟩
  · dsimp only
    rw [hstamp]
    omega
  · omega

end

/-! ## One command on a paced pool -/

/-- The grants among the commands carry stamps of the leader. -/
def BudOp.Stamped : BudOp → Prop
  | .grant a => Stamp a.grantedMs
  | _ => True

namespace Ledger

/-- What a command newly grants: the amount of a lease that was not there before it. -/
def newlyGranted (op : BudOp) (L : Ledger) : Int :=
  match op with
  | .grant a =>
    match L.lease? a.leaseID, (L.grant a).1.lease? a.leaseID with
    | none, some (_, l) => l.amount.toInt
    | _, _ => 0
  | _ => 0

end Ledger

structure SamePacing (p p' : PoolRec) : Prop where
  tokens : p'.tokens = p.tokens
  stamp : p'.lastRefillMs = p.lastRefillMs

structure SameLimits (p p' : PoolRec) : Prop where
  cap : p'.cap = p.cap
  rate : p'.rate = p.rate
  burst : p'.burst = p.burst

theorem SameLimits.refl (p : PoolRec) : SameLimits p p := ⟨rfl, rfl, rfl⟩

theorem SamePacing.refl (p : PoolRec) : SamePacing p p := ⟨rfl, rfl⟩

theorem accrueTokens_limits (p : PoolRec) (t : Int64) : SameLimits p (accrueTokens p t) := by
  unfold accrueTokens
  split <;> exact ⟨rfl, rfl, rfl⟩

/-- Folding in a final report changes neither limits nor pacing. -/
theorem foldFinal_same (final : Option Int64) (l : LeaseRec) (p : PoolRec) :
    SameLimits p (foldFinal final l p).2 ∧ SamePacing p (foldFinal final l p).2 := by
  cases final with
  | none => exact ⟨.refl p, .refl p⟩
  | some n =>
    unfold foldFinal
    dsimp only
    split <;> exact ⟨⟨rfl, rfl, rfl⟩, rfl, rfl⟩

section
variable {L : Ledger} {b : Book}

/-- No command changes the limits of a pool, and only a grant its pacing state. -/
theorem Ledger.apply_same (hb : L.book = some b) (op : BudOp) :
    ∃ b', (L.apply op).1.book = some b' ∧ SameLimits b.pool b'.pool ∧
      ((∀ a, op ≠ .grant a) → SamePacing b.pool b'.pool) := by
  have hsame : (L.apply op).1.book = L.book →
      ∃ b', (L.apply op).1.book = some b' ∧ SameLimits b.pool b'.pool ∧
        ((∀ a, op ≠ .grant a) → SamePacing b.pool b'.pool) :=
    fun heq => ⟨b, heq.trans hb, .refl _, fun _ => .refl _⟩
  have hbook : ∀ {id b' l}, L.lease? id = some (b', l) → b' = b := by
    intro id b' l hl
    exact Option.some.inj ((lease?_some hl).1.symm.trans hb)
  cases op with
  | init a =>
    rcases L.init_cases a with heq | ⟨hnone, -⟩
    · exact hsame (congrArg Ledger.book heq)
    · rw [hb] at hnone
      cases hnone
  | grant a =>
    rcases L.grant_cases a with heq | ⟨b₀, hb₀, -, -, -, heq⟩
    · exact hsame (congrArg Ledger.book heq)
    · rw [hb] at hb₀
      cases hb₀
      obtain ⟨hcap, hrate, hburst⟩ := accrueTokens_limits b.pool a.grantedMs
      exact ⟨_, congrArg Ledger.book heq, ⟨hcap, hrate, hburst⟩, fun h => absurd rfl (h a)⟩
  | report a =>
    rcases L.report_cases a with heq | ⟨b₀, l, hl, -, heq⟩
    · exact hsame (congrArg Ledger.book heq)
    · cases hbook hl
      exact ⟨_, congrArg Ledger.book heq, ⟨rfl, rfl, rfl⟩, fun _ => ⟨rfl, rfl⟩⟩
  | giveBack a =>
    rcases L.giveBack_cases a with heq | ⟨b₀, l, -, hl, heq⟩
    · exact hsame (congrArg Ledger.book heq)
    · cases hbook hl
      obtain ⟨⟨hcap, hrate, hburst⟩, htokens, hstamp⟩ := foldFinal_same a.final l b.pool
      exact ⟨_, heq, ⟨hcap, hrate, hburst⟩, fun _ => ⟨htokens, hstamp⟩⟩
  | expire a =>
    rcases L.expire_cases a with heq | ⟨b₀, l, -, hl, -, heq⟩
    · exact hsame heq
    · cases hbook hl
      exact ⟨_, heq, ⟨rfl, rfl, rfl⟩, fun _ => ⟨rfl, rfl⟩⟩
  | tombGC a => exact hsame rfl
  | reconcile n =>
    refine ⟨{ b with pool := reconcilePool b.pool n }, ?_, ⟨rfl, rfl, rfl⟩, fun _ => ⟨rfl, rfl⟩⟩
    show (L.reconcile n).1.book = _
    rw [Ledger.reconcile, hb]

/-- A paced pool gives out no more than its tokens. -/
theorem grantable_le_tokens {p : PoolRec} (h : Paced p) (amount : Int64) :
    (grantable p amount).toInt ≤ p.tokens.toInt := by
  have hrate : p.rate > 0 := pos_iff_toInt.mpr h.rate
  have hmin := toInt_min64 amount p.tokens
  unfold grantable
  rw [if_pos hrate]
  dsimp only
  split
  · rename_i hgt
    rw [gt_iff_lt, Int64.lt_iff_toInt_lt] at hgt
    omega
  · omega

theorem refillFrom_toInt (p : PoolRec) (t : Int64) : (refillFrom p t).toInt =
    if p.lastRefillMs.toInt = 0 then t.toInt else p.lastRefillMs.toInt := by
  unfold refillFrom
  by_cases h : p.lastRefillMs = 0
  · rw [if_pos h, if_pos (by rw [h, Int64.toInt_zero])]
  · rw [if_neg h, if_neg fun h0 => h (Int64.toInt_inj.mp (h0.trans Int64.toInt_zero.symm))]

/-- A pool after `g` more was granted from it: what went and what is left are no more than what
was there and has accrued while the refill stamp moved. -/
structure Drawn (p p' : PoolRec) (g : Int) : Prop where
  paced : Paced p'
  stamp : p.lastRefillMs.toInt ≤ p'.lastRefillMs.toInt
  tokens : g + p'.tokens.toInt ≤ p.tokens.toInt + p.rate.toInt * (p'.lastRefillMs.toInt -
    if p.lastRefillMs.toInt = 0 then p'.lastRefillMs.toInt else p.lastRefillMs.toInt) / 1000

theorem SamePacing.drawn {p p' : PoolRec} (hp : Paced p) (hl : SameLimits p p')
    (hs : SamePacing p p') : Drawn p p' 0 := by
  refine ⟨⟨?_, ?_, ?_, ?_⟩, ?_, ?_⟩
  · rw [hl.rate]; exact hp.rate
  · rw [hl.burst]; exact hp.burst
  · rw [hs.tokens, hl.burst]; exact hp.tokens
  · rw [hs.stamp]; exact hp.stamp
  · rw [hs.stamp]
  · rw [hs.tokens, hs.stamp, ite_self, Int.sub_self, Int.mul_zero, Int.zero_ediv]
    omega

/-- A fresh grant draws on the accrued tokens. -/
theorem takeGrant_drawn {p : PoolRec} {t amount : Int64} (hp : Paced p) (ht : Stamp t)
    (hpos : 0 < (grantable (accrueTokens p t) amount).toInt) :
    Drawn p (takeGrant (accrueTokens p t) (grantable (accrueTokens p t) amount))
      (grantable (accrueTokens p t) amount).toInt := by
  obtain ⟨hpaced, hrate, hburst, hstamp, hle⟩ := accrueTokens_spec hp ht
  have hg := grantable_le_tokens hpaced amount
  have hfrom := refillFrom_toInt p t
  have hold := hp.stamp
  have hnew := hpaced.tokens
  unfold Stamp at ht
  generalize hgr : grantable (accrueTokens p t) amount = g at *
  have hrate' : (accrueTokens p t).rate > 0 := pos_iff_toInt.mpr hpaced.rate
  have htokens : (takeGrant (accrueTokens p t) g).tokens.toInt =
      (accrueTokens p t).tokens.toInt - g.toInt := by
    show (if (accrueTokens p t).rate > 0 then (accrueTokens p t).tokens - g
      else (accrueTokens p t).tokens).toInt = _
    rw [if_pos hrate']
    have := (accrueTokens p t).tokens.toInt_lt
    exact toInt_sub_exact (by omega) (by omega)
  refine ⟨⟨hpaced.rate, hpaced.burst, ?_, hpaced.stamp⟩, ?_, ?_⟩
  · rw [htokens]
    show _ ∧ _ ≤ (accrueTokens p t).burst.toInt
    omega
  · show _ ≤ (accrueTokens p t).lastRefillMs.toInt
    omega
  · rw [htokens]
    show _ ≤ p.tokens.toInt + p.rate.toInt * ((accrueTokens p t).lastRefillMs.toInt -
      if p.lastRefillMs.toInt = 0 then (accrueTokens p t).lastRefillMs.toInt
      else p.lastRefillMs.toInt) / 1000
    have hsince : (if p.lastRefillMs.toInt = 0 then (accrueTokens p t).lastRefillMs.toInt
        else p.lastRefillMs.toInt) = (refillFrom p t).toInt := by
      rw [hstamp, hfrom]
      split <;> omega
    rw [hsince]
    omega

theorem Ledger.newlyGranted_same {a : GrantArgs} (h : (L.grant a).1 = L) :
    L.newlyGranted (.grant a) = 0 := by
  simp only [newlyGranted, h]
  cases L.lease? a.leaseID <;> rfl

/-- A new lease is newly granted. -/
theorem Ledger.newlyGranted_fresh {a : GrantArgs} {b' : Book} {l : LeaseRec}
    (hnone : L.lease? a.leaseID = none)
    (hl : (L.grant a).1.lease? a.leaseID = some (b', l)) :
    L.newlyGranted (.grant a) = l.amount.toInt := by
  simp only [newlyGranted, hnone, hl]

theorem newLease_amount (p : PoolRec) (holder : Bytes) (g t ttl : Int64) :
    (newLease p holder g t ttl).amount = g := by
  unfold newLease
  split <;> rfl

/-- A grant draws its amount. -/
theorem Ledger.grant_drawn {a : GrantArgs} {b' : Book} (hb : L.book = some b) (hp : Paced b.pool)
    (ht : Stamp a.grantedMs) (hl : SameLimits b.pool b'.pool)
    (hb' : (L.grant a).1.book = some b') : Drawn b.pool b'.pool (L.newlyGranted (.grant a)) := by
  rcases L.grant_cases a with heq | ⟨b₀, hb₀, -, hid, hg, heq⟩
  · rw [heq, hb] at hb'
    cases hb'
    rw [newlyGranted_same heq]
    exact (SamePacing.refl _).drawn hp hl
  · rw [hb] at hb₀
    cases hb₀
    rw [Int64.le_iff_toInt_le, Int64.toInt_zero, not_le] at hg
    have hnone : L.lease? a.leaseID = none := by
      rw [lease?_of_book hb, hid, Option.map_none]
    have hbook := (congrArg Ledger.book heq).symm.trans hb'
    have hafter : (L.grant a).1.lease? a.leaseID = some (b', newLease
        (accrueTokens b.pool a.grantedMs) a.holder (grantable (accrueTokens b.pool a.grantedMs)
          a.amount) a.grantedMs (resolveTTL b.pool a.ttlOverride)) := by
      rw [lease?_of_book hb', ← Option.some.inj hbook, Std.ExtTreeMap.getElem?_insert_self,
        Option.map_some]
    rw [newlyGranted_fresh hnone hafter, newLease_amount, ← Option.some.inj hbook]
    exact takeGrant_drawn hp ht hg

/-- One command draws what it newly grants. -/
theorem Ledger.apply_drawn {op : BudOp} (hb : L.book = some b) (hp : Paced b.pool)
    (hop : op.Stamped) :
    ∃ b', (L.apply op).1.book = some b' ∧ SameLimits b.pool b'.pool ∧
      Drawn b.pool b'.pool (L.newlyGranted op) := by
  obtain ⟨b', hb', hlimits, hsame⟩ := apply_same hb op
  refine ⟨b', hb', hlimits, ?_⟩
  cases op with
  | grant a => exact grant_drawn hb hp hop hlimits hb'
  | init a => exact (hsame nofun).drawn hp hlimits
  | report a => exact (hsame nofun).drawn hp hlimits
  | giveBack a => exact (hsame nofun).drawn hp hlimits
  | expire a => exact (hsame nofun).drawn hp hlimits
  | tombGC a => exact (hsame nofun).drawn hp hlimits
  | reconcile n => exact (hsame nofun).drawn hp hlimits

end

/-! ## Runs -/

namespace Ledger

def run (ops : List BudOp) (L : Ledger) : Ledger := ops.foldl (fun L op => (L.apply op).1) L

def granted : List BudOp → Ledger → Int
  | [], _ => 0
  | op :: ops, L => L.newlyGranted op + granted ops (L.apply op).1

/-- The refill stamp of the pool: zero until its first grant. -/
def refillStamp (L : Ledger) : Int := (L.book.map fun b => b.pool.lastRefillMs.toInt).getD 0

/-- The refill stamp a run counts from: the one the pool has, or the one its first grant
sets. -/
def stampFrom : List BudOp → Ledger → Int
  | [], L => L.refillStamp
  | op :: ops, L => if L.refillStamp = 0 then stampFrom ops (L.apply op).1 else L.refillStamp

variable {L : Ledger} {b : Book} {ops : List BudOp}

theorem run_append (ops ops' : List BudOp) (L : Ledger) :
    run (ops ++ ops') L = run ops' (run ops L) := List.foldl_append

theorem refillStamp_of_book (hb : L.book = some b) :
    L.refillStamp = b.pool.lastRefillMs.toInt := by
  rw [refillStamp, hb]
  rfl

theorem stampFrom_of_ne (h : L.refillStamp ≠ 0) : stampFrom ops L = L.refillStamp := by
  cases ops with
  | nil => rfl
  | cons op ops => exact if_neg h

/-- Over a run the grants and the tokens left are at most the tokens before and what accrues
while the refill stamp moves. -/
theorem run_drawn (hb : L.book = some b) (hp : Paced b.pool)
    (hops : ∀ op ∈ ops, op.Stamped) :
    ∃ b', (run ops L).book = some b' ∧ SameLimits b.pool b'.pool ∧ Paced b'.pool ∧
      stampFrom ops L ≤ b'.pool.lastRefillMs.toInt ∧
      granted ops L + b'.pool.tokens.toInt ≤ b.pool.tokens.toInt +
        b.pool.rate.toInt * (b'.pool.lastRefillMs.toInt - stampFrom ops L) / 1000 := by
  induction ops generalizing L b with
  | nil =>
    refine ⟨b, hb, .refl _, hp, (refillStamp_of_book hb).le, ?_⟩
    rw [stampFrom, refillStamp_of_book hb, Int.sub_self, Int.mul_zero, granted]
    omega
  | cons op ops ih =>
    obtain ⟨b₁, hb₁, hlimits, hpaced, hstamp, htokens⟩ :=
      apply_drawn hb hp (hops op List.mem_cons_self)
    obtain ⟨b', hb', hlimits', hpaced', hle, hsum⟩ :=
      ih hb₁ hpaced fun op h => hops op (List.mem_cons_of_mem _ h)
    refine ⟨b', hb', ⟨hlimits'.cap.trans hlimits.cap, hlimits'.rate.trans hlimits.rate,
      hlimits'.burst.trans hlimits.burst⟩, hpaced', ?_⟩
    rw [granted, stampFrom, refillStamp_of_book hb]
    rw [hlimits.rate] at hsum
    have hold := hp.stamp
    by_cases hzero : b.pool.lastRefillMs.toInt = 0
    · -- nothing accrues before the first grant, nor at it
      rw [if_pos hzero] at htokens ⊢
      rw [Int.sub_self, Int.mul_zero] at htokens
      exact ⟨hle, by omega⟩
    · rw [if_neg hzero] at htokens ⊢
      have hfrom : stampFrom ops (L.apply op).1 = b₁.pool.lastRefillMs.toInt := by
        rw [← refillStamp_of_book hb₁]
        refine stampFrom_of_ne ?_
        rw [refillStamp_of_book hb₁]
        omega
      rw [hfrom] at hle hsum
      have hsplit : b.pool.rate.toInt * (b'.pool.lastRefillMs.toInt - b.pool.lastRefillMs.toInt)
          = b.pool.rate.toInt * (b₁.pool.lastRefillMs.toInt - b.pool.lastRefillMs.toInt) +
            b.pool.rate.toInt * (b'.pool.lastRefillMs.toInt - b₁.pool.lastRefillMs.toInt) := by
        ring
      exact ⟨by omega, by omega⟩

/-- What every command keeps holds after a run. -/
theorem run_induct {P : Ledger → Prop} (hop : ∀ op ∈ ops, ∀ L, P L → P (L.apply op).1) (h : P L) :
    P (run ops L) := by
  induction ops generalizing L with
  | nil => exact h
  | cons op ops ih =>
    exact ih (fun op h => hop op (List.mem_cons_of_mem _ h)) (hop op List.mem_cons_self L h)

/-- What an init leaves and every command keeps holds of the book a run from nothing ends with. -/
theorem run_book_induct {P : Book → Prop}
    (hinit : ∀ a, 0 ≤ a.capacity.toInt → badInitParam a = false → P { pool := newPool a })
    (hop : ∀ op ∈ ops, ∀ (L : Ledger) b b', L.book = some b → (L.apply op).1.book = some b' →
      SameLimits b.pool b'.pool → P b → P b')
    (hb : (run ops {}).book = some b) : P b := by
  refine run_induct (P := fun L => ∀ b, L.book = some b → P b)
    (fun op hmem L hP b' hb' => ?_) (fun b hb => by cases hb) b hb
  cases hL : L.book with
  | none =>
    obtain ⟨a, -, hcap, hparam, rfl⟩ := apply_none hL hb'
    rw [Int64.lt_iff_toInt_lt, not_lt] at hcap
    exact hinit a hcap hparam
  | some b =>
    obtain ⟨b₁, hb₁, hlimits, -⟩ := apply_same hL op
    rw [hb'] at hb₁
    cases hb₁
    exact hop op hmem L b b' hL hb' hlimits (hP b hL)

end Ledger

/-- The parameters an init admits leave a pool with a rate paced. -/
theorem newPool_paced {a : InitArgs} (hparam : badInitParam a = false) (hrate : 0 < a.rate.toInt) :
    Paced (newPool a) := by
  have hrate' : a.rate > 0 := pos_iff_toInt.mpr hrate
  have hceil : pacingBurstCeil.toInt = 2 ^ 50 := by decide
  simp only [badInitParam, Bool.or_eq_false_iff, decide_eq_false_iff_not, gt_iff_lt,
    Int64.lt_iff_toInt_lt, Int64.toInt_zero, hceil] at hparam
  obtain ⟨⟨⟨⟨-, hlo⟩, hhi⟩, -⟩, -⟩ := hparam
  have htokens : (newPool a).tokens = a.burst := if_pos hrate'
  have hstamp : (newPool a).lastRefillMs.toInt = 0 := rfl
  refine ⟨hrate, ⟨not_lt.mp hlo, not_lt.mp hhi⟩, ?_, by omega⟩
  rw [htokens]
  exact ⟨not_lt.mp hlo, le_refl _⟩

/-- Along every run from nothing a pool with a rate is paced. -/
theorem run_paced {ops : List BudOp} {b : Book} (hops : ∀ op ∈ ops, op.Stamped)
    (hb : (Ledger.run ops {}).book = some b) (hrate : 0 < b.pool.rate.toInt) : Paced b.pool := by
  refine Ledger.run_book_induct (P := fun b => 0 < b.pool.rate.toInt → Paced b.pool)
    (fun a _ => newPool_paced) (fun op hop L b b' hL hb' hlimits hp hrate' => ?_) hb hrate
  rw [hlimits.rate] at hrate'
  obtain ⟨b₂, hb₂, -, hdrawn⟩ := Ledger.apply_drawn hL (hp hrate') (hops op hop)
  rw [hb'] at hb₂
  cases hb₂
  exact hdrawn.paced

/-! ## The buckets of a paced pool -/

/-- What the buckets of a pool stay below: its cap, or twice that once reconciles may set its
spend. -/
def bucketLimit (reconciled : Bool) (cap : Int) : Int := if reconciled then 2 * cap else cap

/-- The buckets stay below their limit, and what is free, out and attested below the cap. -/
structure Within (reconciled : Bool) (b : Book) : Prop where
  below : Below (bucketLimit reconciled b.pool.cap.toInt) b.account
  attested : b.pool.available.toInt + b.pool.leasedOut.toInt + b.pool.spentReported.toInt
    ≤ b.pool.cap.toInt

section
variable {reconciled : Bool} {b b' : Book}

theorem Within.cap_nonneg (h : Within reconciled b) : 0 ≤ b.pool.cap.toInt := by
  have hfree := h.below.free
  have hout := h.below.out_nonneg
  have hrep := h.below.reported
  have hatt := h.attested
  simp only [Book.account] at hfree hout hrep
  omega

/-- Moves keep the buckets within the capacity. -/
theorem Within.moves (h : Within reconciled b)
    (hm : Relation.ReflTransGen Move b.account b'.account) : Within reconciled b' := by
  obtain ⟨hbelow, hcap, hle⟩ := Move.below_of_moves h.below hm
  have hatt := h.attested
  have hcap' : b'.pool.cap.toInt = b.pool.cap.toInt := hcap
  simp only [Book.account] at hle
  refine ⟨?_, by omega⟩
  rw [hcap']
  exact hbelow

theorem Within.opened {a : InitArgs} (h : 0 ≤ a.capacity.toInt) :
    Within reconciled { pool := newPool a } := by
  have hsound : Sound (Book.account { pool := newPool a }) := sound_opened h
  have hcap : (newPool a).cap.toInt = a.capacity.toInt := rfl
  refine ⟨hsound.below.mono ?_, ?_⟩
  · show (newPool a).cap.toInt ≤ bucketLimit reconciled (newPool a).cap.toInt
    unfold bucketLimit
    split <;> omega
  · show a.capacity.toInt + (0 : Int64).toInt + (0 : Int64).toInt ≤ a.capacity.toInt
    rw [Int64.toInt_zero]
    omega

/-- A reconcile keeps them within it. -/
theorem Within.reconcile (h : Within true b) (n : Int64) :
    Within true { b with pool := reconcilePool b.pool n } := by
  have hfree := h.below.free
  have hout := h.below.out_nonneg
  have hrep := h.below.reported
  have hatt := h.attested
  have hcap := h.cap_nonneg
  simp only [Book.account] at hfree hout hrep
  obtain ⟨target, hacc, hlo, hhi⟩ := reset_exact n hout hrep.1 (by omega)
  have havail : (reconcilePool b.pool n).available.toInt =
      max 0 (b.pool.cap.toInt - target - b.pool.leasedOut.toInt) := congrArg Account.free hacc
  refine ⟨?_, ?_⟩
  · rw [hacc]
    show Below (2 * b.pool.cap.toInt) _
    refine h.below.reset hlo ?_ ?_
    · show b.pool.cap.toInt ≤ 2 * b.pool.cap.toInt
      omega
    · show b.pool.leasedOut.toInt + target ≤ 2 * b.pool.cap.toInt
      omega
  · show (reconcilePool b.pool n).available.toInt + b.pool.leasedOut.toInt +
      b.pool.spentReported.toInt ≤ b.pool.cap.toInt
    omega

/-- Along every run from nothing the buckets of a pool are within their limit, if that fits
int64 and reconciles are accounted for. -/
theorem run_within {ops : List BudOp} (hops : reconciled = true ∨ ∀ n, .reconcile n ∉ ops)
    (hb : (Ledger.run ops {}).book = some b)
    (hfit : bucketLimit reconciled b.pool.cap.toInt < 2 ^ 63) : Within reconciled b := by
  refine Ledger.run_book_induct
    (P := fun b => bucketLimit reconciled b.pool.cap.toInt < 2 ^ 63 → Within reconciled b)
    (fun a hcap _ _ => .opened hcap) (fun op hop L b b' hL hb' hlimits hP hfit' => ?_) hb hfit
  rw [hlimits.cap] at hfit'
  have hw := hP hfit'
  by_cases hrec : ∃ n, op = .reconcile n
  · obtain ⟨n, rfl⟩ := hrec
    rcases hops with rfl | hnone
    · have hbook : (L.reconcile n).1.book = some b' := hb'
      rw [Ledger.reconcile, hL] at hbook
      cases hbook
      exact hw.reconcile n
    · exact absurd hop (hnone n)
  · obtain ⟨b₂, hb₂, hm⟩ := Ledger.apply_moves hL (hw.below.mono (by omega))
      fun n h => hrec ⟨n, h⟩
    rw [hb'] at hb₂
    cases hb₂
    exact hw.moves hm

end

/-- Every product, sum and difference a grant forms on the pool is the integer one. -/
structure GrantExact (p : PoolRec) (amount t : Int64) : Prop where
  window : (4 * p.burst).toInt = 4 * p.burst.toInt ∧
    (4 * p.burst * 1000).toInt = 4 * p.burst.toInt * 1000
  elapsed : (t - refillFrom p t).toInt = t.toInt - (refillFrom p t).toInt
  accrued : (p.rate * elapsedMs p t).toInt = p.rate.toInt * (elapsedMs p t).toInt
  room : (p.cap - p.spent).toInt = p.cap.toInt - p.spent.toInt
  tokens : (p.tokens + Collections.accrued p t).toInt =
    p.tokens.toInt + (Collections.accrued p t).toInt
  taken : ∀ g, g = grantable (accrueTokens p t) amount → 0 < g.toInt →
    (p.available - g).toInt = p.available.toInt - g.toInt ∧
    (p.leasedOut + g).toInt = p.leasedOut.toInt + g.toInt ∧
    ((accrueTokens p t).tokens - g).toInt = (accrueTokens p t).tokens.toInt - g.toInt

/-- Within the capacity no sum of a grant overflows. -/
theorem Within.grantExact {reconciled : Bool} {b : Book} {amount t : Int64}
    (h : Within reconciled b) (hfit : bucketLimit reconciled b.pool.cap.toInt < 2 ^ 63)
    (hp : Paced b.pool) (ht : Stamp t) : GrantExact b.pool amount t := by
  obtain ⟨hfour, hthousand, -⟩ := maxElapsed_exact hp
  obtain ⟨helapsed, -⟩ := elapsedMs_bounds hp ht
  obtain ⟨hproduct, -, -, hsum⟩ := accrued_exact hp ht
  have hfree := h.below.free
  have hout := h.below.out_nonneg
  have hrep := h.below.reported
  have htotal := h.below.total
  have hcap := h.cap_nonneg
  have hcapLt := b.pool.cap.toInt_lt
  simp only [Book.account] at hfree hout hrep htotal
  refine ⟨⟨hfour, hthousand⟩, helapsed, hproduct, toInt_sub_exact (by omega) (by omega), hsum, ?_⟩
  rintro g rfl hpos
  have hle := grantable_le (accrueTokens b.pool t) amount
  have hletok := grantable_le_tokens (accrueTokens_spec hp ht).1 amount
  have htok := (accrueTokens_spec hp ht).1.tokens
  have hlt := (accrueTokens b.pool t).tokens.toInt_lt
  rw [(accrueTokens_buckets b.pool t).2.1] at hle
  exact ⟨toInt_sub_exact (by omega) (by omega), toInt_add_exact (by omega) (by omega),
    toInt_sub_exact (by omega) (by omega)⟩

/-- At the end of a run without reconciles, or on a cap below 2^62, a grant is exact. -/
theorem run_grantExact {ops : List BudOp} {b : Book} {t : Int64}
    (hb : (Ledger.run ops {}).book = some b) (hp : Paced b.pool)
    (hexact : (∀ n, .reconcile n ∉ ops) ∨ b.pool.cap.toInt < 2 ^ 62) (amount : Int64)
    (ht : Stamp t) : GrantExact b.pool amount t := by
  rcases hexact with hnone | hcap
  · have hfit : bucketLimit false b.pool.cap.toInt < 2 ^ 63 := b.pool.cap.toInt_lt
    exact (run_within (.inr hnone) hb hfit).grantExact hfit hp ht
  · have hfit : bucketLimit true b.pool.cap.toInt < 2 ^ 63 := by
      show 2 * b.pool.cap.toInt < 2 ^ 63
      omega
    exact (run_within (.inl rfl) hb hfit).grantExact hfit hp ht

/-- A batch of a shard is a run of each of its budgets. -/
theorem update_runs {P : BudOp → Prop} {fl : FloatOps} {s : UInt64} {ns coll : Chunk}
    {st st' : Store}
    {L : Ledger} {es : List Entry} {rs : List ProposeResult} (hes : ∀ e ∈ es, ¬ Migrates e.cmd)
    (hmeet : EntriesMeet fl s (loadFrozen s st)
      (fun c _ => ∀ op, BudOp.ofCommand c = some op → P op) es (newCtx s st))
    (hL : Represents s ns coll L (newCtx s st)) (hu : update fl s st es = .ok (st', rs)) :
    ∃ ops, (∀ op ∈ ops, P op) ∧ Represents s ns coll (Ledger.run ops L) (newCtx s st') := by
  have hkeep := ledger_update _
    (fun L' => ∃ ops, (∀ op ∈ ops, P op) ∧ Ledger.run ops L = L')
    ?_ hes hmeet hL ⟨[], nofun, rfl⟩ hu
  · obtain ⟨_, hL', ops, hops, rfl⟩ := hkeep
    exact ⟨ops, hops, hL'⟩
  · rintro c op _ v hok - - hc - ⟨ops, hops, rfl⟩
    refine ⟨ops ++ [op], fun op' h => ?_, Ledger.run_append ..⟩
    rcases List.mem_append.mp h with h | h
    · exact hops op' h
    · rw [List.mem_singleton.mp h]
      exact hok op hc

/-! ## Pacing -/

/-- Server pacing. Take any run of budget commands whose grants carry stamps of the leader, in
any order, and any two points of it at which a pool with a rate exists. What is newly granted
between them is at most the burst and what the rate gives while the refill stamp moves, and the
tokens are between zero and the burst. If no reconcile has set the spend, or the cap is below
2^62, then every product, sum and difference a grant forms at the later point is exact. -/
theorem pacing_bound {ops₁ ops₂ : List BudOp} {b₁ : Book}
    (hops : ∀ op ∈ ops₁ ++ ops₂, op.Stamped)
    (hb₁ : (Ledger.run ops₁ {}).book = some b₁) (hrate : 0 < b₁.pool.rate.toInt) :
    ∃ b₂, (Ledger.run (ops₁ ++ ops₂) {}).book = some b₂ ∧
      Ledger.granted ops₂ (Ledger.run ops₁ {}) ≤ b₁.pool.burst.toInt +
        b₁.pool.rate.toInt *
          (b₂.pool.lastRefillMs.toInt - Ledger.stampFrom ops₂ (Ledger.run ops₁ {})) / 1000 ∧
      0 ≤ b₂.pool.tokens.toInt ∧ b₂.pool.tokens.toInt ≤ b₁.pool.burst.toInt ∧
      ((∀ n, .reconcile n ∉ ops₁ ++ ops₂) ∨ b₁.pool.cap.toInt < 2 ^ 62 →
        ∀ amount t, Stamp t → GrantExact b₂.pool amount t) := by
  have hp := run_paced (fun op h => hops op (List.mem_append_left _ h)) hb₁ hrate
  obtain ⟨b₂, hb₂, hlimits, hpaced, -, hsum⟩ :=
    Ledger.run_drawn hb₁ hp fun op h => hops op (List.mem_append_right _ h)
  rw [← Ledger.run_append] at hb₂
  have htokens₁ := hp.tokens
  have htokens₂ := hpaced.tokens
  rw [hlimits.burst] at htokens₂
  refine ⟨b₂, hb₂, by omega, htokens₂.1, htokens₂.2, fun hexact amount t ht => ?_⟩
  rw [← hlimits.cap] at hexact
  exact run_grantExact hb₂ hpaced hexact amount ht

/-! ## A pool of ten a second, and one at the end of int64 -/

def grantAt (id : UInt8) (amount t : Int64) : BudOp :=
  .grant { leaseID := [id], amount, grantedMs := t, ttlOverride := 0, holder := [] }

/-- Create a pool with a rate of ten a second and a burst of five, and take three. -/
def pacedStart : List BudOp :=
  [.init { mode := modeStrict, capacity := 100, rate := 10, burst := 5 }, grantAt 1 3 1000]

/-- Ask for five, late and then early. -/
def pacedRest : List BudOp := [grantAt 2 5 1200, grantAt 3 5 1100]

theorem paced_stamped : ∀ op ∈ pacedStart ++ pacedRest, op.Stamped := by
  intro op hop
  simp only [pacedStart, pacedRest, grantAt, List.cons_append, List.nil_append, List.mem_cons,
    List.not_mem_nil, or_false] at hop
  rcases hop with rfl | rfl | rfl | rfl
  · trivial
  all_goals exact ⟨by decide, by decide⟩

theorem pacing_bound_ten :
    Ledger.granted pacedRest (Ledger.run pacedStart {}) = 4 ∧
      ∃ b₂, (Ledger.run (pacedStart ++ pacedRest) {}).book = some b₂ ∧
        Ledger.granted pacedRest (Ledger.run pacedStart {}) ≤ 5 + 10 *
          (b₂.pool.lastRefillMs.toInt -
            Ledger.stampFrom pacedRest (Ledger.run pacedStart {})) / 1000 ∧
        ∀ amount t, Stamp t → GrantExact b₂.pool amount t := by
  have hpool : (Ledger.run pacedStart {}).book.map
      (fun b => (b.pool.cap, b.pool.rate, b.pool.burst))
      = some (100, 10, 5) := by decide +kernel
  obtain ⟨b₁, hb₁, hlimits⟩ := Option.map_eq_some_iff.mp hpool
  simp only [Prod.mk.injEq] at hlimits
  obtain ⟨hcap, hrate, hburst⟩ := hlimits
  obtain ⟨b₂, hb₂, hle, -, -, hexact⟩ :=
    pacing_bound paced_stamped hb₁ (by rw [hrate]; decide)
  refine ⟨by decide +kernel, b₂, hb₂, ?_, hexact (.inr (by rw [hcap]; decide))⟩
  rw [hrate, hburst] at hle
  exact hle

/-- Create a paced pool of all int64 can hold, lease one of it, set its spend to its cap, and
report the one as spent. -/
def wrappingRun : List BudOp :=
  [.init { mode := modeStrict, capacity := 9223372036854775807, rate := 1, burst := 10 },
    grantAt 7 1 1, .reconcile 9223372036854775807,
    .report { leaseID := [7], num := 1, holder := [] }]

/-- The spend of a pool wraps, and with it the room below the cap that a grant computes. -/
theorem spend_wraps :
    (∀ op ∈ wrappingRun, op.Stamped) ∧
      ∃ b, (Ledger.run wrappingRun {}).book = some b ∧ 0 < b.pool.rate.toInt ∧
        b.pool.cap = 9223372036854775807 ∧ b.pool.spent = -9223372036854775808 ∧
        b.pool.cap - b.pool.spent = -1 ∧ ∀ amount t, ¬ GrantExact b.pool amount t := by
  have hpool : (Ledger.run wrappingRun {}).book.map
      (fun b => (b.pool.cap, b.pool.rate, b.pool.spent))
      = some (9223372036854775807, 1, -9223372036854775808) := by decide +kernel
  obtain ⟨b, hb, hfields⟩ := Option.map_eq_some_iff.mp hpool
  simp only [Prod.mk.injEq] at hfields
  obtain ⟨hcap, hrate, hspent⟩ := hfields
  refine ⟨?_, b, hb, by rw [hrate]; decide, hcap, hspent, by rw [hcap, hspent]; decide, ?_⟩
  · intro op hop
    simp only [wrappingRun, grantAt, List.mem_cons, List.not_mem_nil, or_false] at hop
    rcases hop with rfl | rfl | rfl | rfl
    · trivial
    · exact ⟨by decide, by decide⟩
    · trivial
    · trivial
  · intro amount t h
    have hroom := h.room
    rw [hcap, hspent] at hroom
    exact absurd hroom (by decide)

end WaveSpan.Collections
