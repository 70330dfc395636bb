/-
WaveSpan.Sdk.LeasedBudget — the lease cache of a holder (`sdk/go/leasedbudget.go`).

A cell keeps up to two drawn chunks and a token bucket. `spend` is the path without a call to the
server: it fences itself after a long gap, accrues tokens, drops a chunk past its deadline and
takes from the current one. `refillOnce` draws the next chunk, under lease ids that carry a nonce.
Numbers are 64-bit and every sum and product wraps as the source's does.

`accrual_exact` says when the bucket is exact: a rate of 10^10 a second already makes its products
wrap after a second (`accrual_wraps`). Each accrual rounds down and moves the stamp, so the calls
of a second can lose all of its tokens: `run_accounts` says what is lost.

A rejected lease id is skipped by the refill that saw it. The nonce is written back with a chunk
only, so a refill that finds no live id starts where the last one did (`refill_stuck`).

No chunk pays more than its lease (`chunks_sound`).
-/
import WaveSpan.Lib.Int64
import WaveSpan.Lib.Wire

namespace WaveSpan.Sdk

open WaveSpan.Wire

/-! ## The cell -/

def nsPerSec : Int64 := 1000000000

def nsPerMs : Int64 := 1000000

def maxMonoDeadline : Int64 := 9223372036854775807

def maxRefillAttempts : Nat := 4

/-- A drawn lease: what is left of it, when to stop spending from it, and what was spent. -/
structure LeaseChunk where
  remaining : Int64
  deadlineMon : Int64
  spent : Int64 := 0
  /-- The spend last attested to the server. -/
  reported : Int64 := 0
  amount : Int64
  leaseID : Bytes
  deriving DecidableEq, Repr

/-- The cache of one acquired budget. -/
structure Cell where
  cur : Option LeaseChunk := none
  next : Option LeaseChunk := none
  /-- Tokens a second; none or less is no pacing. -/
  rate : Int64
  burst : Int64
  tokens : Int64
  lastTokenMon : Int64
  chunk : Int64
  lowWatermark : Int64
  /-- The gap after which the cell fences itself; zero is no fence. -/
  maxPauseNs : Int64 := 0
  /-- The time of the last served spend; zero is none. -/
  lastSeenMon : Int64 := 0
  closed : Bool := false
  holder : Bytes := []
  nonce : UInt64 := 0
  selfGuardMs : Int64 := 0
  ttlMs : Int64 := 0
  deriving DecidableEq, Repr

inductive SpendErr where
  | unavailable
  | throttled
  deriving DecidableEq, Repr

def maxI64 (a b : Int64) : Int64 := if a > b then a else b

/-- Top the bucket up for the time since the last accrual, to the burst at most. A gap that fills
it anyway is not multiplied out. -/
def accrueTokensLocked (now : Int64) (c : Cell) : Cell :=
  if c.rate ≤ 0 then c
  else
    let elapsed := now - c.lastTokenMon
    if elapsed ≤ 0 then { c with lastTokenMon := now }
    else
      let fullRefillNs := (c.burst / maxI64 c.rate 1 + 1) * nsPerSec
      let tokens :=
        if elapsed ≥ fullRefillNs then c.burst
        else
          let tokens := c.tokens + c.rate * elapsed / nsPerSec
          if tokens > c.burst then c.burst else tokens
      { c with tokens, lastTokenMon := now }

/-- Drop the current chunk once it is expired or drained, and promote the buffered one. -/
def promoteLocked (now : Int64) (c : Cell) : Cell :=
  let cur := c.cur.filter fun ch => !(now ≥ ch.deadlineMon || ch.remaining == 0)
  match cur, c.next with
  | none, some ch => { c with cur := if now ≥ ch.deadlineMon then none else some ch, next := none }
  | cur, _ => { c with cur }

/-- Whether the gap since the last served spend is past the pause budget. -/
def fenced (now : Int64) (c : Cell) : Bool :=
  c.maxPauseNs > 0 && c.lastSeenMon != 0 && now - c.lastSeenMon > c.maxPauseNs

/-- What a spend leaves, what it returns, and whether it asks for a refill. -/
structure Spent where
  cell : Cell
  err : Option SpendErr := none
  refill : Bool := false

def serve (n now : Int64) (c : Cell) : Spent :=
  let c := promoteLocked now c
  match c.cur with
  | some ch =>
    if ch.remaining ≥ n then
      let ch := { ch with remaining := ch.remaining - n, spent := ch.spent + n }
      { cell := { c with
          cur := some ch
          tokens := if c.rate > 0 then c.tokens - n else c.tokens
          lastSeenMon := now }
        refill := ch.remaining < c.lowWatermark && c.next.isNone }
    else { cell := c, err := some .unavailable, refill := true }
  | none => { cell := c, err := some .unavailable, refill := true }

/-- Consume `n` units at the reading `now` of the cell's clock. -/
def spend (n now : Int64) (c : Cell) : Spent :=
  if n ≤ 0 then { cell := c }
  else if c.closed then { cell := c, err := some .unavailable }
  else if fenced now c then
    { cell := { c with cur := none, next := none, lastSeenMon := now }
      err := some .unavailable, refill := true }
  else
    let c := accrueTokensLocked now c
    if c.rate > 0 ∧ c.tokens < n then { cell := c, err := some .throttled }
    else serve n now c

/-! ## One accrual -/

/-- The products and sums of an accrual fit: the time that fills a bucket, and, below it, the rate
times the time and the tokens with what it gives. -/
structure AccrualFits (now : Int64) (c : Cell) : Prop where
  elapsed : c.lastTokenMon.toInt ≤ now.toInt ∧ now.toInt - c.lastTokenMon.toInt < 2 ^ 63
  full : (c.burst.toInt / c.rate.toInt + 1) * 10 ^ 9 < 2 ^ 63
  product : now.toInt - c.lastTokenMon.toInt < (c.burst.toInt / c.rate.toInt + 1) * 10 ^ 9 →
    c.rate.toInt * (now.toInt - c.lastTokenMon.toInt) < 2 ^ 63
  sum : now.toInt - c.lastTokenMon.toInt < (c.burst.toInt / c.rate.toInt + 1) * 10 ^ 9 →
    c.tokens.toInt + c.rate.toInt * (now.toInt - c.lastTokenMon.toInt) / 10 ^ 9 < 2 ^ 63

/-- A bucket between empty and full, with a rate. -/
structure Bucket (c : Cell) : Prop where
  rate : 0 < c.rate.toInt
  burst : 0 < c.burst.toInt
  tokens : 0 ≤ c.tokens.toInt ∧ c.tokens.toInt ≤ c.burst.toInt

section
variable {now : Int64} {c : Cell}

theorem not_rate_le (h : 0 < c.rate.toInt) : ¬ c.rate ≤ 0 := by
  rw [Int64.le_iff_toInt_le, Int64.toInt_zero]
  exact not_le.mpr h

theorem nsPerSec_toInt : nsPerSec.toInt = 10 ^ 9 := by decide

theorem maxI64_one (h : 0 < c.rate.toInt) : maxI64 c.rate 1 = c.rate := by
  unfold maxI64
  split
  · rfl
  · rename_i hle
    refine Int64.toInt_inj.mp ?_
    have hone : (1 : Int64).toInt = 1 := by decide
    rw [gt_iff_lt, Int64.lt_iff_toInt_lt, hone] at hle
    omega

/-- Without overflow the time to a full bucket is exact. -/
theorem fullRefillNs_exact (h : Bucket c)
    (hfull : (c.burst.toInt / c.rate.toInt + 1) * 10 ^ 9 < 2 ^ 63) :
    ((c.burst / maxI64 c.rate 1 + 1) * nsPerSec).toInt =
      (c.burst.toInt / c.rate.toInt + 1) * 10 ^ 9 := by
  have hone : (1 : Int64).toInt = 1 := by decide
  have hdiv : (c.burst / c.rate).toInt = c.burst.toInt / c.rate.toInt :=
    toInt_div_exact h.burst.le
  have hnonneg : 0 ≤ c.burst.toInt / c.rate.toInt := Int.ediv_nonneg h.burst.le h.rate.le
  have hsucc : (c.burst / c.rate + 1).toInt = c.burst.toInt / c.rate.toInt + 1 := by
    rw [toInt_add_exact] <;> rw [hdiv, hone] <;> omega
  rw [maxI64_one h.rate, toInt_mul_exact, hsucc, nsPerSec_toInt] <;>
    rw [hsucc, nsPerSec_toInt] <;> omega

/-- The time that fills a bucket gives at least a burst. -/
theorem burst_le_of_full (h : Bucket c) {e : Int}
    (he : (c.burst.toInt / c.rate.toInt + 1) * 10 ^ 9 ≤ e) :
    c.burst.toInt ≤ c.rate.toInt * e / 10 ^ 9 := by
  have hmod := Int.emod_lt_of_pos c.burst.toInt h.rate
  have hdiv := Int.mul_ediv_add_emod c.burst.toInt c.rate.toInt
  have hle : c.rate.toInt * ((c.burst.toInt / c.rate.toInt + 1) * 10 ^ 9) ≤ c.rate.toInt * e :=
    Int.mul_le_mul_of_nonneg_left he h.rate.le
  rw [Int.le_ediv_iff_mul_le (by decide)]
  rw [← Int.mul_assoc, Int.mul_add, Int.mul_one] at hle
  refine le_trans (Int.mul_le_mul_of_nonneg_right ?_ (by decide)) hle
  omega

/-- The tokens after an accrual, over the integers. -/
theorem accrueTokensLocked_tokens (h : Bucket c) (hfits : AccrualFits now c) :
    (accrueTokensLocked now c).tokens.toInt = min c.burst.toInt
      (c.tokens.toInt + c.rate.toInt * (now.toInt - c.lastTokenMon.toInt) / 10 ^ 9) := by
  obtain ⟨⟨hle, hlt⟩, hfull, hproduct, hsum⟩ := hfits
  have htokens := h.tokens
  have helapsed : (now - c.lastTokenMon).toInt = now.toInt - c.lastTokenMon.toInt :=
    toInt_sub_exact (by omega) (by omega)
  have hns := fullRefillNs_exact h hfull
  have hgain : 0 ≤ c.rate.toInt * (now.toInt - c.lastTokenMon.toInt) :=
    Int.mul_nonneg h.rate.le (by omega)
  unfold accrueTokensLocked
  rw [if_neg (not_rate_le h.rate)]
  dsimp only
  split
  · -- no time has passed
    rename_i hzero
    rw [Int64.le_iff_toInt_le, helapsed, Int64.toInt_zero] at hzero
    have heq : now.toInt - c.lastTokenMon.toInt = 0 := by omega
    show c.tokens.toInt = _
    rw [heq, Int.mul_zero]
    omega
  · dsimp only
    split
    · rename_i hfill
      rw [ge_iff_le, Int64.le_iff_toInt_le, hns, helapsed] at hfill
      have := burst_le_of_full h hfill
      omega
    · rename_i hfine
      rw [ge_iff_le, Int64.le_iff_toInt_le, hns, helapsed, not_le] at hfine
      have hmul : (c.rate * (now - c.lastTokenMon)).toInt =
          c.rate.toInt * (now.toInt - c.lastTokenMon.toInt) := by
        rw [toInt_mul_exact] <;> rw [helapsed]
        · omega
        · exact hproduct hfine
      have hdiv : (c.rate * (now - c.lastTokenMon) / nsPerSec).toInt =
          c.rate.toInt * (now.toInt - c.lastTokenMon.toInt) / 10 ^ 9 := by
        rw [toInt_div_exact (by omega), hmul, nsPerSec_toInt]
      have hadd : (c.tokens + c.rate * (now - c.lastTokenMon) / nsPerSec).toInt =
          c.tokens.toInt + c.rate.toInt * (now.toInt - c.lastTokenMon.toInt) / 10 ^ 9 := by
        have := hsum hfine
        rw [toInt_add_exact, hdiv] <;> rw [hdiv] <;> omega
      split
      · rename_i hgt
        rw [gt_iff_lt, Int64.lt_iff_toInt_lt, hadd] at hgt
        omega
      · rename_i hle'
        rw [gt_iff_lt, Int64.lt_iff_toInt_lt, hadd] at hle'
        omega

/-- When an accrual is exact. Without a gap nothing is added. A gap from the wrapped refill time on
fills the bucket, which has to be what the rate gives for it. A shorter gap adds the wrapped
product: its sum with the tokens has to fit, and the product itself too, unless what is left of it
after wrapping fills the bucket as well. -/
def AccrualExact (now : Int64) (c : Cell) : Prop :=
  let elapsed := now.toInt - c.lastTokenMon.toInt
  let full := Int.bmod ((c.burst.toInt / c.rate.toInt + 1) * 10 ^ 9) (2 ^ 64)
  let gain := Int.tdiv (Int.bmod (c.rate.toInt * elapsed) (2 ^ 64)) (10 ^ 9)
  elapsed = 0 ∨
    (full ≤ elapsed ∧ (c.burst.toInt - c.tokens.toInt) * 10 ^ 9 ≤ c.rate.toInt * elapsed) ∨
    (elapsed < full ∧ c.tokens.toInt + gain < 2 ^ 63 ∧
      (c.rate.toInt * elapsed < 2 ^ 63 ∨ c.burst.toInt ≤ c.tokens.toInt + gain))

theorem fullRefillNs_wraps (h : Bucket c) :
    ((c.burst / maxI64 c.rate 1 + 1) * nsPerSec).toInt =
      Int.bmod ((c.burst.toInt / c.rate.toInt + 1) * 10 ^ 9) (2 ^ 64) := by
  have hone : (1 : Int64).toInt = 1 := by decide
  rw [maxI64_one h.rate, Int64.toInt_mul, Int64.toInt_add, toInt_div_exact h.burst.le, hone,
    nsPerSec_toInt, Int.bmod_mul_bmod]

/-- What a gap below the refill time adds, wrapped, is exact or fills the bucket either way. -/
theorem fine_tokens (h : Bucket c) {e : Int64} (he : 0 ≤ e.toInt) :
    (if c.tokens + c.rate * e / nsPerSec > c.burst then c.burst
        else c.tokens + c.rate * e / nsPerSec).toInt =
      min c.burst.toInt (c.tokens.toInt + c.rate.toInt * e.toInt / 10 ^ 9) ↔
    c.tokens.toInt + Int.tdiv (Int.bmod (c.rate.toInt * e.toInt) (2 ^ 64)) (10 ^ 9) < 2 ^ 63 ∧
      (c.rate.toInt * e.toInt < 2 ^ 63 ∨ c.burst.toInt ≤
        c.tokens.toInt + Int.tdiv (Int.bmod (c.rate.toInt * e.toInt) (2 ^ 64)) (10 ^ 9)) := by
  obtain ⟨hr, hb, ht⟩ := h
  have hP : 0 ≤ c.rate.toInt * e.toInt := Int.mul_nonneg hr.le he
  have hsum : (c.tokens + c.rate * e / nsPerSec).toInt = Int.bmod (c.tokens.toInt +
      Int.tdiv (Int.bmod (c.rate.toInt * e.toInt) (2 ^ 64)) (10 ^ 9)) (2 ^ 64) := by
    rw [Int64.toInt_add, Int64.toInt_div_of_ne_right _ _ (by decide), Int64.toInt_mul,
      nsPerSec_toInt]
  generalize c.rate.toInt * e.toInt = P at *
  have hw : ∃ k, Int.bmod P (2 ^ 64) = P - 2 ^ 64 * k :=
    ⟨_, by rw [Int.bmod_eq_self_sub_mul_bdiv]; rfl⟩
  have hlo : -2 ^ 63 ≤ Int.bmod P (2 ^ 64) := Int.le_bmod (by decide)
  have hhi : Int.bmod P (2 ^ 64) < 2 ^ 63 := Int.bmod_lt (by decide)
  generalize Int.bmod P (2 ^ 64) = w at *
  obtain ⟨k, hk⟩ := hw
  have hq : Int.tdiv w (10 ^ 9) = if 0 ≤ w then w / 10 ^ 9 else -(-w / 10 ^ 9) := by
    split
    · exact Int.tdiv_eq_ediv_of_nonneg ‹_›
    · rw [← Int.tdiv_eq_ediv_of_nonneg (by omega), Int.neg_tdiv, Int.neg_neg]
  have hbmax := c.burst.toInt_lt
  by_cases hfit : c.tokens.toInt + Int.tdiv w (10 ^ 9) < 2 ^ 63
  · have hx : (c.tokens + c.rate * e / nsPerSec).toInt = c.tokens.toInt + Int.tdiv w (10 ^ 9) := by
      rw [hsum]
      refine Int.bmod_eq_of_le ?_ ?_ <;> split at hq <;> omega
    split
    · rename_i hgt
      rw [gt_iff_lt, Int64.lt_iff_toInt_lt, hx] at hgt
      split at hq <;> omega
    · rename_i hgt
      rw [gt_iff_lt, Int64.lt_iff_toInt_lt, hx] at hgt
      rw [hx]
      split at hq <;> omega
  · -- the sum wraps to a debt
    have hx : (c.tokens + c.rate * e / nsPerSec).toInt = c.tokens.toInt + w / 10 ^ 9 - 2 ^ 64 := by
      rw [hsum, hq, if_pos (by omega), ← Int.sub_bmod_right]
      exact Int.bmod_eq_of_le (by omega) (by omega)
    split
    · rename_i hgt
      rw [gt_iff_lt, Int64.lt_iff_toInt_lt, hx] at hgt
      omega
    · rw [hx]
      omega

/-- Node accrual. For every bucket and every gap, the accrual adds what the rate gives for the
time, up to the burst (and so keeps the bucket between empty and full and takes nothing away), if
and only if `AccrualExact`. -/
theorem accrual_exact (h : Bucket c) (he : 0 ≤ now.toInt - c.lastTokenMon.toInt ∧
      now.toInt - c.lastTokenMon.toInt < 2 ^ 63) :
    ((accrueTokensLocked now c).tokens.toInt = min c.burst.toInt
        (c.tokens.toInt + c.rate.toInt * (now.toInt - c.lastTokenMon.toInt) / 10 ^ 9) ∧
      0 ≤ (accrueTokensLocked now c).tokens.toInt ∧
      (accrueTokensLocked now c).tokens.toInt ≤ c.burst.toInt ∧
      c.tokens.toInt ≤ (accrueTokensLocked now c).tokens.toInt) ↔ AccrualExact now c := by
  have htokens := h.tokens
  have helapsed : (now - c.lastTokenMon).toInt = now.toInt - c.lastTokenMon.toInt :=
    toInt_sub_exact (by omega) (by omega)
  have hgain : 0 ≤ c.rate.toInt * (now.toInt - c.lastTokenMon.toInt) :=
    Int.mul_nonneg h.rate.le he.1
  -- the other three parts follow from the first
  rw [and_iff_left_of_imp fun heq => by rw [heq]; omega]
  unfold accrueTokensLocked AccrualExact
  rw [if_neg (not_rate_le h.rate)]
  dsimp only
  have hzero : now - c.lastTokenMon ≤ 0 ↔ now.toInt - c.lastTokenMon.toInt = 0 := by
    rw [Int64.le_iff_toInt_le, helapsed, Int64.toInt_zero]
    omega
  have hpast : now - c.lastTokenMon ≥ (c.burst / maxI64 c.rate 1 + 1) * nsPerSec ↔
      Int.bmod ((c.burst.toInt / c.rate.toInt + 1) * 10 ^ 9) (2 ^ 64) ≤
        now.toInt - c.lastTokenMon.toInt := by
    rw [ge_iff_le, Int64.le_iff_toInt_le, fullRefillNs_wraps h, helapsed]
  have hfine := fine_tokens h (e := now - c.lastTokenMon) (by omega)
  rw [helapsed] at hfine
  split
  · rename_i hnone
    rw [hzero] at hnone
    refine iff_of_true ?_ (.inl hnone)
    show c.tokens.toInt = _
    rw [hnone, Int.mul_zero]
    omega
  · rename_i hsome
    rw [hzero] at hsome
    dsimp only
    split
    · rename_i hfull
      rw [hpast] at hfull
      omega
    · rename_i hfull
      rw [hpast] at hfull
      rw [hfine]
      omega

end

/-- A cell that has drawn nothing yet, its clock at zero. -/
def cellOf (rate burst tokens : Int64) : Cell :=
  { rate, burst, tokens, lastTokenMon := 0, chunk := 100, lowWatermark := 25 }

/-- A bucket of five with five a second, almost empty, half a second later. -/
theorem accrual_exact_five : (accrueTokensLocked 500000000 (cellOf 5 5 1)).tokens.toInt = 3 :=
  ((@accrual_exact 500000000 (cellOf 5 5 1) ⟨by decide, by decide, by decide⟩ (by decide)).mpr
    (.inr (.inr (by decide)))).1

/-- A bucket of 10^10 with 10^10 a second holds five; a second later it is more than eight thousand
million in debt. -/
theorem accrual_wraps :
    (accrueTokensLocked 1000000000 (cellOf 10000000000 10000000000 5)).tokens = -8446744068 := by
  decide

/-! ## A run of spends -/

def reachesGate (n now : Int64) (c : Cell) : Bool := !(n ≤ 0) && !c.closed && !fenced now c

/-- The cell after a run of calls, each an amount and a reading of the clock. -/
def run (calls : List (Int64 × Int64)) (c : Cell) : Cell :=
  calls.foldl (fun c call => (spend call.1 call.2 c).cell) c

def gained (n now : Int64) (c : Cell) : Int :=
  if reachesGate n now c then (accrueTokensLocked now c).tokens.toInt - c.tokens.toInt else 0

/-- The part of a token, in billionths, that a call rounds away. -/
def lost (n now : Int64) (c : Cell) : Int :=
  if reachesGate n now c then c.rate.toInt * (now.toInt - c.lastTokenMon.toInt) % 10 ^ 9 else 0

def accrued : List (Int64 × Int64) → Cell → Int
  | [], _ => 0
  | call :: calls, c => gained call.1 call.2 c + accrued calls (spend call.1 call.2 c).cell

def dropped : List (Int64 × Int64) → Cell → Int
  | [], _ => 0
  | call :: calls, c => lost call.1 call.2 c + dropped calls (spend call.1 call.2 c).cell

/-- The readings do not go back, nothing overflows, and no accrual fills the bucket. -/
def Unsaturated : List (Int64 × Int64) → Cell → Prop
  | [], _ => True
  | call :: calls, c =>
    (reachesGate call.1 call.2 c = true → AccrualFits call.2 c ∧
      (accrueTokensLocked call.2 c).tokens.toInt < c.burst.toInt) ∧
    Unsaturated calls (spend call.1 call.2 c).cell

structure SameBucket (c c' : Cell) : Prop where
  rate : c'.rate = c.rate
  burst : c'.burst = c.burst
  tokens : c'.tokens = c.tokens
  stamp : c'.lastTokenMon = c.lastTokenMon

section
variable {n now : Int64} {c : Cell}

theorem promoteLocked_bucket (now : Int64) (c : Cell) : SameBucket c (promoteLocked now c) := by
  unfold promoteLocked
  dsimp only
  split <;> exact ⟨rfl, rfl, rfl, rfl⟩

/-- Behind the gate tokens go only with units. -/
theorem serve_bucket (n now : Int64) (c : Cell) :
    (serve n now c).cell.rate = c.rate ∧ (serve n now c).cell.burst = c.burst ∧
      (serve n now c).cell.lastTokenMon = c.lastTokenMon ∧
      ((serve n now c).cell.tokens = c.tokens ∨ (serve n now c).cell.tokens = c.tokens - n) := by
  obtain ⟨hrate, hburst, htokens, hstamp⟩ := promoteLocked_bucket now c
  unfold serve
  dsimp only
  split
  · split
    · refine ⟨hrate, hburst, hstamp, ?_⟩
      dsimp only
      split
      · exact .inr (by rw [htokens])
      · exact .inl htokens
    · exact ⟨hrate, hburst, hstamp, .inl htokens⟩
  · exact ⟨hrate, hburst, hstamp, .inl htokens⟩

/-- Accruing touches tokens only. -/
theorem accrueTokensLocked_bucket (h : 0 < c.rate.toInt) (now : Int64) :
    (accrueTokensLocked now c).rate = c.rate ∧ (accrueTokensLocked now c).burst = c.burst ∧
      (accrueTokensLocked now c).lastTokenMon = now := by
  unfold accrueTokensLocked
  rw [if_neg (not_rate_le h)]
  dsimp only
  split <;> exact ⟨rfl, rfl, rfl⟩

/-- A call that does not come to the gate leaves the bucket alone. -/
theorem spend_away (h : reachesGate n now c = false) : SameBucket c (spend n now c).cell := by
  unfold spend
  split
  · exact ⟨rfl, rfl, rfl, rfl⟩
  rename_i hn
  split
  · exact ⟨rfl, rfl, rfl, rfl⟩
  rename_i hclosed
  split
  · exact ⟨rfl, rfl, rfl, rfl⟩
  rename_i hfence
  simp [reachesGate, hn, hclosed, hfence] at h

/-- A call that comes to the gate accrues, and takes at most what it found. -/
theorem spend_gate (hrate : 0 < c.rate.toInt) (h : reachesGate n now c = true) :
    (spend n now c).cell.rate = c.rate ∧ (spend n now c).cell.burst = c.burst ∧
      (spend n now c).cell.lastTokenMon = now ∧
      ((spend n now c).cell.tokens = (accrueTokensLocked now c).tokens ∨
        0 < n.toInt ∧ n.toInt ≤ (accrueTokensLocked now c).tokens.toInt ∧
          (spend n now c).cell.tokens = (accrueTokensLocked now c).tokens - n) := by
  simp only [reachesGate, Bool.and_eq_true, Bool.not_eq_true', decide_eq_false_iff_not] at h
  obtain ⟨⟨hn, hclosed⟩, hfence⟩ := h
  obtain ⟨hr, hb, hs⟩ := accrueTokensLocked_bucket hrate now
  unfold spend
  rw [if_neg hn, if_neg (by simp [hclosed]), if_neg (by simp [hfence])]
  dsimp only
  split
  · exact ⟨hr, hb, hs, .inl rfl⟩
  · rename_i hgate
    obtain ⟨hr', hb', hs', htokens⟩ := serve_bucket n now (accrueTokensLocked now c)
    refine ⟨hr'.trans hr, hb'.trans hb, hs'.trans hs, ?_⟩
    rcases htokens with heq | heq
    · exact .inl heq
    · have hpos : (accrueTokensLocked now c).rate > 0 := pos_iff_toInt.mpr (by rw [hr]; exact hrate)
      have hle : ¬ (accrueTokensLocked now c).tokens < n := fun hlt => hgate ⟨hpos, hlt⟩
      rw [Int64.le_iff_toInt_le, Int64.toInt_zero] at hn
      rw [Int64.lt_iff_toInt_lt] at hle
      exact .inr ⟨by omega, by omega, heq⟩

/-- One call: what it accrues and what it loses make up what the rate gives until the stamp. -/
theorem spend_accounts (h : Bucket c) (hfits : reachesGate n now c = true → AccrualFits now c ∧
      (accrueTokensLocked now c).tokens.toInt < c.burst.toInt) :
    Bucket (spend n now c).cell ∧ (spend n now c).cell.rate = c.rate ∧
      10 ^ 9 * gained n now c + lost n now c =
        c.rate.toInt * ((spend n now c).cell.lastTokenMon.toInt - c.lastTokenMon.toInt) := by
  cases hgate : reachesGate n now c with
  | false =>
    obtain ⟨hrate, hburst, htokens, hstamp⟩ := spend_away hgate
    refine ⟨⟨?_, ?_, ?_⟩, hrate, ?_⟩
    · rw [hrate]; exact h.rate
    · rw [hburst]; exact h.burst
    · rw [htokens, hburst]; exact h.tokens
    · simp [gained, lost, hgate, hstamp]
  | true =>
    obtain ⟨hfit, hbelow⟩ := hfits hgate
    obtain ⟨hrate, hburst, hstamp, htokens⟩ := spend_gate h.rate hgate
    have hexact := accrueTokensLocked_tokens h hfit
    have hold := h.tokens
    have hgain : 0 ≤ c.rate.toInt * (now.toInt - c.lastTokenMon.toInt) :=
      Int.mul_nonneg h.rate.le (by have := hfit.elapsed; omega)
    refine ⟨⟨?_, ?_, ?_⟩, hrate, ?_⟩
    · rw [hrate]; exact h.rate
    · rw [hburst]; exact h.burst
    · rw [hburst]
      rcases htokens with heq | ⟨hpos, hle, heq⟩
      · rw [heq]
        omega
      · have hlt := (accrueTokensLocked now c).tokens.toInt_lt
        rw [heq, toInt_sub_exact (by omega) (by omega)]
        omega
    · rw [hstamp, gained, lost, if_pos hgate, if_pos hgate, hexact]
      omega

/-- Over a run, what is accrued and what is lost make up what the rate gives until the last
stamp. -/
theorem run_accounts {calls : List (Int64 × Int64)} (h : Bucket c) (hrun : Unsaturated calls c) :
    Bucket (run calls c) ∧ 10 ^ 9 * accrued calls c + dropped calls c =
      c.rate.toInt * ((run calls c).lastTokenMon.toInt - c.lastTokenMon.toInt) := by
  induction calls generalizing c with
  | nil => exact ⟨h, by simp [accrued, dropped, run]⟩
  | cons call calls ih =>
    obtain ⟨hfits, hrest⟩ := hrun
    obtain ⟨hbucket, hrate, hone⟩ := spend_accounts h hfits
    obtain ⟨hend, hsum⟩ := ih hbucket hrest
    refine ⟨hend, ?_⟩
    rw [hrate] at hsum
    have hsplit : c.rate.toInt * ((run (call :: calls) c).lastTokenMon.toInt -
        c.lastTokenMon.toInt) =
        c.rate.toInt * ((run calls (spend call.1 call.2 c).cell).lastTokenMon.toInt -
          (spend call.1 call.2 c).cell.lastTokenMon.toInt) +
        c.rate.toInt * ((spend call.1 call.2 c).cell.lastTokenMon.toInt -
          c.lastTokenMon.toInt) := by
      show c.rate.toInt * ((run calls (spend call.1 call.2 c).cell).lastTokenMon.toInt - _) = _
      ring
    rw [accrued, dropped, hsplit]
    omega

theorem Unsaturated.of_append {calls calls' : List (Int64 × Int64)}
    (h : Unsaturated (calls ++ calls') c) : Unsaturated calls c := by
  induction calls generalizing c with
  | nil => trivial
  | cons call calls ih => exact ⟨h.1, ih h.2⟩

/-- Node pacing. Over a run of calls that never fills the bucket, from a cell whose last accrual
was at `t₀` to a last call at `t` that comes to the gate, the tokens accrued are at most one short
of what the rate gives for the whole time exactly when the fractions the calls round away are at
most one token and the fraction the whole time leaves. -/
theorem node_pacing {calls : List (Int64 × Int64)} (h : Bucket c)
    (hrun : Unsaturated (calls ++ [(n, now)]) c)
    (hgate : reachesGate n now (run calls c) = true) :
    c.rate.toInt * (now.toInt - c.lastTokenMon.toInt) / 10 ^ 9 - 1
        ≤ accrued (calls ++ [(n, now)]) c ↔
      dropped (calls ++ [(n, now)]) c ≤
        10 ^ 9 + c.rate.toInt * (now.toInt - c.lastTokenMon.toInt) % 10 ^ 9 := by
  obtain ⟨-, hsum⟩ := run_accounts h hrun
  obtain ⟨hbucket, -⟩ := run_accounts h hrun.of_append
  have hlast : (run (calls ++ [(n, now)]) c).lastTokenMon = now := by
    rw [run, List.foldl_append]
    exact (spend_gate hbucket.rate hgate).2.2.1
  rw [hlast] at hsum
  omega

end

/-- Two calls half a second apart lose half a token each, and what is left is the one token the
bound allows to be missing. -/
theorem node_pacing_twice :
    accrued ([(1, 500000000)] ++ [(1, 1000000000)]) (cellOf 1 10 0) = 0 ∧
      (cellOf 1 10 0).rate.toInt * ((1000000000 : Int64).toInt -
          (cellOf 1 10 0).lastTokenMon.toInt) / 10 ^ 9 - 1
        ≤ accrued ([(1, 500000000)] ++ [(1, 1000000000)]) (cellOf 1 10 0) := by
  have hrun : Unsaturated ([(1, 500000000)] ++ [(1, 1000000000)]) (cellOf 1 10 0) :=
    ⟨fun _ => ⟨⟨by decide, by decide, by decide, by decide⟩, by decide⟩,
      fun _ => ⟨⟨by decide, by decide, by decide, by decide⟩, by decide⟩, trivial⟩
  exact ⟨by decide, (node_pacing ⟨by decide, by decide, by decide⟩ hrun (by decide)).mpr
    (by decide)⟩

/-- A token a second, and three calls a nanosecond less than a second apart: almost three tokens
are due, and none is ever accrued. -/
theorem pacing_starves :
    Unsaturated [(1, 999999999), (1, 1999999998), (1, 2999999997)] (cellOf 1 10 0) ∧
      accrued [(1, 999999999), (1, 1999999998), (1, 2999999997)] (cellOf 1 10 0) = 0 ∧
      (cellOf 1 10 0).rate.toInt * (2999999997 : Int64).toInt / 10 ^ 9 - 1 = 1 := by
  refine ⟨⟨fun _ => ?_, fun _ => ?_, fun _ => ?_, trivial⟩, by decide, by decide⟩ <;>
    exact ⟨⟨by decide, by decide, by decide, by decide⟩, by decide⟩

/-! ## Refills -/

structure DrawResult where
  granted : Int64
  grantedMs : Int64
  ttlMs : Int64
  selfGuardMs : Int64
  maxPauseMs : Int64
  deriving DecidableEq, Repr

/-- Why a draw fails: its lease id is settled, or anything else. -/
inductive DrawErr where
  | settled
  | other
  deriving DecidableEq, Repr

/-- What a refill meets: whether its report arrives, the outcome of each draw and the wall clock
after it, and the reading of the cell's clock when a chunk is installed. -/
structure World where
  reported : Bool
  draw : Nat → Except DrawErr DrawResult
  wallNow : Nat → Int64
  now : Int64

def makeLeaseID (holder : Bytes) (nonce : UInt64) : Bytes := holder ++ u64 nonce

/-- The freshness gate: the grant was longer on its way than its guard allows. -/
def stale (wall : Int64) (gr : DrawResult) : Bool :=
  gr.ttlMs > 0 && wall - gr.grantedMs > gr.selfGuardMs

/-- Install a drawn chunk. Only here does the nonce move. -/
def install (leaseID : Bytes) (gr : DrawResult) (nonce : UInt64) (now : Int64) (c : Cell) : Cell :=
  let deadline :=
    if gr.ttlMs > 0 then now + (gr.ttlMs - gr.selfGuardMs) * nsPerMs else maxMonoDeadline
  promoteLocked now { c with
    next := some { remaining := gr.granted, amount := gr.granted, deadlineMon := deadline, leaseID }
    maxPauseNs := if gr.maxPauseMs > 0 then gr.maxPauseMs * nsPerMs else c.maxPauseNs
    selfGuardMs := gr.selfGuardMs
    ttlMs := gr.ttlMs
    lastSeenMon := now
    nonce := nonce + 1 }

inductive Verdict where
  /-- The id is settled or its grant stale: the next draw is under a new one. -/
  | rejected
  | gaveUp
  | installed
  deriving DecidableEq, Repr

/-- The draws of a refill, `left` of them at most, each with its lease id and what became of it. -/
def refillLoop (w : World) : Nat → Nat → UInt64 → Cell → Cell × List (Bytes × Verdict)
  | 0, _, _, c => (c, [])
  | left + 1, attempt, nonce, c =>
    let leaseID := makeLeaseID c.holder nonce
    let retry :=
      let r := refillLoop w left (attempt + 1) (nonce + 1) c
      (r.1, (leaseID, .rejected) :: r.2)
    match w.draw attempt with
    | .error .settled => retry
    | .error .other => (c, [(leaseID, .gaveUp)])
    | .ok gr =>
      if gr.granted ≤ 0 then (c, [(leaseID, .gaveUp)])
      else if stale (w.wallNow attempt) gr then retry
      else (install leaseID gr nonce w.now c, [(leaseID, .installed)])

/-- Attest the spend of the chunk that is being drained. -/
def attest (w : World) (c : Cell) : Cell :=
  match c.cur with
  | some ch =>
    if ch.leaseID ≠ [] ∧ ch.spent > ch.reported ∧ w.reported then
      { c with cur := some { ch with reported := ch.spent } }
    else c
  | none => c

/-- One refill, with the draws it made; nothing while a chunk is buffered. -/
def refillOnce (w : World) (c : Cell) : Cell × List (Bytes × Verdict) :=
  if c.next.isSome then (c, [])
  else refillLoop w maxRefillAttempts 0 c.nonce (attest w c)

/-- The answer to a draw rejects its id: settled, or granted too long ago. -/
def World.rejects (w : World) (attempt : Nat) : Bool :=
  match w.draw attempt with
  | .error .settled => true
  | .error .other => false
  | .ok gr => !(gr.granted ≤ 0) && stale (w.wallNow attempt) gr

def World.brings (w : World) (attempt : Nat) : Bool :=
  match w.draw attempt with
  | .error _ => false
  | .ok gr => !(gr.granted ≤ 0) && !stale (w.wallNow attempt) gr

/-- If the first draw is rejected, then one of the four brings a chunk, all before it rejected. -/
def World.Recovers (w : World) : Prop :=
  w.rejects 0 = true →
    ∃ k < maxRefillAttempts, (∀ j < k, w.rejects j = true) ∧ w.brings k = true

def DrawnIn (holder : Bytes) (lo hi : Nat) (id : Bytes) : Prop :=
  ∃ k : UInt64, lo ≤ k.toNat ∧ k.toNat < hi ∧ id = makeLeaseID holder k

theorem makeLeaseID_inj {holder : Bytes} {j k : UInt64}
    (h : makeLeaseID holder j = makeLeaseID holder k) : j = k :=
  u64_inj (List.append_cancel_left h)

theorem DrawnIn.disjoint {holder id : Bytes} {lo mid hi : Nat} (h : DrawnIn holder lo mid id) :
    ¬ DrawnIn holder mid hi id := by
  rintro ⟨j, hj, -, hid⟩
  obtain ⟨k, -, hk, hid'⟩ := h
  rw [makeLeaseID_inj (hid'.symm.trans hid)] at hk
  omega

theorem DrawnIn.mono {holder id : Bytes} {lo lo' hi hi' : Nat} (h : DrawnIn holder lo hi id)
    (hlo : lo' ≤ lo) (hhi : hi ≤ hi') : DrawnIn holder lo' hi' id := by
  obtain ⟨k, hk, hk', hid⟩ := h
  exact ⟨k, by omega, by omega, hid⟩

/-- What a refill does to the nonce: it draws from there on, and either installs a chunk and moves
the nonce past all it drew, or leaves it where it was. -/
structure Draws (c : Cell) (start left : Nat) (r : Cell × List (Bytes × Verdict)) : Prop where
  holder : r.1.holder = c.holder
  ids : ∀ d ∈ r.2, DrawnIn c.holder start (start + left) d.1
  ends : (r.1.nonce = c.nonce ∧ ∀ d ∈ r.2, d.2 ≠ .installed) ∨
    start ≤ r.1.nonce.toNat ∧ r.1.nonce.toNat ≤ start + left ∧
      ∀ d ∈ r.2, DrawnIn c.holder start r.1.nonce.toNat d.1

section
variable {w : World} {c : Cell}

theorem promoteLocked_nonce (now : Int64) (c : Cell) :
    (promoteLocked now c).nonce = c.nonce ∧ (promoteLocked now c).holder = c.holder := by
  unfold promoteLocked
  dsimp only
  split <;> exact ⟨rfl, rfl⟩

/-- Each attempt draws a lease id of its own. -/
theorem refillLoop_draws {left : Nat} {attempt : Nat} {nonce : UInt64}
    (hfit : nonce.toNat + left < 2 ^ 64) :
    Draws c nonce.toNat left (refillLoop w left attempt nonce c) := by
  induction left generalizing attempt nonce with
  | zero => exact ⟨rfl, nofun, .inl ⟨rfl, nofun⟩⟩
  | succ left ih =>
    have hsucc : (nonce + 1).toNat = nonce.toNat + 1 := by
      have hone : (1 : UInt64).toNat = 1 := rfl
      rw [UInt64.toNat_add, hone]
      omega
    have hhere : ∀ hi, nonce.toNat < hi →
        DrawnIn c.holder nonce.toNat hi (makeLeaseID c.holder nonce) :=
      fun hi h => ⟨nonce, le_refl _, h, rfl⟩
    have hgiveUp : Draws c nonce.toNat (left + 1)
        (c, [(makeLeaseID c.holder nonce, .gaveUp)]) := by
      refine ⟨rfl, fun d hd => ?_, .inl ⟨rfl, fun d hd => ?_⟩⟩ <;>
        rw [List.mem_singleton.mp hd]
      · exact hhere _ (by omega)
      · nofun
    have hretry : Draws c nonce.toNat (left + 1)
        ((refillLoop w left (attempt + 1) (nonce + 1) c).1,
          (makeLeaseID c.holder nonce, .rejected) ::
            (refillLoop w left (attempt + 1) (nonce + 1) c).2) := by
      obtain ⟨hholder, hids, hends⟩ := @ih (attempt + 1) (nonce + 1) (by omega)
      rw [hsucc] at hids hends
      refine ⟨hholder, fun d hd => ?_, ?_⟩
      · rcases List.mem_cons.mp hd with rfl | hd
        · exact hhere _ (by omega)
        · exact (hids d hd).mono (by omega) (by omega)
      · rcases hends with ⟨hsame, hnone⟩ | ⟨hlo, hhi, hbelow⟩
        · refine .inl ⟨hsame, fun d hd => ?_⟩
          rcases List.mem_cons.mp hd with rfl | hd
          · nofun
          · exact hnone d hd
        · refine .inr ⟨by dsimp only; omega, by dsimp only; omega, fun d hd => ?_⟩
          rcases List.mem_cons.mp hd with rfl | hd
          · exact hhere _ (by dsimp only; omega)
          · exact (hbelow d hd).mono (by omega) (le_refl _)
    unfold refillLoop
    dsimp only
    split
    · exact hretry
    · exact hgiveUp
    · rename_i gr _
      split
      · exact hgiveUp
      split
      · exact hretry
      · have hn := promoteLocked_nonce w.now
        refine ⟨(hn _).2, fun d hd => ?_, .inr ?_⟩
        · rw [List.mem_singleton.mp hd]
          exact hhere _ (by omega)
        · have hnonce : (install (makeLeaseID c.holder nonce) gr nonce w.now c).nonce =
              nonce + 1 := (hn _).1
          dsimp only
          rw [hnonce, hsucc]
          refine ⟨by omega, by omega, fun d hd => ?_⟩
          rw [List.mem_singleton.mp hd]
          exact hhere _ (by omega)

theorem attest_nonce (w : World) (c : Cell) :
    (attest w c).nonce = c.nonce ∧ (attest w c).holder = c.holder := by
  unfold attest
  split
  · split <;> exact ⟨rfl, rfl⟩
  · exact ⟨rfl, rfl⟩

theorem refillOnce_draws (hfit : c.nonce.toNat + maxRefillAttempts < 2 ^ 64) :
    Draws c c.nonce.toNat maxRefillAttempts (refillOnce w c) := by
  unfold refillOnce
  split
  · exact ⟨rfl, nofun, .inl ⟨rfl, nofun⟩⟩
  · obtain ⟨hnonce, hholder⟩ := attest_nonce w c
    have h : Draws (attest w c) c.nonce.toNat maxRefillAttempts
        (refillLoop w maxRefillAttempts 0 c.nonce (attest w c)) := refillLoop_draws hfit
    obtain ⟨hholder', hids, hends⟩ := h
    rw [hholder] at hholder' hids hends
    rw [hnonce] at hends
    exact ⟨hholder', hids, hends⟩

theorem spend_nonce (n now : Int64) (c : Cell) :
    (spend n now c).cell.nonce = c.nonce ∧ (spend n now c).cell.holder = c.holder := by
  have haccrue : (accrueTokensLocked now c).nonce = c.nonce ∧
      (accrueTokensLocked now c).holder = c.holder := by
    unfold accrueTokensLocked
    split
    · exact ⟨rfl, rfl⟩
    dsimp only
    split <;> exact ⟨rfl, rfl⟩
  obtain ⟨hn, hh⟩ := promoteLocked_nonce now (accrueTokensLocked now c)
  unfold spend
  split
  · exact ⟨rfl, rfl⟩
  split
  · exact ⟨rfl, rfl⟩
  split
  · exact ⟨rfl, rfl⟩
  dsimp only
  split
  · exact haccrue
  unfold serve
  dsimp only
  split
  · split <;> exact ⟨hn.trans haccrue.1, hh.trans haccrue.2⟩
  · exact ⟨hn.trans haccrue.1, hh.trans haccrue.2⟩

end

inductive Act where
  | spend (n now : Int64)
  | refill (w : World)

def Act.apply : Act → Cell → Cell × List (Bytes × Verdict)
  | .spend n now, c => ((Sdk.spend n now c).cell, [])
  | .refill w, c => refillOnce w c

def acts (as : List Act) (c : Cell) : Cell := as.foldl (fun c a => (a.apply c).1) c

/-- Every refill of a run that draws at all meets answers from which it recovers. -/
def AllRecover : List Act → Cell → Prop
  | [], _ => True
  | .spend n now :: as, c => AllRecover as ((Act.spend n now).apply c).1
  | .refill w :: as, c => (c.next = none → w.Recovers) ∧ AllRecover as ((Act.refill w).apply c).1

/-- The lease ids that the refills of a run saw rejected. -/
def rejectedIn : List Act → Cell → List Bytes
  | [], _ => []
  | a :: as, c =>
    ((a.apply c).2.filter fun d => d.2 = .rejected).map (·.1) ++ rejectedIn as (a.apply c).1

section
variable {c : Cell}

/-- One act: the nonce moves up, by no more than a refill's draws. -/
theorem Act.apply_nonce (a : Act) (hfit : c.nonce.toNat + 4 < 2 ^ 64) :
    (a.apply c).1.holder = c.holder ∧ c.nonce.toNat ≤ (a.apply c).1.nonce.toNat ∧
      (a.apply c).1.nonce.toNat ≤ c.nonce.toNat + 4 := by
  cases a with
  | spend n now =>
    obtain ⟨hn, hh⟩ := spend_nonce n now c
    refine ⟨hh, ?_⟩
    show _ ≤ (Sdk.spend n now c).cell.nonce.toNat ∧ (Sdk.spend n now c).cell.nonce.toNat ≤ _
    rw [hn]
    omega
  | refill w =>
    obtain ⟨hholder, -, hends⟩ := refillOnce_draws (w := w) hfit
    refine ⟨hholder, ?_⟩
    show _ ≤ (refillOnce w c).1.nonce.toNat ∧ (refillOnce w c).1.nonce.toNat ≤ _
    rcases hends with ⟨hsame, -⟩ | ⟨hlo, hhi, -⟩
    · rw [hsame]
      omega
    · exact ⟨hlo, hhi⟩

/-- Nonces grow along a run. -/
theorem acts_nonce {as : List Act} (hfit : c.nonce.toNat + 4 * as.length < 2 ^ 64) :
    (acts as c).holder = c.holder ∧ c.nonce.toNat ≤ (acts as c).nonce.toNat ∧
      (acts as c).nonce.toNat ≤ c.nonce.toNat + 4 * as.length := by
  induction as generalizing c with
  | nil => exact ⟨rfl, le_refl _, le_refl _⟩
  | cons a as ih =>
    rw [List.length_cons] at hfit ⊢
    obtain ⟨hholder, hlo, hhi⟩ := a.apply_nonce (c := c) (by omega)
    obtain ⟨hholder', hlo', hhi'⟩ := @ih (a.apply c).1 (by omega)
    exact ⟨hholder'.trans hholder, hlo.trans hlo', by
      show (acts as (a.apply c).1).nonce.toNat ≤ _
      omega⟩

/-- A chunk within reach behind rejected draws is installed. -/
theorem refillLoop_installs {w : World} {left attempt k : Nat} {nonce : UInt64}
    (hlo : attempt ≤ k) (hhi : k < attempt + left)
    (hrejects : ∀ j, attempt ≤ j → j < k → w.rejects j = true) (hbrings : w.brings k = true) :
    ∃ d ∈ (refillLoop w left attempt nonce c).2, d.2 = .installed := by
  induction left generalizing attempt nonce with
  | zero => omega
  | succ left ih =>
    unfold refillLoop
    dsimp only
    rcases Nat.eq_or_lt_of_le hlo with rfl | hlt
    · unfold World.brings at hbrings
      split at hbrings
      · cases hbrings
      · rename_i gr hdraw
        simp only [Bool.and_eq_true, Bool.not_eq_true', decide_eq_false_iff_not] at hbrings
        rw [hdraw]
        dsimp only
        rw [if_neg hbrings.1, if_neg (by simp [hbrings.2])]
        exact ⟨_, List.mem_cons_self, rfl⟩
    · have hhere := hrejects attempt (le_refl _) hlt
      obtain ⟨d, hd, hins⟩ := @ih (attempt + 1) (nonce + 1) hlt (by omega)
        fun j hj => hrejects j (by omega)
      unfold World.rejects at hhere
      split at hhere
      · exact ⟨d, List.mem_cons_of_mem _ hd, hins⟩
      · cases hhere
      · simp only [Bool.and_eq_true, Bool.not_eq_true', decide_eq_false_iff_not] at hhere
        rw [if_neg hhere.1, if_pos hhere.2]
        exact ⟨d, List.mem_cons_of_mem _ hd, hins⟩

/-- A refill whose answers recover has moved the nonce past every id it saw rejected. -/
theorem refillOnce_past {w : World} {id : Bytes} (hw : c.next = none → w.Recovers)
    (hfit : c.nonce.toNat + 4 < 2 ^ 64) (hid : (id, .rejected) ∈ (refillOnce w c).2) :
    DrawnIn c.holder c.nonce.toNat (refillOnce w c).1.nonce.toNat id := by
  have hdraws := refillOnce_draws (w := w) (c := c) hfit
  have hnext : c.next = none := by
    cases hn : c.next with
    | none => rfl
    | some ch => simp [refillOnce, hn] at hid
  have hloop : refillOnce w c = refillLoop w 4 0 c.nonce (attest w c) := by
    simp [refillOnce, hnext, maxRefillAttempts]
  have hfirst : w.rejects 0 = true := by
    -- a draw that is not rejected is the last
    rw [hloop, refillLoop] at hid
    unfold World.rejects
    grind
  obtain ⟨k, hk, hrejects, hbrings⟩ := hw hnext hfirst
  obtain ⟨d, hd, hins⟩ := @refillLoop_installs (attest w c) w 4 0 k c.nonce (Nat.zero_le k)
    (by simpa [maxRefillAttempts] using hk) (fun j _ hj => hrejects j hj) hbrings
  rw [← hloop] at hd
  rcases hdraws.ends with ⟨-, hnone⟩ | ⟨-, -, hbelow⟩
  · exact absurd hins (hnone d hd)
  · exact hbelow _ hid

/-- What a run has seen rejected lies behind its nonce. -/
theorem rejectedIn_past {as : List Act} (has : AllRecover as c)
    (hfit : c.nonce.toNat + 4 * as.length < 2 ^ 64) :
    ∀ id ∈ rejectedIn as c, DrawnIn c.holder c.nonce.toNat (acts as c).nonce.toNat id := by
  induction as generalizing c with
  | nil => nofun
  | cons a as ih =>
    rw [List.length_cons] at hfit
    obtain ⟨hholder, hlo, hhi⟩ := a.apply_nonce (c := c) (by omega)
    have hrest : AllRecover as (a.apply c).1 := by
      cases a with
      | spend n now => exact has
      | refill w => exact has.2
    obtain ⟨-, hlo', -⟩ := @acts_nonce (a.apply c).1 as (by omega)
    intro id hid
    rcases List.mem_append.mp hid with hid | hid
    · obtain ⟨⟨_, v⟩, hd, rfl⟩ := List.mem_map.mp hid
      obtain ⟨hd, hv⟩ := List.mem_filter.mp hd
      obtain rfl : v = .rejected := by simpa using hv
      cases a with
      | spend n now => cases hd
      | refill w => exact (refillOnce_past has.1 (by omega) hd).mono (le_refl _) hlo'
    · have h := ih hrest (by omega) id hid
      rw [hholder] at h
      exact h.mono hlo (le_refl _)

/-- Refills make progress. Take any run of spends and refills, with any outcome of every draw, in
which each refill whose first id is rejected comes to a chunk within its four draws, and that is
shorter than the nonce is wide. No id that the run saw rejected is drawn by the next refill, and
that refill, unless a chunk is buffered, draws at least one id that was never rejected. -/
theorem refill_progress {as : List Act} (has : AllRecover as c)
    (hfit : c.nonce.toNat + 4 * (as.length + 1) < 2 ^ 64) (w : World) :
    (∀ id ∈ rejectedIn as c, ∀ v, (id, v) ∉ (refillOnce w (acts as c)).2) ∧
      ((acts as c).next = none →
        ∃ id v, (id, v) ∈ (refillOnce w (acts as c)).2 ∧ id ∉ rejectedIn as c) := by
  obtain ⟨hholder, -, hhi⟩ := @acts_nonce c as (by omega)
  have hdrawn := (refillOnce_draws (w := w) (c := acts as c) (show _ + 4 < _ by omega)).ids
  rw [hholder] at hdrawn
  have hnever : ∀ id ∈ rejectedIn as c, ∀ v, (id, v) ∉ (refillOnce w (acts as c)).2 :=
    fun id hid v hagain => (rejectedIn_past has (by omega) id hid).disjoint (hdrawn _ hagain)
  refine ⟨hnever, fun hnext => ?_⟩
  have hsome : ∃ d, d ∈ (refillOnce w (acts as c)).2 := by
    rw [refillOnce, hnext]
    simp only [Option.isSome_none, Bool.false_eq_true, if_false, maxRefillAttempts]
    unfold refillLoop
    dsimp only
    split
    · exact ⟨_, List.mem_cons_self⟩
    · exact ⟨_, List.mem_cons_self⟩
    · split
      · exact ⟨_, List.mem_cons_self⟩
      · split <;> exact ⟨_, List.mem_cons_self⟩
  obtain ⟨⟨id, v⟩, hd⟩ := hsome
  exact ⟨id, v, hd, fun hid => hnever id hid v hd⟩

end

/-- The first id is settled, and the second brings a chunk. -/
def settledFirst : World :=
  { reported := true, wallNow := fun _ => 0, now := 5
    draw := fun attempt => if attempt = 0 then .error .settled
      else .ok { granted := 100, grantedMs := 0, ttlMs := 0, selfGuardMs := 0, maxPauseMs := 0 } }

/-- Once that chunk is spent, the next refill leaves the settled id alone and draws another. -/
theorem refill_progress_settled :
    rejectedIn [.refill settledFirst, .spend 100 6] (cellOf 0 0 0) = [u64 0] ∧
      ∃ id v, (id, v) ∈ (refillOnce settledFirst
        (acts [.refill settledFirst, .spend 100 6] (cellOf 0 0 0))).2 ∧ id ∉ [u64 0] :=
  have hseen : rejectedIn [.refill settledFirst, .spend 100 6] (cellOf 0 0 0) = [u64 0] := by
    decide
  have has : AllRecover [.refill settledFirst, .spend 100 6] (cellOf 0 0 0) :=
    ⟨fun _ _ => ⟨1, by decide, by decide, by decide⟩, trivial⟩
  ⟨hseen, hseen ▸ (refill_progress has (by decide) settledFirst).2 (by decide)⟩

def tombstones : World :=
  { reported := true, draw := fun _ => .error .settled, wallNow := fun _ => 0, now := 5 }

/-- However many refills have been through the first four ids, the next one draws the same four
again. -/
theorem refill_stuck :
    (∀ k, (refillOnce tombstones (acts (List.replicate k (.refill tombstones)) (cellOf 0 0 0))).2 =
      [(u64 0, .rejected), (u64 1, .rejected), (u64 2, .rejected), (u64 3, .rejected)]) ∧
    (refillOnce tombstones (cellOf 0 0 0)).2 =
      [(u64 0, .rejected), (u64 1, .rejected), (u64 2, .rejected), (u64 3, .rejected)] := by
  have hsame : (refillOnce tombstones (cellOf 0 0 0)).1 = cellOf 0 0 0 := by decide
  have hdraws : (refillOnce tombstones (cellOf 0 0 0)).2 =
      [(u64 0, .rejected), (u64 1, .rejected), (u64 2, .rejected), (u64 3, .rejected)] := by decide
  refine ⟨fun k => ?_, hdraws⟩
  have hstay : acts (List.replicate k (.refill tombstones)) (cellOf 0 0 0) = cellOf 0 0 0 := by
    induction k with
    | zero => rfl
    | succ k ih =>
      rw [List.replicate_succ]
      show acts (List.replicate k (.refill tombstones))
        (refillOnce tombstones (cellOf 0 0 0)).1 = _
      rw [hsame, ih]
  rw [hstay, hdraws]

/-! ## What a chunk pays -/

/-- A chunk is spent to its amount at most, and attested no further than it is spent. -/
structure LeaseChunk.Sound (ch : LeaseChunk) : Prop where
  remaining : 0 ≤ ch.remaining.toInt
  amount : ch.spent.toInt + ch.remaining.toInt = ch.amount.toInt
  reported : 0 ≤ ch.reported.toInt ∧ ch.reported.toInt ≤ ch.spent.toInt

def Cell.Sound (c : Cell) : Prop := ∀ ch, ch ∈ c.cur ∨ ch ∈ c.next → ch.Sound

section
variable {c : Cell} {n now : Int64}

theorem Cell.Sound.promoteLocked (h : c.Sound) : (promoteLocked now c).Sound := by
  intro ch hch
  refine h ch ?_
  unfold Sdk.promoteLocked at hch
  grind

/-- Serving from a lease keeps it sound. -/
theorem Cell.Sound.serve (h : c.Sound) (hn : 0 < n.toInt) : (serve n now c).cell.Sound := by
  have hp : (Sdk.promoteLocked now c).Sound := h.promoteLocked
  unfold Sdk.serve
  dsimp only
  split
  · rename_i ch hcur
    split
    · rename_i hle
      obtain ⟨hrem, hsum, hrep⟩ := hp ch (.inl hcur)
      have hmax := ch.amount.toInt_lt
      rw [ge_iff_le, Int64.le_iff_toInt_le] at hle
      rintro x (hx | hx)
      · -- What is taken is there, so neither the sum nor the difference wraps.
        cases hx
        have hspent := toInt_add_exact (a := ch.spent) (b := n) (by omega) (by omega)
        have hleft := toInt_sub_exact (a := ch.remaining) (b := n) (by omega) (by omega)
        constructor <;> simp only [hspent, hleft] <;> omega
      · exact hp x (.inr hx)
    · exact hp
  · exact hp

theorem Cell.Sound.spend (h : c.Sound) : (spend n now c).cell.Sound := by
  have haccrue : (accrueTokensLocked now c).Sound := by
    unfold accrueTokensLocked
    dsimp only
    split
    · exact h
    · split <;> exact h
  unfold Sdk.spend
  dsimp only
  split
  · exact h
  rename_i hn
  split
  · exact h
  split
  · simp [Cell.Sound]
  split
  · exact haccrue
  · exact haccrue.serve (pos_iff_toInt.mp (Int64.not_le.mp hn))

theorem Cell.Sound.refillLoop (h : c.Sound) (w : World) (left attempt : Nat) (nonce : UInt64) :
    (refillLoop w left attempt nonce c).1.Sound := by
  induction left generalizing attempt nonce with
  | zero => exact h
  | succ left ih =>
    unfold Sdk.refillLoop
    dsimp only
    split
    · exact ih _ _
    · exact h
    · rename_i gr _
      split
      · exact h
      rename_i hpos
      split
      · exact ih _ _
      · refine Cell.Sound.promoteLocked fun ch hch => ?_
        rcases hch with hch | hch
        · exact h ch (.inl hch)
        · -- A new chunk has all of its lease left.
          cases hch
          have := pos_iff_toInt.mp (Int64.not_le.mp hpos)
          exact ⟨this.le, Int.zero_add _, Int.le_refl _, Int.le_refl _⟩

theorem Cell.Sound.attest (h : c.Sound) (w : World) : (attest w c).Sound := by
  intro ch hch
  unfold Sdk.attest at hch
  split at hch
  · rename_i cur hcur
    split at hch
    · rcases hch with hch | hch
      · cases hch
        obtain ⟨hrem, hsum, hrep⟩ := h cur (.inl hcur)
        exact ⟨hrem, hsum, hrep.1.trans hrep.2, Int.le_refl _⟩
      · exact h ch (.inr hch)
    · exact h ch hch
  · exact h ch hch

end

/-- However spends and refills follow each other, no chunk pays more than its lease. -/
theorem chunks_sound (as : List Act) (c : Cell) :
    (acts as { c with cur := none, next := none }).Sound := by
  refine List.foldlRecOn as _ (by simp [Cell.Sound]) fun c h a _ => ?_
  cases a with
  | spend n now => exact h.spend
  | refill w =>
    unfold Act.apply refillOnce
    dsimp only
    split
    · exact h
    · exact (h.attest w).refillLoop w _ _ _

end WaveSpan.Sdk
