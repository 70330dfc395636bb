/-
WaveSpan.Collections.Reconcile — a budget whose spend is reset from outside.

A reconcile sets a pool's spend to an external total and leaves its leases alone,
so spend and outstanding leases together may pass the cap. The free bucket is then
empty, and the law a pool keeps is `Covered`: free is what the cap leaves, or
nothing. Reports, expiries, grants and further reconciles keep it. A return does
not: it credits the lease's whole rest, and a pool that is over its cap so gets
quantity to grant again (`return_regrants`).

`Careful` says what must not happen to an over-committed pool. In every run all of
whose commands are careful the law holds at every moment, a pool without leases has
free and spent quantity adding up to its cap, and no grant passes the cap
(`careful_covered`).
-/
import WaveSpan.Collections.Conservation

namespace WaveSpan.Collections

open WaveSpan.Wire WaveSpan.Rows WaveSpan.Prog WaveSpan.Escrow

/-! ## Careful commands -/

/-- Spend and outstanding leases together are past the cap. -/
def Book.Overcommitted (b : Book) : Prop :=
  b.pool.cap.toInt < b.pool.spent.toInt + b.pool.leasedOut.toInt

def LeaseRec.newly (l : LeaseRec) (total : Option Int64) : Int :=
  match total with
  | none => 0
  | some n => max 0 (min n.toInt l.amount.toInt - l.spent.toInt)

/-- A report, return or expiry that takes effect does not carry the spend past the range of an
int64; and on an over-committed pool a returned lease has nothing left, and the lease that is
returned or expired is not the last one. Other commands are free. -/
def Careful (op : BudOp) (L : Ledger) : Prop :=
  match op with
  | .report a => ∀ b l, L.lease? a.leaseID = some (b, l) →
      b.pool.spent.toInt + l.newly (some a.num) < 2 ^ 63
  | .giveBack a => ∀ b l, L.tombs[a.leaseID]? = none → L.lease? a.leaseID = some (b, l) →
      b.pool.spent.toInt + l.newly a.final < 2 ^ 63 ∧
        (b.Overcommitted → l.amount.toInt ≤ l.spent.toInt + l.newly a.final ∧ 1 < b.leases.size)
  | .expire a => ∀ b l, L.tombs[a.leaseID]? = none → L.lease? a.leaseID = some (b, l) →
      l.reclaimNotBeforeMs ≤ a.num →
      b.pool.spent.toInt + (l.amount.toInt - l.spent.toInt) < 2 ^ 63 ∧
        (b.Overcommitted → 1 < b.leases.size)
  | _ => True

/-- What a careful run keeps of a book. -/
structure Regular (b : Book) : Prop where
  covered : Covered b.account
  cap : 0 ≤ b.pool.cap.toInt
  attested : b.pool.spentReported.toInt + b.pool.leasedOut.toInt ≤ b.pool.cap.toInt
  both : b.pool.spent.toInt + b.pool.leasedOut.toInt ≤ 2 * b.pool.cap.toInt
  settled : b.leases = ∅ → b.pool.spent.toInt ≤ b.pool.cap.toInt

section
variable {b : Book} {id : Bytes} {l : LeaseRec}

theorem leases_ne_empty {m : GoMap LeaseRec} (h : m[id]? = some l) : m ≠ ∅ := by
  rintro rfl
  simp at h

/-- Without one of several leases there are some left. -/
theorem erase_ne_empty {m : GoMap LeaseRec} (h : m[id]? = some l) (hsize : 1 < m.size) :
    m.erase id ≠ ∅ := by
  intro hempty
  have hmem : id ∈ m := mem_iff_exists.mpr ⟨l, h⟩
  have herase := congrArg Std.ExtTreeMap.size hempty
  rw [Std.ExtTreeMap.size_erase, if_pos (Std.ExtTreeMap.mem_iff_contains.mp hmem),
    Std.ExtTreeMap.size_empty] at herase
  omega

theorem insert_ne_empty (m : GoMap LeaseRec) : m.insert id l ≠ ∅ :=
  leases_ne_empty Std.ExtTreeMap.getElem?_insert_self

/-- The buckets of a regular book. -/
theorem Regular.bounds (h : Regular b) :
    0 ≤ b.pool.available.toInt ∧ 0 ≤ b.pool.leasedOut.toInt ∧
      (0 ≤ b.pool.spentReported.toInt ∧ b.pool.spentReported.toInt ≤ b.pool.spent.toInt) ∧
      b.pool.available.toInt
        = max 0 (b.pool.cap.toInt - b.pool.spent.toInt - b.pool.leasedOut.toInt) := by
  have hfree := h.covered.free
  have hout := h.covered.out_nonneg
  have hrep := h.covered.reported
  simp only [Book.account] at hfree hout hrep
  omega

/-- A grant keeps a book regular. -/
theorem Regular.allot {g t : Int64} (h : Regular b) (hid : b.leases[id]? = none)
    (hl : l.claim = ⟨g.toInt, 0⟩) (hpos : 0 < g.toInt)
    (hle : g.toInt ≤ b.pool.available.toInt) :
    Regular { pool := takeGrant (accrueTokens b.pool t) g, leases := b.leases.insert id l } ∧
      b.pool.spent.toInt + (b.pool.leasedOut.toInt + g.toInt) ≤ b.pool.cap.toInt := by
  obtain ⟨ha, ho, hs, hfree⟩ := h.bounds
  have hcap := b.pool.cap.toInt_lt
  -- a positive free bucket is what the cap leaves, so the grant stays below it
  have hunder : b.pool.spent.toInt + (b.pool.leasedOut.toInt + g.toInt) ≤ b.pool.cap.toInt := by
    omega
  have hacc : Book.account
        { pool := takeGrant (accrueTokens b.pool t) g, leases := b.leases.insert id l }
      = b.account.allot id g.toInt := allot_exact hl hpos hle ho (by omega)
  have hout := congrArg Account.out hacc
  have hspent := congrArg Account.spent hacc
  have hcap' := congrArg Account.cap hacc
  have hrep := congrArg Account.reported hacc
  simp only [Book.account, Account.allot] at hout hspent hcap' hrep
  refine ⟨⟨?_, ?_, ?_, ?_, fun he => absurd he (insert_ne_empty _)⟩, hunder⟩
  · rw [hacc]
    refine h.covered.allot ?_ hpos hle
    rw [account_claim, hid]
    rfl
  · rw [hcap']; exact h.cap
  · rw [hcap', hout, hrep]; omega
  · rw [hcap', hout, hspent]; omega

/-- Booking spend moves it from the outstanding to the spent bucket. -/
theorem Regular.book {v : Int64} (h : Regular b) (hl : b.leases[id]? = some l)
    (hlo : l.spent.toInt ≤ v.toInt) (hhi : v.toInt ≤ l.amount.toInt)
    (hfit : b.pool.spent.toInt + (v.toInt - l.spent.toInt) < 2 ^ 63) :
    Regular { pool := bookSpend b.pool (v - l.spent),
              leases := b.leases.insert id { l with spent := v } } ∧
      (bookSpend b.pool (v - l.spent)).spent.toInt
          + (bookSpend b.pool (v - l.spent)).leasedOut.toInt
        = b.pool.spent.toInt + b.pool.leasedOut.toInt := by
  obtain ⟨-, ho, hs, -⟩ := h.bounds
  have hc := lease_claim hl
  obtain ⟨h0, -⟩ := h.covered.claim id _ hc
  simp only [LeaseRec.claim] at h0
  have hacc := book_exact h.covered.toClaims hl hlo hhi hfit
  have hout := congrArg Account.out hacc
  have hspent := congrArg Account.spent hacc
  have hrep := congrArg Account.reported hacc
  simp only [Book.account, Account.book, LeaseRec.claim] at hout hspent hrep
  have hboth := h.both
  refine ⟨⟨?_, h.cap, ?_, ?_, fun he => absurd he (insert_ne_empty _)⟩, ?_⟩
  · rw [hacc]
    exact h.covered.book hc hlo hhi
  · have := h.attested
    show (bookSpend b.pool (v - l.spent)).spentReported.toInt
      + (bookSpend b.pool (v - l.spent)).leasedOut.toInt ≤ b.pool.cap.toInt
    omega
  · show (bookSpend b.pool (v - l.spent)).spent.toInt
      + (bookSpend b.pool (v - l.spent)).leasedOut.toInt ≤ 2 * b.pool.cap.toInt
    omega
  · omega

/-- A credit keeps a book regular if it is not over-committed, or if the lease has
nothing left and is not the last one. -/
theorem Regular.credit (h : Regular b) (hl : b.leases[id]? = some l)
    (hok : b.Overcommitted → l.claim.rest = 0 ∧ b.leases.erase id ≠ ∅) :
    Regular { pool := creditRest l b.pool, leases := b.leases.erase id } := by
  obtain ⟨ha, ho, hs, hfree⟩ := h.bounds
  have hc := lease_claim hl
  obtain ⟨hrest, hr0, hrle⟩ := rest_exact h.covered.toClaims hl
  have hcap := b.pool.cap.toInt_lt
  have hlt := b.pool.leasedOut.toInt_lt
  have hzero : b.Overcommitted → l.claim.rest = 0 := fun hover => (hok hover).1
  have hfit : b.pool.available.toInt + l.claim.rest < 2 ^ 63 := by
    by_cases hover : b.Overcommitted
    · have := hzero hover
      have := b.pool.available.toInt_lt
      omega
    · unfold Book.Overcommitted at hover
      omega
  have hacc := credit_exact h.covered.toClaims hl ha hfit
  have hout := congrArg Account.out hacc
  simp only [Book.account, Account.credit] at hout
  have hboth := h.both
  have hlo := h.attested
  refine ⟨?_, h.cap, ?_, ?_, fun he => ?_⟩
  · rw [hacc]
    refine h.covered.credit hc ?_
    by_cases hover : b.Overcommitted
    · exact .inr (hzero hover)
    · exact .inl (not_lt.mp hover)
  · show b.pool.spentReported.toInt + (creditRest l b.pool).leasedOut.toInt ≤ b.pool.cap.toInt
    omega
  · show b.pool.spent.toInt + (creditRest l b.pool).leasedOut.toInt ≤ 2 * b.pool.cap.toInt
    omega
  · show b.pool.spent.toInt ≤ b.pool.cap.toInt
    by_cases hover : b.Overcommitted
    · exact absurd he (hok hover).2
    · unfold Book.Overcommitted at hover
      omega

theorem Regular.debit (h : Regular b) (hl : b.leases[id]? = some l)
    (hfit : b.pool.spent.toInt + l.claim.rest < 2 ^ 63)
    (hok : b.Overcommitted → b.leases.erase id ≠ ∅) :
    Regular { pool := debitRest l b.pool, leases := b.leases.erase id } := by
  obtain ⟨ha, ho, hs, hfree⟩ := h.bounds
  have hc := lease_claim hl
  obtain ⟨hrest, hr0, hrle⟩ := rest_exact h.covered.toClaims hl
  have hacc := debit_exact h.covered.toClaims hl hfit
  have hout := congrArg Account.out hacc
  have hspent := congrArg Account.spent hacc
  simp only [Book.account, Account.debit] at hout hspent
  have hboth := h.both
  have hlo := h.attested
  refine ⟨?_, h.cap, ?_, ?_, fun he => ?_⟩
  · rw [hacc]
    exact h.covered.debit hc
  · show b.pool.spentReported.toInt + (debitRest l b.pool).leasedOut.toInt ≤ b.pool.cap.toInt
    omega
  · show (debitRest l b.pool).spent.toInt + (debitRest l b.pool).leasedOut.toInt
      ≤ 2 * b.pool.cap.toInt
    omega
  · show (debitRest l b.pool).spent.toInt ≤ b.pool.cap.toInt
    by_cases hover : b.Overcommitted
    · exact absurd he (hok hover)
    · unfold Book.Overcommitted at hover
      omega

/-- A reconcile sets the spend between what holders reported and the cap. -/
theorem clampI64_between {v lo hi : Int64} (h : lo.toInt ≤ hi.toInt) :
    lo.toInt ≤ (clampI64 v lo hi).toInt ∧ (clampI64 v lo hi).toInt ≤ hi.toInt := by
  unfold clampI64
  split
  · exact ⟨le_refl _, h⟩
  rename_i hlo
  rw [Int64.lt_iff_toInt_lt] at hlo
  split
  · exact ⟨h, le_refl _⟩
  rename_i hhi
  rw [gt_iff_lt, Int64.lt_iff_toInt_lt] at hhi
  omega

/-- A reconcile resets the account. -/
theorem reset_exact (n : Int64) (hout : 0 ≤ b.pool.leasedOut.toInt)
    (hrep : 0 ≤ b.pool.spentReported.toInt)
    (hatt : b.pool.spentReported.toInt + b.pool.leasedOut.toInt ≤ b.pool.cap.toInt) :
    ∃ target : Int, Book.account { b with pool := reconcilePool b.pool n } =
      b.account.reset target ∧
      b.pool.spentReported.toInt ≤ target ∧ target ≤ b.pool.cap.toInt := by
  have hcap := b.pool.cap.toInt_lt
  have hclamp : b.pool.spentReported.toInt ≤ b.pool.cap.toInt := by omega
  obtain ⟨hlo, hhi⟩ := clampI64_between (v := n) hclamp
  have h₁ : (b.pool.cap - clampI64 n b.pool.spentReported b.pool.cap).toInt
      = b.pool.cap.toInt - (clampI64 n b.pool.spentReported b.pool.cap).toInt :=
    toInt_sub_exact (by omega) (by omega)
  have h₂ : (b.pool.cap - clampI64 n b.pool.spentReported b.pool.cap - b.pool.leasedOut).toInt
      = b.pool.cap.toInt - (clampI64 n b.pool.spentReported b.pool.cap).toInt
        - b.pool.leasedOut.toInt := by
    rw [← h₁]
    exact toInt_sub_exact (by omega) (by omega)
  have hfree : (reconcilePool b.pool n).available.toInt
      = max 0 (b.pool.cap.toInt - (clampI64 n b.pool.spentReported b.pool.cap).toInt
        - b.pool.leasedOut.toInt) := by
    simp only [reconcilePool]
    split
    · rename_i hneg
      rw [Int64.lt_iff_toInt_lt, h₂, Int64.toInt_zero] at hneg
      rw [Int64.toInt_zero]
      omega
    · rename_i hneg
      rw [Int64.lt_iff_toInt_lt, h₂, Int64.toInt_zero] at hneg
      rw [h₂]
      omega
  refine ⟨_, ?_, hlo, hhi⟩
  simp only [Book.account, Account.reset, hfree]
  rfl

theorem Regular.reconcile (h : Regular b) (n : Int64) :
    Regular { b with pool := reconcilePool b.pool n } := by
  obtain ⟨-, ho, ⟨hrep, -⟩, -⟩ := h.bounds
  have hatt := h.attested
  obtain ⟨target, hacc, hlo, hhi⟩ := reset_exact n ho hrep hatt
  have hspent : (reconcilePool b.pool n).spent.toInt = target := congrArg Account.spent hacc
  refine ⟨?_, h.cap, hatt, ?_, fun _ => ?_⟩
  · rw [hacc]
    exact h.covered.reset hlo
  · show (reconcilePool b.pool n).spent.toInt + b.pool.leasedOut.toInt ≤ 2 * b.pool.cap.toInt
    omega
  · show (reconcilePool b.pool n).spent.toInt ≤ b.pool.cap.toInt
    omega

theorem Regular.opened {a : InitArgs} (h : 0 ≤ a.capacity.toInt) :
    Regular { pool := newPool a } := by
  refine ⟨(sound_opened h).covered, h, ?_, ?_, fun _ => h⟩
  · show (0 : Int64).toInt + (0 : Int64).toInt ≤ a.capacity.toInt
    rw [Int64.toInt_zero]
    omega
  · show (0 : Int64).toInt + (0 : Int64).toInt ≤ 2 * a.capacity.toInt
    rw [Int64.toInt_zero]
    omega

end

/-! ## Careful commands keep a ledger regular -/

/-- The book of a ledger, if it has one, is regular. -/
def Ledger.Regular (L : Ledger) : Prop := ∀ b, L.book = some b → Collections.Regular b

/-- A clamped total as a number. -/
theorem toInt_clamped (n m : Int64) : (if n > m then m else n).toInt = min n.toInt m.toInt := by
  split
  · rename_i h
    rw [gt_iff_lt, Int64.lt_iff_toInt_lt] at h
    omega
  · rename_i h
    rw [gt_iff_lt, Int64.lt_iff_toInt_lt] at h
    omega

/-- The final report of a return adds what it says to the spend. -/
theorem foldFinal_newly {l : LeaseRec} (final : Option Int64) (p : PoolRec)
    (hle : l.spent.toInt ≤ l.amount.toInt) :
    (l.newly final = 0 ∧ foldFinal final l p = (l, p)) ∨
      ∃ v : Int64, l.spent.toInt ≤ v.toInt ∧ v.toInt ≤ l.amount.toInt ∧
        v.toInt - l.spent.toInt = l.newly final ∧
        foldFinal final l p = ({ l with spent := v }, bookSpend p (v - l.spent)) := by
  cases final with
  | none => exact .inl ⟨rfl, rfl⟩
  | some n =>
    by_cases h : n > l.spent
    · have hlt := Int64.lt_iff_toInt_lt.mp h
      obtain ⟨hlo, hhi⟩ := clamped_between hle hlt
      refine .inr ⟨_, hlo, hhi, ?_, by simp only [foldFinal, if_pos h]⟩
      rw [toInt_clamped, LeaseRec.newly]
      omega
    · refine .inl ⟨?_, by simp only [foldFinal, if_neg h]⟩
      rw [gt_iff_lt, Int64.lt_iff_toInt_lt] at h
      rw [LeaseRec.newly]
      omega

section
variable {L : Ledger}

theorem Ledger.Regular.of_book {L' : Ledger} {b : Book} (hb : L'.book = some b)
    (h : Collections.Regular b) : L'.Regular := by
  intro b' hb'
  rw [hb] at hb'
  cases hb'
  exact h

theorem Ledger.init_regular (h : L.Regular) (a : InitArgs) : (L.init a).1.Regular := by
  rcases L.init_cases a with heq | ⟨-, hcap, -, heq⟩ <;> rw [heq]
  · exact h
  · rw [Int64.lt_iff_toInt_lt, not_lt] at hcap
    exact .of_book rfl (.opened hcap)

/-- A grant keeps the book regular; if it takes anything, spend and outstanding
leases stay below the cap. -/
theorem Ledger.grant_regular (h : L.Regular) (a : GrantArgs) :
    (L.grant a).1.Regular ∧
      ((L.grant a).1 = L ∨ ∀ b', (L.grant a).1.book = some b' →
        b'.pool.spent.toInt + b'.pool.leasedOut.toInt ≤ b'.pool.cap.toInt) := by
  rcases L.grant_cases a with heq | ⟨b, hb, -, hid, hg, heq⟩ <;> rw [heq]
  · exact ⟨h, .inl rfl⟩
  have hle := grantable_le (accrueTokens b.pool a.grantedMs) a.amount
  obtain ⟨hcap, hav, hlo, hsp, -⟩ := accrueTokens_buckets b.pool a.grantedMs
  rw [hav] at hle
  rw [Int64.le_iff_toInt_le, Int64.toInt_zero, not_le] at hg
  obtain ⟨hreg, hunder⟩ := (h b hb).allot (t := a.grantedMs) hid (newLease_claim ..) hg hle
  refine ⟨.of_book rfl hreg, .inr fun b' hb' => ?_⟩
  cases hb'
  have hlt := b.pool.cap.toInt_lt
  obtain ⟨-, ho, hs, -⟩ := (h b hb).bounds
  show (accrueTokens b.pool a.grantedMs).spent.toInt
    + ((accrueTokens b.pool a.grantedMs).leasedOut + _).toInt
    ≤ (accrueTokens b.pool a.grantedMs).cap.toInt
  rw [hcap, hlo, hsp, toInt_add_exact (by omega) (by omega)]
  exact hunder

/-- A careful report keeps it regular. -/
theorem Ledger.report_regular (h : L.Regular) {a : LeaseArgs} (hc : Careful (.report a) L) :
    (L.report a).1.Regular := by
  rcases L.report_cases a with heq | ⟨b, l, hl, hnew, heq⟩
  · rw [heq]
    exact h
  have hfit := hc b l hl
  obtain ⟨hb, hl⟩ := lease?_some hl
  obtain ⟨-, hle⟩ := (h b hb).covered.claim _ _ (lease_claim hl)
  simp only [LeaseRec.claim] at hle
  rw [Int64.le_iff_toInt_le, not_le] at hnew
  obtain ⟨hlo, hhi⟩ := clamped_between hle hnew
  refine .of_book (congrArg Ledger.book heq) ((h b hb).book hl hlo hhi ?_).1
  rw [LeaseRec.newly, max_eq_right (by omega)] at hfit
  rwa [toInt_clamped]

theorem Ledger.giveBack_regular (h : L.Regular) {a : ReturnArgs}
    (hc : Careful (.giveBack a) L) : (L.giveBack a).1.Regular := by
  rcases L.giveBack_cases a with heq | ⟨b, l, ht, hl, hb'⟩
  · rw [heq]
    exact h
  obtain ⟨hfit, hover⟩ := hc b l ht hl
  obtain ⟨hb, hl⟩ := lease?_some hl
  obtain ⟨-, hle⟩ := (h b hb).covered.claim _ _ (lease_claim hl)
  have hothers : b.Overcommitted → b.leases.erase a.leaseID ≠ ∅ := fun ho =>
    erase_ne_empty hl (hover ho).2
  refine .of_book hb' ?_
  rcases foldFinal_newly a.final b.pool hle with ⟨hzero, hf⟩ | ⟨v, hlo, hhi, hnewly, hf⟩
  · rw [hf]
    refine (h b hb).credit hl fun ho => ⟨?_, hothers ho⟩
    have hrest := (hover ho).1
    rw [hzero] at hrest
    simp only [LeaseRec.claim, Claim.rest] at hle ⊢
    omega
  · -- booking the final report leaves the book as far past its cap as it was
    rw [hf]
    obtain ⟨hreg, hsum⟩ := (h b hb).book hl hlo hhi (by omega)
    have hkeep := hreg.credit (Std.ExtTreeMap.getElem?_insert_self (k := a.leaseID))
    rw [erase_insert] at hkeep
    refine hkeep fun ho => ?_
    have ho' : b.Overcommitted := by
      unfold Book.Overcommitted at ho ⊢
      rw [← hsum]
      exact ho
    have hrest := (hover ho').1
    refine ⟨?_, hothers ho'⟩
    simp only [LeaseRec.claim, Claim.rest]
    omega

theorem Ledger.expire_regular (h : L.Regular) {a : LeaseArgs} (hc : Careful (.expire a) L) :
    (L.expire a).1.Regular := by
  rcases L.expire_cases a with heq | ⟨b, l, ht, hl, hdue, hb'⟩
  · intro b hb
    exact h b (heq ▸ hb)
  obtain ⟨hfit, hover⟩ := hc b l ht hl (Int64.not_lt.mp hdue)
  obtain ⟨hb, hl⟩ := lease?_some hl
  exact .of_book hb' ((h b hb).debit hl hfit fun ho => erase_ne_empty hl (hover ho))

/-- One careful operation. -/
theorem Ledger.apply_regular (h : L.Regular) (op : BudOp) (hc : Careful op L) :
    (L.apply op).1.Regular := by
  cases op with
  | init a => exact L.init_regular h a
  | grant a => exact (L.grant_regular h a).1
  | report a => exact L.report_regular h hc
  | giveBack a => exact L.giveBack_regular h hc
  | expire a => exact L.expire_regular h hc
  | tombGC a => exact h
  | reconcile n =>
    show (L.reconcile n).1.Regular
    unfold Ledger.reconcile
    split
    · exact h
    · rename_i b hb
      exact .of_book rfl ((h b hb).reconcile n)

end

/-! ## Careful runs -/

section
variable {fl : FloatOps} {s : UInt64} {st : Store} {u : UpdateCtx}

/-- A command that is careful on the budget it is about. -/
def CarefulCmd (s : UInt64) (c : Command) (u : UpdateCtx) : Prop :=
  ∀ op L, BudOp.ofCommand c = some op → Represents s c.ns c.coll L u → Careful op L

/-- The shard states reached from the empty one by batches of careful commands. -/
inductive CarefulRun (fl : FloatOps) (s : UInt64) : Store → Prop where
  | empty : CarefulRun fl s ∅
  | update {st st' : Store} {es : List Entry} {rs : List ProposeResult}
      (h : CarefulRun fl s st) (hes : ∀ e ∈ es, ¬ Migrates e.cmd)
      (hmeet : EntriesMeet fl s (loadFrozen s st) (CarefulCmd s) es (newCtx s st))
      (hu : update fl s st es = .ok (st', rs)) : CarefulRun fl s st'

/-- A moment inside a batch over such a state, after some of its careful commands. -/
inductive CarefulMoment (fl : FloatOps) (s : UInt64) (st : Store) : UpdateCtx → Prop where
  | start (h : CarefulRun fl s st) : CarefulMoment fl s st (newCtx s st)
  | command {u u' : UpdateCtx} {c : Command} {r : ProposeResult}
      (h : CarefulMoment fl s st u) (hc : CarefulCmd s c u)
      (hu : applyDecoded fl s (loadFrozen s st) c u = .ok r u') : CarefulMoment fl s st u'
  | frozen {u : UpdateCtx} {start : Bytes} {op : StoreOp}
      (h : CarefulMoment fl s st u) (hk : op.key = frozenKey s start) :
      CarefulMoment fl s st (u.emit [op])

/-- A careful run represents a regular ledger. -/
theorem CarefulRun.regular (h : CarefulRun fl s st) (ns coll : Chunk) :
    ∃ L, Represents s ns coll L (newCtx s st) ∧ L.Regular := by
  induction h with
  | empty => exact ⟨{}, .empty, nofun⟩
  | update _ hes hmeet hu ih =>
    obtain ⟨L, hL, hr⟩ := ih
    refine ledger_update (CarefulCmd s) Ledger.Regular ?_ hes hmeet hL hr hu
    rintro c op L v hok rfl rfl hc hv hP
    exact Ledger.apply_regular hP op (hok op L hc hv)

theorem CarefulMoment.regular (h : CarefulMoment fl s st u) (ns coll : Chunk) :
    ∃ L, Represents s ns coll L u ∧ L.Regular := by
  induction h with
  | start h => exact h.regular ns coll
  | @command u u' c r _ hc hu ih =>
    obtain ⟨L, hL, hr⟩ := ih
    have href := applyDecoded_refines (c := c) fl (loadFrozen s st) hL
    rw [hu] at href
    rcases href with href | ⟨op, rfl, rfl, hop, -, href⟩
    · exact ⟨L, href, hr⟩
    · exact ⟨_, href, Ledger.apply_regular hr op (hc op L hop hL)⟩
  | frozen _ hk ih =>
    obtain ⟨L, hL, hr⟩ := ih
    exact ⟨L, ⟨hL.rows.emit_one rfl (hk.trans (frozenKey_eq s _)), hL.fits⟩, hr⟩

/-- Reconciles in a careful run. At every moment of such a run the free bucket of a
pool is what the cap leaves, or nothing; a pool without leases has free and spent
quantity adding up to its cap; and a grant that takes anything leaves spend and
outstanding leases below the cap. -/
theorem careful_covered (h : CarefulMoment fl s st u) (ns coll : Chunk) (p : PoolRec)
    (hp : getPool s ns.val coll.val u = .ok (some p)) :
    p.available.toInt = max 0 (p.cap.toInt - p.spent.toInt - p.leasedOut.toInt) ∧
    ((∀ id, getLease s ns.val coll.val id u = .ok none) →
      p.available.toInt + p.spent.toInt = p.cap.toInt) ∧
    ∀ c r u' p', c.ns = ns → c.coll = coll → c.op = .budGrant →
      applyDecoded fl s (loadFrozen s st) c u = .ok r u' →
      getPool s ns.val coll.val u' = .ok (some p') → p'.leasedOut ≠ p.leasedOut →
      p'.spent.toInt + p'.leasedOut.toInt ≤ p'.cap.toInt := by
  obtain ⟨L, hL, hr⟩ := h.regular ns coll
  rw [hL.getPool, Except.ok.injEq, Option.map_eq_some_iff] at hp
  obtain ⟨b, hb, rfl⟩ := hp
  obtain ⟨-, -, -, hfree⟩ := (hr b hb).bounds
  refine ⟨hfree, fun hnone => ?_, ?_⟩
  · have hempty : b.leases = ∅ := by
      refine Std.ExtTreeMap.ext_getElem? fun id => ?_
      have hid := hnone id
      rw [hL.getLease, Except.ok.injEq, lease?_of_book hb] at hid
      simpa using hid
    have hsum := (hr b hb).covered.out
    have hzero : restSum b.account.claims = 0 := by
      rw [restSum, wsum, Book.account, Std.ExtTreeMap.toList_map, hempty]
      rfl
    have hcap := (hr b hb).settled hempty
    rw [hzero] at hsum
    simp only [Book.account] at hsum
    omega
  · rintro c r u' p' rfl rfl hop hu hp' hne
    have href := applyDecoded_refines (c := c) fl (loadFrozen s st) hL
    rw [hu] at href
    have hsame : Represents s c.ns c.coll L u' → p' = b.pool := by
      intro hL'
      rw [hL'.getPool, hb] at hp'
      cases hp'
      rfl
    rcases href with href | ⟨op, -, -, hc, -, href⟩
    · exact absurd (congrArg PoolRec.leasedOut (hsame href)) hne
    · obtain ⟨a, ha, rfl⟩ : ∃ a, grantArgs c = some a ∧ .grant a = op := by
        simpa [BudOp.ofCommand, hop] using hc
      rcases (Ledger.grant_regular hr a).2 with heq | hunder
      · rw [show (L.apply (.grant a)).1 = L from heq] at href
        exact absurd (congrArg PoolRec.leasedOut (hsame href)) hne
      · rw [href.getPool, Except.ok.injEq, Option.map_eq_some_iff] at hp'
        obtain ⟨b', hb', rfl⟩ := hp'
        exact hunder b' hb'

end

/-! ## A hundred reconciled under a lease -/

def reconcileHundred : Bytes :=
  budCommand .budReconcile Chunk.empty ⟨putI64 100, by simp [length_putI64]⟩

def returnUnspent : Bytes :=
  budCommand .budReturn (Chunk.byte 7) ⟨putI64 0, by simp [length_putI64]⟩

/-- Cap, free, outstanding and spent quantity of the budget after a log. -/
def bucketsAfter (cmds : List Bytes) : Except ApplyErr (Except LookupErr
    (Option (Int64 × Int64 × Int64 × Int64))) :=
  (updates FloatOps.absent 1 ∅ (cmds.map fun cmd => [{ index := 1, cmd }])).map fun p =>
    (snapPool 1 p.1 [1] [2]).map
      (Option.map fun q => (q.cap, q.available, q.leasedOut, q.spent))

/-- The return of an unspent lease credits a pool that is over its cap, and the next
grant takes the sixty again. -/
theorem return_regrants :
    bucketsAfter [initHundred, grantSixty 5 0, reconcileHundred]
      = .ok (.ok (some (100, 0, 60, 100))) ∧
    bucketsAfter [initHundred, grantSixty 5 0, reconcileHundred, returnUnspent]
      = .ok (.ok (some (100, 60, 0, 100))) ∧
    bucketsAfter [initHundred, grantSixty 5 0, reconcileHundred, returnUnspent, grantSixty 6 0]
      = .ok (.ok (some (100, 0, 60, 100))) ∧
    (60 : Int64).toInt ≠ max 0 ((100 : Int64).toInt - (100 : Int64).toInt - (0 : Int64).toInt) := by
  refine ⟨by decide +kernel, by decide +kernel, by decide +kernel, by decide⟩

/-- Creations, grants and reconciles are careful on every ledger. -/
theorem carefulCmd_of_op {s : UInt64} {c : Command} {u : UpdateCtx}
    (h : c.op = .budInit ∨ c.op = .budGrant ∨ c.op = .budReconcile) : CarefulCmd s c u := by
  intro op L hop _
  unfold BudOp.ofCommand at hop
  rcases h with h | h | h <;> rw [h] at hop <;> simp only [Option.map_eq_some_iff] at hop <;>
    obtain ⟨a, -, rfl⟩ := hop <;> trivial

theorem hundred_covered :
    ∃ st p, CarefulRun FloatOps.absent 1 st ∧
      getPool 1 [1] [2] (newCtx 1 st) = .ok (some p) ∧
      p.cap.toInt < p.spent.toInt + p.leasedOut.toInt ∧
      p.available.toInt = max 0 (p.cap.toInt - p.spent.toInt - p.leasedOut.toInt) := by
  let es : List Entry := [{ index := 1, cmd := initHundred },
    { index := 2, cmd := grantSixty 5 0 }, { index := 3, cmd := reconcileHundred }]
  have hsingle : ∀ e ∈ es, ¬ Migrates e.cmd ∧
      ∀ b ∈ subsOf e.cmd, ∀ c, decodeCommandInto b = .ok c → ∀ v, CarefulCmd 1 c v := by
    intro e he
    simp only [es, List.mem_cons, List.not_mem_nil, or_false] at he
    rcases he with rfl | rfl | rfl
    · exact ⟨initHundred_single.1, fun b hb c hc v =>
        carefulCmd_of_op (.inl (initHundred_single.2 b hb c hc))⟩
    · exact ⟨grantSixty_single.1, fun b hb c hc v =>
        carefulCmd_of_op (.inr (.inl (grantSixty_single.2 b hb c hc)))⟩
    · have hrec : ¬ Migrates reconcileHundred ∧
          ∀ b ∈ subsOf reconcileHundred, ∀ c, decodeCommandInto b = .ok c → c.op = .budReconcile :=
        single_command .budReconcile (by decide +kernel) (by decide) (by decide +kernel)
      exact ⟨hrec.1, fun b hb c hc v => carefulCmd_of_op (.inr (.inr (hrec.2 b hb c hc)))⟩
  have hrun : (update FloatOps.absent 1 ∅ es).map (fun p =>
      (getPool 1 [1] [2] (newCtx 1 p.1)).map
        (Option.map fun q => (q.cap, q.leasedOut, q.spent))) = .ok (.ok (some (100, 60, 100))) := by
    decide +kernel
  cases hu : update FloatOps.absent 1 ∅ es with
  | error e => rw [hu] at hrun; cases hrun
  | ok res =>
    rw [hu, Except.map, Except.ok.injEq] at hrun
    cases hp : getPool 1 [1] [2] (newCtx 1 res.1) with
    | error e => rw [hp] at hrun; cases hrun
    | ok q =>
      rw [hp, Except.map, Except.ok.injEq, Option.map_eq_some_iff] at hrun
      obtain ⟨p, rfl, hq⟩ := hrun
      simp only [Prod.mk.injEq] at hq
      obtain ⟨hcap, hout, hspent⟩ := hq
      have hr : CarefulRun FloatOps.absent 1 res.1 :=
        .update .empty (fun e he => (hsingle e he).1)
          (entriesMeet_of_forall fun e he => (hsingle e he).2) hu
      refine ⟨res.1, p, hr, hp, by rw [hcap, hout, hspent]; decide,
        (careful_covered (.start hr) ⟨[1], by decide⟩ ⟨[2], by decide⟩ p hp).1⟩

end WaveSpan.Collections
