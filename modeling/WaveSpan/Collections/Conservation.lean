/-
WaveSpan.Collections.Conservation — a budget conserves its cap.

`Book.account` reads a pool and its leases as an account over the integers
(`WaveSpan.Lib.Escrow`). As long as the account is sound, every sum and difference
the commands form on the buckets stays inside int64, so each command makes exactly
the integer moves of the account: a grant allots, a report books, a return books
and credits, an expiry debits (`Ledger.apply_moves`). By the refinement of the
commands this carries over to every batch and to every run from the empty shard
that does not reconcile (`budget_conserved`).

The deadlines are another matter: they are sums of unchecked operands and wrap
(`deadline_wraps`).
-/
import WaveSpan.Lib.Escrow
import WaveSpan.Lib.Int64
import WaveSpan.Collections.Ledger
import WaveSpan.Collections.Lookup

namespace WaveSpan.Collections

open WaveSpan.Wire WaveSpan.Rows WaveSpan.Prog WaveSpan.Escrow

/-! ## The account of a book -/

def LeaseRec.claim (l : LeaseRec) : Claim := { amount := l.amount.toInt, spent := l.spent.toInt }

/-- A pool and its leases as an account over the integers. -/
def Book.account (b : Book) : Account Bytes compare :=
  { cap := b.pool.cap.toInt, free := b.pool.available.toInt, out := b.pool.leasedOut.toInt
    spent := b.pool.spent.toInt, reported := b.pool.spentReported.toInt
    claims := b.leases.map fun _ l => l.claim }

section
variable {b : Book} {id : Bytes} {l : LeaseRec} {p : PoolRec}

theorem account_claim : b.account.claims[id]? = b.leases[id]?.map LeaseRec.claim := by
  simp [Book.account]

theorem lease_claim (hl : b.leases[id]? = some l) : b.account.claims[id]? = some l.claim := by
  rw [account_claim, hl]
  rfl

theorem account_insert (m : GoMap LeaseRec) :
    (m.insert id l).map (fun _ l => l.claim) = (m.map fun _ l => l.claim).insert id l.claim := by
  apply Std.ExtTreeMap.ext_getElem?
  intro k
  simp only [Std.ExtTreeMap.getElem?_map, Std.ExtTreeMap.getElem?_insert]
  split <;> rfl

theorem account_erase (m : GoMap LeaseRec) :
    (m.erase id).map (fun _ l => l.claim) = (m.map fun _ l => l.claim).erase id := by
  apply Std.ExtTreeMap.ext_getElem?
  intro k
  simp only [Std.ExtTreeMap.getElem?_map, Std.ExtTreeMap.getElem?_erase]
  split <;> rfl

/-! ## Bucket moves are exact

Each lemma names the one bound that the int64 sum needs beyond well-formed claims. -/

theorem accrueTokens_buckets (p : PoolRec) (t : Int64) :
    (accrueTokens p t).cap = p.cap ∧ (accrueTokens p t).available = p.available ∧
      (accrueTokens p t).leasedOut = p.leasedOut ∧ (accrueTokens p t).spent = p.spent ∧
      (accrueTokens p t).spentReported = p.spentReported := by
  unfold accrueTokens
  split <;> simp

/-- No more is granted than is available. -/
theorem grantable_le (p : PoolRec) (amount : Int64) :
    (grantable p amount).toInt ≤ p.available.toInt := by
  have hcut : ∀ g : Int64, (if g > p.available then p.available else g).toInt
      ≤ p.available.toInt := by
    intro g
    by_cases hg : g > p.available
    · rw [if_pos hg]
    · rw [if_neg hg]
      rw [gt_iff_lt, Int64.lt_iff_toInt_lt] at hg
      omega
  exact hcut _

theorem newLease_claim (p : PoolRec) (holder : Bytes) (g t ttl : Int64) :
    (newLease p holder g t ttl).claim = ⟨g.toInt, 0⟩ := by
  unfold newLease
  split <;> rfl

/-- A grant allots. -/
theorem allot_exact {g : Int64} {t : Int64} (hl : l.claim = ⟨g.toInt, 0⟩) (hpos : 0 < g.toInt)
    (hle : g.toInt ≤ b.pool.available.toInt) (hout : 0 ≤ b.pool.leasedOut.toInt)
    (hfit : b.pool.leasedOut.toInt + g.toInt < 2 ^ 63) :
    Book.account
        { pool := takeGrant (accrueTokens b.pool t) g, leases := b.leases.insert id l }
      = b.account.allot id g.toInt := by
  obtain ⟨hcap, hav, hlo, hsp, hrep⟩ := accrueTokens_buckets b.pool t
  have h₁ : (b.pool.available - g).toInt = b.pool.available.toInt - g.toInt := by
    have := b.pool.available.toInt_lt
    exact toInt_sub_exact (by omega) (by omega)
  have h₂ : (b.pool.leasedOut + g).toInt = b.pool.leasedOut.toInt + g.toInt :=
    toInt_add_exact (by omega) hfit
  simp only [Book.account, takeGrant, Account.allot, hcap, hav, hlo, hsp, hrep, h₁, h₂,
    account_insert, hl]

section
variable (h : Claims b.account) (hl : b.leases[id]? = some l)
include h hl

/-- A lease's rest, as the commands compute it. -/
theorem rest_exact : (l.amount - l.spent).toInt = l.claim.rest ∧ 0 ≤ l.claim.rest ∧
    l.claim.rest ≤ b.pool.leasedOut.toInt := by
  have hc := lease_claim hl
  obtain ⟨h0, hle⟩ := h.claim id _ hc
  have hrest := h.rest_le_out hc
  have := l.amount.toInt_lt
  simp only [LeaseRec.claim, Claim.rest, Book.account] at h0 hle hrest ⊢
  exact ⟨toInt_sub_exact (by omega) (by omega), by omega, hrest⟩

/-- A report books. -/
theorem book_exact {v : Int64} (hlo : l.spent.toInt ≤ v.toInt) (hhi : v.toInt ≤ l.amount.toInt)
    (hfit : b.pool.spent.toInt + (v.toInt - l.spent.toInt) < 2 ^ 63) :
    Book.account
        { pool := bookSpend b.pool (v - l.spent)
          leases := b.leases.insert id { l with spent := v } }
      = b.account.book id l.claim v.toInt := by
  have hc := lease_claim hl
  obtain ⟨h0, -⟩ := h.claim id _ hc
  obtain ⟨-, -, hrest⟩ := rest_exact h hl
  have hrep := h.reported
  simp only [LeaseRec.claim, Claim.rest, Book.account] at h0 hrest hrep
  have hlt := b.pool.leasedOut.toInt_lt
  have hd : (v - l.spent).toInt = v.toInt - l.spent.toInt := by
    have := v.toInt_lt
    exact toInt_sub_exact (by omega) (by omega)
  have h₁ : (b.pool.leasedOut - (v - l.spent)).toInt
      = b.pool.leasedOut.toInt - (v.toInt - l.spent.toInt) := by
    rw [← hd]
    exact toInt_sub_exact (by omega) (by omega)
  have h₂ : (b.pool.spent + (v - l.spent)).toInt
      = b.pool.spent.toInt + (v.toInt - l.spent.toInt) := by
    rw [← hd]
    exact toInt_add_exact (by omega) (by omega)
  have h₃ : (b.pool.spentReported + (v - l.spent)).toInt
      = b.pool.spentReported.toInt + (v.toInt - l.spent.toInt) := by
    rw [← hd]
    exact toInt_add_exact (by omega) (by omega)
  simp only [Book.account, bookSpend, Account.book, account_insert]
  rw [show l.claim.spent = l.spent.toInt from rfl, h₁, h₂, h₃]
  rfl

/-- What is out, once a lease's rest is taken from it. -/
theorem out_exact : (b.pool.leasedOut - (l.amount - l.spent)).toInt
    = b.pool.leasedOut.toInt - l.claim.rest := by
  obtain ⟨hrest, h0, hle⟩ := rest_exact h hl
  have hlt := b.pool.leasedOut.toInt_lt
  rw [← hrest]
  exact toInt_sub_exact (by omega) (by omega)

/-- A return credits. -/
theorem credit_exact (hfree : 0 ≤ b.pool.available.toInt)
    (hfit : b.pool.available.toInt + l.claim.rest < 2 ^ 63) :
    Book.account { pool := creditRest l b.pool, leases := b.leases.erase id }
      = b.account.credit id l.claim := by
  obtain ⟨hrest, h0, hle⟩ := rest_exact h hl
  have hlt := b.pool.leasedOut.toInt_lt
  have h₁ : (b.pool.available + (l.amount - l.spent)).toInt
      = b.pool.available.toInt + l.claim.rest := by
    rw [← hrest]
    exact toInt_add_exact (by omega) (by omega)
  simp only [Book.account, creditRest, Account.credit, h₁, out_exact h hl, account_erase]

/-- An expiry debits. -/
theorem debit_exact (hfit : b.pool.spent.toInt + l.claim.rest < 2 ^ 63) :
    Book.account { pool := debitRest l b.pool, leases := b.leases.erase id }
      = b.account.debit id l.claim := by
  obtain ⟨hrest, h0, hle⟩ := rest_exact h hl
  have hlt := b.pool.leasedOut.toInt_lt
  have hrep := h.reported
  simp only [Book.account] at hrep
  have h₁ : (b.pool.spent + (l.amount - l.spent)).toInt = b.pool.spent.toInt + l.claim.rest := by
    rw [← hrest]
    exact toInt_add_exact (by omega) (by omega)
  simp only [Book.account, debitRest, Account.debit, h₁, out_exact h hl, account_erase]

end

/-- A reported total, clamped to the lease, lies between its spend and its amount. -/
theorem clamped_between {n : Int64} (hle : l.spent.toInt ≤ l.amount.toInt)
    (hnew : l.spent.toInt < n.toInt) :
    l.spent.toInt ≤ (if n > l.amount then l.amount else n).toInt ∧
      (if n > l.amount then l.amount else n).toInt ≤ l.amount.toInt := by
  split
  · exact ⟨hle, le_refl _⟩
  · rename_i h
    rw [gt_iff_lt, Int64.lt_iff_toInt_lt] at h
    omega

/-- The final report of a return changes nothing or books. -/
theorem foldFinal_cases (final : Option Int64) (p : PoolRec)
    (hle : l.spent.toInt ≤ l.amount.toInt) :
    foldFinal final l p = (l, p) ∨
      ∃ v : Int64, l.spent.toInt ≤ v.toInt ∧ v.toInt ≤ l.amount.toInt ∧
        foldFinal final l p = ({ l with spent := v }, bookSpend p (v - l.spent)) := by
  cases final with
  | none => exact .inl rfl
  | some n =>
    by_cases h : n > l.spent
    · obtain ⟨hlo, hhi⟩ := clamped_between hle (Int64.lt_iff_toInt_lt.mp h)
      exact .inr ⟨_, hlo, hhi, by simp only [foldFinal, if_pos h]⟩
    · exact .inl (by simp only [foldFinal, if_neg h])

end

/-! ## Commands move the account -/

/-- The book's account came about from an empty one by integer moves. -/
def Ledger.Reached (L : Ledger) : Prop :=
  ∀ b, L.book = some b →
    ∃ cap, 0 ≤ cap ∧ Relation.ReflTransGen Move (Account.opened cap) b.account

section
variable {L : Ledger} {b : Book}

/-- A reached ledger has a sound account. -/
theorem Ledger.Reached.sound (h : L.Reached) (hb : L.book = some b) : Sound b.account := by
  obtain ⟨cap, hcap, hm⟩ := h b hb
  exact Move.sound_of_moves (sound_opened hcap) hm

section
variable {id : Bytes} {l : LeaseRec} (hs : Below (2 ^ 63 - 1) b.account)
include hs

theorem allot_move {g t : Int64} (hid : b.leases[id]? = none) (hl : l.claim = ⟨g.toInt, 0⟩)
    (hpos : 0 < g.toInt) (hle : g.toInt ≤ b.pool.available.toInt) :
    Move b.account (Book.account
      { pool := takeGrant (accrueTokens b.pool t) g, leases := b.leases.insert id l }) := by
  have hout := hs.out_nonneg
  have htotal := hs.total
  have hrep := hs.reported
  simp only [Book.account] at hout htotal hrep
  rw [allot_exact hl hpos hle hout (by omega)]
  refine .allot ?_ hpos hle
  rw [account_claim, hid]
  rfl

variable (hl : b.leases[id]? = some l)
include hl

/-- A report is a move of the account. -/
theorem book_move {v : Int64} (hlo : l.spent.toInt ≤ v.toInt) (hhi : v.toInt ≤ l.amount.toInt) :
    Move b.account (Book.account
      { pool := bookSpend b.pool (v - l.spent),
        leases := b.leases.insert id { l with spent := v } }) := by
  have hc := lease_claim hl
  have hrest := hs.rest_le_out hc
  have htotal := hs.total
  have hfree := hs.free
  simp only [Book.account, Claim.rest, LeaseRec.claim] at htotal hfree hrest
  rw [book_exact hs.toClaims hl hlo hhi (by omega)]
  exact .book hc hlo hhi

theorem credit_move :
    Move b.account (Book.account
      { pool := creditRest l b.pool, leases := b.leases.erase id }) := by
  have hc := lease_claim hl
  have hrest := hs.rest_le_out hc
  have htotal := hs.total
  have hfree := hs.free
  have hrep := hs.reported
  simp only [Book.account] at htotal hfree hrest hrep
  rw [credit_exact hs.toClaims hl hfree (by omega)]
  exact .credit hc

theorem debit_move :
    Move b.account (Book.account
      { pool := debitRest l b.pool, leases := b.leases.erase id }) := by
  have hc := lease_claim hl
  have hrest := hs.rest_le_out hc
  have htotal := hs.total
  have hfree := hs.free
  simp only [Book.account] at htotal hfree hrest
  rw [debit_exact hs.toClaims hl (by omega)]
  exact .debit hc

end

def Ledger.Moved (b : Book) (L' : Ledger) : Prop :=
  ∃ b', L'.book = some b' ∧ Relation.ReflTransGen Move b.account b'.account

theorem Ledger.Moved.same {L' : Ledger} (hb : L'.book = some b) : Moved b L' :=
  ⟨b, hb, .refl⟩

section
variable (hb : L.book = some b) (hs : Below (2 ^ 63 - 1) b.account)
include hb

theorem Ledger.init_moves (a : InitArgs) : Moved b (L.init a).1 := by
  rcases L.init_cases a with heq | ⟨hnone, -⟩
  · exact .same ((congrArg Ledger.book heq).trans hb)
  · rw [hb] at hnone
    cases hnone

include hs

theorem Ledger.grant_moves (a : GrantArgs) : Moved b (L.grant a).1 := by
  rcases L.grant_cases a with heq | ⟨b₀, hb₀, -, hid, hg, heq⟩ <;> rw [heq]
  · exact .same hb
  · rw [hb] at hb₀
    cases hb₀
    have hle := grantable_le (accrueTokens b.pool a.grantedMs) a.amount
    rw [(accrueTokens_buckets b.pool a.grantedMs).2.1] at hle
    rw [Int64.le_iff_toInt_le, Int64.toInt_zero, not_le] at hg
    exact ⟨_, rfl, .single (allot_move hs hid (newLease_claim ..) hg hle)⟩

theorem Ledger.report_moves (a : LeaseArgs) : Moved b (L.report a).1 := by
  rcases L.report_cases a with heq | ⟨b₀, l, hl, hnew, heq⟩ <;> rw [heq]
  · exact .same hb
  · obtain ⟨hb₀, hl⟩ := lease?_some hl
    rw [hb] at hb₀
    cases hb₀
    obtain ⟨-, hle⟩ := hs.claim _ _ (lease_claim hl)
    rw [Int64.le_iff_toInt_le, not_le] at hnew
    obtain ⟨hlo, hhi⟩ := clamped_between hle hnew
    exact ⟨_, rfl, .single (book_move hs hl hlo hhi)⟩

theorem Ledger.giveBack_moves (a : ReturnArgs) : Moved b (L.giveBack a).1 := by
  rcases L.giveBack_cases a with heq | ⟨b₀, l, -, hl, heq⟩
  · exact .same ((congrArg Ledger.book heq).trans hb)
  obtain ⟨hb₀, hl⟩ := lease?_some hl
  rw [hb] at hb₀
  cases hb₀
  obtain ⟨-, hle⟩ := hs.claim _ _ (lease_claim hl)
  refine ⟨_, heq, ?_⟩
  rcases foldFinal_cases a.final b.pool hle with hf | ⟨v, hlo, hhi, hf⟩
  · rw [hf]
    exact .single (credit_move hs hl)
  · -- the final report is booked first, then the rest of the raised lease credited
    rw [hf]
    have hbook := book_move hs hl hlo hhi
    have hcredit := credit_move (hbook.below hs).1 Std.ExtTreeMap.getElem?_insert_self
    rw [erase_insert] at hcredit
    exact .tail (.single hbook) hcredit

theorem Ledger.expire_moves (a : LeaseArgs) : Moved b (L.expire a).1 := by
  rcases L.expire_cases a with heq | ⟨b₀, l, -, hl, -, heq⟩
  · exact .same (heq.trans hb)
  · obtain ⟨hb₀, hl⟩ := lease?_some hl
    rw [hb] at hb₀
    cases hb₀
    exact ⟨_, heq, .single (debit_move hs hl)⟩

/-- On buckets that fit int64 together, every budget command but a reconcile makes integer
moves. -/
theorem Ledger.apply_moves {op : BudOp} (hop : ∀ n, op ≠ .reconcile n) :
    Moved b (L.apply op).1 := by
  cases op with
  | init a => exact init_moves hb a
  | grant a => exact grant_moves hb hs a
  | report a => exact report_moves hb hs a
  | giveBack a => exact giveBack_moves hb hs a
  | expire a => exact expire_moves hb hs a
  | tombGC a => exact .same hb
  | reconcile n => exact absurd rfl (hop n)

end

/-- Every operation but a reconcile keeps the ledger reached. -/
theorem Ledger.apply_reached {op : BudOp} (hop : ∀ n, op ≠ .reconcile n) (h : L.Reached) :
    (L.apply op).1.Reached := by
  intro b' hb'
  cases hb : L.book with
  | none =>
    obtain ⟨a, rfl, hcap, -, rfl⟩ := apply_none hb hb'
    rw [Int64.lt_iff_toInt_lt, not_lt] at hcap
    exact ⟨a.capacity.toInt, hcap, .refl⟩
  | some b =>
    have hs := (h.sound hb).below.mono (Int.le_sub_one_of_lt b.pool.cap.toInt_lt)
    obtain ⟨b₁, hb₁, hm⟩ := apply_moves hb hs hop
    rw [hb'] at hb₁
    cases hb₁
    obtain ⟨cap, hcap, hm₀⟩ := h b hb
    exact ⟨cap, hcap, hm₀.trans hm⟩

end

/-! ## Lease rows -/

section
variable {s : UInt64} {ns coll : Chunk} {L : Ledger} {b : Book} {st : Store}

theorem leaseKey_append (id : Bytes) :
    budLeasePrefix s ns.val coll.val ++ id = budLeaseKey s ns.val coll.val id := rfl

/-- The stored lease rows are the leases of the book. -/
theorem Represents.mem_leaseRows (h : Represents s ns coll L (newCtx s st)) {id v : Bytes} :
    (id, v) ∈ scanSuffixes st (budLeasePrefix s ns.val coll.val) 0 ↔
      ∃ b l, L.lease? id = some (b, l) ∧ v = encodeLease l := by
  have hrow : st[budLeaseKey s ns.val coll.val id]?
      = (L.lease? id).map fun p => encodeLease p.2 := by
    rw [budLeaseKey_eq]
    exact (h.rows (.lease ns coll id) rfl rfl).2
  rw [mem_scanSuffixes_iff, leaseKey_append, hrow, Option.map_eq_some_iff]
  constructor
  · rintro ⟨⟨b, l⟩, hl, rfl⟩
    exact ⟨b, l, hl, rfl⟩
  · rintro ⟨b, l, hl, rfl⟩
    exact ⟨(b, l), hl, rfl⟩

/-- The lease rows, up to their order, spell the leases of the book. -/
theorem Represents.leaseRows_perm (h : Represents s ns coll L (newCtx s st))
    (hb : L.book = some b) :
    (scanSuffixes st (budLeasePrefix s ns.val coll.val) 0).Perm
      (b.leases.toList.map fun r => (r.1, encodeLease r.2)) := by
  refine (List.perm_ext_iff_of_nodup (nodup_scanSuffixes _ _) ?_).mpr ?_
  · refine List.Nodup.of_map Prod.fst ?_
    rw [List.map_map]
    have hkeys := b.leases.distinct_keys_toList
    rw [List.nodup_iff_pairwise_ne, List.pairwise_map]
    exact hkeys.imp fun hne heq => hne (Std.LawfulEqCmp.compare_eq_iff_eq.mpr heq)
  · rintro ⟨id, v⟩
    rw [h.mem_leaseRows, List.mem_map]
    constructor
    · rintro ⟨b', l, hl, rfl⟩
      obtain ⟨hb', hl⟩ := lease?_some hl
      rw [hb] at hb'
      cases hb'
      exact ⟨(id, l), Std.ExtTreeMap.mem_toList_iff_getElem?_eq_some.mpr hl, rfl⟩
    · rintro ⟨⟨id', l⟩, hmem, heq⟩
      cases heq
      rw [Std.ExtTreeMap.mem_toList_iff_getElem?_eq_some] at hmem
      exact ⟨b, l, by rw [lease?_of_book hb, hmem]; rfl, rfl⟩

def leaseRest (v : Bytes) : Int :=
  match decodeLease v with
  | .ok l => l.amount.toInt - l.spent.toInt
  | .error _ => 0

/-- The sum over the stored lease rows of a pool of what they leave unspent. -/
def leaseRestSum (s : UInt64) (st : Store) (ns coll : Bytes) : Int :=
  ((scanSuffixes st (budLeasePrefix s ns coll) 0).map fun r => leaseRest r.2).sum

theorem leaseRest_of_decode {v : Bytes} {l : LeaseRec} (h : decodeLease v = .ok l) :
    leaseRest v = l.claim.rest := by
  unfold leaseRest
  rw [h]
  rfl

/-- The rests of the lease rows add up to those of the ledger. -/
theorem Represents.leaseRestSum_eq (h : Represents s ns coll L (newCtx s st))
    (hb : L.book = some b) : leaseRestSum s st ns.val coll.val = restSum b.account.claims := by
  have hperm := (h.leaseRows_perm hb).map fun r => leaseRest r.2
  rw [List.map_map, Function.comp_def] at hperm
  rw [leaseRestSum, hperm.sum_eq, restSum, wsum, Book.account, Std.ExtTreeMap.toList_map,
    List.map_map, Function.comp_def]
  refine congrArg List.sum (List.map_congr_left fun r hr => ?_)
  obtain ⟨id, l⟩ := r
  rw [Std.ExtTreeMap.mem_toList_iff_getElem?_eq_some] at hr
  have hl : L.lease? id = some (b, l) := by
    rw [lease?_of_book hb, hr]
    rfl
  exact leaseRest_of_decode (decodeLease_encodeLease (h.fits id b l hl))

/-- The pool row is the ledger's. -/
theorem Represents.snapPool (h : Represents s ns coll L (newCtx s st)) :
    snapPool s st ns.val coll.val = .ok (L.book.map Book.pool) := by
  have hrow : st[budPoolKey s ns.val coll.val]? = L.book.map fun b => encodePool b.pool := by
    rw [budPoolKey_eq]
    exact (h.rows (.pool ns coll) rfl rfl).2
  unfold Collections.snapPool
  rw [hrow]
  cases L.book with
  | none => rfl
  | some b => simp [decodePool_encodePool]

/-! ## Runs -/

/-- An entry of a run without reconciles: no migration, and none of its commands
is a reconcile. -/
def NoReconcile (cmd : Bytes) : Prop :=
  ¬ Migrates cmd ∧
    ∀ b ∈ subsOf cmd, ∀ c, decodeCommandInto b = .ok c → c.op ≠ .budReconcile

/-- The shard states reached from the empty one by batches of such entries. -/
inductive BudgetRun (fl : FloatOps) (s : UInt64) : Store → Prop where
  | empty : BudgetRun fl s ∅
  | update {st st' : Store} {es : List Entry} {rs : List ProposeResult}
      (h : BudgetRun fl s st) (hes : ∀ e ∈ es, NoReconcile e.cmd)
      (hu : update fl s st es = .ok (st', rs)) : BudgetRun fl s st'

theorem Represents.empty : Represents s ns coll {} (newCtx s ∅) := by
  refine .fresh (fun id b l h => by cases h) fun k hrec hscope => ?_
  rcases RowKey.record_cases hrec hscope with rfl | ⟨id, rfl⟩ | ⟨id, rfl⟩ <;>
    simp [Ledger.record, Ledger.lease?]

theorem BudOp.ofCommand_reconcile {c : Command} {n : Int64}
    (h : BudOp.ofCommand c = some (.reconcile n)) : c.op = .budReconcile := by
  unfold BudOp.ofCommand at h
  split at h <;> first | assumption | simp at h

/-- In every such run, the rows of every budget represent a ledger that came about
by integer moves. -/
theorem BudgetRun.reached {fl : FloatOps} (h : BudgetRun fl s st) (ns coll : Chunk) :
    ∃ L, Represents s ns coll L (newCtx s st) ∧ L.Reached := by
  induction h with
  | empty => exact ⟨{}, .empty, nofun⟩
  | update _ hes hu ih =>
    obtain ⟨L, hL, hr⟩ := ih
    refine ledger_update (fun c _ => c.op ≠ .budReconcile) Ledger.Reached
      ?_ (fun e he => (hes e he).1)
      (entriesMeet_of_forall fun e he b hb c hc _ => (hes e he).2 b hb c hc) hL hr hu
    intro c op L v hok _ _ hc _ hP
    refine Ledger.apply_reached (fun n hn => ?_) hP
    subst hn
    exact hok (BudOp.ofCommand_reconcile hc)

/-- The conservation law of a pool whose stored leases leave `rest` unspent. -/
structure Conserved (p : PoolRec) (rest : Int) : Prop where
  total : p.cap.toInt = p.available.toInt + p.leasedOut.toInt + p.spent.toInt
  available : 0 ≤ p.available.toInt
  leasedOut : 0 ≤ p.leasedOut.toInt
  leases : p.leasedOut.toInt = rest
  reported : 0 ≤ p.spentReported.toInt ∧ p.spentReported.toInt ≤ p.spent.toInt
  spent : 0 ≤ p.spent.toInt ∧ p.spent.toInt ≤ p.cap.toInt
  probe : (budCheckOf p).ok = true

/-- The shard's own probe agrees with the integer law. -/
theorem budCheckOf_ok {p : PoolRec}
    (htotal : p.cap.toInt = p.available.toInt + p.leasedOut.toInt + p.spent.toInt)
    (ha : 0 ≤ p.available.toInt) (hl : 0 ≤ p.leasedOut.toInt) (hs : 0 ≤ p.spent.toInt) :
    (budCheckOf p).ok = true := by
  have hcap := p.cap.toInt_lt
  have hsum : (p.available + p.leasedOut).toInt = p.available.toInt + p.leasedOut.toInt :=
    toInt_add_exact (by omega) (by omega)
  have heq : p.available + p.leasedOut + p.spent = p.cap := by
    rw [← Int64.toInt_inj, toInt_add_exact (by omega) (by omega), hsum, htotal]
  have hle : p.spent ≤ p.cap := Int64.le_iff_toInt_le.mpr (by omega)
  simp [budCheckOf, heq, hle, Int64.le_iff_toInt_le, ha, hl, hs]

/-- A sound account is conserved. -/
theorem Sound.conserved (h : Sound b.account) : Conserved b.pool (restSum b.account.claims) := by
  obtain ⟨hfree, hout, hrep, hle, hcap, -, -⟩ := h.bounds
  have htotal := h.total
  have hsum := h.out
  simp only [Book.account] at hfree hout hrep hle hcap htotal hsum
  exact ⟨htotal, hfree, hout, hsum, ⟨hrep, hle⟩, ⟨by omega, hcap⟩,
    budCheckOf_ok htotal hfree hout (by omega)⟩

/-- Budget conservation. In every run without reconciles from the empty shard, the
rows of a budget are those of a ledger whose buckets and leases came about by
exact integer moves, and every pool and lease row obeys the conservation law. -/
theorem budget_conserved {fl : FloatOps} (h : BudgetRun fl s st) (ns coll : Chunk) :
    (∃ L, Represents s ns coll L (newCtx s st) ∧ L.Reached) ∧
    (∀ r ∈ scanSuffixes st (budLeasePrefix s ns.val coll.val) 0,
      ∃ l, decodeLease r.2 = .ok l ∧ 0 ≤ l.spent.toInt ∧ l.spent.toInt ≤ l.amount.toInt) ∧
    ∀ p, snapPool s st ns.val coll.val = .ok (some p) →
      Conserved p (leaseRestSum s st ns.val coll.val) := by
  obtain ⟨L, hL, hr⟩ := h.reached ns coll
  refine ⟨⟨L, hL, hr⟩, ?_, fun p hp => ?_⟩
  · rintro ⟨id, v⟩ hmem
    obtain ⟨b, l, hl, rfl⟩ := hL.mem_leaseRows.mp hmem
    obtain ⟨hb, hl'⟩ := lease?_some hl
    exact ⟨l, decodeLease_encodeLease (hL.fits id b l hl),
      (hr.sound hb).claim id _ (lease_claim hl')⟩
  · rw [hL.snapPool, Except.ok.injEq, Option.map_eq_some_iff] at hp
    obtain ⟨b, hb, rfl⟩ := hp
    rw [hL.leaseRestSum_eq hb]
    exact Sound.conserved (hr.sound hb)

end

/-! ## A budget of one hundred -/

def budCommand (op : OpKind) (key val : Chunk) : Bytes := encodeCommand
  { op, ns := Chunk.byte 1, coll := Chunk.byte 2, items := [{ key, val }] }

/-- Create a budget of one hundred, with a self guard of a second. -/
def initHundred : Bytes := budCommand .budInit
  ⟨[modeStrict] ++ (putI64 100 ++ (putI64 0 ++ (putI64 0 ++ (putI64 1000 ++ (putI64 0 ++
    (putI64 0 ++ putI64 0)))))), by simp [length_putI64]⟩ Chunk.empty

def grantSixty (at' ttl : Int64) : Bytes := budCommand .budGrant (Chunk.byte 7)
  ⟨putI64 60 ++ (putI64 at' ++ putI64 ttl), by simp [length_putI64]⟩

/-- An entry that is one command of a known kind. -/
theorem single_command {cmd : Bytes} (op : OpKind) (hop : opByte? cmd = some op)
    (hkind : op ≠ .ingest ∧ op ≠ .purge ∧ op ≠ .batch)
    (hc : (decodeCommandInto cmd).map Command.op = .ok op) :
    ¬ Migrates cmd ∧ ∀ b ∈ subsOf cmd, ∀ c, decodeCommandInto b = .ok c → c.op = op := by
  constructor
  · rintro (h | h) <;> rw [hop, Option.some.injEq] at h
    · exact hkind.1 h
    · exact hkind.2.1 h
  · intro b hb c hd
    have hsub : subsOf cmd = [cmd] :=
      if_neg fun h => hkind.2.2 (Option.some.inj (hop.symm.trans h))
    rw [hsub, List.mem_singleton] at hb
    subst hb
    rw [hd, Except.map, Except.ok.injEq] at hc
    exact hc

theorem initHundred_single : ¬ Migrates initHundred ∧
    ∀ b ∈ subsOf initHundred, ∀ c, decodeCommandInto b = .ok c → c.op = .budInit :=
  single_command .budInit (by decide +kernel) (by decide) (by decide +kernel)

theorem grantSixty_single : ¬ Migrates (grantSixty 5 0) ∧
    ∀ b ∈ subsOf (grantSixty 5 0), ∀ c, decodeCommandInto b = .ok c → c.op = .budGrant :=
  single_command .budGrant (by decide +kernel) (by decide) (by decide +kernel)

theorem hundred_conserved :
    ∃ st, BudgetRun FloatOps.absent 1 st ∧
      (snapPool 1 st [1] [2]).map (Option.map PoolRec.leasedOut) = .ok (some 60) ∧
      leaseRestSum 1 st [1] [2] = 60 ∧
      ∀ p, snapPool 1 st [1] [2] = .ok (some p) → Conserved p (leaseRestSum 1 st [1] [2]) := by
  have hrun : (update FloatOps.absent 1 ∅ [{ index := 1, cmd := initHundred },
      { index := 2, cmd := grantSixty 5 0 }]).map (fun p =>
        ((snapPool 1 p.1 [1] [2]).map (Option.map PoolRec.leasedOut),
          leaseRestSum 1 p.1 [1] [2])) = .ok (.ok (some 60), 60) := by decide +kernel
  cases hu : update FloatOps.absent 1 ∅ [{ index := 1, cmd := initHundred },
      { index := 2, cmd := grantSixty 5 0 }] with
  | error e => rw [hu] at hrun; cases hrun
  | ok p =>
    rw [hu, Except.map, Except.ok.injEq, Prod.mk.injEq] at hrun
    have hr : BudgetRun FloatOps.absent 1 p.1 := by
      refine .update .empty (fun e he => ?_) hu
      rcases List.mem_pair.mp he with rfl | rfl
      · refine ⟨initHundred_single.1, fun b hb c hc hop => ?_⟩
        rw [initHundred_single.2 b hb c hc] at hop
        cases hop
      · refine ⟨grantSixty_single.1, fun b hb c hc hop => ?_⟩
        rw [grantSixty_single.2 b hb c hc] at hop
        cases hop
    exact ⟨p.1, hr, hrun.1, hrun.2, (budget_conserved hr ⟨[1], by decide⟩ ⟨[2], by decide⟩).2.2⟩

/-- A deadline is an unchecked sum: granted at the last representable millisecond,
a lease may be reclaimed from the distant past on. -/
theorem deadline_wraps :
    (updates FloatOps.absent 1 ∅ [[{ index := 1, cmd := initHundred },
        { index := 2, cmd := grantSixty 9223372036854775807 1 }]]).map (fun p =>
      (p.1[budLeaseKey 1 [1] [2] [7]]?.map decodeLease)) = .ok (some (.ok
        { amount := 60, epoch := 1, grantedMs := 9223372036854775807,
          reclaimNotBeforeMs := -9223372036854774308, expiresMs := -9223372036854775808 })) ∧
    (9223372036854775807 : Int64).toInt + (1 : Int64).toInt + 3 * maxClockSkewMs.toInt
      ≠ (-9223372036854774308 : Int64).toInt := by
  refine ⟨by decide +kernel, by decide⟩

end WaveSpan.Collections
