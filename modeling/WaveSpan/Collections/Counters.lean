/-
WaveSpan.Collections.Counters — hash-field counters over whole runs.

A counter is stored as decimal text. An increment parses the text, adds, and writes the sum back;
within a batch it goes through the value overlay, across batches through the row. Both are read
back as the number they spell (`parseInt_formatInt`), and a command on another field changes
neither (`Step.elsewhere`), so along any run a counter shows its initial value and the deltas
applied to it (`counter_exact`).

The sum is the machine's. One past the largest number is the smallest, and it is stored
(`counter_wraps`).
-/
import WaveSpan.Lib.Int64
import WaveSpan.Collections.Ledger

namespace WaveSpan.Collections

open WaveSpan.Wire WaveSpan.Rows WaveSpan.Prog

/-! ## Decimal text -/

theorem digit?_char {ch : Char} (h : ch.isDigit = true) :
    digit? (UInt8.ofNat ch.toNat) = some (ch.toNat - '0'.toNat) := by
  have hrange : 48 ≤ ch.toNat ∧ ch.toNat ≤ 57 := by
    simp only [Char.isDigit, Bool.and_eq_true, decide_eq_true_eq] at h
    exact ⟨UInt32.le_iff_toNat_le.mp h.1, UInt32.le_iff_toNat_le.mp h.2⟩
  have hval : (UInt8.ofNat ch.toNat).toNat = ch.toNat := by
    rw [UInt8.toNat_ofNat']
    omega
  have hlo : (0x30 : UInt8) ≤ UInt8.ofNat ch.toNat := by
    rw [UInt8.le_iff_toNat_le, hval]
    exact hrange.1
  have hhi : UInt8.ofNat ch.toNat ≤ 0x39 := by
    rw [UInt8.le_iff_toNat_le, hval]
    exact hrange.2
  rw [digit?, if_pos ⟨hlo, hhi⟩, hval]
  rfl

theorem foldlM_digits {l : List Char} (h : ∀ ch ∈ l, ch.isDigit = true) (n : Nat) :
    (l.map fun ch => UInt8.ofNat ch.toNat).foldlM
      (fun n d => (digit? d).map (n * 10 + ·)) n = some (Nat.ofDigitChars 10 l n) := by
  induction l generalizing n with
  | nil => rfl
  | cons ch l ih =>
    rw [List.map_cons, List.foldlM_cons, digit?_char (h ch List.mem_cons_self), Option.map_some]
    show (l.map _).foldlM _ _ = _
    rw [ih fun ch' h' => h ch' (List.mem_cons_of_mem _ h'), Nat.ofDigitChars,
      Nat.ofDigitChars, List.foldl_cons, Nat.mul_comm]

/-- The digits of a number are read back. -/
theorem parseDigits_repr (n : Nat) : parseDigits (ascii (Nat.repr n)) = some n := by
  have hdigits : ∀ ch ∈ Nat.toDigits 10 n, ch.isDigit = true := fun ch h =>
    Nat.isDigit_of_mem_toDigits (by decide) (by decide) h
  have htext : ascii (Nat.repr n) = (Nat.toDigits 10 n).map fun ch => UInt8.ofNat ch.toNat := by
    rw [ascii, Nat.repr, String.toList_ofList]
  have hne : (ascii (Nat.repr n)).isEmpty = false := by
    rw [htext, List.isEmpty_map, List.isEmpty_eq_false_iff]
    exact Nat.toDigits_ne_nil
  rw [parseDigits, hne, htext]
  exact (foldlM_digits hdigits 0).trans (by rw [Nat.ofDigitChars_ten_toDigits])

/-- The first byte of a number is a digit, no sign. -/
theorem head?_repr (n : Nat) : ∃ d : UInt8, (ascii (Nat.repr n)).head? = some d ∧
    d ≠ 0x2b ∧ d ≠ 0x2d := by
  have hdigit : ∀ d : UInt8, (digit? d).isSome → d ≠ 0x2b ∧ d ≠ 0x2d := by
    rintro d hd
    constructor <;> rintro rfl <;> cases hd
  have hparse := parseDigits_repr n
  cases htext : ascii (Nat.repr n) with
  | nil =>
    rw [htext] at hparse
    cases hparse
  | cons d ds =>
    refine ⟨d, rfl, hdigit d ?_⟩
    rw [htext, parseDigits, List.isEmpty_cons] at hparse
    cases hd : digit? d with
    | some k => rfl
    | none =>
      simp only [List.foldlM_cons, hd, Option.map_none] at hparse
      cases hparse

theorem parseInt_neg {ds : Bytes} {k : Nat} (h : parseDigits ds = some k) (hk : k ≤ 2 ^ 63) :
    parseInt (0x2d :: ds) = some (Int64.ofInt (-k)) := by
  simpa [parseInt, h] using hk

/-- An int64 is read back from its decimal form. -/
theorem parseInt_formatInt (n : Int64) : parseInt (formatInt n) = some n := by
  have hlo := n.le_toInt
  have hhi := n.toInt_lt
  unfold formatInt
  cases hn : n.toInt with
  | ofNat m =>
    obtain ⟨d, hhead, hplus, hminus⟩ := head?_repr m
    have hsign : ¬ (some d = some (0x2b : UInt8) ∨ some d = some (0x2d : UInt8)) := by
      simp [hplus, hminus]
    have hneg : (some d == some (0x2d : UInt8)) = false := by simp [hminus]
    show parseInt (ascii (Nat.repr m)) = _
    rw [parseInt]
    simp only [hhead, if_neg hsign, hneg, parseDigits_repr]
    rw [hn] at hhi
    have hm : m < 2 ^ 63 := by
      have : (Int.ofNat m) = (m : Int) := rfl
      omega
    rw [if_neg (by decide), if_pos hm]
    refine congrArg some (Int64.toInt_inj.mp ?_)
    rw [hn, Int64.toInt_ofNat_of_lt hm]
    rfl
  | negSucc m =>
    have htext : ascii (toString (Int.negSucc m)) = 0x2d :: ascii (Nat.repr (m + 1)) := by
      show ascii ("-" ++ Nat.repr (m + 1)) = _
      simp [ascii]
    have hval : Int.negSucc m = -((m + 1 : Nat) : Int) := rfl
    rw [hn, hval] at hlo
    rw [htext, parseInt_neg (parseDigits_repr (m + 1)) (by omega)]
    refine congrArg some (Int64.toInt_inj.mp ?_)
    rw [hn, hval]
    exact Int64.toInt_ofInt_of_le (by omega) (by omega)

/-! ## Commands on other fields -/

/-- A key reads as it did, to commands and in the rows of the batch. -/
structure Untouched (k : Bytes) (u u' : UpdateCtx) : Prop where
  val : u'.fieldVal k = u.fieldVal k
  row : u'.rows[k]? = u.rows[k]?

def fieldOp : OpKind → Bool
  | .hSet | .hDel | .hIncrBy | .hIncrByFloat | .expire | .remove => true
  | _ => false

/-- A command on another collection, or on other fields of the hash. A removal spells the member
of a sorted set in the element space too, behind its score. -/
def Elsewhere (ns coll : Chunk) (f : Bytes) (c : Command) : Prop :=
  (c.ns, c.coll) ≠ (ns, coll) ∨ fieldOp c.op = true ∧ ∀ it ∈ c.items, it.key.val ≠ f ∧
    (c.op = .remove → ∀ score, sortableScore score ++ it.key.val ≠ f)

section
variable {s : UInt64} {c : Command} {ns coll : Chunk} {f k : Bytes} {u u' u'' : UpdateCtx}

theorem Untouched.refl (k : Bytes) (u : UpdateCtx) : Untouched k u u := ⟨rfl, rfl⟩

theorem Untouched.trans (h : Untouched k u u') (h' : Untouched k u' u'') : Untouched k u u'' :=
  ⟨h'.val.trans h.val, h'.row.trans h.row⟩

theorem Untouched.emit (h : Untouched k u u') {ops : List StoreOp} (hk : ∀ op ∈ ops, op.key ≠ k) :
    Untouched k u (u'.emit ops) := by
  refine ⟨h.val, Eq.trans ?_ h.row⟩
  rw [rows_emit, batchRC, getElem?_runOps_of_forall_ne _ hk]

theorem Untouched.setVal (h : Untouched k u u') {k' : Bytes} (v : Option Bytes) (hk : k' ≠ k) :
    Untouched k u (u'.setVal k' v) := by
  refine ⟨Eq.trans ?_ h.val, h.row⟩
  rw [fieldVal_setVal, if_neg hk]

/-- The overlays of presence, scores, counters and datatypes are not read for a value. -/
theorem Untouched.overlay (h : Untouched k u u') (hs : u''.store = u'.store)
    (ho : u''.ops = u'.ops) (hv : u''.vals = u'.vals) : Untouched k u u'' := by
  refine ⟨Eq.trans ?_ h.val, Eq.trans ?_ h.row⟩
  · rw [UpdateCtx.fieldVal, UpdateCtx.fieldVal, hv, UpdateCtx.getData, UpdateCtx.getData, hs]
  · rw [rows_eq_of_ops hs ho]

theorem Untouched.emit_one (h : Untouched k u u') {op : StoreOp} (hk : op.key ≠ k) :
    Untouched k u (u'.emit [op]) :=
  h.emit fun op' hop => by rw [List.mem_singleton.mp hop]; exact hk

theorem Untouched.setExists (h : Untouched k u u') (k' : Bytes) (b : Bool) :
    Untouched k u (u'.setExists k' b) := h.overlay rfl rfl rfl

theorem Untouched.setHtype (h : Untouched k u u') (k' : Bytes) (t : UInt8) :
    Untouched k u (u'.setHtype k' t) := h.overlay rfl rfl rfl

theorem Untouched.setZScore (h : Untouched k u u') (k' : Bytes) (v : Option UInt64) :
    Untouched k u (u'.setZScore k' v) := h.overlay rfl rfl rfl

theorem Untouched.bumpCard (h : Untouched k u u') (k' : Bytes) (d : Int64) :
    Untouched k u (u'.bumpCard k' d) := h.overlay rfl rfl rfl

/-- A command changes the rows of its own collection only. -/
theorem Local.untouched (h : Local s c u u') (hs : u'.store = u.store) {rk : RowKey}
    (hk : ¬ rk.ofCommand c) : Untouched (rk.enc s) u u' := by
  refine ⟨?_, h.emits.row_eq hs hk⟩
  rw [UpdateCtx.fieldVal, UpdateCtx.fieldVal, h.vals rk hk, UpdateCtx.getData,
    UpdateCtx.getData, hs]

/-- A step of a command on other fields leaves a field alone. -/
theorem Step.elsewhere (h : Step s c u u') (hc : Elsewhere ns coll f c) :
    Untouched (elemKey s ns.val coll.val f) u u' := by
  rw [elemKey_eq]
  by_cases hscope : (c.ns, c.coll) = (ns, coll)
  swap
  · refine h.local.untouched h.quiet.store fun hk => hscope ?_
    exact (Option.some.inj hk.scope).symm
  obtain ⟨hop', hitems⟩ := hc.resolve_left fun hne => hne hscope
  cases hscope
  have hne : ∀ {key : Bytes} (rk : RowKey), key = rk.enc s → rk ≠ .elem c.ns c.coll f →
      key ≠ (RowKey.elem c.ns c.coll f).enc s := by
    rintro key rk rfl hrk heq
    exact hrk (RowKey.enc_inj.mp heq)
  have helem : ∀ it ∈ c.items, elemKey s c.ns.val c.coll.val it.key.val ≠
      (RowKey.elem c.ns c.coll f).enc s := by
    intro it hit
    exact hne _ (elemKey_eq s c.ns c.coll it.key.val) fun heq =>
      (hitems it hit).1 (RowKey.elem.inj heq).2.2
  have httl : ∀ (m : Bytes) (old : Option UInt64), ∀ op ∈ ttlClearOps s c.ns.val c.coll.val m old,
      op.key ≠ (RowKey.elem c.ns c.coll f).enc s := by
    intro m old op hop
    cases old with
    | none => cases hop
    | some o =>
      rcases List.mem_pair.mp hop with rfl | rfl
      · exact hne _ (ttlIndexKey_eq s c.ns c.coll m o) nofun
      · exact hne _ (ttlPtrKey_eq s c.ns c.coll m) nofun
  have hput : ∀ it ∈ c.items, ∀ v present, Untouched ((RowKey.elem c.ns c.coll f).enc s) u
      (putField s c.ns.val c.coll.val it.key.val v present u) := by
    intro it hit v present
    have hset : Untouched ((RowKey.elem c.ns c.coll f).enc s) u
        (u.emit [.put (elemKey s c.ns.val c.coll.val it.key.val) v]) :=
      (Untouched.refl _ u).emit_one (helem it hit)
    unfold putField
    dsimp only
    split
    · exact (hset.setExists _ _).setVal _ (helem it hit)
    · exact ((hset.setExists _ _).setVal _ (helem it hit)).bumpCard _ _
  have hdel : ∀ it ∈ c.items, Untouched ((RowKey.elem c.ns c.coll f).enc s) u
      (u.emit [.del (elemKey s c.ns.val c.coll.val it.key.val)]) := by
    intro it hit
    exact (Untouched.refl _ u).emit_one (helem it hit)
  cases h with
  | cacheType => exact (Untouched.refl _ u).setHtype _ _
  | newType =>
    refine Untouched.setHtype (Untouched.emit_one (.refl _ u) ?_) _ _
    exact hne _ (typeKey_eq s c.ns c.coll) nofun
  | dropElem _ hit =>
    exact ((((hdel _ hit).setExists _ _).setVal none (helem _ hit)).bumpCard _ _).emit (httl _ _)
  | dropExpired _ hit => exact (((hdel _ hit).setExists _ _).bumpCard _ _).emit (httl _ _)
  | clearTTL => exact (Untouched.refl _ u).emit (httl _ _)
  | setField _ hit => exact hput _ hit _ _
  | incrField _ hit => exact hput _ hit _ _
  | dropScore hop hit =>
    rcases hop with hop | hop
    · rw [hop] at hop'
      cases hop'
    · refine Untouched.bumpCard (Untouched.setZScore (Untouched.emit (.refl _ u)
        fun op hmem => ?_) _ _) _ _
      rcases List.mem_pair.mp hmem with rfl | rfl
      · exact hne _ (zscoreKey_eq s c.ns c.coll _ _) fun heq =>
          (hitems _ hit).2 hop _ (RowKey.elem.inj heq).2.2
      · exact hne _ (zptrKey_eq s c.ns c.coll _) nofun
  | putMember hop | setTTL hop | putScore hop | budInit hop | budGrant hop | budReport hop
  | budReturn hop | budExpire hop | budAbsent hop | budTombGC hop | budReconcile hop =>
    rw [hop] at hop'
    cases hop'

/-- Caching a result touches no element. -/
theorem remember_untouched (r : ProposeResult) :
    Untouched (elemKey s ns.val coll.val f) u (remember s c r u) := by
  have hstore : (remember s c r u).store = u.store := by
    unfold remember
    split <;> rfl
  have hcache : ¬ (RowKey.elem ns coll f).isCache := by
    rintro (⟨key, h⟩ | ⟨slot, h⟩) <;> cases h
  rw [elemKey_eq]
  refine ⟨?_, (remember_emits r).row_eq hstore hcache⟩
  rw [UpdateCtx.fieldVal, UpdateCtx.fieldVal, remember_vals, UpdateCtx.getData, UpdateCtx.getData,
    hstore]

/-- A command elsewhere does not touch the counter. -/
theorem CmdStep.elsewhere {r : ProposeResult} (h : CmdStep s c u r u')
    (hc : Elsewhere ns coll f c) : Untouched (elemKey s ns.val coll.val f) u u' := by
  have hsteps : ∀ {v}, Steps s c u v → Untouched (elemKey s ns.val coll.val f) u v := by
    intro v hv
    induction hv with
    | refl => exact .refl _ u
    | tail _ hstep ih => exact ih.trans (hstep.elsewhere hc)
  rcases h with h | ⟨-, -, v, hv, rfl⟩
  · exact hsteps h
  · exact (hsteps hv).trans (remember_untouched r)

end

/-! ## Increments -/

structure Increments (ns coll : Chunk) (f : Bytes) (delta : Int64) (c : Command) : Prop where
  op : c.op = .hIncrBy
  ns : c.ns = ns
  coll : c.coll = coll
  item : ∃ it rest, c.items = it :: rest ∧ it.key.val = f ∧ ¬ it.val.val.length < 8 ∧
    getI64 it.val.val = delta

/-- A command is applied: its collection is not frozen, no result is known for its key, and the
collection is, or becomes, a hash. -/
def applies (s : UInt64) (frozen : List FrozenRange) (c : Command) (u : UpdateCtx) : Bool :=
  if 0 < frozen.length ∧ mutates c.op = true ∧
      frozenCovers frozen (routeKey c.ns.val c.coll.val) = true then false
  else if deduped c = true ∧ (knownResult s c.idem u).isSome then false
  else
    match ensureType s c.ns.val c.coll.val .hash u with
    | .ok b _ => b
    | .error _ _ => false

/-- The delta a command adds to a field, if it is applied. -/
def adds (s : UInt64) (frozen : List FrozenRange) (ns coll : Chunk) (f : Bytes) (c : Command)
    (u : UpdateCtx) : Option Int64 :=
  match c.items with
  | [] => none
  | it :: _ =>
    if c.op = .hIncrBy ∧ c.ns = ns ∧ c.coll = coll ∧ it.key.val = f ∧
        applies s frozen c u = true then some (getI64 it.val.val)
    else none

/-- A field holds a number, or is absent: as commands read it and in the rows of the batch. -/
def Holds (s : UInt64) (ns coll : Chunk) (f : Bytes) (x : Option Int64) (u : UpdateCtx) : Prop :=
  u.fieldVal (elemKey s ns.val coll.val f) = x.map formatInt ∧
    u.rows[elemKey s ns.val coll.val f]? = x.map formatInt

section
variable {fl : FloatOps} {s : UInt64} {frozen : List FrozenRange} {c : Command} {ns coll : Chunk}
  {f : Bytes} {delta : Int64} {x : Option Int64} {u u' : UpdateCtx} {r : ProposeResult}

theorem Holds.untouched (h : Holds s ns coll f x u)
    (hu : Untouched (elemKey s ns.val coll.val f) u u') : Holds s ns coll f x u' :=
  ⟨hu.val.trans h.1, hu.row.trans h.2⟩

/-- The text of a number is read as the number, and no text as zero. -/
theorem intStep_formatInt (delta : Int64) (x : Option Int64) :
    intStep delta (x.map formatInt) =
      some (formatInt (x.getD 0 + delta), putI64 (x.getD 0 + delta)) := by
  cases x with
  | none => rfl
  | some n => simp only [intStep, Option.map_some, parseInt_formatInt, Option.getD_some]

theorem Holds.putField (s : UInt64) (ns coll : Chunk) (f : Bytes) (n : Int64) (present : Bool)
    (u : UpdateCtx) : Holds s ns coll f (some n)
      (putField s ns.val coll.val f (formatInt n) present u) := by
  have hset : Holds s ns coll f (some n) (((u.emit [.put (elemKey s ns.val coll.val f)
      (formatInt n)]).setExists (elemKey s ns.val coll.val f) true).setVal
        (elemKey s ns.val coll.val f) (some (formatInt n))) := by
    constructor
    · rw [fieldVal_setVal, if_pos rfl]
      rfl
    · show (u.emit _).rows[_]? = _
      rw [rows_emit, batchRC, runOps, List.foldl_cons, List.foldl_nil, getElem?_runOp_put,
        if_pos rfl]
      rfl
  unfold Collections.putField
  dsimp only
  split
  · exact hset
  · exact hset.untouched ((Untouched.refl _ _).bumpCard _ _)

/-- Resolving a datatype touches no element. -/
theorem ensureType_untouched {b : Bool} {w : UpdateCtx}
    (h : ensureType s c.ns.val c.coll.val .hash u = .ok b w) :
    Untouched (elemKey s ns.val coll.val f) u w := by
  -- the steps are those of a hash command without items
  have hsteps := ensureType_steps (s := s) (c := { c with op := .hSet, items := [] }) (u := u)
    (t := .hash) rfl
  rw [h] at hsteps
  exact CmdStep.elsewhere (r := {}) (.inl hsteps.1) (.inr ⟨rfl, fun it hit => by cases hit⟩)

/-- What an increment comes to: if it is applied, the sum, stored and returned; if not, nothing. -/
def Counted (s : UInt64) (frozen : List FrozenRange) (c : Command) (f : Bytes) (delta : Int64)
    (x : Option Int64) (u : UpdateCtx) (r : ProposeResult) (u' : UpdateCtx) : Prop :=
  if applies s frozen c u then
    r.data = putI64 (x.getD 0 + delta) ∧ Holds s c.ns c.coll f (some (x.getD 0 + delta)) u'
  else Holds s c.ns c.coll f x u'

/-- An increment that is not cut short. -/
theorem applyIncr_counted (fl : FloatOps) {it : Item} {rest : List Item} (hop : c.op = .hIncrBy)
    (hitems : c.items = it :: rest) (hlen : ¬ it.val.val.length < 8)
    (hx : Holds s c.ns c.coll it.key.val x u) :
    Ends (fun r u' => r.data = putI64 (x.getD 0 + getI64 it.val.val) ∧
        Holds s c.ns c.coll it.key.val (some (x.getD 0 + getI64 it.val.val)) u')
      (fun _ _ => True) (applyIncr fl s c u) := by
  unfold applyIncr applyHIncr applyHIncrInt incrField
  simp only [hitems, if_pos hop, if_neg hlen, ends_bind, ends_reads, hx.1, intStep_formatInt,
    ends_modify, ends_pure]
  refine ⟨trivial, ?_⟩
  split
  · exact Holds.putField ..
  · exact (Holds.putField ..).untouched (remember_untouched _)

/-- Behind freeze and idempotency check. -/
theorem applyMutation_counted {it : Item} {rest : List Item} (hop : c.op = .hIncrBy)
    (hitems : c.items = it :: rest) (hlen : ¬ it.val.val.length < 8)
    (hx : Holds s c.ns c.coll it.key.val x u)
    (hthawed : ¬ (0 < frozen.length ∧ mutates c.op = true ∧
      frozenCovers frozen (routeKey c.ns.val c.coll.val) = true))
    (hunknown : ¬ (deduped c = true ∧ (knownResult s c.idem u).isSome)) :
    Ends (Counted s frozen c it.key.val (getI64 it.val.val) x u) (fun _ _ => True)
      (applyMutation fl s c u) := by
  have happlies : ∀ {b w}, ensureType s c.ns.val c.coll.val .hash u = .ok b w →
      applies s frozen c u = b := by
    intro b w hens
    rw [applies, if_neg hthawed, if_neg hunknown, hens]
  unfold applyMutation
  simp only [hop, typeForOp, ends_bind]
  cases hens : ensureType s c.ns.val c.coll.val .hash u with
  | error e w => exact trivial
  | ok b w =>
    have hw := hx.untouched (ensureType_untouched hens)
    unfold Counted
    rw [happlies hens]
    cases b with
    | false => exact hw
    | true =>
      exact (applyIncr_counted fl hop hitems hlen hw).imp (fun _ _ hv => hv)
        fun _ _ _ => trivial

/-- An increment that is applied adds its delta and returns the sum; one that is not changes
nothing. -/
theorem applyDecoded_counted (fl : FloatOps) (frozen : List FrozenRange)
    (hinc : Increments ns coll f delta c) (hx : Holds s ns coll f x u) :
    Ends (Counted s frozen c f delta x u) (fun _ _ => True) (applyDecoded fl s frozen c u) := by
  obtain ⟨hop, rfl, rfl, it, rest, hitems, rfl, hlen, rfl⟩ := hinc
  have hrefused : ∀ {r}, applies s frozen c u = false →
      Counted s frozen c it.key.val (getI64 it.val.val) x u r u := by
    intro r hno
    unfold Counted
    rw [hno]
    exact hx
  unfold applyDecoded
  refine ends_ite (fun hfrozen => hrefused (if_pos hfrozen))
    fun hthawed => ends_ite (fun hkeyed => ?_) fun hplain => ?_
  · rw [ends_bind, ends_reads]
    cases hknown : knownResult s c.idem u with
    | some r =>
      refine hrefused ?_
      rw [applies, if_neg hthawed, if_pos ⟨hkeyed, by rw [hknown]; rfl⟩]
    | none =>
      refine applyMutation_counted hop hitems hlen hx hthawed fun hk => ?_
      rw [hknown] at hk
      cases hk.2
  · exact applyMutation_counted hop hitems hlen hx hthawed fun hk => hplain hk.1

theorem adds_increments (hinc : Increments ns coll f delta c) :
    adds s frozen ns coll f c u = if applies s frozen c u then some delta else none := by
  obtain ⟨hop, hns, hcoll, it, rest, hitems, hkey, -, hdelta⟩ := hinc
  simp only [adds, hitems, hop, hns, hcoll, hkey, hdelta, true_and]

theorem adds_elsewhere (hc : Elsewhere ns coll f c) : adds s frozen ns coll f c u = none := by
  unfold adds
  split
  · rfl
  · rename_i it rest hitems
    refine if_neg ?_
    rintro ⟨-, hns, hcoll, hkey, -⟩
    rcases hc with hne | ⟨-, hne⟩
    · exact hne (by rw [hns, hcoll])
    · exact (hne it (by simp [hitems])).1 hkey

end

/-! ## Runs -/

/-- The initial value and all deltas, added up. -/
def total (x : Option Int64) (done : List (Int64 × Bytes)) : Int :=
  (x.getD 0).toInt + (done.map fun e => e.1.toInt).sum

def shown (x : Option Int64) (done : List (Int64 × Bytes)) : Option Int64 :=
  if done = [] then x else some (Int64.ofInt (total x done))

/-- Every sum along the way is a machine integer. -/
def SumsFit (x : Option Int64) (done : List (Int64 × Bytes)) : Prop :=
  ∀ l, l <+: done → -2 ^ 63 ≤ total x l ∧ total x l < 2 ^ 63

def SumsReturned (x : Option Int64) (done : List (Int64 × Bytes)) : Prop :=
  ∀ l e, l ++ [e] <+: done → ∃ n : Int64, n.toInt = total x (l ++ [e]) ∧ e.2 = putI64 n

/-- A command that ran: what it added to the field, and its result. -/
structure Ran where
  adds : Option Int64
  result : ProposeResult
  deriving DecidableEq, Repr

/-- The increments among commands that ran, with the data they returned. -/
def added (rans : List Ran) : List (Int64 × Bytes) :=
  rans.filterMap fun a => a.adds.map (·, a.result.data)

def packed (cmd : Bytes) (rans : List Ran) : ProposeResult :=
  if opByte? cmd = some .batch then
    { value := 0, data := encodeBatchResult (rans.map (·.result)) }
  else (rans.map (·.result)).headD {}

section
variable (fl : FloatOps) (s : UInt64) (ns coll : Chunk) (f : Bytes)

def ranSubs (frozen : List FrozenRange) : List Bytes → UpdateCtx → List Ran
  | [], _ => []
  | b :: bs, u =>
    match decodeCommandInto b with
    | .error _ => []
    | .ok c =>
      match applyDecoded fl s frozen c u with
      | .error _ _ => []
      | .ok r u' => ⟨adds s frozen ns coll f c u, r⟩ :: ranSubs frozen bs u'

/-- Of one entry; none of an entry that is rolled back. -/
def ranEntry (frozen : List FrozenRange) (cmd : Bytes) (u : UpdateCtx) : List Ran :=
  match applyEntry fl s frozen cmd u with
  | .error _ _ => []
  | .ok _ _ => if isControl cmd then [] else ranSubs fl s ns coll f frozen (subsOf cmd) u

def ranEntries (frozen : List FrozenRange) : List Entry → UpdateCtx → List (List Ran)
  | [], _ => []
  | e :: es, u =>
    ranEntry fl s ns coll f frozen e.cmd u ::
      match applyEntry fl s frozen e.cmd u with
      | .ok _ u' => ranEntries frozen es u'
      | .error _ u' => ranEntries frozen es (u'.restore u.snapshot)

def ran (st : Store) : List (List Entry) → List (List Ran)
  | [] => []
  | es :: bs =>
    ranEntries fl s ns coll f (loadFrozen s st) es (newCtx s st) ++
      match update fl s st es with
      | .ok (st', _) => ran st' bs
      | .error _ => []

end

section
variable {fl : FloatOps} {s : UInt64} {frozen : List FrozenRange} {ns coll : Chunk} {f : Bytes}
  {x : Option Int64} {u v : UpdateCtx} {done : List (Int64 × Bytes)}

/-- One more increment. -/
theorem total_append (x : Option Int64) (done : List (Int64 × Bytes)) (e : Int64 × Bytes) :
    total x (done ++ [e]) = total x done + e.1.toInt := by
  simp [total, Int.add_assoc]

theorem shown_concat (x : Option Int64) (done : List (Int64 × Bytes)) (e : Int64 × Bytes) :
    shown x (done ++ [e]) = some (Int64.ofInt (total x (done ++ [e]))) :=
  if_neg (by simp)

/-- While the sums fit, the counter shows their total. -/
theorem toInt_shown (h : SumsFit x done) : ((shown x done).getD 0).toInt = total x done := by
  unfold shown
  split
  · rename_i hnil
    simp [total, hnil]
  · have := h done (List.prefix_refl _)
    exact Int64.toInt_ofInt_of_le this.1 this.2

theorem total_shown {done' : List (Int64 × Bytes)} (h : SumsFit x done) :
    total (shown x done) done' = total x (done ++ done') := by
  rw [total, toInt_shown h, total, total, List.map_append, List.sum_append, Int.add_assoc]

/-- Counting goes on from what is shown. -/
theorem shown_shown {done' : List (Int64 × Bytes)} (h : SumsFit x done) :
    shown (shown x done) done' = shown x (done ++ done') := by
  by_cases hnil : done' = []
  · rw [hnil, List.append_nil]
    exact if_pos rfl
  · rw [show shown (shown x done) done' = _ from if_neg hnil, total_shown h]
    exact (if_neg (by simp [hnil])).symm

theorem SumsFit.init {e : Int64 × Bytes} (h : SumsFit x (done ++ [e])) : SumsFit x done :=
  fun _ hl => h _ (hl.trans (List.prefix_append _ _))

/-- The machine adds the next delta as the integers do. -/
theorem shown_append (done : List (Int64 × Bytes)) {e : Int64 × Bytes}
    (h : SumsFit x (done ++ [e])) :
    some ((shown x done).getD 0 + e.1) = shown x (done ++ [e]) := by
  have hval := toInt_shown h.init
  have hfit := h _ (List.prefix_refl _)
  rw [total_append] at hfit
  rw [shown_concat, total_append]
  refine congrArg some (Int64.toInt_inj.mp ?_)
  rw [toInt_add_exact (by omega) (by omega), hval]
  exact (Int64.toInt_ofInt_of_le hfit.1 hfit.2).symm

theorem holds_newCtx {st : Store} :
    Holds s ns coll f x (newCtx s st) ↔ st[elemKey s ns.val coll.val f]? = x.map formatInt := by
  have hval : (newCtx s st).fieldVal (elemKey s ns.val coll.val f) =
      st[elemKey s ns.val coll.val f]? := by
    simp [UpdateCtx.fieldVal, newCtx, UpdateCtx.getData]
  constructor
  · intro h
    exact h.2
  · intro h
    exact ⟨hval.trans h, h⟩

/-- What the row holds at the end of a batch is what the next one starts from. -/
theorem Holds.commit {st st' : Store} {es : List Entry} {rs : List ProposeResult}
    (h : Holds s ns coll f x v)
    (hv : applyEntries fl s (loadFrozen s st) es (newCtx s st) = .ok (v, rs))
    (hst : update fl s st es = .ok (st', rs)) : Holds s ns coll f x (newCtx s st') := by
  rw [holds_newCtx, ← h.2, elemKey_eq]
  exact update_rows hv hst rfl nofun nofun

/-- What increments showed on top of earlier ones. -/
theorem SumsFit.split {done' : List (Int64 × Bytes)} (h : SumsFit x (done ++ done')) :
    SumsFit x done ∧ SumsFit (shown x done) done' := by
  have hfit : SumsFit x done := fun l hl => h l (hl.trans (List.prefix_append _ _))
  refine ⟨hfit, fun l hl => ?_⟩
  rw [total_shown hfit]
  exact h _ ((List.prefix_append_right_inj done).mpr hl)

theorem SumsReturned.nil (x : Option Int64) : SumsReturned x [] := by
  intro l e hl
  cases l <;> simp at hl

/-- What increments returned on top of earlier ones. -/
theorem SumsReturned.append {done' : List (Int64 × Bytes)} (hfit : SumsFit x done)
    (h : SumsReturned x done) (h' : SumsReturned (shown x done) done') :
    SumsReturned x (done ++ done') := by
  intro l e hl
  rcases Nat.lt_or_ge l.length done.length with hlt | hge
  · exact h l e (List.prefix_of_prefix_length_le hl (List.prefix_append _ _) (by simpa))
  · obtain ⟨l', rfl⟩ := List.prefix_of_prefix_length_le (List.prefix_append _ _)
      ((List.prefix_append l [e]).trans hl) hge
    rw [List.append_assoc] at hl ⊢
    have := h' l' e ((List.prefix_append_right_inj done).mp hl)
    rwa [total_shown hfit] at this

/-- A sum that was returned is a machine integer. -/
theorem SumsReturned.sumsFit (h : SumsReturned x done) : SumsFit x done := by
  intro l hl
  rcases List.eq_nil_or_concat l with rfl | ⟨l, e, rfl⟩
  · have hval : total x [] = (x.getD 0).toInt := by simp [total]
    rw [hval]
    exact ⟨(x.getD 0).le_toInt, (x.getD 0).toInt_lt⟩
  · rw [List.concat_eq_append] at hl ⊢
    obtain ⟨n, hn, -⟩ := h l e hl
    rw [← hn]
    exact ⟨n.le_toInt, n.toInt_lt⟩

/-- From one context to another a counter moves by the increments `done`, each of which returned
its sum, if the sums are machine integers. -/
def Tallies (s : UInt64) (ns coll : Chunk) (f : Bytes) (u : UpdateCtx)
    (done : List (Int64 × Bytes)) (v : UpdateCtx) : Prop :=
  ∀ x, Holds s ns coll f x u → SumsFit x done →
    Holds s ns coll f (shown x done) v ∧ SumsReturned x done

/-- Where the field is untouched nothing is added. -/
theorem Tallies.untouched (h : Untouched (elemKey s ns.val coll.val f) u v) :
    Tallies s ns coll f u [] v :=
  fun x hx _ => ⟨hx.untouched h, .nil x⟩

/-- Tallies one after the other. -/
theorem Tallies.append {w : UpdateCtx} {done' : List (Int64 × Bytes)}
    (h : Tallies s ns coll f u done v) (h' : Tallies s ns coll f v done' w) :
    Tallies s ns coll f u (done ++ done') w := by
  intro x hx hfit
  obtain ⟨hfit₁, hfit₂⟩ := hfit.split
  obtain ⟨hv, hret₁⟩ := h x hx hfit₁
  obtain ⟨hw, hret₂⟩ := h' _ hv hfit₂
  exact ⟨shown_shown hfit₁ ▸ hw, hret₁.append hfit₁ hret₂⟩

/-- The commands of a batch add to a field or leave it alone, and no rows move. -/
def CountsIn (ns coll : Chunk) (f : Bytes) (es : List Entry) : Prop :=
  ∀ e ∈ es, ¬ Migrates e.cmd ∧ ∀ b ∈ subsOf e.cmd, ∀ c, decodeCommandInto b = .ok c →
    Elsewhere ns coll f c ∨ ∃ delta, Increments ns coll f delta c

/-- One command's tally. -/
theorem applyDecoded_tallies {c : Command} {r : ProposeResult}
    (hc : Elsewhere ns coll f c ∨ ∃ delta, Increments ns coll f delta c)
    (h : applyDecoded fl s frozen c u = .ok r v) :
    Tallies s ns coll f u (added [⟨adds s frozen ns coll f c u, r⟩]) v := by
  rcases hc with hc | ⟨delta, hinc⟩
  · have hstep := applyDecoded_done fl (s := s) (c := c) (u := u) frozen
    rw [h] at hstep
    rw [adds_elsewhere hc]
    exact .untouched (CmdStep.elsewhere hstep hc)
  intro x hx hfit
  have hstep := applyDecoded_counted fl frozen hinc hx
  rw [h] at hstep
  unfold Counted Ends at hstep
  rw [adds_increments hinc] at hfit ⊢
  rw [hinc.ns, hinc.coll] at hstep
  cases happlies : applies s frozen c u with
  | false =>
    rw [happlies] at hstep
    exact ⟨hstep, .nil x⟩
  | true =>
    rw [happlies] at hstep hfit
    obtain ⟨hdata, hv⟩ := hstep
    have hone := hfit _ (List.prefix_refl _)
    have hsum := shown_append [] hfit
    rw [shown_concat, Option.some.injEq] at hsum
    refine ⟨?_, fun l e hl => ?_⟩
    · have : shown x (added [⟨some delta, r⟩]) = some (x.getD 0 + delta) :=
        (shown_append [] hfit).symm
      exact this ▸ hv
    · have hl' : l ++ [e] = [(delta, r.data)] := by
        refine hl.eq_of_length_le ?_
        simp [added]
      obtain ⟨rfl, he⟩ := List.append_inj' (hl'.trans (List.nil_append _).symm) rfl
      cases he
      refine ⟨x.getD 0 + delta, ?_, hdata⟩
      refine (congrArg Int64.toInt hsum).trans ?_
      exact Int64.toInt_ofInt_of_le hone.1 hone.2

theorem applySubs_tallies {subs : List Bytes} (hsubs : ∀ b ∈ subs, ∀ c,
      decodeCommandInto b = .ok c → Elsewhere ns coll f c ∨ ∃ delta, Increments ns coll f delta c)
    (rs : List ProposeResult) :
    Ends (fun rs' v => rs' = rs ++ (ranSubs fl s ns coll f frozen subs u).map (·.result) ∧
        Tallies s ns coll f u (added (ranSubs fl s ns coll f frozen subs u)) v) (fun _ _ => True)
      (applySubs fl s frozen rs subs u) := by
  induction subs generalizing u rs with
  | nil => exact ⟨(List.append_nil rs).symm, .untouched (.refl _ u)⟩
  | cons b bs ih =>
    simp only [applySubs, List.foldlM_cons, ends_bind, ends_pure, applyOne, ranSubs]
    cases hd : decodeCommandInto b with
    | error e => exact trivial
    | ok c =>
      dsimp only
      cases hr : applyDecoded fl s frozen c u with
      | error e v => exact trivial
      | ok r v =>
        have hone := applyDecoded_tallies (hsubs b (by simp) c hd) hr
        refine (ih (u := v) (fun b' hb' => hsubs b' (by simp [hb'])) (rs ++ [r])).imp
          (fun rs' w hw => ⟨?_, ?_⟩) (fun _ _ h => h)
        · rw [hw.1, List.append_assoc]
          rfl
        · dsimp only
          rw [← List.singleton_append, added, List.filterMap_append]
          exact hone.append hw.2

/-- One turn of the entry loop. -/
theorem Turn.tallies {e : Entry} {r : ProposeResult} (hes : CountsIn ns coll f [e])
    (h : Turn fl s frozen e u v r) :
    Tallies s ns coll f u (added (ranEntry fl s ns coll f frozen e.cmd u)) v ∧
      (ranEntry fl s ns coll f frozen e.cmd u ≠ [] →
        r = packed e.cmd (ranEntry fl s ns coll f frozen e.cmd u)) := by
  obtain ⟨hmoves, hcmds⟩ := hes e (by simp)
  unfold ranEntry
  cases h with
  | skipped hr =>
    rw [hr]
    exact ⟨.untouched (.refl _ u), fun hne => absurd rfl hne⟩
  | applied hr =>
    rw [hr]
    cases hc : isControl e.cmd with
    | true =>
      refine ⟨.untouched ?_, fun hne => absurd rfl hne⟩
      have hfrozen : ∀ {start : Bytes} {op : StoreOp}, op.key = frozenKey s start →
          Untouched (elemKey s ns.val coll.val f) u (u.emit [op]) := by
        intro start op hkey
        refine (Untouched.refl _ u).emit_one ?_
        rw [hkey, frozenKey_eq, elemKey_eq, Ne, RowKey.enc_inj]
        exact nofun
      have hdone := applyEntry_done fl s frozen u e.cmd
      rw [hr] at hdone
      cases hdone with
      | ingest hop _ => exact absurd (.inl hop) hmoves
      | purge hop _ => exact absurd (.inr hop) hmoves
      | freeze _ _ => exact hfrozen rfl
      | unfreeze _ _ => exact hfrozen rfl
      | commands hd _ => rw [commandsOf_control hc] at hd; cases hd
    | false =>
      obtain ⟨rs, hrun, hpacked⟩ := applyEntry_commands hc hr
      have hsubs : Ends _ _ (applySubs fl s frozen [] _ u) := applySubs_tallies hcmds []
      rw [hrun] at hsubs
      obtain ⟨rfl, htally⟩ := hsubs
      exact ⟨htally, fun _ => hpacked⟩

def Answered (p : Entry × List Ran) (r : ProposeResult) : Prop :=
  p.2 ≠ [] → r = packed p.1.cmd p.2

theorem ranEntries_cons (e : Entry) (es : List Entry) {r : ProposeResult}
    (h : Turn fl s frozen e u v r) :
    ranEntries fl s ns coll f frozen (e :: es) u =
      ranEntry fl s ns coll f frozen e.cmd u :: ranEntries fl s ns coll f frozen es v := by
  rw [ranEntries]
  cases h with
  | applied hr => rw [hr]
  | skipped hr =>
    have hdone := applyEntry_done fl s frozen u e.cmd
    rw [hr] at hdone ⊢
    dsimp only
    rw [restore_snapshot hdone.2]

/-- The tally of a batch. -/
theorem applyEntries_tallies {es : List Entry} {rs : List ProposeResult}
    (hes : CountsIn ns coll f es) (hv : applyEntries fl s frozen es u = .ok (v, rs)) :
    Tallies s ns coll f u (added (ranEntries fl s ns coll f frozen es u).flatten) v ∧
      (ranEntries fl s ns coll f frozen es u).length = es.length ∧
      List.Forall₂ Answered (es.zip (ranEntries fl s ns coll f frozen es u)) rs := by
  induction es generalizing u rs with
  | nil =>
    cases hv
    exact ⟨.untouched (.refl _ _), rfl, .nil⟩
  | cons e es ih =>
    obtain ⟨w, r, rs', hturn, hv', rfl⟩ := applyEntries_cons_ok hv
    obtain ⟨hone, hanswer⟩ := hturn.tallies (fun e' he' => hes e' (by simp_all))
    obtain ⟨hrest, hlen, hanswers⟩ := ih (fun e' he' => hes e' (by simp [he'])) hv'
    rw [ranEntries_cons e es hturn, List.flatten_cons, added, List.filterMap_append]
    exact ⟨hone.append hrest, congrArg (· + 1) hlen, .cons hanswer hanswers⟩

/-- The sums of a run that are machine integers are stored and returned. -/
theorem updates_tallies {st st' : Store} {bs : List (List Entry)} {rs : List ProposeResult}
    (hbs : ∀ es ∈ bs, CountsIn ns coll f es) (hst : updates fl s st bs = .ok (st', rs)) :
    Tallies s ns coll f (newCtx s st) (added (ran fl s ns coll f st bs).flatten) (newCtx s st') ∧
      List.Forall₂ Answered (bs.flatten.zip (ran fl s ns coll f st bs)) rs := by
  induction bs generalizing st rs with
  | nil =>
    cases hst
    exact ⟨.untouched (.refl _ _), .nil⟩
  | cons es bs ih =>
    unfold updates at hst
    cases hu : update fl s st es with
    | error e => rw [hu] at hst; cases hst
    | ok p =>
      rw [hu] at hst
      cases hrest : updates fl s p.1 bs with
      | error e => simp [hrest, Except.map] at hst
      | ok q =>
        simp only [hrest, Except.map, Except.ok.injEq, Prod.mk.injEq] at hst
        obtain ⟨rfl, rfl⟩ := hst
        obtain ⟨v, hv⟩ := update_ctx hu
        obtain ⟨hone, hlen, hanswer⟩ := applyEntries_tallies (hbs es (by simp)) hv
        obtain ⟨htail, hanswers⟩ := ih (fun es' hes' => hbs es' (by simp [hes'])) hrest
        have hcommit : Tallies s ns coll f (newCtx s st)
            (added (ranEntries fl s ns coll f (loadFrozen s st) es (newCtx s st)).flatten)
            (newCtx s p.1) :=
          fun x hx hfit => (hone x hx hfit).imp (fun h => h.commit hv hu) id
        rw [ran, hu, List.flatten_append, List.flatten_cons, added, List.filterMap_append,
          List.zip_append hlen.symm]
        exact ⟨hcommit.append htail, List.rel_append hanswer hanswers⟩

end

/-- Whatever the batches, every entry returns what its commands returned, and every increment of
the field that is applied returned the initial value and all deltas applied so far exactly if
these sums are machine integers. The field then ends as the text of the last one. -/
theorem counter_exact (fl : FloatOps) (s : UInt64) (ns coll : Chunk) (f : Bytes)
    (x : Option Int64) (st st' : Store) (bs : List (List Entry)) (rs : List ProposeResult)
    (hx : st[elemKey s ns.val coll.val f]? = x.map formatInt)
    (hbs : ∀ es ∈ bs, CountsIn ns coll f es) (hst : updates fl s st bs = .ok (st', rs)) :
    let done := added (ran fl s ns coll f st bs).flatten
    List.Forall₂ Answered (bs.flatten.zip (ran fl s ns coll f st bs)) rs ∧
    (SumsReturned x done ↔ SumsFit x done) ∧
    (SumsFit x done → st'[elemKey s ns.val coll.val f]? = (shown x done).map formatInt) := by
  obtain ⟨htally, hanswers⟩ := updates_tallies hbs hst
  refine ⟨hanswers, ⟨SumsReturned.sumsFit, fun hfit => ?_⟩, fun hfit => ?_⟩
  · exact (htally x (holds_newCtx.mpr hx) hfit).2
  · exact holds_newCtx.mp (htally x (holds_newCtx.mpr hx) hfit).1

def countUp (delta : Int64) : Command :=
  { op := .hIncrBy, ns := Chunk.byte 1, coll := Chunk.byte 2,
    items := [{ key := Chunk.byte 7, val := ⟨putI64 delta, by simp [length_putI64]⟩ }] }

def setOther : Command :=
  { op := .hSet, ns := Chunk.byte 1, coll := Chunk.byte 2,
    items := [{ key := Chunk.byte 8, val := Chunk.byte 9 }] }

/-- An increment, and then two of them in one entry around a command on another field. -/
def countLog : List (List Entry) :=
  [[{ index := 1, cmd := encodeCommand (countUp 5) }],
    [{ index := 2, cmd := encodeBatchInto [encodeCommand (countUp 7), encodeCommand setOther,
      encodeCommand (countUp (-20))] }]]

theorem increments_countUp (delta : Int64) :
    Increments (Chunk.byte 1) (Chunk.byte 2) [7] delta (countUp delta) :=
  ⟨rfl, rfl, rfl, _, _, rfl, rfl, by simp [length_putI64], by simpa using getI64_putI64 delta []⟩

theorem countsIn_countLog :
    ∀ es ∈ countLog, CountsIn (Chunk.byte 1) (Chunk.byte 2) [7] es := by
  have hfirst : subsOf (encodeCommand (countUp 5)) = [countUp 5].map encodeCommand := by
    decide +kernel
  have hsecond : subsOf (encodeBatchInto [encodeCommand (countUp 7), encodeCommand setOther,
      encodeCommand (countUp (-20))]) = [countUp 7, setOther, countUp (-20)].map encodeCommand := by
    decide +kernel
  have hother : Elsewhere (Chunk.byte 1) (Chunk.byte 2) [7] setOther := by
    refine .inr ⟨rfl, fun it hit => ?_⟩
    rw [List.mem_singleton.mp hit]
    exact ⟨by decide, nofun⟩
  have hcmds : ∀ cs : List Command, (∀ c ∈ cs, decodeCommandInto (encodeCommand c) = .ok c ∧
        (c = setOther ∨ ∃ delta, c = countUp delta)) →
      ∀ b ∈ cs.map encodeCommand, ∀ c, decodeCommandInto b = .ok c →
        Elsewhere (Chunk.byte 1) (Chunk.byte 2) [7] c ∨
          ∃ delta, Increments (Chunk.byte 1) (Chunk.byte 2) [7] delta c := by
    intro cs hcs b hb c hd
    obtain ⟨c', hc', rfl⟩ := List.mem_map.mp hb
    obtain ⟨hdec, hc⟩ := hcs c' hc'
    rw [hdec] at hd
    cases hd
    rcases hc with rfl | ⟨delta, rfl⟩
    · exact .inl hother
    · exact .inr ⟨delta, increments_countUp delta⟩
  intro es hes e he
  rcases List.mem_pair.mp hes with rfl | rfl <;> rw [List.mem_singleton.mp he]
  · refine ⟨by unfold Migrates; decide +kernel, hfirst ▸ hcmds _ fun c hc => ?_⟩
    rw [List.mem_singleton.mp hc]
    exact ⟨by decide +kernel, .inr ⟨5, rfl⟩⟩
  · refine ⟨by unfold Migrates; decide +kernel, hsecond ▸ hcmds _ fun c hc => ?_⟩
    simp only [List.mem_cons, List.not_mem_nil, or_false] at hc
    rcases hc with rfl | rfl | rfl
    · exact ⟨by decide +kernel, .inr ⟨7, rfl⟩⟩
    · exact ⟨by decide +kernel, .inl rfl⟩
    · exact ⟨by decide +kernel, .inr ⟨-20, rfl⟩⟩

/-- An absent counter goes to 5, to 12 and to -8. -/
theorem counter_exact_batches : ∃ st' rs,
    updates FloatOps.absent 1 ∅ countLog = .ok (st', rs) ∧
    List.Forall₂ Answered (countLog.flatten.zip
      (ran FloatOps.absent 1 (Chunk.byte 1) (Chunk.byte 2) [7] ∅ countLog)) rs ∧
    SumsReturned none [(5, putI64 5), (7, putI64 12), (-20, putI64 (-8))] ∧
    st'[elemKey 1 [1] [2] [7]]? = some (formatInt (-8)) := by
  have hok : (updates FloatOps.absent 1 ∅ countLog).isOk = true := by decide +kernel
  have hran : added (ran FloatOps.absent 1 (Chunk.byte 1) (Chunk.byte 2) [7] ∅ countLog).flatten =
      [(5, putI64 5), (7, putI64 12), (-20, putI64 (-8))] := by decide +kernel
  have hfit : SumsFit none [(5, putI64 5), (7, putI64 12), (-20, putI64 (-8))] := by
    intro l hl
    simp only [List.prefix_cons_iff, List.prefix_nil] at hl
    rcases hl with rfl | ⟨_, rfl, rfl | ⟨_, rfl, rfl | ⟨_, rfl, rfl⟩⟩⟩ <;> decide
  cases hst : updates FloatOps.absent 1 ∅ countLog with
  | error e => rw [hst] at hok; cases hok
  | ok p =>
    obtain ⟨hanswers, hsums, hend⟩ := counter_exact _ 1 (Chunk.byte 1) (Chunk.byte 2) [7] none ∅
      p.1 _ p.2 rfl countsIn_countLog hst
    rw [hran] at hsums hend
    exact ⟨p.1, p.2, rfl, hanswers, hsums.mpr hfit, hend hfit⟩

def countUps (deltas : List Int64) : List (List Entry) :=
  deltas.map fun delta => [{ index := 1, cmd := encodeCommand (countUp delta) }]

/-- The largest number plus one is out of range. The command is applied all the same: it stores
and returns the smallest number. -/
theorem counter_wraps :
    ¬ SumsFit none [(Int64.maxValue, putI64 Int64.maxValue), (1, putI64 Int64.minValue)] ∧
    (updates FloatOps.absent 1 ∅ (countUps [Int64.maxValue, 1])).map
        (fun p => (p.1[elemKey 1 [1] [2] [7]]?, p.2.map (·.data)))
      = .ok (some (formatInt Int64.minValue), [putI64 Int64.maxValue, putI64 Int64.minValue]) := by
  refine ⟨fun h => absurd (h _ (List.prefix_refl _)).2 (by decide), by decide +kernel⟩

end WaveSpan.Collections
