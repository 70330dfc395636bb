/-
WaveSpan.Records.Clock — the hybrid logical clock (`internal/version/hlc.go`).

A clock keeps the last stamp it handed out. `Clock.now` issues a local stamp and
`Clock.update` merges a remote one, refusing it when it runs further ahead of
the wall clock than the skew bound. Words are machine words: every `+ 1` below
wraps as the source's does.

The wall clock is an argument of each call, so a run is a list of calls
(`Clock.run`) and the wall may jump in either direction. `Clock.seen` lists the
stamps a run handed out or accepted. The invariant of a run is `Ahead`: the last
stamp is at or above everything seen, its logical part fits 16 bits, and the
physical part is far from overflowing. A call moves strictly past the last stamp
unless a remote logical counter is at its maximum, where the increment wraps to
zero (`update_below_remote`).
-/
import WaveSpan.Records.Version

namespace WaveSpan.Records

/-! ## Stamps -/

/-- The (physical ms, logical) pair of a hybrid clock. -/
@[ext] structure Timestamp where
  physicalMs : UInt64 := 0
  logical : UInt32 := 0
  deriving DecidableEq, Repr

def maxLogical : UInt32 := 0xFFFF

/-- Stamps in the order of their physical, then their logical part. -/
def Timestamp.compare (t o : Timestamp) : Ordering :=
  if t.physicalMs ≠ o.physicalMs then cmpUint64 t.physicalMs o.physicalMs
  else cmpUint32 t.logical o.logical

def Version.timestamp (a : Version) : Timestamp := ⟨a.hlcPhysicalMs, a.hlcLogical⟩

def max64 (a b : UInt64) : UInt64 := if a > b then a else b

def max32 (a b : UInt32) : UInt32 := if a > b then a else b

/-- Carries a logical counter beyond its ceiling into the physical part. -/
def normalize (phys : UInt64) (logical : UInt32) : Timestamp :=
  if maxLogical < logical then normalize (phys + 1) (logical - (maxLogical + 1))
  else ⟨phys, logical⟩
termination_by logical.toNat
decreasing_by
  rename_i h
  have hlt : 65535 < logical.toNat := UInt32.lt_iff_toNat_lt.mp h
  have hle : (maxLogical + 1) ≤ logical := UInt32.le_iff_toNat_le.mpr (by
    show 65536 ≤ logical.toNat
    omega)
  rw [UInt32.toNat_sub_of_le _ _ hle]
  show logical.toNat - 65536 < logical.toNat
  omega

/-! ## The clock -/

structure Clock where
  last : Timestamp := {}
  maxSkewMs : UInt64
  skewRejects : UInt64 := 0
  deriving DecidableEq, Repr

/-- A clock with the given skew bound; a zero bound stands for 500 ms. -/
def newClock (maxSkewMs : UInt64) : Clock :=
  { maxSkewMs := if maxSkewMs = 0 then 500 else maxSkewMs }

/-- A remote stamp beyond the skew bound. -/
structure SkewError where
  remoteMs : UInt64
  wallMs : UInt64
  maxSkewMs : UInt64
  deriving DecidableEq, Repr

namespace Clock

/-- Issues a local stamp at a reading of the wall clock. -/
def now (c : Clock) (wall : UInt64) : Timestamp × Clock :=
  let phys := max64 c.last.physicalMs wall
  let logical := if phys = c.last.physicalMs then c.last.logical + 1 else 0
  let last := normalize phys logical
  (last, { c with last := last })

def update (c : Clock) (wall : UInt64) (remote : Timestamp) :
    Except SkewError Timestamp × Clock :=
  if remote.physicalMs > wall + c.maxSkewMs then
    (.error ⟨remote.physicalMs, wall, c.maxSkewMs⟩, { c with skewRejects := c.skewRejects + 1 })
  else
    let phys := max64 (max64 c.last.physicalMs remote.physicalMs) wall
    let logical :=
      if phys = c.last.physicalMs ∧ phys = remote.physicalMs then
        max32 c.last.logical remote.logical + 1
      else if phys = c.last.physicalMs then c.last.logical + 1
      else if phys = remote.physicalMs then remote.logical + 1
      else 0
    let last := normalize phys logical
    (.ok last, { c with last := last })

end Clock

/-- A call of the clock, with the reading of the wall clock it makes. -/
inductive Call where
  | now (wall : UInt64)
  | update (wall : UInt64) (remote : Timestamp)
  deriving DecidableEq, Repr

def Call.wall : Call → UInt64
  | .now wall => wall
  | .update wall _ => wall

namespace Clock

/-- One call: the stamp it returns (none for a refused one), the clock after it. -/
def call (c : Clock) : Call → Option Timestamp × Clock
  | .now wall => (some (c.now wall).1, (c.now wall).2)
  | .update wall remote => ((c.update wall remote).1.toOption, (c.update wall remote).2)

/-- The remote stamp a call merges, when it is not refused. -/
def accepted (c : Clock) : Call → List Timestamp
  | .now _ => []
  | .update wall remote => if remote.physicalMs > wall + c.maxSkewMs then [] else [remote]

def run (c : Clock) : List Call → Clock
  | [] => c
  | k :: ks => run (c.call k).2 ks

/-- The stamps a run handed out and the remote stamps it accepted. -/
def seen (c : Clock) : List Call → List Timestamp
  | [] => []
  | k :: ks => c.accepted k ++ (c.call k).1.toList ++ seen (c.call k).2 ks

end Clock

/-! ## The order of stamps -/

namespace Timestamp

/-- A stamp as one number, physical part above the logical one. -/
def rank (t : Timestamp) : Nat := t.physicalMs.toNat * 2 ^ 32 + t.logical.toNat

theorem rank_injective : Function.Injective rank := by
  intro t o h
  have ht := t.logical.toNat_lt
  have ho := o.logical.toNat_lt
  unfold rank at h
  exact Timestamp.ext (UInt64.toNat_inj.mp (by omega)) (UInt32.toNat_inj.mp (by omega))

instance : LinearOrder Timestamp := LinearOrder.lift' rank rank_injective

/-- Stamps compare as their ranks. -/
theorem lt_iff_rank {t o : Timestamp} : t < o ↔ t.rank < o.rank := Iff.rfl

/-- Physical part first, then the logical one. -/
theorem lt_iff {t o : Timestamp} :
    t < o ↔ t.physicalMs.toNat < o.physicalMs.toNat ∨
      t.physicalMs.toNat = o.physicalMs.toNat ∧ t.logical.toNat < o.logical.toNat := by
  have ht := t.logical.toNat_lt
  have ho := o.logical.toNat_lt
  rw [lt_iff_rank]
  unfold rank
  omega

/-- The source's comparison is this order. -/
theorem compare_eq_lt_iff {t o : Timestamp} : t.compare o = .lt ↔ t < o := by
  rw [lt_iff]
  unfold compare
  by_cases hp : t.physicalMs = o.physicalMs
  · simp [hp, cmpUint32_eq, Std.compare_eq_lt, UInt32.lt_iff_toNat_lt]
  · have hne : t.physicalMs.toNat ≠ o.physicalMs.toNat := fun h => hp (UInt64.toNat_inj.mp h)
    simp [hp, hne, cmpUint64_eq, Std.compare_eq_lt, UInt64.lt_iff_toNat_lt]

end Timestamp

/-! ## Carrying the logical counter -/

/-- While the physical part has room, `normalize` is division by the ceiling. -/
theorem normalize_toNat (phys : UInt64) (logical : UInt32)
    (h : phys.toNat + logical.toNat / 2 ^ 16 < 2 ^ 64) :
    (normalize phys logical).physicalMs.toNat = phys.toNat + logical.toNat / 2 ^ 16 ∧
      (normalize phys logical).logical.toNat = logical.toNat % 2 ^ 16 := by
  induction phys, logical using normalize.induct with
  | case1 phys logical hlt ih =>
    have hl : 65535 < logical.toNat := UInt32.lt_iff_toNat_lt.mp hlt
    have hsub : (logical - (maxLogical + 1)).toNat = logical.toNat - 65536 :=
      UInt32.toNat_sub_of_le _ _ (UInt32.le_iff_toNat_le.mpr (by
        show 65536 ≤ logical.toNat
        omega))
    have hadd : (phys + 1).toNat = phys.toNat + 1 := by
      rw [UInt64.toNat_add]
      show (phys.toNat + 1) % 2 ^ 64 = _
      omega
    rw [normalize, if_pos hlt]
    have := ih (by rw [hsub, hadd]; omega)
    rw [hsub, hadd] at this
    omega
  | case2 phys logical hle =>
    have hl : logical.toNat ≤ 65535 := UInt32.le_iff_toNat_le.mp (UInt32.not_lt.mp hle)
    rw [normalize, if_neg hle]
    constructor
    · show phys.toNat = _
      omega
    · show logical.toNat = _
      omega

/-- A stamp below `(phys, logical)` is below its normal form. -/
theorem lt_normalize {s : Timestamp} {phys : UInt64} {logical : UInt32}
    (hroom : phys.toNat + logical.toNat / 2 ^ 16 < 2 ^ 64)
    (h : s < ⟨phys, logical⟩) : s < normalize phys logical := by
  obtain ⟨hp, hl⟩ := normalize_toNat phys logical hroom
  rw [Timestamp.lt_iff] at h ⊢
  simp only at h
  omega

theorem max64_spec (a b : UInt64) :
    a.toNat ≤ (max64 a b).toNat ∧ b.toNat ≤ (max64 a b).toNat ∧
      ((max64 a b).toNat = a.toNat ∨ (max64 a b).toNat = b.toNat) := by
  unfold max64
  split
  · rename_i h
    have := UInt64.lt_iff_toNat_lt.mp h
    omega
  · rename_i h
    have := UInt64.le_iff_toNat_le.mp (UInt64.not_lt.mp h)
    omega

theorem max32_spec (a b : UInt32) :
    a.toNat ≤ (max32 a b).toNat ∧ b.toNat ≤ (max32 a b).toNat ∧
      ((max32 a b).toNat = a.toNat ∨ (max32 a b).toNat = b.toNat) := by
  unfold max32
  split
  · rename_i h
    have := UInt32.lt_iff_toNat_lt.mp h
    omega
  · rename_i h
    have := UInt32.le_iff_toNat_le.mp (UInt32.not_lt.mp h)
    omega

/-- Away from its maximum a word's successor is the next number. -/
theorem succ32_toNat {a : UInt32} (h : a.toNat + 1 < 2 ^ 32) : (a + 1).toNat = a.toNat + 1 := by
  rw [UInt32.toNat_add]
  show (a.toNat + 1) % 2 ^ 32 = _
  omega

/-! ## What one call does -/

/-- The milliseconds and the carried logical part as one count. -/
def Timestamp.ticks (t : Timestamp) : Nat := t.physicalMs.toNat * 2 ^ 16 + t.logical.toNat

/-- Normalizing carries and keeps the ticks. -/
theorem normalize_ticks {phys : UInt64} {logical : UInt32}
    (h : phys.toNat + logical.toNat / 2 ^ 16 < 2 ^ 64) :
    (normalize phys logical).ticks = phys.toNat * 2 ^ 16 + logical.toNat ∧
      (normalize phys logical).logical.toNat < 2 ^ 16 := by
  obtain ⟨hp, hl⟩ := normalize_toNat phys logical h
  unfold Timestamp.ticks
  omega

/-- What a wall reading below `2 ^ 62` and a skew bound up to `2 ^ 63` let an
accepted remote stamp count to. -/
def remoteCeiling : Nat := (2 ^ 63 + 2 ^ 62) * 2 ^ 16 + 2 ^ 32

/-- A call merges no remote stamp whose logical counter is at its maximum. -/
def Call.Fits (maxSkewMs : UInt64) : Call → Prop
  | .now _ => True
  | .update wall remote =>
    remote.physicalMs > wall + maxSkewMs ∨ remote.logical ≠ 0xFFFFFFFF

instance (maxSkewMs : UInt64) (k : Call) : Decidable (k.Fits maxSkewMs) := by
  cases k <;> (unfold Call.Fits; infer_instance)

/-- What a call does to a clock: it refuses a stamp and keeps the last one, or it
returns a stamp above the last one, above everything before the wall reading and
above the stamp it merges. -/
inductive Moved (c : Clock) (k : Call) : Prop where
  | refused (returns : (c.call k).1 = none) (last : (c.call k).2.last = c.last)
      (accepts : c.accepted k = [])
  | stamped (t : Timestamp) (returns : (c.call k).1 = some t) (last : (c.call k).2.last = t)
      (above : c.last < t) (past : ∀ s : Timestamp, s.physicalMs < k.wall → s < t)
      (merged : ∀ r ∈ c.accepted k, r < t)
      (carried : t.logical.toNat < 2 ^ 16)
      (ticks : t.ticks ≤ c.last.ticks + 1 ∨ t.ticks ≤ remoteCeiling)

section
variable {c : Clock} {wall : UInt64}

/-- A call that returns a pair, with its carry. -/
theorem Moved.of_pair {k : Call} {phys : UInt64} {logical : UInt32}
    (hcall : c.call k = (some (normalize phys logical), { c with last := normalize phys logical }))
    (hwall : k.wall.toNat ≤ phys.toNat) (hroom : c.last.ticks + 1 < 2 ^ 80)
    (hpair : c.last < ⟨phys, logical⟩ ∧ (∀ r ∈ c.accepted k, r < ⟨phys, logical⟩) ∧
      (Timestamp.ticks ⟨phys, logical⟩ ≤ c.last.ticks + 1 ∨
        Timestamp.ticks ⟨phys, logical⟩ ≤ remoteCeiling)) : Moved c k := by
  obtain ⟨hlt, hmerged, hbound⟩ := hpair
  have hfit : phys.toNat + logical.toNat / 2 ^ 16 < 2 ^ 64 := by
    simp only [Timestamp.ticks, remoteCeiling] at hbound hroom
    omega
  obtain ⟨hticks, hl⟩ := normalize_ticks hfit
  refine .stamped (normalize phys logical) (by rw [hcall]) (by rw [hcall]) (lt_normalize hfit hlt)
    (fun s hs => ?_) (fun r hr => lt_normalize hfit (hmerged r hr)) hl (by rwa [hticks])
  have := UInt64.lt_iff_toNat_lt.mp hs
  exact lt_normalize hfit (Timestamp.lt_iff.mpr (.inl (lt_of_lt_of_le this hwall)))

/-- A reading moves the clock on. -/
theorem now_moved (hwall : wall.toNat < 2 ^ 62) (hcar : c.last.logical.toNat < 2 ^ 16)
    (hroom : c.last.ticks + 1 < 2 ^ 80) : Moved c (.now wall) := by
  have hphys := max64_spec c.last.physicalMs wall
  have hsucc : (c.last.logical + 1).toNat = c.last.logical.toNat + 1 :=
    succ32_toNat (by omega)
  refine .of_pair rfl hphys.2.1 hroom ?_
  simp only [Timestamp.lt_iff, Clock.accepted, List.not_mem_nil, IsEmpty.forall_iff, implies_true,
    true_and]
  unfold Timestamp.ticks remoteCeiling
  simp only [← UInt64.toNat_inj]
  split
  · simp only [hsucc]
    omega
  · simp only [UInt32.reduceToNat]
    omega

theorem update_moved {remote : Timestamp} (hwall : wall.toNat < 2 ^ 62)
    (hskew : c.maxSkewMs.toNat ≤ 2 ^ 63) (hfits : (Call.update wall remote).Fits c.maxSkewMs)
    (hcar : c.last.logical.toNat < 2 ^ 16) (hroom : c.last.ticks + 1 < 2 ^ 80) :
    Moved c (.update wall remote) := by
  by_cases hrej : remote.physicalMs > wall + c.maxSkewMs
  · refine .refused ?_ ?_ ?_
    · simp [Clock.call, Clock.update, hrej, Except.toOption]
    · simp [Clock.call, Clock.update, hrej]
    · simp [Clock.accepted, hrej]
  · have hmax : remote.logical ≠ 0xFFFFFFFF := hfits.resolve_left hrej
    have hrl : remote.logical.toNat + 1 < 2 ^ 32 := by
      have h1 := remote.logical.toNat_lt
      have h2 : remote.logical.toNat ≠ 2 ^ 32 - 1 :=
        fun h => hmax (UInt32.toNat_inj.mp (by rw [h]; rfl))
      omega
    have hrp : remote.physicalMs.toNat < 2 ^ 63 + 2 ^ 62 := by
      have h1 := UInt64.le_iff_toNat_le.mp (UInt64.not_lt.mp hrej)
      rw [UInt64.toNat_add] at h1
      omega
    have hpair := max64_spec c.last.physicalMs remote.physicalMs
    have hphys := max64_spec (max64 c.last.physicalMs remote.physicalMs) wall
    have hl1 : (c.last.logical + 1).toNat = c.last.logical.toNat + 1 := succ32_toNat (by omega)
    have hr1 : (remote.logical + 1).toNat = remote.logical.toNat + 1 := succ32_toNat hrl
    have hlog := max32_spec c.last.logical remote.logical
    have hm1 : (max32 c.last.logical remote.logical + 1).toNat =
        (max32 c.last.logical remote.logical).toNat + 1 := succ32_toNat (by omega)
    have hupd : c.update wall remote = (.ok _, _) := if_neg hrej
    refine .of_pair (congrArg (fun p => (p.1.toOption, p.2)) hupd) hphys.2.1 hroom ?_
    -- which of the two physical parts the result shares decides its logical part
    simp only [Timestamp.lt_iff, Clock.accepted, if_neg hrej, List.mem_singleton, forall_eq]
    unfold Timestamp.ticks remoteCeiling
    simp only [← UInt64.toNat_inj]
    split
    · simp only [hm1]; omega
    · split
      · simp only [hl1]; omega
      · split
        · simp only [hr1]; omega
        · simp only [UInt32.reduceToNat]; omega

end

/-- A call moves the clock as long as its count has room. -/
theorem call_moved {c : Clock} {k : Call} (hwall : k.wall.toNat < 2 ^ 62)
    (hskew : c.maxSkewMs.toNat ≤ 2 ^ 63) (hfits : k.Fits c.maxSkewMs)
    (hcar : c.last.logical.toNat < 2 ^ 16) (hroom : c.last.ticks + 1 < 2 ^ 80) : Moved c k := by
  cases k with
  | now wall => exact now_moved hwall hcar hroom
  | update wall remote => exact update_moved hwall hskew hfits hcar hroom

@[simp] theorem Clock.call_maxSkewMs (c : Clock) (k : Call) :
    (c.call k).2.maxSkewMs = c.maxSkewMs := by
  cases k with
  | now wall => rfl
  | update wall remote =>
    simp only [Clock.call, Clock.update]
    split <;> rfl

@[simp] theorem Clock.run_maxSkewMs (c : Clock) (ks : List Call) :
    (c.run ks).maxSkewMs = c.maxSkewMs := by
  induction ks generalizing c with
  | nil => rfl
  | cons k ks ih => exact (ih (c.call k).2).trans (c.call_maxSkewMs k)

/-! ## Whole runs -/

/-- After `n` calls: the last stamp is at or above every stamp in `hist`, it is
carried, and it has counted no further than the remote ceiling and the calls. -/
structure Ahead (c : Clock) (n : Nat) (hist : List Timestamp) : Prop where
  above : ∀ s ∈ hist, s ≤ c.last
  carried : c.last.logical.toNat < 2 ^ 16
  ticks : c.last.ticks ≤ remoteCeiling + n

theorem ahead_newClock (maxSkewMs : UInt64) : Ahead (newClock maxSkewMs) 0 [] where
  above := by simp
  carried := by simp [newClock]
  ticks := by simp [newClock, Timestamp.ticks, remoteCeiling]

/-- One call of the clock. -/
theorem Ahead.call {c : Clock} {n : Nat} {hist : List Timestamp} {k : Call}
    (h : Ahead c n hist) (hm : Moved c k) :
    Ahead (c.call k).2 (n + 1) (hist ++ (c.accepted k ++ (c.call k).1.toList)) := by
  obtain ⟨habove, hcar, hticks⟩ := h
  cases hm with
  | refused hret hlast hacc =>
    refine ⟨?_, ?_, ?_⟩
    · intro s hs
      rw [hret, hacc] at hs
      rw [hlast]
      exact habove s (by simpa using hs)
    · rw [hlast]; exact hcar
    · rw [hlast]; omega
  | stamped t hret hlast hgt hpast hmerged hcar' hticks' =>
    refine ⟨?_, ?_, ?_⟩
    · intro s hs
      rw [hret] at hs
      rw [hlast]
      simp only [List.mem_append, Option.toList_some, List.mem_singleton] at hs
      rcases hs with hs | hs | hs
      · exact (lt_of_le_of_lt (habove s hs) hgt).le
      · exact (hmerged s hs).le
      · exact hs.le
    · rw [hlast]; exact hcar'
    · rw [hlast]; omega

theorem Ahead.moved {c : Clock} {n : Nat} {hist : List Timestamp} {k : Call}
    (h : Ahead c n hist) (hn : n < 2 ^ 77) (hwall : k.wall.toNat < 2 ^ 62)
    (hskew : c.maxSkewMs.toNat ≤ 2 ^ 63) (hfits : k.Fits c.maxSkewMs) : Moved c k := by
  refine call_moved hwall hskew hfits h.carried ?_
  have := h.ticks
  unfold remoteCeiling at this
  omega

theorem Ahead.run {c : Clock} {n : Nat} {hist : List Timestamp} {ks : List Call}
    (h : Ahead c n hist) (hskew : c.maxSkewMs.toNat ≤ 2 ^ 63) (hn : n + ks.length < 2 ^ 77)
    (hwall : ∀ k ∈ ks, k.wall.toNat < 2 ^ 62) (hfits : ∀ k ∈ ks, k.Fits c.maxSkewMs) :
    Ahead (c.run ks) (n + ks.length) (hist ++ c.seen ks) := by
  induction ks generalizing c n hist with
  | nil => simpa [Clock.run, Clock.seen] using h
  | cons k ks ih =>
    rw [List.length_cons] at hn ⊢
    have hm := h.moved (by omega) (hwall k (by simp)) hskew (hfits k (by simp))
    have hstep := ih (h.call hm) (by rw [Clock.call_maxSkewMs]; exact hskew) (by omega)
      (fun l hl => hwall l (by simp [hl]))
      (fun l hl => by rw [Clock.call_maxSkewMs]; exact hfits l (by simp [hl]))
    rw [List.append_assoc] at hstep
    rw [show n + (ks.length + 1) = n + 1 + ks.length by omega]
    exact hstep

/-- Every stamp a clock returns is above every stamp it returned before and every
remote stamp it has accepted, and a refused stamp leaves the last one as it was:
in every run of fewer than `2 ^ 77` calls that merges no stamp whose logical
counter is at its maximum. -/
theorem clock_strictly_monotone (maxSkewMs : UInt64) (hskew : maxSkewMs.toNat ≤ 2 ^ 63)
    (calls : List Call) (k : Call) (hlen : calls.length < 2 ^ 77)
    (hwall : ∀ l ∈ calls ++ [k], l.wall.toNat < 2 ^ 62)
    (hfits : ∀ l ∈ calls ++ [k], l.Fits (newClock maxSkewMs).maxSkewMs) :
    (∀ t, (((newClock maxSkewMs).run calls).call k).1 = some t →
        ∀ s ∈ (newClock maxSkewMs).seen calls ++ ((newClock maxSkewMs).run calls).accepted k,
          s.compare t = .lt) ∧
      ((((newClock maxSkewMs).run calls).call k).1 = none →
        (((newClock maxSkewMs).run calls).call k).2.last =
          ((newClock maxSkewMs).run calls).last) := by
  have hskew' : (newClock maxSkewMs).maxSkewMs.toNat ≤ 2 ^ 63 := by
    unfold newClock
    split
    · decide
    · exact hskew
  have hrun : Ahead ((newClock maxSkewMs).run calls) (0 + calls.length)
      ([] ++ (newClock maxSkewMs).seen calls) :=
    (ahead_newClock maxSkewMs).run hskew' (by omega)
      (fun l hl => hwall l (by simp [hl])) (fun l hl => hfits l (by simp [hl]))
  rw [List.nil_append] at hrun
  have hm : Moved ((newClock maxSkewMs).run calls) k :=
    hrun.moved (by omega) (hwall k (by simp)) (by rw [Clock.run_maxSkewMs]; exact hskew')
      (by rw [Clock.run_maxSkewMs]; exact hfits k (by simp))
  cases hm with
  | refused hret hlast hacc =>
    refine ⟨?_, fun _ => hlast⟩
    intro t ht
    rw [hret] at ht
    cases ht
  | stamped t hret hlast hgt hpast hmerged hcar hticks =>
    constructor
    · intro t' ht' s hs
      rw [hret] at ht'
      cases ht'
      rw [Timestamp.compare_eq_lt_iff]
      rcases List.mem_append.mp hs with hs | hs
      · exact lt_of_le_of_lt (hrun.above s hs) hgt
      · exact hmerged s hs
    · intro hnone
      rw [hret] at hnone
      cases hnone

/-- A wall clock that jumps back between a local stamp and a merged one. -/
theorem clock_strictly_monotone_backwards :
    (((newClock 500).run [.now 1000, .update 1000 ⟨1400, 0x1FFFF⟩]).call (.now 3)).1 =
        some ⟨1402, 1⟩ ∧
      ∀ s ∈ (newClock 500).seen [.now 1000, .update 1000 ⟨1400, 0x1FFFF⟩],
        s.compare ⟨1402, 1⟩ = .lt := by
  have hret : (((newClock 500).run [.now 1000, .update 1000 ⟨1400, 0x1FFFF⟩]).call (.now 3)).1 =
      some ⟨1402, 1⟩ := by decide +kernel
  refine ⟨hret, fun s hs => ?_⟩
  exact (clock_strictly_monotone 500 (by decide) [.now 1000, .update 1000 ⟨1400, 0x1FFFF⟩]
    (.now 3) (by simp) (by decide) (by decide)).1 _ hret s (by simp [hs])

/-- A remote logical counter at its maximum is accepted, its increment wraps to
zero, and the stamp returned is below the remote one and below the last stamp the
clock had returned. -/
theorem update_below_remote :
    (((newClock 500).run [.now 1000, .now 1000]).call (.update 1000 ⟨1000, 0xFFFFFFFF⟩)).1 =
        some ⟨1000, 0⟩ ∧
      ((newClock 500).run [.now 1000, .now 1000]).accepted (.update 1000 ⟨1000, 0xFFFFFFFF⟩) =
        [⟨1000, 0xFFFFFFFF⟩] ∧
      (newClock 500).seen [.now 1000, .now 1000] = [⟨1000, 0⟩, ⟨1000, 1⟩] ∧
      (⟨1000, 0xFFFFFFFF⟩ : Timestamp).compare ⟨1000, 0⟩ = .gt ∧
      (⟨1000, 1⟩ : Timestamp).compare ⟨1000, 0⟩ = .gt := by
  decide +kernel

end WaveSpan.Records
