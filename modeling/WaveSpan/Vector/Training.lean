/-
WaveSpan.Vector.Training — training a collection's quantizer and handing it out
(`cmd/wavespan-node/main.go` `runIVFTrainer`, `runCentroidSync`; `internal/vector/quantset.go`).

Every node starts from the same LSH quantizer, version 1. A node that takes itself for the lowest
alive member trains centroids on its own sample and writes them under the collection's key, as the
version after the one it runs. Every node reads the key from time to time and installs what it finds
if that has a higher version than its own. The winner of the key is the last write by its stamp.

The model is of one collection. The clustering is left open, but for that it never returns no
centroids, and so is who trains when, on which sample, and whether a write comes through; a sync may
read any artifact written so far. A round reads the version it continues from when it starts and
writes at its end, so rounds of several nodes overlap.

A node that has read the winner runs it, or something of at least its version (`covered_run`). Two
rounds that started from one version write two artifacts of the next, and a node that installed the
loser keeps it (`overlap_disagrees`). Where the winner's version is above all others, every node
ends on it (`quantizers_settle`).
-/
import WaveSpan.Lib.Lww
import Mathlib.Logic.Function.Basic

namespace WaveSpan.Training

open WaveSpan.Lww

/-- The centroids written under the collection's key. -/
structure Artifact (V : Type) where
  qver : UInt32
  centroids : List V
  nonempty : centroids ≠ []
deriving DecidableEq

/-- A collection's quantizer: the initial one, or trained centroids. -/
inductive Quantizer (V : Type) where
  | lsh
  | ivf (a : Artifact V)
deriving DecidableEq

/-- `NewIVF`: the version of a set of centroids that is to have version `v`. -/
def ivfVersion (v : UInt32) : UInt32 := if v = 0 then 1 else v

def Quantizer.version {V : Type} : Quantizer V → UInt32
  | .lsh => 1
  | .ivf a => ivfVersion a.qver

/-- `TrainIVF`: the centroids of a sample for a number of clusters and a seed. -/
abbrev TrainIVF (V : Type) := List V → Nat → UInt32 → { c : List V // c ≠ [] }

variable {N V T : Type}

/-- What a training round makes of a sample; too few vectors are not trained on. -/
def trained (trainIVF : TrainIVF V) (cur : Option (Quantizer V)) (samples : List V) :
    Option (Artifact V) :=
  if samples.length < 64 then none
  else
    let curVer := (cur.map Quantizer.version).getD 1
    let k := max 1 (min 256 (samples.length / 16))
    let c := trainIVF samples k curVer
    some { qver := ivfVersion (curVer + 1), centroids := c.val, nonempty := c.property }

def synced (cur : Option (Quantizer V)) (art : Artifact V) : Option (Quantizer V) :=
  if art.centroids.length = 0 then cur
  else
    match cur with
    | some q => if art.qver ≤ q.version then some q else some (.ivf art)
    | none => some (.ivf art)

structure Cluster (N V T : Type) where
  quantSet : N → Option (Quantizer V)
  /-- Trained and not written yet. -/
  training : N → Option (Artifact V)
  /-- The writes of the key with their stamps. -/
  written : List (T × Artifact V)

inductive Event (N V T : Type) where
  | train (n : N) (samples : List V)
  | put (n : N) (stamp : T)
  | putFails (n : N)
  | sync (n : N) (read : Nat)

variable [DecidableEq N] [LinearOrder T] (trainIVF : TrainIVF V)

/-- A write takes a stamp that no other has; a sync finds the `read`-th write, or nothing. -/
def Cluster.step (s : Cluster N V T) : Event N V T → Cluster N V T
  | .train n samples =>
    { s with training := Function.update s.training n (trained trainIVF (s.quantSet n) samples) }
  | .put n stamp =>
    match s.training n with
    | some a =>
      if stamp ∈ s.written.map Prod.fst then s
      else { s with training := Function.update s.training n none
                    written := s.written ++ [(stamp, a)] }
    | none => s
  | .putFails n => { s with training := Function.update s.training n none }
  | .sync n read =>
    match s.written[read]? with
    | some r => { s with quantSet := Function.update s.quantSet n (synced (s.quantSet n) r.2) }
    | none => s

/-- A collection without dimensions has no quantizer to start from. -/
def Cluster.start (hasDims : Bool) : Cluster N V T :=
  { quantSet := fun _ => if hasDims then some .lsh else none, training := fun _ => none,
    written := [] }

def Cluster.run (hasDims : Bool) (evs : List (Event N V T)) : Cluster N V T :=
  evs.foldl (Cluster.step trainIVF) (Cluster.start hasDims)

/-! ## Steps -/

section
variable {trainIVF} {s : Cluster N V T} {n : N} {w : T × Artifact V} {hasDims : Bool}

theorem ivfVersion_cases (v : UInt32) : v ≤ ivfVersion v ∧
    (ivfVersion v = 1 ∨ ivfVersion v = v) := by
  unfold ivfVersion
  split
  · rename_i h
    rw [h]
    decide
  · exact ⟨UInt32.le_refl v, .inr rfl⟩

omit [DecidableEq N] [LinearOrder T] in
/-- A sync installs what it read or keeps a quantizer of at least that version. -/
theorem synced_cases (cur : Option (Quantizer V)) (art : Artifact V) :
    (synced cur art = some (.ivf art) ∧ ∀ q, cur = some q → q.version < art.qver) ∨
      ∃ q, cur = some q ∧ synced cur art = some q ∧ art.qver ≤ q.version := by
  have hsome : art.centroids.length ≠ 0 := fun h => art.nonempty (List.length_eq_zero_iff.mp h)
  cases cur with
  | none => exact .inl ⟨if_neg hsome, nofun⟩
  | some q =>
    by_cases hver : art.qver ≤ q.version
    · exact .inr ⟨q, rfl, (if_neg hsome).trans (if_pos hver), hver⟩
    · refine .inl ⟨(if_neg hsome).trans (if_neg hver), ?_⟩
      rintro _ ⟨⟩
      exact UInt32.not_le.mp hver

/-- A quantizer set changes by a sync of its node only. -/
theorem quantSet_step (s : Cluster N V T) (e : Event N V T) (n : N) :
    (s.step trainIVF e).quantSet n = s.quantSet n ∨
      ∃ i, ∃ r ∈ s.written, e = .sync n i ∧ s.written[i]? = some r ∧
        (s.step trainIVF e).quantSet n = synced (s.quantSet n) r.2 := by
  cases e with
  | train m samples => exact .inl rfl
  | put m stamp =>
    left
    simp only [Cluster.step]
    split
    · split <;> rfl
    · rfl
  | putFails m => exact .inl rfl
  | sync m i =>
    cases hread : s.written[i]? with
    | none => exact .inl (by simp [Cluster.step, hread])
    | some r =>
      by_cases hm : n = m
      · subst hm
        refine .inr ⟨i, r, List.mem_of_getElem? hread, rfl, hread, ?_⟩
        simp [Cluster.step, hread]
      · left
        simp [Cluster.step, hread, Function.update_of_ne hm]

theorem written_step (s : Cluster N V T) (e : Event N V T) :
    s.written ⊆ (s.step trainIVF e).written := by
  cases e with
  | put m stamp =>
    simp only [Cluster.step]
    split
    · split
      · exact List.Subset.refl _
      · exact List.subset_append_left _ _
    · exact List.Subset.refl _
  | sync m i => cases hread : s.written[i]? <;> simp [Cluster.step, hread]
  | train m samples | putFails m => exact List.Subset.refl _

/-- Whatever runs on a node is the initial quantizer or was written. -/
def FromKey (s : Cluster N V T) : Prop :=
  ∀ n q, s.quantSet n = some q → q = .lsh ∨ ∃ r ∈ s.written, q = .ivf r.2

/-- Every quantizer comes from the key. -/
theorem FromKey.step (h : FromKey s) (e : Event N V T) : FromKey (s.step trainIVF e) := by
  intro n q hq
  have hold : s.quantSet n = some q → q = .lsh ∨ ∃ r ∈ (s.step trainIVF e).written, q = .ivf r.2 :=
    fun hs => (h n q hs).imp_right fun ⟨r, hr, heq⟩ => ⟨r, written_step s e hr, heq⟩
  rcases quantSet_step s e n with hkeep | ⟨i, r, hr, -, -, hsync⟩
  · exact hold (hkeep ▸ hq)
  · rw [hsync] at hq
    rcases synced_cases (s.quantSet n) r.2 with ⟨hnew, -⟩ | ⟨p, hcur, hsame, -⟩
    · rw [hnew] at hq
      exact .inr ⟨r, written_step s e hr, (Option.some.inj hq).symm⟩
    · exact hold (hcur.trans (hsame.symm.trans hq))

/-- A node runs a quantizer of at least an artifact's version. -/
def Covered (s : Cluster N V T) (n : N) (a : Artifact V) : Prop :=
  ∃ q, s.quantSet n = some q ∧ a.qver ≤ q.version

/-- A node never falls behind what it has read. -/
theorem Covered.step {a : Artifact V} (h : Covered s n a) (e : Event N V T) :
    Covered (s.step trainIVF e) n a := by
  obtain ⟨q, hq, hver⟩ := h
  rcases quantSet_step s e n with hkeep | ⟨i, r, -, -, -, hsync⟩
  · exact ⟨q, hkeep.trans hq, hver⟩
  · rcases synced_cases (s.quantSet n) r.2 with ⟨hnew, hlt⟩ | ⟨p, hcur, hsame, -⟩
    · exact ⟨_, hsync.trans hnew, UInt32.le_trans (UInt32.le_trans hver
        (UInt32.le_of_lt (hlt q hq))) (ivfVersion_cases _).1⟩
    · exact ⟨q, hsync.trans (hsame.trans (hcur.symm.trans hq)), hver⟩

/-! ## Runs -/

theorem fromKey_run (evs : List (Event N V T)) : FromKey (Cluster.run trainIVF hasDims evs) := by
  refine List.foldlRecOn evs _ (fun n q hq => .inl ?_) fun _ h e _ => h.step e
  cases hasDims <;> simp_all [Cluster.start]

/-- A node that has read an artifact runs something of at least its version ever after. -/
theorem covered_run {pre : List (Event N V T)} {i : Nat} (n : N) (post : List (Event N V T))
    (hread : (Cluster.run trainIVF hasDims pre).written[i]? = some w) :
    Covered (Cluster.run trainIVF hasDims (pre ++ .sync n i :: post)) n w.2 := by
  rw [Cluster.run, List.foldl_append, List.foldl_cons]
  refine List.foldlRecOn (motive := fun s => Covered s n w.2) post _ ?_ fun _ h e _ => h.step e
  have hset : ((Cluster.run trainIVF hasDims pre).step trainIVF (.sync n i)).quantSet n =
      synced ((Cluster.run trainIVF hasDims pre).quantSet n) w.2 := by
    simp [Cluster.step, hread]
  rcases synced_cases ((Cluster.run trainIVF hasDims pre).quantSet n) w.2 with
    ⟨hnew, -⟩ | ⟨q, -, hsame, hver⟩
  · exact ⟨_, hset.trans hnew, (ivfVersion_cases _).1⟩
  · exact ⟨q, hset.trans hsame, hver⟩

end

/-- The winner of the key, and every node has read it. -/
structure Settled (hasDims : Bool) (evs : List (Event N V T)) (w : T × Artifact V) :
    Prop where
  winner : Winner Prod.fst {r | r ∈ (Cluster.run trainIVF hasDims evs).written} w
  synced : ∀ n, ∃ pre i post, evs = pre ++ .sync n i :: post ∧
    (Cluster.run trainIVF hasDims pre).written[i]? = some w

/-- The winner's version is above every other, the initial one's included. -/
def Ahead (hasDims : Bool) (evs : List (Event N V T)) (w : T × Artifact V) : Prop :=
  1 < w.2.qver ∧
    ∀ r ∈ (Cluster.run trainIVF hasDims evs).written, r ≠ w → r.2.qver < w.2.qver

/-- When every node has read the winner, each runs a quantizer of at least its version, and all run
the winner if it is ahead of every other. -/
theorem quantizers_settle (hasDims : Bool) (evs : List (Event N V T)) (w : T × Artifact V)
    (h : Settled trainIVF hasDims evs w) (n : N) :
    ∃ q, (Cluster.run trainIVF hasDims evs).quantSet n = some q ∧ w.2.qver ≤ q.version ∧
      (q = .lsh ∨ ∃ r ∈ (Cluster.run trainIVF hasDims evs).written, q = .ivf r.2) ∧
      (Ahead trainIVF hasDims evs w → q = .ivf w.2) := by
  obtain ⟨pre, i, post, hevs, hread⟩ := h.synced n
  obtain ⟨q, hq, hver⟩ := covered_run n post hread
  rw [← hevs] at hq
  have hfrom := fromKey_run evs n q hq
  refine ⟨q, hq, hver, hfrom, fun hahead => ?_⟩
  obtain rfl | ⟨r, hr, rfl⟩ := hfrom
  · exact absurd hahead.1 (UInt32.not_lt.mpr hver)
  · by_cases hrw : r = w
    · rw [hrw]
    · have hver' : w.2.qver ≤ ivfVersion r.2.qver := hver
      rcases (ivfVersion_cases r.2.qver).2 with hone | hsame
      · rw [hone] at hver'
        exact absurd hahead.1 (UInt32.not_lt.mpr hver')
      · rw [hsame] at hver'
        exact absurd (hahead.2 r hr hrw) (UInt32.not_lt.mpr hver')

/-! ## Rounds -/

/-- A clustering that returns one vector of the sample. -/
def oneCentroid : TrainIVF Nat := fun samples _ _ => ⟨[samples.headD 0], List.cons_ne_nil _ _⟩

/-- One node trains, and all read what it wrote. -/
def oneRound : List (Event (Fin 2) Nat Nat) :=
  [.train 0 (List.replicate 64 7), .put 0 1, .sync 0 0, .sync 1 0]

theorem quantizers_settle_oneRound : (Cluster.run oneCentroid true oneRound).quantSet =
    fun _ => some (.ivf ⟨2, [7], by decide⟩) := by
  have hsettled : Settled oneCentroid true oneRound (1, ⟨2, [7], by decide⟩) := by
    have hlast : ∀ r ∈ (Cluster.run oneCentroid true oneRound).written, r.1 ≤ 1 := by decide
    refine ⟨⟨by decide, fun r hr => hlast r hr⟩, fun n => ?_⟩
    match n with
    | 0 => exact ⟨oneRound.take 2, 0, oneRound.drop 3, rfl, by decide⟩
    | 1 => exact ⟨oneRound.take 3, 0, oneRound.drop 4, rfl, by decide⟩
  funext n
  obtain ⟨q, hq, -, -, hahead⟩ := quantizers_settle oneCentroid true oneRound _ hsettled n
  rw [hq, hahead ⟨by decide, by decide⟩]

/-- Two nodes train from version 1. One has installed its artifact when the other writes. -/
def overlap : List (Event (Fin 3) Nat Nat) :=
  [.train 0 (List.replicate 64 7), .train 1 (List.replicate 64 9), .put 0 1, .sync 0 0, .put 1 2,
    .sync 0 1, .sync 1 1, .sync 2 1]

theorem overlap_disagrees :
    Settled oneCentroid true overlap (2, ⟨2, [9], by decide⟩) ∧
      (Cluster.run oneCentroid true overlap).quantSet 0 = some (.ivf ⟨2, [7], by decide⟩) ∧
      (Cluster.run oneCentroid true overlap).quantSet 1 = some (.ivf ⟨2, [9], by decide⟩) := by
  have hlast : ∀ r ∈ (Cluster.run oneCentroid true overlap).written, r.1 ≤ 2 := by decide
  refine ⟨⟨⟨by decide, fun r hr => hlast r hr⟩, fun n => ?_⟩, by decide, by decide⟩
  -- the last three events are the syncs
  match n with
  | 0 => exact ⟨overlap.take 5, 1, overlap.drop 6, rfl, by decide⟩
  | 1 => exact ⟨overlap.take 6, 1, overlap.drop 7, rfl, by decide⟩
  | 2 => exact ⟨overlap.take 7, 1, overlap.drop 8, rfl, by decide⟩

end WaveSpan.Training
