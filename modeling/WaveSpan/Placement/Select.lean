/-
WaveSpan.Placement.Select — the members a record may be copied to
(`internal/placement/placement.go`).

One pass over the roster keeps the alive members other than the node itself, on other
machines where the policy asks for it, and partitions them in place: those of the
compliance geo are swapped to the front. What is returned is the front part, or all of it,
each part sorted by score and member id. A score is what the latency graph makes of a
member; here it is any order.

The loop keeps one invariant (`Partitioned`): the buffer is a permutation of the candidates
of the members seen, and the places below the count are those of the compliance geo. What is
returned is then two sorted filters of the roster (`select_respects_policy`). `mem_select`
says less, of any roster: a candidate is an alive member other than the node itself.
-/
import WaveSpan.Lib.Heap
import WaveSpan.Membership.Roster
import Mathlib.Data.List.Sort

namespace WaveSpan.Placement

open WaveSpan.Wire WaveSpan.Collections WaveSpan.Membership

inductive GeoPolicy where
  | preferLocalGeo
  | requireLocalGeo
  | latencyOnly
  deriving DecidableEq, Repr

structure Policy where
  targetNearbyReplicas : Int
  minAckNearbyReplicas : Int := 1
  requireDistinctNodes : Bool := false
  geo : GeoPolicy := .preferLocalGeo
  allowSpilloverForDurability : Bool := true
  complianceGeo : Bytes := []

structure Candidate (σ : Type) where
  member : Member
  score : σ
  geoSpillover : Bool := false

inductive SelectError where
  | noCandidates
  | insufficientLocalReplicas
  deriving DecidableEq, Repr

/-- Two members run on one machine, as far as both say where they run. -/
def sameNode (m other : Member) : Bool :=
  m.nodeName ≠ [] && m.nodeName == other.nodeName

/-! ## The pass over the roster -/

section
variable {σ : Type}

/-- The buffer of the pass and how many of it are of the compliance geo. -/
structure Buffer (σ : Type) where
  all : Array (Candidate σ) := #[]
  nSame : Nat := 0

def eligible (self : Member) (policy : Policy) (mv : MemberView) : Bool :=
  !(mv.member.memberID == self.memberID || mv.state ≠ .alive) &&
    !(policy.requireDistinctNodes && sameNode self mv.member)

/-- The geo whose members come first: the node's own unless the policy names one. -/
def localGeo (self : Member) (policy : Policy) : Bytes :=
  if policy.complianceGeo = [] then self.geo else policy.complianceGeo

/-- A member of the compliance geo; without geos there is none. -/
def inGeo (self : Member) (policy : Policy) (m : Member) : Bool :=
  m.geo ≠ [] && self.geo ≠ [] && m.geo == localGeo self policy

def collect (self : Member) (policy : Policy) (score : Member → σ) (buf : Buffer σ)
    (mv : MemberView) : Buffer σ :=
  if eligible self policy mv then
    let all := buf.all.push { member := mv.member, score := score mv.member }
    if inGeo self policy mv.member then
      { all := all.swapIfInBounds (all.size - 1) buf.nSame, nSame := buf.nSame + 1 }
    else { buf with all }
  else buf

/-- The member is alive in the roster and not the node itself. -/
def AlivePeer (self : Member) (members : List MemberView) (m : Member) : Prop :=
  m.memberID ≠ self.memberID ∧ ∃ mv ∈ members, mv.member = m ∧ mv.state = .alive

/-- Candidates are alive and not the node itself. -/
theorem eligible_alive {self : Member} {policy : Policy} {mv : MemberView}
    (h : eligible self policy mv = true) :
    mv.member.memberID ≠ self.memberID ∧ mv.state = .alive := by
  simp only [eligible, Bool.and_eq_true, Bool.not_eq_true', Bool.or_eq_false_iff,
    beq_eq_false_iff_ne, decide_eq_false_iff_not, not_not] at h
  exact h.1

theorem alivePeer_of_eligible {self : Member} {policy : Policy} {members : List MemberView}
    {mv : MemberView} (hmem : mv ∈ members) (h : eligible self policy mv = true) :
    AlivePeer self members mv.member :=
  ⟨(eligible_alive h).1, mv, hmem, rfl, (eligible_alive h).2⟩

/-- The candidates the pass makes of the members, in the roster's order. -/
def candidates (self : Member) (policy : Policy) (score : Member → σ)
    (members : List MemberView) : List (Candidate σ) :=
  (members.filter (eligible self policy)).map fun mv =>
    { member := mv.member, score := score mv.member }

/-- The candidates of a list of members. -/
theorem mem_candidates {self : Member} {policy : Policy} {score : Member → σ}
    {members : List MemberView} {c : Candidate σ} :
    c ∈ candidates self policy score members ↔
      ∃ mv ∈ members, eligible self policy mv = true ∧
        { member := mv.member, score := score mv.member } = c := by
  simp only [candidates, List.mem_map, List.mem_filter, and_assoc]

theorem nodup_candidates {self : Member} {policy : Policy} {score : Member → σ}
    {members : List MemberView} (hids : (members.map (·.member.memberID)).Nodup) :
    ((candidates self policy score members).map (·.member.memberID)).Nodup := by
  rw [candidates, List.map_map]
  exact hids.sublist (List.filter_sublist.map _)

/-- What the pass keeps: the buffer holds the candidates of the members seen, and the places
below the count are those of the compliance geo. -/
structure Partitioned (node : Member) (policy : Policy) (score : Member → σ)
    (seen : List MemberView) (buf : Buffer σ) : Prop where
  perm : buf.all.toList.Perm (candidates node policy score seen)
  bound : buf.nSame ≤ buf.all.size
  geo : ∀ i c, buf.all[i]? = some c → (inGeo node policy c.member = true ↔ i < buf.nSame)

variable {self : Member} {policy : Policy} {score : Member → σ} {seen : List MemberView}
  {buf : Buffer σ}

theorem Partitioned.collect (h : Partitioned self policy score seen buf) (mv : MemberView) :
    Partitioned self policy score (seen ++ [mv]) (collect self policy score buf mv) := by
  unfold Placement.collect
  split
  · rename_i helig
    have hseen : candidates self policy score (seen ++ [mv]) =
        candidates self policy score seen ++
          [{ member := mv.member, score := score mv.member }] := by
      simp [candidates, helig]
    have hpush : (buf.all.push { member := mv.member, score := score mv.member }).toList.Perm
        (candidates self policy score (seen ++ [mv])) := by
      rw [Array.toList_push, hseen]
      exact h.perm.append_right _
    have hbound := h.bound
    dsimp only
    split
    · rename_i hgeo
      refine ⟨(GoHeap.swapIfInBounds_perm _ _ _).trans hpush, ?_, fun i c hget => ?_⟩
      · simp only [Array.size_swapIfInBounds, Array.size_push]
        omega
      · -- The new element stands at the count; what stood there, of another geo, is now last.
        rw [GoHeap.getElem?_swapIfInBounds (by simp) (by simp; omega)] at hget
        simp only [Array.size_push, Nat.add_sub_cancel, Array.getElem?_push] at hget
        have := h.geo i c
        have := h.geo buf.nSame c
        grind
    · rename_i hgeo
      refine ⟨hpush, ?_, fun i c hget => ?_⟩
      · simp only [Array.size_push]
        omega
      · rw [Array.getElem?_push] at hget
        have := h.geo i c
        grind
  · rename_i helig
    have hseen : candidates self policy score (seen ++ [mv]) =
        candidates self policy score seen := by
      simp [candidates, helig]
    exact ⟨hseen ▸ h.perm, h.bound, h.geo⟩

/-- Collecting keeps the two groups apart. -/
theorem Partitioned.foldl (h : Partitioned self policy score seen buf) (members : List MemberView) :
    Partitioned self policy score (seen ++ members)
      (members.foldl (Placement.collect self policy score) buf) := by
  induction members generalizing seen buf with
  | nil => simpa using h
  | cons mv members ih => simpa using ih (h.collect mv)

theorem partitioned (self : Member) (policy : Policy) (score : Member → σ)
    (members : List MemberView) :
    Partitioned self policy score members (members.foldl (collect self policy score) {}) := by
  have hempty : Partitioned self policy score [] ({} : Buffer σ) :=
    ⟨.refl _, Nat.le_refl _, by simp⟩
  simpa using hempty.foldl members

/-- A list whose first `n` places are those of `p` is split by `p` at `n`. -/
theorem take_drop_eq_filter {α : Type} {p : α → Bool} {l : List α} {n : Nat}
    (h : ∀ i a, l[i]? = some a → (p a = true ↔ i < n)) :
    l.take n = l.filter p ∧ l.drop n = l.filter fun a => !p a := by
  induction l generalizing n with
  | nil => simp
  | cons a l ih =>
    have hhead := h 0 a rfl
    cases n with
    | zero =>
      have htail := @ih 0 fun i b hb => by simpa using h (i + 1) b hb
      have hno : p a = false := by simpa using hhead
      simpa [hno] using htail
    | succ n =>
      have htail := @ih n fun i b hb => by simpa using h (i + 1) b hb
      have hyes : p a = true := by simpa using hhead
      simp [hyes, htail]

/-- The first group are the candidates of the geo. -/
theorem Partitioned.take_perm (h : Partitioned self policy score seen buf) :
    (buf.all.toList.take buf.nSame).Perm
      ((candidates self policy score seen).filter fun c => inGeo self policy c.member) := by
  rw [(take_drop_eq_filter (p := fun c => inGeo self policy c.member)
    fun i c hget => h.geo i c (by simpa using hget)).1]
  exact h.perm.filter _

/-- The second group are the others. -/
theorem Partitioned.drop_perm (h : Partitioned self policy score seen buf) :
    (buf.all.toList.drop buf.nSame).Perm
      ((candidates self policy score seen).filter fun c => !inGeo self policy c.member) := by
  rw [(take_drop_eq_filter (p := fun c => inGeo self policy c.member)
    fun i c hget => h.geo i c (by simpa using hget)).2]
  exact h.perm.filter _

end

/-! ## The selection -/

section
variable {σ : Type} [LinearOrder σ]

/-- The order of candidates: by score, then by member id. -/
def scoreLE (a b : Candidate σ) : Bool :=
  if a.score ≠ b.score then a.score ≤ b.score else compare a.member.memberID b.member.memberID ≠ .gt

def sortByScore (cs : List (Candidate σ)) : List (Candidate σ) :=
  cs.insertionSort fun a b => scoreLE a b = true

def markSpillover (cs : List (Candidate σ)) : List (Candidate σ) :=
  cs.map fun c => { c with geoSpillover := true }

def select (self : Member) (members : List MemberView) (score : Member → σ) (policy : Policy) :
    Except SelectError (List (Candidate σ)) :=
  let buf := members.foldl (collect self policy score) {}
  let sameGeo := buf.all.toList.take buf.nSame
  let otherGeo := buf.all.toList.drop buf.nSame
  match policy.geo with
  | .requireLocalGeo =>
    if (sameGeo.length : Int) < policy.minAckNearbyReplicas then .error .insufficientLocalReplicas
    else .ok (sortByScore sameGeo)
  | .latencyOnly =>
    if buf.all.size = 0 then .error .noCandidates else .ok (sortByScore buf.all.toList)
  | .preferLocalGeo =>
    if policy.allowSpilloverForDurability then
      if (sameGeo.length : Int) < policy.minAckNearbyReplicas ∧ buf.all.size = 0 then
        .error .noCandidates
      else .ok (sortByScore sameGeo ++ markSpillover (sortByScore otherGeo))
    else if (sameGeo.length : Int) < policy.minAckNearbyReplicas ∧ sameGeo.length = 0 then
      .error .noCandidates
    else .ok (sortByScore sameGeo)

@[simp] theorem mem_sortByScore {cs : List (Candidate σ)} {c : Candidate σ} :
    c ∈ sortByScore cs ↔ c ∈ cs :=
  List.mem_insertionSort _

/-- A candidate is an alive member of the roster other than the node itself. -/
theorem mem_select {self : Member} {members : List MemberView} {score : Member → σ}
    {policy : Policy} {cs : List (Candidate σ)} (h : select self members score policy = .ok cs)
    {c : Candidate σ} (hc : c ∈ cs) : AlivePeer self members c.member := by
  have hall : ∀ {x : Candidate σ}, x ∈ (members.foldl (collect self policy score) {}).all.toList →
      AlivePeer self members x.member := by
    intro x hx
    have hx := (partitioned self policy score members).perm.mem_iff.mp hx
    obtain ⟨mv, hmem, helig, rfl⟩ := mem_candidates.mp hx
    exact alivePeer_of_eligible hmem helig
  have htake : ∀ {n : Nat} {x : Candidate σ},
      x ∈ ((members.foldl (collect self policy score) {}).all.toList.take n) →
        AlivePeer self members x.member := fun hx => hall (List.mem_of_mem_take hx)
  unfold select at h
  dsimp only at h
  split at h
  · split at h
    · cases h
    · cases h
      exact htake (mem_sortByScore.mp hc)
  · split at h
    · cases h
    · cases h
      exact hall (mem_sortByScore.mp hc)
  · split at h
    · split at h
      · cases h
      · cases h
        rcases List.mem_append.mp hc with hsame | hother
        · exact htake (mem_sortByScore.mp hsame)
        · obtain ⟨x, hx, rfl⟩ := List.mem_map.mp hother
          show AlivePeer self members x.member
          exact hall (List.mem_of_mem_drop (mem_sortByScore.mp hx))
    · split at h
      · cases h
      · cases h
        exact htake (mem_sortByScore.mp hc)

/-! ## What a policy promises -/

/-- The order of the result: by score, then by member id. -/
def Before (a b : Candidate σ) : Prop :=
  a.score < b.score ∨ a.score = b.score ∧ compare a.member.memberID b.member.memberID = .lt

/-- The order by score is transitive. -/
theorem scoreLE_trans {a b c : Candidate σ} (hab : scoreLE a b = true) (hbc : scoreLE b c = true) :
    scoreLE a c = true := by
  have hids : compare a.member.memberID b.member.memberID ≠ .gt →
      compare b.member.memberID c.member.memberID ≠ .gt →
      compare a.member.memberID c.member.memberID ≠ .gt := by
    simp only [← Ordering.isLE_iff_ne_gt]
    exact Std.TransCmp.isLE_trans
  unfold scoreLE at *
  grind

theorem scoreLE_total (a b : Candidate σ) : scoreLE a b = true ∨ scoreLE b a = true := by
  have hids : compare a.member.memberID b.member.memberID = .gt →
      compare b.member.memberID a.member.memberID = .lt := Std.OrientedCmp.gt_iff_lt.mp
  unfold scoreLE
  grind

theorem before_of_scoreLE {a b : Candidate σ} (hle : scoreLE a b = true)
    (hne : a.member.memberID ≠ b.member.memberID) : Before a b := by
  have hids : compare a.member.memberID b.member.memberID = .eq → False := fun h =>
    hne (Std.LawfulEqCmp.eq_of_compare h)
  unfold scoreLE at hle
  unfold Before
  split at hle
  · rename_i hscore
    exact .inl (lt_of_le_of_ne (of_decide_eq_true hle) hscore)
  · rename_i hscore
    cases hcmp : compare a.member.memberID b.member.memberID <;> simp_all

/-- An eligible member: alive, not the node itself, and on another machine where the policy
asks for it. -/
def Eligible (self : Member) (policy : Policy) (members : List MemberView) (m : Member) : Prop :=
  AlivePeer self members m ∧ (policy.requireDistinctNodes = true → sameNode self m = false)

theorem eligible_iff {self : Member} {policy : Policy} {members : List MemberView} {m : Member} :
    Eligible self policy members m ↔
      ∃ mv ∈ members, eligible self policy mv = true ∧ mv.member = m := by
  constructor
  · rintro ⟨⟨hself, mv, hmem, rfl, halive⟩, hnode⟩
    refine ⟨mv, hmem, ?_, rfl⟩
    simp only [eligible, halive]
    grind
  · rintro ⟨mv, hmem, helig, rfl⟩
    refine ⟨alivePeer_of_eligible hmem helig, ?_⟩
    unfold eligible at helig
    grind

/-- A sorted group of candidates: one for each member that `P` asks for, no other. -/
structure Group (score : Member → σ) (P : Member → Prop) (spillover : Bool)
    (cs : List (Candidate σ)) : Prop where
  exact : ∀ m, (∃ c ∈ cs, c.member = m) ↔ P m
  sorted : cs.Pairwise Before
  made : ∀ c ∈ cs, c.score = score c.member ∧ c.geoSpillover = spillover

/-- A group that is marked as spillover. -/
theorem Group.spill {score : Member → σ} {P : Member → Prop} {cs : List (Candidate σ)}
    (h : Group score P false cs) : Group score P true (markSpillover cs) where
  exact m := by simpa [markSpillover] using h.exact m
  sorted := List.pairwise_map.mpr h.sorted
  made c hc := by
    obtain ⟨x, hx, rfl⟩ := List.mem_map.mp hc
    exact ⟨(h.made x hx).1, rfl⟩

omit [LinearOrder σ] in
theorem map_markSpillover (cs : List (Candidate σ)) :
    (markSpillover cs).map (·.member.memberID) = cs.map (·.member.memberID) := by
  simp [markSpillover]

theorem sortByScore_perm (cs : List (Candidate σ)) : (sortByScore cs).Perm cs :=
  List.perm_insertionSort _ cs

variable {self : Member} {members : List MemberView} {score : Member → σ} {policy : Policy}

/-- The candidates of some of the eligible members, sorted. -/
theorem group_sortByScore (hids : (members.map (·.member.memberID)).Nodup)
    {q : Member → Bool} {cs : List (Candidate σ)}
    (hperm : cs.Perm ((candidates self policy score members).filter fun c => q c.member)) :
    Group score (fun m => Eligible self policy members m ∧ q m = true) false (sortByScore cs) where
  exact m := by
    simp only [mem_sortByScore, hperm.mem_iff, List.mem_filter, mem_candidates, eligible_iff]
    constructor
    · rintro ⟨c, ⟨⟨mv, hmem, helig, rfl⟩, hq⟩, rfl⟩
      exact ⟨⟨mv, hmem, helig, rfl⟩, hq⟩
    · rintro ⟨⟨mv, hmem, helig, rfl⟩, hq⟩
      exact ⟨_, ⟨⟨mv, hmem, helig, rfl⟩, hq⟩, rfl⟩
  sorted := by
    have hdistinct : (sortByScore cs).Pairwise fun a b =>
        a.member.memberID ≠ b.member.memberID := by
      refine List.pairwise_map.mp (?_ : ((sortByScore cs).map (·.member.memberID)).Nodup)
      refine (((sortByScore_perm cs).trans hperm).map _).nodup_iff.mpr ?_
      exact (nodup_candidates hids).sublist (List.filter_sublist.map _)
    have : Std.Total fun a b : Candidate σ => scoreLE a b = true := ⟨scoreLE_total⟩
    have : IsTrans (Candidate σ) fun a b => scoreLE a b = true := ⟨fun _ _ _ => scoreLE_trans⟩
    exact (List.pairwise_insertionSort _ cs).imp₂ (fun _ _ => before_of_scoreLE) hdistinct
  made c hc := by
    rw [mem_sortByScore, hperm.mem_iff, List.mem_filter, mem_candidates] at hc
    obtain ⟨⟨mv, -, -, rfl⟩, -⟩ := hc
    exact ⟨rfl, rfl⟩

/-- A node of a known geo has a compliance geo, and its members are those that name it. -/
theorem inGeo_iff (hgeo : self.geo ≠ []) {m : Member} :
    inGeo self policy m = true ↔ m.geo = localGeo self policy := by
  have hlocal : localGeo self policy ≠ [] := by
    unfold localGeo
    split <;> assumption
  unfold inGeo
  grind

def EligibleLocal (self : Member) (policy : Policy) (members : List MemberView) (m : Member) :
    Prop :=
  Eligible self policy members m ∧ m.geo = localGeo self policy

def EligibleAway (self : Member) (policy : Policy) (members : List MemberView) (m : Member) :
    Prop :=
  Eligible self policy members m ∧ m.geo ≠ localGeo self policy

theorem Group.congr {P Q : Member → Prop} {b : Bool} {cs : List (Candidate σ)}
    (h : Group score P b cs) (hPQ : ∀ m, P m ↔ Q m) : Group score Q b cs :=
  ⟨fun m => (h.exact m).trans (hPQ m), h.sorted, h.made⟩

theorem Group.none_of_length {P : Member → Prop} {b : Bool} {cs : List (Candidate σ)}
    (h : Group score P b cs) (hlen : cs.length = 0) (m : Member) : ¬ P m := by
  intro hm
  obtain ⟨c, hc, -⟩ := (h.exact m).mpr hm
  rw [List.length_eq_zero_iff.mp hlen] at hc
  cases hc

/-- The front part of the buffer, sorted. -/
theorem group_local (hids : (members.map (·.member.memberID)).Nodup) (hgeo : self.geo ≠ [])
    {buf : Buffer σ} (h : Partitioned self policy score members buf) :
    Group score (EligibleLocal self policy members) false
      (sortByScore (buf.all.toList.take buf.nSame)) :=
  (group_sortByScore hids h.take_perm).congr fun _ => and_congr_right fun _ => inGeo_iff hgeo

/-- The rest of the buffer, sorted. -/
theorem group_away (hids : (members.map (·.member.memberID)).Nodup) (hgeo : self.geo ≠ [])
    {buf : Buffer σ} (h : Partitioned self policy score members buf) :
    Group score (EligibleAway self policy members) false
      (sortByScore (buf.all.toList.drop buf.nSame)) :=
  (group_sortByScore (q := fun m => !inGeo self policy m) hids h.drop_perm).congr fun m =>
    and_congr_right fun _ => by rw [Ne, ← inGeo_iff hgeo, Bool.not_eq_true']; simp

/-- The whole buffer, sorted. -/
theorem group_all (hids : (members.map (·.member.memberID)).Nodup) {buf : Buffer σ}
    (h : Partitioned self policy score members buf) :
    Group score (Eligible self policy members) false (sortByScore buf.all.toList) := by
  refine (group_sortByScore (q := fun _ => true) hids ?_).congr fun m => and_iff_left rfl
  rw [List.filter_eq_self.mpr fun _ _ => rfl]
  exact h.perm

omit [LinearOrder σ] in
theorem Partitioned.nodup (hids : (members.map (·.member.memberID)).Nodup) {buf : Buffer σ}
    (h : Partitioned self policy score members buf) :
    (buf.all.toList.map (·.member.memberID)).Nodup :=
  (h.perm.map _).nodup_iff.mpr (nodup_candidates hids)

/-- No member is selected twice. -/
theorem nodup_select (hids : (members.map (·.member.memberID)).Nodup) {cs : List (Candidate σ)}
    (h : select self members score policy = .ok cs) : (cs.map (·.member.memberID)).Nodup := by
  have hnodup := (partitioned self policy score members).nodup hids
  unfold select at h
  dsimp only at h
  generalize members.foldl (collect self policy score) {} = buf at *
  have htake : ((sortByScore (buf.all.toList.take buf.nSame)).map (·.member.memberID)).Nodup :=
    ((sortByScore_perm _).map _).nodup_iff.mpr (hnodup.sublist ((List.take_sublist _ _).map _))
  split at h
  · split at h <;> cases h
    exact htake
  · split at h <;> cases h
    exact ((sortByScore_perm _).map _).nodup_iff.mpr hnodup
  · split at h
    · split at h <;> cases h
      rw [List.map_append, map_markSpillover, ← List.map_append]
      refine (((sortByScore_perm _).append (sortByScore_perm _)).map _).nodup_iff.mpr ?_
      rwa [List.take_append_drop]
    · split at h <;> cases h
      exact htake

/-- How many members of the compliance geo there are to choose from. -/
def localCount (self : Member) (policy : Policy) (members : List MemberView) : Nat :=
  members.countP fun mv => eligible self policy mv && inGeo self policy mv.member

omit [LinearOrder σ] in
/-- The first group has the members of the geo. -/
theorem Partitioned.length_take {buf : Buffer σ}
    (h : Partitioned self policy score members buf) :
    (buf.all.toList.take buf.nSame).length = localCount self policy members := by
  rw [h.take_perm.length_eq, candidates, localCount, List.filter_map, List.length_map,
    List.filter_filter, List.countP_eq_length_filter]
  congr 1
  exact List.filter_congr fun mv _ => Bool.and_comm _ _

/-- What the policy promises of a selection: each eligible member at most once, in the sorted
groups the policy asks for. Where nothing is returned there are too few members of the
compliance geo for `requireLocalGeo`, and none to return for the others. -/
def Respects (self : Member) (members : List MemberView) (score : Member → σ) (policy : Policy) :
    Except SelectError (List (Candidate σ)) → Prop
  | .ok cs =>
    (cs.map (·.member.memberID)).Nodup ∧
    match policy.geo with
    | .requireLocalGeo => Group score (EligibleLocal self policy members) false cs
    | .latencyOnly => Group score (Eligible self policy members) false cs
    | .preferLocalGeo =>
      if policy.allowSpilloverForDurability then
        ∃ near far, cs = near ++ far ∧
          Group score (EligibleLocal self policy members) false near ∧
          Group score (EligibleAway self policy members) true far
      else Group score (EligibleLocal self policy members) false cs
  | .error _ =>
    match policy.geo with
    | .requireLocalGeo => (localCount self policy members : Int) < policy.minAckNearbyReplicas
    | .latencyOnly => ∀ m, ¬ Eligible self policy members m
    | .preferLocalGeo =>
      if policy.allowSpilloverForDurability then ∀ m, ¬ Eligible self policy members m
      else ∀ m, ¬ EligibleLocal self policy members m

/-- **Placement respects the policy**, for every roster of distinct ids and a node of a known
geo. -/
theorem select_respects_policy (hids : (members.map (·.member.memberID)).Nodup)
    (hgeo : self.geo ≠ []) :
    Respects self members score policy (select self members score policy) := by
  have hpart := partitioned self policy score members
  have hlocal := group_local hids hgeo hpart
  have haway := group_away hids hgeo hpart
  have hall := group_all hids hpart
  have hcount := hpart.length_take
  have hnodup : ∀ cs, select self members score policy = .ok cs →
      (cs.map (·.member.memberID)).Nodup := fun _ => nodup_select hids
  unfold select at hnodup ⊢
  dsimp only at hnodup ⊢
  generalize members.foldl (collect self policy score) {} = buf at *
  have hnone : buf.all.size = 0 → ∀ m, ¬ Eligible self policy members m := fun hsize =>
    hall.none_of_length (by simpa [sortByScore] using hsize)
  cases hpolicy : policy.geo with
  | requireLocalGeo =>
    simp only [hpolicy] at hnodup ⊢
    split_ifs at hnodup ⊢ with hfew <;> simp only [Respects, hpolicy]
    · exact hcount ▸ hfew
    · exact ⟨hnodup _ rfl, hlocal⟩
  | latencyOnly =>
    simp only [hpolicy] at hnodup ⊢
    split_ifs at hnodup ⊢ with hfew <;> simp only [Respects, hpolicy]
    · exact hnone hfew
    · exact ⟨hnodup _ rfl, hall⟩
  | preferLocalGeo =>
    simp only [hpolicy] at hnodup ⊢
    split_ifs at hnodup ⊢ with hspill hfew hfew <;> simp only [Respects, hpolicy, hspill]
    · exact hnone hfew.2
    · exact ⟨hnodup _ rfl, _, _, rfl, hlocal, haway.spill⟩
    · exact hlocal.none_of_length (by simpa [sortByScore] using hfew.2)
    · exact ⟨hnodup _ rfl, hlocal⟩

/-- A roster of four under each geo policy: the nearest member of the node's geo comes first,
and a member of another geo only as spillover. -/
theorem select_respects_policy_four :
    let member (id geo : UInt8) : Member := { memberID := [id], geo := [geo] }
    let roster := [(1, 7, State.alive), (2, 8, .alive), (3, 7, .alive), (4, 7, .dead)].map
      fun (id, geo, state) => ({ member := member id geo, state, incarnation := 0 } : MemberView)
    (∀ geo : GeoPolicy, Respects (member 1 7) roster (·.memberID.length)
      { targetNearbyReplicas := 2, geo } (select (member 1 7) roster (·.memberID.length)
        { targetNearbyReplicas := 2, geo })) ∧
    (select (member 1 7) roster (·.memberID.length) { targetNearbyReplicas := 2 }).toOption.map
      (·.map fun c => (c.member.memberID, c.geoSpillover)) = some [([3], false), ([2], true)] :=
  ⟨fun _ => select_respects_policy (by decide) (by decide), by decide⟩

end

end WaveSpan.Placement
