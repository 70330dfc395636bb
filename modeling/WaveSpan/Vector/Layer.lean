/-
WaveSpan.Vector.Layer — the search of one layer of an HNSW graph
(`internal/vector/ann/hnsw.go`, `searchLayer`).

A search keeps a heap of candidates, the nearest at its front, and a heap of up to `ef` results, the
farthest at its front. It takes the nearest candidate and looks at the neighbours not seen before,
until no candidate is left or the nearest is farther than all of `ef` results. It reads the distance
and the neighbours of a node and nothing else, so that is what a `Layer` is here; a node that is not
there, or does not have the layer, is an index out of range (`none`).

One neighbour leaves a sound state and does not bring the search farther from its end than the seen
nodes bring it nearer (`visit_spec`); so a round of the loop takes a candidate off for good, and as
many rounds as there are nodes are enough (`loop_spec`).
-/
import WaveSpan.Lib.Heap
import Mathlib.Data.List.Nodup
import Mathlib.Data.List.Perm.Subperm
import Mathlib.Logic.Relation

namespace WaveSpan.Vector.Ann

open WaveSpan.GoHeap

structure Elem (D : Type) where
  idx : Int32
  dist : D
deriving DecidableEq, Repr

/-- What a search sees of a layer: how many nodes there are, and the distance and the neighbours of
each that has the layer. -/
structure Layer (D : Type) where
  size : Nat
  distTo : Int32 → Option D
  conns : Int32 → Option (List Int32)

structure Frontier (D : Type) where
  visited : List Int32
  cand : Array (Elem D)
  res : Array (Elem D)

section
variable {D : Type} [LinearOrder D]

def nearerFirst (a b : Elem D) : Bool := decide (a.dist < b.dist)

def fartherFirst (a b : Elem D) : Bool := decide (b.dist < a.dist)

def Frontier.farthest (s : Frontier D) : Option D := s.res[0]?.map Elem.dist

/-- There is room for a result, or it is nearer than one. -/
def Frontier.admits (s : Frontier D) (ef : Int) (d : D) : Option Bool :=
  if (s.res.size : Int) < ef then some true else s.farthest.map fun f => decide (d < f)

/-- There is no room, and every result is nearer. -/
def Frontier.done (s : Frontier D) (ef : Int) (d : D) : Option Bool :=
  if ef ≤ s.res.size then s.farthest.map fun f => decide (f < d) else some false

/-- A node that is a candidate and a result; the farthest result goes if they are too many. -/
def Frontier.keep (s : Frontier D) (ef : Int) (e : Elem D) : Option (Frontier D) := do
  let res := heapPush fartherFirst s.res e
  let res ← if ef < res.size then (heapPop fartherFirst res).map Prod.snd else some res
  some { s with cand := heapPush nearerFirst s.cand e, res }

def Layer.visit (L : Layer D) (ef : Int) (s : Frontier D) (nb : Int32) : Option (Frontier D) :=
  if nb ∈ s.visited then some s
  else do
    let d ← L.distTo nb
    let s := { s with visited := nb :: s.visited }
    if ← s.admits ef d then s.keep ef ⟨nb, d⟩ else some s

/-- The rounds of a search; `none` also if there are more than `fuel`. -/
def Layer.loop (L : Layer D) (ef : Int) : Nat → Frontier D → Option (Frontier D)
  | 0, _ => none
  | fuel + 1, s =>
    match heapPop nearerFirst s.cand with
    | none => some s
    | some (c, cand) => do
      let s := { s with cand }
      if ← s.done ef c.dist then some s
      else
        let nbs ← L.conns c.idx
        let s ← nbs.foldlM (L.visit ef) s
        loop L ef fuel s

def Layer.search (L : Layer D) (ep : Int32) (ef : Int) : Option (List (Elem D)) := do
  let d0 ← L.distTo ep
  let s ← L.loop ef (L.size + 1) { visited := [ep], cand := #[⟨ep, d0⟩], res := #[⟨ep, d0⟩] }
  some (drain fartherFirst s.res.size s.res [])

end

/-! ## Reachable nodes -/

section
variable {D : Type}

def Within (n : Nat) (i : Int32) : Prop := 0 ≤ i.toInt ∧ i.toInt < n

/-- There are no more indices than elements. -/
theorem length_le_of_within {n : Nat} {l : List Int32} (hnd : l.Nodup) (h : ∀ i ∈ l, Within n i) :
    l.length ≤ n := by
  have hnd' : (l.map fun i => i.toInt.toNat).Nodup := List.Nodup.map_on (fun i hi j hj heq => by
    have hi := (h i hi).1
    have hj := (h j hj).1
    exact Int32.toInt_inj.mp (by omega)) hnd
  have hsub : (l.map fun i => i.toInt.toNat) ⊆ List.range n := fun k hk => by
    obtain ⟨i, hi, rfl⟩ := List.mem_map.mp hk
    have hi := h i hi
    exact List.mem_range.mpr (by have := hi.1; have := hi.2; omega)
  simpa using (List.subperm_of_subset hnd' hsub).length_le

/-- The layer holds together: a neighbour has the layer, and a node that has it is there. -/
structure Layer.Closed (L : Layer D) : Prop where
  node : ∀ {i}, (L.conns i).isSome = true → Within L.size i ∧ (L.distTo i).isSome = true
  target : ∀ {i l}, L.conns i = some l → ∀ j ∈ l, (L.conns j).isSome = true

def Layer.Edge (L : Layer D) (i j : Int32) : Prop := ∃ l, L.conns i = some l ∧ j ∈ l

def Layer.Reach (L : Layer D) : Int32 → Int32 → Prop := Relation.ReflTransGen L.Edge

/-- There is room for every reachable node. -/
def Layer.Room (L : Layer D) (ef : Int) (ep : Int32) : Prop :=
  ∀ l : List Int32, l.Nodup → (∀ i ∈ l, L.Reach ep i) → (l.length : Int) ≤ ef

variable {L : Layer D} {ep : Int32}

theorem Layer.Reach.eq_or_edge {j : Int32} (h : L.Reach ep j) : j = ep ∨ ∃ i, L.Edge i j := by
  cases h with
  | refl => exact .inl rfl
  | tail _ hedge => exact .inr ⟨_, hedge⟩

/-- What is reached from a node is a node. -/
theorem Layer.Closed.reach (hL : L.Closed) (hep : (L.conns ep).isSome = true) {j : Int32}
    (h : L.Reach ep j) : (L.conns j).isSome = true := by
  rcases h.eq_or_edge with rfl | ⟨i, l, hl, hj⟩
  · exact hep
  · exact hL.target hl j hj

/-- A later state of a search, after some neighbours were looked at. -/
structure Frontier.Grows (L : Layer D) (ef : Int) (ep : Int32) (s : Frontier D) (nbs : List Int32)
    (s' : Frontier D) : Prop where
  visited : s.visited ⊆ s'.visited
  seen : nbs ⊆ s'.visited
  cand : s.cand.toList ⊆ s'.cand.toList
  count : s'.cand.size + s.visited.length ≤ s.cand.size + s'.visited.length
  fresh : L.Room ef ep → ∀ i ∈ s'.visited, i ∈ s.visited ∨ i ∈ s'.cand.toList.map Elem.idx

theorem Frontier.Grows.refl {ef : Int} {s : Frontier D} {nbs : List Int32} (h : nbs ⊆ s.visited) :
    s.Grows L ef ep nbs s :=
  ⟨List.Subset.refl _, h, List.Subset.refl _, Nat.le_refl _, fun _ _ => .inl⟩

end

/-! ## The state of a search -/

section
variable {D : Type} [LinearOrder D] {L : Layer D} {ef : Int} {ep : Int32} {s : Frontier D}

/-- What was seen is reachable, the candidates and the results were seen and stand at their
distances, and there are one to `ef` results. With enough room, every node seen is a result. -/
structure Frontier.Sound (L : Layer D) (ef : Int) (ep : Int32) (s : Frontier D) : Prop where
  nodup : s.visited.Nodup
  reach : ∀ i ∈ s.visited, L.Reach ep i
  entry : ep ∈ s.visited
  cand : ∀ e ∈ s.cand.toList, e.idx ∈ s.visited ∧ L.distTo e.idx = some e.dist
  res : ∀ e ∈ s.res.toList, e.idx ∈ s.visited ∧ L.distTo e.idx = some e.dist
  distinct : (s.res.toList.map Elem.idx).Nodup
  ordered : Ordered fartherFirst s.res
  pos : 0 < s.res.size
  size : (s.res.size : Int) ≤ max ef 1
  full : L.Room ef ep → ∀ i ∈ s.visited, i ∈ s.res.toList.map Elem.idx

theorem weak_fartherFirst : Weak (fartherFirst (D := D)) := weak_of_key Elem.dist

/-- The root of the results is the farthest. -/
theorem Frontier.Sound.farthest (hs : s.Sound L ef ep) :
    ∃ f, s.farthest = some f ∧ ∀ e ∈ s.res.toList, e.dist ≤ f := by
  obtain ⟨top, htop⟩ : ∃ top, s.res[0]? = some top := ⟨_, Array.getElem?_eq_getElem hs.pos⟩
  refine ⟨top.dist, by rw [Frontier.farthest, htop]; rfl, fun e he => ?_⟩
  have hfront := hs.ordered.not_less weak_fartherFirst htop he
  simpa [fartherFirst] using hfront

/-- With enough room, there is room for one more. -/
theorem Frontier.Sound.room (hs : s.Sound L ef ep) (hroom : L.Room ef ep) {nb : Int32}
    (hnb : L.Reach ep nb) (hnew : nb ∉ s.visited) : (s.res.size : Int) + 1 ≤ ef := by
  have hsub : ∀ i ∈ s.res.toList.map Elem.idx, i ∈ s.visited := by
    intro i hi
    obtain ⟨e, he, rfl⟩ := List.mem_map.mp hi
    exact (hs.res e he).1
  have hlen := hroom (nb :: s.res.toList.map Elem.idx)
    (List.nodup_cons.mpr ⟨fun h => hnew (hsub nb h), hs.distinct⟩)
    (List.forall_mem_cons.mpr ⟨hnb, fun i hi => hs.reach i (hsub i hi)⟩)
  simpa using hlen

theorem Frontier.Sound.see (hs : s.Sound L ef ep) {nb : Int32} (hnb : L.Reach ep nb)
    (hnew : nb ∉ s.visited) {cand res : Array (Elem D)}
    (hcand : ∀ e ∈ cand.toList, e.idx ∈ nb :: s.visited ∧ L.distTo e.idx = some e.dist)
    (hres : ∀ e ∈ res.toList, e.idx ∈ nb :: s.visited ∧ L.distTo e.idx = some e.dist)
    (hdistinct : (res.toList.map Elem.idx).Nodup) (hord : Ordered fartherFirst res)
    (hpos : 0 < res.size) (hsize : (res.size : Int) ≤ max ef 1)
    (hfull : L.Room ef ep → ∀ i ∈ nb :: s.visited, i ∈ res.toList.map Elem.idx) :
    Frontier.Sound L ef ep { visited := nb :: s.visited, cand, res } where
  nodup := List.nodup_cons.mpr ⟨hnew, hs.nodup⟩
  reach := List.forall_mem_cons.mpr ⟨hnb, hs.reach⟩
  entry := List.mem_cons_of_mem _ hs.entry
  cand := hcand
  res := hres
  distinct := hdistinct
  ordered := hord
  pos := hpos
  size := hsize
  full := hfull

section
variable {nb : Int32} {d : D}

omit [LinearOrder D] in
/-- A heap with a node seen for the first time. -/
theorem pushed {l l' : List (Elem D)} (hd : L.distTo nb = some d) (hperm : l'.Perm (l ++ [⟨nb, d⟩]))
    (hl : ∀ e ∈ l, e.idx ∈ s.visited ∧ L.distTo e.idx = some e.dist) :
    ∀ e ∈ l', e.idx ∈ nb :: s.visited ∧ L.distTo e.idx = some e.dist := by
  intro e he
  rcases List.mem_append.mp (hperm.mem_iff.mp he) with he | he
  · exact ⟨List.mem_cons_of_mem _ (hl e he).1, (hl e he).2⟩
  · obtain rfl := List.mem_singleton.mp he
    exact ⟨List.mem_cons_self, hd⟩

theorem Frontier.Sound.distinct_push (hs : s.Sound L ef ep) (hnew : nb ∉ s.visited) :
    ((heapPush fartherFirst s.res ⟨nb, d⟩).toList.map Elem.idx).Nodup := by
  rw [((heapPush_perm s.res ⟨nb, d⟩).map Elem.idx).nodup_iff, List.map_append, List.nodup_append]
  refine ⟨hs.distinct, by simp, fun a ha b hb hab => hnew ?_⟩
  obtain ⟨e, he, rfl⟩ := List.mem_map.mp ha
  have hidx : e.idx = nb := hab.trans (List.mem_singleton.mp hb)
  exact hidx ▸ (hs.res e he).1

theorem grows_keep (res : Array (Elem D)) :
    s.Grows L ef ep [nb] ⟨nb :: s.visited, heapPush nearerFirst s.cand ⟨nb, d⟩, res⟩ := by
  have hcand : (heapPush nearerFirst s.cand ⟨nb, d⟩).toList.Perm _ := heapPush_perm s.cand ⟨nb, d⟩
  refine ⟨List.subset_cons_self _ _, by simp, fun e he => ?_, ?_, fun _ => ?_⟩
  · exact hcand.mem_iff.mpr (List.mem_append_left _ he)
  · have hsize := hcand.length_eq
    simp only [Array.length_toList, List.length_append, List.length_singleton] at hsize
    simp only [hsize, List.length_cons]
    omega
  · exact List.forall_mem_cons.mpr
      ⟨.inr ((hcand.map Elem.idx).mem_iff.mpr (by simp)), fun i hi => .inl hi⟩

/-- A node seen for the first time that becomes a candidate and a result. -/
theorem keep_spec (hs : s.Sound L ef ep) (hnb : L.Reach ep nb) (hnew : nb ∉ s.visited)
    (hd : L.distTo nb = some d) :
    ∃ s', Frontier.keep { s with visited := nb :: s.visited } ef ⟨nb, d⟩ = some s' ∧
      s'.Sound L ef ep ∧ s.Grows L ef ep [nb] s' := by
  have hpushc : (heapPush nearerFirst s.cand ⟨nb, d⟩).toList.Perm _ := heapPush_perm s.cand ⟨nb, d⟩
  have hcand := pushed hd hpushc hs.cand
  have hpush : (heapPush fartherFirst s.res ⟨nb, d⟩).toList.Perm _ := heapPush_perm s.res ⟨nb, d⟩
  have hord := hs.ordered.push weak_fartherFirst ⟨nb, d⟩
  have hsize : (heapPush fartherFirst s.res ⟨nb, d⟩).size = s.res.size + 1 := by
    simpa using hpush.length_eq
  have hbound := hs.size
  have hpos := hs.pos
  simp only [Frontier.keep]
  split
  · -- the farthest goes, so there was no room
    rename_i hover
    obtain ⟨top, res, hpop⟩ : ∃ top res,
        heapPop fartherFirst (heapPush fartherFirst s.res ⟨nb, d⟩) = some (top, res) := by
      simp [heapPop, hsize]
    obtain ⟨hord', hperm, -⟩ := heapPop_eq_some weak_fartherFirst hord hpop
    have hsize' := hperm.length_eq
    simp only [Array.length_toList, List.length_cons, hsize] at hsize'
    refine ⟨_, by rw [hpop]; rfl, ?_, grows_keep res⟩
    refine hs.see hnb hnew hcand (fun e he => ?_) ?_ hord' (by omega) (by omega) fun hroom => ?_
    · exact pushed hd hpush hs.res e (hperm.mem_iff.mpr (List.mem_cons_of_mem _ he))
    · exact (List.nodup_cons.mp ((hperm.map Elem.idx).nodup_iff.mp (hs.distinct_push hnew))).2
    · have := hs.room hroom hnb hnew
      omega
  · refine ⟨_, rfl, ?_, grows_keep _⟩
    refine hs.see hnb hnew hcand (pushed hd hpush hs.res) (hs.distinct_push hnew) hord (by omega)
      (by omega) fun hroom i hi => (hpush.map Elem.idx).mem_iff.mpr ?_
    rw [List.map_append, List.mem_append]
    rcases List.mem_cons.mp hi with rfl | hi
    · exact .inr (by simp)
    · exact .inl (hs.full hroom i hi)

end

/-- Visiting one neighbour. -/
theorem visit_spec (hL : L.Closed) (hs : s.Sound L ef ep) {nb : Int32} (hnb : L.Reach ep nb)
    (hnode : (L.conns nb).isSome = true) :
    ∃ s', L.visit ef s nb = some s' ∧ s'.Sound L ef ep ∧ s.Grows L ef ep [nb] s' := by
  unfold Layer.visit
  split
  · rename_i hold
    exact ⟨s, rfl, hs, .refl (by simpa using hold)⟩
  · rename_i hnew
    obtain ⟨d, hd⟩ := Option.isSome_iff_exists.mp (hL.node hnode).2
    obtain ⟨f, hf, -⟩ := hs.farthest
    have hadmits : ∃ b, Frontier.admits { s with visited := nb :: s.visited } ef d = some b ∧
        (b = false → ef ≤ s.res.size) := by
      unfold Frontier.admits
      split
      · exact ⟨true, rfl, by simp⟩
      · rename_i hfull
        exact ⟨_, congrArg (Option.map _) hf, fun _ => Int.not_lt.mp hfull⟩
    obtain ⟨b, hb, hfull⟩ := hadmits
    simp only [hd, hb, Option.bind_eq_bind, Option.bind_some]
    cases b with
    | true => exact keep_spec hs hnb hnew hd
    | false =>
      have hnoroom : ¬ L.Room ef ep := fun hroom => by
        have := hs.room hroom hnb hnew
        have := hfull rfl
        omega
      refine ⟨_, rfl, ?_, ?_⟩
      · exact hs.see hnb hnew
          (fun e he => ⟨List.mem_cons_of_mem _ (hs.cand e he).1, (hs.cand e he).2⟩)
          (fun e he => ⟨List.mem_cons_of_mem _ (hs.res e he).1, (hs.res e he).2⟩)
            hs.distinct hs.ordered
          hs.pos hs.size fun hroom => absurd hroom hnoroom
      · exact ⟨List.subset_cons_self _ _, by simp, List.Subset.refl _, by simp,
          fun hroom => absurd hroom hnoroom⟩

/-- The neighbours of one node. -/
theorem visits_spec (hL : L.Closed) {nbs : List Int32} (hs : s.Sound L ef ep)
    (hnbs : ∀ nb ∈ nbs, L.Reach ep nb ∧ (L.conns nb).isSome = true) :
    ∃ s', nbs.foldlM (L.visit ef) s = some s' ∧ s'.Sound L ef ep ∧ s.Grows L ef ep nbs s' := by
  induction nbs generalizing s with
  | nil => exact ⟨s, rfl, hs, .refl (List.nil_subset _)⟩
  | cons nb nbs ih =>
    obtain ⟨hnb, hnbs⟩ := List.forall_mem_cons.mp hnbs
    obtain ⟨s', hs', hsound', hgrow⟩ := visit_spec hL hs hnb.1 hnb.2
    obtain ⟨s'', hs'', hsound'', hgrow'⟩ := ih hsound' hnbs
    refine ⟨s'', by rw [List.foldlM_cons, hs']; exact hs'', hsound'', ?_⟩
    have hcount := hgrow.count
    have hcount' := hgrow'.count
    refine ⟨fun i hi => hgrow'.visited (hgrow.visited hi), ?_,
      fun e he => hgrow'.cand (hgrow.cand he),
      by omega, fun hroom i hi => ?_⟩
    · exact List.cons_subset.mpr ⟨hgrow'.visited (hgrow.seen List.mem_cons_self), hgrow'.seen⟩
    · rcases hgrow'.fresh hroom i hi with hi | hi
      · rcases hgrow.fresh hroom i hi with hi | hi
        · exact .inl hi
        · exact .inr (List.map_subset _ hgrow'.cand hi)
      · exact .inr hi

/-- With enough room, a node seen is still a candidate, or all its neighbours were seen. -/
def Frontier.Pending (L : Layer D) (ef : Int) (ep : Int32) (s : Frontier D) : Prop :=
  L.Room ef ep → ∀ i ∈ s.visited,
    i ∈ s.cand.toList.map Elem.idx ∨ ∀ j, L.Edge i j → j ∈ s.visited

/-- No node is visited twice. -/
theorem Frontier.Sound.length_visited (hL : L.Closed) (hep : (L.conns ep).isSome = true)
    (hs : s.Sound L ef ep) : s.visited.length ≤ L.size :=
  length_le_of_within hs.nodup fun i hi => (hL.node (hL.reach hep (hs.reach i hi))).1

/-- A candidate is not farther than all results, where each node seen is one. -/
theorem Frontier.Sound.not_done (hs : s.Sound L ef ep) (hroom : L.Room ef ep) {c : Elem D}
    (hc : c.idx ∈ s.visited) (hd : L.distTo c.idx = some c.dist) : s.done ef c.dist =
      some false := by
  unfold Frontier.done
  split
  · obtain ⟨f, hf, hmax⟩ := hs.farthest
    obtain ⟨e, he, hidx⟩ := List.mem_map.mp (hs.full hroom c.idx hc)
    have hdist : e.dist = c.dist := Option.some.inj ((hs.res e he).2.symm.trans (hidx ▸ hd))
    have hle := hmax e he
    rw [hdist] at hle
    simp [hf, hle]
  · rfl

omit [LinearOrder D] in
/-- A candidate was taken and its neighbours looked at. -/
theorem Frontier.Pending.round {c : Elem D} {cand : Array (Elem D)} {nbs : List Int32}
    {s' : Frontier D}
    (hpending : s.Pending L ef ep) (hperm : s.cand.toList.Perm (c :: cand.toList))
    (hnbs : L.conns c.idx = some nbs) (hgrow : Frontier.Grows L ef ep { s with cand } nbs s') :
    s'.Pending L ef ep := by
  intro hroom i hi
  rcases hgrow.fresh hroom i hi with hi | hi
  · rcases hpending hroom i hi with hcand | hexp
    · rcases List.mem_cons.mp ((hperm.map Elem.idx).mem_iff.mp hcand) with rfl | hcand
      · refine .inr fun j hj => ?_
        obtain ⟨l, hl, hj⟩ := hj
        rw [hnbs] at hl
        cases hl
        exact hgrow.seen hj
      · exact .inl (List.map_subset _ hgrow.cand hcand)
    · exact .inr fun j hj => hgrow.visited (hexp j hj)
  · exact .inl hi

/-- The rounds of a search end, with every reachable node seen if there is room. -/
theorem loop_spec (hL : L.Closed) (hep : (L.conns ep).isSome = true) {fuel : Nat}
    (hs : s.Sound L ef ep) (hpending : s.Pending L ef ep)
    (hfuel : s.cand.size + (L.size - s.visited.length) < fuel) :
    ∃ s', L.loop ef fuel s = some s' ∧ s'.Sound L ef ep ∧
      (L.Room ef ep → ∀ i ∈ s'.visited, ∀ j, L.Edge i j → j ∈ s'.visited) := by
  induction fuel generalizing s with
  | zero => omega
  | succ fuel ih =>
    rw [Layer.loop]
    split
    · rename_i hempty
      have hnone : s.cand.size = 0 := by simpa [heapPop] using hempty
      refine ⟨s, rfl, hs, fun hroom i hi => (hpending hroom i hi).resolve_left ?_⟩
      simp [Array.size_eq_zero_iff.mp hnone]
    · rename_i c cand hpop
      obtain ⟨-, hperm⟩ := heapPop_perm hpop
      have hsize := hperm.length_eq
      rw [Array.length_toList, List.length_cons, Array.length_toList] at hsize
      obtain ⟨hc, hd⟩ := hs.cand c (hperm.mem_iff.mpr List.mem_cons_self)
      have hs1 : Frontier.Sound L ef ep { s with cand } :=
        { hs with cand := fun e he => hs.cand e (hperm.mem_iff.mpr (List.mem_cons_of_mem _ he)) }
      obtain ⟨f, hf, -⟩ := hs1.farthest
      have hdone : ∃ b, Frontier.done { s with cand } ef c.dist = some b := by
        unfold Frontier.done
        split
        · exact ⟨_, congrArg (Option.map _) hf⟩
        · exact ⟨false, rfl⟩
      obtain ⟨b, hb⟩ := hdone
      simp only [hb, Option.bind_eq_bind, Option.bind_some]
      cases b with
      | true =>
        refine ⟨_, rfl, hs1, fun hroom => ?_⟩
        rw [hs1.not_done hroom hc hd] at hb
        cases hb
      | false =>
        have hreach := hs.reach c.idx hc
        obtain ⟨nbs, hnbs⟩ := Option.isSome_iff_exists.mp (hL.reach hep hreach)
        have hgood : ∀ nb ∈ nbs, L.Reach ep nb ∧ (L.conns nb).isSome = true := fun nb hnb =>
          ⟨hreach.tail ⟨nbs, hnbs, hnb⟩, hL.target hnbs nb hnb⟩
        obtain ⟨s2, hs2, hsound2, hgrow⟩ := visits_spec hL hs1 hgood
        simp only [hnbs, hs2, Option.bind_some, Bool.false_eq_true, if_false]
        have hcount := hgrow.count
        have hold := hs.length_visited hL hep
        have hnew := hsound2.length_visited hL hep
        exact ih hsound2 (hpending.round hperm hnbs hgrow) (by simp only at hcount; omega)

/-- What a search of a closed layer returns. -/
structure Layer.Found (L : Layer D) (ep : Int32) (ef : Int) (w : List (Elem D)) : Prop where
  distinct : (w.map Elem.idx).Nodup
  sorted : w.Pairwise fun a b => a.dist ≤ b.dist
  nonempty : w ≠ []
  length : (w.length : Int) ≤ max ef 1
  reach : ∀ e ∈ w, L.Reach ep e.idx ∧ L.distTo e.idx = some e.dist
  all : L.Room ef ep → ∀ j, L.Reach ep j → j ∈ w.map Elem.idx

/-- A search ends with the nearest it can reach. -/
theorem search_spec (hL : L.Closed) (hep : (L.conns ep).isSome = true) (ef : Int) :
    ∃ w, L.search ep ef = some w ∧ L.Found ep ef w := by
  obtain ⟨hlt, hdist⟩ := hL.node hep
  obtain ⟨d0, hd0⟩ := Option.isSome_iff_exists.mp hdist
  have hs : Frontier.Sound L ef ep { visited := [ep], cand := #[⟨ep, d0⟩], res := #[⟨ep, d0⟩] } :=
    { nodup := by simp
      reach := fun i hi => List.mem_singleton.mp hi ▸ Relation.ReflTransGen.refl
      entry := by simp
      cand := by simpa using hd0
      res := by simpa using hd0
      distinct := by simp
      ordered := fun c hc => lessAt_out (by simp; omega)
      pos := by simp
      size := Int.le_max_right ef 1
      full := by simp }
  obtain ⟨s, hloop, hsound, hclosed⟩ := loop_spec hL hep hs (fun _ => by simp)
    (show 1 + (L.size - 1) < L.size + 1 by have := hlt.1; have := hlt.2; omega)
  obtain ⟨hsorted, hperm⟩ := drain_spec weak_fartherFirst hsound.ordered List.Pairwise.nil (by simp)
  rw [List.append_nil] at hperm
  have hsearch : L.search ep ef = some (drain fartherFirst s.res.size s.res []) := by
    simp only [Layer.search, hd0, hloop, Option.bind_eq_bind, Option.bind_some]
  refine ⟨_, hsearch, ?_⟩
  constructor
  · exact (hperm.map Elem.idx).nodup_iff.mpr hsound.distinct
  · exact hsorted.imp fun h => by simpa [fartherFirst] using h
  · intro hnil
    rw [hnil] at hperm
    have := hperm.length_eq
    have := hsound.pos
    simp at *
    omega
  · rw [hperm.length_eq]
    exact hsound.size
  · intro e he
    obtain ⟨hv, hd⟩ := hsound.res e (hperm.mem_iff.mp he)
    exact ⟨hsound.reach _ hv, hd⟩
  · intro hroom j hj
    rw [(hperm.map Elem.idx).mem_iff]
    refine hsound.full hroom j ?_
    induction hj with
    | refl => exact hsound.entry
    | tail _ hedge ih => exact hclosed hroom _ ih _ hedge

end

end WaveSpan.Vector.Ann
