/-
WaveSpan.Vector.Hnsw — the HNSW graph (`internal/vector/ann/hnsw.go`).

A node stands in the layers up to its level, and has a list of neighbours in each. An insert
searches the layers from the entry point down, takes the nearest of what each search returns as the
new node's neighbours, appends the new node to their lists and prunes those. A deleted or replaced
node stays in the graph.

The level of a new node is drawn at random in the source and is an argument of the call here. A
node's index is an `int32` and the room of a list is an `int`, as in the source: the 2^31st node
gets a negative index, and twice `M` is negative from 2^62 on. The methods of the source read and
change the nodes only, apart from the parameters; they are functions of the list of nodes here.
`none` is an index or a bound out of range.

A search of a layer is exhaustive if it has room (`search_layer`). What linking a new node does to
the graph is said once, layer by layer (`Linked`, `linkLayers_spec`).
-/
import WaveSpan.Collections.Store
import WaveSpan.Vector.TopK
import WaveSpan.Vector.Layer
import Mathlib.Data.Set.Card

namespace WaveSpan.Vector.Ann

open WaveSpan.Wire
open WaveSpan.Collections (GoMap)

/-! ## The model -/

structure Params where
  m : Int64 := 16
  efConstruction : Int64 := 200
  efSearchDefault : Int64 := 64

/-- `hnode`; `conns[level]` are the neighbours at a level. -/
structure HNode (V : Type) where
  id : Bytes
  vec : V
  conns : List (List Int32)
  deleted : Bool := false

abbrev Nodes (V : Type) := List (HNode V)

structure HNSW (V : Type) where
  m : Int64
  mMax0 : Int64
  efConstruction : Int64
  efSearchDefault : Int64
  nodes : Nodes V := []
  idToIdx : GoMap Int32 := ∅
  /-- -1 as long as there is no node. -/
  entryPoint : Int32 := -1
  maxLevel : Nat := 0
  live : Int64 := 0

def orDefault (p default : Int64) : Int64 := if p ≤ 0 then default else p

def newHNSW {V : Type} (p : Params) : HNSW V where
  m := orDefault p.m 16
  mMax0 := 2 * orDefault p.m 16
  efConstruction := orDefault p.efConstruction 200
  efSearchDefault := orDefault p.efSearchDefault 64

/-- An element of a slice; an index below 0 is out of range as well. -/
def elemAt {α : Type} (l : List α) (i : Int32) : Option α :=
  if i.toInt < 0 then none else l[i.toInt.toNat]?

/-- The node at an index the slice has, changed. -/
def modifyAt {V : Type} (g : Nodes V) (idx : Int32) (f : HNode V → HNode V) : Nodes V :=
  g.modify idx.toInt.toNat f

section
variable {V D : Type} [LinearOrder D] (dist : V → V → D)

def distTo (g : Nodes V) (q : V) (idx : Int32) : Option D :=
  (elemAt g idx).map fun n => dist q n.vec

def connsAt (g : Nodes V) (lc : Nat) (idx : Int32) : Option (List Int32) :=
  (elemAt g idx).bind fun n => n.conns[lc]?

def setConns (g : Nodes V) (idx : Int32) (lc : Nat) (l : List Int32) : Option (Nodes V) :=
  (connsAt g lc idx).map fun _ => modifyAt g idx fun n => { n with conns := n.conns.set lc l }

def layer (g : Nodes V) (q : V) (lc : Nat) : Layer D where
  size := g.length
  distTo := distTo dist g q
  conns := connsAt g lc

def searchLayer (g : Nodes V) (q : V) (ep : Int32) (ef : Int) (lc : Nat) : Option (List (Elem D)) :=
  (layer dist g q lc).search ep ef

/-- A bound below 0 is out of range. -/
def selectClosest (cands : List (Elem D)) (m : Int64) : Option (List Int32) :=
  if m.toInt < cands.length then
    if m.toInt < 0 then none else some ((cands.take m.toInt.toNat).map Elem.idx)
  else some (cands.map Elem.idx)

/-- The candidates stand in the order of the list that is pruned. -/
def pruneConns (g : Nodes V) (e : Int32) (lc : Nat) (mmax : Int64) : Option (Nodes V) := do
  let conns ← connsAt g lc e
  if conns.length ≤ mmax.toInt then some g
  else
    let n ← elemAt g e
    let cands ← conns.mapM fun c => (distTo dist g n.vec c).map fun d => Elem.mk c d
    let kept ← selectClosest cands mmax
    setConns g e lc kept

def linkBack (idx : Int32) (lc : Nat) (mmax : Int64) (g : Nodes V) (e : Int32) :
    Option (Nodes V) := do
  let conns ← connsAt g lc e
  let g ← setConns g e lc (conns ++ [idx])
  pruneConns dist g e lc mmax

/-- The nearest node of each layer from `lc` down to the one above `level`. -/
def descend (g : Nodes V) (q : V) (level : Nat) : Nat → Int32 → Option Int32
  | 0, ep => some ep
  | lc + 1, ep =>
    if level < lc + 1 then do
      let w ← searchLayer dist g q ep 1 (lc + 1)
      let e ← w[0]?
      descend g q level lc e.idx
    else some ep

def HNSW.mmax (h : HNSW V) (lc : Nat) : Int64 := if lc = 0 then h.mMax0 else h.m

def HNSW.linkLayers (h : HNSW V) (vec : V) (idx : Int32) : Nat → Nodes V → Int32 → Option (Nodes V)
  | 0, g, _ => some g
  | lc + 1, g, ep => do
    let w ← searchLayer dist g vec ep h.efConstruction.toInt lc
    let neighbors ← selectClosest w h.m
    let g ← setConns g idx lc neighbors
    let g ← neighbors.foldlM (linkBack dist idx lc (h.mmax lc)) g
    HNSW.linkLayers h vec idx lc g ((w[0]?.map Elem.idx).getD ep)

def HNSW.delete (h : HNSW V) (id : Bytes) : Option (HNSW V) :=
  match h.idToIdx[id]? with
  | none => some h
  | some idx => do
    let n ← elemAt h.nodes idx
    if n.deleted then some h
    else some { h with
      nodes := modifyAt h.nodes idx fun n => { n with deleted := true }
      live := h.live - 1 }

def HNSW.next (h : HNSW V) : Int32 := Int32.ofNat h.nodes.length

/-- A node that is linked to no other yet. -/
def HNSW.add (h : HNSW V) (id : Bytes) (vec : V) (level : Nat) : HNSW V :=
  { h with
    nodes := h.nodes ++ [{ id, vec, conns := List.replicate (level + 1) [] }]
    idToIdx := h.idToIdx.insert id h.next
    live := h.live + 1 }

/-- The rest of an insert: the new node in the layers of the graph. -/
def HNSW.link (h : HNSW V) (idx : Int32) (vec : V) (level : Nat) : Option (HNSW V) :=
  if h.entryPoint = -1 then some { h with entryPoint := idx, maxLevel := level }
  else do
    let ep ← descend dist h.nodes vec level h.maxLevel h.entryPoint
    let nodes ← h.linkLayers dist vec idx (min h.maxLevel level + 1) h.nodes ep
    if h.maxLevel < level then some { h with nodes, maxLevel := level, entryPoint := idx }
    else some { h with nodes }

def HNSW.insert (h : HNSW V) (id : Bytes) (vec : V) (level : Nat) : Option (HNSW V) := do
  let h ← h.delete id
  (h.add id vec level).link dist h.next vec level

/-- The loop over the nodes found: those not deleted, up to `k` of them. -/
def collect (g : Nodes V) (k : Int) :
    List (Elem D) → List (Candidate D) → Option (List (Candidate D))
  | [], out => some out
  | e :: w, out => do
    let n ← elemAt g e.idx
    if n.deleted then collect g k w out
    else
      let out := out ++ [{ id := n.id, distance := e.dist }]
      if k ≤ out.length then some out else collect g k w out

def HNSW.search (h : HNSW V) (query : V) (k efSearch : Int64) : Option (List (Candidate D)) :=
  if h.entryPoint = -1 ∨ k ≤ 0 then some []
  else do
    let ef := if efSearch ≤ 0 then h.efSearchDefault else efSearch
    let ef := if ef < k then k else ef
    let ep ← descend dist h.nodes query 0 h.maxLevel h.entryPoint
    let w ← searchLayer dist h.nodes query ep ef.toInt 0
    collect h.nodes k.toInt w []

end

/-! ## Slices -/

section
variable {α β : Type} {l : List α} {i idx : Int32}

theorem elemAt_of_within (h : Within l.length i) : (elemAt l i).isSome = true := by
  obtain ⟨hlo, hhi⟩ := h
  rw [elemAt, if_neg (by omega), List.getElem?_eq_getElem (by omega)]
  rfl

theorem within_of_elemAt {a : α} (h : elemAt l i = some a) : Within l.length i := by
  unfold elemAt at h
  split at h
  · cases h
  · have := (List.getElem?_eq_some_iff.mp h).1
    exact ⟨by omega, by omega⟩

theorem elemAt_map (f : α → β) (l : List α) (i : Int32) : elemAt (l.map f) i =
    (elemAt l i).map f := by
  unfold elemAt
  split
  · rfl
  · rw [List.getElem?_map]

theorem elemAt_modify {V : Type} {g : Nodes V} (f : HNode V → HNode V) (h : Within g.length idx)
    (i : Int32) :
    elemAt (modifyAt g idx f) i = if i = idx then (elemAt g i).map f else elemAt g i := by
  obtain ⟨hlo, -⟩ := h
  unfold elemAt modifyAt
  split
  · rename_i hneg
    rw [if_neg (by rintro rfl; omega)]
  · rename_i hpos
    rw [List.getElem?_modify]
    by_cases heq : i = idx
    · subst heq
      simp
    · have hne : idx.toInt.toNat ≠ i.toInt.toNat := fun h =>
        heq (Int32.toInt_inj.mp (by omega))
      simp only [if_neg heq, if_neg hne]
      exact id_map _

theorem toInt_ofNat_length {n : Nat} (h : n < 2 ^ 31) : (Int32.ofNat n).toInt = n :=
  Int32.toInt_ofNat_of_lt h

/-- The slice with one more element. -/
theorem elemAt_append_one (h : l.length < 2 ^ 31) (a : α) (i : Int32) :
    elemAt (l ++ [a]) i = if i = Int32.ofNat l.length then some a else elemAt l i := by
  have hlen := toInt_ofNat_length h
  unfold elemAt
  split
  · rename_i hneg
    rw [if_neg (by rintro rfl; omega)]
  · rename_i hpos
    by_cases heq : i = Int32.ofNat l.length
    · rw [if_pos heq, heq, hlen]
      simp
    · have hne : i.toInt.toNat ≠ l.length := fun h => heq (Int32.toInt_inj.mp (by omega))
      rw [if_neg heq]
      grind

end

/-! ## Nodes -/

def HNode.label {V : Type} (n : HNode V) : Bytes × V × Bool := (n.id, n.vec, n.deleted)

def labels {V : Type} (g : Nodes V) : List (Bytes × V × Bool) := g.map HNode.label

section
variable {V : Type} {g g' : Nodes V} {lc lc' : Nat} {idx i : Int32} {l : List Int32}

theorem length_of_labels (h : labels g' = labels g) : g'.length = g.length := by
  simpa [labels] using congrArg List.length h

theorem within_of_connsAt (h : (connsAt g lc i).isSome = true) : Within g.length i := by
  obtain ⟨l, hl⟩ := Option.isSome_iff_exists.mp h
  obtain ⟨n, hn, -⟩ := Option.bind_eq_some_iff.mp hl
  exact within_of_elemAt hn

theorem connsAt_of_le (hle : lc' ≤ lc) (h : (connsAt g lc i).isSome = true) :
    (connsAt g lc' i).isSome = true := by
  obtain ⟨l, hl⟩ := Option.isSome_iff_exists.mp h
  obtain ⟨n, hn, hl⟩ := Option.bind_eq_some_iff.mp hl
  have hlt := (List.getElem?_eq_some_iff.mp hl).1
  rw [connsAt, hn, Option.bind_some, List.getElem?_eq_getElem (by omega)]
  rfl

theorem labels_modifyAt {f : HNode V → HNode V} (hf : ∀ n, (f n).label = n.label) (idx : Int32) :
    labels (modifyAt g idx f) = labels g := by
  refine List.ext_getElem? fun i => ?_
  simp only [labels, modifyAt, List.getElem?_map, List.getElem?_modify]
  cases g[i]? with
  | none => rfl
  | some n =>
    change some (if _ then f n else n).label = some n.label
    split
    · rw [hf]
    · rfl

/-- Setting the links of one node. -/
theorem setConns_spec (idx : Int32) (lc : Nat) (l : List Int32)
    (h : (connsAt g lc idx).isSome = true) :
    ∃ g', setConns g idx lc l = some g' ∧ labels g' = labels g ∧
      ∀ lc' i, connsAt g' lc' i = if i = idx ∧ lc' = lc then some l else connsAt g lc' i := by
  obtain ⟨old, hold⟩ := Option.isSome_iff_exists.mp h
  obtain ⟨n, hn, hlist⟩ := Option.bind_eq_some_iff.mp hold
  have hlt := (List.getElem?_eq_some_iff.mp hlist).1
  refine ⟨_, by rw [setConns, hold]; rfl, ?_, fun lc' i => ?_⟩
  · exact labels_modifyAt (f := fun n => { n with conns := n.conns.set lc l }) (fun _ => rfl) idx
  · rw [connsAt, connsAt, elemAt_modify _ (within_of_elemAt hn)]
    by_cases hi : i = idx
    · subst hi
      by_cases hlc : lc' = lc
      · subst hlc
        simp [hn, List.getElem?_set_self hlt]
      · simp [hn, hlc, List.getElem?_set_ne (Ne.symm hlc)]
    · simp [hi]

end

section
variable {V D : Type} {dist : V → V → D} {g g' : Nodes V}

theorem distTo_eq (g : Nodes V) (q : V) (i : Int32) :
    distTo dist g q i = (elemAt (labels g) i).map fun x => dist q x.2.1 := by
  simp [distTo, labels, elemAt_map, Function.comp_def, HNode.label]

theorem layer_congr (hlabels : labels g' = labels g) {lc : Nat}
    (hconns : ∀ i, connsAt g' lc i = connsAt g lc i) (q : V) :
    layer dist g' q lc = layer dist g q lc := by
  have hdist : distTo dist g' q = distTo dist g q :=
    funext fun i => by rw [distTo_eq, distTo_eq, hlabels]
  simp only [layer, length_of_labels hlabels, hdist, Layer.mk.injEq, true_and]
  exact funext hconns

theorem distTo_isSome (dist : V → V → D) (q : V) {i : Int32} (h : Within g.length i) :
    (distTo dist g q i).isSome = true := by
  simp [distTo, elemAt_of_within h]

def WiredAt (g : Nodes V) (lc : Nat) : Prop :=
  ∀ i l, connsAt g lc i = some l → ∀ j ∈ l, (connsAt g lc j).isSome = true

/-- A wired graph is a closed layer. -/
theorem WiredAt.closed {lc : Nat} (h : WiredAt g lc) (dist : V → V → D) (q : V) :
    (layer dist g q lc).Closed where
  node hi := ⟨within_of_connsAt hi, distTo_isSome dist q (within_of_connsAt hi)⟩
  target hl j hj := h _ _ hl j hj

end

/-! ## The search of a layer -/

section
variable {V D : Type}

def Reachable (g : Nodes V) (lc : Nat) : Int32 → Int32 → Prop :=
  Relation.ReflTransGen fun i j => ∃ l, connsAt g lc i = some l ∧ j ∈ l

theorem finite_within (n : Nat) : {i | Within n i}.Finite := by
  refine Set.Finite.of_injOn (f := fun i : Int32 => i.toInt.toNat) (t := Finset.range n)
    (fun i hi => ?_) (fun i hi j hj heq => Int32.toInt_inj.mp ?_) (Finset.finite_toSet _)
  · have := hi.1
    have := hi.2
    exact Finset.mem_coe.mpr (Finset.mem_range.mpr (show i.toInt.toNat < n by omega))
  · have := hi.1
    have := hj.1
    simp only at heq
    omega

theorem WiredAt.within_of_reachable {g : Nodes V} {lc : Nat} {ep j : Int32} (h : WiredAt g lc)
    (hep : (connsAt g lc ep).isSome = true) (hj : Reachable g lc ep j) : Within g.length j := by
  cases hj with
  | refl => exact within_of_connsAt hep
  | tail _ hedge =>
    obtain ⟨l, hl, hmem⟩ := hedge
    exact within_of_connsAt (h _ l hl j hmem)

/-- A search of a layer whose lists hold nodes of the layer ends, and returns distinct reachable
nodes by ascending distance, one to `ef` of them; with room for all reachable nodes, all of them. -/
theorem search_layer [LinearOrder D] (dist : V → V → D) (g : Nodes V) (q : V)
    (ep : Int32) (ef : Int)
    (lc : Nat) (hwired : WiredAt g lc) (hep : (connsAt g lc ep).isSome = true) :
    ∃ w, searchLayer dist g q ep ef lc = some w ∧ (w.map Elem.idx).Nodup ∧
      (w.Pairwise fun a b => a.dist ≤ b.dist) ∧ (w.length : Int) ≤ max ef 1 ∧
      (∀ e ∈ w, Reachable g lc ep e.idx ∧ distTo dist g q e.idx = some e.dist) ∧
      (({j | Reachable g lc ep j}.ncard : Int) ≤ ef →
        ∀ j, j ∈ w.map Elem.idx ↔ Reachable g lc ep j) := by
  obtain ⟨w, hw, hfound⟩ := search_spec (hwired.closed dist q) hep ef
  refine ⟨w, hw, hfound.distinct, hfound.sorted, hfound.length, hfound.reach,
    fun hcard j => ⟨?_, ?_⟩⟩
  · intro hj
    obtain ⟨e, he, rfl⟩ := List.mem_map.mp hj
    exact (hfound.reach e he).1
  · refine hfound.all (fun l hnd hl => ?_) j
    have hle : (l.toFinset : Set Int32).ncard ≤ {j | Reachable g lc ep j}.ncard :=
      Set.ncard_le_ncard (fun i hi => hl i (by simpa using hi))
        ((finite_within g.length).subset fun i hi => hwired.within_of_reachable hep hi)
    rw [Set.ncard_coe_finset, List.toFinset_card_of_nodup hnd] at hle
    omega

end

def gap (a b : Int) : Nat := (a - b).natAbs

/-- Two nodes that are each other's neighbours. -/
def pair : Nodes Int :=
  [{ id := [1], vec := 0, conns := [[1]] }, { id := [2], vec := 5, conns := [[0]] }]

theorem within_pair {i : Int32} (h : Within pair.length i) : i = 0 ∨ i = 1 := by
  obtain ⟨hlo, hhi⟩ := h
  change i.toInt < 2 at hhi
  rcases (by omega : i.toInt = 0 ∨ i.toInt = 1) with hi | hi
  · exact .inl (Int32.toInt_inj.mp hi)
  · exact .inr (Int32.toInt_inj.mp hi)

theorem wiredAt_pair : WiredAt pair 0 := by
  intro i l hl j hj
  rcases within_pair (within_of_connsAt (by rw [hl]; rfl)) with rfl | rfl
  all_goals
    obtain rfl := Option.some.inj hl
    obtain rfl := List.mem_singleton.mp hj
    rfl

theorem search_layer_pair : ∃ w, searchLayer gap pair 3 0 2 0 = some w ∧
    ∀ j, j ∈ w.map Elem.idx ↔ Reachable pair 0 0 j := by
  obtain ⟨w, hw, -, -, -, -, hall⟩ := search_layer gap pair 3 0 2 0 wiredAt_pair rfl
  refine ⟨w, hw, hall ?_⟩
  have hsub : {j | Reachable pair 0 0 j} ⊆ ({0, 1} : Finset Int32) := fun j hj => by
    simpa using within_pair (wiredAt_pair.within_of_reachable rfl hj)
  have hle := Set.ncard_le_ncard hsub (Finset.finite_toSet _)
  rw [Set.ncard_coe_finset] at hle
  exact_mod_cast hle

/-- One node is returned even if there is room for none. -/
theorem search_layer_no_room : WiredAt pair 0 ∧ (connsAt pair 0 0).isSome = true ∧
    searchLayer gap pair 3 0 0 0 = some [⟨1, 2⟩] := by
  exact ⟨wiredAt_pair, rfl, by decide +kernel⟩

/-! ## Linking -/

theorem head_of_ne_nil {α : Type} {w : List α} (h : w ≠ []) : ∃ e ∈ w, w[0]? = some e := by
  cases w with
  | nil => exact absurd rfl h
  | cons e w => exact ⟨e, List.mem_cons_self, rfl⟩

def firstOf {D : Type} (cands : List (Elem D)) (m : Int64) : List Int32 :=
  (cands.map Elem.idx).take m.toInt.toNat

/-- The closest candidates, up to `m`. -/
theorem selectClosest_eq {D : Type} (cands : List (Elem D)) {m : Int64} (hm : 0 ≤ m.toInt) :
    selectClosest cands m = some (firstOf cands m) := by
  rw [selectClosest, firstOf, ← List.map_take]
  split
  · rw [if_neg (by omega)]
  · rw [List.take_of_length_le (by omega)]

theorem mem_firstOf {D : Type} {cands : List (Elem D)} {m : Int64} {i : Int32}
    (h : i ∈ firstOf cands m) : ∃ e ∈ cands, e.idx = i := by
  obtain ⟨e, he, rfl⟩ := List.mem_map.mp (List.mem_of_mem_take h)
  exact ⟨e, he, rfl⟩

section
variable {V D : Type} {g : Nodes V} {idx e : Int32} {lc : Nat} {mmax : Int64}

theorem mapM_distTo (dist : V → V → D) {conns : List Int32} (h : ∀ c ∈ conns, Within g.length c)
    (v : V) :
    ∃ cands, conns.mapM (fun c => (distTo dist g v c).map fun d => Elem.mk c d) = some cands ∧
      cands.map Elem.idx = conns := by
  induction conns with
  | nil => exact ⟨[], rfl, rfl⟩
  | cons c conns ih =>
    obtain ⟨hc, hconns⟩ := List.forall_mem_cons.mp h
    obtain ⟨d, hd⟩ := Option.isSome_iff_exists.mp (distTo_isSome dist v hc)
    obtain ⟨cands, hcands, hidx⟩ := ih hconns
    exact ⟨⟨c, d⟩ :: cands, by simp [List.mapM_cons, hd, hcands], by simp [hidx]⟩

/-- A neighbour's list is its old one with the new node, as far as there is room. -/
theorem linkBack_spec (dist : V → V → D) (hmax : 0 ≤ mmax.toInt) {old : List Int32}
    (hold : connsAt g lc e = some old) (hin : ∀ j ∈ old, Within g.length j)
    (hidx : Within g.length idx) :
    ∃ g', linkBack dist idx lc mmax g e = some g' ∧ labels g' = labels g ∧
      ∀ lc' i, connsAt g' lc' i =
        if i = e ∧ lc' = lc then some
          ((old ++ [idx]).take mmax.toInt.toNat) else connsAt g lc' i := by
  obtain ⟨g1, hset, hlabels, hconns⟩ := setConns_spec e lc (old ++ [idx]) (by rw [hold]; rfl)
  have hnew : connsAt g1 lc e = some (old ++ [idx]) := by rw [hconns, if_pos ⟨rfl, rfl⟩]
  simp only [linkBack, hold, hset, pruneConns, hnew, Option.bind_eq_bind, Option.bind_some]
  split
  · rename_i hfits
    exact ⟨g1, rfl, hlabels, by rwa [List.take_of_length_le (by omega)]⟩
  · have hlen := length_of_labels hlabels
    have hsome : (connsAt g1 lc e).isSome = true := by rw [hnew]; rfl
    obtain ⟨n, hn⟩ := Option.isSome_iff_exists.mp (elemAt_of_within (within_of_connsAt hsome))
    have hin1 : ∀ c ∈ old ++ [idx], Within g1.length c := by
      intro c hc
      rw [hlen]
      rcases List.mem_append.mp hc with hc | hc
      · exact hin c hc
      · exact List.mem_singleton.mp hc ▸ hidx
    obtain ⟨cands, hcands, hidxs⟩ := mapM_distTo dist hin1 n.vec
    obtain ⟨g2, hset2, hlabels2, hconns2⟩ := setConns_spec e lc (firstOf cands mmax) hsome
    refine ⟨g2, ?_, hlabels2.trans hlabels, fun lc' i => ?_⟩
    · simp only [hn, Option.bind_some, hcands, selectClosest_eq cands hmax, hset2]
    · rw [hconns2, hconns, firstOf, hidxs]
      split <;> rfl

/-- Linking back keeps lists short and within the graph. -/
theorem linkBacks_spec (dist : V → V → D) (hmax : 0 ≤ mmax.toInt) {nbs : List Int32}
    (hnd : nbs.Nodup) (hidx : Within g.length idx)
    (hnbs : ∀ e ∈ nbs, ∃ old, connsAt g lc e = some old ∧ ∀ j ∈ old, Within g.length j) :
    ∃ g', nbs.foldlM (linkBack dist idx lc mmax) g = some g' ∧ labels g' = labels g ∧
      (∀ lc' i, lc' ≠ lc → connsAt g' lc' i = connsAt g lc' i) ∧
      ∀ i, connsAt g' lc i =
        if i ∈ nbs then (connsAt g lc i).map fun old => (old ++ [idx]).take mmax.toInt.toNat
        else connsAt g lc i := by
  induction nbs generalizing g with
  | nil => exact ⟨g, rfl, rfl, fun _ _ _ => rfl, fun i => by simp⟩
  | cons e nbs ih =>
    obtain ⟨he, hnd⟩ := List.nodup_cons.mp hnd
    obtain ⟨⟨old, hold, hin⟩, hnbs⟩ := List.forall_mem_cons.mp hnbs
    obtain ⟨g1, hlink, hlabels, hconns⟩ := linkBack_spec dist hmax hold hin hidx
    have hlen := length_of_labels hlabels
    have hkeep : ∀ i ∈ nbs, connsAt g1 lc i = connsAt g lc i := fun i hi => by
      rw [hconns, if_neg (fun h : i = e ∧ lc = lc => he (h.1 ▸ hi))]
    obtain ⟨g2, hfold, hlabels2, hothers, hlayer⟩ := ih hnd (hlen ▸ hidx) fun i hi => by
      rw [hkeep i hi, hlen]
      exact hnbs i hi
    refine ⟨g2, by rw [List.foldlM_cons, hlink]; exact hfold, hlabels2.trans hlabels, ?_,
      fun i => ?_⟩
    · intro lc' i hne
      rw [hothers lc' i hne, hconns, if_neg (fun h : i = e ∧ lc' = lc => hne h.2)]
    · rw [hlayer, hconns]
      by_cases hie : i = e
      · subst hie
        simp [he, hold]
      · simp [hie]

end

section
variable {V D : Type} [LinearOrder D] {dist : V → V → D} {h : HNSW V} {g : Nodes V} {vec : V}
  {idx ep : Int32}

/-- What linking a new node does to a layer: its list is the nearest of what a search returned, and
each of those has it appended, as far as there is room. -/
structure Joins (dist : V → V → D) (h : HNSW V) (g g' : Nodes V) (vec : V) (idx : Int32) (lc : Nat)
    (ep : Int32) (w : List (Elem D)) : Prop where
  search : searchLayer dist g vec ep h.efConstruction.toInt lc = some w
  found : (layer dist g vec lc).Found ep h.efConstruction.toInt w
  fresh : ∀ e ∈ w, (connsAt g lc e.idx).isSome = true ∧ e.idx ≠ idx
  conns : ∀ i, connsAt g' lc i =
    if i = idx then some (firstOf w h.m)
    else if i ∈ firstOf w h.m then
      (connsAt g lc i).map fun old => (old ++ [idx]).take (h.mmax lc).toInt.toNat
    else connsAt g lc i

/-- What linking a new node does to the layers below `n`. -/
structure Linked (dist : V → V → D) (h : HNSW V) (g g' : Nodes V) (vec : V)
    (idx : Int32) (n : Nat) :
    Prop where
  labels : labels g' = labels g
  above : ∀ lc i, n ≤ lc → connsAt g' lc i = connsAt g lc i
  layers : ∀ lc < n, ∃ ep w, Joins dist h g g' vec idx lc ep w

/-- A layer holds together, and no list has the node. -/
def Apart (g : Nodes V) (idx : Int32) (lc : Nat) : Prop :=
  WiredAt g lc ∧ ∀ i l, connsAt g lc i = some l → idx ∉ l

theorem Apart.congr {g' : Nodes V} {lc : Nat} (h : Apart g idx lc)
    (hconns : ∀ i, connsAt g' lc i = connsAt g lc i) : Apart g' idx lc := by
  refine ⟨fun i l hl j hj => ?_, fun i l hl => h.2 i l (hconns i ▸ hl)⟩
  rw [hconns] at hl ⊢
  exact h.1 i l hl j hj

/-- A search of such a layer does not come to the node. -/
theorem Apart.search {lc : Nat} (h : Apart g idx lc) (dist : V → V → D)
    (hep : (connsAt g lc ep).isSome = true) (hne : ep ≠ idx) (q : V) (ef : Int) :
    ∃ w, searchLayer dist g q ep ef lc = some w ∧ (layer dist g q lc).Found ep ef w ∧
      ∀ e ∈ w, (connsAt g lc e.idx).isSome = true ∧ e.idx ≠ idx := by
  obtain ⟨w, hw, hfound⟩ := search_spec (h.1.closed dist q) hep ef
  refine ⟨w, hw, hfound, fun e he => ?_⟩
  have hreach := (hfound.reach e he).1
  refine ⟨(h.1.closed dist q).reach hep hreach, ?_⟩
  rcases hreach.eq_or_edge with heq | ⟨i, l, hl, hj⟩
  · rwa [heq]
  · exact fun heq => h.2 i l hl (heq ▸ hj)

/-- Descending finds an entry for the next layer. -/
theorem descend_spec (dist : V → V → D) (level : Nat) {top : Nat} (happ : ∀ lc, Apart g idx lc)
    (q : V) (hep : (connsAt g top ep).isSome = true) (hne : ep ≠ idx) :
    ∃ ep', descend dist g q level top ep = some ep' ∧
      (connsAt g (min top level) ep').isSome = true ∧ ep' ≠ idx := by
  induction top generalizing ep with
  | zero => exact ⟨ep, rfl, by simpa using hep, hne⟩
  | succ top ih =>
    rw [descend]
    split
    · rename_i hlt
      obtain ⟨w, hw, hfound, hfresh⟩ := (happ (top + 1)).search dist hep hne q 1
      obtain ⟨e, he, hhead⟩ := head_of_ne_nil hfound.nonempty
      obtain ⟨hsome, hne'⟩ := hfresh e he
      obtain ⟨ep', hdesc, hsome', hne''⟩ := ih (connsAt_of_le (Nat.le_succ top) hsome) hne'
      refine ⟨ep', by simp only [hw, hhead, Option.bind_eq_bind, Option.bind_some, hdesc], ?_,
        hne''⟩
      rwa [show min (top + 1) level = min top level by omega]
    · rename_i hle
      refine ⟨ep, rfl, connsAt_of_le (Nat.min_le_left _ _) hep, hne⟩

/-- The bounds of the lists are numbers a slice can have. -/
def HNSW.Roomy (h : HNSW V) : Prop := 0 ≤ h.m.toInt ∧ h.m.toInt ≤ h.mMax0.toInt

theorem HNSW.Roomy.mmax (hroom : h.Roomy) (lc : Nat) : h.m.toInt ≤ (h.mmax lc).toInt := by
  unfold HNSW.mmax
  split
  · exact hroom.2
  · exact le_rfl

/-- One layer: the new node's own list, then those of its neighbours. -/
theorem linkLayer_spec (dist : V → V → D) (hroom : h.Roomy) (vec : V) {n : Nat}
    (happ : Apart g idx n) (hidx : (connsAt g n idx).isSome = true)
    (hep : (connsAt g n ep).isSome = true) (hne : ep ≠ idx) :
    ∃ w g1 g2, setConns g idx n (firstOf w h.m) = some g1 ∧
      (firstOf w h.m).foldlM (linkBack dist idx n (h.mmax n)) g1 = some g2 ∧
      labels g2 = labels g ∧ (∀ lc i, lc ≠ n → connsAt g2 lc i = connsAt g lc i) ∧
      Joins dist h g g2 vec idx n ep w := by
  obtain ⟨w, hw, hfound, hfresh⟩ := happ.search dist hep hne vec h.efConstruction.toInt
  have hsel : ∀ i ∈ firstOf w h.m, (connsAt g n i).isSome = true ∧ i ≠ idx := by
    intro i hi
    obtain ⟨e, he, rfl⟩ := mem_firstOf hi
    exact hfresh e he
  have hnd : (firstOf w h.m).Nodup := (List.take_sublist _ _).nodup hfound.distinct
  obtain ⟨g1, hset, hlabels1, hconns1⟩ := setConns_spec idx n (firstOf w h.m) hidx
  have hlen1 := length_of_labels hlabels1
  obtain ⟨g2, hfold, hlabels2, hothers, hlayer⟩ := linkBacks_spec dist
    (hroom.1.trans (hroom.mmax n)) hnd (hlen1 ▸ within_of_connsAt hidx) fun i hi => by
      obtain ⟨old, hold⟩ := Option.isSome_iff_exists.mp (hsel i hi).1
      refine ⟨old, ?_, fun j hj => hlen1 ▸ within_of_connsAt (happ.1 i old hold j hj)⟩
      rw [hconns1, if_neg (fun heq : i = idx ∧ n = n => (hsel i hi).2 heq.1), hold]
  refine ⟨w, g1, g2, hset, hfold, hlabels2.trans hlabels1, fun lc i hlc => ?_, hw, hfound, hfresh,
    fun i => ?_⟩
  · rw [hothers lc i hlc, hconns1, if_neg (fun heq : i = idx ∧ lc = n => hlc heq.2)]
  · rw [hlayer]
    by_cases hi : i = idx
    · subst hi
      rw [if_neg fun hmem => (hsel i hmem).2 rfl, hconns1, if_pos ⟨rfl, rfl⟩, if_pos rfl]
    · rw [hconns1, if_neg (fun heq : i = idx ∧ n = n => hi heq.1), if_neg hi]

/-- Linking the layers from the top down. -/
theorem linkLayers_spec (dist : V → V → D) (hroom : h.Roomy) (vec : V) {n : Nat}
    (happ : ∀ lc < n, Apart g idx lc) (hidx : ∀ lc < n, (connsAt g lc idx).isSome = true)
    (hep : ∀ lc < n, (connsAt g lc ep).isSome = true) (hne : ep ≠ idx) :
    ∃ g', h.linkLayers dist vec idx n g ep = some g' ∧ Linked dist h g g' vec idx n := by
  induction n generalizing g ep with
  | zero => exact ⟨g, rfl, rfl, fun _ _ _ => rfl, fun lc hlc => absurd hlc (Nat.not_lt_zero lc)⟩
  | succ n ih =>
    have hn := Nat.lt_succ_self n
    obtain ⟨w, g1, g2, hset, hfold, hlabels, hbelow, hjoin⟩ :=
      linkLayer_spec dist hroom vec (happ n hn) (hidx n hn) (hep n hn) hne
    obtain ⟨e, he, hhead⟩ := head_of_ne_nil hjoin.found.nonempty
    obtain ⟨hsome, hne'⟩ := hjoin.fresh e he
    -- the layers below are as they were
    obtain ⟨g3, hlink, hlinked⟩ := @ih g2 e.idx
      (fun lc hlc => (happ lc (by omega)).congr fun i => hbelow lc i (by omega))
      (fun lc hlc => by rw [hbelow lc idx (by omega)]; exact hidx lc (by omega))
      (fun lc hlc => by rw [hbelow lc e.idx (by omega)]; exact connsAt_of_le (by omega) hsome)
      hne'
    refine ⟨g3, ?_, hlinked.labels.trans hlabels, fun lc i hlc => ?_, fun lc hlc => ?_⟩
    · simp only [HNSW.linkLayers, hjoin.search, selectClosest_eq w hroom.1, hset, hfold, hhead,
        Option.bind_eq_bind, Option.bind_some, Option.map_some, Option.getD_some, hlink]
    · rw [hlinked.above lc i (by omega), hbelow lc i (by omega)]
    · rcases Nat.lt_succ_iff_lt_or_eq.mp hlc with hlt | rfl
      · obtain ⟨ep', w', hjoin'⟩ := hlinked.layers lc hlt
        have hconns : ∀ i, connsAt g2 lc i = connsAt g lc i := fun i => hbelow lc i (by omega)
        have hview : layer dist g2 vec lc = layer dist g vec lc := layer_congr hlabels hconns vec
        refine ⟨ep', w', ?_, hview ▸ hjoin'.found, fun e he => hconns e.idx ▸ hjoin'.fresh e he,
          fun i => hconns i ▸ hjoin'.conns i⟩
        rw [searchLayer, ← hview]
        exact hjoin'.search
      · refine ⟨ep, w, hjoin.search, hjoin.found, hjoin.fresh, fun i => ?_⟩
        rw [hlinked.above lc i (Nat.le_refl lc)]
        exact hjoin.conns i

end

end WaveSpan.Vector.Ann
