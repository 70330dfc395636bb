/-
WaveSpan.Vector.HnswRuns — an HNSW index along its inserts and deletes
(`internal/vector/ann/hnsw.go`).

Two things hold after any calls, as long as the node indices fit an `int32` and twice `M` an `int`.
The graph is wired (`Wiring`): the entry point has the top layer, and a list holds other nodes that
have its layer, no more than there is room for. The ids are registered (`Registry`): each is mapped
to its latest node, and the nodes that are not deleted are the latest ones of the live ids. So no
insert and no search leaves the bounds of a list (`run_spec`, `isSome_search`).

An insert gives the new node the nearest of what the layer's search returns. It prunes the full list
of a neighbour by its first entries, and the new node is the last one, so the list stays as it was:
that is the nearest of both only if the new node is not nearer than one of them (`closest_full`).
-/
import WaveSpan.Vector.Hnsw

namespace WaveSpan.Vector.Ann

open WaveSpan.Wire
open WaveSpan.Collections (GoMap)

/-! ## Calls -/

inductive Call (V : Type) where
  | insert (id : Bytes) (vec : V) (level : Nat)
  | delete (id : Bytes)

section
variable {V D : Type} [LinearOrder D]

def HNSW.call (dist : V → V → D) (h : HNSW V) : Call V → Option (HNSW V)
  | .insert id vec level => h.insert dist id vec level
  | .delete id => h.delete id

def run (dist : V → V → D) (p : Params) (calls : List (Call V)) : Option (HNSW V) :=
  calls.foldlM (HNSW.call dist) (newHNSW p)

end

section
variable {V : Type}

def Call.isInsert : Call V → Bool
  | .insert .. => true
  | .delete _ => false

/-- How many nodes some calls make. -/
def inserts (calls : List (Call V)) : Nat := calls.countP Call.isInsert

def Call.effect (id : Bytes) (live : Bool) : Call V → Bool
  | .insert id' _ _ => if id' = id then true else live
  | .delete id' => if id' = id then false else live

def isLive (calls : List (Call V)) (id : Bytes) : Bool := calls.foldl (Call.effect id) false

/-! ## The ids -/

def idAt (g : Nodes V) (i : Int32) : Option Bytes := (elemAt g i).map HNode.id

def liveAt (g : Nodes V) (i : Int32) : Option Bytes :=
  (elemAt g i).bind fun n => if n.deleted then none else some n.id

def liveCount (g : Nodes V) : Nat := g.countP fun n => !n.deleted

/-- The ids of the index: each is mapped to its latest node, a node that is not deleted is the one
its id is mapped to, and there is one for each live id. -/
structure Registry (live : Bytes → Bool) (g : Nodes V) (idToIdx : GoMap Int32) (count : Int64) :
    Prop where
  latest : ∀ id i, idToIdx[id]? = some i ↔ idAt g i = some id ∧ ∀ j, idAt g j = some id → j ≤ i
  current : ∀ i id, liveAt g i = some id → idToIdx[id]? = some i
  count : count.toInt = liveCount g
  alive : ∀ id, live id = true ↔ ∃ i, liveAt g i = some id

theorem idAt_of_liveAt {g : Nodes V} {i : Int32} {id : Bytes} (h : liveAt g i = some id) :
    idAt g i = some id := by
  obtain ⟨n, hn, hlive⟩ := Option.bind_eq_some_iff.mp h
  rw [idAt, hn]
  split at hlive
  · cases hlive
  · exact hlive

theorem idAt_eq (g : Nodes V) (i : Int32) : idAt g i = (elemAt (labels g) i).map Prod.fst := by
  simp [idAt, labels, elemAt_map, Function.comp_def, HNode.label]

theorem liveAt_eq (g : Nodes V) (i : Int32) :
    liveAt g i = (elemAt (labels g) i).bind fun x => if x.2.2 then none else some x.1 := by
  rw [liveAt, labels, elemAt_map, Option.bind_map]
  rfl

theorem liveCount_eq (g : Nodes V) : liveCount g = (labels g).countP fun x => !x.2.2 := by
  rw [labels, List.countP_map]
  rfl

theorem Registry.congr {live : Bytes → Bool} {g g' : Nodes V} {idToIdx : GoMap Int32}
    {count : Int64}
    (hr : Registry live g idToIdx count) (h : labels g' = labels g) :
    Registry live g' idToIdx count := by
  have hid : ∀ i, idAt g' i = idAt g i := fun i => by rw [idAt_eq, idAt_eq, h]
  have hlive : ∀ i, liveAt g' i = liveAt g i := fun i => by rw [liveAt_eq, liveAt_eq, h]
  have hcount : liveCount g' = liveCount g := by rw [liveCount_eq, liveCount_eq, h]
  constructor
  · simpa only [hid] using hr.latest
  · simpa only [hlive] using hr.current
  · rw [hcount]
    exact hr.count
  · simpa only [hlive] using hr.alive

section
variable {live : Bytes → Bool} {g g' : Nodes V} {idToIdx : GoMap Int32} {count count' : Int64}

/-- A registry in which an id has no live node any more. -/
theorem Registry.erase (hr : Registry live g idToIdx count) (id : Bytes)
    (hid : ∀ i, idAt g' i = idAt g i)
    (hlive : ∀ i, liveAt g' i = if liveAt g i = some id then none else liveAt g i)
    (hcount : count'.toInt = liveCount g') :
    Registry (fun id' => Call.effect id' (live id') (.delete id : Call V)) g' idToIdx count' := by
  have hwas : ∀ i id', liveAt g' i = some id' ↔ liveAt g i = some id' ∧ id ≠ id' := by
    intro i id'
    rw [hlive]
    split
    · rename_i hi
      simp [hi]
    · rename_i hi
      exact ⟨fun h => ⟨h, fun heq => hi (heq ▸ h)⟩, And.left⟩
  refine ⟨by simpa only [hid] using hr.latest, fun i id' hi => ?_, hcount, fun id' => ?_⟩
  · exact hr.current i id' ((hwas i id').mp hi).1
  · simp only [Call.effect, hwas]
    by_cases heq : id = id'
    · simp [heq]
    · simp [heq, hr.alive id']

theorem liveCount_modify {idx : Int32} {n : HNode V} (hn : elemAt g idx = some n)
    (hlive : n.deleted = false) :
    liveCount (modifyAt g idx fun n => { n with deleted := true }) + 1 = liveCount g := by
  have hget : g[idx.toInt.toNat]? = some n := by
    unfold elemAt at hn
    split at hn
    · cases hn
    · exact hn
  unfold modifyAt
  clear hn
  generalize idx.toInt.toNat = k at hget ⊢
  induction g generalizing k with
  | nil => simp at hget
  | cons m g ih =>
    cases k with
    | zero =>
      obtain rfl : m = n := by simpa using hget
      simp [liveCount, hlive]
    | succ k =>
      have := ih k (by simpa using hget)
      simp only [liveCount, List.modify_succ_cons, List.countP_cons] at this ⊢
      omega

end

/-- A deleted id. -/
theorem delete_spec {h : HNSW V} {live : Bytes → Bool} (hr : Registry live h.nodes h.idToIdx h.live)
    (id : Bytes) :
    ∃ nodes count, h.delete id = some { h with nodes, live := count } ∧
      Registry (fun id' => Call.effect id' (live id') (.delete id : Call V)) nodes h.idToIdx count ∧
      nodes.length = h.nodes.length ∧ ∀ lc i, connsAt nodes lc i = connsAt h.nodes lc i := by
  -- nothing to do where the id has no live node
  have hnone : (∀ i, liveAt h.nodes i ≠ some id) →
      Registry (fun id' => Call.effect id' (live id') (.delete id : Call V)) h.nodes
        h.idToIdx h.live :=
    fun hno => hr.erase id (fun _ => rfl) (fun i => (if_neg (hno i)).symm) hr.count
  unfold HNSW.delete
  split
  · rename_i hmap
    refine ⟨h.nodes, h.live, rfl, hnone fun i hi => ?_, rfl, fun _ _ => rfl⟩
    rw [hr.current i id hi] at hmap
    cases hmap
  · rename_i idx hmap
    obtain ⟨n, hn, hid⟩ := Option.map_eq_some_iff.mp ((hr.latest id idx).mp hmap).1
    have hin := within_of_elemAt hn
    have honly : ∀ i, liveAt h.nodes i = some id → i = idx := fun i hi =>
      Option.some.inj ((hr.current i id hi).symm.trans hmap)
    simp only [hn, Option.bind_eq_bind, Option.bind_some]
    split
    · rename_i hdel
      refine ⟨h.nodes, h.live, rfl, hnone fun i hi => ?_, rfl, fun _ _ => rfl⟩
      rw [honly i hi, liveAt, hn] at hi
      simp [hdel] at hi
    · rename_i hdel
      refine ⟨_, _, rfl, hr.erase id (fun i => ?_) (fun i => ?_) ?_, by simp [modifyAt],
        fun lc i => ?_⟩
      · rw [idAt, idAt, elemAt_modify _ hin]
        split
        · cases elemAt h.nodes i <;> rfl
        · rfl
      · rw [liveAt, elemAt_modify _ hin]
        by_cases hi : i = idx
        · subst hi
          simp [liveAt, hn, hdel, hid]
        · rw [if_neg hi, if_neg (fun heq => hi (honly i heq)), liveAt]
      · have hone := liveCount_modify hn (by simpa using hdel)
        have hcount := hr.count
        have hle := h.live.toInt_lt
        rw [Int64.toInt_sub, Int.bmod_eq_of_le (by simp; omega) (by simp; omega)]
        simp only [Int64.reduceToInt]
        omega
      · rw [connsAt, connsAt, elemAt_modify _ hin]
        split
        · cases elemAt h.nodes i <;> rfl
        · rfl

theorem within_of_idAt {g : Nodes V} {i : Int32} {id : Bytes}
    (h : idAt g i = some id) : Within g.length i := by
  obtain ⟨n, hn, -⟩ := Option.map_eq_some_iff.mp h
  exact within_of_elemAt hn

section
variable {h : HNSW V} {id : Bytes} {vec : V} {level : Nat} (hfits : h.nodes.length < 2 ^ 31)
include hfits

theorem idAt_add (i : Int32) : idAt (h.add id vec level).nodes i =
    if i = h.next then some id else idAt h.nodes i := by
  rw [idAt, HNSW.add, elemAt_append_one hfits, ← HNSW.next]
  split <;> rfl

/-- The nodes that are live after an insert. -/
theorem liveAt_add (i : Int32) : liveAt (h.add id vec level).nodes i =
    if i = h.next then some id else liveAt h.nodes i := by
  rw [liveAt, HNSW.add, elemAt_append_one hfits, ← HNSW.next]
  split <;> rfl

theorem toInt_next : h.next.toInt = h.nodes.length := toInt_ofNat_length hfits

/-- The next index is not one of a node. -/
theorem ne_next {i : Int32} (hi : Within h.nodes.length i) : i ≠ h.next := by
  rintro rfl
  have := hi.2
  rw [toInt_next hfits] at this
  omega

/-- Nodes of other ids are where they were. -/
theorem idAt_add_of_ne {id' : Bytes} (hne : id ≠ id') (i : Int32) :
    idAt (h.add id vec level).nodes i = some id' ↔ idAt h.nodes i = some id' := by
  rw [idAt_add hfits]
  split
  · rename_i hi
    exact ⟨fun h => absurd (Option.some.inj h) hne,
      fun h => absurd hi (ne_next hfits (within_of_idAt h))⟩
  · rfl

end

theorem idToIdx_add {h : HNSW V} {id : Bytes} {vec : V} {level : Nat} (id' : Bytes) :
    (h.add id vec level).idToIdx[id']? = if id = id' then some h.next else h.idToIdx[id']? := by
  rw [HNSW.add, Std.ExtTreeMap.getElem?_insert]
  simp only [Std.LawfulEqCmp.compare_eq_iff_eq]

/-- A new node in a registry without a live node of its id. -/
theorem Registry.add {h : HNSW V} {live : Bytes → Bool}
    (hr : Registry live h.nodes h.idToIdx h.live)
    (hfits : h.nodes.length < 2 ^ 31) (id : Bytes) (vec : V) (level : Nat) (hno : live id = false) :
    Registry (fun id' => Call.effect id' (live id') (.insert id vec level))
      (h.add id vec level).nodes
      (h.add id vec level).idToIdx (h.add id vec level).live := by
  have hnext := toInt_next hfits
  have hother : ∀ {i id'}, liveAt h.nodes i = some id' → id ≠ id' := by
    rintro i id' hi rfl
    rw [(hr.alive id).mpr ⟨i, hi⟩] at hno
    cases hno
  constructor
  · intro id' i
    rw [idToIdx_add]
    split
    · rename_i heq
      subst heq
      simp only [idAt_add hfits]
      constructor
      · rintro ⟨⟩
        refine ⟨if_pos rfl, fun j hj => ?_⟩
        split at hj
        · rename_i hlast
          exact Int32.le_iff_toInt_le.mpr (by rw [hlast])
        · have := (within_of_idAt hj).2
          exact Int32.le_iff_toInt_le.mpr (by omega)
      · rintro ⟨hi, hmax⟩
        have hle := Int32.le_iff_toInt_le.mp (hmax h.next (if_pos rfl))
        split at hi
        · rename_i heq
          rw [heq]
        · have := (within_of_idAt hi).2
          omega
    · rename_i hne
      simp only [idAt_add_of_ne hfits hne]
      exact hr.latest id' i
  · intro i id' hi
    rw [liveAt_add hfits] at hi
    rw [idToIdx_add]
    split at hi
    · rename_i hlast
      rw [if_pos (Option.some.inj hi), hlast]
    · rw [if_neg (hother hi)]
      exact hr.current i id' hi
  · have hcount := hr.count
    have hle : liveCount h.nodes ≤ h.nodes.length := List.countP_le_length
    have hone : liveCount (h.add id vec level).nodes = liveCount h.nodes + 1 := by
      simp [HNSW.add, liveCount, List.countP_append]
    rw [hone]
    change (h.live + 1).toInt = _
    rw [Int64.toInt_add, Int.bmod_eq_of_le (by simp; omega) (by simp; omega)]
    simp only [Int64.reduceToInt]
    omega
  · intro id'
    simp only [Call.effect, liveAt_add hfits]
    by_cases heq : id = id'
    · subst heq
      exact ⟨fun _ => ⟨h.next, if_pos rfl⟩, fun _ => if_pos rfl⟩
    · rw [if_neg heq, hr.alive id']
      constructor
      · rintro ⟨i, hi⟩
        exact ⟨i, by rw [if_neg (ne_next hfits (within_of_idAt (idAt_of_liveAt hi))), hi]⟩
      · rintro ⟨i, hi⟩
        split at hi
        · exact absurd (Option.some.inj hi) heq
        · exact ⟨i, hi⟩

/-! ## The graph -/

/-- The lists of a graph hold other nodes that have the layer, no more than there is room for. -/
def Lists (room : Nat → Int64) (g : Nodes V) : Prop :=
  ∀ lc i l, connsAt g lc i = some l →
    (∀ j ∈ l, j ≠ i ∧ (connsAt g lc j).isSome = true) ∧ (l.length : Int) ≤ (room lc).toInt

structure Wiring (h : HNSW V) : Prop where
  positive : 0 < h.m.toInt
  sizes : h.mMax0.toInt = 2 * h.m.toInt
  entry : h.entryPoint ≠ -1 → (connsAt h.nodes h.maxLevel h.entryPoint).isSome = true
  started : h.entryPoint = -1 → h.nodes = []
  lists : Lists h.mmax h.nodes

theorem Wiring.roomy {h : HNSW V} (hw : Wiring h) : h.Roomy := by
  have := hw.positive
  have := hw.sizes
  exact ⟨by omega, by omega⟩

theorem Lists.congr {room : Nat → Int64} {g g' : Nodes V} (h : Lists room g)
    (hconns : ∀ lc i, connsAt g' lc i = connsAt g lc i) : Lists room g' := by
  unfold Lists at *
  simpa only [hconns] using h

/-- No list has a node that is not there yet. -/
theorem Lists.apart {room : Nat → Int64} {g : Nodes V} (h : Lists room g) {idx : Int32}
    (hidx : ¬ Within g.length idx) (lc : Nat) : Apart g idx lc :=
  ⟨fun i l hl j hj => ((h lc i l hl).1 j hj).2,
    fun i l hl hmem => hidx (within_of_connsAt ((h lc i l hl).1 _ hmem).2)⟩

section
variable {h : HNSW V} {id : Bytes} {vec : V} {level : Nat} (hfits : h.nodes.length < 2 ^ 31)
include hfits

/-- The lists after an insert. -/
theorem connsAt_add (lc : Nat) (i : Int32) : connsAt (h.add id vec level).nodes lc i =
    if i = h.next then (if lc ≤ level then some [] else none) else connsAt h.nodes lc i := by
  rw [connsAt, HNSW.add, elemAt_append_one hfits, ← HNSW.next]
  split
  · simp [List.getElem?_replicate]
  · rfl

theorem isSome_add {lc : Nat} {i : Int32} (hi : (connsAt h.nodes lc i).isSome = true) :
    (connsAt (h.add id vec level).nodes lc i).isSome = true := by
  rwa [connsAt_add hfits, if_neg (ne_next hfits (within_of_connsAt hi))]

/-- An insert starts apart from the others. -/
theorem Lists.add {room : Nat → Int64} (hl : Lists room h.nodes) (hroom : ∀ lc, 0 ≤ (room lc).toInt)
    (id : Bytes) (vec : V) (level : Nat) :
    Lists room (h.add id vec level).nodes ∧ ∀ lc, Apart (h.add id vec level).nodes h.next lc := by
  have hcases : ∀ {lc i l}, connsAt (h.add id vec level).nodes lc i = some l →
      l = [] ∨ connsAt h.nodes lc i = some l := by
    intro lc i l hconns
    rw [connsAt_add hfits] at hconns
    split at hconns
    · split at hconns
      · exact .inl (Option.some.inj hconns).symm
      · cases hconns
    · exact .inr hconns
  refine ⟨fun lc i l hconns => ?_, fun lc => ⟨fun i l hconns j hj => ?_, fun i l hconns hmem => ?_⟩⟩
  · rcases hcases hconns with rfl | hold
    · exact ⟨by simp, by simpa using hroom lc⟩
    · exact ⟨fun j hj =>
        ⟨((hl lc i l hold).1 j hj).1, isSome_add hfits ((hl lc i l hold).1 j hj).2⟩,
        (hl lc i l hold).2⟩
  · rcases hcases hconns with rfl | hold
    · cases hj
    · exact isSome_add hfits ((hl lc i l hold).1 j hj).2
  · rcases hcases hconns with rfl | hold
    · cases hmem
    · exact (hl.apart (fun hin => ne_next hfits hin rfl) lc).2 i l hold hmem

end

section
variable {D : Type} [LinearOrder D] {dist : V → V → D} {h : HNSW V} {g g' : Nodes V} {vec : V}
  {idx : Int32} {n : Nat}

theorem Linked.isSome (hlink : Linked dist h g g' vec idx n) {lc : Nat} {i : Int32}
    (hi : (connsAt g lc i).isSome = true) : (connsAt g' lc i).isSome = true := by
  by_cases hlc : lc < n
  · obtain ⟨ep, w, hjoin⟩ := hlink.layers lc hlc
    rw [hjoin.conns]
    split
    · rfl
    · split
      · simpa using hi
      · exact hi
  · rwa [hlink.above lc i (by omega)]

/-- Linking keeps the lists. -/
theorem Linked.lists (hlink : Linked dist h g g' vec idx n) (hl : Lists h.mmax g) (hroom : h.Roomy)
    (hidx : ∀ lc < n, (connsAt g lc idx).isSome = true) : Lists h.mmax g' := by
  intro lc i l hconns
  have hm := hroom.1
  have hmax := hroom.mmax lc
  suffices (∀ j ∈ l, j ≠ i ∧ (connsAt g lc j).isSome = true) ∧
    (l.length : Int) ≤ (h.mmax lc).toInt from
    ⟨fun j hj => ⟨(this.1 j hj).1, hlink.isSome (this.1 j hj).2⟩, this.2⟩
  by_cases hlc : lc < n
  · obtain ⟨ep, w, hjoin⟩ := hlink.layers lc hlc
    rw [hjoin.conns] at hconns
    split at hconns
    · -- the new node's own list
      obtain rfl := Option.some.inj hconns
      rename_i hi
      refine ⟨fun j hj => ?_, ?_⟩
      · obtain ⟨e, he, rfl⟩ := mem_firstOf hj
        exact ⟨hi ▸ (hjoin.fresh e he).2, (hjoin.fresh e he).1⟩
      · have hle : (firstOf w h.m).length ≤ h.m.toInt.toNat := List.length_take_le _ _
        omega
    · rename_i hi
      split at hconns
      · obtain ⟨old, hold, rfl⟩ := Option.map_eq_some_iff.mp hconns
        refine ⟨fun j hj => ?_, ?_⟩
        · rcases List.mem_append.mp (List.mem_of_mem_take hj) with hj | hj
          · exact (hl lc i old hold).1 j hj
          · rw [List.mem_singleton.mp hj]
            exact ⟨fun heq => hi heq.symm, hidx lc hlc⟩
        · have hle := List.length_take_le (h.mmax lc).toInt.toNat (old ++ [idx])
          omega
      · exact hl lc i l hconns
  · rw [hlink.above lc i (by omega)] at hconns
    exact hl lc i l hconns

end

/-! ## Runs -/

section
variable {D : Type} [LinearOrder D] {h : HNSW V} {live : Bytes → Bool}

/-- A new node that no list has is linked. -/
theorem link_spec (dist : V → V → D) {idx : Int32} {level : Nat} (vec : V)
    (hpos : 0 < h.m.toInt) (hsizes : h.mMax0.toInt = 2 * h.m.toInt)
    (hentry : h.entryPoint ≠ -1 →
      (connsAt h.nodes h.maxLevel h.entryPoint).isSome = true ∧ h.entryPoint ≠ idx)
    (hlists : Lists h.mmax h.nodes) (happ : ∀ lc, Apart h.nodes idx lc)
    (hnew : ∀ lc ≤ level, (connsAt h.nodes lc idx).isSome = true) :
    ∃ h', h.link dist idx vec level = some h' ∧ Wiring h' ∧ labels h'.nodes = labels h.nodes ∧
      h'.m = h.m ∧ h'.idToIdx = h.idToIdx ∧ h'.live = h.live ∧
      (h.entryPoint ≠ -1 →
        Linked dist h h.nodes h'.nodes vec idx (min h.maxLevel level + 1)) := by
  have hidx : idx ≠ -1 := by
    rintro rfl
    exact absurd (within_of_connsAt (hnew 0 (Nat.zero_le level))).1 (by decide)
  unfold HNSW.link
  split
  · rename_i hnone
    refine ⟨_, rfl, ⟨hpos, hsizes, fun _ => hnew level (Nat.le_refl level), fun h => absurd h hidx,
      hlists⟩, rfl, rfl, rfl, rfl, fun h => absurd hnone h⟩
  · rename_i hsome
    obtain ⟨hep, hne⟩ := hentry hsome
    obtain ⟨ep', hdesc, hep', hne'⟩ := descend_spec dist level happ vec hep hne
    have hlow : ∀ lc < min h.maxLevel level + 1, (connsAt h.nodes lc idx).isSome = true :=
      fun lc hlc => hnew lc (by omega)
    have hroom : h.Roomy := ⟨by omega, by omega⟩
    obtain ⟨g', hlink, hlinked⟩ := linkLayers_spec dist hroom vec
      (fun lc _ => happ lc) hlow (fun lc hlc => connsAt_of_le (by omega) hep') hne'
    have hlists' := hlinked.lists hlists hroom hlow
    simp only [hdesc, hlink, Option.bind_eq_bind, Option.bind_some]
    split
    · refine ⟨_, rfl, ⟨hpos, hsizes, fun _ => ?_, fun h => absurd h hidx, hlists'⟩,
        hlinked.labels, rfl,
        rfl, rfl, fun _ => hlinked⟩
      exact hlinked.isSome (hnew level (Nat.le_refl level))
    · refine ⟨_, rfl, ⟨hpos, hsizes, fun _ => hlinked.isSome hep, fun h => absurd h hsome, hlists'⟩,
        hlinked.labels, rfl, rfl, rfl, fun _ => hlinked⟩

/-- An insert into an index that is wired. -/
theorem insert_spec (dist : V → V → D) (hw : Wiring h) (hr : Registry live h.nodes h.idToIdx h.live)
    (hfits : h.nodes.length < 2 ^ 31) (id : Bytes) (vec : V) (level : Nat) :
    ∃ nodes count h', h.delete id = some { h with nodes, live := count } ∧
      (∀ lc i, connsAt nodes lc i = connsAt h.nodes lc i) ∧ nodes.length = h.nodes.length ∧
      h.insert dist id vec level = some h' ∧ h'.m = h.m ∧ h'.nodes.length = h.nodes.length + 1 ∧
      Wiring h' ∧
      Registry (fun id' => Call.effect id' (live id') (.insert id vec level)) h'.nodes h'.idToIdx
        h'.live ∧
      (h.entryPoint ≠ -1 →
        Linked dist (HNSW.add { h with nodes, live := count } id vec level)
          (HNSW.add { h with nodes, live := count } id vec level).nodes h'.nodes vec h.next
          (min h.maxLevel level + 1)) := by
  obtain ⟨nodes, count, hdel, hreg, hlen, hconns⟩ := delete_spec hr id
  have hnext : HNSW.next { h with nodes, live := count } = h.next := by simp only [HNSW.next, hlen]
  have hfits' : (HNSW.nodes { h with nodes, live := count }).length < 2 ^ 31 := by
    simpa only [hlen] using hfits
  obtain ⟨hlists, happ⟩ := Lists.add (h := { h with nodes, live := count }) hfits'
    (hw.lists.congr hconns) (fun lc => hw.roomy.1.trans (hw.roomy.mmax lc)) id vec level
  have hnew : ∀ lc ≤ level,
      (connsAt (HNSW.add { h with nodes, live := count } id vec level).nodes lc
      (HNSW.next { h with nodes, live := count })).isSome = true := fun lc hlc => by
    rw [connsAt_add hfits', if_pos rfl, if_pos hlc]
    rfl
  obtain ⟨h', hlink, hw', hlabels, hm, hmap, hcount, hlinked⟩ := link_spec dist vec
    (h := HNSW.add { h with nodes, live := count } id vec level) hw.positive hw.sizes
    (fun hep => by
      have hsome : (connsAt nodes h.maxLevel h.entryPoint).isSome = true := by
        rw [hconns]
        exact hw.entry hep
      exact ⟨isSome_add hfits' hsome, ne_next hfits' (within_of_connsAt hsome)⟩) hlists happ hnew
  refine ⟨nodes, count, h', hdel, hconns, hlen, ?_, hm, ?_, hw', ?_, hnext ▸ hlinked⟩
  · simp only [HNSW.insert, hdel, Option.bind_eq_bind, Option.bind_some]
    exact hlink
  · rw [length_of_labels hlabels, HNSW.add, List.length_append, hlen]
    rfl
  · have hadd := hreg.add (h := { h with nodes, live := count }) hfits' id vec level
      (by simp [Call.effect])
    have heffect : (fun id' => Call.effect id' (Call.effect id' (live id') (.delete id : Call V))
        (.insert id vec level)) = fun id' => Call.effect id' (live id') (.insert id vec level) := by
      funext id'
      by_cases heq : id = id' <;> simp [Call.effect, heq]
    rw [heffect, ← hmap, ← hcount] at hadd
    exact hadd.congr hlabels

theorem toInt_orDefault {p : Int64} (hp : p.toInt < 2 ^ 62) :
    0 < (orDefault p 16).toInt ∧ (orDefault p 16).toInt < 2 ^ 62 := by
  unfold orDefault
  split
  · decide
  · rename_i hpos
    rw [Int64.le_iff_toInt_le] at hpos
    exact ⟨by simpa using hpos, hp⟩

/-- Every run of calls succeeds, well formed. -/
theorem run_spec (dist : V → V → D) {p : Params} (hp : p.m.toInt < 2 ^ 62) {calls : List (Call V)}
    (hcalls : inserts calls ≤ 2 ^ 31) :
    ∃ h, run dist p calls = some h ∧ h.m = orDefault p.m 16 ∧ h.nodes.length = inserts calls ∧
      Wiring h ∧ Registry (isLive calls) h.nodes h.idToIdx h.live := by
  induction calls using List.reverseRecOn with
  | nil =>
    obtain ⟨hpos, hlt⟩ := toInt_orDefault hp
    refine ⟨newHNSW p, rfl, rfl, rfl, ⟨hpos, ?_, by simp [newHNSW], fun _ => rfl, ?_⟩, ?_⟩
    · change (2 * orDefault p.m 16).toInt = 2 * (orDefault p.m 16).toInt
      rw [Int64.toInt_mul, Int.bmod_eq_of_le (by simp; omega) (by simp; omega)]
      simp
    · intro lc i l hl
      have := within_of_connsAt (by rw [hl]; rfl)
      have hlo := this.1
      have hhi : i.toInt < 0 := this.2
      omega
    · constructor <;> simp [newHNSW, idAt, liveAt, elemAt, liveCount, isLive]
  | append_singleton calls c ih =>
    have hcount : inserts (calls ++ [c]) = inserts calls + if c.isInsert then 1 else 0 := by
      simp [inserts, List.countP_append, List.countP_singleton]
    obtain ⟨h, hrun, hm, hlen, hw, hr⟩ := ih (by omega)
    have hstep : run dist p (calls ++ [c]) = h.call dist c := by
      rw [run, List.foldlM_append, ← run, hrun]
      exact Option.bind_fun_some _
    have hlive : isLive (calls ++ [c]) = fun id => c.effect id (isLive calls id) := by
      funext id
      rw [isLive, List.foldl_append]
      rfl
    rw [hstep, hlive, hcount]
    cases c with
    | insert id vec level =>
      have hfits : h.nodes.length < 2 ^ 31 := by
        simp only [Call.isInsert, if_true] at hcount
        omega
      obtain ⟨-, -, h', -, -, -, hins, hm', hlen', hw', hr', -⟩ :=
        insert_spec dist hw hr hfits id vec level
      exact ⟨h', hins, hm'.trans hm, by rw [hlen', hlen]; rfl, hw', hr'⟩
    | delete id =>
      obtain ⟨nodes, count, hdel, hr', hlen', hconns⟩ := delete_spec hr id
      refine ⟨_, hdel, hm, hlen'.trans hlen,
        ⟨hw.positive, hw.sizes, fun hep => ?_, fun hnone => ?_, hw.lists.congr hconns⟩, hr'⟩
      · rw [hconns]
        exact hw.entry hep
      · have := hw.started hnone
        exact List.length_eq_zero_iff.mp (by rw [hlen', this]; rfl)

omit [LinearOrder D] in
/-- The loop over the nodes found stays within the nodes. -/
theorem isSome_collect {g : Nodes V} (k : Int) {w : List (Elem D)} (out : List (Candidate D))
    (hw : ∀ e ∈ w, Within g.length e.idx) : (collect g k w out).isSome = true := by
  induction w generalizing out with
  | nil => rfl
  | cons e w ih =>
    obtain ⟨he, hw⟩ := List.forall_mem_cons.mp hw
    obtain ⟨n, hn⟩ := Option.isSome_iff_exists.mp (elemAt_of_within he)
    simp only [collect, hn, Option.bind_eq_bind, Option.bind_some]
    split
    · exact ih out hw
    · split
      · rfl
      · exact ih _ hw

/-- No search leaves the bounds of a list. -/
theorem isSome_search (dist : V → V → D) (hw : Wiring h) (query : V) (k efSearch : Int64) :
    (h.search dist query k efSearch).isSome = true := by
  unfold HNSW.search
  split
  · rfl
  · rename_i hsome
    have hep := hw.entry fun h => hsome (.inl h)
    have hnone : ¬ Within h.nodes.length (-1) := fun hin => absurd hin.1 (by decide)
    have happ := hw.lists.apart hnone
    obtain ⟨ep', hdesc, hep', hne⟩ := descend_spec dist 0 happ query hep fun h => hsome (.inl h)
    rw [Nat.min_zero] at hep'
    obtain ⟨w, hw', -, hin⟩ := (happ 0).search dist hep' hne query
      (if (if efSearch ≤ 0 then h.efSearchDefault else efSearch) < k then k
        else if efSearch ≤ 0 then h.efSearchDefault else efSearch).toInt
    simp only [hdesc, hw', Option.bind_eq_bind, Option.bind_some]
    exact isSome_collect k.toInt [] fun e he => within_of_connsAt (hin e he).1

structure WellFormed (dist : V → V → D) (p : Params) (calls : List (Call V))
    (h : HNSW V) : Prop where
  /-- There is an entry point, once there is a node, and it has the top layer. -/
  started : h.entryPoint = -1 → h.nodes = []
  entry : h.entryPoint ≠ -1 → (connsAt h.nodes h.maxLevel h.entryPoint).isSome = true
  /-- A neighbour at a layer is another node that has the layer. -/
  links : ∀ lc i l, connsAt h.nodes lc i = some l →
    ∀ j ∈ l, j ≠ i ∧ (connsAt h.nodes lc j).isSome = true
  bound : ∀ lc i l, connsAt h.nodes lc i = some l →
    (l.length : Int) ≤ if lc = 0 then 2 * (orDefault p.m 16).toInt else (orDefault p.m 16).toInt
  insert : ∀ id vec level, (h.insert dist id vec level).isSome = true
  search : ∀ query k efSearch, (h.search dist query k efSearch).isSome = true
  latest : ∀ id i, h.idToIdx[id]? = some i ↔
    idAt h.nodes i = some id ∧ ∀ j, idAt h.nodes j = some id → j ≤ i
  len : h.live.toInt = liveCount h.nodes
  /-- The nodes that are not deleted are one for each live id. -/
  live : ∀ id, (∃ i, liveAt h.nodes i = some id) ↔ isLive calls id = true
  one : ∀ i j id, liveAt h.nodes i = some id → liveAt h.nodes j = some id → i = j

/-- With `M` below 2^62, the index is well formed after any calls with fewer than 2^31 inserts,
whatever the levels of the new nodes. -/
theorem hnsw_well_formed (dist : V → V → D) (p : Params) (hp : p.m.toInt < 2 ^ 62)
    (calls : List (Call V)) (hcalls : inserts calls < 2 ^ 31) :
    ∃ h, run dist p calls = some h ∧ h.nodes.length = inserts calls ∧
      WellFormed dist p calls h := by
  obtain ⟨h, hrun, hm, hlen, hw, hr⟩ := run_spec dist hp hcalls.le
  refine ⟨h, hrun, hlen, ?_⟩
  constructor
  · exact hw.started
  · exact hw.entry
  · exact fun lc i l hl => (hw.lists lc i l hl).1
  · intro lc i l hl
    have hbound := (hw.lists lc i l hl).2
    rw [HNSW.mmax] at hbound
    split
    · rename_i hzero
      rw [if_pos hzero, hw.sizes, hm] at hbound
      exact hbound
    · rename_i hzero
      rw [if_neg hzero, hm] at hbound
      exact hbound
  · intro id vec level
    obtain ⟨-, -, h', -, -, -, hins, -⟩ := insert_spec dist hw hr (hlen ▸ hcalls) id vec level
    rw [hins]
    rfl
  · exact isSome_search dist hw
  · exact hr.latest
  · exact hr.count
  · exact fun id => (hr.alive id).symm
  · exact fun i j id hi hj => Option.some.inj ((hr.current i id hi).symm.trans (hr.current j id hj))

end

end

/-- Five nodes on a line, whose first has four neighbours then. -/
def crowd : List (Call Int) :=
  [.insert [1] 0 0, .insert [2] 100 0, .insert [3] (-210) 0, .insert [4] 130 0,
    .insert [5] (-260) 0]

theorem hnsw_well_formed_crowd : ∃ h, run gap { m := 2 } crowd = some h ∧
    WellFormed gap { m := 2 } crowd h :=
  (hnsw_well_formed gap { m := 2 } (by decide) crowd (by decide)).imp fun _ h => ⟨h.1, h.2.2⟩

/-- Twice 2^62 is negative, and the first list that is pruned is cut at that bound. -/
theorem insert_bound_negative :
    (2 * (4611686018427387904 : Int64)).toInt = -9223372036854775808 ∧
      (run gap { m := 4611686018427387904 } [.insert [1] 0 0, .insert [2] 5 0]).isNone = true := by
  decide +kernel

/-! ## What an insert links -/

section
variable {V D : Type} [LinearOrder D]

def between (dist : V → V → D) (g : Nodes V) (e j : Int32) : Option D :=
  (elemAt g e).bind fun n => distTo dist g n.vec j

/-- The `n` closest of some nodes, all of them if there are fewer. -/
structure Closest (d : Int32 → Option D) (n : Nat) (all kept : List Int32) : Prop where
  sub : kept.Subperm all
  length : kept.length = min n all.length
  closest : ∀ a ∈ kept, ∀ b ∈ all, b ∉ kept → ∀ x y, d a = some x → d b = some y → x ≤ y

/-- The first of a sorted list. -/
theorem closest_take {d : Int32 → Option D} {w : List (Elem D)} (n : Nat)
    (hsorted : w.Pairwise fun a b => a.dist ≤ b.dist) (hd : ∀ e ∈ w, d e.idx = some e.dist) :
    Closest d n (w.map Elem.idx) ((w.map Elem.idx).take n) := by
  refine ⟨(List.take_sublist _ _).subperm, List.length_take, fun a ha b hb hout x y hx hy => ?_⟩
  rw [← List.map_take] at ha hout
  obtain ⟨ea, hea, rfl⟩ := List.mem_map.mp ha
  obtain ⟨eb, heb, rfl⟩ := List.mem_map.mp hb
  rw [hd ea (List.mem_of_mem_take hea)] at hx
  rw [hd eb heb] at hy
  rw [← List.take_append_drop n w] at heb hsorted
  have hdrop := (List.mem_append.mp heb).resolve_left fun h => hout (List.mem_map_of_mem h)
  rw [← Option.some.inj hx, ← Option.some.inj hy]
  exact (List.pairwise_append.mp hsorted).2.2 ea hea eb hdrop

/-- A full list is the closest of itself and one node more if that one is not closer. -/
theorem closest_full {d : Int32 → Option D} {old : List Int32} {idx : Int32} {n : Nat}
    (hfull : old.length = n) (hout : idx ∉ old) :
    Closest d n (old ++ [idx]) old ↔ ∀ j ∈ old, ∀ x y, d j = some x → d idx = some y → x ≤ y := by
  constructor
  · exact fun h j hj => h.closest j hj idx (by simp) hout
  · intro h
    refine ⟨(List.sublist_append_left _ _).subperm, by simp; omega, fun a ha b hb hb' => ?_⟩
    rw [List.mem_singleton.mp ((List.mem_append.mp hb).resolve_left hb')]
    exact h a ha

/-- What an insert makes of the lists of a layer. The new node's list is the closest of what the
layer's search returned. A neighbour whose list has room has the new node appended. A neighbour
whose list is full keeps it as it was, and that is the closest of both if and only if the new node
is not closer than one of them. -/
theorem insert_links (dist : V → V → D) (p : Params) (hp : p.m.toInt < 2 ^ 62)
    (calls : List (Call V)) (hcalls : inserts calls < 2 ^ 31) (id : Bytes) (vec : V) (level : Nat) :
    ∃ h h1 h', run dist p calls = some h ∧ h.delete id = some h1 ∧
      h.insert dist id vec level = some h' ∧
      ∀ lc, h.entryPoint ≠ -1 → lc ≤ min h.maxLevel level → ∃ ep w own,
        searchLayer dist (h1.add id vec level).nodes vec ep h.efConstruction.toInt lc = some w ∧
        connsAt h'.nodes lc h.next = some own ∧
        Closest (distTo dist h'.nodes vec) h.m.toInt.toNat (w.map Elem.idx) own ∧
        (∀ e, e ≠ h.next → e ∉ own → connsAt h'.nodes lc e = connsAt h.nodes lc e) ∧
        ∀ e ∈ own, ∃ old kept, connsAt h.nodes lc e = some old ∧ connsAt h'.nodes lc e = some kept ∧
          (old.length < (h.mmax lc).toInt → kept = old ++ [h.next]) ∧
          ((h.mmax lc).toInt ≤ old.length → kept = old ∧
            (Closest (between dist h'.nodes e) (h.mmax lc).toInt.toNat (old ++ [h.next]) kept ↔
              ∀ j ∈ old, ∀ x y, between dist h'.nodes e j = some x →
                between dist h'.nodes e h.next = some y → x ≤ y)) := by
  obtain ⟨h, hrun, -, hlength, hw, hr⟩ := run_spec dist hp hcalls.le
  have hfits : h.nodes.length < 2 ^ 31 := hlength ▸ hcalls
  obtain ⟨nodes, count, h', hdel, hconns, hlen, hins, -, -, -, -, hlinked⟩ :=
    insert_spec dist hw hr hfits id vec level
  refine ⟨h, _, h', hrun, hdel, hins, fun lc hentry hlc => ?_⟩
  have hnext : HNSW.next { h with nodes, live := count } = h.next := by simp only [HNSW.next, hlen]
  have hfits' : (HNSW.nodes { h with nodes, live := count }).length < 2 ^ 31 := by
    simpa only [hlen] using hfits
  have hlink := hlinked hentry
  obtain ⟨ep, w, hjoin⟩ := hlink.layers lc (by omega)
  have hold : ∀ e, e ≠ h.next →
      connsAt (HNSW.add { h with nodes, live := count } id vec level).nodes lc e =
        connsAt h.nodes lc e :=
    fun e he => by rw [connsAt_add hfits', if_neg (hnext ▸ he), hconns]
  have hafter : ∀ i, i ≠ h.next → connsAt h'.nodes lc i =
      if i ∈ firstOf w h.m then
        (connsAt h.nodes lc i).map fun old => (old ++ [h.next]).take (h.mmax lc).toInt.toNat
      else connsAt h.nodes lc i := fun i hi => by
    rw [← hold i hi]
    exact (hjoin.conns i).trans (if_neg hi)
  refine ⟨ep, w, firstOf w h.m, hjoin.search, ?_, ?_, fun e hne hout => ?_, fun e he => ?_⟩
  · exact (hjoin.conns h.next).trans (if_pos rfl)
  · refine closest_take h.m.toInt.toNat hjoin.found.sorted fun e he => ?_
    rw [distTo_eq, hlink.labels, ← distTo_eq]
    exact (hjoin.found.reach e he).2
  · rw [hafter e hne, if_neg hout]
  · obtain ⟨x, hx, rfl⟩ := mem_firstOf he
    obtain ⟨hsome, hne⟩ := hjoin.fresh x hx
    rw [hold x.idx hne] at hsome
    obtain ⟨old, hlist⟩ := Option.isSome_iff_exists.mp hsome
    have hkept := hafter x.idx hne
    rw [if_pos he, hlist, Option.map_some] at hkept
    obtain ⟨hnodes, hbound⟩ := hw.lists lc x.idx old hlist
    refine ⟨old, _, hlist, hkept, fun hroom => ?_, fun hfull => ?_⟩
    · refine List.take_of_length_le ?_
      rw [List.length_append, List.length_singleton]
      omega
    · have hlast : (h.mmax lc).toInt.toNat = old.length := by omega
      have htake : (old ++ [h.next]).take (h.mmax lc).toInt.toNat = old := by
        rw [hlast]
        exact List.take_left
      refine ⟨htake, ?_⟩
      have hout : h.next ∉ old := fun hmem =>
        ne_next hfits (within_of_connsAt (hnodes _ hmem).2) rfl
      rw [htake]
      exact closest_full hlast.symm hout

end

/-- The sixth node on the line, and its neighbours. -/
theorem insert_links_crowd : ∃ h h' own, ∃ w : List (Elem Nat), run gap { m := 2 } crowd = some h ∧
    h.insert gap [6] 1 0 = some h' ∧ connsAt h'.nodes 0 h.next = some own ∧
    Closest (distTo gap h'.nodes 1) h.m.toInt.toNat (w.map Elem.idx) own := by
  obtain ⟨h, h1, h', hrun, -, hins, hlayers⟩ :=
    insert_links gap { m := 2 } (by decide) crowd (by decide) [6] 1 0
  have hentry : (run gap { m := 2 } crowd).map HNSW.entryPoint = some 0 := by decide +kernel
  rw [hrun, Option.map_some, Option.some.injEq] at hentry
  obtain ⟨ep, w, own, -, hown, hclosest, -⟩ := hlayers 0 (by rw [hentry]; decide) (Nat.zero_le _)
  exact ⟨h, h', own, w, hrun, hins, hown, hclosest⟩

/-- The list of the first node is full, and a sixth node that is closer to it than all four does not
come in. -/
theorem insert_drops_closest :
    ∃ h h', run gap { m := 2 } crowd = some h ∧ h.insert gap [6] 1 0 = some h' ∧ h.mmax 0 = 4 ∧
      connsAt h.nodes 0 0 = some [1, 2, 3, 4] ∧ connsAt h'.nodes 0 5 = some [0, 1] ∧
      connsAt h'.nodes 0 0 = some [1, 2, 3, 4] ∧
      ¬ Closest (between gap h'.nodes 0) 4 ([1, 2, 3, 4] ++ [5]) [1, 2, 3, 4] := by
  have hbefore : ((run gap { m := 2 } crowd).map fun h => (h.mmax 0, connsAt h.nodes 0 0)) =
      some (4, some [1, 2, 3, 4]) := by
    decide +kernel
  have hafter : (((run gap { m := 2 } crowd).bind fun h => h.insert gap [6] 1 0).map fun h =>
      (connsAt h.nodes 0 5, connsAt h.nodes 0 0, between gap h.nodes 0 1,
        between gap h.nodes 0 5)) =
      some (some [0, 1], some [1, 2, 3, 4], some 100, some 1) := by
    decide +kernel
  obtain ⟨h, hrun, hh⟩ := Option.map_eq_some_iff.mp hbefore
  rw [hrun, Option.bind_some] at hafter
  obtain ⟨h', hins, hh'⟩ := Option.map_eq_some_iff.mp hafter
  simp only [Prod.mk.injEq] at hh hh'
  refine ⟨h, h', hrun, hins, hh.1, hh.2, hh'.1, hh'.2.1, fun hc => ?_⟩
  have := hc.closest 1 (by simp) 5 (by simp) (by simp) 100 1 hh'.2.2.1 hh'.2.2.2
  omega

end WaveSpan.Vector.Ann
