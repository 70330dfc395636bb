/-
WaveSpan.Vector.Rebucket — moving vectors onto their ring while clients write them
(`cmd/wavespan-node/main.go`, `runRebucketer` and the vector apply observer).

A vector is a record under last-write-wins. Every durable apply that wins is mirrored
into the node's search copies. A rebucketer pass scans the search copies once, then
writes each off-ring vector anew under a fresh version and drops its own copy. Whether a
vector is off the ring, whether the write was acknowledged and when a pass stops are left
open: each step of a pass may happen or be skipped.

The model is of one collection. A node's record store is the winner of each id; the
members a mutation reaches and when are arbitrary.

A pass writes what it scanned. Every mutation issued keeps to the client operations
(`Backed`) as long as no client operation on the id lies between the version scanned and
the version written (`Undisturbed`).
-/
import WaveSpan.Lib.Guarded
import WaveSpan.Lib.Lww
import WaveSpan.Collections.Store
import WaveSpan.Records.Version
import Mathlib.Data.List.Induction

namespace WaveSpan.Rebucket

open WaveSpan.Wire WaveSpan.Guarded WaveSpan.Lww
open WaveSpan.Collections (GoMap)
open WaveSpan.Records (Version)

/-- A vector record, but for its id and version. A value is a float32 by its bits. -/
structure VectorRecord where
  values : List UInt32 := []
  dtype : Bytes := []
  dimensions : UInt32 := 0
  metadata : List (Bytes × Bytes) := []
  graphNodeId : Bytes := []
  tombstone : Bool := false
  payload : Bytes := []
deriving DecidableEq, Repr

/-- A write of an id; without a body it is a tombstone. -/
structure Mutation where
  id : Bytes
  version : Version
  body : Option VectorRecord
deriving DecidableEq

/-- An entry of the search copies, stamped with the version of its mutation. -/
structure Copy where
  version : Version
  body : Option VectorRecord

structure Node where
  records : GoMap Mutation := ∅
  search : GoMap Copy := ∅

def Node.winner (n : Node) (m : Mutation) : Mutation :=
  match n.records[m.id]? with
  | some w => if w.version.compare m.version ≠ .lt then w else m
  | none => m

/-- A durable apply and the observer after it: only a winner reaches the search
copies. -/
def Node.apply (n : Node) (m : Mutation) : Node :=
  { records := n.records.insert m.id (n.winner m)
    search :=
      if (n.winner m).version.compare m.version = .eq then
        n.search.insert m.id { version := m.version, body := m.body }
      else n.search }

def Node.scanCollection (n : Node) : List (Bytes × Copy) :=
  n.search.toList.filter fun c =>
    match c.2.body with
    | some r => !r.tombstone
    | none => false

/-- The record a pass writes: what it takes over of the copy. -/
def rebuild (r : VectorRecord) : VectorRecord :=
  { values := r.values, payload := r.payload, dimensions := r.dimensions }

/-- A pass: the copies still to look at, and the one written and not yet dropped. -/
structure Pass where
  node : Nat
  todo : List (Bytes × Copy)
  dropping : Option Bytes := none

structure World where
  nodes : Nat → Node := fun _ => {}
  issued : List Mutation := []
  passes : List Pass := []

inductive Event where
  | put (n : Nat) (id : Bytes) (r : VectorRecord) (v : Version)
  | delete (n : Nat) (id : Bytes) (v : Version)
  /-- The `i`th mutation issued reaches a node. -/
  | deliver (n i : Nat)
  | scan (n : Nat)
  /-- The next copy belongs here, or the write was refused. -/
  | skip (p : Nat)
  | reput (p : Nat) (v : Version)
  /-- The ring has not acknowledged. -/
  | keep (p : Nat)
  | drop (p : Nat) (v : Version)

def World.applyAt (w : World) (n : Nat) (m : Mutation) : World :=
  { w with nodes := Function.update w.nodes n ((w.nodes n).apply m) }

/-- A write through the coordinator: applied at the origin and issued to the others. -/
def World.issue (w : World) (n : Nat) (m : Mutation) : World :=
  { w.applyAt n m with issued := w.issued ++ [m] }

def World.setPass (w : World) (p : Nat) (q : Pass) : World :=
  { w with passes := w.passes.set p q }

def step (w : World) : Event → World
  | .put n id r v => w.issue n { id, version := v, body := some r }
  | .delete n id v => w.issue n { id, version := v, body := none }
  | .deliver n i =>
    match w.issued[i]? with
    | some m => w.applyAt n m
    | none => w
  | .scan n => { w with passes := w.passes ++ [{ node := n, todo := (w.nodes n).scanCollection }] }
  | .skip p =>
    match w.passes[p]? with
    | some ⟨n, _ :: todo, none⟩ => w.setPass p ⟨n, todo, none⟩
    | _ => w
  | .reput p v =>
    match w.passes[p]? with
    | some ⟨n, (id, c) :: todo, none⟩ =>
      (w.issue n { id, version := v, body := c.body.map rebuild }).setPass p
        ⟨n, todo, some id⟩
    | _ => w
  | .keep p =>
    match w.passes[p]? with
    | some ⟨n, todo, some _⟩ => w.setPass p ⟨n, todo, none⟩
    | _ => w
  | .drop p v =>
    match w.passes[p]? with
    | some ⟨n, todo, some id⟩ =>
      { w with
        nodes := Function.update w.nodes n
          { w.nodes n with
            search := (w.nodes n).search.insert id { version := v, body := none } } }.setPass p
        ⟨n, todo, none⟩
    | _ => w

def run (es : List Event) : World := es.foldl step {}

def Event.op? : Event → Option Mutation
  | .put _ id r v => some { id, version := v, body := some r }
  | .delete _ id v => some { id, version := v, body := none }
  | _ => none

def clientOps (es : List Event) : List Mutation := es.filterMap Event.op?

/-- A vector re-put as the client wrote it: nothing a pass leaves behind is set, and no
client operation on the id lies between the version scanned and the version written. -/
def Undisturbed (ops : List Mutation) (w : World) : Event → Prop
  | .reput p v => ∀ q ∈ w.passes[p]?, ∀ c ∈ q.todo.head?,
      c.2.body.map rebuild = c.2.body ∧
        ∀ o ∈ ops, o.id = c.1 → (o.version ≤ c.2.version ↔ o.version ≤ v)
  | _ => True

instance (ops : List Mutation) (w : World) : ∀ e, Decidable (Undisturbed ops w e)
  | .reput p v => inferInstanceAs (Decidable (∀ q ∈ w.passes[p]?, ∀ c ∈ q.todo.head?,
      c.2.body.map rebuild = c.2.body ∧
        ∀ o ∈ ops, o.id = c.1 → (o.version ≤ c.2.version ↔ o.version ≤ v)))
  | .put .. => inferInstanceAs (Decidable True)
  | .delete .. => inferInstanceAs (Decidable True)
  | .deliver .. => inferInstanceAs (Decidable True)
  | .scan _ => inferInstanceAs (Decidable True)
  | .skip _ => inferInstanceAs (Decidable True)
  | .keep _ => inferInstanceAs (Decidable True)
  | .drop .. => inferInstanceAs (Decidable True)

/-! ## What every mutation goes back to -/

/-- A mutation carries the contents of the last client operation at or before its
version. -/
def Backed (ops : List Mutation) (m : Mutation) : Prop :=
  ∃ o ∈ ops, o.id = m.id ∧ o.body = m.body ∧ o.version ≤ m.version ∧
    ∀ o' ∈ ops, o'.id = m.id → o'.version ≤ m.version → o'.version ≤ o.version

theorem backed_of_mem {ops : List Mutation} {o : Mutation} (h : o ∈ ops) : Backed ops o :=
  ⟨o, h, rfl, rfl, le_rfl, fun _ _ _ hle => hle⟩

/-- A mutation on the same side of every client operation as a backed one. -/
theorem Backed.move {ops : List Mutation} {m m' : Mutation} (h : Backed ops m)
    (hid : m'.id = m.id) (hbody : m'.body = m.body)
    (hside : ∀ o ∈ ops, o.id = m.id → (o.version ≤ m.version ↔ o.version ≤ m'.version)) :
    Backed ops m' := by
  obtain ⟨o, ho, hoid, hobody, hle, hmax⟩ := h
  refine ⟨o, ho, by rw [hid, hoid], by rw [hbody, hobody], (hside o ho hoid).mp hle, ?_⟩
  intro o' ho' hoid' hle'
  rw [hid] at hoid'
  exact hmax o' ho' hoid' ((hside o' ho' hoid').mpr hle')

/-- A backed mutation at least as new as the last client operation has its contents. -/
theorem Backed.body_eq {ops : List Mutation} {m o : Mutation} (h : Backed ops m)
    (hinj : ∀ a ∈ ops, ∀ b ∈ ops, a.version = b.version → a = b)
    (ho : Winner Mutation.version {x | x ∈ ops ∧ x.id = m.id} o) (hle : o.version ≤ m.version) :
    m.body = o.body := by
  obtain ⟨o', ho', hoid, hbody, -, hmax⟩ := h
  have hge : o.version ≤ o'.version := hmax o ho.mem.1 ho.mem.2 hle
  have hle' : o'.version ≤ o.version := ho.le ⟨ho', hoid⟩
  rw [← hbody, hinj o' ho' o ho.mem.1 (le_antisymm hle' hge)]

/-- Everything in the system is a mutation issued, and every mutation issued is
backed. -/
structure Inv (ops : List Mutation) (w : World) : Prop where
  backed : ∀ m ∈ w.issued, Backed ops m
  records : ∀ n (id : Bytes) m, (w.nodes n).records[id]? = some m → m.id = id ∧ m ∈ w.issued
  search : ∀ n (id : Bytes) c r, (w.nodes n).search[id]? = some c → c.body = some r →
    (⟨id, c.version, c.body⟩ : Mutation) ∈ w.issued
  todo : ∀ p ∈ w.passes, ∀ c ∈ p.todo, (⟨c.1, c.2.version, c.2.body⟩ : Mutation) ∈ w.issued

section
variable {ops : List Mutation} {w : World} {m : Mutation} {n : Nat}

theorem winner_cases (k : Node) (m : Mutation) :
    k.winner m = m ∨ (k.records[m.id]? = some (k.winner m)) := by
  unfold Node.winner
  split
  · rename_i x hx
    split
    · exact .inr hx
    · exact .inl rfl
  · exact .inl rfl

/-- Applying a mutation that has been issued. -/
theorem Inv.applyAt (h : Inv ops w) (hm : m ∈ w.issued) : Inv ops (w.applyAt n m) := by
  refine ⟨h.backed, fun k id x hx => ?_, fun k id c r hc hr => ?_, h.todo⟩
  · by_cases hk : k = n
    · subst hk
      simp only [World.applyAt, Function.update_self, Node.apply] at hx
      rw [Std.ExtTreeMap.getElem?_insert] at hx
      split at hx
      · rename_i hid
        cases hx
        rw [← Std.LawfulEqCmp.eq_of_compare hid]
        rcases winner_cases (w.nodes k) m with heq | hstand
        · rw [heq]
          exact ⟨rfl, hm⟩
        · exact h.records k m.id _ hstand
      · exact h.records k id x hx
    · simp only [World.applyAt, Function.update_of_ne hk] at hx
      exact h.records k id x hx
  · by_cases hk : k = n
    · subst hk
      simp only [World.applyAt, Function.update_self, Node.apply] at hc
      split at hc
      · rw [Std.ExtTreeMap.getElem?_insert] at hc
        split at hc
        · rename_i hid
          cases hc
          rw [← Std.LawfulEqCmp.eq_of_compare hid]
          exact hm
        · exact h.search k id c r hc hr
      · exact h.search k id c r hc hr
    · simp only [World.applyAt, Function.update_of_ne hk] at hc
      exact h.search k id c r hc hr

/-- One more mutation. -/
theorem Inv.issue (h : Inv ops w) (hm : Backed ops m) : Inv ops (w.issue n m) := by
  have hadd : Inv ops { w with issued := w.issued ++ [m] } :=
    ⟨fun x hx => by
        rcases List.mem_append.mp hx with hx | hx
        · exact h.backed x hx
        · rw [List.mem_singleton.mp hx]
          exact hm,
      fun k id x hx => ⟨(h.records k id x hx).1, List.mem_append_left _ (h.records k id x hx).2⟩,
      fun k id c r hc hr => List.mem_append_left _ (h.search k id c r hc hr),
      fun p hp c hc => List.mem_append_left _ (h.todo p hp c hc)⟩
  exact hadd.applyAt (List.mem_append_right _ (List.mem_singleton.mpr rfl))

/-- A pass that goes on with part of what it had to do. -/
theorem Inv.setPass {p : Nat} {q q' : Pass} (h : Inv ops w) (hq : w.passes[p]? = some q)
    (hsub : q'.todo ⊆ q.todo) : Inv ops (w.setPass p q') := by
  refine ⟨h.backed, h.records, h.search, fun x hx c hc => ?_⟩
  rcases List.mem_or_eq_of_mem_set hx with hx | rfl
  · exact h.todo x hx c hc
  · exact h.todo q (List.mem_of_getElem? hq) c (hsub hc)

/-- One event keeps what clients wrote. -/
theorem Inv.step {e : Event} (h : Inv ops w) (hop : ∀ o ∈ e.op?, o ∈ ops)
    (hund : Undisturbed ops w e) : Inv ops (step w e) := by
  cases e with
  | put n id r v => exact h.issue (backed_of_mem (hop _ rfl))
  | delete n id v => exact h.issue (backed_of_mem (hop _ rfl))
  | deliver n i =>
    simp only [Rebucket.step]
    split
    · rename_i m hm
      exact h.applyAt (List.mem_of_getElem? hm)
    · exact h
  | scan n =>
    refine ⟨h.backed, h.records, h.search, fun p hp c hc => ?_⟩
    rcases List.mem_append.mp hp with hp | hp
    · exact h.todo p hp c hc
    · -- a copy a scan returns has a body
      rw [List.mem_singleton.mp hp] at hc
      obtain ⟨hmem, hlive⟩ := List.mem_filter.mp hc
      have hget := Std.ExtTreeMap.mem_toList_iff_getElem?_eq_some.mp hmem
      cases hb : c.2.body with
      | none => simp [hb] at hlive
      | some r => exact hb ▸ h.search n c.1 c.2 r hget hb
  | skip p =>
    simp only [Rebucket.step]
    split
    · rename_i hq
      exact h.setPass hq (List.subset_cons_self ..)
    · exact h
  | reput p v =>
    simp only [Rebucket.step]
    split
    · rename_i n id c todo hq
      obtain ⟨hsame, hside⟩ := hund _ hq (id, c) rfl
      have hcopy := h.todo _ (List.mem_of_getElem? hq) (id, c) List.mem_cons_self
      have hback : Backed ops ⟨id, v, c.body.map rebuild⟩ :=
        (h.backed _ hcopy).move rfl hsame hside
      exact (h.issue hback).setPass hq (List.subset_cons_self ..)
    · exact h
  | keep p =>
    simp only [Rebucket.step]
    split
    · rename_i hq
      exact h.setPass hq (List.Subset.refl _)
    · exact h
  | drop p v =>
    simp only [Rebucket.step]
    split
    · rename_i n todo id hq
      refine Inv.setPass (q := ⟨n, todo, some id⟩) ?_ hq (List.Subset.refl _)
      refine ⟨h.backed, fun k id' x hx => h.records k id' x ?_, fun k id' c r hc hr => ?_, h.todo⟩
      · by_cases hk : k = n
        · subst hk
          simpa only [Function.update_self] using hx
        · simpa only [Function.update_of_ne hk] using hx
      · by_cases hk : k = n
        · subst hk
          simp only [Function.update_self] at hc
          rw [Std.ExtTreeMap.getElem?_insert] at hc
          split at hc
          · cases hc
            cases hr
          · exact h.search k id' c r hc hr
        · simp only [Function.update_of_ne hk] at hc
          exact h.search k id' c r hc hr
    · exact h

end

/-! ## Runs -/

theorem inv_run {es : List Event} (hund : Along step (Undisturbed (clientOps es)) {} es) :
    Inv (clientOps es) (run es) := by
  have hempty : Inv (clientOps es) {} := ⟨by simp, by simp, by simp, by simp⟩
  have hmem : ∀ e ∈ es, ∀ o ∈ e.op?, o ∈ clientOps es :=
    fun e he o ho => List.mem_filterMap.mpr ⟨e, he, ho⟩
  exact (hund.and_mem hmem).invariant (fun w e hw he => hw.step he.1 he.2) hempty

theorem issued_step_subset (w : World) (e : Event) : w.issued ⊆ (step w e).issued := by
  intro m hm
  cases e with
  | put n id r v => exact List.mem_append_left _ hm
  | delete n id v => exact List.mem_append_left _ hm
  | scan n => exact hm
  | deliver n i =>
    simp only [step]
    split <;> exact hm
  | skip p =>
    simp only [step]
    split <;> exact hm
  | keep p =>
    simp only [step]
    split <;> exact hm
  | drop p v =>
    simp only [step]
    split <;> exact hm
  | reput p v =>
    simp only [step]
    split
    · exact List.mem_append_left _ hm
    · exact hm

/-- Client operations are issued. -/
theorem clientOps_subset_issued (es : List Event) : clientOps es ⊆ (run es).issued := by
  induction es using List.reverseRecOn with
  | nil => exact List.nil_subset _
  | append_singleton es e ih =>
    have hrun : run (es ++ [e]) = step (run es) e := by simp [run]
    intro o ho
    rw [hrun]
    rw [clientOps, List.filterMap_append] at ho
    rcases List.mem_append.mp ho with ho | ho
    · exact issued_step_subset _ _ (ih ho)
    · cases e with
      | put n id r v =>
        rw [List.mem_singleton.mp ho]
        exact List.mem_append_right _ (List.mem_singleton.mpr rfl)
      | delete n id v =>
        rw [List.mem_singleton.mp ho]
        exact List.mem_append_right _ (List.mem_singleton.mpr rfl)
      | deliver n i => cases ho
      | scan n => cases ho
      | skip p => cases ho
      | reput p v => cases ho
      | keep p => cases ho
      | drop p v => cases ho

/-- A node that has a record at least as new as every mutation issued. -/
def CaughtUp (w : World) (n : Nat) : Prop :=
  ∀ m ∈ w.issued, ∃ x, (w.nodes n).records[m.id]? = some x ∧ m.version ≤ x.version

/-- An apply leaves the node with a record at least as new as it had and as it was
given. -/
theorem records_apply (k : Node) (m : Mutation) {id : Bytes} {v : Version}
    (h : (id = m.id ∧ v = m.version) ∨ ∃ x, k.records[id]? = some x ∧ v ≤ x.version) :
    ∃ x, (k.apply m).records[id]? = some x ∧ v ≤ x.version := by
  have hge : m.version ≤ (k.winner m).version ∧
      ∀ x, k.records[m.id]? = some x → x.version ≤ (k.winner m).version := by
    unfold Node.winner
    split
    · rename_i x hx
      by_cases hlt : x.version < m.version
      · rw [if_neg (by simpa [Version.lt_def] using hlt)]
        refine ⟨le_rfl, fun y hy => ?_⟩
        rw [hx] at hy
        cases hy
        exact hlt.le
      · rw [if_pos (by simpa [Version.lt_def] using hlt)]
        refine ⟨not_lt.mp hlt, fun y hy => ?_⟩
        rw [hx] at hy
        cases hy
        exact le_rfl
    · rename_i hx
      exact ⟨le_rfl, fun y hy => by rw [hx] at hy; cases hy⟩
  simp only [Node.apply, Std.ExtTreeMap.getElem?_insert]
  by_cases hid : m.id = id
  · subst hid
    refine ⟨k.winner m, by simp, ?_⟩
    rcases h with ⟨-, rfl⟩ | ⟨x, hx, hle⟩
    · exact hge.1
    · exact hle.trans (hge.2 x hx)
  · rcases h with ⟨rfl, -⟩ | ⟨x, hx, hle⟩
    · exact absurd rfl hid
    · exact ⟨x, by simp [hid, hx], hle⟩

/-- A node that everything issued is delivered to catches up. -/
theorem caughtUp_of_delivered (w : World) (n : Nat) :
    CaughtUp (((List.range w.issued.length).map (Event.deliver n)).foldl step w) n := by
  have hpart : ∀ k ≤ w.issued.length,
      (((List.range k).map (Event.deliver n)).foldl step w).issued = w.issued ∧
      ∀ i < k, ∀ m, w.issued[i]? = some m →
        ∃ x, ((((List.range k).map (Event.deliver n)).foldl step w).nodes n).records[m.id]? =
          some x ∧ m.version ≤ x.version := by
    intro k hk
    induction k with
    | zero => exact ⟨rfl, fun i hi => absurd hi (Nat.not_lt_zero i)⟩
    | succ k ih =>
      obtain ⟨hissued, hold⟩ := ih (by omega)
      obtain ⟨m', hm'⟩ : ∃ m', w.issued[k]? = some m' :=
        ⟨_, List.getElem?_eq_getElem (by omega)⟩
      rw [List.range_succ, List.map_append, List.foldl_append]
      simp only [List.map_cons, List.map_nil, List.foldl_cons, List.foldl_nil, step, hissued, hm',
        World.applyAt, Function.update_self]
      refine ⟨trivial, fun i hi m hm => records_apply _ m' ?_⟩
      rcases Nat.lt_succ_iff_lt_or_eq.mp hi with hi | rfl
      · exact .inr (hold i hi m hm)
      · rw [hm'] at hm
        cases hm
        exact .inl ⟨rfl, rfl⟩
  obtain ⟨hissued, hall⟩ := hpart _ le_rfl
  intro m hm
  rw [hissued] at hm
  obtain ⟨i, hi⟩ := List.mem_iff_getElem?.mp hm
  exact hall i (List.getElem?_eq_some_iff.mp hi).1 m hi

/-- Where no client operation falls between a scan and what a pass writes from it, the
winning record of a vector is what its last client operation wrote: among all mutations
issued, and in the record store of every node that has caught up. -/
theorem rebucket_keeps_contents {es : List Event} {id : Bytes} {o : Mutation}
    (hfresh : ((clientOps es).map Mutation.version).Nodup)
    (hund : Along step (Undisturbed (clientOps es)) {} es)
    (ho : Winner Mutation.version {m | m ∈ clientOps es ∧ m.id = id} o) :
    (∀ w, Winner Mutation.version {m | m ∈ (run es).issued ∧ m.id = id} w → w.body = o.body) ∧
      ∀ n, CaughtUp (run es) n →
        ∃ w, ((run es).nodes n).records[id]? = some w ∧ w.body = o.body := by
  have hinv := inv_run hund
  have hinj : ∀ a ∈ clientOps es, ∀ b ∈ clientOps es, a.version = b.version → a = b :=
    fun a ha b hb => List.inj_on_of_nodup_map hfresh ha hb
  have hissued : o ∈ (run es).issued := clientOps_subset_issued es ho.mem.1
  constructor
  · intro w hw
    obtain ⟨hmem, rfl⟩ := hw.mem
    exact (hinv.backed w hmem).body_eq hinj ho (hw.le ⟨hissued, ho.mem.2⟩)
  · intro n hn
    obtain ⟨w, hw, hle⟩ := hn o hissued
    rw [ho.mem.2] at hw
    obtain ⟨rfl, hmem⟩ := hinv.records n id w hw
    exact ⟨w, hw, (hinv.backed w hmem).body_eq hinj ho hle⟩

def atMs (ms : UInt64) : Version := { hlcPhysicalMs := ms }

/-- A vector written on one node, moved by a pass on another and written again. -/
def moved : List Event :=
  [.put 0 [1] { values := [7], payload := [1] } (atMs 10), .deliver 1 0, .scan 1,
    .reput 0 (atMs 20), .drop 0 (atMs 21), .put 0 [1] { values := [7], payload := [2] } (atMs 30)]

/-- The same with everything delivered to a third node. -/
def movedEverywhere : List Event :=
  moved ++ (List.range (run moved).issued.length).map (Event.deliver 2)

theorem rebucket_keeps_contents_moved :
    (run moved).issued.length = 3 ∧
      ∃ w, ((run movedEverywhere).nodes 2).records[([1] : Bytes)]? = some w ∧
        w.body = some { values := [7], payload := [2] } := by
  refine ⟨by decide +kernel, ?_⟩
  have hops : clientOps movedEverywhere =
      [⟨[1], atMs 10, some { values := [7], payload := [1] }⟩,
        ⟨[1], atMs 30, some { values := [7], payload := [2] }⟩] := by decide +kernel
  have hlast : Winner Mutation.version {m | m ∈ clientOps movedEverywhere ∧ m.id = [1]}
      ⟨[1], atMs 30, some { values := [7], payload := [2] }⟩ := by
    rw [hops]
    refine ⟨⟨by simp, rfl⟩, ?_⟩
    rintro m ⟨hm, -⟩
    rcases List.mem_cons.mp hm with rfl | hm
    · show atMs 10 ≤ atMs 30
      decide
    · rw [List.mem_singleton.mp hm]
      exact le_refl (atMs 30)
  have hcaught : CaughtUp (run movedEverywhere) 2 := by
    have hrun : run movedEverywhere = ((List.range (run moved).issued.length).map
        (Event.deliver 2)).foldl step (run moved) := by
      rw [run, movedEverywhere, List.foldl_append]
      rfl
    rw [hrun]
    exact caughtUp_of_delivered _ 2
  exact (rebucket_keeps_contents (by rw [hops]; decide) (by decide +kernel) hlast).2 2 hcaught

def bodyAt (n : Nat) (es : List Event) : Option (Option VectorRecord) :=
  ((run es).nodes n).records[([1] : Bytes)]?.map Mutation.body

/-- A vector attached to a graph node, with a type and metadata. -/
def attached : VectorRecord :=
  { values := [7], dtype := [9], metadata := [([3], [4])], graphNodeId := [5] }

/-- A client writes between the scan and what the pass writes from it: an update is
undone, a delete is undone, and with nobody writing at all the graph node, the metadata
and the type are lost. -/
theorem rebucket_reverts :
    bodyAt 0 [.put 0 [1] { values := [7], payload := [1] } (atMs 10), .scan 0,
        .put 0 [1] { values := [7], payload := [2] } (atMs 20), .reput 0 (atMs 30)] =
      some (some { values := [7], payload := [1] }) ∧
    bodyAt 0 [.put 0 [1] { values := [7], payload := [1] } (atMs 10), .scan 0,
        .delete 0 [1] (atMs 20), .reput 0 (atMs 30)] =
      some (some { values := [7], payload := [1] }) ∧
    bodyAt 0 [.put 0 [1] attached (atMs 10), .scan 0, .reput 0 (atMs 20)] =
      some (some { values := [7] }) := by
  decide +kernel

end WaveSpan.Rebucket
