/-
WaveSpan.Tunables.Converge — overrides across a cluster
(`internal/tunables/overrides.go`, `cmd/wavespan-node/main.go`).

Every node sets overrides under its own id, advertises its table, takes over what others
advertise, and may restart from its snapshot. What a node advertised may reach any node at any
later time, any number of times, or never.

While no counter goes round (`wrapped`), an id is given each version once, since the table of the
node that issued an override has one at least as high under the key, on disk as well
(`Agreed.unique`). Stamps then tell overrides apart, and two nodes that were told the same hold
the same (`overrides_converge`). A clock before 1970 gives a version near the counter's end,
and the next one starts again at zero (`version_issued_twice`).
-/
import WaveSpan.Tunables.Overrides
import Mathlib.Data.List.Nodup

namespace WaveSpan.Tunables

open WaveSpan.Wire WaveSpan.Collections

section
variable {V : Type} (params : Bytes → Option (Param V))

/-- The nodes by their ids, the gossip sent, and the overrides issued. -/
structure Cluster (V : Type) where
  nodes : Bytes → Tracked V := fun _ => {}
  sent : List (List Override) := []
  issued : List Override := []

inductive ClusterEvent where
  | set (node key value : Bytes) (isLocal : Bool) (now : Int64)
  | gossip (node : Bytes)
  /-- A node receives the `i`-th set that was sent. -/
  | deliver (node : Bytes) (i : Nat)
  | restart (node : Bytes)

namespace Cluster

def onNode (s : Cluster V) (n : Bytes) (e : Event) : Cluster V :=
  { s with nodes := Function.update s.nodes n ((s.nodes n).step params n e) }

def step (s : Cluster V) : ClusterEvent → Cluster V
  | .set n key value isLocal now =>
    { s.onNode params n (.set key value isLocal now) with
      issued := s.issued ++
        if ((s.nodes n).node.set params n key value isLocal now).1.isOk then
          [{ key, value, version := (s.nodes n).node.nextVersion now, origin := n, isLocal }]
        else [] }
  | .gossip n => { s with sent := s.sent ++ [(s.nodes n).node.gossipSet] }
  | .deliver n i => s.onNode params n (.remote (s.sent[i]?.getD []))
  | .restart n => s.onNode params n .restart

def run (es : List ClusterEvent) : Cluster V := es.foldl (step params) {}

def NoWrap (s : Cluster V) : Prop := ∀ n, (s.nodes n).wrapped = false

end Cluster

structure IsCluster (k : Bytes) (d : Override) : Prop where
  key : d.key = k
  scope : d.isLocal = false
  valid : (valueOf params d).isSome = true

/-- The node has the highest, by version and origin, of the valid cluster overrides of a key it was
told, and its value in the registry; or it was told none. -/
def HasMax (t : Tracked V) (k : Bytes) : Prop :=
  match t.node.table[k]? with
  | none => (∀ d ∈ t.seen, ¬ IsCluster params k d) ∧ t.node.cur[k]? = none
  | some c =>
    c ∈ t.seen ∧ IsCluster params k c ∧
    (∀ d ∈ t.seen, IsCluster params k d → newer d c = false) ∧
    t.node.cur[k]? = (valueOf params c).map (·, c.version)

variable {params} {s : Cluster V}

/-- What every event keeps of the cluster. -/
structure Cluster.Agreed (params : Bytes → Option (Param V)) (s : Cluster V) : Prop where
  kept : ∀ n, Kept params (s.nodes n)
  seen : ∀ n, ∀ d ∈ (s.nodes n).seen, d ∈ s.issued
  sent : ∀ ds ∈ s.sent, ∀ d ∈ ds, d ∈ s.issued ∧ d.isLocal = false
  issuer : s.NoWrap → ∀ d ∈ s.issued,
    ∃ c, (s.nodes d.origin).node.table[d.key]? = some c ∧ d.version ≤ c.version
  unique : s.NoWrap → (s.issued.map fun d => (d.origin, d.version)).Nodup

namespace Cluster

theorem noWrap_of_onNode {n : Bytes} {e : Event} (h : (s.onNode params n e).NoWrap) :
    s.NoWrap := by
  intro m
  have hm := h m
  simp only [onNode, Function.update_apply] at hm
  split at hm
  · rename_i heq
    exact heq ▸ wrapped_of_step hm
  · exact hm

/-- A node's event: its entries do not go down, and the other nodes stay. -/
theorem grown_onNode {n : Bytes} {e : Event} (h : Kept params (s.nodes n))
    (hw : (s.onNode params n e).NoWrap) (m : Bytes) :
    Grown (s.nodes m).node ((s.onNode params n e).nodes m).node := by
  have hn := hw n
  simp only [onNode, Function.update_self] at hn
  simp only [onNode, Function.update_apply]
  split
  · rename_i heq
    exact heq ▸ h.grown hn
  · exact .refl _

theorem kept_onNode (h : ∀ n, Kept params (s.nodes n)) (n : Bytes) (e : Event) (m : Bytes) :
    Kept params ((s.onNode params n e).nodes m) := by
  simp only [onNode, Function.update_apply]
  split
  · exact (h n).step e
  · exact h m

/-- The issuers' tables stay at or above what was issued. -/
theorem Agreed.issuer_onNode (h : Agreed params s) {n : Bytes} {e : Event}
    (hw : (s.onNode params n e).NoWrap) {d : Override} (hd : d ∈ s.issued) :
    ∃ c, ((s.onNode params n e).nodes d.origin).node.table[d.key]? = some c ∧
      d.version ≤ c.version := by
  obtain ⟨c, hc, hle⟩ := h.issuer (noWrap_of_onNode hw) d hd
  obtain ⟨c', hc', hmono⟩ := grown_onNode (h.kept n) hw d.origin _ _ hc
  exact ⟨c', hc', UInt64.le_trans hle (version_le_of_not_newer (hmono (newer_self c)))⟩

/-- An event of a node that tells it only what was issued. -/
theorem Agreed.onNode (h : Agreed params s) {n : Bytes} {e : Event}
    (hseen : ∀ d ∈ ((s.nodes n).step params n e).seen, d ∈ s.issued) :
    Agreed params (s.onNode params n e) where
  kept := kept_onNode h.kept n e
  seen m d hd := by
    simp only [Cluster.onNode, Function.update_apply] at hd
    split at hd
    · exact hseen d hd
    · exact h.seen m d hd
  sent := h.sent
  issuer hw _ hd := h.issuer_onNode hw hd
  unique hw := h.unique (noWrap_of_onNode hw)

theorem Agreed.set (h : Agreed params s) (n key value : Bytes) (isLocal : Bool) (now : Int64) :
    Agreed params (s.step params (.set n key value isLocal now)) := by
  rcases (s.nodes n).node.set_cases params n key value isLocal now with
    ⟨hfail, -⟩ | ⟨hkey, o₁, static, hi, heq⟩
  · have hon := h.onNode (n := n) (e := .set key value isLocal now) fun d hd =>
      h.seen n d (by simpa [Tracked.step, hfail] using hd)
    have hsame : s.step params (.set n key value isLocal now) =
        s.onNode params n (.set key value isLocal now) := by
      simp [Cluster.step, Cluster.onNode, hfail]
    exact hsame ▸ hon
  · -- The new version is above the counter, which is at or above all this node has issued.
    have hok : ((s.nodes n).node.set params n key value isLocal now).1.isOk = true := by
      rw [heq]
      rfl
    have hissued : (s.step params (.set n key value isLocal now)).issued = s.issued ++
        [{ key, value, version := (s.nodes n).node.nextVersion now, origin := n, isLocal }] :=
      congrArg (s.issued ++ ·) (if_pos hok)
    refine ⟨kept_onNode h.kept n _, fun m d hd => ?_, fun ds hds d hd => ?_, fun hw d hd => ?_,
      fun hw => ?_⟩
    · rw [hissued, List.mem_append]
      simp only [Cluster.step, Cluster.onNode, Function.update_apply] at hd
      split at hd
      · rw [Tracked.step, if_pos hok, List.mem_append] at hd
        exact hd.imp_left (h.seen n d)
      · exact .inl (h.seen m d hd)
    · exact ⟨hissued ▸ List.mem_append_left _ (h.sent ds hds d hd).1, (h.sent ds hds d hd).2⟩
    · rw [hissued, List.mem_append, List.mem_singleton] at hd
      rcases hd with hd | rfl
      · exact h.issuer_onNode hw hd
      · obtain ⟨v, -, rfl⟩ := Overrides.install_iff.mp hi
        refine ⟨_, ?_, UInt64.le_refl _⟩
        simp only [Cluster.step, Cluster.onNode, Function.update_self, Tracked.step, heq]
        exact Std.ExtTreeMap.getElem?_insert_self
    · have hold := noWrap_of_onNode (e := .set key value isLocal now) hw
      have hn : ((s.nodes n).step params n (.set key value isLocal now)).wrapped = false := by
        simpa [Cluster.step, Cluster.onNode] using hw n
      rw [hissued, List.map_append, List.map_singleton]
      refine List.Nodup.append (h.unique hold) (List.nodup_singleton _) ?_
      rw [List.disjoint_singleton, List.mem_map]
      rintro ⟨d, hd, hstamp⟩
      obtain ⟨horigin, hversion⟩ := Prod.mk.inj hstamp
      obtain ⟨c, hc, hle⟩ := h.issuer hold d hd
      rw [horigin] at hc
      have hbound := UInt64.le_trans hle ((h.kept n).bounded (hold n) _ c hc)
      rw [hversion] at hbound
      exact UInt64.not_lt.mpr hbound (lt_nextVersion hkey hn)

theorem mem_gossipSet {o : Overrides V} {d : Override} (h : d ∈ o.gossipSet) :
    (∃ k : Bytes, o.table[k]? = some d) ∧ d.isLocal = false := by
  rw [Overrides.gossipSet, List.mem_filter, List.mem_map] at h
  obtain ⟨⟨⟨k, e⟩, he, rfl⟩, hscope⟩ := h
  exact ⟨⟨k, Std.ExtTreeMap.mem_toList_iff_getElem?_eq_some.mp he⟩, by simpa using hscope⟩

/-- One event of the cluster. -/
theorem Agreed.step (h : Agreed params s) (e : ClusterEvent) : Agreed params (s.step params e) := by
  cases e with
  | set n key value isLocal now => exact h.set n key value isLocal now
  | gossip n =>
    refine ⟨h.kept, h.seen, fun ds hds d hd => ?_, h.issuer, h.unique⟩
    rcases List.mem_append.mp hds with hold | hnew
    · exact h.sent ds hold d hd
    · rw [List.mem_singleton.mp hnew] at hd
      obtain ⟨⟨k, hk⟩, hscope⟩ := mem_gossipSet hd
      exact ⟨h.seen n d ((h.kept n).told k d hk), hscope⟩
  | deliver n i =>
    refine h.onNode fun d hd => ?_
    rcases List.mem_append.mp hd with hold | hnew
    · exact h.seen n d hold
    · -- What was sent has no pins, so the wire loses nothing of it.
      obtain ⟨e, he, rfl⟩ := List.mem_map.mp hnew
      cases hi : s.sent[i]? with
      | none => simp [hi] at he
      | some ds =>
        rw [hi, Option.getD_some] at he
        obtain ⟨hissued, hscope⟩ := h.sent ds (List.mem_of_getElem? hi) e he
        have : offWire e = e := by rw [offWire, ← hscope]
        exact this ▸ hissued
  | restart n => exact h.onNode fun d hd => h.seen n d hd

/-- Whole runs of the cluster. -/
theorem agreed_run (es : List ClusterEvent) : Agreed params (run params es) := by
  have hrun : ∀ (es : List ClusterEvent) (s : Cluster V), Agreed params s →
      Agreed params (es.foldl (step params) s) := by
    intro es
    induction es with
    | nil => exact fun s h => h
    | cons e es ih => exact fun s h => ih _ (h.step e)
  refine hrun es {} ⟨fun _ => .init, ?_, ?_, ?_, ?_⟩ <;> simp

end Cluster

/-- An unpinned node that dropped no valid override of the key has the highest. -/
theorem Kept.hasMax {t : Tracked V} (h : Kept params t) (hw : t.wrapped = false) {k : Bytes}
    (hpin : t.node.pinned k = false) (hdrop : ∀ d ∈ t.dropped, ¬ IsCluster params k d) :
    HasMax params t k := by
  have htop : ∀ d ∈ t.seen, IsCluster params k d →
      ∃ c, t.node.table[k]? = some c ∧ newer d c = false := fun d hd hc =>
    hc.key ▸ h.top hw d hd fun hdropped => hdrop d hdropped hc
  unfold HasMax
  split
  · rename_i hnone
    refine ⟨fun d hd hc => ?_, by simp [h.sound.cur, hnone]⟩
    obtain ⟨c, hsome, -⟩ := htop d hd hc
    simp [hnone] at hsome
  · rename_i c hsome
    obtain ⟨hkey, hvalid⟩ := h.sound.entry hsome
    refine ⟨h.told k c hsome, ⟨hkey, ?_, hvalid⟩, fun d hd hc => ?_, by simp [h.sound.cur, hsome]⟩
    · simpa [Overrides.pinned, hsome] using hpin
    · obtain ⟨c', hsome', hle⟩ := htop d hd hc
      exact Option.some.inj (hsome.symm.trans hsome') ▸ hle

/-- **Runtime overrides converge.** While no counter goes round no id issues a version twice;
and two nodes without a pin that were told the same valid cluster overrides of a key, and dropped
none of them for an earlier pin, hold the same one: the highest by version and origin, with its
value in the registry. -/
theorem overrides_converge (es : List ClusterEvent) (hwrap : (Cluster.run params es).NoWrap) :
    ((Cluster.run params es).issued.map fun d => (d.origin, d.version)).Nodup ∧
    ∀ a b k,
      (∀ n ∈ [a, b], ((Cluster.run params es).nodes n).node.pinned k = false ∧
        ∀ d ∈ ((Cluster.run params es).nodes n).dropped, ¬ IsCluster params k d) →
      (∀ d, IsCluster params k d → (d ∈ ((Cluster.run params es).nodes a).seen ↔
        d ∈ ((Cluster.run params es).nodes b).seen)) →
      ((Cluster.run params es).nodes a).node.table[k]? =
        ((Cluster.run params es).nodes b).node.table[k]? ∧
      ∀ n ∈ [a, b], HasMax params ((Cluster.run params es).nodes n) k := by
  have hagreed : Cluster.Agreed params (Cluster.run params es) := Cluster.agreed_run es
  generalize Cluster.run params es = s at *
  refine ⟨hagreed.unique hwrap, fun a b k hplain hsame => ?_⟩
  have hmax : ∀ n ∈ [a, b], HasMax params (s.nodes n) k := fun n hn =>
    (hagreed.kept n).hasMax (hwrap n) (hplain n hn).1 (hplain n hn).2
  refine ⟨?_, hmax⟩
  have ha := hmax a (by simp)
  have hb := hmax b (by simp)
  unfold HasMax at ha hb
  cases hta : (s.nodes a).node.table[k]? with
  | none =>
    cases htb : (s.nodes b).node.table[k]? with
    | none => rfl
    | some c =>
      rw [hta] at ha
      rw [htb] at hb
      exact absurd hb.2.1 (ha.1 c ((hsame c hb.2.1).mpr hb.1))
  | some c =>
    cases htb : (s.nodes b).node.table[k]? with
    | none =>
      rw [hta] at ha
      rw [htb] at hb
      exact absurd ha.2.1 (hb.1 c ((hsame c ha.2.1).mp ha.1))
    | some c' =>
      rw [hta] at ha
      rw [htb] at hb
      -- Neither is newer than the other, and a stamp is issued once.
      have hstamp := stamp_eq_of_not_newer
        (hb.2.2.1 c ((hsame c ha.2.1).mp ha.1) ha.2.1)
        (ha.2.2.1 c' ((hsame c' hb.2.1).mpr hb.1) hb.2.1)
      have heq := List.inj_on_of_nodup_map (hagreed.unique hwrap)
        (hagreed.seen a c ha.1) (hagreed.seen b c' hb.1)
        (Prod.ext hstamp.2 hstamp.1)
      rw [heq]

/-- Two nodes that set one key and tell each other. -/
def twoNodes : List ClusterEvent :=
  [.set [1] [9] [1] false 7, .gossip [1], .deliver [2] 0, .set [2] [9] [2] false 3, .gossip [2],
    .deliver [1] 1, .restart [1]]

theorem noWrap_twoNodes : (Cluster.run texts twoNodes).NoWrap := by
  intro n
  by_cases h1 : n = [1]
  · subst h1
    decide +kernel
  · by_cases h2 : n = [2]
    · subst h2
      decide +kernel
    · simp [twoNodes, Cluster.run, Cluster.step, Cluster.onNode, h1, h2]

/-- The second's clock is behind; its override carries the higher version none the less, and both
end with it. -/
theorem overrides_converge_two :
    let s := Cluster.run texts twoNodes
    (s.issued.map fun d => (d.origin, d.version)) = [([1], 7), ([2], 8)] ∧
    (s.issued.map fun d => (d.origin, d.version)).Nodup ∧
    (s.nodes [1]).node.table[([9] : Bytes)]? = (s.nodes [2]).node.table[([9] : Bytes)]? ∧
    HasMax texts (s.nodes [1]) [9] := by
  obtain ⟨hunique, hsame⟩ := overrides_converge twoNodes noWrap_twoNodes
  have hplain : ∀ n ∈ [[1], [2]], ((Cluster.run texts twoNodes).nodes n).node.pinned [9] = false ∧
      ((Cluster.run texts twoNodes).nodes n).dropped = [] := by decide +kernel
  have hseen : ((Cluster.run texts twoNodes).nodes [1]).seen =
      ((Cluster.run texts twoNodes).nodes [2]).seen := by decide +kernel
  obtain ⟨htable, hmax⟩ := hsame [1] [2] [9]
    (fun n hn => ⟨(hplain n hn).1, by simp [(hplain n hn).2]⟩) (fun d _ => by rw [hseen])
  exact ⟨by decide +kernel, hunique, htable, hmax [1] (by simp)⟩

/-- A clock one millisecond before 1970, then a sound one, then the first again: the highest version
is issued twice, and in between the node holds version 0 having set a higher one. -/
theorem version_issued_twice :
    let es : List ClusterEvent := [.set [1] [9] [1] false (-1), .set [1] [9] [2] false 5,
      .set [1] [9] [3] false (-1)]
    ((Cluster.run texts es).issued.map fun d => (d.origin, d.version)) =
      [([1], 0xffffffffffffffff), ([1], 0), ([1], 0xffffffffffffffff)] ∧
    (((Cluster.run texts (es.take 2)).nodes [1]).node.gossipSet.map (·.version)) = [0] := by
  decide +kernel

end

end WaveSpan.Tunables
