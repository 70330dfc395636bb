/-
WaveSpan.Cache.Directory — holder summaries (`internal/cache/directory.go`).

A node adds the keys it stores to a bloom filter and gossips the filter, stamped with the
millisecond of the last key added; a peer keeps the summary with the newest stamp of each
member and resolves holders of a key by them.

The stamp is not the summary's: a key added in the millisecond of an earlier snapshot gives
a different summary of the same stamp, which a peer that has the earlier one drops
(`advertisement_dropped`). Where every key is added at a later reading of the clock than the
snapshots before it carry, equal stamps are equal summaries all along the way from the node
to the peer (`Gossiping`), and the peer resolves the node for every key added before the
latest snapshot (`advertisement_fresh`).
-/
import WaveSpan.Cache.Bloom
import WaveSpan.Collections.Store
import WaveSpan.Lib.Guarded

namespace WaveSpan.Cache

open WaveSpan.Wire WaveSpan.Collections WaveSpan.Guarded

def combinedKey (ns key : Bytes) : Bytes := ns ++ 0 :: key

structure HolderSummaryWire where
  memberID : Bytes
  bloom : Bytes
  generatedAtUnixMs : Int
  deriving DecidableEq

structure PeerSummary where
  bloom : Bloom
  generated : Int

structure Directory where
  self : Bytes
  own : Bloom := {}
  ownGen : Int := 0
  peers : GoMap PeerSummary := ∅

namespace Directory

def addHeldKey (d : Directory) (ns key : Bytes) (nowMs : Int) : Directory :=
  { d with own := d.own.add (combinedKey ns key), ownGen := nowMs }

def ownSummary (d : Directory) : HolderSummaryWire :=
  { memberID := d.self, bloom := d.own.bytes, generatedAtUnixMs := d.ownGen }

/-- Takes over a member's summary unless the one there is as new. -/
def applyPeerSummary (d : Directory) (s : HolderSummaryWire) : Directory :=
  if s.memberID = [] ∨ s.memberID = d.self then d
  else
    let entry : PeerSummary := ⟨bloomFromBytes s.bloom, s.generatedAtUnixMs⟩
    let taken := { d with peers := d.peers.insert s.memberID entry }
    match d.peers[s.memberID]? with
    | some cur => if s.generatedAtUnixMs ≤ cur.generated then d else taken
    | none => taken

def resolveHolders (d : Directory) (ns key : Bytes) : List Bytes :=
  (d.peers.toList.filter fun x => x.2.bloom.maybeContains (combinedKey ns key)).map Prod.fst

variable {d : Directory} {s : HolderSummaryWire} {id : Bytes}

@[simp] theorem applyPeerSummary_self (d : Directory) (s : HolderSummaryWire) :
    (d.applyPeerSummary s).self = d.self := by
  unfold applyPeerSummary
  split
  · rfl
  · simp only
    split
    · split <;> rfl
    · rfl

/-- A summary changes what is known of its own member only. -/
theorem peers_applyPeerSummary_other (hne : s.memberID ≠ id) :
    (d.applyPeerSummary s).peers[id]? = d.peers[id]? := by
  have hcmp : compare s.memberID id ≠ .eq := fun h => hne (Std.LawfulEqCmp.eq_of_compare h)
  unfold applyPeerSummary
  split
  · rfl
  · simp only
    split
    · split
      · rfl
      · exact Std.ExtTreeMap.getElem?_insert.trans (if_neg hcmp)
    · exact Std.ExtTreeMap.getElem?_insert.trans (if_neg hcmp)

/-- What is known of a member after its summary: the summary, or one as new. -/
theorem peers_applyPeerSummary (hid : s.memberID ≠ []) (hself : s.memberID ≠ d.self) :
    (d.applyPeerSummary s).peers[s.memberID]? =
        some ⟨bloomFromBytes s.bloom, s.generatedAtUnixMs⟩ ∨
      ∃ cur, d.peers[s.memberID]? = some cur ∧ s.generatedAtUnixMs ≤ cur.generated ∧
        (d.applyPeerSummary s).peers[s.memberID]? = some cur := by
  unfold applyPeerSummary
  rw [if_neg (by rintro (h | h) <;> contradiction)]
  simp only
  split
  · rename_i cur hcur
    split
    · rename_i hle
      exact .inr ⟨cur, hcur, hle, hcur⟩
    · exact .inl Std.ExtTreeMap.getElem?_insert_self
  · exact .inl Std.ExtTreeMap.getElem?_insert_self

/-- A peer whose filter has the key is among the holders. -/
theorem mem_resolveHolders {ns key : Bytes} {p : PeerSummary} (h : d.peers[id]? = some p)
    (hkey : p.bloom.maybeContains (combinedKey ns key) = true) : id ∈ d.resolveHolders ns key :=
  List.mem_map.mpr ⟨(id, p), List.mem_filter.mpr
    ⟨Std.ExtTreeMap.mem_toList_iff_getElem?_eq_some.mpr h, hkey⟩, rfl⟩

end Directory

/-! ## A node and a peer -/

/-- A node, a peer and the summaries on their way, oldest first; `taken` are all snapshots
taken, `added` the keys added and `advertised` those added before the latest snapshot. -/
structure Gossip where
  node : Directory
  peer : Directory
  wire : List HolderSummaryWire := []
  taken : List HolderSummaryWire := []
  added : List (Bytes × Bytes) := []
  advertised : List (Bytes × Bytes) := []

/-- A key is added, a snapshot taken, the oldest on its way delivered, or the peer hears from
another member. -/
inductive GossipEvent where
  | add (ns key : Bytes) (nowMs : Int)
  | snapshot
  | deliver
  | hear (s : HolderSummaryWire)
  deriving DecidableEq

namespace Gossip

def step (g : Gossip) : GossipEvent → Gossip
  | .add ns key nowMs =>
    { g with node := g.node.addHeldKey ns key nowMs, added := (ns, key) :: g.added }
  | .snapshot =>
    { g with wire := g.wire ++ [g.node.ownSummary], taken := g.node.ownSummary :: g.taken,
             advertised := g.added }
  | .deliver =>
    match g.wire with
    | [] => g
    | s :: rest => { g with peer := g.peer.applyPeerSummary s, wire := rest }
  | .hear s =>
    if s.memberID = g.node.self then g else { g with peer := g.peer.applyPeerSummary s }

/-- A key is added at a later reading of the clock than any snapshot taken before carries. -/
def Later (g : Gossip) : GossipEvent → Prop
  | .add _ _ nowMs => ∀ s ∈ g.taken, s.generatedAtUnixMs < nowMs
  | _ => True

instance (g : Gossip) : ∀ e, Decidable (g.Later e)
  | .add _ _ _ => inferInstanceAs (Decidable (∀ s ∈ g.taken, _))
  | .snapshot => inferInstanceAs (Decidable True)
  | .deliver => inferInstanceAs (Decidable True)
  | .hear _ => inferInstanceAs (Decidable True)

/-- The summaries of the node from the one the peer has to the latest. -/
def pipeline (g : Gossip) : List (Int × Bloom) :=
  (g.peer.peers[g.node.self]?.map fun s => (s.generated, s.bloom)).toList ++
    g.wire.map fun s => (s.generatedAtUnixMs, bloomFromBytes s.bloom)

/-- Stamps rise along the way, equal stamps are equal filters, up to the node's own; the last
filter on the way has the keys advertised. -/
structure Gossiping (member : Bytes) (g : Gossip) : Prop where
  node_self : g.node.self = member
  peer_self : g.peer.self ≠ member
  sender : ∀ s ∈ g.wire, s.memberID = member
  own : ∀ x ∈ g.added, g.node.own.maybeContains (combinedKey x.1 x.2) = true
  ordered : g.pipeline.Pairwise fun a b => a.1 ≤ b.1 ∧ (a.1 = b.1 → a.2 = b.2)
  current : ∀ a ∈ g.pipeline, a.1 ≤ g.node.ownGen ∧ (a.1 = g.node.ownGen → a.2 = g.node.own)
  taken : ∀ a ∈ g.pipeline, ∃ s ∈ g.taken, s.generatedAtUnixMs = a.1
  latest : ∀ x ∈ g.advertised, ∃ a, g.pipeline.getLast? = some a ∧
    a.2.maybeContains (combinedKey x.1 x.2) = true

variable {member : Bytes} {g : Gossip}

theorem Gossiping.add (h : g.Gossiping member) {ns key : Bytes} {nowMs : Int}
    (hlater : g.Later (.add ns key nowMs)) : (g.step (.add ns key nowMs)).Gossiping member where
  node_self := h.node_self
  peer_self := h.peer_self
  sender := h.sender
  own := by
    intro x hx
    rcases List.mem_cons.mp hx with rfl | hx
    · exact Bloom.maybeContains_add _ _
    · exact Bloom.maybeContains_mono (h.own x hx) _
  ordered := h.ordered
  current := by
    -- the stamps on the way are snapshots', so the new one is above them
    intro a ha
    obtain ⟨s, hs, hgen⟩ := h.taken a ha
    have hlt : a.1 < nowMs := hgen ▸ hlater s hs
    exact ⟨hlt.le, fun heq => absurd heq hlt.ne⟩
  taken := h.taken
  latest := h.latest

theorem Gossiping.snapshot (h : g.Gossiping member) : (g.step .snapshot).Gossiping member := by
  have hpipeline : (g.step .snapshot).pipeline = g.pipeline ++ [(g.node.ownGen, g.node.own)] := by
    simp [pipeline, Gossip.step, Directory.ownSummary, Bloom.bloomFromBytes_bytes]
  refine ⟨h.node_self, h.peer_self, ?_, h.own, ?_, ?_, ?_, fun x hx => ?_⟩
  · intro s hs
    rcases List.mem_append.mp hs with hs | hs
    · exact h.sender s hs
    · rw [List.mem_singleton.mp hs]
      exact h.node_self
  · rw [hpipeline, List.pairwise_append]
    refine ⟨h.ordered, List.pairwise_singleton _ _, fun a ha b hb => ?_⟩
    rw [List.mem_singleton.mp hb]
    exact h.current a ha
  · rw [hpipeline]
    intro a ha
    rcases List.mem_append.mp ha with ha | ha
    · exact h.current a ha
    · rw [List.mem_singleton.mp ha]
      exact ⟨le_refl _, fun _ => rfl⟩
  · rw [hpipeline]
    intro a ha
    rcases List.mem_append.mp ha with ha | ha
    · obtain ⟨s, hs, hgen⟩ := h.taken a ha
      exact ⟨s, List.mem_cons_of_mem _ hs, hgen⟩
    · rw [List.mem_singleton.mp ha]
      exact ⟨g.node.ownSummary, List.mem_cons_self, rfl⟩
  · refine ⟨(g.node.ownGen, g.node.own), ?_, h.own x hx⟩
    rw [hpipeline, List.getLast?_append]
    rfl

/-- The peer may skip a summary only for an equal one, so a delivery shortens the way at
most. -/
theorem Gossiping.pipeline_deliver (h : g.Gossiping member) (hid : member ≠ []) :
    (g.step .deliver).pipeline = g.pipeline ∨
      ∃ a b rest, g.pipeline = a :: b :: rest ∧ (g.step .deliver).pipeline = b :: rest := by
  unfold Gossip.step
  simp only
  split
  · exact .inl rfl
  · rename_i s rest hwire
    have hsender : s.memberID = g.node.self := by
      rw [h.node_self]
      exact h.sender s (by simp [hwire])
    have hpeer : s.memberID ≠ g.peer.self := by
      rw [hsender, h.node_self]
      exact h.peer_self.symm
    have hpipe : g.pipeline =
        (g.peer.peers[g.node.self]?.map fun s => (s.generated, s.bloom)).toList ++
        (s.generatedAtUnixMs, bloomFromBytes s.bloom) ::
          rest.map fun s => (s.generatedAtUnixMs, bloomFromBytes s.bloom) := by
      rw [pipeline, hwire, List.map_cons]
    have hordered := h.ordered
    rcases Directory.peers_applyPeerSummary (by rw [hsender, h.node_self]; exact hid) hpeer with
      htaken | ⟨cur, hcur, hle, hkept⟩
    · -- taken over
      rw [hsender] at htaken
      simp only [pipeline, htaken, hwire]
      cases g.peer.peers[g.node.self]? with
      | none => exact .inl rfl
      | some cur => exact .inr ⟨_, _, _, rfl, rfl⟩
    · -- dropped for one of the same stamp
      rw [hsender] at hcur hkept
      rw [hpipe, hcur] at hordered
      obtain ⟨hge, hsame⟩ := (List.pairwise_cons.mp hordered).1 _ List.mem_cons_self
      have hgen : cur.generated = s.generatedAtUnixMs := le_antisymm hge hle
      have hbloom : cur.bloom = bloomFromBytes s.bloom := hsame hgen
      refine .inr ⟨(cur.generated, cur.bloom), (cur.generated, cur.bloom),
        rest.map fun s => (s.generatedAtUnixMs, bloomFromBytes s.bloom), ?_, ?_⟩
      · rw [hpipe, hcur, ← hbloom, ← hgen]
        rfl
      · simp only [pipeline, hkept]
        rfl

/-- A delivered summary is at least as new. -/
theorem Gossiping.deliver (h : g.Gossiping member) (hid : member ≠ []) :
    (g.step .deliver).Gossiping member := by
  have hframe : (g.step .deliver).node = g.node ∧ (g.step .deliver).taken = g.taken ∧
      (g.step .deliver).added = g.added ∧ (g.step .deliver).advertised = g.advertised ∧
      (g.step .deliver).peer.self = g.peer.self ∧ (g.step .deliver).wire ⊆ g.wire := by
    unfold Gossip.step
    simp only
    split
    · exact ⟨rfl, rfl, rfl, rfl, rfl, List.Subset.refl _⟩
    · rename_i s rest hwire
      refine ⟨rfl, rfl, rfl, rfl, by simp, ?_⟩
      rw [hwire]
      exact List.subset_cons_self _ _
  obtain ⟨hnode, htaken, hadded, hadvertised, hself, hwire⟩ := hframe
  have hpipe : (g.step .deliver).pipeline.Sublist g.pipeline ∧
      (g.step .deliver).pipeline.getLast? = g.pipeline.getLast? := by
    rcases h.pipeline_deliver hid with heq | ⟨a, b, rest, hold, hnew⟩
    · rw [heq]
      exact ⟨List.Sublist.refl _, rfl⟩
    · rw [hold, hnew]
      exact ⟨List.sublist_cons_self _ _, rfl⟩
  constructor
  · rw [hnode]
    exact h.node_self
  · rw [hself]
    exact h.peer_self
  · exact fun s hs => h.sender s (hwire hs)
  · rw [hnode, hadded]
    exact h.own
  · exact h.ordered.sublist hpipe.1
  · rw [hnode]
    exact fun a ha => h.current a (hpipe.1.subset ha)
  · rw [htaken]
    exact fun a ha => h.taken a (hpipe.1.subset ha)
  · rw [hadvertised, hpipe.2]
    exact h.latest

/-- Another member's summary. -/
theorem Gossiping.hear (h : g.Gossiping member) (s : HolderSummaryWire) :
    (g.step (.hear s)).Gossiping member := by
  unfold Gossip.step
  simp only
  split
  · exact h
  · rename_i hne
    have hpipe : ({ g with peer := g.peer.applyPeerSummary s } : Gossip).pipeline = g.pipeline := by
      simp only [pipeline, Directory.peers_applyPeerSummary_other hne]
    refine ⟨h.node_self, by simpa using h.peer_self, h.sender, h.own, ?_, ?_, ?_, ?_⟩
    · rw [hpipe]
      exact h.ordered
    · rw [hpipe]
      exact h.current
    · rw [hpipe]
      exact h.taken
    · rw [hpipe]
      exact h.latest

theorem Gossiping.step (h : g.Gossiping member) (hid : member ≠ []) (e : GossipEvent)
    (hlater : g.Later e) : (g.step e).Gossiping member := by
  cases e with
  | add ns key nowMs => exact h.add hlater
  | snapshot => exact h.snapshot
  | deliver => exact h.deliver hid
  | hear s => exact h.hear s

/-- With keys added at later readings of the clock than the snapshots before them carry: when
all snapshots are delivered, the peer resolves the node for every key that was added before
the latest of them. -/
theorem advertisement_fresh (member : Bytes) (peer : Directory) (es : List GossipEvent)
    (hid : member ≠ []) (hself : peer.self ≠ member) (hnew : peer.peers[member]? = none)
    (hlater : Along step Later ⟨{ self := member }, peer, [], [], [], []⟩ es) :
    let g := es.foldl step ⟨{ self := member }, peer, [], [], [], []⟩
    g.wire = [] → ∀ x ∈ g.advertised, member ∈ g.peer.resolveHolders x.1 x.2 := by
  intro g hwire x hx
  have hpipe : (⟨{ self := member }, peer, [], [], [], []⟩ : Gossip).pipeline = [] := by
    simp [pipeline, hnew]
  have hstart : (⟨{ self := member }, peer, [], [], [], []⟩ : Gossip).Gossiping member :=
    ⟨rfl, hself, by simp, by simp, by simp [hpipe], by simp [hpipe], by simp [hpipe], by simp⟩
  have hgossip : g.Gossiping member :=
    hlater.invariant (fun g e hg hok => hg.step hid e hok) hstart
  obtain ⟨a, ha, hkey⟩ := hgossip.latest x hx
  rw [pipeline, hwire, List.map_nil, List.append_nil, hgossip.node_self] at ha
  cases hpeer : g.peer.peers[member]? with
  | none => simp [hpeer] at ha
  | some p =>
    simp [hpeer] at ha
    rw [← ha] at hkey
    exact Directory.mem_resolveHolders hpeer hkey

/-- Two keys, each added in a millisecond of its own and advertised. -/
theorem advertisement_fresh_two :
    let g := [GossipEvent.add [0x6e] [0x61] 1000, .snapshot, .deliver, .add [0x6e] [0x62] 1001,
      .snapshot, .deliver].foldl step ⟨{ self := [1] }, { self := [2] }, [], [], [], []⟩
    ∀ x ∈ g.advertised, [1] ∈ g.peer.resolveHolders x.1 x.2 :=
  advertisement_fresh [1] { self := [2] } [GossipEvent.add [0x6e] [0x61] 1000, .snapshot, .deliver,
    .add [0x6e] [0x62] 1001, .snapshot, .deliver] (by decide) (by decide) (by simp)
    (by decide +kernel) rfl

/-- The second key is added in the millisecond of the first snapshot: the peer has been sent
both snapshots and does not resolve the node for the key. -/
theorem advertisement_dropped :
    let g := [GossipEvent.add [0x6e] [0x61] 1000, .snapshot, .deliver, .add [0x6e] [0x62] 1000,
      .snapshot, .deliver].foldl step ⟨{ self := [1] }, { self := [2] }, [], [], [], []⟩
    g.wire = [] ∧ ([0x6e], [0x62]) ∈ g.advertised ∧ g.peer.resolveHolders [0x6e] [0x62] = [] := by
  decide +kernel

end Gossip

end WaveSpan.Cache
