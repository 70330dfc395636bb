/-
WaveSpan.Tunables.Overrides — runtime overrides of a node's tunables
(`internal/tunables/overrides.go`).

An override set on a node gets a version above the node's counter; the counter follows the wall
clock and the versions of the overrides the node takes over. Cluster overrides are gossiped and
the newer one wins, by version and then by origin. A node-local pin is not gossiped, and a
cluster override of the same key that arrives meanwhile is dropped.

`Tracked` is a node with what it was told: all it has set or received, what of that it dropped
for a pin or for its value, and whether its counter went round. `Kept` is what every event
preserves: the table holds an override that nothing else it was told is newer than, its value is
in the registry, and the snapshot on disk is the table.

A dropped override leaves the counter where it was, so the next one an operator sets may be older
than it (`pinned_then_older`). Where none was dropped and the counter did not go round,
`later_override_wins`.
-/
import WaveSpan.Collections.Store
import WaveSpan.Lib.Rows

namespace WaveSpan.Tunables

open WaveSpan.Wire WaveSpan.Collections

/-! ## Overrides -/

structure Override where
  key : Bytes
  value : Bytes
  version : UInt64
  origin : Bytes
  isLocal : Bool := false
  deriving DecidableEq, Repr

/-- The higher version wins, then the higher origin. -/
def newer (a b : Override) : Bool :=
  if a.version ≠ b.version then b.version < a.version else compare a.origin b.origin = .gt

theorem version_le_of_not_newer {a b : Override} (h : newer a b = false) :
    a.version ≤ b.version := by
  unfold newer at h
  split at h
  · exact UInt64.not_lt.mp (of_decide_eq_false h)
  · rename_i heq
    exact not_not.mp heq ▸ UInt64.le_refl _

theorem not_newer_of_lt {a b : Override} (h : a.version < b.version) : newer a b = false := by
  rw [newer, if_pos (UInt64.ne_of_lt h)]
  exact decide_eq_false (UInt64.lt_asymm h)

theorem newer_self (a : Override) : newer a a = false := by
  simp [newer, Std.ReflCmp.compare_self]

/-- What is not newer than an override is not newer than one that replaces it. -/
theorem not_newer_of_newer {a b c : Override} (hab : newer a b = false) (hcb : newer c b = true) :
    newer a c = false := by
  have hle := version_le_of_not_newer hab
  unfold newer at *
  by_cases hc : c.version = b.version
  · rw [if_neg (not_not.mpr hc), decide_eq_true_iff] at hcb
    by_cases ha : a.version = b.version
    · rw [if_neg (not_not.mpr ha), decide_eq_false_iff_not, ← Ordering.isLE_iff_ne_gt] at hab
      rw [if_neg (not_not.mpr (ha.trans hc.symm)), decide_eq_false_iff_not,
        ← Ordering.isLE_iff_ne_gt]
      refine Std.TransCmp.isLE_trans hab ?_
      rw [Std.OrientedCmp.gt_iff_lt.mp hcb]
      rfl
    · rw [if_pos (hc ▸ ha), decide_eq_false_iff_not, hc]
      exact UInt64.not_lt.mpr hle
  · rw [if_pos hc, decide_eq_true_iff] at hcb
    have hlt : a.version < c.version := UInt64.lt_of_le_of_lt hle hcb
    rw [if_pos (UInt64.ne_of_lt hlt)]
    exact decide_eq_false (UInt64.lt_asymm hlt)

/-- Two overrides neither of which is newer are of one version and origin. -/
theorem stamp_eq_of_not_newer {a b : Override} (hab : newer a b = false) (hba : newer b a = false) :
    a.version = b.version ∧ a.origin = b.origin := by
  have hver := UInt64.le_antisymm (version_le_of_not_newer hab) (version_le_of_not_newer hba)
  refine ⟨hver, ?_⟩
  rw [newer, if_neg (not_not.mpr hver), decide_eq_false_iff_not] at hab
  rw [newer, if_neg (not_not.mpr hver.symm), decide_eq_false_iff_not] at hba
  cases hcmp : compare a.origin b.origin with
  | lt => exact absurd (Std.OrientedCmp.gt_iff_lt.mpr hcmp) hba
  | eq => exact Std.LawfulEqCmp.eq_of_compare hcmp
  | gt => exact absurd hcmp hab

/-! ## A node -/

/-- A declared tunable: how its text is read, and whether a change waits for a restart. -/
structure Param (V : Type) where
  parse : Bytes → Option V
  isStatic : Bool := false

/-- A node's overrides: the registry's runtime values, the table, the counter of versions, and
what was last written to disk. -/
structure Overrides (V : Type) where
  cur : GoMap (V × UInt64) := ∅
  table : GoMap Override := ∅
  lastVer : UInt64 := 0
  saved : List Override := []

inductive SetError where
  | unknownKey (key : Bytes)
  | invalid (key : Bytes)
  deriving DecidableEq, Repr

section
variable {V : Type} (params : Bytes → Option (Param V))

/-- The value an override gives its tunable; none for an unknown key or a text it cannot read. -/
def valueOf (d : Override) : Option V := (params d.key).bind (·.parse d.value)

namespace Overrides

/-- The registry takes the value and the table the override. -/
def install (o : Overrides V) (d : Override) : Option (Overrides V) :=
  (valueOf params d).map fun v =>
    { o with cur := o.cur.insert d.key (v, d.version), table := o.table.insert d.key d }

def persistLocked (o : Overrides V) : Overrides V := { o with saved := o.table.toList.map (·.2) }

def nextVersion (o : Overrides V) (now : Int64) : UInt64 :=
  if now.toUInt64 ≤ o.lastVer then o.lastVer + 1 else now.toUInt64

/-- `Set`: the version and whether the tunable waits for a restart. -/
def set (o : Overrides V) (origin key value : Bytes) (isLocal : Bool) (now : Int64) :
    Except SetError (UInt64 × Bool) × Overrides V :=
  match params key with
  | none => (.error (.unknownKey key), o)
  | some p =>
    let v := o.nextVersion now
    let o := { o with lastVer := v }
    match o.install params { key, value, version := v, origin, isLocal } with
    | none => (.error (.invalid key), o)
    | some o => (.ok (v, p.isStatic), o.persistLocked)

/-- What is advertised: the table without the pins, by key. -/
def gossipSet (o : Overrides V) : List Override := (o.table.toList.map (·.2)).filter (!·.isLocal)

/-- The override is taken over, if the node can read it. -/
def adopt (o : Overrides V) (d : Override) : Option (Overrides V) :=
  (o.install params d).map fun o =>
    { o with lastVer := if o.lastVer < d.version then d.version else o.lastVer }

def pinned (o : Overrides V) (key : Bytes) : Bool := (o.table[key]?).any (·.isLocal)

/-- One delta of `ApplyRemote`; none if it is skipped. -/
def applyDelta (o : Overrides V) (d : Override) : Option (Overrides V) :=
  if o.pinned d.key ∨ (o.table[d.key]?).any (fun c => !newer d c) then none else o.adopt params d

def applyRemote (o : Overrides V) (deltas : List Override) : List Override × Overrides V :=
  let (changed, o) := deltas.foldl (fun (changed, o) d =>
    match o.applyDelta params d with
    | some o => (changed ++ [d], o)
    | none => (changed, o)) ([], o)
  (changed, if changed = [] then o else o.persistLocked)

def loadSnapshot (o : Overrides V) (snap : List Override) : Overrides V :=
  snap.foldl (fun o d => (o.adopt params d).getD o) o

/-- A restart: what is in memory is lost and the snapshot is loaded. -/
def restart (o : Overrides V) : Overrides V := loadSnapshot params { saved := o.saved } o.saved

end Overrides

/-! ## What a node was told -/

inductive Event where
  | set (key value : Bytes) (isLocal : Bool) (now : Int64)
  /-- Deltas off the wire, which carries no scope. -/
  | remote (deltas : List Override)
  | restart

structure Tracked (V : Type) where
  node : Overrides V := {}
  /-- All it has set or received. -/
  seen : List Override := []
  /-- What it received and dropped: for a pin, or since it cannot read it. -/
  dropped : List Override := []
  /-- A version was drawn with the counter at its end. -/
  wrapped : Bool := false

def offWire (d : Override) : Override := { d with isLocal := false }

def Tracked.step (origin : Bytes) (t : Tracked V) : Event → Tracked V
  | .set key value isLocal now =>
    let v := t.node.nextVersion now
    let r := t.node.set params origin key value isLocal now
    { t with
      node := r.2
      seen := if r.1.isOk then t.seen ++ [{ key, value, version := v, origin, isLocal }] else t.seen
      wrapped := t.wrapped || decide ((params key).isSome ∧ v ≤ t.node.lastVer) }
  | .remote deltas =>
    let deltas := deltas.map offWire
    { t with
      node := (t.node.applyRemote params deltas).2
      seen := t.seen ++ deltas
      dropped := t.dropped ++
        deltas.filter fun d => t.node.pinned d.key || (valueOf params d).isNone }
  | .restart => { t with node := t.node.restart params }

def Tracked.run (origin : Bytes) (t : Tracked V) (es : List Event) : Tracked V :=
  es.foldl (Tracked.step params origin) t

/-! ## What an event keeps -/

variable {params}

/-- The table's entries stand under their keys and are read, and the registry has their values. -/
structure Overrides.Sound (params : Bytes → Option (Param V)) (o : Overrides V) : Prop where
  entry : ∀ {k : Bytes} {d}, o.table[k]? = some d →
    d.key = k ∧ (valueOf params d).isSome = true
  cur : ∀ k : Bytes, o.cur[k]? = (o.table[k]?).bind fun d => (valueOf params d).map (·, d.version)

/-- The counter is at or above the table's versions. -/
def Overrides.Bounded (o : Overrides V) : Prop :=
  ∀ (k : Bytes) (d), o.table[k]? = some d → d.version ≤ o.lastVer

/-- No key is lost, and what is not newer than an entry is not newer than the one that stands in
its place. -/
def Grown (o o' : Overrides V) : Prop :=
  ∀ (k : Bytes) (c), o.table[k]? = some c →
    ∃ c', o'.table[k]? = some c' ∧ ∀ {d}, newer d c = false → newer d c' = false

theorem Grown.refl (o : Overrides V) : Grown o o := fun _ _ h => ⟨_, h, id⟩

theorem Grown.trans {o o' o'' : Overrides V} (h : Grown o o') (h' : Grown o' o'') :
    Grown o o'' := fun _ _ hk =>
  have ⟨_, hk', hle⟩ := h _ _ hk
  have ⟨c'', hk'', hle'⟩ := h' _ _ hk'
  ⟨c'', hk'', fun hd => hle' (hle hd)⟩

namespace Overrides

variable {o o' : Overrides V} {d : Override}

/-- What is installed is valid. -/
theorem install_iff : o.install params d = some o' ↔ ∃ v, valueOf params d = some v ∧
    o' = { o with cur := o.cur.insert d.key (v, d.version), table := o.table.insert d.key d } := by
  simp only [install, Option.map_eq_some_iff]
  exact exists_congr fun v => and_congr_right fun _ => eq_comm

theorem Sound.install (h : Sound params o) (hi : o.install params d = some o') (ver : UInt64) :
    Sound params { o' with lastVer := ver } := by
  obtain ⟨v, hv, rfl⟩ := install_iff.mp hi
  constructor
  · intro k e he
    rcases Rows.getElem?_insert_cases he with hold | ⟨rfl, rfl⟩
    · exact h.entry hold
    · exact ⟨rfl, by simp [hv]⟩
  · intro k
    by_cases hk : d.key = k
    · subst hk
      simp [hv]
    · simp only [Rows.getElem?_insert_of_ne hk, h.cur k]

theorem Bounded.install (h : o.Bounded) (hi : o.install params d = some o') {ver : UInt64}
    (hle : o.lastVer ≤ ver) (hd : d.version ≤ ver) : ({ o' with lastVer := ver }).Bounded := by
  obtain ⟨v, hv, rfl⟩ := install_iff.mp hi
  intro k e he
  rcases Rows.getElem?_insert_cases he with hold | ⟨rfl, rfl⟩
  · exact UInt64.le_trans (h k e hold) hle
  · exact hd

theorem adopt_iff : o.adopt params d = some o' ↔ ∃ o₁, o.install params d = some o₁ ∧
    o' = { o₁ with lastVer := if o.lastVer < d.version then d.version else o.lastVer } := by
  simp only [adopt, Option.map_eq_some_iff]
  refine exists_congr fun o₁ => and_congr_right fun hi => ?_
  obtain ⟨v, -, rfl⟩ := install_iff.mp hi
  exact eq_comm

theorem Sound.adopt (h : Sound params o) (ha : o.adopt params d = some o') : Sound params o' := by
  obtain ⟨o₁, hi, rfl⟩ := adopt_iff.mp ha
  exact h.install hi _

theorem Bounded.adopt (h : o.Bounded) (ha : o.adopt params d = some o') : o'.Bounded := by
  obtain ⟨o₁, hi, rfl⟩ := adopt_iff.mp ha
  refine h.install hi ?_ ?_
  · split
    · exact UInt64.le_of_lt ‹_›
    · exact UInt64.le_refl _
  · split
    · exact UInt64.le_refl _
    · exact UInt64.not_lt.mp ‹_›

theorem adopt_table (ha : o.adopt params d = some o') : o'.table = o.table.insert d.key d := by
  obtain ⟨o₁, hi, rfl⟩ := adopt_iff.mp ha
  obtain ⟨v, -, rfl⟩ := install_iff.mp hi
  rfl

/-- What deltas off the wire do to a node. -/
structure Merged (params : Bytes → Option (Param V)) (o : Overrides V) (ds : List Override)
    (o' : Overrides V) : Prop where
  sound : Sound params o → Sound params o'
  bounded : o.Bounded → o'.Bounded
  grown : Grown o o'
  reached : ∀ d ∈ ds, o.pinned d.key = false → (valueOf params d).isSome = true →
    ∃ c, o'.table[d.key]? = some c ∧ newer d c = false
  told : ∀ {k : Bytes} {c}, o'.table[k]? = some c → o.table[k]? = some c ∨ c ∈ ds
  pins : ∀ k, o'.pinned k = o.pinned k

variable (params) in
/-- One delta: it is dropped, not newer, or taken over. -/
theorem merged_delta (o : Overrides V) (hd : d.isLocal = false) :
    Merged params o [d] ((o.applyDelta params d).getD o) := by
  have hstay (hreach : o.pinned d.key = false → (valueOf params d).isSome = true →
      ∃ c, o.table[d.key]? = some c ∧ newer d c = false) : Merged params o [d] o :=
    ⟨id, id, .refl o, by simpa using hreach, .inl, fun _ => rfl⟩
  unfold applyDelta
  split
  · rename_i hskip
    refine hstay fun hpin hval => ?_
    rw [hpin] at hskip
    cases hcur : o.table[d.key]? with
    | none => simp [hcur] at hskip
    | some c => exact ⟨c, rfl, by simpa [hcur] using hskip⟩
  · rename_i hkeep
    rw [not_or, Bool.not_eq_true] at hkeep
    obtain ⟨hpin, hnewer⟩ := hkeep
    cases ha : o.adopt params d with
    | none =>
      refine hstay fun _ hval => ?_
      obtain ⟨v, hv⟩ := Option.isSome_iff_exists.mp hval
      simp [adopt, install, hv] at ha
    | some o' =>
      have htable := adopt_table ha
      refine ⟨fun h => h.adopt ha, fun h => h.adopt ha, fun k c hk => ?_, ?_,
        fun {k c} hk => ?_, fun k => ?_⟩
      · by_cases hkey : d.key = k
        · subst hkey
          have hwin : newer d c = true := by simpa [hk] using hnewer
          exact ⟨d, by simp [htable], fun hle => not_newer_of_newer hle hwin⟩
        · exact ⟨c, by rw [Option.getD_some, htable, Rows.getElem?_insert_of_ne hkey, hk], id⟩
      · intro e he _ _
        rw [List.mem_singleton.mp he]
        exact ⟨d, by simp [htable], newer_self d⟩
      · rw [Option.getD_some, htable] at hk
        rcases Rows.getElem?_insert_cases hk with hold | ⟨-, rfl⟩
        · exact .inl hold
        · exact .inr List.mem_cons_self
      · rw [Option.getD_some, pinned, htable]
        by_cases hkey : d.key = k
        · subst hkey
          simpa [hd] using hpin.symm
        · rw [Rows.getElem?_insert_of_ne hkey, pinned]

/-- Merges one after the other. -/
theorem Merged.append {o₁ : Overrides V} {ds es : List Override} (h : Merged params o ds o₁)
    (h' : Merged params o₁ es o') : Merged params o (ds ++ es) o' := by
  refine ⟨h'.sound ∘ h.sound, h'.bounded ∘ h.bounded, h.grown.trans h'.grown, ?_,
    fun hk => ?_, fun k => ?_⟩
  · intro d hmem hpin hval
    rcases List.mem_append.mp hmem with hd | he
    · obtain ⟨c, hc, hle⟩ := h.reached d hd hpin hval
      obtain ⟨c', hc', hle'⟩ := h'.grown _ _ hc
      exact ⟨c', hc', hle' hle⟩
    · exact h'.reached d he ((h.pins _).trans hpin) hval
  · rcases h'.told hk with hold | hnew
    · exact (h.told hold).imp_right (List.mem_append_left _)
    · exact .inr (List.mem_append_right _ hnew)
  · exact (h'.pins k).trans (h.pins k)

variable (params) in
/-- `ApplyRemote`: the deltas are merged, and the snapshot is that of the table if it was. -/
theorem merged_applyRemote (o : Overrides V) {ds : List Override}
    (hds : ∀ d ∈ ds, d.isLocal = false) :
    Merged params o ds (o.applyRemote params ds).2 ∧
      (o.saved = o.table.toList.map (·.2) →
        (o.applyRemote params ds).2.saved =
          (o.applyRemote params ds).2.table.toList.map (·.2)) := by
  -- While nothing has changed the node is the old one, so its snapshot needs no writing.
  have hfold : ∀ (ds : List Override) (changed : List Override) (o₁ : Overrides V),
      (∀ d ∈ ds, d.isLocal = false) → ∀ p, p = ds.foldl (fun (changed, o) d =>
        match o.applyDelta params d with
        | some o => (changed ++ [d], o)
        | none => (changed, o)) (changed, o₁) →
      Merged params o₁ ds p.2 ∧ (p.1 = [] → changed = [] ∧ p.2 = o₁) := by
    intro ds
    induction ds with
    | nil =>
      rintro changed o₁ - p rfl
      exact ⟨⟨id, id, .refl _, by simp, .inl, fun _ => rfl⟩, fun h => ⟨h, rfl⟩⟩
    | cons d ds ih =>
      intro changed o₁ hds p hp
      have hdelta := merged_delta params o₁ (hds d List.mem_cons_self)
      rw [List.foldl_cons] at hp
      cases happ : o₁.applyDelta params d with
      | none =>
        rw [happ, Option.getD_none] at hdelta
        obtain ⟨hm, hempty⟩ := ih changed o₁ (fun e he => hds e (.tail _ he)) p
            (by simpa [happ] using hp)
        exact ⟨hdelta.append hm, hempty⟩
      | some o₂ =>
        rw [happ, Option.getD_some] at hdelta
        obtain ⟨hm, hempty⟩ := ih (changed ++ [d]) o₂ (fun e he => hds e (.tail _ he)) p
          (by simpa [happ] using hp)
        exact ⟨hdelta.append hm, fun h => absurd (hempty h).1 (by simp)⟩
  obtain ⟨hm, hempty⟩ := hfold ds [] o hds _ rfl
  unfold applyRemote
  dsimp only
  split
  · rename_i hnil
    refine ⟨hm, fun hsaved => ?_⟩
    rwa [(hempty hnil).2]
  · exact ⟨⟨fun h => ⟨(hm.sound h).entry, (hm.sound h).cur⟩, hm.bounded, hm.grown, hm.reached,
      hm.told, hm.pins⟩, fun _ => rfl⟩

/-- A restart finds the table the snapshot was written from, and its values. -/
theorem restart_eq (h : Sound params o) (hsaved : o.saved = o.table.toList.map (·.2)) :
    (o.restart params).table = o.table ∧ Sound params (o.restart params) ∧
      (o.restart params).Bounded ∧ (o.restart params).saved = o.saved := by
  have hmem : ∀ d ∈ o.saved, o.table[d.key]? = some d ∧ (valueOf params d).isSome = true := by
    intro d hd
    rw [hsaved, List.mem_map] at hd
    obtain ⟨⟨k, e⟩, he, rfl⟩ := hd
    have hget := Std.ExtTreeMap.mem_toList_iff_getElem?_eq_some.mp he
    exact ⟨(h.entry hget).1 ▸ hget, (h.entry hget).2⟩
  have hload : ∀ (snap : List Override), (∀ d ∈ snap, (valueOf params d).isSome = true) →
      ∀ o₁ : Overrides V, Sound params o₁ → o₁.Bounded →
        (loadSnapshot params o₁ snap).table =
          Rows.runOps o₁.table (snap.map fun d => .put d.key d) ∧
        Sound params (loadSnapshot params o₁ snap) ∧ (loadSnapshot params o₁ snap).Bounded ∧
        (loadSnapshot params o₁ snap).saved = o₁.saved := by
    intro snap
    induction snap with
    | nil => exact fun _ o₁ ho₁ hb₁ => ⟨rfl, ho₁, hb₁, rfl⟩
    | cons d snap ih =>
      intro hval o₁ ho₁ hb₁
      obtain ⟨v, hv⟩ := Option.isSome_iff_exists.mp (hval d List.mem_cons_self)
      obtain ⟨o₂, ha⟩ : ∃ o₂, o₁.adopt params d = some o₂ := by simp [adopt, install, hv]
      have hsaved₂ : o₂.saved = o₁.saved := by
        obtain ⟨o₃, hi, rfl⟩ := adopt_iff.mp ha
        obtain ⟨w, -, rfl⟩ := install_iff.mp hi
        rfl
      obtain ⟨htable, hsound, hbound, hsv⟩ :=
        ih (fun e he => hval e (.tail _ he)) o₂ (ho₁.adopt ha) (hb₁.adopt ha)
      rw [adopt_table ha] at htable
      simpa [loadSnapshot, ha, Rows.runOps, Rows.runOp] using
        ⟨htable, hsound, hbound, hsv.trans hsaved₂⟩
  obtain ⟨htable, hsound, hbound, hsv⟩ := hload o.saved (fun d hd => (hmem d hd).2)
    { saved := o.saved } ⟨by simp, by simp⟩ (fun _ _ hd => by simp at hd)
  refine ⟨?_, hsound, hbound, hsv⟩
  rw [restart, htable]
  refine Std.ExtTreeMap.ext_getElem? fun k => Option.ext fun d => ?_
  rw [Rows.getElem?_runOps_empty_iff]
  · constructor
    · rintro ⟨op, hop, rfl, hval⟩
      obtain ⟨e, he, rfl⟩ := List.mem_map.mp hop
      exact Option.some.inj hval ▸ (hmem e he).1
    · intro hget
      refine ⟨.put d.key d, List.mem_map_of_mem ?_, (h.entry hget).1, rfl⟩
      rw [hsaved]
      exact List.mem_map.mpr ⟨(k, d), Std.ExtTreeMap.mem_toList_iff_getElem?_eq_some.mpr hget, rfl⟩
  · intro op hop op' hop' hkey
    obtain ⟨e, he, rfl⟩ := List.mem_map.mp hop
    obtain ⟨e', he', rfl⟩ := List.mem_map.mp hop'
    have hkey : e.key = e'.key := hkey
    have hget := (hmem e he).1
    rw [hkey, (hmem e' he').1] at hget
    exact hget.symm

variable (params) in
/-- `Set`: an error leaves all but the counter, and a success puts the override in its place. -/
theorem set_cases (o : Overrides V) (origin key value : Bytes) (isLocal : Bool) (now : Int64) :
    let d : Override := { key, value, version := o.nextVersion now, origin, isLocal }
    ((o.set params origin key value isLocal now).1.isOk = false ∧
      ∃ ver, (o.set params origin key value isLocal now).2 = { o with lastVer := ver } ∧
        (ver = o.lastVer ∨ (params key).isSome = true ∧ ver = o.nextVersion now)) ∨
    ((params key).isSome = true ∧ ∃ o₁ static, o.install params d = some o₁ ∧
      o.set params origin key value isLocal now =
        (.ok (o.nextVersion now, static),
          { o₁ with lastVer := o.nextVersion now }.persistLocked)) := by
  unfold set
  cases hp : params key with
  | none => exact .inl ⟨rfl, _, rfl, .inl rfl⟩
  | some p =>
    dsimp only
    cases hv : valueOf params { key, value, version := o.nextVersion now, origin, isLocal } with
    | none =>
      refine .inl ⟨?_, o.nextVersion now, ?_, .inr ⟨rfl, rfl⟩⟩ <;> simp [install, hv]
      rfl
    | some v =>
      refine .inr ⟨rfl, ?_⟩
      simp only [install, hv, Option.map_some]
      exact ⟨_, _, rfl, rfl⟩

end Overrides

/-! ## Whole runs -/

/-- What every event keeps of a node and its history. -/
structure Kept (params : Bytes → Option (Param V)) (t : Tracked V) : Prop where
  sound : t.node.Sound params
  bounded : t.wrapped = false → t.node.Bounded
  saved : t.node.saved = t.node.table.toList.map (·.2)
  told : ∀ (k : Bytes) d, t.node.table[k]? = some d → d ∈ t.seen
  top : t.wrapped = false → ∀ d ∈ t.seen, d ∉ t.dropped →
    ∃ c, t.node.table[d.key]? = some c ∧ newer d c = false

variable {t : Tracked V} {origin : Bytes}

theorem offWire_local {d : Override} {ds : List Override} (h : d ∈ ds.map offWire) :
    d.isLocal = false := by
  obtain ⟨e, -, rfl⟩ := List.mem_map.mp h
  rfl

theorem wrapped_of_step {e : Event} (h : (t.step params origin e).wrapped = false) :
    t.wrapped = false := by
  cases e with
  | set key value isLocal now => exact (Bool.or_eq_false_iff.mp h).1
  | remote deltas => exact h
  | restart => exact h

/-- A version drawn before the counter's end is above it. -/
theorem lt_nextVersion {key value : Bytes} {isLocal : Bool} {now : Int64}
    (hkey : (params key).isSome = true)
    (h : (t.step params origin (.set key value isLocal now)).wrapped = false) :
    t.node.lastVer < t.node.nextVersion now := by
  have hflag := (Bool.or_eq_false_iff.mp h).2
  exact UInt64.not_le.mp fun hle => of_decide_eq_false hflag ⟨hkey, hle⟩

/-- No event replaces an entry by an older one. -/
theorem Kept.grown (h : Kept params t) {e : Event}
    (hw : (t.step params origin e).wrapped = false) :
    Grown t.node (t.step params origin e).node := by
  cases e with
  | set key value isLocal now =>
    have hcases := t.node.set_cases params origin key value isLocal now
    rcases hcases with ⟨-, ver, heq, -⟩ | ⟨hkey, o₁, static, hi, heq⟩
    · intro k c hc
      exact ⟨c, by rw [Tracked.step, heq, hc], id⟩
    · have hlt := lt_nextVersion hkey hw
      obtain ⟨v, -, rfl⟩ := Overrides.install_iff.mp hi
      intro k c hc
      rw [Tracked.step, heq]
      by_cases hk : key = k
      · subst hk
        refine ⟨_, Std.ExtTreeMap.getElem?_insert_self, fun hd => not_newer_of_lt ?_⟩
        exact UInt64.lt_of_le_of_lt
          (UInt64.le_trans (version_le_of_not_newer hd) (h.bounded (wrapped_of_step hw) _ c hc)) hlt
      · exact ⟨c, (Rows.getElem?_insert_of_ne hk).trans hc, id⟩
  | remote deltas =>
    exact (t.node.merged_applyRemote params fun _ => offWire_local).1.grown
  | restart =>
    intro k c hc
    exact ⟨c, by rw [Tracked.step, (Overrides.restart_eq h.sound h.saved).1, hc], id⟩

/-- What was told before and not dropped is still not newer than what stands in its place. -/
theorem Kept.top_grown (h : Kept params t) {o' : Overrides V} (hg : Grown t.node o')
    (hw : t.wrapped = false) {d : Override} (hd : d ∈ t.seen) (hkept : d ∉ t.dropped) :
    ∃ c, o'.table[d.key]? = some c ∧ newer d c = false :=
  have ⟨_, hc, hle⟩ := h.top hw d hd hkept
  have ⟨c', hc', hmono⟩ := hg _ _ hc
  ⟨c', hc', hmono hle⟩

/-- One event of a node. -/
theorem Kept.step (h : Kept params t) (e : Event) : Kept params (t.step params origin e) := by
  have hold : (t.step params origin e).wrapped = false → ∀ d ∈ t.seen, d ∉ t.dropped →
      ∃ c, (t.step params origin e).node.table[d.key]? = some c ∧ newer d c = false :=
    fun hw d => h.top_grown (h.grown hw) (wrapped_of_step hw)
  cases e with
  | set key value isLocal now =>
    have hcases := t.node.set_cases params origin key value isLocal now
    rcases hcases with ⟨hfail, ver, heq, hver⟩ | ⟨hkey, o₁, static, hi, heq⟩
    · -- Nothing but the counter changes, and it does not go down.
      have hseen : (t.step params origin (.set key value isLocal now)).seen = t.seen :=
        if_neg (by simp [hfail])
      have hnode : (t.step params origin (.set key value isLocal now)).node =
          { t.node with lastVer := ver } := heq
      refine ⟨hnode ▸ ⟨h.sound.entry, h.sound.cur⟩, fun hw => ?_, hnode ▸ h.saved,
        hseen ▸ hnode ▸ h.told, fun hw d hd => hold hw d (hseen ▸ hd)⟩
      intro k d hd
      rw [hnode] at hd ⊢
      refine UInt64.le_trans (h.bounded (wrapped_of_step hw) k d hd) ?_
      rcases hver with rfl | ⟨hkey, rfl⟩
      · exact UInt64.le_refl _
      · exact UInt64.le_of_lt (lt_nextVersion hkey hw)
    · have hseen : (t.step params origin (.set key value isLocal now)).seen =
          t.seen ++ [{ key, value, version := t.node.nextVersion now, origin, isLocal }] :=
        if_pos (by rw [heq]; rfl)
      have hnode : (t.step params origin (.set key value isLocal now)).node =
          { o₁ with lastVer := t.node.nextVersion now }.persistLocked := congrArg (·.2) heq
      have hsound := h.sound.install hi (t.node.nextVersion now)
      obtain ⟨v, hv, htable⟩ := Overrides.install_iff.mp hi
      refine ⟨hnode ▸ ⟨hsound.entry, hsound.cur⟩, fun hw => ?_, hnode ▸ rfl, fun k d hd => ?_,
        fun hw d hd hkept => ?_⟩
      · rw [hnode]
        exact (h.bounded (wrapped_of_step hw)).install hi
          (UInt64.le_of_lt (lt_nextVersion hkey hw)) (UInt64.le_refl _)
      · rw [hnode] at hd
        simp only [Overrides.persistLocked, htable] at hd
        rw [hseen, List.mem_append]
        exact (Rows.getElem?_insert_cases hd).imp (h.told k d) fun heq =>
          List.mem_singleton.mpr heq.2
      · rw [hseen, List.mem_append, List.mem_singleton] at hd
        rcases hd with hd | rfl
        · exact hold hw d hd hkept
        · refine ⟨_, ?_, newer_self _⟩
          rw [hnode]
          simp only [Overrides.persistLocked, htable]
          exact Std.ExtTreeMap.getElem?_insert_self
  | remote deltas =>
    obtain ⟨hm, hsaved⟩ := t.node.merged_applyRemote params fun d (hd : d ∈ deltas.map offWire) =>
      offWire_local hd
    refine ⟨hm.sound h.sound, hm.bounded ∘ h.bounded, hsaved h.saved, fun k d hd => ?_,
      fun hw d hd hkept => ?_⟩
    · exact List.mem_append.mpr ((hm.told hd).imp_left (h.told k d))
    · have hkept := not_or.mp (mt List.mem_append.mpr hkept)
      rcases List.mem_append.mp hd with hd | hnew
      · exact hold hw d hd hkept.1
      · have hread := mt List.mem_filter.mpr hkept.2
        rw [not_and, Bool.or_eq_true, not_or, Bool.not_eq_true, Option.isNone_iff_eq_none] at hread
        obtain ⟨hpin, hval⟩ := hread hnew
        exact hm.reached d hnew hpin (Option.isSome_iff_ne_none.mpr hval)
  | restart =>
    obtain ⟨htable, hsound, hbound, hsaved⟩ := Overrides.restart_eq h.sound h.saved
    refine ⟨hsound, fun _ => hbound, ?_, fun k d hd => h.told k d ?_, hold⟩
    · rw [Tracked.step, hsaved, htable, h.saved]
    · rwa [Tracked.step, htable] at hd

theorem Kept.init : Kept params ({} : Tracked V) where
  sound := ⟨by simp, by simp⟩
  bounded _ _ _ h := by simp at h
  saved := rfl
  told _ _ h := by simp at h
  top _ _ h := by simp at h

theorem Kept.run (h : Kept params t) (es : List Event) : Kept params (t.run params origin es) := by
  induction es generalizing t with
  | nil => exact h
  | cons e es ih => exact ih (h.step e)

/-- What was told and not dropped is at or below the counter. -/
theorem Kept.version_le (h : Kept params t) (hw : t.wrapped = false) {d : Override}
    (hd : d ∈ t.seen) (hkept : d ∉ t.dropped) : d.version ≤ t.node.lastVer :=
  have ⟨c, hc, hle⟩ := h.top hw d hd hkept
  UInt64.le_trans (version_le_of_not_newer hle) (h.bounded hw _ c hc)

/-- An override above what an unpinned node has is taken over. -/
theorem Overrides.table_applyRemote {m : Overrides V} {d : Override} (hd : d.isLocal = false)
    (hval : (valueOf params d).isSome = true) (hpin : m.pinned d.key = false)
    (hlt : ∀ c, m.table[d.key]? = some c → c.version < d.version) :
    (m.applyRemote params [d]).2.table[d.key]? = some d := by
  obtain ⟨hmerged, -⟩ := m.merged_applyRemote params (List.forall_mem_singleton.mpr hd)
  obtain ⟨c, hc, hle⟩ := hmerged.reached d (by simp) hpin hval
  rcases hmerged.told hc with hold | hnew
  · have hle := version_le_of_not_newer hle
    exact absurd (UInt64.lt_of_le_of_lt hle (hlt c hold)) (UInt64.lt_irrefl _)
  · rw [hc, List.mem_singleton.mp hnew]

/-- **An operator's later override wins**, on a node that dropped no override of the key and
whose counter did not go round: its version is above that of every override of the key the node
has set or received, it is gossiped, and an unpinned node that has one of those takes it over. -/
theorem later_override_wins (es : List Event) {key value : Bytes} {now : Int64} {v : UInt64}
    {static : Bool} {o' : Overrides V}
    (hwrap : ((Tracked.run params origin {} es).step params origin
      (.set key value false now)).wrapped = false)
    (hdrop : ∀ d ∈ (Tracked.run params origin {} es).dropped, d.key ≠ key)
    (hset : (Tracked.run params origin {} es).node.set params origin key value false now =
      (.ok (v, static), o')) :
    (∀ d ∈ (Tracked.run params origin {} es).seen, d.key = key → d.version < v) ∧
    { key, value, version := v, origin } ∈ o'.gossipSet ∧
    ∀ m : Overrides V, m.Sound params → m.pinned key = false →
      (∀ c, m.table[key]? = some c → c ∈ (Tracked.run params origin {} es).seen) →
      (m.applyRemote params [{ key, value, version := v, origin }]).2.table[key]? =
        some { key, value, version := v, origin } := by
  generalize ht : Tracked.run params origin {} es = t at *
  have hkept : Kept params t := ht ▸ Kept.init.run es
  have hcases := t.node.set_cases params origin key value false now
  rcases hcases with ⟨hfail, -⟩ | ⟨hkey, o₁, static', hi, heq⟩
  · rw [hset] at hfail
    cases hfail
  · cases heq.symm.trans hset
    obtain ⟨w, hw, rfl⟩ := Overrides.install_iff.mp hi
    have hlt : ∀ d ∈ t.seen, d.key = key → d.version < t.node.nextVersion now := fun d hd hk =>
      UInt64.lt_of_le_of_lt (hkept.version_le (wrapped_of_step hwrap) hd
        fun hdropped => hdrop d hdropped hk) (lt_nextVersion hkey hwrap)
    refine ⟨hlt, ?_, fun m hm hpin hseen => ?_⟩
    · rw [Overrides.gossipSet, List.mem_filter, List.mem_map]
      refine ⟨⟨(key, _), ?_, rfl⟩, rfl⟩
      exact Std.ExtTreeMap.mem_toList_iff_getElem?_eq_some.mpr Std.ExtTreeMap.getElem?_insert_self
    · exact Overrides.table_applyRemote rfl (Option.isSome_iff_exists.mpr ⟨w, hw⟩) hpin
        fun c hc => hlt c (hseen c hc) (hm.entry hc).1

def texts (_ : Bytes) : Option (Param Bytes) := some { parse := some }

/-- Two overrides of one key, one of another node between them, and a restart. -/
def earlier : List Event :=
  [.set [9] [1] false 7, .remote [{ key := [9], value := [5], version := 20, origin := [2] }],
    .set [9] [2] false 9, .restart]

/-- With the clock set back, the third override goes above all of them. -/
theorem later_override_wins_twice :
    let t := Tracked.run texts [1] {} earlier
    t.seen.map (·.version) = [7, 20, 21] ∧
      (t.node.set texts [1] [9] [3] false 3).1 = .ok (22, false) ∧
      (∀ d ∈ t.seen, d.key = [9] → d.version < 22) ∧
      { key := [9], value := [3], version := 22, origin := [1] } ∈
        (t.node.set texts [1] [9] [3] false 3).2.gossipSet := by
  have hset : ((Tracked.run texts [1] {} earlier).node.set texts [1] [9] [3] false 3).1 =
      .ok (22, false) := by decide +kernel
  obtain ⟨hbelow, hgossip, -⟩ := later_override_wins earlier (by decide +kernel)
    (by decide +kernel) (Prod.ext hset rfl)
  exact ⟨by decide +kernel, hset, hbelow, hgossip⟩

/-- The key is pinned when an override of version 100 arrives. The cluster override set after it
is of version 10, and the node that has the other one keeps it. -/
theorem pinned_then_older :
    let hundred : Override := { key := [9], value := [5], version := 100, origin := [2] }
    let t := Tracked.run texts [1] {} [.set [9] [1] true 7, .remote [hundred]]
    let ten : Override := { key := [9], value := [2], version := 10, origin := [1] }
    hundred ∈ t.seen ∧ t.wrapped = false ∧
      (t.node.set texts [1] [9] [2] false 10).1 = .ok (10, false) ∧
      (t.node.set texts [1] [9] [2] false 10).2.gossipSet = [ten] ∧
      ((({} : Overrides Bytes).applyRemote texts [hundred]).2.applyRemote texts [ten]).2.gossipSet =
        [hundred] := by
  decide +kernel

end

end WaveSpan.Tunables
