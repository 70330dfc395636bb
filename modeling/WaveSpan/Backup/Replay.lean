/-
WaveSpan.Backup.Replay — what a logical restore leaves in a store.

The restore reads and writes in turns and writes in batches, but what it leaves can be
said without either: a node's export adds its rows (`nodeOps`), and the repair then rewrites
pointers by what the store holds (`repaired`). A loop with a batch in hand has written all
but the batch (`Pending`), and as every such loop writes one family, what it reads of
another family does not change under it.
-/
import WaveSpan.Backup.Restore

namespace WaveSpan.Backup.Restore

open WaveSpan.Wire WaveSpan.Collections WaveSpan.Effect WaveSpan.Rows
open WaveSpan.Records (StoredRecord LatestPointer Version)

abbrev Ends {α : Type} (Q : α → LocalStore → Prop) (d : LocalStore) (p : Prog α) : Prop :=
  Safe answer False Q d p

abbrev Leaves (s d : LocalStore) (p : Prog Unit) : Prop :=
  Ends (fun _ d => d = s) d p

/-! ## Batches -/

def OfFamily (cf : ColumnFamily) (ops : List Write) : Prop := ∀ op ∈ ops, ∃ k, op.key = rowKey cf k

/-- A loop that was to make the writes `done` to the store `s` has all but `ops` of them in
the store. -/
structure Pending (cf : ColumnFamily) (s : LocalStore) (done ops : List Write) (d : LocalStore) :
    Prop where
  same : runOps d ops = runOps s done
  ops : OfFamily cf ops
  done : OfFamily cf done

section
variable {cf cf' : ColumnFamily} {s : LocalStore} {done ops more : List Write} {d : LocalStore}

theorem OfFamily.nil : OfFamily cf [] := fun _ h => absurd h List.not_mem_nil

theorem OfFamily.append {xs ys : List Write} (hx : OfFamily cf xs) (hy : OfFamily cf ys) :
    OfFamily cf (xs ++ ys) := by
  intro op hop
  rcases List.mem_append.mp hop with h | h
  · exact hx op h
  · exact hy op h

theorem OfFamily.single {op : Write} {k : Bytes} (h : op.key = rowKey cf k) : OfFamily cf [op] := by
  intro op' hop
  rw [List.mem_singleton.mp hop]
  exact ⟨k, h⟩

/-- Writes to one family leave the others. -/
theorem OfFamily.other (h : OfFamily cf ops) (hne : cf ≠ cf') (s : LocalStore) (k : Bytes) :
    (runOps s ops)[rowKey cf' k]? = s[rowKey cf' k]? := by
  refine getElem?_runOps_of_forall_ne _ fun op hop => ?_
  obtain ⟨k', hk'⟩ := h op hop
  rw [hk']
  exact fun heq => hne (rowKey_inj.mp heq).1

theorem Pending.start : Pending cf d [] [] d := ⟨rfl, .nil, .nil⟩

/-- What the loop reads of another family. -/
theorem Pending.other (h : Pending cf s done ops d) (hne : cf ≠ cf') (k : Bytes) :
    d[rowKey cf' k]? = s[rowKey cf' k]? := by
  rw [← h.ops.other hne, h.same, h.done.other hne]

/-- A flush writes the batch in hand. -/
theorem leaves_flush (h : Pending cf s done ops d) : Leaves (runOps s done) d (flush ops) := by
  unfold flush
  split
  · rename_i hnil
    rw [← h.same, hnil]
    rfl
  · exact h.same

/-- A push keeps all that was written or is in hand. -/
theorem ends_push (h : Pending cf s done ops d) (hmore : OfFamily cf more) :
    Ends (fun ops d => Pending cf s (done ++ more) ops d) d (push ops more) := by
  have hall : runOps d (ops ++ more) = runOps s (done ++ more) := by
    rw [runOps_append, h.same, runOps_append]
  unfold push
  split
  · have hnext : Pending cf s (done ++ more) (ops ++ more) d :=
      ⟨hall, h.ops.append hmore, h.done.append hmore⟩
    exact Safe.bind ((leaves_flush hnext).imp fun _ d' hd' => ⟨hd', .nil, hnext.done⟩)
  · exact ⟨hall, h.ops.append hmore, h.done.append hmore⟩

/-- A loop that collects the writes `opsOf` of its elements. -/
theorem ends_loop {α : Type} {f : List Write → α → Prog (List Write)} (opsOf : α → List Write)
    {l : List α} (hturn : ∀ a ∈ l, ∀ done ops d, Pending cf s done ops d →
      Ends (fun ops d => Pending cf s (done ++ opsOf a) ops d) d (f ops a))
    (h : Pending cf s [] [] d) :
    Ends (fun ops d => Pending cf s (l.flatMap opsOf) ops d) d (l.foldlM f []) := by
  refine (Safe.foldlM (J := fun rest ops d => ∃ done,
    done ++ rest.flatMap opsOf = l.flatMap opsOf ∧ Pending cf s done ops d) ?_ ⟨[], rfl, h⟩).imp ?_
  · rintro a ha rest ops d ⟨done, hdone, hp⟩
    refine (hturn a ha done ops d hp).imp fun ops' d' hp' => ⟨_, ?_, hp'⟩
    rw [List.append_assoc, ← List.flatMap_cons]
    exact hdone
  · rintro ops d ⟨done, hdone, hp⟩
    rw [List.flatMap_nil, List.append_nil] at hdone
    rwa [hdone] at hp

/-- A loop whose elements change the store by `g`. -/
theorem leaves_each {α : Type} {f : α → Prog Unit} {g : LocalStore → α → LocalStore} {l : List α}
    (hturn : ∀ a ∈ l, ∀ d : LocalStore, Leaves (g d a) d (f a)) :
    Leaves (l.foldl g d) d (l.foldlM (fun _ a => f a) ()) := by
  refine Safe.foldlM (J := fun rest (_ : Unit) (d' : LocalStore) =>
    rest.foldl g d' = l.foldl g d) (fun a ha rest _ d' hrest => ?_) rfl
  refine (hturn a ha d').imp fun _ d'' hd'' => ?_
  rw [hd'']
  exact hrest

end

/-! ## A node's families -/

def pairOps (cf : ColumnFamily) (ri : RestoreInfo) (kv : Bytes × Row) : List Write :=
  match targetKey cf ri kv.1 with
  | .ok (some key) => [.put (rowKey cf key) kv.2]
  | _ => []

def restoreOps (cf : ColumnFamily) (ri : RestoreInfo) (pairs : List (Bytes × Row)) : List Write :=
  pairs.flatMap (pairOps cf ri)

def nodeOps (captureMs : Int64) (ri : RestoreInfo) (src : LocalStore) : List Write :=
  authoritativeCFs.flatMap fun cf => restoreOps cf ri (exportPairs captureMs src cf)

/-- Every row of the export has a place. -/
def Routable (captureMs : Int64) (ri : RestoreInfo) (src : LocalStore) : Prop :=
  ∀ cf, ∀ kv ∈ exportPairs captureMs src cf, ∃ t, targetKey cf ri kv.1 = .ok t

section
variable {cf : ColumnFamily} {ri : RestoreInfo} {captureMs : Int64} {src d : LocalStore}

/-- Restoring a whole object writes its pairs. -/
theorem leaves_restoreCFObject (obj : CFObject) {want : Int}
    (hplace : ∀ kv ∈ obj.pairs, ∃ t, targetKey cf ri kv.1 = .ok t) (htorn : obj.torn = false)
    (hwant : (obj.pairs.length : Int) = want) :
    Leaves (runOps d (restoreOps cf ri obj.pairs)) d (restoreCFObject cf want ri obj) := by
  have hloop : Ends (fun ops d' => Pending cf d (restoreOps cf ri obj.pairs) ops d') d
      (obj.pairs.foldlM (restorePair cf ri) []) := by
    refine ends_loop (pairOps cf ri) (fun kv hkv done ops d h => ?_) .start
    obtain ⟨t, ht⟩ := hplace kv hkv
    unfold restorePair pairOps
    simp only [ht]
    cases t with
    | none =>
      rw [List.append_nil]
      exact h
    | some key => exact ends_push h (.single rfl)
  refine Safe.bind (hloop.imp fun ops d' hp => ?_)
  · rw [htorn, if_neg (by simp), if_neg (by simpa using hwant)]
    exact leaves_flush hp

theorem cfByName_name (cf : ColumnFamily) : cfByName cf.name = some cf := by
  cases cf <;> decide

/-- Families have different names. -/
theorem ColumnFamily.name_inj {a b : ColumnFamily} (h : a.name = b.name) : a = b := by
  have hb := cfByName_name b
  rw [← h, cfByName_name a] at hb
  exact Option.some.inj hb

theorem getElem?_objects (f : ColumnFamily → CFObject) (l : List ColumnFamily)
    (name : Bytes) (obj : CFObject) :
    (l.foldl (fun (m : GoMap CFObject) cf => m.insert cf.name (f cf)) ∅)[name]? = some obj ↔
      ∃ cf ∈ l, cf.name = name ∧ f cf = obj := by
  have hfold : ∀ m : GoMap CFObject,
      (l.foldl (fun m cf => m.insert cf.name (f cf)) m)[name]? = some obj ↔
        (∃ cf ∈ l, cf.name = name ∧ f cf = obj) ∨
          ((∀ cf ∈ l, cf.name ≠ name) ∧ m[name]? = some obj) := by
    induction l with
    | nil => simp
    | cons a l ih =>
      intro m
      rw [List.foldl_cons, ih, Std.ExtTreeMap.getElem?_insert]
      by_cases ha : a.name = name
      · -- another family of the same name is the same family
        have hsame : ∀ cf : ColumnFamily, cf.name = name → f cf = f a :=
          fun cf hcf => by rw [ColumnFamily.name_inj (hcf.trans ha.symm)]
        simp only [ha, Std.ReflCmp.compare_self, if_true, List.exists_mem_cons_iff,
          List.forall_mem_cons, ne_eq, not_true_eq_false, false_and, or_false, true_and,
          Option.some.injEq]
        constructor
        · rintro (h | ⟨-, h⟩)
          · exact .inr h
          · exact .inl h
        · rintro (h | h)
          · by_cases hl : ∃ cf ∈ l, cf.name = name
            · obtain ⟨cf, hcf, hname⟩ := hl
              exact .inl ⟨cf, hcf, hname, (hsame cf hname).trans h⟩
            · exact .inr ⟨fun cf hcf hname => hl ⟨cf, hcf, hname⟩, h⟩
          · exact .inl h
      · simp [ha]
  rw [hfold]
  simp

/-- The object of a family in an export. -/
theorem exportLogical_object (h : cf ∈ authoritativeCFs) (hne : exportPairs captureMs src cf ≠ []) :
    (exportLogical captureMs src).objects[cf.name]? = some ⟨exportPairs captureMs src cf, false⟩ :=
  (getElem?_objects _ _ _ _).mpr ⟨cf, List.mem_filter.mpr ⟨h, by simpa using hne⟩, rfl, rfl⟩

/-- Restoring all families writes the rows of the export. -/
theorem leaves_families (hplace : Routable captureMs ri src) :
    Leaves (runOps d (nodeOps captureMs ri src)) d
      ((exportLogical captureMs src).cfs.foldlM
        (fun _ entry => restoreEntry (exportLogical captureMs src) ri entry) ()) := by
  have hempty : ∀ l : List ColumnFamily, ∀ s : LocalStore,
      (l.filter fun cf => exportPairs captureMs src cf ≠ []).foldl
        (fun s cf => runOps s (restoreOps cf ri (exportPairs captureMs src cf))) s =
        runOps s (l.flatMap fun cf => restoreOps cf ri (exportPairs captureMs src cf)) := by
    intro l
    induction l with
    | nil => exact fun s => rfl
    | cons cf l ih =>
      intro s
      rw [List.flatMap_cons, runOps_append, ← ih, List.filter_cons]
      by_cases hnil : exportPairs captureMs src cf = []
      · simp [hnil, restoreOps]
      · simp [hnil]
  have hcfs : (exportLogical captureMs src).cfs =
      (authoritativeCFs.filter fun cf => exportPairs captureMs src cf ≠ []).map fun cf =>
        ⟨cf.name, (exportPairs captureMs src cf).length⟩ := rfl
  unfold nodeOps
  rw [← hempty, hcfs, List.foldlM_map]
  refine leaves_each fun cf hcf d => ?_
  obtain ⟨hmem, hne⟩ := List.mem_filter.mp hcf
  unfold restoreEntry
  rw [cfByName_name, exportLogical_object hmem (by simpa using hne)]
  exact leaves_restoreCFObject ⟨exportPairs captureMs src cf, false⟩ (hplace cf) rfl rfl

end

/-! ## The repair -/

def present (s : LocalStore) (ns userKey : Bytes) (v : Version) : Bool :=
  s[rowKey .kvData (Records.dataKey ns userKey v)]?.isSome

def recordsOf (s : LocalStore) (ns userKey : Bytes) : List StoredRecord :=
  (scanRows s .kvData (Records.dataKeyPrefix ns userKey)
    (prefixEnd (Records.dataKeyPrefix ns userKey))).filterMap fun r => decodeStoredRecord r.2

def repairOps (s : LocalStore) (e : LPEntry) : List Write :=
  if present s e.ns e.userKey e.lp.winner then
    if e.lp.siblingVersions.all (present s e.ns e.userKey) then []
    else
      [putLatest e.ns e.userKey
        { e.lp with siblingVersions := e.lp.siblingVersions.filter (present s e.ns e.userKey) }]
  else repointOps e.ns e.userKey e.lp (recordsOf s e.ns e.userKey)

def pointersOf (s : LocalStore) : List LPEntry :=
  lpEntries (scanRows s .kvMeta [] (some Records.ttlLowBound))

def repaired (s : LocalStore) : LocalStore := runOps s ((pointersOf s).flatMap (repairOps s))

/-- A scan depends on the rows of its family. -/
theorem scanRows_congr {s s' : LocalStore} {cf : ColumnFamily}
    (h : ∀ k, s[rowKey cf k]? = s'[rowKey cf k]?) (start : Bytes) (stop : Option Bytes) :
    scanRows s cf start stop = scanRows s' cf start stop := by
  refine filterMap_toList_congr (fun k => k.head? == some cf.tag) ?_ ?_
  · rintro ⟨k, row⟩ hk
    cases k with
    | nil => rfl
    | cons t k =>
      have ht : t ≠ cf.tag := by simpa using hk
      simp [ht]
  · intro k hk
    cases k with
    | nil => cases hk
    | cons t k =>
      obtain rfl : t = cf.tag := by simpa using hk
      exact h k

section
variable {s : LocalStore} {done ops : List Write} {d : LocalStore}

theorem ofFamily_repointOps (ns userKey : Bytes) (lp : LatestPointer)
    (survivors : List StoredRecord) : OfFamily .kvMeta (repointOps ns userKey lp survivors) := by
  unfold repointOps putLatest putTTL
  refine OfFamily.append ?_ ?_
  · split
    · exact .single rfl
    · exact .nil
  · split
    · exact .single rfl
    · rw [← List.singleton_append]
      refine OfFamily.append (.single rfl) ?_
      split
      · split
        · exact .nil
        · exact .single rfl
      · exact .nil

/-- The repair sees the records of the store it started with. -/
theorem Pending.record (h : Pending .kvMeta s done ops d) (ns userKey : Bytes) (v : Version) :
    (d[rowKey .kvData (Records.dataKey ns userKey v)]?).isSome = present s ns userKey v := by
  have hne : ColumnFamily.kvMeta ≠ .kvData := nofun
  rw [h.other hne]
  rfl

theorem Pending.records (h : Pending .kvMeta s done ops d) (ns userKey : Bytes) :
    recordsOf d ns userKey = recordsOf s ns userKey := by
  have hne : ColumnFamily.kvMeta ≠ .kvData := nofun
  unfold recordsOf
  rw [scanRows_congr (h.other hne)]

/-- The siblings that are there, one by one. -/
theorem ends_presentSiblings (h : Pending .kvMeta s done ops d) (ns userKey : Bytes)
    (sibs : List Version) :
    Ends (fun acc d' => d' = d ∧ acc.1 = sibs.filter (present s ns userKey) ∧
      (acc.2 = false ↔ sibs.all (present s ns userKey) = true)) d
      (presentSiblings ns userKey sibs) := by
  refine (Safe.foldlM (J := fun rest acc d' => d' = d ∧
    acc.1 ++ rest.filter (present s ns userKey) = sibs.filter (present s ns userKey) ∧
    ((acc.2 = false ∧ rest.all (present s ns userKey) = true) ↔
      sibs.all (present s ns userKey) = true)) ?_ ⟨rfl, rfl, by simp⟩).imp ?_
  · rintro v - rest acc d' ⟨rfl, hkept, hchanged⟩
    have hturn : ∀ b, b = present s ns userKey v →
        (if b = true then (acc.1 ++ [v], acc.2) else (acc.1, true)).1 ++
            rest.filter (present s ns userKey) = sibs.filter (present s ns userKey) ∧
          (((if b = true then (acc.1 ++ [v], acc.2) else (acc.1, true)).2 = false ∧
            rest.all (present s ns userKey) = true) ↔ sibs.all (present s ns userKey) = true) := by
      rintro b rfl
      rw [← hkept, ← hchanged]
      cases hv : present s ns userKey v <;> simp [hv]
    exact ⟨rfl, hturn _ (h.record ns userKey v)⟩
  · rintro acc d' ⟨rfl, hkept, hchanged⟩
    exact ⟨rfl, by simpa using hkept, by simpa using hchanged⟩

/-- One turn of the repair. -/
theorem ends_repairEntry (h : Pending .kvMeta s done ops d) (e : LPEntry) :
    Ends (fun ops d => Pending .kvMeta s (done ++ repairOps s e) ops d) d (repairEntry ops e) := by
  refine Safe.request ?_
  show Ends _ d (if (d[rowKey .kvData (Records.dataKey e.ns e.userKey e.lp.winner)]?).isSome
    = true then _ else _)
  rw [h.record]
  unfold repairOps
  split
  · refine Safe.bind ((ends_presentSiblings h _ _ _).imp ?_)
    rintro ⟨kept, changed⟩ d' ⟨rfl, rfl, hchanged⟩
    simp only at hchanged ⊢
    by_cases hall : e.lp.siblingVersions.all (present s e.ns e.userKey) = true
    · rw [if_pos (hchanged.mpr hall), if_pos hall, List.append_nil]
      exact h
    · rw [if_neg (fun hc => hall (hchanged.mp hc)), if_neg hall]
      exact ends_push h (.single rfl)
  · refine Safe.request ?_
    show Ends _ d (push ops (repointOps e.ns e.userKey e.lp (recordsOf d e.ns e.userKey)))
    rw [h.records]
    exact ends_push h (ofFamily_repointOps _ _ _ _)

/-- The repair as a program leaves the repaired store. -/
theorem leaves_repairCutMeta : Leaves (repaired d) d repairCutMeta := by
  refine Safe.request ?_
  have hloop : Ends (fun ops d' => Pending .kvMeta d
      ((pointersOf d).flatMap (repairOps d)) ops d') d
      ((pointersOf d).foldlM repairEntry []) :=
    ends_loop (repairOps d) (fun e _ _ _ _ h => ends_repairEntry h e) .start
  exact Safe.bind (hloop.imp fun ops d' hp => leaves_flush hp)

end

/-! ## The whole -/

/-- A logical restore leaves the exported rows, repaired. -/
theorem leaves_restoreLogical {d : LocalStore} {ri : RestoreInfo} {captureMs : Int64}
    {src : LocalStore} (hplace : Routable captureMs ri src) :
    Leaves (repaired (runOps d (nodeOps captureMs ri src))) d
      (restoreLogical (exportLogical captureMs src) ri) := by
  have hversion : (exportLogical captureMs src).formatVersion = manifestFormatVersion := rfl
  unfold restoreLogical
  rw [hversion, if_neg (by decide)]
  refine Safe.bind ((leaves_families hplace).imp fun _ d' hd' => ?_)
  rw [← hd']
  exact leaves_repairCutMeta

end WaveSpan.Backup.Restore
