/-
WaveSpan.Collections.Batch — what an entry and a batch can do.

`EntryStep` is to an entry what `Step` is to a command: an ingest, a purge, a
freeze or an unfreeze appends ops, any other entry runs the commands it decodes
to, in order. An entry that raises is undone: its writes were only appended, so
restoring the snapshot gives back the context from before it (`restore_snapshot`).
Hence the entry loop never raises, and what every `EntryStep` preserves holds
after the batch (`applyEntries_inv`).
-/
import WaveSpan.Collections.Steps

namespace WaveSpan.Collections

open WaveSpan.Wire WaveSpan.Rows WaveSpan.Prog

/-! ## Undoing an entry -/

/-- The store is as it was and ops were only appended. -/
structure Grows (u u' : UpdateCtx) : Prop where
  store : u'.store = u.store
  ops : u.ops <+: u'.ops

section
variable {s : UInt64} {c : Command} {u u' u'' : UpdateCtx}

theorem Grows.refl (u : UpdateCtx) : Grows u u := ⟨rfl, List.prefix_refl _⟩

theorem Grows.trans (h : Grows u u') (h' : Grows u' u'') : Grows u u'' :=
  ⟨h'.store.trans h.store, h.ops.trans h'.ops⟩

theorem Quiet.grows (h : Quiet u u') : Grows u u' := ⟨h.store, h.ops⟩

theorem emit_grows (ops : List StoreOp) : Grows u (u.emit ops) :=
  ⟨rfl, List.prefix_append _ _⟩

theorem remember_grows (r : ProposeResult) : Grows u (remember s c r u) := by
  unfold remember
  split
  · exact ⟨rfl, by simp [List.append_assoc]⟩
  · exact Grows.refl u

/-- A command only adds to the batch. -/
theorem CmdStep.grows {r : ProposeResult} (h : CmdStep s c u r u') : Grows u u' := by
  rcases h with h | ⟨-, -, v, hv, rfl⟩
  · exact h.quiet.grows
  · exact hv.quiet.grows.trans (remember_grows r)

/-- Restoring the snapshot undoes everything that only grew the context. -/
theorem restore_snapshot (h : Grows u u') : u'.restore u.snapshot = u := by
  obtain ⟨tail, htail⟩ := h.ops
  simp only [UpdateCtx.restore, UpdateCtx.snapshot, h.store, ← htail, List.take_left]

end

/-! ## The commands of an entry -/

/-- The commands of a coalesced entry; nothing when one of them does not decode. -/
def decodeAll : List Bytes → Option (List Command)
  | [] => some []
  | b :: bs =>
    match decodeCommandInto b with
    | .error _ => none
    | .ok c => (decodeAll bs).map (c :: ·)

/-- The commands an entry runs; nothing for an entry of another kind or one that
does not decode. -/
def commandsOf (cmd : Bytes) : Option (List Command) :=
  match opByte? cmd with
  | some .ingest | some .purge | some .freeze | some .unfreeze => none
  | some .batch =>
    match decodeBatch cmd with
    | .error _ => none
    | .ok subs => decodeAll subs
  | _ => decodeAll [cmd]

/-- An entry that moves rows between shards. -/
def Migrates (cmd : Bytes) : Prop := opByte? cmd = some .ingest ∨ opByte? cmd = some .purge

section
variable (s : UInt64)

inductive Run : List Command → UpdateCtx → UpdateCtx → Prop where
  | nil {u : UpdateCtx} : Run [] u u
  | cons {c : Command} {cs : List Command} {u v w : UpdateCtx} {r : ProposeResult}
      (h : CmdStep s c u r v) (t : Run cs v w) : Run (c :: cs) u w

/-- What an entry that is not skipped does. -/
inductive EntryStep (cmd : Bytes) : UpdateCtx → UpdateCtx → Prop where
  | ingest {u : UpdateCtx} {kvs : List RawKV}
      (hop : opByte? cmd = some .ingest) (hd : decodeIngest cmd = .ok kvs) :
      EntryStep cmd u (u.emit (kvs.map fun kv => .put (shardPrefix s ++ kv.suffix) kv.value))
  | purge {u : UpdateCtx} {start stop : Bytes}
      (hop : opByte? cmd = some .purge) (hd : decodePurge cmd = .ok (start, stop)) :
      EntryStep cmd u (u.emit ((scanRange u.store (shardPrefix s) start stop 0).map fun kv =>
        .del (shardPrefix s ++ kv.suffix)))
  | freeze {u : UpdateCtx} {start stop : Bytes}
      (hop : opByte? cmd = some .freeze) (hd : decodePurge cmd = .ok (start, stop)) :
      EntryStep cmd u (u.emit [.put (frozenKey s start) stop])
  | unfreeze {u : UpdateCtx} {start stop : Bytes}
      (hop : opByte? cmd = some .unfreeze) (hd : decodePurge cmd = .ok (start, stop)) :
      EntryStep cmd u (u.emit [.del (frozenKey s start)])
  | commands {u u' : UpdateCtx} {cs : List Command}
      (hd : commandsOf cmd = some cs) (h : Run s cs u u') :
      EntryStep cmd u u'

end

section
variable {fl : FloatOps} {s : UInt64} {frozen : List FrozenRange} {u u' : UpdateCtx}

theorem Run.grows {cs : List Command} (h : Run s cs u u') : Grows u u' := by
  induction h with
  | nil => exact Grows.refl _
  | cons h _ ih => exact h.grows.trans ih

theorem EntryStep.grows {cmd : Bytes} (h : EntryStep s cmd u u') : Grows u u' := by
  cases h with
  | commands _ hrun => exact hrun.grows
  | ingest => exact emit_grows _
  | purge => exact emit_grows _
  | freeze => exact emit_grows _
  | unfreeze => exact emit_grows _

/-- How an entry may fail: not by a storage fault, and only having appended. -/
def EntryFails (u : UpdateCtx) (e : ApplyErr) (u' : UpdateCtx) : Prop :=
  e ≠ .fatal ∧ Grows u u'

theorem decodeCommandInto_error {b : Bytes} {e : ApplyErr}
    (h : decodeCommandInto b = .error e) : e ≠ .fatal := by
  unfold decodeCommandInto at h
  repeat' split at h
  all_goals cases h
  all_goals exact ApplyErr.noConfusion

variable (fl s frozen u) in
/-- One command runs or fails as an entry does. -/
theorem applyOne_done (b : Bytes) :
    Ends (fun r u' => ∃ c, decodeCommandInto b = .ok c ∧ CmdStep s c u r u') (EntryFails u)
      (applyOne fl s frozen b u) := by
  unfold applyOne
  cases hd : decodeCommandInto b with
  | error e => exact ⟨decodeCommandInto_error hd, Grows.refl u⟩
  | ok c =>
    exact (applyDecoded_done fl frozen).imp (fun r u' h => ⟨c, rfl, h⟩)
      (fun e u' h => ⟨h.1, h.2.grows⟩)

variable (fl s frozen u) in
/-- The commands of a coalesced entry run in turn. -/
theorem applySubs_done (rs : List ProposeResult) (subs : List Bytes) :
    Ends (fun _ u' => ∃ cs, decodeAll subs = some cs ∧ Run s cs u u') (EntryFails u)
      (applySubs fl s frozen rs subs u) := by
  induction subs generalizing u rs with
  | nil => exact ⟨[], rfl, .nil⟩
  | cons b bs ih =>
    simp only [applySubs, List.foldlM_cons, ends_bind, ends_pure]
    refine (applyOne_done fl s frozen u b).imp (fun r v hv => ?_) (fun _ _ h => h)
    obtain ⟨c, hc, hcv⟩ := hv
    refine (ih v (rs ++ [r])).imp (fun _ w hw => ?_)
      (fun e w hw => ⟨hw.1, hcv.grows.trans hw.2⟩)
    obtain ⟨cs, hcs, hrun⟩ := hw
    exact ⟨c :: cs, by simp [decodeAll, hc, hcs], .cons hcv hrun⟩

theorem decodePurge_error {b : Bytes} {e : ApplyErr} (h : decodePurge b = .error e) :
    e ≠ .fatal := by
  unfold decodePurge at h
  repeat' split at h
  all_goals cases h
  all_goals exact ApplyErr.noConfusion

theorem decodeIngest_error {b : Bytes} {e : ApplyErr} (h : decodeIngest b = .error e) :
    e ≠ .fatal := by
  unfold decodeIngest at h
  repeat' split at h
  all_goals cases h
  all_goals exact ApplyErr.noConfusion

theorem decodeBatch_error {b : Bytes} {e : ApplyErr} (h : decodeBatch b = .error e) :
    e ≠ .fatal := by
  unfold decodeBatch at h
  repeat' split at h
  all_goals cases h
  all_goals exact ApplyErr.noConfusion

theorem applyMigrate_done {cmd : Bytes}
    (hop : opByte? cmd = some .ingest ∨ opByte? cmd = some .purge) :
    Ends (fun _ u' => EntryStep s cmd u u') (EntryFails u) (applyMigrate s cmd u) := by
  unfold applyMigrate
  rcases hop with hop | hop
  · rw [hop]
    cases hd : decodeIngest cmd with
    | error e => exact ⟨decodeIngest_error hd, Grows.refl u⟩
    | ok kvs => exact .ingest hop hd
  · rw [hop]
    cases hd : decodePurge cmd with
    | error e => exact ⟨decodePurge_error hd, Grows.refl u⟩
    | ok r => exact .purge hop hd

/-- An entry that freezes or unfreezes a range. -/
theorem applyFreeze_done {cmd : Bytes}
    (hop : opByte? cmd = some .freeze ∨ opByte? cmd = some .unfreeze) :
    Ends (fun _ u' => EntryStep s cmd u u') (EntryFails u) (applyFreeze s cmd u) := by
  unfold applyFreeze
  cases hd : decodePurge cmd with
  | error e => exact ⟨decodePurge_error hd, Grows.refl u⟩
  | ok r =>
    refine ends_ite (fun hf => .freeze hf hd) (fun hf => ?_)
    exact .unfreeze (hop.resolve_left hf) hd

variable (fl s frozen u) in
/-- One entry either does an `EntryStep`, or fails having only appended. -/
theorem applyEntry_done (cmd : Bytes) :
    Ends (fun _ u' => EntryStep s cmd u u') (EntryFails u) (applyEntry fl s frozen cmd u) := by
  unfold applyEntry
  have hsingle : commandsOf cmd = decodeAll [cmd] →
      Ends (fun _ u' => EntryStep s cmd u u') (EntryFails u) (applyOne fl s frozen cmd u) := by
    intro hcs
    refine (applyOne_done fl s frozen u cmd).imp (fun r u' h => ?_) (fun _ _ h => h)
    obtain ⟨c, hc, hcu⟩ := h
    refine .commands ?_ (.cons hcu .nil)
    rw [hcs]
    simp [decodeAll, hc]
  cases hop : opByte? cmd with
  | none => exact hsingle (by simp [commandsOf, hop])
  | some op =>
    cases op with
    | ingest =>
      simp only [ends_bind, ends_pure]
      exact applyMigrate_done (.inl hop)
    | purge =>
      simp only [ends_bind, ends_pure]
      exact applyMigrate_done (.inr hop)
    | freeze =>
      simp only [ends_bind, ends_pure]
      exact applyFreeze_done (.inl hop)
    | unfreeze =>
      simp only [ends_bind, ends_pure]
      exact applyFreeze_done (.inr hop)
    | batch =>
      cases hd : decodeBatch cmd with
      | error e => exact ⟨decodeBatch_error hd, Grows.refl u⟩
      | ok subs =>
        simp only [ends_bind, ends_pure]
        refine (applySubs_done fl s frozen u [] subs).imp (fun _ u' h => ?_) (fun _ _ h => h)
        obtain ⟨cs, hcs, hrun⟩ := h
        exact .commands (by simp [commandsOf, hop, hd, hcs]) hrun
    | _ => exact hsingle (by simp [commandsOf, hop])

/-! ## The entry loop -/

/-- One turn of the entry loop: the entry is applied, or undone and skipped. -/
inductive Turn (fl : FloatOps) (s : UInt64) (frozen : List FrozenRange) (e : Entry)
    (u : UpdateCtx) : UpdateCtx → ProposeResult → Prop where
  | applied {u' : UpdateCtx} {r : ProposeResult}
      (h : applyEntry fl s frozen e.cmd u = .ok r u') : Turn fl s frozen e u u' r
  | skipped {err : ApplyErr} {u' : UpdateCtx}
      (h : applyEntry fl s frozen e.cmd u = .error err u') : Turn fl s frozen e u u {}

variable (fl s frozen u) in
/-- A batch is its first entry and the rest. -/
theorem applyEntries_cons (e : Entry) (es : List Entry) :
    ∃ u' r, Turn fl s frozen e u u' r ∧
      applyEntries fl s frozen (e :: es) u
        = (applyEntries fl s frozen es u').map fun p => (p.1, r :: p.2) := by
  have hdone := applyEntry_done fl s frozen u e.cmd
  cases hr : applyEntry fl s frozen e.cmd u with
  | ok r u' => exact ⟨u', r, .applied hr, by simp [applyEntries, hr]⟩
  | error err u' =>
    rw [hr] at hdone
    obtain ⟨hnf, hgrows⟩ := hdone
    have hf : isFatal err = false := by
      cases err <;> first | rfl | exact absurd rfl hnf
    exact ⟨u, {}, .skipped hr, by simp [applyEntries, hr, hf, restore_snapshot hgrows]⟩

theorem Turn.entryStep {e : Entry} {r : ProposeResult} (h : Turn fl s frozen e u u' r) :
    u' = u ∨ EntryStep s e.cmd u u' := by
  cases h with
  | applied h =>
    have hdone := applyEntry_done fl s frozen u e.cmd
    rw [h] at hdone
    exact .inr hdone
  | skipped _ => exact .inl rfl

variable (fl s frozen u) in
/-- The entry loop never raises. -/
theorem applyEntries_ok (es : List Entry) :
    ∃ u' rs, applyEntries fl s frozen es u = .ok (u', rs) ∧ rs.length = es.length := by
  induction es generalizing u with
  | nil => exact ⟨u, [], rfl, rfl⟩
  | cons e es ih =>
    obtain ⟨v, r, -, heq⟩ := applyEntries_cons fl s frozen u e es
    obtain ⟨w, rs, hw, hlen⟩ := ih v
    exact ⟨w, r :: rs, by rw [heq, hw]; rfl, by simp [hlen]⟩

/-- A batch that ran is a turn of its first entry and a run of the rest. -/
theorem applyEntries_cons_ok {e : Entry} {es : List Entry} {rs : List ProposeResult}
    (h : applyEntries fl s frozen (e :: es) u = .ok (u', rs)) :
    ∃ v r rs', Turn fl s frozen e u v r ∧ applyEntries fl s frozen es v = .ok (u', rs') ∧
      rs = r :: rs' := by
  obtain ⟨v, r, hturn, heq⟩ := applyEntries_cons fl s frozen u e es
  obtain ⟨w, rs', hw, -⟩ := applyEntries_ok fl s frozen v es
  rw [heq, hw] at h
  cases h
  exact ⟨v, r, rs', hturn, hw, rfl⟩

/-- What every entry of a batch preserves holds after the batch. -/
theorem applyEntries_inv {I : UpdateCtx → Prop} {es : List Entry} {rs : List ProposeResult}
    (hstep : ∀ e ∈ es, ∀ v w, I v → EntryStep s e.cmd v w → I w) (hu : I u)
    (h : applyEntries fl s frozen es u = .ok (u', rs)) : I u' := by
  induction es generalizing u rs with
  | nil => cases h; exact hu
  | cons e es ih =>
    obtain ⟨v, r, rs', hturn, hw, rfl⟩ := applyEntries_cons_ok h
    have hv : I v := by
      rcases hturn.entryStep with rfl | hes
      · exact hu
      · exact hstep e (by simp) u v hu hes
    exact ih (fun e he => hstep e (by simp [he])) hv hw

/-- A batch leaves the store it reads as it is. -/
theorem applyEntries_store {es : List Entry} {rs : List ProposeResult}
    (h : applyEntries fl s frozen es u = .ok (u', rs)) : u'.store = u.store :=
  applyEntries_inv (I := fun v => v.store = u.store)
    (fun _ _ _ _ hv hw => hw.grows.store.trans hv) rfl h

/-- A batch, from its entry loop and its counter writes. -/
theorem update_of {st : Store} {es : List Entry} {last : Entry} {rs : List ProposeResult}
    {cards : List StoreOp} (hl : es.getLast? = some last)
    (hu : applyEntries fl s (loadFrozen s st) es (newCtx s st) = .ok (u, rs))
    (hc : flushCards st u.cardDelta.toList = .ok cards) :
    update fl s st es = .ok (batchRC st (u.ops ++ seqOps s st u ++ cards
      ++ [.put (appliedKey s) (u64 last.index)]), rs) := by
  unfold update
  simp only [hl, hu, hc]

end

/-! ## Conditions met along a batch -/

/-- The entries that run no commands: migration and freeze. -/
def isControl (cmd : Bytes) : Bool :=
  match opByte? cmd with
  | some .ingest | some .purge | some .freeze | some .unfreeze => true
  | _ => false

theorem commandsOf_control {cmd : Bytes} (h : isControl cmd = true) : commandsOf cmd = none := by
  unfold isControl at h
  unfold commandsOf
  split at h <;> rename_i hop <;> first | rw [hop] | cases h

section
variable (fl : FloatOps) (s : UInt64) (frozen : List FrozenRange)
  (ok : Command → UpdateCtx → Prop)

def SubsMeet : List Bytes → UpdateCtx → Prop
  | [], _ => True
  | b :: bs, u =>
    (∀ c, decodeCommandInto b = .ok c → ok c u) ∧
      ∀ r u', applyOne fl s frozen b u = .ok r u' → SubsMeet bs u'

def EntryMeets (cmd : Bytes) (u : UpdateCtx) : Prop :=
  if isControl cmd then True
  else if opByte? cmd = some .batch then
    ∀ subs, decodeBatch cmd = .ok subs → SubsMeet fl s frozen ok subs u
  else SubsMeet fl s frozen ok [cmd] u

def EntriesMeet : List Entry → UpdateCtx → Prop
  | [], _ => True
  | e :: es, u =>
    EntryMeets fl s frozen ok e.cmd u ∧
      ∀ u' r, Turn fl s frozen e u u' r → EntriesMeet es u'

end

section
variable {fl : FloatOps} {s : UInt64} {frozen : List FrozenRange}
  {ok : Command → UpdateCtx → Prop} {I : UpdateCtx → Prop} {u u' : UpdateCtx}

/-- An invariant of the commands along a coalesced entry. -/
theorem applySubs_keeps
    (hcmd : ∀ c v r v', ok c v → I v → applyDecoded fl s frozen c v = .ok r v' → I v')
    {subs : List Bytes} (rs : List ProposeResult) (hmeet : SubsMeet fl s frozen ok subs u)
    (hu : I u) :
    Ends (fun _ u' => I u') (fun _ _ => True) (applySubs fl s frozen rs subs u) := by
  induction subs generalizing u rs with
  | nil => exact hu
  | cons b bs ih =>
    simp only [applySubs, List.foldlM_cons, ends_bind, ends_pure]
    cases hone : applyOne fl s frozen b u with
    | error e v => exact trivial
    | ok r v =>
      refine ih (rs ++ [r]) (hmeet.2 r v hone) ?_
      unfold applyOne at hone
      cases hd : decodeCommandInto b with
      | error e => rw [hd] at hone; cases hone
      | ok c =>
        rw [hd] at hone
        exact hcmd c u r v (hmeet.1 c hd) hu hone

def subsOf (cmd : Bytes) : List Bytes :=
  if opByte? cmd = some .batch then
    match decodeBatch cmd with
    | .ok subs => subs
    | .error _ => []
  else [cmd]

/-- An entry of commands runs them, and one that coalesces several packs their results. -/
theorem applyEntry_commands {cmd : Bytes} {r : ProposeResult} (hc : isControl cmd = false)
    (h : applyEntry fl s frozen cmd u = .ok r u') :
    ∃ rs, applySubs fl s frozen [] (subsOf cmd) u = .ok rs u' ∧
      r = if opByte? cmd = some .batch then { value := 0, data := encodeBatchResult rs }
        else rs.headD {} := by
  have hsingle : opByte? cmd ≠ some .batch → applyOne fl s frozen cmd u = .ok r u' →
      ∃ rs, applySubs fl s frozen [] (subsOf cmd) u = .ok rs u' ∧
        r = if opByte? cmd = some .batch then { value := 0, data := encodeBatchResult rs }
          else rs.headD {} := by
    intro hb hone
    refine ⟨[r], ?_, by rw [if_neg hb]; rfl⟩
    rw [subsOf, if_neg hb, applySubs, List.foldlM_cons, bind_apply, bind_apply, hone]
    rfl
  unfold applyEntry at h
  unfold isControl at hc
  cases hop : opByte? cmd with
  | none => exact hop ▸ hsingle (by simp [hop]) (by simpa [hop] using h)
  | some op =>
    rw [hop] at h hc
    cases op with
    | ingest | purge | freeze | unfreeze => cases hc
    | batch =>
      cases hd : decodeBatch cmd with
      | error e => simp only [hd] at h; cases h
      | ok subs =>
        simp only [hd, bind_apply] at h
        cases hrun : applySubs fl s frozen [] subs u with
        | error e v => rw [hrun] at h; cases h
        | ok rs v =>
          rw [hrun] at h
          cases h
          exact ⟨rs, by rw [subsOf, if_pos hop, hd, hrun], rfl⟩
    | _ => exact hop ▸ hsingle (by simp [hop]) h

theorem entryMeets_iff {cmd : Bytes} (hc : isControl cmd = false) :
    EntryMeets fl s frozen ok cmd u ↔ SubsMeet fl s frozen ok (subsOf cmd) u := by
  rw [EntryMeets, hc, if_neg (by decide), subsOf]
  split
  · cases hd : decodeBatch cmd with
    | error e => simp [SubsMeet]
    | ok subs => simp
  · rfl

/-- An invariant of the commands along an entry. -/
theorem applyEntry_keeps
    (hcmd : ∀ c v r v', ok c v → I v → applyDecoded fl s frozen c v = .ok r v' → I v')
    {cmd : Bytes} (hcontrol : isControl cmd = true → ∀ v, EntryStep s cmd u v → I v)
    (hmeet : EntryMeets fl s frozen ok cmd u) (hu : I u) :
    Ends (fun _ u' => I u') (fun _ _ => True) (applyEntry fl s frozen cmd u) := by
  cases hc : isControl cmd with
  | true =>
    exact (applyEntry_done fl s frozen u cmd).imp (fun _ v hv => hcontrol hc v hv)
      (fun _ _ _ => trivial)
  | false =>
    cases hr : applyEntry fl s frozen cmd u with
    | error e v => exact trivial
    | ok r v =>
      obtain ⟨rs, hrun, -⟩ := applyEntry_commands hc hr
      have hkeep := applySubs_keeps hcmd [] ((entryMeets_iff hc).mp hmeet) hu
      rw [hrun] at hkeep
      exact hkeep

/-- What every command that meets `ok` keeps, and every migration and freeze entry
of the batch, holds after the batch. -/
theorem applyEntries_keeps {es : List Entry} {rs : List ProposeResult}
    (hcmd : ∀ c v r v', ok c v → I v → applyDecoded fl s frozen c v = .ok r v' → I v')
    (hcontrol : ∀ e ∈ es, isControl e.cmd = true → ∀ v w, I v → EntryStep s e.cmd v w → I w)
    (hmeet : EntriesMeet fl s frozen ok es u) (hu : I u)
    (h : applyEntries fl s frozen es u = .ok (u', rs)) : I u' := by
  induction es generalizing u rs with
  | nil => cases h; exact hu
  | cons e es ih =>
    obtain ⟨v, r, rs', hturn, hw, rfl⟩ := applyEntries_cons_ok h
    have hv : I v := by
      cases hturn with
      | skipped _ => exact hu
      | applied hr =>
        have hkeep := applyEntry_keeps hcmd
          (fun hc v hv => hcontrol e (by simp) hc u v hu hv) hmeet.1 hu
        rw [hr] at hkeep
        exact hkeep
    exact ih (fun e he => hcontrol e (by simp [he])) (hmeet.2 v r hturn) hv hw

theorem subsMeet_of_forall {subs : List Bytes}
    (h : ∀ b ∈ subs, ∀ c, decodeCommandInto b = .ok c → ∀ v, ok c v) :
    SubsMeet fl s frozen ok subs u := by
  induction subs generalizing u with
  | nil => trivial
  | cons b bs ih =>
    exact ⟨fun c hc => h b (by simp) c hc u, fun r v _ => ih fun b' hb' => h b' (by simp [hb'])⟩

theorem entryMeets_of_forall {cmd : Bytes}
    (h : ∀ b ∈ subsOf cmd, ∀ c, decodeCommandInto b = .ok c → ∀ v, ok c v) :
    EntryMeets fl s frozen ok cmd u := by
  cases hc : isControl cmd with
  | true => rw [EntryMeets, if_pos hc]; trivial
  | false => exact (entryMeets_iff hc).mpr (subsMeet_of_forall h)

/-- A condition on the commands alone is met along every batch of such commands. -/
theorem entriesMeet_of_forall {es : List Entry}
    (h : ∀ e ∈ es, ∀ b ∈ subsOf e.cmd, ∀ c, decodeCommandInto b = .ok c → ∀ v, ok c v) :
    EntriesMeet fl s frozen ok es u := by
  induction es generalizing u with
  | nil => trivial
  | cons e es ih =>
    exact ⟨entryMeets_of_forall (h e (by simp)), fun v r _ => ih fun e' he' => h e' (by simp [he'])⟩

end

end WaveSpan.Collections
