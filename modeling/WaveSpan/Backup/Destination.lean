/-
WaveSpan.Backup.Destination — where a backup's objects lie, and how they are found again
(`internal/backup/destination.go`, `coordinator.go`, `internal/config/backup.go`).

A request names a destination, gives one explicitly, or leaves it to the configured default.
`resolveDestination` makes of it a target to open and a descriptor to persist, which has no
secrets and does not say which of the three it came from. Deletion and retention open the
descriptor's store again, and guess: a name is a named destination, the default's bucket is
the default, the marker `inline` is lost.

The guess can be wrong. An explicit destination in the default's bucket, under a path of its own,
is taken for the default (`default_bucket_mistaken`); so is one whose credential reference is
the word `inline`, and a default destination that carries a name is looked up among the named
ones. The store is the one the backup was written to exactly if what is taken for another is
the same place with the same credentials (`destination_reopens`).
-/
import WaveSpan.Lib.Wire

namespace WaveSpan.Backup

open WaveSpan.Wire

/-! ## Destinations -/

/-- A place in an object store. -/
structure Location where
  bucket : String := ""
  pathPrefix : String := ""
  region : String := ""
  endpoint : String := ""
  useSSL : Bool := false
  usePathStyle : Bool := false
  deriving DecidableEq, Repr

/-- A configured destination; its credentials are in the variables it names. -/
structure BackupDestination extends Location where
  name : String := ""
  accessKeyEnv : String := ""
  secretKeyEnv : String := ""
  deriving DecidableEq, Repr

structure BackupConfig where
  defaultDestination : BackupDestination := {}
  namedDestinations : List BackupDestination := []
  allowInlineDestinationCreds : Bool := false

def BackupConfig.namedDestination (b : BackupConfig) (name : String) : Option BackupDestination :=
  b.namedDestinations.find? (·.name = name)

structure DestinationSpec extends Location where
  name : String := ""
  secretRef : String := ""
  inlineAccessKey : String := ""
  inlineSecretKey : String := ""
  deriving DecidableEq, Repr

structure S3Config extends Location where
  accessKey : String := ""
  secretKey : String := ""
  deriving DecidableEq, Repr

/-- The target to open: the node's own files, or an S3 place with its credentials. -/
structure ResolvedDestination where
  useFS : Bool := false
  s3 : S3Config := {}
  deriving DecidableEq, Repr

/-- What is persisted of a destination. -/
structure Descriptor extends Location where
  name : String := ""
  secretName : String := ""
  defaultFS : Bool := false
  deriving DecidableEq, Repr

inductive DestinationError where
  | unknownNamed (name : String)
  | inlineDisabled
  | requiresOpener (bucket : String)
  | openFailed
  deriving DecidableEq, Repr

def fromConfigDest (cd : BackupDestination) (getenv : String → String) :
    ResolvedDestination × Descriptor :=
  ({ s3 := { cd.toLocation with
      accessKey := getenv cd.accessKeyEnv, secretKey := getenv cd.secretKeyEnv } },
   { cd.toLocation with name := cd.name, secretName := cd.accessKeyEnv })

def resolveDestination (bc : BackupConfig) (spec : DestinationSpec) (getenv : String → String) :
    Except DestinationError (ResolvedDestination × Descriptor) :=
  if spec.name ≠ "" then
    match bc.namedDestination spec.name with
    | none => .error (.unknownNamed spec.name)
    | some nd => .ok (fromConfigDest nd getenv)
  else if spec.bucket ≠ "" then
    if spec.inlineAccessKey ≠ "" ∨ spec.inlineSecretKey ≠ "" then
      if bc.allowInlineDestinationCreds then
        .ok ({ s3 := { spec.toLocation with
                accessKey := spec.inlineAccessKey, secretKey := spec.inlineSecretKey } },
             { spec.toLocation with secretName := "inline" })
      else .error .inlineDisabled
    else
      .ok ({ s3 := { spec.toLocation with
              accessKey := getenv (spec.secretRef ++ "_ACCESS_KEY"),
              secretKey := getenv (spec.secretRef ++ "_SECRET_KEY") } },
           { spec.toLocation with secretName := spec.secretRef })
  else if bc.defaultDestination.bucket = "" then .ok ({ useFS := true }, { defaultFS := true })
  else .ok (fromConfigDest bc.defaultDestination getenv)

/-! ## The coordinator's stores -/

/-- The coordinator, over any kind of store. -/
structure StoreResolver (S : Type) where
  backupCfg : BackupConfig
  getenv : String → String
  /-- The node's default store. -/
  objStore : S
  openStore : Option (ResolvedDestination → Option S)

namespace StoreResolver

variable {S : Type} (c : StoreResolver S)

def resolveStore (spec : DestinationSpec) : Except DestinationError (S × Descriptor) := do
  let (rd, desc) ← resolveDestination c.backupCfg spec c.getenv
  match c.openStore with
  | some openStore =>
    match openStore rd with
    | some store => .ok (store, desc)
    | none => .error .openFailed
  | none => if rd.useFS then .ok (c.objStore, desc) else .error (.requiresOpener desc.bucket)

def specForDescriptor (d : Descriptor) : DestinationSpec :=
  if d.defaultFS then {}
  else if d.name ≠ "" then { name := d.name }
  else if d.bucket ≠ "" ∧ d.bucket = c.backupCfg.defaultDestination.bucket then {}
  else if d.bucket ≠ "" then { d.toLocation with secretRef := d.secretName }
  else {}

def storeForDescriptor (d : Descriptor) : Except DestinationError S := do
  let (store, _) ← c.resolveStore (c.specForDescriptor d)
  .ok store

/-- What deletion and retention open for a backup. -/
def storeForIntent (d : Descriptor) : Except DestinationError S :=
  if d.secretName = "inline" then .ok c.objStore else c.storeForDescriptor d

def objectsOf (backupID : Bytes) : Bytes := backupID ++ [0x2f]

/-- The objects left when a backup's are removed from the store opened for it. -/
def purge [DecidableEq S] (d : Descriptor) (backupID : Bytes) (objects : S → List Bytes) :
    Except DestinationError (S → List Bytes) := do
  let store ← c.storeForIntent d
  .ok (Function.update objects store
    ((objects store).filter fun key => !(objectsOf backupID).isPrefixOf key))

/-! ## The way back -/

/-- Where the descriptor of a request is taken for another kind of destination, that one is the
same target: the default for an explicit one in its bucket, and the named one for a default
that carries a name. -/
structure ToldApart (bc : BackupConfig) (getenv : String → String) (spec : DestinationSpec) :
    Prop where
  explicit : spec.name = "" → spec.bucket ≠ "" → spec.bucket = bc.defaultDestination.bucket →
    (fromConfigDest bc.defaultDestination getenv).1 =
      { s3 := { spec.toLocation with
          accessKey := getenv (spec.secretRef ++ "_ACCESS_KEY"),
          secretKey := getenv (spec.secretRef ++ "_SECRET_KEY") } }
  named : spec.name = "" → spec.bucket = "" → bc.defaultDestination.bucket ≠ "" →
    bc.defaultDestination.name ≠ "" →
      ∃ nd, bc.namedDestination bc.defaultDestination.name = some nd ∧
        (fromConfigDest nd getenv).1 = (fromConfigDest bc.defaultDestination getenv).1

variable {c} {spec : DestinationSpec} {rd : ResolvedDestination} {desc : Descriptor} {store : S}

/-- A descriptor is resolved to the target of the request it was made of. -/
theorem resolve_specForDescriptor (hkey : spec.inlineAccessKey = "")
    (hsecret : spec.inlineSecretKey = "")
    (h : resolveDestination c.backupCfg spec c.getenv = .ok (rd, desc)) :
    (∃ desc', resolveDestination c.backupCfg (c.specForDescriptor desc) c.getenv =
        .ok (rd, desc')) ↔ ToldApart c.backupCfg c.getenv spec := by
  rw [resolveDestination] at h
  split at h
  · rename_i hname
    split at h
    · cases h
    · rename_i nd hnd
      have hndName : nd.name = spec.name := by simpa using List.find?_some hnd
      cases h
      refine iff_of_true ?_ ⟨fun h => absurd h hname, fun h => absurd h hname⟩
      simp [specForDescriptor, fromConfigDest, resolveDestination, hndName, hname, hnd]
  · rename_i hname
    have hname : spec.name = "" := not_not.mp hname
    split at h
    · rename_i hbucket
      rw [if_neg (by simp [hkey, hsecret])] at h
      cases h
      by_cases hother : spec.bucket = c.backupCfg.defaultDestination.bucket
      · have hdefault : c.backupCfg.defaultDestination.bucket ≠ "" := hother ▸ hbucket
        have hsame : ToldApart c.backupCfg c.getenv spec ↔ (fromConfigDest
            c.backupCfg.defaultDestination c.getenv).1 = _ :=
          ⟨fun h => h.explicit hname hbucket hother,
            fun h => ⟨fun _ _ _ => h, fun _ hb => absurd hb hbucket⟩⟩
        rw [hsame]
        simp [specForDescriptor, resolveDestination, hother, hdefault, Prod.ext_iff]
      · refine iff_of_true ?_ ⟨fun _ _ h => absurd h hother, fun _ hb => absurd hb hbucket⟩
        simp [specForDescriptor, resolveDestination, hbucket, hother]
    · rename_i hbucket
      have hbucket : spec.bucket = "" := not_not.mp hbucket
      split at h
      · rename_i hfs
        cases h
        refine iff_of_true ?_ ⟨fun _ hb => absurd hbucket hb, fun _ _ hb => absurd hfs hb⟩
        simp [specForDescriptor, resolveDestination, hfs]
      · rename_i hs3
        cases h
        by_cases hplain : c.backupCfg.defaultDestination.name = ""
        · refine iff_of_true ?_ ⟨fun _ hb => absurd hbucket hb, fun _ _ _ hn => absurd hplain hn⟩
          simp [specForDescriptor, fromConfigDest, resolveDestination, hplain, hs3]
        · have hsame : ToldApart c.backupCfg c.getenv spec ↔ ∃ nd,
              c.backupCfg.namedDestination c.backupCfg.defaultDestination.name = some nd ∧
                (fromConfigDest nd c.getenv).1 =
                  (fromConfigDest c.backupCfg.defaultDestination c.getenv).1 :=
            ⟨fun h => h.named hname hbucket hs3 hplain,
              fun h => ⟨fun _ hb => absurd hbucket hb, fun _ _ _ _ => h⟩⟩
          rw [hsame]
          cases hnd : c.backupCfg.namedDestination c.backupCfg.defaultDestination.name with
          | none => simp [specForDescriptor, fromConfigDest, resolveDestination, hplain, hnd]
          | some nd =>
            simp [specForDescriptor, fromConfigDest, resolveDestination, hplain, hnd,
              Prod.ext_iff]

/-- A store is opened where the resolved destination lies. -/
theorem resolveStore_iff : c.resolveStore spec = .ok (store, desc) ↔
    ∃ rd, resolveDestination c.backupCfg spec c.getenv = .ok (rd, desc) ∧
      (match c.openStore with
      | some openStore => openStore rd
      | none => if rd.useFS then some c.objStore else none) = some store := by
  unfold resolveStore
  cases resolveDestination c.backupCfg spec c.getenv with
  | error e => simp [bind, Except.bind]
  | ok p =>
    obtain ⟨rd, d⟩ := p
    cases c.openStore <;> simp [bind, Except.bind] <;> grind

/-- A descriptor leads back to the target of its request, and to the store the backup was
written to: the one opened again for the descriptor, and the one opened to delete. -/
structure Reopens (c : StoreResolver S) (spec : DestinationSpec) (desc : Descriptor) (store : S) :
    Prop where
  target : ∃ rd desc', resolveDestination c.backupCfg spec c.getenv = .ok (rd, desc) ∧
    resolveDestination c.backupCfg (c.specForDescriptor desc) c.getenv = .ok (rd, desc')
  reopened : c.storeForDescriptor desc = .ok store
  deleted : c.storeForIntent desc = .ok store

/-- **A persisted destination leads back to the same objects** exactly if what it is taken for is
the same target and, where its credential reference is the word `inline`, it is in the node's
default store. Then a deletion takes the backup's objects out of the store they were written
to and touches no other. -/
theorem destination_reopens [DecidableEq S] (hkey : spec.inlineAccessKey = "")
    (hsecret : spec.inlineSecretKey = "") (h : c.resolveStore spec = .ok (store, desc)) :
    (c.Reopens spec desc store ↔ ToldApart c.backupCfg c.getenv spec ∧
        (desc.secretName = "inline" → c.objStore = store)) ∧
      (c.Reopens spec desc store → ∀ backupID objects, ∃ objects',
        c.purge desc backupID objects = .ok objects' ∧
          (∀ key ∈ objects' store, ¬ objectsOf backupID <+: key) ∧
          ∀ other, other ≠ store → objects' other = objects other) := by
  obtain ⟨rd, hrd, hopen⟩ := resolveStore_iff.mp h
  have hback := resolve_specForDescriptor hkey hsecret hrd
  refine ⟨⟨fun hreopens => ⟨?_, fun hmark => ?_⟩, fun ⟨hapart, hmark⟩ => ?_⟩,
    fun hreopens backupID objects => ?_⟩
  · obtain ⟨rd', desc', hrd', hagain⟩ := hreopens.target
    cases hrd.symm.trans hrd'
    exact hback.mp ⟨desc', hagain⟩
  · have hdeleted := hreopens.deleted
    rw [storeForIntent, if_pos hmark] at hdeleted
    exact Except.ok.inj hdeleted
  · obtain ⟨desc', hagain⟩ := hback.mpr hapart
    have hdesc : c.storeForDescriptor desc = .ok store := by
      rw [storeForDescriptor, resolveStore_iff.mpr ⟨rd, hagain, hopen⟩]
      rfl
    refine ⟨⟨rd, desc', hrd, hagain⟩, hdesc, ?_⟩
    rw [storeForIntent]
    split
    · rename_i hinline
      rw [hmark hinline]
    · exact hdesc
  · refine ⟨_, by rw [purge, hreopens.deleted]; rfl, fun key hkey => ?_, fun other hne => ?_⟩
    · rw [Function.update_self, List.mem_filter] at hkey
      rw [← List.isPrefixOf_iff_prefix, Bool.not_eq_true]
      exact Bool.not_eq_true' _ ▸ hkey.2
    · exact Function.update_of_ne hne _ _

/-! ## Wrong guesses -/

/-- A coordinator whose stores are the targets themselves, with a default in a bucket. -/
def plainCoordinator (name : String) : StoreResolver ResolvedDestination where
  backupCfg := { defaultDestination := { bucket := "b", pathPrefix := "prod", name } }
  getenv := id
  objStore := { s3 := { bucket := "b", pathPrefix := "prod" } }
  openStore := some some

/-- An explicit destination in a bucket of its own. -/
theorem destination_reopens_elsewhere :
    (plainCoordinator "").Reopens { bucket := "archive", secretRef := "ARCHIVE" }
      { bucket := "archive", secretName := "ARCHIVE" }
      { s3 := { bucket := "archive", accessKey := "ARCHIVE_ACCESS_KEY",
                secretKey := "ARCHIVE_SECRET_KEY" } } :=
  (destination_reopens rfl rfl rfl).1.mpr
    ⟨⟨fun _ _ h => absurd h (by decide), fun _ h => absurd h (by decide)⟩,
      fun h => absurd h (by decide)⟩

/-- A backup written under a path of its own in the default's bucket is looked for under the
default's path: its object stays when the backup is deleted. A default that carries a name is
not found again, and a reference called `inline` leads to the default store. -/
theorem default_bucket_mistaken :
    let c := plainCoordinator ""
    let spec : DestinationSpec := { bucket := "b", pathPrefix := "own", secretRef := "K" }
    let own : ResolvedDestination :=
      { s3 := { bucket := "b", pathPrefix := "own", accessKey := "K_ACCESS_KEY",
                secretKey := "K_SECRET_KEY" } }
    let desc : Descriptor := { bucket := "b", pathPrefix := "own", secretName := "K" }
    c.resolveStore spec = .ok (own, desc) ∧
    ((c.purge desc [1] fun s => if s = own then [objectsOf [1]] else []).toOption.map (· own)) =
      some [objectsOf [1]] ∧
    ((plainCoordinator "main").resolveStore {}).toOption.map
      (fun p => (plainCoordinator "main").storeForDescriptor p.2) =
        some (.error (.unknownNamed "main")) ∧
    (c.resolveStore { bucket := "archive", secretRef := "inline" }).toOption.map
      (fun p => (decide (c.storeForIntent p.2 = .ok p.1), c.storeForIntent p.2)) =
        some (false, .ok c.objStore) := by
  decide +kernel

end StoreResolver

end WaveSpan.Backup
