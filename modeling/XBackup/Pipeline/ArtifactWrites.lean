/-
What the backup pipelines do to their destinations: the data first, then the
index of a file backup, the manifest and its sidecar last, the deletes after a
failure, the mark of a promoted backup and the copies to the other
destinations.  What the servers answer is part of a run.
-/
import XBackup.Manifest.Artifact
import XBackup.Pipeline.SharedStore
import XBackup.Storage.Objects

namespace XBackup

/-- What the stages say of themselves in the manifest. -/
structure BackupMeta where
  compression : Option CompressionMeta
  encryption : Option EncryptionMeta
deriving DecidableEq, Repr

/-- The stages of a run, from the dump to what is stored. -/
structure Staging where
  apply : List UInt8 → List UInt8
  about : BackupMeta

/-- An upload of dumped bytes under the id that is drawn for it. -/
structure Upload where
  backupId : String
  bytes : List UInt8

structure StoredDump where
  backupId : String
  storedSize : Nat
  originalSize : Nat
  checksum : String
deriving DecidableEq, Repr

/-- The manifest of an engine with what was stored. -/
def StoredDump.describe (stored : StoredDump) (about : BackupMeta)
    (manifest : BackupManifest) : ArtifactManifest where
  toBackupManifest := manifest
  originalSizeBytes := stored.originalSize
  storedSizeBytes := stored.storedSize
  compression := about.compression
  encryption := about.encryption
  checksumSha256 := stored.checksum

/-- What the engine of a full backup puts into its manifest. -/
inductive FullKind where
  | mongo (engine : Engine) (topology : Topology) (selective : Bool)
      (oplogRange : Option OplogRange)
  | postgres (selective : Bool)
  | mysql (selective : Bool) (coords : Option MysqlBinlogCoords)
      (promotedFromGap : Bool)

def FullKind.manifest (id createdAt : String) : FullKind → BackupManifest
  | .mongo engine topology selective oplogRange =>
      mongoFullManifest id createdAt engine topology selective oplogRange false
  | .postgres selective => pgFullManifest id createdAt selective
  | .mysql selective coords promotedFromGap =>
      mysqlFullManifest id createdAt selective coords promotedFromGap

/-- A full backup of a database.  `ended` is how the dump ended, `asked` what
became of the questions asked after it. -/
structure FullPlan where
  upload : Upload
  stages : Staging
  createdAt : String
  kind : FullKind
  ended : Except XBackupError Unit
  asked : Except XBackupError Unit

structure FilePlan where
  upload : Upload
  stages : Staging
  createdAt : String
  index : List UInt8
  ended : Except XBackupError Unit

inductive CaptureError where
  | lateGap (message : String)
  | other (err : XBackupError)

/-- How the capture of a Mongo increment goes. -/
inductive MongoCapture where
  | gap
  | upToDate
  | captured (upload : Upload) (upper : OplogTimestamp)
      (result : Except CaptureError Nat)

structure MongoIncrement where
  capture : MongoCapture
  stages : Staging
  createdAt : String
  baseId : String
  lastBackupTs : OplogTimestamp
  emptyId : String
  full : FullPlan

inductive DriverKind where
  | postgres
  | mysql (coords : MysqlBinlogCoords)

def DriverKind.manifest (id createdAt baseId : String) (changeCount : Nat) :
    DriverKind → BackupManifest
  | .postgres => pgIncrementalManifest id createdAt baseId changeCount
  | .mysql coords =>
      mysqlIncrementalManifest id createdAt baseId changeCount coords

structure DriverIncrement where
  upload : Upload
  stages : Staging
  createdAt : String
  baseId : String
  kind : DriverKind
  changeCount : Nat

/-- The increment of a file backup; without changes it has no data. -/
structure FileIncrement where
  plan : FilePlan
  chain : FileChain
  changeCount : Nat

/-- A run of the backup command, with all it meets besides the storage. -/
inductive ArtifactRun where
  | full (plan : FullPlan)
  | mongoIncremental (plan : MongoIncrement)
  | driverIncremental (plan : DriverIncrement)
  | fileFull (plan : FilePlan) (promotedFromGap : Bool)
  | fileIncremental (plan : FileIncrement)

/-- What a run reports. -/
structure Stored where
  backupId : String
  storedSize : Nat
deriving DecidableEq, Repr

namespace Artifact

open Bytes Interleaving Objects

variable {δ α : Type} (lib : ManifestLib) (dest : δ)

/-- Delete some files of a backup; none of the deletes need succeed. -/
def deleteAll (paths : List String) :
    Program (StorageOp.Reply (δ := δ)) PUnit :=
  paths.forM fun path => do
    let _ ← (delete (dest, path)).run
    return

/-- `cleanup` of the full backups -/
def cleanup (backupId : String) : Program (StorageOp.Reply (δ := δ)) PUnit :=
  deleteAll dest [dataPath backupId, manifestPath backupId,
    manifestShaPath backupId, fileIndexPath backupId]

/-- `cleanup` of the Mongo increments -/
def cleanupIncremental (backupId : String) :
    Program (StorageOp.Reply (δ := δ)) PUnit :=
  deleteAll dest [dataPath backupId, manifestPath backupId,
    manifestShaPath backupId]

/-- A failure is passed on after the cleanup. -/
def cleaningUp (clean : Program (StorageOp.Reply (δ := δ)) PUnit)
    (action : StorageRun δ α) : StorageRun δ α :=
  ExceptT.mk do
    match ← action.run with
    | .ok value => return .ok value
    | .error err =>
        clean
        return .error err

def writeManifest (manifest : ArtifactManifest) : StorageRun δ Unit := do
  let bytes := lib.toVecPretty manifest
  putStream (dest, manifestPath manifest.id) bytes
  putStream (dest, manifestShaPath manifest.id)
    (utf8 (sidecarChecksum lib bytes))

def readStored (backupId : String) : StorageRun δ ArtifactManifest := do
  let bytes ← getStream (dest, manifestPath backupId)
  match lib.fromSlice bytes with
  | .ok manifest => return manifest
  | .error err => throw (.failure
      ("failed to parse the manifest (" ++ backupId ++ "): " ++ err))

/-- A failed upload ends the run without a cleanup, a failed dump with one. -/
def storeDumpStream (upload : Upload) (stages : Staging)
    (ended : Except XBackupError Unit) : StorageRun δ StoredDump := do
  let stored := stages.apply upload.bytes
  putStream (dest, dataPath upload.backupId) stored
  cleaningUp (cleanup dest upload.backupId) (ExceptT.mk (return ended))
  return {
    backupId := upload.backupId
    storedSize := stored.length
    originalSize := upload.bytes.length
    checksum := lib.sha256 stored }

def writeManifestOrCleanup (manifest : ArtifactManifest) : StorageRun δ Unit :=
  cleaningUp (cleanup dest manifest.id) (writeManifest lib dest manifest)

def writeFileIndexOrCleanup (backupId : String) (index : List UInt8) :
    StorageRun δ Unit :=
  cleaningUp (cleanup dest backupId)
    (putStream (dest, fileIndexPath backupId) index)

/-- The full backup of a database server. -/
def runFullBackup (plan : FullPlan) : StorageRun δ Stored := do
  let stored ← storeDumpStream lib dest plan.upload plan.stages plan.ended
  ExceptT.mk (return plan.asked)
  writeManifestOrCleanup lib dest (stored.describe plan.stages.about
    (plan.kind.manifest stored.backupId plan.createdAt))
  return ⟨stored.backupId, stored.storedSize⟩

/-- The manifest of a promoted backup is read again and written with its mark;
a failure of that is only logged. -/
def markPromoted (backupId : String) :
    Program (StorageOp.Reply (δ := δ)) PUnit := do
  match ← (readStored lib dest backupId).run with
  | .ok manifest =>
      let _ ← (writeManifest lib dest
        { manifest with promotedFromGap := true }).run
      return
  | .error _ => return

def promoteToFull (plan : FullPlan) : StorageRun δ Stored := do
  let outcome ← runFullBackup lib dest plan
  ExceptT.lift (markPromoted lib dest outcome.backupId)
  return outcome

/-- The record of an increment that has no data. -/
def emptyDump (backupId : String) : StoredDump where
  backupId := backupId
  storedSize := 0
  originalSize := 0
  checksum := lib.sha256 []

def recordEmptySlice (plan : MongoIncrement) : StorageRun δ Stored := do
  cleaningUp (cleanupIncremental dest plan.emptyId)
    (writeManifest lib dest ((emptyDump lib plan.emptyId).describe ⟨none, none⟩
      (mongoIncrementalManifest plan.emptyId plan.createdAt plan.baseId
        ⟨plan.lastBackupTs, plan.lastBackupTs⟩ 0)))
  return ⟨plan.emptyId, 0⟩

/-- The stored bytes of a captured slice; its size before the stages is not
counted apart. -/
def slice (upload : Upload) (stages : Staging) : StoredDump :=
  let stored := stages.apply upload.bytes
  { backupId := upload.backupId
    storedSize := stored.length
    originalSize := stored.length
    checksum := lib.sha256 stored }

def runIncrementalBackup (plan : MongoIncrement) : StorageRun δ Stored :=
  match plan.capture with
  | .gap => promoteToFull lib dest plan.full
  | .upToDate => recordEmptySlice lib dest plan
  | .captured upload upper result => do
      let clean := cleanupIncremental dest upload.backupId
      let stored := slice lib upload plan.stages
      cleaningUp clean (putStream (dest, dataPath upload.backupId)
        (plan.stages.apply upload.bytes))
      match result with
      | .error (.lateGap _) =>
          ExceptT.lift clean
          promoteToFull lib dest plan.full
      | .error (.other err) =>
          ExceptT.lift clean
          throw err
      | .ok 0 =>
          ExceptT.lift clean
          recordEmptySlice lib dest plan
      | .ok (more + 1) =>
          cleaningUp clean (writeManifest lib dest
            (stored.describe plan.stages.about
              (mongoIncrementalManifest upload.backupId plan.createdAt
                plan.baseId ⟨plan.lastBackupTs, upper⟩ (more + 1))))
          return ⟨upload.backupId, stored.storedSize⟩

/-- The increments of MySQL and PostgreSQL.  A failure to record one without
changes leaves what was written. -/
def runDriverIncremental (plan : DriverIncrement) : StorageRun δ Stored :=
  let id := plan.upload.backupId
  let manifest := plan.kind.manifest id plan.createdAt plan.baseId
    plan.changeCount
  if plan.changeCount = 0 then do
    writeManifest lib dest
      ((emptyDump lib id).describe ⟨none, none⟩ manifest)
    return ⟨id, 0⟩
  else do
    let stored := slice lib plan.upload plan.stages
    cleaningUp (cleanup dest id) (putStream (dest, dataPath id)
      (plan.stages.apply plan.upload.bytes))
    cleaningUp (cleanup dest id) (writeManifest lib dest
      (stored.describe plan.stages.about manifest))
    return ⟨id, stored.storedSize⟩

def runFileFullBackupInner (plan : FilePlan) (promotedFromGap : Bool) :
    StorageRun δ Stored := do
  let stored ← storeDumpStream lib dest plan.upload plan.stages plan.ended
  writeFileIndexOrCleanup dest stored.backupId plan.index
  writeManifestOrCleanup lib dest (stored.describe plan.stages.about
    (fileFullManifest stored.backupId plan.createdAt promotedFromGap))
  return ⟨stored.backupId, stored.storedSize⟩

def runFileIncrementalBackup (increment : FileIncrement) :
    StorageRun δ Stored := do
  let plan := increment.plan
  let stored ← (if increment.changeCount = 0 then
      return emptyDump lib plan.upload.backupId
    else storeDumpStream lib dest plan.upload plan.stages plan.ended)
  writeFileIndexOrCleanup dest stored.backupId plan.index
  writeManifestOrCleanup lib dest (stored.describe plan.stages.about
    (fileIncrementalManifest stored.backupId plan.createdAt increment.chain
      increment.changeCount))
  return ⟨stored.backupId, stored.storedSize⟩

def runBackup : ArtifactRun → StorageRun δ Stored
  | .full plan => runFullBackup lib dest plan
  | .mongoIncremental plan => runIncrementalBackup lib dest plan
  | .driverIncremental plan => runDriverIncremental lib dest plan
  | .fileFull plan promotedFromGap =>
      runFileFullBackupInner lib dest plan promotedFromGap
  | .fileIncremental increment => runFileIncrementalBackup lib dest increment

def copyObject (target : δ) (path : String) : StorageRun δ Unit := do
  let bytes ← getStream (dest, path)
  putStream (target, path) bytes

def replicateArtifact (target : δ) (backupId : String) (hasData : Bool) :
    StorageRun δ Unit := do
  if hasData then
    copyObject dest target (dataPath backupId)
  copyObject dest target (manifestPath backupId)
  copyObject dest target (manifestShaPath backupId)

/-- The copies to the other destinations, one after the other; a destination
that cannot be set up fails as a copy does. -/
def replicate (backupId : String) (hasData : Bool) :
    List (Except XBackupError δ) →
      Program (StorageOp.Reply (δ := δ)) (List (Except XBackupError Unit))
  | [] => return []
  | .error err :: rest =>
      return .error err :: (← replicate backupId hasData rest)
  | .ok target :: rest => do
      let copied ← (replicateArtifact dest target backupId hasData).run
      return copied :: (← replicate backupId hasData rest)

/-- The warning that names the destinations without a copy. -/
def replicateWarning (labels : List String)
    (results : List (Except XBackupError Unit)) : Option String :=
  let failures := (labels.zip results).filterMap fun copy =>
    match copy.2 with
    | .ok () => none
    | .error err => some (copy.1 ++ ": " ++ err.message)
  if failures.isEmpty then none
  else some ("the primary backup succeeded, but replication to " ++
    toString failures.length ++ " secondary destination(s) failed: " ++
    String.intercalate " / " failures)

/-- What the backup command reports: the backup at the primary destination and
how each copy went. -/
structure Reported where
  stored : Stored
  copies : List (Except XBackupError Unit)

/-- The backup command: the run and, if it succeeds, the copies. -/
def backup (run : ArtifactRun) (secondaries : List (Except XBackupError δ)) :
    StorageRun δ Reported := do
  let stored ← runBackup lib dest run
  let copies ← ExceptT.lift (replicate dest stored.backupId
    (decide (0 < stored.storedSize)) secondaries)
  return ⟨stored, copies⟩

def deleteIfExists (path : String) : StorageRun δ Unit :=
  ExceptT.mk do
    match ← (delete (dest, path)).run with
    | .ok () => return .ok ()
    | .error err =>
        if tellsAbsence err.message then return .ok ()
        else return .error (.storageDownload (deleteFailed path err.message))

/-- The deletes of a prune, backup after backup. -/
def prune (backupIds : List String) : StorageRun δ Unit :=
  (backupIds.flatMap backupPaths).forM (deleteIfExists dest)

end Artifact

end XBackup
