/-
The engines of a shared destination, told apart by the archive format their
manifests carry.
-/
import XBackup.Manifest.Schema

namespace XBackup

inductive DbKind where
  | mongo
  | postgres
  | mysql
  | file
deriving DecidableEq, Repr

def startsWith (text lead : String) : Bool :=
  lead.toList.isPrefixOf text.toList

/-- Formats nobody else claims, and a missing one, are Mongo's. -/
def DbKind.fromArchiveFormat (fmt : Option String) : DbKind :=
  match fmt with
  | none => .mongo
  | some f =>
      if startsWith f "xb-pg" then .postgres
      else if startsWith f "xb-mysql" then .mysql
      else if startsWith f "xb-file" then .file
      else .mongo

def BackupManifest.dbKind (m : BackupManifest) : DbKind :=
  .fromArchiveFormat m.toolVersions.archiveFormat

def NATIVE_FORMAT_ID : String := "xb-native-v1"
def PG_FORMAT_ID : String := "xb-pg-v1"
def PG_INCR_FORMAT_ID : String := "xb-pg-incr-v1"
def MYSQL_FORMAT_ID : String := "xb-mysql-v1"
def MYSQL_INCR_FORMAT_ID : String := "xb-mysql-incr-v1"
def FILE_FORMAT_ID : String := "xb-file-tar-v1"
def FILE_INCR_FORMAT_ID : String := "xb-file-incr-v1"

/-- A complete, non-selective full backup of the given format. -/
def isFullOf (formatId : String) (m : BackupManifest) : Bool :=
  m.backupType = .full ∧ m.status = .complete ∧ ¬ m.selective ∧
    m.toolVersions.archiveFormat = some formatId

/-- A complete increment of the given format on `baseId`. -/
def isIncrementOf (formatId baseId : String) (m : BackupManifest) : Bool :=
  m.backupType = .incremental ∧ m.status = .complete ∧
    m.baseId = some baseId ∧ m.toolVersions.archiveFormat = some formatId

theorem isFullOf_spec {formatId : String} {m : BackupManifest}
    (hm : isFullOf formatId m = true) :
    m.backupType = .full ∧ m.dbKind = .fromArchiveFormat (some formatId) := by
  simp only [isFullOf, decide_eq_true_eq] at hm
  exact ⟨hm.1, by rw [BackupManifest.dbKind, hm.2.2.2]⟩

theorem isIncrementOf_spec {formatId baseId : String} {m : BackupManifest}
    (hm : isIncrementOf formatId baseId m = true) :
    m.backupType = .incremental ∧ m.baseId = some baseId ∧
      m.dbKind = .fromArchiveFormat (some formatId) := by
  simp only [isIncrementOf, decide_eq_true_eq] at hm
  exact ⟨hm.1, hm.2.2.1, by rw [BackupManifest.dbKind, hm.2.2.2]⟩

def isPgFull : BackupManifest → Bool := isFullOf PG_FORMAT_ID

def isMysqlFull : BackupManifest → Bool := isFullOf MYSQL_FORMAT_ID

end XBackup
