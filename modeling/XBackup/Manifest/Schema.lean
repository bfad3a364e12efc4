/-
The manifest schema of the backup catalog: oplog timestamps, backup kinds and
the sidecar record every artifact carries.  Sizes, checksums and the crypto
metadata are left out; no modelled function reads them.
-/
import Mathlib

namespace XBackup

/-- The error classes the modelled functions return. -/
inductive XBackupError where
  | failure (message : String)
  | usage (message : String)
  | precheckFailed (message : String)
  | storageDownload (message : String)
  | storageUpload (message : String)
deriving DecidableEq, Repr

/-- A BSON timestamp: seconds and the increment inside the second. -/
structure OplogTimestamp where
  t : UInt32
  i : UInt32
deriving DecidableEq, Repr

namespace OplogTimestamp

/-- The comparison of the source: `t` first, then `i`. -/
def cmp (left right : OplogTimestamp) : Ordering :=
  (compare left.t right.t).then (compare left.i right.i)

/-- The pair of natural numbers that carries the order. -/
def key (ts : OplogTimestamp) : ℕ ×ₗ ℕ :=
  toLex (ts.t.toNat, ts.i.toNat)

theorem key_injective : Function.Injective key := by
  intro left right heq
  cases left with
  | mk lt li =>
      cases right with
      | mk rt ri =>
          simp only [key, EmbeddingLike.apply_eq_iff_eq, Prod.mk.injEq] at heq
          rw [UInt32.toNat_inj.mp heq.1, UInt32.toNat_inj.mp heq.2]

instance : LinearOrder OplogTimestamp :=
  LinearOrder.lift' key key_injective

theorem lt_iff (left right : OplogTimestamp) :
    left < right ↔ left.t.toNat < right.t.toNat ∨
      left.t.toNat = right.t.toNat ∧ left.i.toNat < right.i.toNat := by
  change key left < key right ↔ _
  simp [key, Prod.Lex.toLex_lt_toLex]

theorem le_iff (left right : OplogTimestamp) :
    left ≤ right ↔ left.t.toNat < right.t.toNat ∨
      left.t.toNat = right.t.toNat ∧ left.i.toNat ≤ right.i.toNat := by
  change key left ≤ key right ↔ _
  simp [key, Prod.Lex.toLex_le_toLex]

/-- Ascending timestamps have ascending seconds. -/
theorem t_le_of_le {left right : OplogTimestamp} (hle : left ≤ right) :
    left.t.toNat ≤ right.t.toNat := by
  rw [le_iff] at hle
  omega

/-- The order used by the proofs is the comparison of the source. -/
theorem cmp_eq_compare (left right : OplogTimestamp) :
    cmp left right = compare left right := by
  have hcmp : cmp left right = (compare left.t.toNat right.t.toNat).then
      (compare left.i.toNat right.i.toNat) := by
    rw [cmp, UInt32.compare_eq_toNat_compare_toNat,
      UInt32.compare_eq_toNat_compare_toNat]
  rcases lt_trichotomy left right with hlt | rfl | hgt
  · rw [compare_lt_iff_lt.mpr hlt, hcmp, Ordering.then_eq_lt]
    simpa only [compare_lt_iff_lt, compare_eq_iff_eq] using
      (lt_iff left right).mp hlt
  · rw [hcmp]
    simp
  · rw [compare_gt_iff_gt.mpr hgt, hcmp, Ordering.then_eq_gt]
    have hlex := (lt_iff right left).mp hgt
    simpa only [compare_gt_iff_gt, compare_eq_iff_eq, gt_iff_lt,
      @eq_comm _ left.t.toNat] using hlex

end OplogTimestamp

/-- The oplog window of a backup: the last timestamp seen before it and the
last one it covers. -/
structure OplogRange where
  startTs : OplogTimestamp
  endTs : OplogTimestamp
deriving DecidableEq, Repr

inductive BackupType where
  | full
  | incremental
deriving DecidableEq, Repr

inductive BackupStatus where
  | complete
  | incomplete
deriving DecidableEq, Repr

inductive Topology where
  | replicaSet
  | standalone
deriving DecidableEq, Repr

/-- A position in the binlog of a MySQL server. -/
structure MysqlBinlogCoords where
  file : String
  position : Nat
  gtidExecuted : String
deriving DecidableEq, Repr

structure ToolVersions where
  mongodump : Option String
  archiveFormat : Option String
deriving DecidableEq, Repr

/-- The sidecar record `<id>/manifest.json`. -/
structure BackupManifest where
  id : String
  createdAt : String
  backupType : BackupType
  baseId : Option String
  topology : Topology
  toolVersions : ToolVersions
  selective : Bool
  oplogRange : Option OplogRange
  oplogCount : Option Nat
  promotedFromGap : Bool
  mysqlBinlog : Option MysqlBinlogCoords
  status : BackupStatus
deriving DecidableEq, Repr

end XBackup
