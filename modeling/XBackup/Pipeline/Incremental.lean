/-
The incremental Mongo run: the base it continues, the gap check, the bound of
the slice, and the manifest it records or the full backup it is promoted to.
-/
import XBackup.Engine.DbKind
import XBackup.Engine.Mongo.Oplog
import XBackup.Manifest.Store
import XBackup.Pipeline.FullBackup

namespace XBackup

open AscendingLog SortedNames

/-- The full backup a new increment is recorded under, and the last backup of
its chain, which the increment continues. -/
structure BaseSelection where
  fullBaseId : String
  tipId : String
  lastBackupTs : OplogTimestamp
deriving DecidableEq, Repr

/-- Whether an increment may be recorded under this full backup. -/
def isChainBase (m : BackupManifest) : Bool :=
  m.backupType = .full ∧ m.status = .complete ∧ ¬ m.selective

/-- What a backup offers as the end of a chain. -/
def baseSelection (storage : Storage) (m : BackupManifest) :
    Option BaseSelection :=
  if m.status ≠ .complete ∨ m.selective then none
  else
    match m.oplogRange with
    -- a full backup of a standalone server has no oplog window
    | none => none
    | some range =>
        match m.backupType, m.baseId with
        | .full, _ => some ⟨m.id, m.id, range.endTs⟩
        | .incremental, none => none
        | .incremental, some fullBaseId =>
            match storage.read fullBaseId with
            | .ok base =>
                if isChainBase base then some ⟨fullBaseId, m.id, range.endTs⟩
                else none
            | .error _ => none

/-- Why no backup of the store can be continued. -/
def noBaseDetail (storage : Storage) : String :=
  let readable := storage.manifestDirs.filterMap fun id =>
    (storage.read id).toOption
  if storage.manifestDirs.isEmpty then
    "no backups in the store — run a full backup (--type full) once first."
  else if readable.any fun m => m.status = .complete ∧ m.selective then
    "no eligible base — a selective backup (--db/--collection) cannot serve " ++
      "as an incremental base (FR-1)."
  else if readable.any fun m => m.status ≠ .complete then
    "no eligible base — the most recent backup is incomplete (partially " ++
      "succeeded) and cannot serve as a base."
  else
    "no eligible base — a Complete full or incremental backup with a " ++
      "recorded oplog range is required."

/-- The latest backup, of whatever engine, that offers the end of a chain. -/
def selectBase (storage : Storage) : Except XBackupError BaseSelection :=
  let ids := (storage.manifestDirs.insertionSort (· ≤ ·)).reverse
  let found := ids.findSome? fun id =>
    match storage.read id with
    | .ok m => baseSelection storage m
    | .error _ => none
  match found with
  | some selection => .ok selection
  | none => .error (.usage (noBaseDetail storage))

/-- How reading the slice ended: with a number of entries, with a cursor that
the server had dropped, or with another error. -/
inductive CaptureResult where
  | captured (count : Nat)
  | lateGap
  | other (err : XBackupError)
deriving DecidableEq, Repr

/-- The server as one incremental run meets it: the oplog at the gap check, at
the query for the latest entry and at the one behind it, and the capture. -/
structure OplogServer where
  supportsOplog : Bool
  atGapCheck : List Document
  atLatest : List Document
  atBoundary : List Document
  capture : CaptureResult

inductive IncrementalResult where
  | captured (base : BaseSelection) (range : OplogRange) (oplogCount : Nat)
  | promotedToFull
deriving DecidableEq, Repr

/-- An empty slice keeps the position it starts from. -/
def emptySlice (base : BaseSelection) : IncrementalResult :=
  .captured base ⟨base.lastBackupTs, base.lastBackupTs⟩ 0

/-- What an incremental run records, unless it fails. -/
def runIncrementalBackup (storage : Storage) (server : OplogServer) :
    Except XBackupError IncrementalResult :=
  if server.supportsOplog then
    match selectBase storage with
    | .error err => .error err
    | .ok base =>
        match detectGap server.atGapCheck base.lastBackupTs with
        | .oplogEmpty => .ok .promotedToFull
        | .gap _ _ => .ok .promotedToFull
        | .ok _ =>
            let upper := (resolveUpperBound server.atLatest
              server.atBoundary).getD base.lastBackupTs
            if upper ≤ base.lastBackupTs then .ok (emptySlice base)
            else
              match server.capture with
              | .other err => .error err
              | .lateGap => .ok .promotedToFull
              | .captured count =>
                  if count = 0 then .ok (emptySlice base)
                  else .ok (.captured base ⟨base.lastBackupTs, upper⟩ count)
  else .error (.failure
    ("a standalone server has no oplog, so an incremental backup is not " ++
      "possible — a replica set is required (FR-2). Use a full backup " ++
      "(--type full) instead."))

inductive Engine where
  | native
  | mongodump
deriving DecidableEq, Repr

def Engine.archiveFormat : Engine → String
  | .native => NATIVE_FORMAT_ID
  | .mongodump => "mongodump"

/-- The window is recorded for whole dumps of a replica set. -/
def mongoFullManifest (id createdAt : String) (engine : Engine)
    (topology : Topology) (selective : Bool) (oplogRange : Option OplogRange)
    (promotedFromGap : Bool) : BackupManifest where
  id := id
  createdAt := createdAt
  backupType := .full
  baseId := none
  topology := topology
  toolVersions := ⟨none, some engine.archiveFormat⟩
  selective := selective
  oplogRange :=
    if decideOplog (topology = .replicaSet) selective then oplogRange else none
  oplogCount := none
  promotedFromGap := promotedFromGap
  mysqlBinlog := none
  status := .complete

def mongoIncrementalManifest (id createdAt baseId : String)
    (oplogRange : OplogRange) (oplogCount : Nat) : BackupManifest where
  id := id
  createdAt := createdAt
  backupType := .incremental
  baseId := some baseId
  topology := .replicaSet
  toolVersions := ⟨none, none⟩
  selective := false
  oplogRange := some oplogRange
  oplogCount := some oplogCount
  promotedFromGap := false
  mysqlBinlog := none
  status := .complete

theorem baseSelection_eq_some {storage : Storage} {m : BackupManifest}
    {selection : BaseSelection}
    (hoffer : baseSelection storage m = some selection) :
    selection.tipId = m.id ∧
      (∃ range, m.oplogRange = some range ∧
        selection.lastBackupTs = range.endTs) ∧
      (m.backupType = .full ∧ selection.fullBaseId = m.id ∨
        m.backupType = .incremental ∧ m.baseId = some selection.fullBaseId) := by
  simp only [baseSelection] at hoffer
  split at hoffer
  · cases hoffer
  split at hoffer
  · cases hoffer
  next range hrange =>
    split at hoffer
    next hfull =>
      cases hoffer
      exact ⟨rfl, ⟨range, hrange, rfl⟩, Or.inl ⟨hfull, rfl⟩⟩
    next => cases hoffer
    next fullBaseId hincremental hbase =>
      split at hoffer
      next base hread =>
        split at hoffer
        · cases hoffer
          exact ⟨rfl, ⟨range, hrange, rfl⟩, Or.inr ⟨hincremental, hbase⟩⟩
        · cases hoffer
      · cases hoffer

/-- In a catalog the choice is the backup of the greatest id that offers the
end of a chain. -/
theorem selectBase_toStorage_iff {catalog : Catalog}
    {selection : BaseSelection} :
    selectBase catalog.toStorage = .ok selection ↔
      ∃ tip ∈ catalog.manifests,
        baseSelection catalog.toStorage tip = some selection ∧
          ∀ other ∈ catalog.manifests,
            (baseSelection catalog.toStorage other).isSome →
              other.id ≤ tip.id := by
  have hascending : (catalog.manifests.map BackupManifest.id).Pairwise
      (· < ·) := List.pairwise_map.mpr catalog.ascending
  have hsorted : catalog.toStorage.manifestDirs.insertionSort (· ≤ ·) =
      catalog.manifests.map BackupManifest.id :=
    List.Pairwise.insertionSort_eq (hascending.imp le_of_lt)
  have hread : ∀ m ∈ catalog.manifests,
      (match catalog.toStorage.read m.id with
        | .ok m => baseSelection catalog.toStorage m
        | .error _ => none) = baseSelection catalog.toStorage m := by
    intro m hmem
    rw [Catalog.read_toStorage.mpr ⟨hmem, rfl⟩]
  have hfound : selectBase catalog.toStorage = .ok selection ↔
      (catalog.manifests.map BackupManifest.id).reverse.findSome? (fun id =>
        match catalog.toStorage.read id with
        | .ok m => baseSelection catalog.toStorage m
        | .error _ => none) = some selection := by
    rw [selectBase, hsorted]
    split
    next found hsome => rw [hsome]; simp
    next hnone => rw [hnone]; simp
  rw [hfound, findSome_reverse_eq_some_iff hascending]
  constructor
  · rintro ⟨id, hid, hoffer, hmax⟩
    obtain ⟨tip, htip, rfl⟩ := List.mem_map.mp hid
    refine ⟨tip, htip, (hread tip htip).symm.trans hoffer, ?_⟩
    intro other hother hsome
    refine hmax other.id (List.mem_map_of_mem hother) ?_
    rwa [hread other hother]
  · rintro ⟨tip, htip, hoffer, hmax⟩
    refine ⟨tip.id, List.mem_map_of_mem htip, (hread tip htip).trans hoffer, ?_⟩
    intro id hid hsome
    obtain ⟨other, hother, rfl⟩ := List.mem_map.mp hid
    rw [hread other hother] at hsome
    exact hmax other hother hsome

/-- Without a gap the oplog reaches back to the last backup. -/
theorem detectGap_ok {oplog : List Document} {last : OplogTimestamp}
    {boundaryRisk : Bool} (hgap : detectGap oplog last = .ok boundaryRisk) :
    ∃ min, minOplogTs oplog = some min ∧ min ≤ last := by
  rw [detectGap] at hgap
  split at hgap
  next => cases hgap
  next min hmin =>
    refine ⟨min, hmin, ?_⟩
    by_contra hlate
    have hlt : last.cmp min = .lt := by
      rw [OplogTimestamp.cmp_eq_compare]
      exact compare_lt_iff_lt.mpr (not_le.mp hlate)
    rw [classifyGap, hlt] at hgap
    cases hgap

/-- The server lets a run record a slice from `last` on: its oplog reaches back
to there, and whatever lies behind is captured. -/
def OplogServer.Continuable (server : OplogServer) (last : OplogTimestamp) :
    Prop :=
  server.supportsOplog = true ∧
    (∃ min, minOplogTs server.atGapCheck = some min ∧ min ≤ last) ∧
    ((resolveUpperBound server.atLatest server.atBoundary).getD last ≤ last ∨
      ∃ count, server.capture = .captured count)

/-- A recorded slice continues the selected base, and does not end before it
starts. -/
theorem runIncrementalBackup_captured {storage : Storage}
    {server : OplogServer} {base : BaseSelection} {range : OplogRange}
    {oplogCount : Nat}
    (hrun : runIncrementalBackup storage server =
      .ok (.captured base range oplogCount)) :
    selectBase storage = .ok base ∧ range.startTs = base.lastBackupTs ∧
      range.startTs ≤ range.endTs ∧
      server.Continuable base.lastBackupTs := by
  unfold runIncrementalBackup at hrun
  split at hrun
  next hsupports =>
    split at hrun
    next => cases hrun
    next chosen hchosen =>
      split at hrun
      next => cases hrun
      next => cases hrun
      next boundaryRisk hgap =>
        have hmin := detectGap_ok hgap
        simp only [emptySlice] at hrun
        split at hrun
        next hupper =>
          cases hrun
          exact ⟨hchosen, rfl, le_refl _, hsupports, hmin, Or.inl hupper⟩
        next hbehind =>
          split at hrun
          next => cases hrun
          next => cases hrun
          next count hcapture =>
            split at hrun
            · cases hrun
              exact ⟨hchosen, rfl, le_refl _, hsupports, hmin,
                Or.inr ⟨_, hcapture⟩⟩
            · cases hrun
              exact ⟨hchosen, rfl, (not_le.mp hbehind).le, hsupports, hmin,
                Or.inr ⟨_, hcapture⟩⟩
  next => cases hrun

/-- A server whose oplog starts at `first` and ends at `latest`. -/
def oplogServer (first latest : OplogTimestamp) : OplogServer where
  supportsOplog := true
  atGapCheck := [[("ts", .scalar (.timestamp first))],
    [("ts", .scalar (.timestamp latest))]]
  atLatest := [[("ts", .scalar (.timestamp first))],
    [("ts", .scalar (.timestamp latest))]]
  atBoundary := [[("ts", .scalar (.timestamp latest))]]
  capture := .captured 1

end XBackup
