/-
The chain of a file destination: the latest full backup, its head, and the
manifests a file run records.  The oplog window carries a generation counter.
-/
import XBackup.Engine.DbKind
import XBackup.Manifest.Store

namespace XBackup

/-- Every full backup of files starts its chain here. -/
def FILE_CHAIN_START : OplogTimestamp := ⟨1, 0⟩

structure FileChain where
  baseId : String
  headId : String
  headGen : UInt32
deriving DecidableEq, Repr

def isFileFull (m : BackupManifest) : Bool :=
  m.backupType = .full ∧ m.status = .complete ∧
    m.toolVersions.archiveFormat = some FILE_FORMAT_ID

/-- One round of the search for the latest full backup. -/
def newerFileFull (base : Option BackupManifest) (m : BackupManifest) :
    Option BackupManifest :=
  if isFileFull m then
    match base with
    | none => some m
    | some cur => if cur.id < m.id then some m else some cur
  else base

/-- One round of the search for the head: the greatest generation, and of these
the greatest id. -/
def laterHead (baseId : String) (head : String × UInt32) (m : BackupManifest) :
    String × UInt32 :=
  if isIncrementOf FILE_INCR_FORMAT_ID baseId m then
    match m.oplogRange with
    | none => head
    | some range =>
        let gen := range.endTs.t
        if head.2 < gen ∨ gen = head.2 ∧ head.1 < m.id then (m.id, gen)
        else head
  else head

/-- `none` when there is no full backup of files. -/
def collectFileChain (storage : Storage) : Option FileChain :=
  let manifests := (collectManifestIds storage).filterMap fun id =>
    (storage.read id).toOption
  (manifests.foldl newerFileFull none).map fun base =>
    let head := manifests.foldl (laterHead base.id)
      (base.id, FILE_CHAIN_START.t)
    ⟨base.id, head.1, head.2⟩

def fileFullManifest (id createdAt : String) (promotedFromGap : Bool) :
    BackupManifest where
  id := id
  createdAt := createdAt
  backupType := .full
  baseId := none
  topology := .standalone
  toolVersions := ⟨none, some FILE_FORMAT_ID⟩
  selective := false
  oplogRange := some ⟨FILE_CHAIN_START, FILE_CHAIN_START⟩
  oplogCount := none
  promotedFromGap := promotedFromGap
  mysqlBinlog := none
  status := .complete

/-- An increment without changes keeps the generation of the head. -/
def fileIncrementalManifest (id createdAt : String) (chain : FileChain)
    (changeCount : Nat) : BackupManifest :=
  let start : OplogTimestamp := ⟨chain.headGen, 0⟩
  { id := id
    createdAt := createdAt
    backupType := .incremental
    baseId := some chain.baseId
    topology := .standalone
    toolVersions := ⟨none, some FILE_INCR_FORMAT_ID⟩
    selective := false
    oplogRange := some
      ⟨start, if changeCount = 0 then start else ⟨chain.headGen + 1, 0⟩⟩
    oplogCount := some changeCount
    promotedFromGap := false
    mysqlBinlog := none
    status := .complete }

theorem foldl_newerFileFull {manifests : List BackupManifest}
    {start : Option BackupManifest} {base : BackupManifest}
    (hfold : manifests.foldl newerFileFull start = some base) :
    start = some base ∨ base ∈ manifests ∧ isFileFull base = true := by
  induction manifests generalizing start with
  | nil => exact Or.inl hfold
  | cons m rest ih =>
      rcases ih hfold with hround | ⟨hmem, hfull⟩
      · unfold newerFileFull at hround
        split at hround
        next hm =>
          split at hround
          · cases hround
            exact Or.inr ⟨List.mem_cons_self, hm⟩
          · split at hround
            · cases hround
              exact Or.inr ⟨List.mem_cons_self, hm⟩
            · exact Or.inl hround
        next => exact Or.inl hround
      · exact Or.inr ⟨List.mem_cons_of_mem m hmem, hfull⟩

theorem foldl_laterHead {baseId : String} {manifests : List BackupManifest}
    {start head : String × UInt32}
    (hfold : manifests.foldl (laterHead baseId) start = head) :
    head = start ∨ ∃ m ∈ manifests,
      isIncrementOf FILE_INCR_FORMAT_ID baseId m = true ∧
        ∃ range, m.oplogRange = some range ∧ head = (m.id, range.endTs.t) := by
  induction manifests generalizing start with
  | nil => exact Or.inl hfold.symm
  | cons m rest ih =>
      rcases ih hfold with hround | ⟨other, hmem, hfound⟩
      · simp only [laterHead] at hround
        split at hround
        next hm =>
          split at hround
          next => exact Or.inl hround
          next range hrange =>
            split at hround
            · exact Or.inr ⟨m, List.mem_cons_self, hm, range, hrange, hround⟩
            · exact Or.inl hround
        next => exact Or.inl hround
      · exact Or.inr ⟨other, List.mem_cons_of_mem m hmem, hfound⟩

/-- The chain is one of file backups: its base is a full backup of files, its
head the base or an increment of it whose generation it states. -/
theorem collectFileChain_toStorage {catalog : Catalog} {chain : FileChain}
    (hchain : collectFileChain catalog.toStorage = some chain) :
    ∃ base ∈ catalog.manifests, isFileFull base = true ∧
      chain.baseId = base.id ∧
      (chain.headId = base.id ∧ chain.headGen = FILE_CHAIN_START.t ∨
        ∃ head ∈ catalog.manifests,
          isIncrementOf FILE_INCR_FORMAT_ID base.id head = true ∧
            chain.headId = head.id ∧
            ∃ range, head.oplogRange = some range ∧
              chain.headGen = range.endTs.t) := by
  have hmem : ∀ m ∈ (collectManifestIds catalog.toStorage).filterMap (fun id =>
      (catalog.toStorage.read id).toOption), m ∈ catalog.manifests := by
    intro m hm
    obtain ⟨id, -, hread⟩ := List.mem_filterMap.mp hm
    cases hresult : catalog.toStorage.read id with
    | error err => simp [hresult, Except.toOption] at hread
    | ok found =>
        have hsame : found = m := by simpa [hresult, Except.toOption] using hread
        exact hsame ▸ (Catalog.read_toStorage.mp hresult).1
  obtain ⟨base, hbase, rfl⟩ := Option.map_eq_some_iff.mp hchain
  obtain ⟨hbaseMem, hfull⟩ := (foldl_newerFileFull hbase).resolve_left (by simp)
  refine ⟨base, hmem base hbaseMem, hfull, rfl, ?_⟩
  rcases foldl_laterHead (Eq.refl (((collectManifestIds
    catalog.toStorage).filterMap fun id => (catalog.toStorage.read id).toOption
      ).foldl (laterHead base.id) (base.id, FILE_CHAIN_START.t))) with
    hstart | ⟨head, hheadMem, hincrement, range, hrange, hhead⟩
  · exact Or.inl (by simp [hstart])
  · exact Or.inr ⟨head, hmem head hheadMem, hincrement, by simp [hhead],
      range, hrange, by simp [hhead]⟩

end XBackup
