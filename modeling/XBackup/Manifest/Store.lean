/-
The backup catalog as the pipelines see it: the directories that hold a
`manifest.json` and what reading one of them yields.
-/
import XBackup.Manifest.Schema
import XBackup.Foundation.AscendingLog
import XBackup.Foundation.SortedNames

namespace XBackup

open AscendingLog SortedNames

/-- A destination.  `manifestDirs` are the listed paths that end in
`/manifest.json`, without that ending. -/
structure Storage where
  manifestDirs : List String
  read : String → Except XBackupError BackupManifest

/-- Backup ids are directory names of the top level. -/
def isBackupId (dir : String) : Bool :=
  dir ≠ "" ∧ '/' ∉ dir.toList

/-- The backup ids of a destination, sorted and without repetition. -/
def collectManifestIds (storage : Storage) : List String :=
  sortDedup (storage.manifestDirs.filter isBackupId)

theorem mem_collectManifestIds {storage : Storage} {id : String} :
    id ∈ collectManifestIds storage ↔
      id ∈ storage.manifestDirs ∧ isBackupId id = true := by
  simp [collectManifestIds]

theorem collectManifestIds_pairwise (storage : Storage) :
    (collectManifestIds storage).Pairwise (· < ·) :=
  sortDedup_pairwise _

/-- The latest backup that satisfies `eligible`: the ids are tried from the
greatest one down, unreadable manifests are passed over. -/
def latestWhere (eligible : BackupManifest → Bool) (notFound : XBackupError)
    (storage : Storage) : Except XBackupError String :=
  let ids := ((collectManifestIds storage).insertionSort (· ≤ ·)).reverse
  let found := ids.findSome? fun id =>
    match storage.read id with
    | .ok m => if eligible m then some m.id else none
    | .error _ => none
  match found with
  | some id => .ok id
  | none => .error notFound

/-- The readable backups that satisfy `eligible`, in id order, by the id their
manifest states. -/
def collectWhere (eligible : BackupManifest → Bool) (storage : Storage) :
    List String :=
  ((collectManifestIds storage).insertionSort (· ≤ ·)).filterMap fun id =>
    match storage.read id with
    | .ok m => if eligible m then some m.id else none
    | .error _ => none

/-- A directory of the catalog whose manifest reads as `m` and is eligible. -/
structure EligibleAt (eligible : BackupManifest → Bool) (storage : Storage)
    (dir : String) (m : BackupManifest) : Prop where
  listed : dir ∈ collectManifestIds storage
  reads : storage.read dir = .ok m
  accepted : eligible m = true

private theorem readEligible_eq_some_iff {eligible : BackupManifest → Bool}
    {storage : Storage} {dir id : String} :
    (match storage.read dir with
      | .ok m => if eligible m then some m.id else none
      | .error _ => none) = some id ↔
      ∃ m, storage.read dir = .ok m ∧ eligible m = true ∧ m.id = id := by
  cases hread : storage.read dir with
  | error err => simp
  | ok m =>
      by_cases haccepted : eligible m = true
      · simp [haccepted]
      · simp [haccepted]

/-- The chosen backup is the eligible one in the greatest directory. -/
theorem latestWhere_eq_ok_iff {eligible : BackupManifest → Bool}
    {notFound : XBackupError} {storage : Storage} {id : String} :
    latestWhere eligible notFound storage = .ok id ↔
      ∃ dir m, EligibleAt eligible storage dir m ∧ m.id = id ∧
        ∀ other m', EligibleAt eligible storage other m' → other ≤ dir := by
  have hnames := collectManifestIds_pairwise storage
  have hsorted : (collectManifestIds storage).insertionSort (· ≤ ·) =
      collectManifestIds storage := insertionSort_sortDedup _
  have hfound : latestWhere eligible notFound storage = .ok id ↔
      (collectManifestIds storage).reverse.findSome? (fun id =>
        match storage.read id with
        | .ok m => if eligible m then some m.id else none
        | .error _ => none) = some id := by
    rw [latestWhere, hsorted]
    split
    next found hsome => rw [hsome]; simp
    next hnone => rw [hnone]; simp
  rw [hfound, findSome_reverse_eq_some_iff hnames]
  constructor
  · rintro ⟨dir, hlisted, hhit, hmax⟩
    obtain ⟨m, hread, haccepted, rfl⟩ := readEligible_eq_some_iff.mp hhit
    refine ⟨dir, m, ⟨hlisted, hread, haccepted⟩, rfl, ?_⟩
    intro other m' hother
    exact hmax other hother.listed (by simp [hother.reads, hother.accepted])
  · rintro ⟨dir, m, hm, rfl, hmax⟩
    refine ⟨dir, hm.listed, by simp [hm.reads, hm.accepted], ?_⟩
    intro other hother hhit
    obtain ⟨id, hid⟩ := Option.isSome_iff_exists.mp hhit
    obtain ⟨m', hread, haccepted, -⟩ := readEligible_eq_some_iff.mp hid
    exact hmax other m' ⟨hother, hread, haccepted⟩

theorem latestWhere_isOk_of_eligible {eligible : BackupManifest → Bool}
    {notFound : XBackupError} {storage : Storage} {dir : String}
    {m : BackupManifest} (hm : EligibleAt eligible storage dir m) :
    ∃ id, latestWhere eligible notFound storage = .ok id := by
  rw [latestWhere]
  split
  next found _ => exact ⟨found, rfl⟩
  next hnone =>
    have hdir : dir ∈ ((collectManifestIds storage).insertionSort
        (· ≤ ·)).reverse := by
      simpa using hm.listed
    have hmiss := List.findSome?_eq_none_iff.mp hnone dir hdir
    simp [hm.reads, hm.accepted] at hmiss

/-- When the directories ascend, collecting goes through them in order. -/
theorem collectWhere_eq_filterMap {eligible : BackupManifest → Bool}
    {storage : Storage} (hdirs : storage.manifestDirs.Pairwise (· < ·))
    (hnamed : ∀ dir ∈ storage.manifestDirs, isBackupId dir = true) :
    collectWhere eligible storage = storage.manifestDirs.filterMap fun id =>
      match storage.read id with
      | .ok m => if eligible m then some m.id else none
      | .error _ => none := by
  have hids : collectManifestIds storage = storage.manifestDirs := by
    rw [collectManifestIds, List.filter_eq_self.mpr hnamed,
      sortDedup_eq_self hdirs]
  rw [collectWhere, hids,
    List.Pairwise.insertionSort_eq (hdirs.imp le_of_lt)]

/-- A catalog as the tool writes it: ids are UUIDs of version 7, so every
recorded backup is named behind the ones that exist. -/
structure Catalog where
  manifests : List BackupManifest
  ascending : Ascending BackupManifest.id manifests
  named : ∀ m ∈ manifests, isBackupId m.id = true

namespace Catalog

def empty : Catalog := ⟨[], List.Pairwise.nil, by simp⟩

def Fresh (catalog : Catalog) (id : String) : Prop :=
  isBackupId id = true ∧ ∀ m ∈ catalog.manifests, m.id < id

instance (catalog : Catalog) (id : String) : Decidable (catalog.Fresh id) :=
  inferInstanceAs (Decidable (_ ∧ _))

def record (catalog : Catalog) (m : BackupManifest)
    (hfresh : catalog.Fresh m.id) : Catalog where
  manifests := catalog.manifests ++ [m]
  ascending := by
    refine List.pairwise_append.mpr
      ⟨catalog.ascending, List.pairwise_singleton _ _, ?_⟩
    intro old hold new hnew
    rw [List.mem_singleton.mp hnew]
    exact hfresh.2 old hold
  named := by
    intro new hnew
    rcases List.mem_append.mp hnew with hold | hsame
    · exact catalog.named new hold
    · rw [List.mem_singleton.mp hsame]
      exact hfresh.1

/-- The undamaged destination that holds these manifests. -/
def toStorage (catalog : Catalog) : Storage where
  manifestDirs := catalog.manifests.map BackupManifest.id
  read dir :=
    match catalog.manifests.find? fun m => m.id = dir with
    | some m => .ok m
    | none => .error (.storageDownload (dir ++ "/manifest.json"))

theorem read_toStorage {catalog : Catalog} {dir : String} {m : BackupManifest} :
    catalog.toStorage.read dir = .ok m ↔
      m ∈ catalog.manifests ∧ m.id = dir := by
  constructor
  · intro hread
    simp only [toStorage] at hread
    split at hread
    next found hfound =>
      cases hread
      exact ⟨List.mem_of_find?_eq_some hfound,
        by simpa using List.find?_some hfound⟩
    · cases hread
  · rintro ⟨hmem, rfl⟩
    simp only [toStorage]
    cases hfind : catalog.manifests.find? fun other => other.id = m.id with
    | none => simpa using List.find?_eq_none.mp hfind m hmem
    | some found =>
        have hid : found.id = m.id := by simpa using List.find?_some hfind
        rw [catalog.ascending.eq_of_pos_eq
          (List.mem_of_find?_eq_some hfind) hmem hid]

theorem eligibleAt_toStorage_iff {catalog : Catalog}
    {eligible : BackupManifest → Bool} {dir : String} {m : BackupManifest} :
    EligibleAt eligible catalog.toStorage dir m ↔
      m ∈ catalog.manifests ∧ m.id = dir ∧ eligible m = true := by
  constructor
  · rintro ⟨-, hread, haccepted⟩
    obtain ⟨hmem, hid⟩ := read_toStorage.mp hread
    exact ⟨hmem, hid, haccepted⟩
  · rintro ⟨hmem, rfl, haccepted⟩
    refine ⟨?_, read_toStorage.mpr ⟨hmem, rfl⟩, haccepted⟩
    exact mem_collectManifestIds.mpr
      ⟨List.mem_map_of_mem hmem, catalog.named m hmem⟩

/-- The latest eligible backup of a catalog, by id. -/
theorem latestWhere_toStorage_iff {catalog : Catalog}
    {eligible : BackupManifest → Bool} {notFound : XBackupError}
    {id : String} :
    latestWhere eligible notFound catalog.toStorage = .ok id ↔
      ∃ m ∈ catalog.manifests, eligible m = true ∧ m.id = id ∧
        ∀ other ∈ catalog.manifests, eligible other = true →
          other.id ≤ id := by
  rw [latestWhere_eq_ok_iff]
  simp only [eligibleAt_toStorage_iff]
  constructor
  · rintro ⟨dir, m, ⟨hmem, rfl, haccepted⟩, rfl, hmax⟩
    exact ⟨m, hmem, haccepted, rfl, fun other hother hok =>
      hmax other.id other ⟨hother, rfl, hok⟩⟩
  · rintro ⟨m, hmem, haccepted, rfl, hmax⟩
    refine ⟨m.id, m, ⟨hmem, rfl, haccepted⟩, rfl, ?_⟩
    rintro dir other ⟨hother, rfl, hok⟩
    exact hmax other hother hok

theorem mem_collectWhere_toStorage {catalog : Catalog}
    {eligible : BackupManifest → Bool} {id : String}
    (hid : id ∈ collectWhere eligible catalog.toStorage) :
    ∃ m ∈ catalog.manifests, m.id = id ∧ eligible m = true := by
  obtain ⟨dir, -, hread⟩ := List.mem_filterMap.mp hid
  split at hread
  next m hm =>
    split at hread
    next haccepted =>
      cases hread
      exact ⟨m, (read_toStorage.mp hm).1, rfl, haccepted⟩
    next => cases hread
  next => cases hread

theorem collectWhere_toStorage {catalog : Catalog}
    {eligible : BackupManifest → Bool} :
    collectWhere eligible catalog.toStorage =
      (catalog.manifests.filter eligible).map BackupManifest.id := by
  have hascending : catalog.toStorage.manifestDirs.Pairwise (· < ·) :=
    List.pairwise_map.mpr catalog.ascending
  have hnamed : ∀ dir ∈ catalog.toStorage.manifestDirs,
      isBackupId dir = true := by
    intro dir hdir
    obtain ⟨m, hmem, rfl⟩ := List.mem_map.mp hdir
    exact catalog.named m hmem
  have hread : ∀ m ∈ catalog.manifests,
      catalog.toStorage.read m.id = .ok m := fun m hmem =>
    read_toStorage.mpr ⟨hmem, rfl⟩
  rw [collectWhere_eq_filterMap hascending hnamed, toStorage,
    List.filterMap_map, ← List.filterMap_eq_map, List.filterMap_filter]
  refine List.filterMap_congr fun m hmem => ?_
  have hfound := hread m hmem
  simp only [toStorage] at hfound
  simp [hfound]

/-- A recorded eligible backup becomes the latest one. -/
theorem latestWhere_record_of_eligible {catalog : Catalog}
    {eligible : BackupManifest → Bool} {notFound : XBackupError}
    {m : BackupManifest} (hfresh : catalog.Fresh m.id)
    (haccepted : eligible m = true) :
    latestWhere eligible notFound (catalog.record m hfresh).toStorage =
      .ok m.id := by
  rw [latestWhere_toStorage_iff]
  refine ⟨m, by simp [record], haccepted, rfl, ?_⟩
  intro other hother _
  rcases List.mem_append.mp hother with hold | hsame
  · exact (hfresh.2 other hold).le
  · rw [List.mem_singleton.mp hsame]

/-- Recording anything else leaves the choice as it was. -/
theorem latestWhere_record_of_not_eligible {catalog : Catalog}
    {eligible : BackupManifest → Bool} {notFound : XBackupError}
    {m : BackupManifest} {id : String} (hfresh : catalog.Fresh m.id)
    (hrejected : eligible m = false) :
    latestWhere eligible notFound (catalog.record m hfresh).toStorage =
        .ok id ↔
      latestWhere eligible notFound catalog.toStorage = .ok id := by
  have hmem : ∀ other, (other ∈ (catalog.record m hfresh).manifests ∧
      eligible other = true) ↔
        other ∈ catalog.manifests ∧ eligible other = true := by
    intro other
    simp only [record, List.mem_append, List.mem_singleton]
    constructor
    · rintro ⟨hold | rfl, haccepted⟩
      · exact ⟨hold, haccepted⟩
      · simp [hrejected] at haccepted
    · rintro ⟨hold, haccepted⟩
      exact ⟨Or.inl hold, haccepted⟩
  rw [latestWhere_toStorage_iff, latestWhere_toStorage_iff]
  simp only [← and_assoc, hmem, ← and_imp]

end Catalog

/-- What may become of a recorded manifest. -/
inductive Damage where
  | missing
  | unreadable (err : XBackupError)
  | incomplete
deriving DecidableEq, Repr

namespace Catalog

/-- The destination after `damage` befell the manifests of some ids. -/
def damagedStorage (catalog : Catalog) (damage : String → Option Damage) :
    Storage where
  manifestDirs := (catalog.manifests.map BackupManifest.id).filter fun id =>
    damage id ≠ some .missing
  read dir :=
    match damage dir with
    | none => catalog.toStorage.read dir
    | some .missing => .error (.storageDownload (dir ++ "/manifest.json"))
    | some (.unreadable err) => .error err
    | some .incomplete =>
        match catalog.toStorage.read dir with
        | .ok m => .ok { m with status := .incomplete }
        | .error err => .error err

/-- Intact manifests read as before. -/
theorem read_damagedStorage {catalog : Catalog}
    {damage : String → Option Damage} {m : BackupManifest}
    (hmem : m ∈ catalog.manifests) (hintact : (damage m.id).isNone) :
    (catalog.damagedStorage damage).read m.id = .ok m := by
  simp only [damagedStorage, Option.isNone_iff_eq_none.mp hintact]
  exact read_toStorage.mpr ⟨hmem, rfl⟩

private theorem readDamaged_eq {catalog : Catalog}
    {eligible : BackupManifest → Bool} (damage : String → Option Damage)
    (hcomplete : ∀ m, eligible m = true → m.status = .complete)
    {m : BackupManifest} (hmem : m ∈ catalog.manifests) :
    (match (catalog.damagedStorage damage).read m.id with
      | .ok m => if eligible m then some m.id else none
      | .error _ => none) =
      if eligible m ∧ (damage m.id).isNone then some m.id else none := by
  have hread : catalog.toStorage.read m.id = .ok m :=
    read_toStorage.mpr ⟨hmem, rfl⟩
  cases hdamage : damage m.id with
  | none => simp [damagedStorage, hdamage, hread]
  | some kind =>
      cases kind with
      | missing => simp [damagedStorage, hdamage]
      | unreadable err => simp [damagedStorage, hdamage]
      | incomplete =>
          have hrejected : eligible { m with status := .incomplete } = false := by
            by_contra haccepted
            have hstatus := hcomplete _ (by simpa using haccepted)
            cases hstatus
          simp [damagedStorage, hdamage, hread, hrejected]

/-- Of the eligible backups, those without damage are collected. -/
theorem collectWhere_damagedStorage {catalog : Catalog}
    {eligible : BackupManifest → Bool} {damage : String → Option Damage}
    (hcomplete : ∀ m, eligible m = true → m.status = .complete) :
    collectWhere eligible (catalog.damagedStorage damage) =
      ((catalog.manifests.filter eligible).map BackupManifest.id).filter
        fun id => (damage id).isNone := by
  have hascending : (catalog.manifests.map BackupManifest.id).Pairwise
      (· < ·) := List.pairwise_map.mpr catalog.ascending
  have hnamed : ∀ dir ∈ (catalog.damagedStorage damage).manifestDirs,
      isBackupId dir = true := by
    intro dir hdir
    obtain ⟨m, hmem, rfl⟩ := List.mem_map.mp (List.mem_filter.mp hdir).1
    exact catalog.named m hmem
  calc collectWhere eligible (catalog.damagedStorage damage)
      = ((catalog.manifests.map BackupManifest.id).filter fun id =>
          damage id ≠ some .missing).filterMap fun id =>
            match (catalog.damagedStorage damage).read id with
            | .ok m => if eligible m then some m.id else none
            | .error _ => none :=
        collectWhere_eq_filterMap (hascending.filter _) hnamed
    _ = catalog.manifests.filterMap fun m =>
          if eligible m ∧ (damage m.id).isNone then some m.id else none := by
        rw [List.filterMap_filter, List.filterMap_map]
        refine List.filterMap_congr fun m hmem => ?_
        by_cases hmissing : damage m.id = some .missing
        · simp [hmissing]
        · simpa [hmissing] using readDamaged_eq damage hcomplete hmem
    _ = _ := by
        rw [List.filter_map, List.filter_filter, ← List.filterMap_eq_map,
          List.filterMap_filter]
        refine List.filterMap_congr fun m _ => ?_
        simp [and_comm]

end Catalog

end XBackup
