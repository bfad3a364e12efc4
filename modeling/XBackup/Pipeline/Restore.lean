/-
Restoring without `--at`: the backup is chosen, the target is looked at, the
guard decides, and the data is streamed.
-/
import XBackup.Engine.DbKind
import XBackup.Foundation.Fallible
import XBackup.Manifest.Store
import XBackup.Schedule.Fields

namespace XBackup

open Fallible

/-- The engine that the scheme of a URI names. -/
def DbKind.fromUri (uri : String) : DbKind :=
  let lower := String.ofList
    ((uri.toList.dropWhile Schedule.isWhitespace).map Char.toLower)
  if startsWith lower "postgres://" || startsWith lower "postgresql://" then
    .postgres
  else if startsWith lower "mysql://" || startsWith lower "mariadb://" then
    .mysql
  else if startsWith lower "file://" then .file
  else .mongo

namespace Restore

structure Request where
  targetUri : String
  backupId : Option String
  only : Option String
  force : Bool
  dryRun : Bool
  skipPrecheck : Bool

structure Plan where
  backupId : String
  backupType : BackupType
  nsInclude : Option String
  conflictingNamespaces : List String
deriving DecidableEq

/-- What the target answers while a restore is planned, and how the streaming
into it ends. -/
structure Target where
  mongoConnect : Except String Unit
  mongoServerMeta : Except String Unit
  userNamespaces : Option String → Except String (List String)
  pgConnect : Except String Unit
  pgTables : Except String (List String)
  mysqlConnect : Bool → Except String Bool
  mysqlTables : Except String (List String)
  filePath : Except XBackupError String
  fileNonEmpty : Bool
  stream : Plan → Bool → Except XBackupError Unit

/-- What a restore does once it has a plan. -/
inductive Event where
  | asked (plan : Plan)
  | streamed (plan : Plan) (dropExisting : Bool)

def Event.plan : Event → Plan
  | .asked plan => plan
  | .streamed plan _ => plan

section Selection

/-- What orders the full backups. -/
def createdKey (m : BackupManifest) : String ×ₗ String :=
  toLex (m.createdAt, m.id)

def isNewer (best : BackupManifest) (m : BackupManifest) : Bool :=
  best.createdAt < m.createdAt ∨
    best.createdAt = m.createdAt ∧ best.id < m.id

def betterFull (best : Option BackupManifest) (m : BackupManifest) :
    Option BackupManifest :=
  match best with
  | none => some m
  | some cur => if isNewer cur m then some m else some cur

/-- The manifests that can be read, in the order of their directories. -/
def readable (storage : Storage) : List BackupManifest :=
  (collectManifestIds storage).filterMap fun id => (storage.read id).toOption

def fulls (storage : Storage) : List BackupManifest :=
  (readable storage).filter fun m => m.backupType = .full

def latestFullManifest (storage : Storage) :
    Except XBackupError BackupManifest :=
  match (fulls storage).foldl betterFull none with
  | some m => .ok m
  | none => .error (.failure ("no full backup to restore — no completed " ++
      "full backup was found at the destination"))

end Selection

/-- The backup of `--id`, or the latest full one. -/
def choose (backupId : Option String) (storage : Storage) :
    Except XBackupError BackupManifest :=
  match backupId with
  | some id => storage.read id
  | none => latestFullManifest storage

def precheck {α : Type} (message : String) : Except String α →
    Except XBackupError α
  | .ok value => .ok value
  | .error err => .error (.precheckFailed (message ++ err))

/-- What exists at a Mongo target, when there is a connection to it. -/
def mongoConflicts (request : Request) (target : Target) (connected : Bool) :
    Except XBackupError (List String) :=
  if connected then do
    precheck "failed to check the restore target server: " target.mongoServerMeta
    precheck "failed to query existing data: "
      (target.userNamespaces request.only)
  else .ok []

def buildPlan (request : Request) (storage : Storage) (target : Target)
    (connected : Bool) : Except XBackupError Plan := do
  let manifest ← choose request.backupId storage
  let conflicts ← mongoConflicts request target connected
  return {
    backupId := manifest.id
    backupType := manifest.backupType
    nsInclude := request.only
    conflictingNamespaces := conflicts }

/-- The query of an engine that is not Mongo. -/
def existingAt (request : Request) (target : Target) (plan : Plan) :
    DbKind → Except XBackupError (List String)
  | .mongo => .ok plan.conflictingNamespaces
  | .postgres => do
      precheck "failed to connect to the restore target (PostgreSQL): "
        target.pgConnect
      precheck "failed to query existing tables: " target.pgTables
  | .mysql => do
      let found ← precheck "failed to connect to the restore target (MySQL): "
        (target.mysqlConnect !request.dryRun)
      if found then
        precheck "failed to query existing tables: " target.mysqlTables
      else .ok plan.conflictingNamespaces
  | .file => do
      let path ← target.filePath
      if target.fileNonEmpty then .ok [path ++ " (비어 있지 않음)"]
      else .ok plan.conflictingNamespaces

def driverConflicts (request : Request) (target : Target) (plan : Plan)
    (kind : DbKind) : Except XBackupError (List String) :=
  if request.skipPrecheck then .ok plan.conflictingNamespaces
  else existingAt request target plan kind

/-- Only Mongo restores a part of a backup. -/
def refuseOnly (kind : DbKind) (only : Option String) :
    Except XBackupError Unit :=
  if kind ≠ .mongo ∧ only.isSome then
    .error (.usage ("PostgreSQL/MySQL/file restore does not support --only " ++
      "(selective restore) — only a full restore is possible. If you need " ++
      "only part of the data, clean up after the restore or use a separate " ++
      "tool."))
  else .ok ()

def connectMongo (kind : DbKind) (request : Request) (target : Target) :
    Except XBackupError Bool :=
  if request.skipPrecheck ∨ kind ≠ .mongo then .ok false
  else do
    precheck "failed to connect to the restore target: " target.mongoConnect
    return true

/-- The plan, with what exists at the target. -/
def planRestore (request : Request) (storage : Storage) (target : Target) :
    Except XBackupError Plan := do
  let kind := DbKind.fromUri request.targetUri
  refuseOnly kind request.only
  let connected ← connectMongo kind request target
  let plan ← buildPlan request storage target connected
  let existing ← driverConflicts request target plan kind
  return { plan with conflictingNamespaces := existing }

def previewNamespaces (namespaces : List String) : String :=
  if namespaces.length ≤ 5 then ", ".intercalate namespaces
  else ", ".intercalate (namespaces.take 5) ++ ", … (+" ++
    toString (namespaces.length - 5) ++ " more)"

/-- Whether existing data may be dropped, after the user was asked or not. -/
def decideGuard (plan : Plan) (force isTty : Bool) (confirm : Plan → Bool) :
    List Event × Except XBackupError Bool :=
  if force then ([], .ok true)
  else if plan.conflictingNamespaces.isEmpty then ([], .ok false)
  else if isTty then
    if confirm plan then ([.asked plan], .ok true)
    else ([.asked plan], .error (.failure
      "the user cancelled the restore (existing data preserved)"))
  else ([], .error (.failure ("the restore target already has data (" ++
    toString plan.conflictingNamespaces.length ++ " namespace(s)). Non-TTY " ++
    "refuses to overwrite without --force — conflicts: " ++
    previewNamespaces plan.conflictingNamespaces)))

/-- What a restore has asked and streamed, and its result. -/
def runRestore (request : Request) (storage : Storage) (target : Target)
    (isTty : Bool) (confirm : Plan → Bool) :
    List Event × Except XBackupError Plan :=
  match planRestore request storage target with
  | .error err => ([], .error err)
  | .ok plan =>
      if request.dryRun then ([], .ok plan)
      else
        match decideGuard plan request.force isTty confirm with
        | (asked, .error err) => (asked, .error err)
        | (asked, .ok dropExisting) =>
            (asked ++ [.streamed plan dropExisting],
              (target.stream plan dropExisting).map fun _ => plan)

/-- Only full native backups are extracted. -/
def exportable (manifest : BackupManifest) : Except XBackupError Unit :=
  if manifest.toolVersions.archiveFormat ≠ some NATIVE_FORMAT_ID then
    .error (.usage ("--to-dir extracts only native (default) MongoDB backups " ++
      "as a BSON dump (this backup's format: " ++
      manifest.toolVersions.archiveFormat.getD "unknown" ++ "). For " ++
      "mongodump/PostgreSQL backups, restore to a temporary server and " ++
      "extract with the standard tools."))
  else if manifest.backupType ≠ .full then
    .error (.usage ("an incremental backup cannot be extracted with --to-dir " ++
      "— only a full backup can be (apply an incremental via server " ++
      "restore/PITR instead)."))
  else .ok ()

/-- Which backup is extracted into a directory, and the extraction of it. -/
def exportToDir (storage : Storage) (backupId only : Option String)
    (extract : BackupManifest → Option String → Except XBackupError Unit) :
    Except XBackupError BackupManifest := do
  let manifest ← choose backupId storage
  exportable manifest
  extract manifest only
  return manifest

/-- The backups that a restore into a target of this kind may choose. -/
def Restorable (kind : DbKind) (m : BackupManifest) : Prop :=
  m.status = .complete ∧ m.selective = false ∧ m.dbKind = kind

instance (kind : DbKind) (m : BackupManifest) : Decidable (Restorable kind m) :=
  inferInstanceAs (Decidable (_ ∧ _ ∧ _))

def NewestRestorable (kind : DbKind) (storage : Storage) (m : BackupManifest) :
    Prop :=
  m ∈ fulls storage ∧ Restorable kind m ∧
    ∀ other ∈ fulls storage, Restorable kind other →
      other.createdAt ≤ m.createdAt

/-- Without `--id`, the newest restorable full backup of the target's kind is
chosen and planned with, and nothing is asked or written when there is none. -/
structure PicksNewest (storage : Storage) (uri : String) : Prop where
  chosen : ∀ m, latestFullManifest storage = .ok m →
    NewestRestorable (.fromUri uri) storage m
  planned : ∀ request target isTty confirm, request.targetUri = uri →
    request.backupId = none → ∀ events result,
      runRestore request storage target isTty confirm = (events, result) →
      ∀ plan, plan ∈ events.map Event.plan ∨ result = .ok plan →
        ∃ m, NewestRestorable (.fromUri uri) storage m ∧ plan.backupId = m.id
  refused : (∀ m ∈ fulls storage, ¬ Restorable (.fromUri uri) m) →
    ∀ request target isTty confirm, request.targetUri = uri →
      request.backupId = none →
        ∃ err, runRestore request storage target isTty confirm =
          ([], .error err)
  exported : DbKind.fromUri uri = .mongo → ∀ only extract m,
    exportToDir storage none only extract = .ok m →
      NewestRestorable .mongo storage m

/-- A full backup that is not restorable there has a restorable one ahead of it
in the order in which they are compared. -/
def Unshadowed (kind : DbKind) (storage : Storage) : Prop :=
  ∀ m ∈ fulls storage, ¬ Restorable kind m →
    ∃ other ∈ fulls storage, Restorable kind other ∧
      (createdKey m < createdKey other ∨
        createdKey m = createdKey other ∧
          (fulls storage).idxOf other < (fulls storage).idxOf m)

section Selected

variable {storage : Storage} {kind : DbKind} {m : BackupManifest}

theorem isNewer_iff {best : BackupManifest} :
    isNewer best m = true ↔ createdKey best < createdKey m := by
  rw [createdKey, createdKey, Prod.Lex.toLex_lt_toLex, isNewer,
    decide_eq_true_eq]

theorem foldl_betterFull (manifests : List BackupManifest) :
    manifests.foldl betterFull none = manifests.argmax createdKey := by
  induction manifests using List.reverseRecOn with
  | nil => rfl
  | append_singleton front m ih =>
      rw [List.foldl_append, ih, List.argmax_concat]
      cases front.argmax createdKey with
      | none => rfl
      | some best =>
          change (if isNewer best m = true then some m else some best) =
            if createdKey best < createdKey m then some m else some best
          simp only [isNewer_iff]

theorem latestFullManifest_eq_ok_iff :
    latestFullManifest storage = .ok m ↔
      (fulls storage).argmax createdKey = some m := by
  rw [latestFullManifest, foldl_betterFull]
  cases (fulls storage).argmax createdKey with
  | none => simp
  | some best => simp

/-- The chosen full backup was created last. -/
theorem createdAt_le_of_latest (hlatest : latestFullManifest storage = .ok m)
    {other : BackupManifest} (hother : other ∈ fulls storage) :
    other.createdAt ≤ m.createdAt := by
  have hle := List.le_of_mem_argmax hother
    (latestFullManifest_eq_ok_iff.mp hlatest)
  rw [createdKey, createdKey, Prod.Lex.toLex_le_toLex] at hle
  rcases hle with hlt | ⟨heq, -⟩
  · exact hlt.le
  · exact heq.le

theorem newest_of_latest (hlatest : latestFullManifest storage = .ok m)
    (hm : Restorable kind m) : NewestRestorable kind storage m :=
  ⟨List.argmax_mem (latestFullManifest_eq_ok_iff.mp hlatest), hm,
    fun _ hother _ => createdAt_le_of_latest hlatest hother⟩

/-- The latest full backup is restorable exactly when none that is not stands
ahead of all that are. -/
theorem latest_restorable_iff :
    (∀ m, latestFullManifest storage = .ok m → Restorable kind m) ↔
      Unshadowed kind storage := by
  simp only [latestFullManifest_eq_ok_iff]
  constructor
  · intro hlatest m hm hunfit
    have hne : (fulls storage).argmax createdKey ≠ none := by
      rw [Ne, List.argmax_eq_none]
      exact List.ne_nil_of_mem hm
    obtain ⟨best, hbest⟩ := Option.ne_none_iff_exists'.mp hne
    have hfit := hlatest best hbest
    have hbestMem := List.argmax_mem hbest
    refine ⟨best, hbestMem, hfit, ?_⟩
    rcases (List.le_of_mem_argmax hm hbest).lt_or_eq with hlt | heq
    · exact Or.inl hlt
    · refine Or.inr ⟨heq, ?_⟩
      have hle := List.index_of_argmax hbest hm heq.ge
      refine lt_of_le_of_ne hle fun hsame => hunfit ?_
      rw [← (List.idxOf_inj hbestMem).mp hsame]
      exact hfit
  · intro hahead best hbest
    by_contra hunfit
    obtain ⟨other, hother, -, hlt | ⟨heq, hlt⟩⟩ :=
      hahead best (List.argmax_mem hbest) hunfit
    · exact absurd (List.le_of_mem_argmax hother hbest) hlt.not_ge
    · exact absurd (List.index_of_argmax hbest hother heq.le) hlt.not_ge

end Selected

section Run

variable {request : Request} {storage : Storage} {target : Target}
  {isTty : Bool} {confirm : Plan → Bool} {events : List Event}
  {result : Except XBackupError Plan} {plan : Plan}

theorem buildPlan_backupId {connected : Bool}
    (hplan : buildPlan request storage target connected = .ok plan) :
    ∃ m, choose request.backupId storage = .ok m ∧ plan.backupId = m.id := by
  obtain ⟨m, hm, hplan⟩ := bind_eq_ok.mp hplan
  obtain ⟨conflicts, -, hplan⟩ := bind_eq_ok.mp hplan
  cases hplan
  exact ⟨m, hm, rfl⟩

/-- A plan is made of the chosen backup. -/
theorem planRestore_backupId
    (hplan : planRestore request storage target = .ok plan) :
    ∃ m, choose request.backupId storage = .ok m ∧ plan.backupId = m.id := by
  obtain ⟨_, -, hplan⟩ := bind_eq_ok.mp hplan
  obtain ⟨connected, -, hplan⟩ := bind_eq_ok.mp hplan
  obtain ⟨built, hbuilt, hplan⟩ := bind_eq_ok.mp hplan
  obtain ⟨m, hm, hid⟩ := buildPlan_backupId hbuilt
  obtain ⟨existing, -, hplan⟩ := bind_eq_ok.mp hplan
  cases hplan
  exact ⟨m, hm, hid⟩

theorem planRestore_error (hnone : ∀ m, choose request.backupId storage ≠ .ok m) :
    ∃ err, planRestore request storage target = .error err := by
  cases hplan : planRestore request storage target with
  | error err => exact ⟨err, rfl⟩
  | ok plan =>
      obtain ⟨m, hm, -⟩ := planRestore_backupId hplan
      exact absurd hm (hnone m)

theorem decideGuard_plan {force : Bool} {decided : Except XBackupError Bool}
    (hguard : decideGuard plan force isTty confirm = (events, decided)) :
    ∀ event ∈ events, event.plan = plan := by
  rw [decideGuard] at hguard
  intro event hevent
  split at hguard
  · cases hguard
    cases hevent
  · split at hguard
    · cases hguard
      cases hevent
    · split at hguard
      · split at hguard <;>
        · cases hguard
          cases List.mem_singleton.mp hevent
          rfl
      · cases hguard
        cases hevent

/-- All that a restore does is done with the one plan that it has made. -/
theorem runRestore_plan
    (hrun : runRestore request storage target isTty confirm = (events, result))
    (hplan : plan ∈ events.map Event.plan ∨ result = .ok plan) :
    planRestore request storage target = .ok plan := by
  rw [runRestore] at hrun
  split at hrun
  · cases hrun
    rcases hplan with hplan | hplan
    · cases hplan
    · cases hplan
  · next made hmade =>
    rw [hmade]
    split at hrun
    · cases hrun
      rcases hplan with hplan | hplan
      · cases hplan
      · exact hplan
    · split at hrun
      · next asked err hguard =>
        cases hrun
        rcases hplan with hplan | hplan
        · obtain ⟨event, hevent, rfl⟩ := List.mem_map.mp hplan
          rw [decideGuard_plan hguard event hevent]
        · cases hplan
      · next asked dropExisting hguard =>
        cases hrun
        rcases hplan with hplan | hplan
        · obtain ⟨event, hevent, rfl⟩ := List.mem_map.mp hplan
          rcases List.mem_append.mp hevent with hevent | hevent
          · rw [decideGuard_plan hguard event hevent]
          · cases List.mem_singleton.mp hevent
            rfl
        · cases hstream : target.stream made dropExisting with
          | error err => rw [hstream] at hplan; cases hplan
          | ok _ => rw [hstream] at hplan; exact hplan

theorem planRestore_only
    (hplan : planRestore request storage target = .ok plan) :
    plan.nsInclude = request.only := by
  obtain ⟨_, -, hplan⟩ := bind_eq_ok.mp hplan
  obtain ⟨connected, -, hplan⟩ := bind_eq_ok.mp hplan
  obtain ⟨built, hbuilt, hplan⟩ := bind_eq_ok.mp hplan
  obtain ⟨m, -, hbuilt⟩ := bind_eq_ok.mp hbuilt
  obtain ⟨conflicts, -, hbuilt⟩ := bind_eq_ok.mp hbuilt
  obtain ⟨existing, -, hplan⟩ := bind_eq_ok.mp hplan
  cases hbuilt
  cases hplan
  rfl

/-- Where nobody can be asked, existing data goes by `--force` alone. -/
theorem decideGuard_unattended {force : Bool}
    {decided : Except XBackupError Bool}
    (hguard : decideGuard plan force false confirm = (events, decided)) :
    events = [] ∧ ∀ dropExisting, decided = .ok dropExisting →
      dropExisting = force := by
  rw [decideGuard] at hguard
  split at hguard
  next hforce =>
    cases hguard
    refine ⟨rfl, fun dropExisting hok => ?_⟩
    cases hok
    exact hforce.symm
  next hforce =>
    split at hguard
    next =>
      cases hguard
      refine ⟨rfl, fun dropExisting hok => ?_⟩
      cases hok
      simpa using hforce
    next =>
      rw [if_neg Bool.false_ne_true] at hguard
      cases hguard
      exact ⟨rfl, fun _ hok => by cases hok⟩

/-- A restore that nobody attends does nothing or streams its plan. -/
theorem runRestore_unattended
    (hrun : runRestore request storage target false confirm =
      (events, result)) :
    events = [] ∨ ∃ plan, planRestore request storage target = .ok plan ∧
      request.dryRun = false ∧ events = [.streamed plan request.force] := by
  rw [runRestore] at hrun
  cases hplan : planRestore request storage target with
  | error err =>
      rw [hplan] at hrun
      cases hrun
      exact Or.inl rfl
  | ok plan =>
      rw [hplan] at hrun
      dsimp only at hrun
      split at hrun
      next =>
        cases hrun
        exact Or.inl rfl
      next hdry =>
        split at hrun
        next asked err hguard =>
          cases hrun
          exact Or.inl (decideGuard_unattended hguard).1
        next asked dropExisting hguard =>
          obtain ⟨hasked, hdrop⟩ := decideGuard_unattended hguard
          cases hrun
          refine Or.inr ⟨plan, rfl, by simpa using hdry, ?_⟩
          rw [hasked, hdrop dropExisting rfl, List.nil_append]

end Run

/-- Without `--id`, a restore chooses the newest restorable full backup of the
target's kind exactly when no full backup of another sort stands ahead of all
of them. -/
theorem picksNewest_iff (storage : Storage) (uri : String) :
    PicksNewest storage uri ↔ Unshadowed (.fromUri uri) storage := by
  rw [← latest_restorable_iff]
  constructor
  · intro hpicks m hm
    exact (hpicks.chosen m hm).2.1
  · intro hfit
    have hnewest : ∀ m, latestFullManifest storage = .ok m →
        NewestRestorable (.fromUri uri) storage m :=
      fun m hm => newest_of_latest hm (hfit m hm)
    refine ⟨hnewest, ?_, ?_, ?_⟩
    · intro request target isTty confirm _ hid events result hrun plan hplan
      obtain ⟨m, hm, hplanId⟩ :=
        planRestore_backupId (runRestore_plan hrun hplan)
      rw [hid] at hm
      exact ⟨m, hnewest m hm, hplanId⟩
    · intro hnone request target isTty confirm _ hid
      have hchoose : ∀ m, choose request.backupId storage ≠ .ok m := by
        intro m hm
        rw [hid] at hm
        obtain ⟨hmem, hrestorable, -⟩ := hnewest m hm
        exact hnone m hmem hrestorable
      obtain ⟨err, herr⟩ := @planRestore_error request storage target hchoose
      exact ⟨err, by rw [runRestore, herr]⟩
    · intro hkind only extract m hexport
      rw [hkind] at hnewest
      obtain ⟨chosen, hchosen, hexport⟩ := bind_eq_ok.mp hexport
      obtain ⟨_, -, hexport⟩ := bind_eq_ok.mp hexport
      obtain ⟨_, -, hexport⟩ := bind_eq_ok.mp hexport
      cases hexport
      exact hnewest m hchosen

/-- A full backup, and a later one that was interrupted. -/
def interrupted : Storage where
  manifestDirs := ["1", "2"]
  read := fun id => .ok
    { id := id
      createdAt := "2026-01-0" ++ id ++ "T00:00:00Z"
      backupType := .full
      baseId := none
      topology := .standalone
      toolVersions := ⟨none, some NATIVE_FORMAT_ID⟩
      selective := false
      oplogRange := none
      oplogCount := none
      promotedFromGap := false
      mysqlBinlog := none
      status := if id = "1" then .complete else .incomplete }

theorem interrupted_chosen :
    (∃ m, latestFullManifest interrupted = .ok m ∧ m.status = .incomplete) ∧
      ¬ PicksNewest interrupted "mongodb://db/app" := by
  have hchosen : ∃ m, latestFullManifest interrupted = .ok m ∧
      m.status = .incomplete := ⟨_, rfl, rfl⟩
  refine ⟨hchosen, fun hpicks => ?_⟩
  obtain ⟨m, hm, hstatus⟩ := hchosen
  have hcomplete := (hpicks.chosen m hm).2.1.1
  rw [hstatus] at hcomplete
  cases hcomplete

end Restore

end XBackup
