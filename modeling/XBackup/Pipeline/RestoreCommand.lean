/-
The `restore` command: it takes the lock, resolves the target and the store,
and restores a full backup or, with `--at`, recovers a point in time.
-/
import XBackup.Pipeline.DriverPitr
import XBackup.Pipeline.Pitr
import XBackup.Pipeline.Restore

namespace XBackup

namespace RestoreCommand

open Fallible

structure RestoreArgs where
  profile : String
  targetProfile : Option String
  id : Option String
  targetTime : Option String
  only : Option String
  source : Option String
  force : Bool
  dryRun : Bool
  skipPrecheck : Bool
  json : Bool

variable {δ : Type}

/-- What a run of the command meets.  The config says which URI a target
profile, or none, stands for and which storage `--from`, or none, names. -/
structure RestoreEnv (δ : Type) where
  lock : Except XBackupError Unit
  targetUri : Option String → Except XBackupError String
  storage : Option String → Except XBackupError Storage
  redact : String → String
  pick : Except XBackupError (Option String)
  target : Restore.Target
  confirm : Restore.Plan → Bool
  rowCheck : Except XBackupError Unit
  wallClock : Int → String
  shownBreaks : List ChainBreak → String
  server : PitrServer δ
  replay : EndMapping → Except XBackupError Unit

def RESTORE_JSON_SCHEMA : Nat := 1

/-- The keys of the JSON of a planned restore; each engine has its own. -/
structure RestoreReport where
  schema : Nat
  dryRun : Bool
  destination : String
  backupId : Option String
  backupType : Option BackupType
  nsInclude : Option String
  conflictingNamespaces : Option (List String)
  baseId : Option String
  incrementalIds : Option (List String)
  decidedTs : Option OplogTimestamp
  decidedWallClock : Option String
  limitSliceId : Option String
  target : Option String
  conflictingTables : Option (List String)
  database : Option String

/-- What a run does to the target: the backup it restores, the point up to
which it replays, the part it restores, where to, and the drop flag. -/
structure Write where
  backupId : String
  point : Option String
  only : Option String
  uri : String
  dropExisting : Bool
deriving DecidableEq

structure ChildRun where
  stdout : Option RestoreReport
  result : Except XBackupError Unit
  write : Option Write

def ChildRun.failed (err : XBackupError) : ChildRun :=
  ⟨none, .error err, none⟩

def RestoreReport.empty (destination : String) : RestoreReport where
  schema := RESTORE_JSON_SCHEMA
  dryRun := true
  destination := destination
  backupId := none
  backupType := none
  nsInclude := none
  conflictingNamespaces := none
  baseId := none
  incrementalIds := none
  decidedTs := none
  decidedWallClock := none
  limitSliceId := none
  target := none
  conflictingTables := none
  database := none

def buildPlanJson (plan : Restore.Plan) (destination : String) :
    RestoreReport :=
  { RestoreReport.empty destination with
    backupId := some plan.backupId
    backupType := some plan.backupType
    nsInclude := plan.nsInclude
    conflictingNamespaces := some plan.conflictingNamespaces }

/-- Without `--id` a terminal is asked, and a machine gets the latest. -/
def resolveBackupId (env : RestoreEnv δ) (args : RestoreArgs) :
    Except XBackupError (Option String) :=
  match args.id with
  | some id => .ok (some id)
  | none => if !env.server.isTty || args.json then .ok none else env.pick

/-- What the events of a restore do to the target. -/
def written (uri : String) (point : Option String)
    (events : List Restore.Event) : Option Write :=
  events.findSome? fun event =>
    match event with
    | .asked _ => none
    | .streamed plan dropExisting =>
        some ⟨plan.backupId, point, plan.nsInclude, uri, dropExisting⟩

def restoreFull (env : RestoreEnv δ) (args : RestoreArgs) (uri : String)
    (storage : Storage) : ChildRun :=
  match resolveBackupId env args with
  | .error err => .failed err
  | .ok backupId =>
      match Restore.runRestore
          ⟨uri, backupId, args.only, args.force, args.dryRun,
            args.skipPrecheck⟩ storage env.target env.server.isTty
          env.confirm with
      | (events, .error err) => ⟨none, .error err, written uri none events⟩
      | (events, .ok plan) =>
          if args.dryRun then
            ⟨if args.json then some (buildPlanJson plan (env.redact uri))
              else none, .ok (), written uri none events⟩
          else ⟨none, env.rowCheck, written uri none events⟩

structure MongoPitrPlan where
  baseId : String
  mapping : EndMapping
  targetUnix : Int
  decidedWallClock : String

/-- Only Mongo backups are nodes. -/
def collectChainNodes (storage : Storage) : List ChainNode :=
  ((Restore.readable storage).filter fun m => m.dbKind = .mongo).map
    ChainNode.fromManifest

/-- The whole second of the target. -/
def parseTarget (env : RestoreEnv δ) (text : String) :
    Except XBackupError Int :=
  match env.server.parseRfc3339 text with
  | .ok micros => .ok (micros / 1000000)
  | .error err => .error (.usage ("failed to parse --at ('" ++ text ++
      "'): " ++ err ++ " — RFC3339 is required (e.g. 2026-06-12T13:00:00Z)"))

def requireContinuous (env : RestoreEnv δ) (report : ChainReport) :
    Except XBackupError Unit :=
  if report.isContinuous then .ok ()
  else .error (.failure ("refusing PITR because the incremental chain is " ++
    "not continuous (base '" ++ report.baseId ++ "'): " ++
    env.shownBreaks report.breaks ++ " — check chain integrity with " ++
    "x-backup verify --id <id> --chain"))

def baseNode (nodes : List ChainNode) (baseId : String) :
    Except XBackupError ChainNode :=
  match findNode nodes baseId with
  | some node => .ok node
  | none => .error (.failure ("base '" ++ baseId ++ "' node missing"))

def planMongoPitr (env : RestoreEnv δ) (storage : Storage)
    (targetTime : String) : Except XBackupError MongoPitrPlan := do
  let targetUnix ← parseTarget env targetTime
  let nodes := collectChainNodes storage
  let baseId ← selectBaseBefore env.wallClock nodes targetUnix
  let report := verifyChain nodes baseId
  requireContinuous env report
  let base ← baseNode nodes report.baseId
  let mapping := mapTargetToEnd base
    (orderedSlices nodes report.incrementalIds) targetUnix
  .ok
    { baseId := report.baseId
      mapping := mapping
      targetUnix := targetUnix
      decidedWallClock := env.wallClock mapping.decidedTs.t.toNat }

def buildPitrPlanJson (plan : MongoPitrPlan) (destination : String) :
    RestoreReport :=
  { RestoreReport.empty destination with
    baseId := some plan.baseId
    incrementalIds := some plan.mapping.replayIds
    decidedTs := some plan.mapping.decidedTs
    decidedWallClock := some plan.decidedWallClock
    limitSliceId := plan.mapping.limitSliceId }

/-- `run_pitr`: the base goes through the pipeline of a full restore. -/
def restoreMongoPitr (env : RestoreEnv δ) (args : RestoreArgs) (uri : String)
    (storage : Storage) (targetTime : String) : ChildRun :=
  match planMongoPitr env storage targetTime with
  | .error err => .failed err
  | .ok plan =>
      if args.dryRun then
        ⟨if args.json then some (buildPitrPlanJson plan (env.redact uri))
          else none, .ok (), none⟩
      else
        match Restore.runRestore
            ⟨uri, some plan.baseId, none, args.force, false,
              args.skipPrecheck⟩ storage env.target env.server.isTty
            env.confirm with
        | (events, .error err) =>
            ⟨none, .error err,
              written uri (some plan.decidedWallClock) events⟩
        | (events, .ok _) =>
            ⟨none, env.replay plan.mapping,
              written uri (some plan.decidedWallClock) events⟩

def databaseName : DriverEngine → String
  | .mysql => "mysql"
  | .postgres => "postgresql"

/-- The JSON of a PostgreSQL or a MySQL plan. -/
def buildDriverPitrPlanJson (engine : DriverEngine) (plan : PitrPlan)
    (destination : String) : RestoreReport :=
  { RestoreReport.empty destination with
    baseId := some plan.baseId
    incrementalIds := some plan.incrementalIds
    target := some plan.targetLabel
    conflictingTables := some plan.conflictingTables
    database := some (databaseName engine) }

def restoreDriverPitr (engine : DriverEngine) (env : RestoreEnv δ)
    (args : RestoreArgs) (uri : String) (storage : Storage)
    (targetTime : String) : ChildRun :=
  match engine.startPitr env.server storage
      ⟨targetTime, args.id, args.force, args.dryRun⟩ with
  | .error err => .failed err
  | .ok (plan, none) =>
      ⟨if args.json then
          some (buildDriverPitrPlanJson engine plan (env.redact uri))
        else none, .ok (), none⟩
  | .ok (plan, some (baseManifest, dropExisting)) =>
      ⟨none, (engine.finishPitr env.server storage
          (plan, some (baseManifest, dropExisting))).map fun _ => (),
        some ⟨plan.baseId, some plan.targetLabel, none, uri, dropExisting⟩⟩

def pitrOfFiles : XBackupError :=
  .usage ("PITR(--at)은 파일 백업을 지원하지 않습니다 — 파일 백업은 풀 스냅샷 " ++
    "복구만 가능합니다(restore --id <백업ID>)")

def restorePitr (env : RestoreEnv δ) (args : RestoreArgs) (uri : String)
    (storage : Storage) (targetTime : String) : ChildRun :=
  match DbKind.fromUri uri with
  | .file => .failed pitrOfFiles
  | .postgres => restoreDriverPitr .postgres env args uri storage targetTime
  | .mysql => restoreDriverPitr .mysql env args uri storage targetTime
  | .mongo => restoreMongoPitr env args uri storage targetTime

def rejectPitrWithOnly (args : RestoreArgs) : Except XBackupError Unit :=
  if args.targetTime.isSome ∧ args.only.isSome then
    .error (.usage ("PITR (--at) cannot be combined with --only (selective " ++
      "restore) — oplog replay assumes a full restore, so it cannot be " ++
      "combined with a namespace filter"))
  else .ok ()

/-- What a run gets before it restores. -/
def prepare (env : RestoreEnv δ) (args : RestoreArgs) :
    Except XBackupError (String × Storage) := do
  env.lock
  rejectPitrWithOnly args
  let uri ← env.targetUri args.targetProfile
  let storage ← env.storage args.source
  .ok (uri, storage)

def handle (env : RestoreEnv δ) (args : RestoreArgs) : ChildRun :=
  match prepare env args with
  | .error err => .failed err
  | .ok (uri, storage) =>
      match args.targetTime with
      | none => restoreFull env args uri storage
      | some targetTime => restorePitr env args uri storage targetTime

/-- The base and the point of a recovery of an engine. -/
def driverSelection (engine : DriverEngine) (env : RestoreEnv δ)
    (args : RestoreArgs) (storage : Storage) (targetTime : String) :
    Except XBackupError (String × Option String) := do
  let maxCommit ← parseAt env.server.parseRfc3339 targetTime
  let baseId ← engine.chooseBase storage args.id
  .ok (baseId, some (if maxCommit.isNone then "latest" else targetTime))

def mongoSelection (env : RestoreEnv δ) (storage : Storage)
    (targetTime : String) : Except XBackupError (String × Option String) := do
  let plan ← planMongoPitr env storage targetTime
  let base ← storage.read plan.baseId
  .ok (base.id, some plan.decidedWallClock)

/-- The backup and the point that the flags stand for in a catalog. -/
def selection (env : RestoreEnv δ) (args : RestoreArgs) (uri : String)
    (storage : Storage) : Except XBackupError (String × Option String) :=
  match args.targetTime with
  | none => do
      let m ← Restore.choose args.id storage
      .ok (m.id, none)
  | some targetTime =>
      match DbKind.fromUri uri with
      | .file => .error pitrOfFiles
      | .postgres => driverSelection .postgres env args storage targetTime
      | .mysql => driverSelection .mysql env args storage targetTime
      | .mongo => mongoSelection env storage targetTime

section Writes

variable {env : RestoreEnv δ} {args : RestoreArgs} {uri : String}
  {storage : Storage} {targetTime : String} {write : Write}

/-- A write of what the flags select, to the target they name. -/
structure Follows (env : RestoreEnv δ) (args : RestoreArgs) (uri : String)
    (storage : Storage) (write : Write) : Prop where
  selected : selection env args uri storage = .ok (write.backupId, write.point)
  uri : write.uri = uri
  only : write.only = args.only
  forced : write.dropExisting = args.force

theorem written_unattended {request : Restore.Request}
    {point : Option String} {confirm : Restore.Plan → Bool}
    {events : List Restore.Event} {result : Except XBackupError Restore.Plan}
    (hrun : Restore.runRestore request storage env.target false confirm =
      (events, result))
    (hwrite : written uri point events = some write) :
    ∃ m, Restore.choose request.backupId storage = .ok m ∧
      write = ⟨m.id, point, request.only, uri, request.force⟩ := by
  rcases Restore.runRestore_unattended hrun with
    rfl | ⟨plan, hplan, -, rfl⟩
  · cases hwrite
  · obtain ⟨m, hm, hid⟩ := Restore.planRestore_backupId hplan
    cases hwrite
    exact ⟨m, hm, by rw [hid, Restore.planRestore_only hplan]⟩

theorem restoreFull_write (htty : env.server.isTty = false)
    (htime : args.targetTime = none)
    (hwrite : (restoreFull env args uri storage).write = some write) :
    Follows env args uri storage write := by
  have hresolve : resolveBackupId env args = .ok args.id := by
    rw [resolveBackupId, htty]
    cases args.id with
    | none => rfl
    | some id => rfl
  rw [restoreFull, hresolve, htty] at hwrite
  dsimp only at hwrite
  have hchosen : ∃ m, Restore.choose args.id storage = .ok m ∧
      write = ⟨m.id, none, args.only, uri, args.force⟩ := by
    split at hwrite
    next events err hrun => exact written_unattended hrun hwrite
    next events plan hrun =>
      split at hwrite
      next => exact written_unattended hrun hwrite
      next => exact written_unattended hrun hwrite
  obtain ⟨m, hm, rfl⟩ := hchosen
  refine ⟨?_, rfl, rfl, rfl⟩
  rw [selection, htime]
  dsimp only
  rw [hm]
  rfl

theorem restoreMongoPitr_write (htty : env.server.isTty = false)
    (htime : args.targetTime = some targetTime) (honly : args.only = none)
    (hkind : DbKind.fromUri uri = .mongo)
    (hwrite : (restoreMongoPitr env args uri storage targetTime).write =
      some write) :
    Follows env args uri storage write := by
  rw [restoreMongoPitr] at hwrite
  split at hwrite
  next => cases hwrite
  next plan hplan =>
    split at hwrite
    next => cases hwrite
    next =>
      rw [htty] at hwrite
      have hchosen : ∃ m, storage.read plan.baseId = .ok m ∧ write =
          ⟨m.id, some plan.decidedWallClock, none, uri, args.force⟩ := by
        split at hwrite
        next events err hrun => exact written_unattended hrun hwrite
        next events _ hrun => exact written_unattended hrun hwrite
      obtain ⟨m, hm, rfl⟩ := hchosen
      refine ⟨?_, rfl, honly.symm, rfl⟩
      rw [selection, htime]
      dsimp only
      rw [hkind]
      dsimp only
      rw [mongoSelection, hplan]
      dsimp only [bind, Except.bind]
      rw [hm]

theorem decideGuard_unattended {conflicts : List String} {force drop : Bool}
    {confirm : List String → Bool}
    (hguard : decideGuard conflicts force false confirm = .ok drop) :
    drop = force := by
  rw [decideGuard] at hguard
  split at hguard
  next hforce =>
    cases hguard
    exact hforce.symm
  next hforce =>
    split at hguard
    next =>
      cases hguard
      simpa using hforce
    next => cases hguard

theorem restoreDriverPitr_write {engine : DriverEngine}
    (htty : env.server.isTty = false)
    (hwrite : (restoreDriverPitr engine env args uri storage
      targetTime).write = some write) :
    driverSelection engine env args storage targetTime =
        .ok (write.backupId, write.point) ∧ write.uri = uri ∧
      write.only = none ∧ write.dropExisting = args.force := by
  rw [restoreDriverPitr] at hwrite
  split at hwrite
  next => cases hwrite
  next => cases hwrite
  next plan baseManifest drop hstart =>
    cases hwrite
    obtain ⟨maxCommit, hparse, hstart⟩ := bind_eq_ok.mp hstart
    obtain ⟨baseId, hbase, hstart⟩ := bind_eq_ok.mp hstart
    obtain ⟨found, -, hstart⟩ := bind_eq_ok.mp hstart
    dsimp only at hstart
    by_cases hdry : args.dryRun = true
    · rw [if_pos hdry] at hstart
      cases hstart
    · rw [if_neg hdry] at hstart
      obtain ⟨decided, hguard, hstart⟩ := bind_eq_ok.mp hstart
      rw [htty] at hguard
      cases found with
      | false => cases hstart
      | true =>
          obtain ⟨m, -, hstart⟩ := bind_eq_ok.mp hstart
          cases hstart
          refine ⟨?_, rfl, rfl, decideGuard_unattended hguard⟩
          rw [driverSelection, hparse]
          dsimp only [bind, Except.bind]
          rw [hbase]

/-- What a run writes that nobody attends. -/
theorem handle_write (htty : env.server.isTty = false)
    (hwrite : (handle env args).write = some write) :
    ∃ uri storage, prepare env args = .ok (uri, storage) ∧
      Follows env args uri storage write := by
  rw [handle] at hwrite
  split at hwrite
  next => cases hwrite
  next uri storage hprepare =>
    refine ⟨uri, storage, hprepare, ?_⟩
    split at hwrite
    next htime => exact restoreFull_write htty htime hwrite
    next targetTime htime =>
      obtain ⟨_, -, hprepare⟩ := bind_eq_ok.mp hprepare
      obtain ⟨_, hreject, -⟩ := bind_eq_ok.mp hprepare
      have honly : args.only = none := by
        rw [rejectPitrWithOnly, htime] at hreject
        split at hreject
        next => cases hreject
        next hneither => simpa using hneither
      have hdriver : ∀ engine,
          selection env args uri storage =
              driverSelection engine env args storage targetTime →
            (restoreDriverPitr engine env args uri storage
              targetTime).write = some write →
              Follows env args uri storage write := by
        intro engine hselection hdriver
        obtain ⟨hselected, huri, hwritten, hforce⟩ :=
          restoreDriverPitr_write htty hdriver
        exact ⟨hselection.trans hselected, huri, hwritten.trans honly.symm,
          hforce⟩
      rw [restorePitr] at hwrite
      split at hwrite
      next => cases hwrite
      next hkind =>
        refine hdriver .postgres ?_ hwrite
        rw [selection, htime]
        dsimp only
        rw [hkind]
      next hkind =>
        refine hdriver .mysql ?_ hwrite
        rw [selection, htime]
        dsimp only
        rw [hkind]
      next hkind =>
        exact restoreMongoPitr_write htty htime honly hkind hwrite

end Writes

end RestoreCommand

end XBackup
