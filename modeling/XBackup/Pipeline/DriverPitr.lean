/-
Point-in-time recovery of the engines whose increments carry decoded changes,
MySQL and PostgreSQL: the base, the increments chained to it and the replay of
every change committed up to the target.  The two pipelines differ in the
formats they accept, in their texts and in that a MySQL target database may not
exist yet.
-/
import XBackup.Engine.DbKind
import XBackup.Foundation.Fallible
import XBackup.Manifest.Store

namespace XBackup

open Fallible SortedNames

/-- A decoded row change; `statement` is what the target makes of it. -/
structure RowChange (δ : Type) where
  commitUnixMicros : Int
  statement : δ
deriving DecidableEq, Repr

inductive IncrFrame (δ : Type) where
  | header (format : Option String)
  | change (c : RowChange δ)
  | end_
deriving DecidableEq, Repr

/-- What was done to the target: the base archive that was restored, with the
drop flag, and the increments gone through with the changes each executed. -/
structure RestoreTarget (δ : Type) where
  base : Option (String × Bool)
  slices : List (String × List (RowChange δ))
deriving DecidableEq, Repr

structure PitrRequest where
  targetTime : String
  baseId : Option String
  force : Bool
  dryRun : Bool

structure PitrPlan where
  baseId : String
  incrementalIds : List String
  maxCommitMicros : Option Int
  targetLabel : String
  conflictingTables : List String
deriving DecidableEq, Repr

structure PitrOutcome where
  plan : PitrPlan
  appliedChanges : Nat
  replayedSlices : Nat
deriving DecidableEq, Repr

/-- What the pipelines ask of the outside: the RFC3339 parser, the target
server, the user, and the decoded data files.  `connect` says whether the
database exists; `execute` whether a change led to a statement. -/
structure PitrServer (δ : Type) where
  parseRfc3339 : String → Except String Int
  connect : Bool → Except XBackupError Bool
  listQualified : Except XBackupError (List String)
  isTty : Bool
  confirm : List String → Bool
  restoreInto : String → BackupManifest → Bool → Except XBackupError Unit
  sliceFrames : String → BackupManifest →
    Except XBackupError (List (Except XBackupError (IncrFrame δ)))
  execute : RestoreTarget δ → List (RowChange δ) → RowChange δ →
    Except XBackupError Bool

inductive DriverEngine where
  | mysql
  | postgres
deriving DecidableEq, Repr

variable {δ : Type}

def eqIgnoreAsciiCase (left right : String) : Bool :=
  left.toList.map Char.toLower = right.toList.map Char.toLower

/-- `none` replays everything. -/
def parseAt (parseRfc3339 : String → Except String Int) (text : String) :
    Except XBackupError (Option Int) :=
  if eqIgnoreAsciiCase text "latest" then .ok none
  else
    match parseRfc3339 text with
    | .ok micros => .ok (some micros)
    | .error err => .error (.usage
        ("failed to parse --at ('" ++ text ++ "'): " ++ err ++
          " — RFC3339 (e.g. 2026-06-14T09:00:00Z) or 'latest' is required"))

/-- Whether existing tables may be dropped. -/
def decideGuard (conflicts : List String) (force isTty : Bool)
    (confirm : List String → Bool) : Except XBackupError Bool :=
  if force then .ok true
  else if conflicts.isEmpty then .ok false
  else if isTty then
    if confirm conflicts then .ok true
    else .error (.failure
      "the user cancelled the restore (existing data preserved)")
  else .error (.failure
    ("the restore target already has data (" ++ toString conflicts.length ++
      " table(s)). Non-TTY refuses to overwrite without --force"))

namespace DriverEngine

def label : DriverEngine → String
  | .mysql => "MySQL"
  | .postgres => "PostgreSQL"

def fullFormat : DriverEngine → String
  | .mysql => MYSQL_FORMAT_ID
  | .postgres => PG_FORMAT_ID

def incrFormat : DriverEngine → String
  | .mysql => MYSQL_INCR_FORMAT_ID
  | .postgres => PG_INCR_FORMAT_ID

def latestFull (engine : DriverEngine) (storage : Storage) :
    Except XBackupError String :=
  latestWhere (isFullOf engine.fullFormat) (.usage
    ("no " ++ engine.label ++
      " full backup to restore — run a full backup first")) storage

def collectIncrements (engine : DriverEngine) (storage : Storage)
    (baseId : String) : List String :=
  collectWhere (isIncrementOf engine.incrFormat baseId) storage

/-- The base named by `--id`, or the latest full backup. -/
def chooseBase (engine : DriverEngine) (storage : Storage) :
    Option String → Except XBackupError String
  | some id => do
      let m ← storage.read id
      if isFullOf engine.fullFormat m then .ok id
      else .error (.usage
        ("--id '" ++ id ++ "' is not a " ++ engine.label ++
          " full backup (not eligible as a PITR base)"))
  | none => engine.latestFull storage

/-- The loop of `incremental::apply`: changes committed behind the limit are
passed over.  A stream that ends without an end frame ends the loop too. -/
def applyChanges (engine : DriverEngine) (server : PitrServer δ)
    (target : RestoreTarget δ) (maxCommit : Option Int)
    (executed : List (RowChange δ)) :
    List (Except XBackupError (IncrFrame δ)) →
      Except XBackupError (List (RowChange δ))
  | [] => .ok executed
  | .error err :: _ => .error err
  | .ok (.header _) :: _ => .error (.failure
      ("duplicate " ++ engine.label ++ " incremental header"))
  | .ok .end_ :: _ => .ok executed
  | .ok (.change c) :: rest =>
      if maxCommit.any fun limit => limit < c.commitUnixMicros then
        applyChanges engine server target maxCommit executed rest
      else
        match server.execute target executed c with
        | .error err => .error err
        | .ok true =>
            applyChanges engine server target maxCommit (executed ++ [c]) rest
        | .ok false =>
            applyChanges engine server target maxCommit executed rest

/-- `incremental::apply`: the changes executed from one data file. -/
def applyIncrement (engine : DriverEngine) (server : PitrServer δ)
    (target : RestoreTarget δ) (maxCommit : Option Int)
    (frames : List (Except XBackupError (IncrFrame δ))) :
    Except XBackupError (List (RowChange δ)) :=
  let headerMissing (found : String) :
      Except XBackupError (List (RowChange δ)) :=
    .error (.failure
      (engine.label ++ " incremental header missing: " ++ found))
  match frames with
  | [] => headerMissing "End"
  | .error err :: _ => .error err
  | .ok .end_ :: _ => headerMissing "End"
  | .ok (.change _) :: _ => headerMissing "Change"
  | .ok (.header format) :: rest =>
      let fmt := format.getD ""
      if fmt = engine.incrFormat then
        applyChanges engine server target maxCommit [] rest
      else .error (.failure
        (engine.label ++ " incremental format mismatch: '" ++ fmt ++ "'"))

/-- One round of the replay.  A slice without changes has no data file. -/
def replayIncrement (engine : DriverEngine) (server : PitrServer δ)
    (storage : Storage) (maxCommit : Option Int) (target : RestoreTarget δ)
    (id : String) : Except XBackupError (RestoreTarget δ) := do
  let m ← storage.read id
  if m.oplogCount = some 0 then
    .ok { target with slices := target.slices ++ [(id, [])] }
  else
    let frames ← server.sliceFrames id m
    let executed ← engine.applyIncrement server target maxCommit frames
    .ok { target with slices := target.slices ++ [(id, executed)] }

/-- The slices whose data file was read. -/
def replayedSlices (storage : Storage) (ids : List String) : List String :=
  ids.filter fun id =>
    match storage.read id with
    | .ok m => m.oplogCount ≠ some 0
    | .error _ => false

/-- Whether the target database is there.  A MySQL one is created unless the run
only plans; a PostgreSQL one is there once the connection is. -/
def connectTarget (engine : DriverEngine) (server : PitrServer δ)
    (dryRun : Bool) : Except XBackupError Bool :=
  match engine with
  | .mysql => server.connect (!dryRun)
  | .postgres =>
      match server.connect true with
      | .ok _ => .ok true
      | .error err => .error err

/-- The pipeline; next to its outcome, what it did to the target. -/
def runPitr (engine : DriverEngine) (server : PitrServer δ)
    (storage : Storage) (request : PitrRequest) :
    Except XBackupError (PitrOutcome × RestoreTarget δ) := do
  let maxCommit ← parseAt server.parseRfc3339 request.targetTime
  let baseId ← engine.chooseBase storage request.baseId
  let incrementalIds := engine.collectIncrements storage baseId
  let exists_ ← engine.connectTarget server request.dryRun
  let conflicts :=
    if exists_ then (server.listQualified.toOption).getD [] else []
  let plan : PitrPlan :=
    { baseId := baseId
      incrementalIds := incrementalIds
      maxCommitMicros := maxCommit
      targetLabel := if maxCommit.isNone then "latest" else request.targetTime
      conflictingTables := conflicts }
  if request.dryRun then .ok (⟨plan, 0, 0⟩, ⟨none, []⟩)
  else
    let dropExisting ←
      decideGuard conflicts request.force server.isTty server.confirm
    if exists_ then
      let baseManifest ← storage.read baseId
      server.restoreInto baseId baseManifest dropExisting
      let target ← incrementalIds.foldlM
        (engine.replayIncrement server storage maxCommit)
        ⟨some (baseId, dropExisting), []⟩
      .ok (⟨plan, (target.slices.flatMap Prod.snd).length,
        (replayedSlices storage incrementalIds).length⟩, target)
    else .error (.failure
      ("could not prepare the " ++ engine.label ++ " PITR target database"))

/-- The pipeline up to the restore of the base: the plan and, unless the run
only plans, what the base is restored from and the drop flag. -/
def startPitr (engine : DriverEngine) (server : PitrServer δ)
    (storage : Storage) (request : PitrRequest) :
    Except XBackupError (PitrPlan × Option (BackupManifest × Bool)) := do
  let maxCommit ← parseAt server.parseRfc3339 request.targetTime
  let baseId ← engine.chooseBase storage request.baseId
  let exists_ ← engine.connectTarget server request.dryRun
  let conflicts :=
    if exists_ then (server.listQualified.toOption).getD [] else []
  let plan : PitrPlan :=
    { baseId := baseId
      incrementalIds := engine.collectIncrements storage baseId
      maxCommitMicros := maxCommit
      targetLabel := if maxCommit.isNone then "latest" else request.targetTime
      conflictingTables := conflicts }
  if request.dryRun then .ok (plan, none)
  else
    let dropExisting ←
      decideGuard conflicts request.force server.isTty server.confirm
    if exists_ then
      let baseManifest ← storage.read baseId
      .ok (plan, some (baseManifest, dropExisting))
    else .error (.failure
      ("could not prepare the " ++ engine.label ++ " PITR target database"))

/-- What follows on the restore of the base. -/
def finishPitr (engine : DriverEngine) (server : PitrServer δ)
    (storage : Storage) (started : PitrPlan × Option (BackupManifest × Bool)) :
    Except XBackupError (PitrOutcome × RestoreTarget δ) :=
  match started with
  | (plan, none) => .ok (⟨plan, 0, 0⟩, ⟨none, []⟩)
  | (plan, some (baseManifest, dropExisting)) => do
      server.restoreInto plan.baseId baseManifest dropExisting
      let target ← plan.incrementalIds.foldlM
        (engine.replayIncrement server storage plan.maxCommitMicros)
        ⟨some (plan.baseId, dropExisting), []⟩
      .ok (⟨plan, (target.slices.flatMap Prod.snd).length,
        (replayedSlices storage plan.incrementalIds).length⟩, target)

theorem runPitr_eq (engine : DriverEngine) (server : PitrServer δ)
    (storage : Storage) (request : PitrRequest) :
    engine.runPitr server storage request =
      engine.startPitr server storage request >>=
        engine.finishPitr server storage := by
  rw [runPitr, startPitr]
  cases parseAt server.parseRfc3339 request.targetTime with
  | error err => rfl
  | ok maxCommit =>
      cases engine.chooseBase storage request.baseId with
      | error err => rfl
      | ok baseId =>
          cases engine.connectTarget server request.dryRun with
          | error err => rfl
          | ok exists_ =>
              simp only [bind, Except.bind]
              by_cases hdry : request.dryRun = true
              · rw [if_pos hdry, if_pos hdry]
                rfl
              · rw [if_neg hdry, if_neg hdry]
                cases decideGuard
                    (if exists_ then (server.listQualified.toOption).getD []
                      else []) request.force server.isTty server.confirm with
                | error err => rfl
                | ok dropExisting =>
                    cases exists_ with
                    | false => rfl
                    | true =>
                        cases storage.read baseId with
                        | error err => rfl
                        | ok baseManifest => rfl

end DriverEngine

def latestMysqlFull : Storage → Except XBackupError String :=
  DriverEngine.mysql.latestFull

def latestPgFull : Storage → Except XBackupError String :=
  DriverEngine.postgres.latestFull

def collectMysqlIncrements : Storage → String → List String :=
  DriverEngine.mysql.collectIncrements

def collectPgIncrements : Storage → String → List String :=
  DriverEngine.postgres.collectIncrements

/-- Where the next MySQL increment starts: the end of the last increment that
states one, else the position of the base. -/
def chainStartCoords (storage : Storage) (baseId : String) :
    Except XBackupError MysqlBinlogCoords :=
  let found := (collectMysqlIncrements storage baseId).reverse.findSome?
    fun id =>
      match storage.read id with
      | .ok m => m.mysqlBinlog
      | .error _ => none
  match found with
  | some coords => .ok coords
  | none =>
      match storage.read baseId with
      | .error err => .error err
      | .ok base =>
          match base.mysqlBinlog with
          | some coords => .ok coords
          | none => .error (.usage
              ("the base full backup has no binlog coordinates — " ++
                "incremental requires a full backup made on a server with " ++
                "log_bin=ON (features.incremental.mysql_binlog=true)."))

def runMysqlPitr : PitrServer δ → Storage → PitrRequest →
    Except XBackupError (PitrOutcome × RestoreTarget δ) :=
  DriverEngine.mysql.runPitr

def runPgPitr : PitrServer δ → Storage → PitrRequest →
    Except XBackupError (PitrOutcome × RestoreTarget δ) :=
  DriverEngine.postgres.runPitr

namespace DriverEngine

/-- Every successful run, taken apart: what it planned and, unless it only
planned, how its target came about. -/
theorem runPitr_eq_ok {engine : DriverEngine} {server : PitrServer δ}
    {storage : Storage} {request : PitrRequest} {outcome : PitrOutcome}
    {target : RestoreTarget δ}
    (hrun : engine.runPitr server storage request = .ok (outcome, target)) :
    parseAt server.parseRfc3339 request.targetTime =
        .ok outcome.plan.maxCommitMicros ∧
      engine.chooseBase storage request.baseId = .ok outcome.plan.baseId ∧
      outcome.plan.incrementalIds =
        engine.collectIncrements storage outcome.plan.baseId ∧
      (request.dryRun = true ∧ target = ⟨none, []⟩ ∨
        request.dryRun = false ∧ ∃ dropExisting,
          outcome.plan.incrementalIds.foldlM
            (engine.replayIncrement server storage outcome.plan.maxCommitMicros)
            ⟨some (outcome.plan.baseId, dropExisting), []⟩ = .ok target) := by
  simp only [runPitr, bind_eq_ok] at hrun
  obtain ⟨maxCommit, hparse, baseId, hbase, exists_, -, hrest⟩ := hrun
  by_cases hdry : request.dryRun = true
  · rw [if_pos hdry] at hrest
    cases hrest
    exact ⟨hparse, hbase, rfl, Or.inl ⟨hdry, rfl⟩⟩
  · rw [if_neg hdry, bind_eq_ok] at hrest
    obtain ⟨dropExisting, -, hrest⟩ := hrest
    cases exists_ with
    | false => cases hrest
    | true =>
        simp only [if_true, bind_eq_ok] at hrest
        obtain ⟨baseManifest, -, ⟨⟩, -, final, hfold, hrest⟩ := hrest
        cases hrest
        exact ⟨hparse, hbase, rfl,
          Or.inr ⟨by simpa using hdry, dropExisting, hfold⟩⟩

/-- The change was committed up to the limit, if there is one. -/
def CommittedBy (maxCommit : Option Int) (c : RowChange δ) : Prop :=
  ∀ limit ∈ maxCommit, c.commitUnixMicros ≤ limit

theorem applyChanges_committedBy {engine : DriverEngine}
    {server : PitrServer δ} {target : RestoreTarget δ} {maxCommit : Option Int}
    {frames : List (Except XBackupError (IncrFrame δ))}
    {executed done : List (RowChange δ)}
    (hexecuted : ∀ c ∈ executed, CommittedBy maxCommit c)
    (happly : engine.applyChanges server target maxCommit executed frames =
      .ok done) :
    ∀ c ∈ done, CommittedBy maxCommit c := by
  induction frames generalizing executed with
  | nil =>
      cases happly
      exact hexecuted
  | cons frame rest ih =>
      match frame with
      | .error err => cases happly
      | .ok (.header format) => cases happly
      | .ok .end_ =>
          cases happly
          exact hexecuted
      | .ok (.change c) =>
          simp only [applyChanges] at happly
          split at happly
          next => exact ih hexecuted happly
          next hkept =>
            have hwithin : CommittedBy maxCommit c := by
              intro limit hlimit
              by_contra hlate
              rw [Option.mem_def.mp hlimit, Option.any_some] at hkept
              exact hkept (by simpa using hlate)
            split at happly
            · cases happly
            · refine ih ?_ happly
              intro other hother
              rcases List.mem_append.mp hother with hold | hnew
              · exact hexecuted other hold
              · rw [List.mem_singleton.mp hnew]
                exact hwithin
            · exact ih hexecuted happly

theorem applyIncrement_committedBy {engine : DriverEngine}
    {server : PitrServer δ} {target : RestoreTarget δ} {maxCommit : Option Int}
    {frames : List (Except XBackupError (IncrFrame δ))}
    {done : List (RowChange δ)}
    (happly : engine.applyIncrement server target maxCommit frames =
      .ok done) :
    ∀ c ∈ done, CommittedBy maxCommit c := by
  match frames with
  | [] => cases happly
  | .error err :: _ => cases happly
  | .ok .end_ :: _ => cases happly
  | .ok (.change _) :: _ => cases happly
  | .ok (.header format) :: rest =>
      simp only [applyIncrement] at happly
      split at happly
      · exact applyChanges_committedBy (by simp) happly
      · cases happly

/-- What one round of the replay does. -/
theorem replayIncrement_eq_ok {engine : DriverEngine} {server : PitrServer δ}
    {storage : Storage} {maxCommit : Option Int}
    {target next : RestoreTarget δ} {id : String}
    (hreplay : engine.replayIncrement server storage maxCommit target id =
      .ok next) :
    ∃ done, next = { target with slices := target.slices ++ [(id, done)] } ∧
      ∀ c ∈ done, CommittedBy maxCommit c := by
  rw [replayIncrement, bind_eq_ok] at hreplay
  obtain ⟨m, -, hreplay⟩ := hreplay
  split at hreplay
  · cases hreplay
    exact ⟨[], rfl, by simp⟩
  · simp only [bind_eq_ok] at hreplay
    obtain ⟨frames, -, done, happly, hnext⟩ := hreplay
    cases hnext
    exact ⟨done, rfl, applyIncrement_committedBy happly⟩

/-- A replay goes through the increments it was given, in their order. -/
theorem replay_slices {engine : DriverEngine} {server : PitrServer δ}
    {storage : Storage} {maxCommit : Option Int}
    {start final : RestoreTarget δ} {ids : List String}
    (hreplay : ids.foldlM (engine.replayIncrement server storage maxCommit)
      start = .ok final) :
    final.slices.map Prod.fst = start.slices.map Prod.fst ++ ids := by
  refine foldlM_trace (fun target => target.slices.map Prod.fst) ?_ hreplay
  intro target id next hnext
  obtain ⟨done, rfl, -⟩ := replayIncrement_eq_ok hnext
  simp

/-- A replay leaves the base alone and executes no change behind the limit. -/
theorem replay_committedBy {engine : DriverEngine} {server : PitrServer δ}
    {storage : Storage} {maxCommit : Option Int}
    {start final : RestoreTarget δ} {ids : List String}
    (hstart : ∀ slice ∈ start.slices, ∀ c ∈ slice.2, CommittedBy maxCommit c)
    (hreplay : ids.foldlM (engine.replayIncrement server storage maxCommit)
      start = .ok final) :
    final.base = start.base ∧
      ∀ slice ∈ final.slices, ∀ c ∈ slice.2, CommittedBy maxCommit c := by
  refine foldlM_invariant
    (fun target => target.base = start.base ∧
      ∀ slice ∈ target.slices, ∀ c ∈ slice.2, CommittedBy maxCommit c)
    ⟨rfl, hstart⟩ ?_ hreplay
  rintro target id - ⟨hbase, hslices⟩ next hnext
  obtain ⟨done, rfl, hdone⟩ := replayIncrement_eq_ok hnext
  refine ⟨hbase, ?_⟩
  intro slice hslice
  rcases List.mem_append.mp hslice with hold | hnew
  · exact hslices slice hold
  · rw [List.mem_singleton.mp hnew]
    exact hdone

end DriverEngine

/-- The commits of the source that a target holds, by their times: all up to
the snapshot of the restored base, and the executed changes. -/
def RestoreTarget.HoldsCommit (snapshotTime : String → Int)
    (target : RestoreTarget δ) (time : Int) : Prop :=
  (∃ baseId dropExisting, target.base = some (baseId, dropExisting) ∧
      time ≤ snapshotTime baseId) ∨
    ∃ slice ∈ target.slices, ∃ c ∈ slice.2, c.commitUnixMicros = time

/-- Every full backup taken behind the target is followed, in id order, by one
that was taken by then. -/
def NewerFullsCovered (snapshotTime : String → Int) (engine : DriverEngine)
    (storage : Storage) (micros : Int) : Prop :=
  ∀ dir m, EligibleAt (isFullOf engine.fullFormat) storage dir m →
    micros < snapshotTime m.id →
      ∃ later m', EligibleAt (isFullOf engine.fullFormat) storage later m' ∧
        dir < later ∧ snapshotTime m'.id ≤ micros

/-- A server that agrees to everything and whose data files hold no change. -/
def PitrServer.willing (engine : DriverEngine) (micros : Int) :
    PitrServer δ where
  parseRfc3339 _ := .ok micros
  connect _ := .ok true
  listQualified := .ok []
  isTty := false
  confirm _ := false
  restoreInto _ _ _ := .ok ()
  sliceFrames _ _ := .ok [.ok (.header (some engine.incrFormat))]
  execute _ _ _ := .ok true

namespace DriverEngine

theorem parseAt_willing (engine : DriverEngine) (micros : Int) :
    parseAt (PitrServer.willing (δ := δ) engine micros).parseRfc3339 "" =
      .ok (some micros) := rfl

theorem runPitr_plan_willing {engine : DriverEngine} {storage : Storage}
    {baseId : String} (micros : Int)
    (hlatest : engine.latestFull storage = .ok baseId) :
    ∃ outcome : PitrOutcome, outcome.plan.baseId = baseId ∧
      engine.runPitr (PitrServer.willing (δ := δ) engine micros) storage
        ⟨"", none, false, true⟩ = .ok (outcome, ⟨none, []⟩) := by
  refine ⟨⟨⟨baseId, engine.collectIncrements storage baseId, some micros, "",
    []⟩, 0, 0⟩, rfl, ?_⟩
  have hconnect : engine.connectTarget
      (PitrServer.willing (δ := δ) engine micros) true = .ok true := by
    cases engine <;> rfl
  rw [runPitr, parseAt_willing]
  simp only [chooseBase, hlatest, hconnect]
  rfl

theorem latestFull_isOk_of_eligible (engine : DriverEngine)
    {storage : Storage} {dir : String} {m : BackupManifest}
    (hm : EligibleAt (isFullOf engine.fullFormat) storage dir m) :
    ∃ baseId, engine.latestFull storage = .ok baseId :=
  latestWhere_isOk_of_eligible hm

/-- The full backup a recovery without `--id` starts from is the eligible one in
the greatest directory; it is taken up to the target exactly when none taken
behind the target comes last. -/
theorem latestFull_upTo_iff {engine : DriverEngine} {storage : Storage}
    {snapshotTime : String → Int} {micros : Int} {baseId : String}
    (hlatest : engine.latestFull storage = .ok baseId) :
    snapshotTime baseId ≤ micros ↔
      NewerFullsCovered snapshotTime engine storage micros := by
  obtain ⟨top, base, hbase, rfl, hmax⟩ := latestWhere_eq_ok_iff.mp hlatest
  constructor
  · intro hupTo dir m hm hlate
    refine ⟨top, base, hbase, lt_of_le_of_ne (hmax dir m hm) ?_, hupTo⟩
    rintro rfl
    have hsame : Except.ok (ε := XBackupError) m = .ok base :=
      hm.reads.symm.trans hbase.reads
    cases hsame
    exact absurd hupTo (not_le.mpr hlate)
  · intro hcovered
    by_contra hlate
    obtain ⟨later, m', hm', hlater, -⟩ :=
      hcovered top base hbase (not_le.mp hlate)
    exact absurd (hmax later m' hm') (not_le.mpr hlater)

end DriverEngine

/-- Recovering to `micros` without `--id`: whenever a full backup taken by then
can be had, the chosen one was taken by then and the target holds nothing that
was committed later. -/
def RecoversUpTo (δ : Type) (snapshotTime : String → Int)
    (engine : DriverEngine) (storage : Storage) (micros : Int) : Prop :=
  (∃ dir m, EligibleAt (isFullOf engine.fullFormat) storage dir m ∧
      snapshotTime m.id ≤ micros) →
  ∀ (server : PitrServer δ) (request : PitrRequest) (outcome : PitrOutcome)
    (target : RestoreTarget δ), request.baseId = none →
    parseAt server.parseRfc3339 request.targetTime = .ok (some micros) →
    engine.runPitr server storage request = .ok (outcome, target) →
      snapshotTime outcome.plan.baseId ≤ micros ∧
        ∀ time, target.HoldsCommit snapshotTime time → time ≤ micros

namespace DriverEngine

/-- A run on a base taken up to the limit brings nothing behind the limit. -/
theorem runPitr_holdsCommit_le {engine : DriverEngine}
    {server : PitrServer δ} {storage : Storage} {request : PitrRequest}
    {outcome : PitrOutcome} {target : RestoreTarget δ}
    {snapshotTime : String → Int} {micros time : Int}
    (hparse : parseAt server.parseRfc3339 request.targetTime =
      .ok (some micros))
    (hrun : engine.runPitr server storage request = .ok (outcome, target))
    (hbase : snapshotTime outcome.plan.baseId ≤ micros)
    (hholds : target.HoldsCommit snapshotTime time) : time ≤ micros := by
  obtain ⟨hmax, -, -, hplan | ⟨-, dropExisting, hreplay⟩⟩ := runPitr_eq_ok hrun
  · rw [hplan.2] at hholds
    simp [RestoreTarget.HoldsCommit] at hholds
  · have hlimit : outcome.plan.maxCommitMicros = some micros := by
      rw [hparse] at hmax
      exact (Except.ok.inj hmax).symm
    rw [hlimit] at hreplay
    obtain ⟨hfinal, hcommitted⟩ := replay_committedBy (by simp) hreplay
    rcases hholds with ⟨baseId, drop, hsome, htime⟩ | ⟨slice, hslice, c, hc, rfl⟩
    · rw [hfinal] at hsome
      cases hsome
      exact htime.trans hbase
    · exact hcommitted slice hslice c hc micros rfl

end DriverEngine

/-- Recovery without `--id` keeps to the target exactly when no full backup can
be had for it, or no newer one comes last. -/
theorem pitr_recoversUpTo_iff (δ : Type) (snapshotTime : String → Int)
    (engine : DriverEngine) (storage : Storage) (micros : Int) :
    RecoversUpTo δ snapshotTime engine storage micros ↔
      ((∃ dir m, EligibleAt (isFullOf engine.fullFormat) storage dir m ∧
          snapshotTime m.id ≤ micros) →
        NewerFullsCovered snapshotTime engine storage micros) := by
  constructor
  · intro hrecovers hexists
    rcases hexists with ⟨dir, m, hm, hupTo⟩
    obtain ⟨baseId, hlatest⟩ := engine.latestFull_isOk_of_eligible hm
    obtain ⟨outcome, rfl, hrun⟩ :=
      DriverEngine.runPitr_plan_willing (δ := δ) micros hlatest
    have hchosen := hrecovers ⟨dir, m, hm, hupTo⟩ (PitrServer.willing engine micros) _
      outcome _ rfl (DriverEngine.parseAt_willing engine micros) hrun
    exact (DriverEngine.latestFull_upTo_iff hlatest).mp hchosen.1
  · intro hcovered hexists server request outcome target hnone hparse hrun
    have hlatest : engine.latestFull storage = .ok outcome.plan.baseId := by
      have hchoose := (DriverEngine.runPitr_eq_ok hrun).2.1
      rwa [hnone] at hchoose
    have hbase : snapshotTime outcome.plan.baseId ≤ micros :=
      (DriverEngine.latestFull_upTo_iff hlatest).mpr (hcovered hexists)
    exact ⟨hbase, fun time hholds =>
      DriverEngine.runPitr_holdsCommit_le hparse hrun hbase hholds⟩

def driverFull (engine : DriverEngine) (id createdAt : String) :
    BackupManifest where
  id := id
  createdAt := createdAt
  backupType := .full
  baseId := none
  topology := .standalone
  toolVersions := ⟨none, some engine.fullFormat⟩
  selective := false
  oplogRange := none
  oplogCount := none
  promotedFromGap := false
  mysqlBinlog := none
  status := .complete

/-- Two full backups, taken before and behind the target. -/
def twoFulls (engine : DriverEngine) : Storage where
  manifestDirs := ["b1", "b2"]
  read dir :=
    if dir = "b1" then .ok (driverFull engine "b1" "10")
    else if dir = "b2" then .ok (driverFull engine "b2" "30")
    else .error (.storageDownload (dir ++ "/manifest.json"))

def twoFullsTime (id : String) : Int :=
  if id = "b1" then 10 else 30

/-- The newer base wins, whatever the target: commits of time 25 are restored
for the target 20. -/
theorem runPitr_twoFulls (engine : DriverEngine) :
    (engine.runPitr (PitrServer.willing (δ := Unit) engine 20)
      (twoFulls engine) ⟨"", none, true, false⟩).map Prod.snd =
        .ok ⟨some ("b2", true), []⟩ := by
  cases engine <;> decide

theorem not_recoversUpTo_twoFulls (engine : DriverEngine) :
    ¬ RecoversUpTo Unit twoFullsTime engine (twoFulls engine) 20 := by
  intro hrecovers
  have hfirst : EligibleAt (isFullOf engine.fullFormat) (twoFulls engine) "b1"
      (driverFull engine "b1" "10") := by
    refine ⟨mem_collectManifestIds.mpr ⟨?_, by decide⟩, rfl, ?_⟩
    · simp [twoFulls]
    · cases engine <;> decide
  have hrun := runPitr_twoFulls engine
  cases hresult : engine.runPitr (PitrServer.willing (δ := Unit) engine 20)
      (twoFulls engine) ⟨"", none, true, false⟩ with
  | error err =>
      rw [hresult] at hrun
      cases hrun
  | ok result =>
      obtain ⟨outcome, target⟩ := result
      rw [hresult] at hrun
      have htarget : target = ⟨some ("b2", true), []⟩ := by
        simpa [Except.map] using hrun
      have hbefore : twoFullsTime (driverFull engine "b1" "10").id ≤ 20 := by
        simp [driverFull, twoFullsTime]
      have hholds : target.HoldsCommit twoFullsTime 25 :=
        Or.inl ⟨"b2", true, by rw [htarget], by decide⟩
      have hlimit := (hrecovers ⟨"b1", _, hfirst, hbefore⟩ _ _ outcome target
        rfl (DriverEngine.parseAt_willing engine 20) hresult).2 25 hholds
      omega

theorem pitr_startsBehindTarget :
    ¬ RecoversUpTo Unit twoFullsTime .mysql (twoFulls .mysql) 20 ∧
      ¬ RecoversUpTo Unit twoFullsTime .postgres (twoFulls .postgres) 20 :=
  ⟨not_recoversUpTo_twoFulls .mysql, not_recoversUpTo_twoFulls .postgres⟩

/-- The position comes from the base or from one of its increments. -/
theorem chainStartCoords_toStorage {catalog : Catalog} {baseId : String}
    {coords : MysqlBinlogCoords}
    (hstart : chainStartCoords catalog.toStorage baseId = .ok coords) :
    ∃ tip ∈ catalog.manifests, tip.mysqlBinlog = some coords ∧
      (tip.id = baseId ∨
        isIncrementOf MYSQL_INCR_FORMAT_ID baseId tip = true) := by
  simp only [chainStartCoords] at hstart
  split at hstart
  next found hfound =>
    cases hstart
    obtain ⟨id, hid, hcoords⟩ := List.exists_of_findSome?_eq_some hfound
    obtain ⟨tip, htip, rfl, hincrement⟩ :=
      Catalog.mem_collectWhere_toStorage (List.mem_reverse.mp hid)
    rw [Catalog.read_toStorage.mpr ⟨htip, rfl⟩] at hcoords
    exact ⟨tip, htip, hcoords, Or.inr hincrement⟩
  next =>
    split at hstart
    next => cases hstart
    next base hread =>
      split at hstart
      next coords' hcoords =>
        cases hstart
        obtain ⟨hmem, hid⟩ := Catalog.read_toStorage.mp hread
        exact ⟨base, hmem, hcoords, Or.inl hid⟩
      next => cases hstart

/-- The increments of a base in id order, the order they were captured in. -/
def Catalog.increments (catalog : Catalog) (engine : DriverEngine)
    (baseId : String) : List String :=
  (catalog.manifests.filter (isIncrementOf engine.incrFormat baseId)).map
    BackupManifest.id

/-- No successful run on the base goes through an increment whose predecessor
it left out. -/
def ReplaysPrefix (δ : Type) (engine : DriverEngine) (storage : Storage)
    (baseId : String) (chain : List String) : Prop :=
  ∀ (server : PitrServer δ) (request : PitrRequest) (outcome : PitrOutcome)
    (target : RestoreTarget δ),
    engine.runPitr server storage request = .ok (outcome, target) →
      outcome.plan.baseId = baseId → target.slices.map Prod.fst <+: chain

namespace DriverEngine

theorem runPitr_slices {engine : DriverEngine} {server : PitrServer δ}
    {storage : Storage} {request : PitrRequest} {outcome : PitrOutcome}
    {target : RestoreTarget δ}
    (hrun : engine.runPitr server storage request = .ok (outcome, target)) :
    target.slices.map Prod.fst = [] ∨
      target.slices.map Prod.fst =
        engine.collectIncrements storage outcome.plan.baseId := by
  obtain ⟨-, -, hids, hplan | ⟨-, dropExisting, hreplay⟩⟩ := runPitr_eq_ok hrun
  · exact Or.inl (by rw [hplan.2]; rfl)
  · refine Or.inr ?_
    rw [replay_slices hreplay, hids]
    rfl

/-- The base found in the target is the planned one. -/
theorem runPitr_base {engine : DriverEngine} {server : PitrServer δ}
    {storage : Storage} {request : PitrRequest} {outcome : PitrOutcome}
    {target : RestoreTarget δ} {baseId : String} {dropped : Bool}
    (hrun : engine.runPitr server storage request = .ok (outcome, target))
    (hbase : target.base = some (baseId, dropped)) :
    outcome.plan.baseId = baseId := by
  obtain ⟨-, -, -, hplan | ⟨-, dropExisting, hreplay⟩⟩ := runPitr_eq_ok hrun
  · rw [hplan.2] at hbase
    cases hbase
  · rw [(replay_committedBy (by simp) hreplay).1] at hbase
    cases hbase
    rfl

theorem replayIncrement_willing {engine : DriverEngine} {micros : Int}
    {storage : Storage} {id : String} {m : BackupManifest}
    (hread : storage.read id = .ok m) (target : RestoreTarget δ) :
    ∃ next, engine.replayIncrement (PitrServer.willing engine micros) storage
      (some micros) target id = .ok next := by
  by_cases hempty : m.oplogCount = some 0
  · refine ⟨{ target with slices := target.slices ++ [(id, [])] }, ?_⟩
    simp only [replayIncrement, hread]
    exact if_pos hempty
  · refine ⟨{ target with slices := target.slices ++ [(id, [])] }, ?_⟩
    simp only [replayIncrement, hread]
    refine (if_neg hempty).trans ?_
    simp [PitrServer.willing, applyIncrement, applyChanges, bind, Except.bind]

/-- On a named base, with increments that can all be read, a run that meets no
refusal goes through every collected increment. -/
theorem runPitr_force_willing {engine : DriverEngine} {storage : Storage}
    {base : BackupManifest} {baseId : String} (micros : Int)
    (hread : storage.read baseId = .ok base)
    (hfull : isFullOf engine.fullFormat base = true)
    (hreadable : ∀ id ∈ engine.collectIncrements storage baseId,
      ∃ m, storage.read id = .ok m) :
    ∃ (outcome : PitrOutcome) (target : RestoreTarget δ),
      outcome.plan.baseId = baseId ∧
      target.slices.map Prod.fst = engine.collectIncrements storage baseId ∧
      engine.runPitr (PitrServer.willing engine micros) storage
        ⟨"", some baseId, true, false⟩ = .ok (outcome, target) := by
  have hstep : ∀ (state : RestoreTarget δ),
      ∀ id ∈ engine.collectIncrements storage baseId, ∃ next,
        engine.replayIncrement (PitrServer.willing engine micros) storage
          (some micros) state id = .ok next := by
    intro state id hid
    obtain ⟨m, hm⟩ := hreadable id hid
    exact replayIncrement_willing hm state
  obtain ⟨target, hreplay⟩ := foldlM_isOk ⟨some (baseId, true), []⟩ hstep
  refine ⟨⟨⟨baseId, engine.collectIncrements storage baseId, some micros, "",
      []⟩, (target.slices.flatMap Prod.snd).length,
    (replayedSlices storage (engine.collectIncrements storage baseId)).length⟩,
    target, rfl, replay_slices hreplay, ?_⟩
  have hchoose : engine.chooseBase storage (some baseId) = .ok baseId := by
    simp only [chooseBase, hread]
    exact if_pos hfull
  have hconnect : engine.connectTarget
      (PitrServer.willing (δ := δ) engine micros) false = .ok true := by
    cases engine <;> rfl
  simp only [runPitr, bind_eq_ok]
  refine ⟨some micros, rfl, baseId, hchoose, true, hconnect, ?_⟩
  rw [if_neg (by simp), bind_eq_ok]
  refine ⟨true, rfl, ?_⟩
  simp only [if_true, bind_eq_ok]
  exact ⟨base, hread, (), rfl, target, hreplay, rfl⟩

end DriverEngine

/-- A recovery goes through a prefix of the increments exactly when no intact
increment lies behind a damaged one. -/
theorem pitr_replaysPrefix_iff (δ : Type) (engine : DriverEngine)
    (catalog : Catalog) (base : BackupManifest)
    (damage : String → Option Damage)
    (hbase : base ∈ catalog.manifests)
    (hfull : isFullOf engine.fullFormat base = true)
    (hdamage : ∀ id, (damage id).isSome →
      id ∈ catalog.increments engine base.id) :
    ReplaysPrefix δ engine (catalog.damagedStorage damage) base.id
        (catalog.increments engine base.id) ↔
      ∀ before damaged after,
        catalog.increments engine base.id = before ++ damaged :: after →
          (damage damaged).isSome → ∀ id ∈ after, (damage id).isSome := by
  have hcollect : engine.collectIncrements (catalog.damagedStorage damage)
      base.id = (catalog.increments engine base.id).filter fun id =>
        (damage id).isNone := by
    refine Catalog.collectWhere_damagedStorage fun m hm => ?_
    simp only [isIncrementOf, decide_eq_true_eq] at hm
    exact hm.2.1
  have hintact : (damage base.id).isNone := by
    by_contra hdamaged
    obtain ⟨m, hm, hid⟩ := List.mem_map.mp
      (hdamage base.id (by simpa [Option.isSome_iff_ne_none] using hdamaged))
    obtain ⟨hmem, hincrement⟩ := List.mem_filter.mp hm
    rw [catalog.ascending.eq_of_pos_eq hmem hbase hid] at hincrement
    simp only [isIncrementOf, isFullOf, decide_eq_true_eq] at hincrement hfull
    rw [hincrement.1] at hfull
    cases hfull.1
  have hread : (catalog.damagedStorage damage).read base.id = .ok base :=
    Catalog.read_damagedStorage hbase hintact
  have hreadable : ∀ id ∈ engine.collectIncrements
      (catalog.damagedStorage damage) base.id,
      ∃ m, (catalog.damagedStorage damage).read id = .ok m := by
    rw [hcollect]
    intro id hid
    obtain ⟨hlisted, hnone⟩ := List.mem_filter.mp hid
    obtain ⟨m, hm, rfl⟩ := List.mem_map.mp hlisted
    exact ⟨m, Catalog.read_damagedStorage (List.mem_filter.mp hm).1 hnone⟩
  have hleading : (engine.collectIncrements (catalog.damagedStorage damage)
        base.id <+: catalog.increments engine base.id) ↔
      ∀ before damaged after,
        catalog.increments engine base.id = before ++ damaged :: after →
          (damage damaged).isSome → ∀ id ∈ after, (damage id).isSome := by
    rw [hcollect, filter_isPrefix_iff]
    simp
  rw [← hleading]
  constructor
  · intro hreplays
    obtain ⟨outcome, target, hchosen, hslices, hrun⟩ :=
      DriverEngine.runPitr_force_willing (δ := δ) 0 hread hfull hreadable
    rw [← hslices]
    exact hreplays _ _ outcome target hrun hchosen
  · intro hkept server request outcome target hrun hchosen
    rcases DriverEngine.runPitr_slices hrun with hnone | hall
    · rw [hnone]
      exact List.nil_prefix
    · rw [hall, hchosen]
      exact hkept

def driverIncrement (engine : DriverEngine) (id createdAt baseId : String) :
    BackupManifest :=
  { driverFull engine id createdAt with
    backupType := .incremental
    baseId := some baseId
    toolVersions := ⟨none, some engine.incrFormat⟩
    oplogCount := some 1 }

/-- A base with two increments. -/
def twoIncrements (engine : DriverEngine) : Catalog where
  manifests := [driverFull engine "b1" "10",
    driverIncrement engine "i1" "20" "b1",
    driverIncrement engine "i2" "30" "b1"]
  ascending := by cases engine <;> decide
  named := by cases engine <;> decide

theorem increments_twoIncrements (engine : DriverEngine) :
    (twoIncrements engine).increments engine "b1" = ["i1", "i2"] := by
  cases engine <;> decide

def damageOne (damaged : String) (id : String) : Option Damage :=
  if id = damaged then some .incomplete else none

theorem pitr_replaysPrefix_lastDamaged :
    ReplaysPrefix Unit .mysql
      ((twoIncrements .mysql).damagedStorage (damageOne "i2")) "b1"
      ((twoIncrements .mysql).increments .mysql "b1") := by
  refine (pitr_replaysPrefix_iff Unit .mysql (twoIncrements .mysql)
    (driverFull .mysql "b1" "10") (damageOne "i2") (by simp [twoIncrements])
    (by decide) ?_).mpr ?_
  · intro id hid
    have hdamaged : id = "i2" := by
      by_contra hne
      simp [damageOne, hne] at hid
    rw [hdamaged]
    decide
  · intro before damaged after hsplit hdamaged id hid
    have hlast : damaged = "i2" := by
      by_contra hne
      simp [damageOne, hne] at hdamaged
    subst hlast
    change ["i1", "i2"] = _ at hsplit
    cases before with
    | nil => simp at hsplit
    | cons first before =>
        cases before with
        | nil =>
            simp only [List.cons_append, List.nil_append, List.cons.injEq,
              true_and] at hsplit
            rw [← hsplit.2] at hid
            cases hid
        | cons => simp at hsplit

/-- With the first increment damaged the second one is replayed alone. -/
theorem runPitr_firstDamaged (engine : DriverEngine) :
    (engine.runPitr
      { PitrServer.willing engine 40 with
        sliceFrames := fun _ _ => .ok
          [.ok (.header (some engine.incrFormat)), .ok (.change ⟨30, ()⟩)] }
      ((twoIncrements engine).damagedStorage (damageOne "i1"))
      ⟨"latest", none, true, false⟩).map Prod.snd =
        .ok ⟨some ("b1", true), [("i2", [⟨30, ()⟩])]⟩ := by
  cases engine <;> decide

theorem not_replaysPrefix_firstDamaged (engine : DriverEngine) :
    ¬ ReplaysPrefix Unit engine
      ((twoIncrements engine).damagedStorage (damageOne "i1")) "b1"
      ((twoIncrements engine).increments engine "b1") := by
  intro hreplays
  have hrun := runPitr_firstDamaged engine
  rw [increments_twoIncrements] at hreplays
  generalize hresult : engine.runPitr _ _ _ = result at hrun
  cases result with
  | error err => cases hrun
  | ok result =>
      obtain ⟨outcome, target⟩ := result
      have htarget : target = ⟨some ("b1", true), [("i2", [⟨30, ()⟩])]⟩ := by
        simpa [Except.map] using hrun
      have hchosen := DriverEngine.runPitr_base hresult (by rw [htarget])
      have hskipped := hreplays _ _ outcome target hresult hchosen
      rw [htarget] at hskipped
      exact absurd hskipped (by decide)

theorem pitr_skipsDamagedIncrement :
    ¬ ReplaysPrefix Unit .mysql
        ((twoIncrements .mysql).damagedStorage (damageOne "i1")) "b1"
        ((twoIncrements .mysql).increments .mysql "b1") ∧
      ¬ ReplaysPrefix Unit .postgres
        ((twoIncrements .postgres).damagedStorage (damageOne "i1")) "b1"
        ((twoIncrements .postgres).increments .postgres "b1") :=
  ⟨not_replaysPrefix_firstDamaged .mysql,
    not_replaysPrefix_firstDamaged .postgres⟩

end XBackup
