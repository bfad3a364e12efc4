/-
The increments of a MySQL full backup, captured one behind the other while the
binlog grows.  Together they hold the transactions behind the base, each once
and in its place.
-/
import XBackup.Engine.Mysql.Apply
import XBackup.Engine.Mysql.Binlog
import XBackup.Pipeline.MongoHistory
import XBackup.Pipeline.SharedStore

namespace XBackup

namespace Mysql

/-- The changes of an archive, in their order. -/
def changesIn (archive : List Frame) : List Change :=
  archive.filterMap fun frame =>
    match frame.read with
    | .ok (.change change) => some change
    | _ => none

section History

variable {Image ColumnType : Type}

/-- A binlog that `base` divides, with the transactions `passed` before it. -/
structure Divided (env : CaptureEnv Image ColumnType)
    (render : List (Option ColumnType) → Image → List String)
    (base : MysqlBinlogCoords) (passed : List (Located Image ColumnType))
    (binlog : Binlog Image ColumnType) : Prop where
  wellFormed : binlog.WellFormed
  renders : binlog.Renders env render
  boundary : ∃ rest, binlog.Boundary base.file base.position passed rest

/-- The histories of a chain: the binlog as it stands, the catalog, and what
was captured so far.  What is committed stays in the binlog. -/
inductive MysqlHistory (env : CaptureEnv Image ColumnType)
    (render : List (Option ColumnType) → Image → List String)
    (baseId : String) (base : MysqlBinlogCoords)
    (passed : List (Located Image ColumnType)) (catalog : Catalog) :
    Binlog Image ColumnType → Catalog → List Change → Prop where
  | full {binlog : Binlog Image ColumnType}
      (hdivided : Divided env render base passed binlog) :
      MysqlHistory env render baseId base passed catalog binlog catalog []
  | grow {binlog grown : Binlog Image ColumnType} {current : Catalog}
      {changes : List Change}
      (history : MysqlHistory env render baseId base passed catalog binlog
        current changes)
      (hgrows : binlog.log <+: grown.log)
      (hdivided : Divided env render base passed grown) :
      MysqlHistory env render baseId base passed catalog grown current changes
  | increment {binlog : Binlog Image ColumnType} {current next : Catalog}
      {changes : List Change} {start : MysqlBinlogCoords}
      {outcome : CaptureOutcome} (id createdAt : String)
      {stream : List (Except String (Event Image ColumnType))}
      (history : MysqlHistory env render baseId base passed catalog binlog
        current changes)
      (hstart : chainStartCoords current.toStorage baseId = .ok start)
      (hdumps : binlog.Dumps start.file start.position stream)
      (hcapture : capture env createdAt start stream = .ok outcome)
      (hrecord : current.tryRecord (mysqlIncrementalManifest id createdAt baseId
        outcome.count outcome.end_) = some next) :
      MysqlHistory env render baseId base passed catalog binlog next
        (changes ++ changesIn outcome.archive)

theorem changesIn_outcome (last : CaptureState) (createdAt : String) :
    changesIn (last.outcome createdAt).archive = last.flushed.flatten := by
  rw [changesIn, CaptureState.outcome, List.cons_append,
    List.filterMap_cons_none rfl, List.filterMap_append, List.filterMap_map]
  have hread : ∀ change : Change,
      ((fun frame : Frame =>
          match frame.read with
          | .ok (.change change) => some change
          | _ => none) ∘ fun change => Frame.change (changeToDoc change))
        change = some change := by
    intro change
    simp [Frame.read, docToChange_changeToDoc, Except.map]
  rw [List.filterMap_congr fun change _ => hread change, List.filterMap_some]
  simp [Frame.read]

/-- A recorded increment is where the next one starts. -/
theorem chainStartCoords_tryRecord {catalog next : Catalog} {baseId : String}
    {m : BackupManifest} {coords : MysqlBinlogCoords}
    (hincrement : isIncrementOf MYSQL_INCR_FORMAT_ID baseId m = true)
    (hcoords : m.mysqlBinlog = some coords)
    (hrecord : catalog.tryRecord m = some next) :
    chainStartCoords next.toStorage baseId = .ok coords := by
  obtain ⟨hnext, -⟩ := Catalog.tryRecord_eq_some hrecord
  have hread : next.toStorage.read m.id = .ok m :=
    Catalog.read_toStorage.mpr ⟨by simp [hnext], rfl⟩
  have hlast : (collectMysqlIncrements next.toStorage baseId).reverse =
      m.id :: (collectMysqlIncrements catalog.toStorage baseId).reverse := by
    simp only [collectMysqlIncrements, DriverEngine.collectIncrements]
    rw [Catalog.collectWhere_toStorage, Catalog.collectWhere_toStorage, hnext,
      List.filter_append, List.filter_singleton]
    simp [DriverEngine.incrFormat, hincrement]
  rw [chainStartCoords, hlast]
  simp [hread, hcoords]

/-- What the captures of a history took: `taken`, the transactions behind the
base up to the coordinates where the next capture starts. -/
structure Partitioned (env : CaptureEnv Image ColumnType)
    (render : List (Option ColumnType) → Image → List String)
    (baseId : String) (base : MysqlBinlogCoords)
    (passed taken left : List (Located Image ColumnType))
    (binlog : Binlog Image ColumnType) (current : Catalog)
    (changes : List Change) (coords : MysqlBinlogCoords) : Prop where
  log : binlog.log = passed ++ taken ++ left
  captured : changes =
    taken.flatMap fun item => item.2.changes env.sourceDb render
  start : chainStartCoords current.toStorage baseId = .ok coords
  reached : (coords.file, coords.position) =
    endOf (base.file, base.position) taken

variable {env : CaptureEnv Image ColumnType}
  {render : List (Option ColumnType) → Image → List String} {baseId : String}
  {base coords : MysqlBinlogCoords}
  {passed taken left : List (Located Image ColumnType)} {catalog : Catalog}
  {binlog : Binlog Image ColumnType} {current : Catalog}
  {changes : List Change}

/-- The coordinates are a boundary of the binlog. -/
theorem Partitioned.boundary
    (hparts : Partitioned env render baseId base passed taken left binlog
      current changes coords)
    (hdivided : Divided env render base passed binlog) :
    binlog.Boundary coords.file coords.position (passed ++ taken) left := by
  have hreached := hparts.reached
  have hlog := hparts.log
  induction taken using List.reverseRecOn with
  | nil =>
      obtain ⟨rest, hboundary⟩ := hdivided.boundary
      have hrest : rest = left := by
        rw [log_of_boundary hboundary, List.append_assoc] at hlog
        exact List.append_cancel_left hlog
      obtain ⟨hfile, hposition⟩ := Prod.mk.inj hreached
      rw [hfile, hposition, List.append_nil, ← hrest]
      exact hboundary
  | append_singleton front item _ =>
      obtain ⟨file, tx⟩ := item
      rw [endOf_concat] at hreached
      obtain ⟨hfile, hposition⟩ := Prod.mk.inj hreached
      rw [hfile, hposition, ← List.append_assoc]
      apply boundary_of_log hdivided.wellFormed
      rw [hlog]
      simp

/-- A capture takes the next transactions. -/
theorem Partitioned.capture
    (hparts : Partitioned env render baseId base passed taken left binlog
      current changes coords)
    (hdivided : Divided env render base passed binlog) (createdAt : String)
    {stream : List (Except String (Event Image ColumnType))}
    (hdumps : binlog.Dumps coords.file coords.position stream) :
    ∃ outcome more rest,
      capture env createdAt coords stream = .ok outcome ∧
      left = more ++ rest ∧
      changesIn outcome.archive =
        more.flatMap (fun item => item.2.changes env.sourceDb render) ∧
      (outcome.end_.file, outcome.end_.position) =
        endOf (base.file, base.position) (taken ++ more) ∧
      (outcome.morePending = false → rest = []) := by
  obtain ⟨last, more, rest, hrun, hleft, hflushed, hend, hdone⟩ :=
    captureRun_dump hdivided.wellFormed (hparts.boundary hdivided) hdumps
      hdivided.renders
  refine ⟨last.outcome createdAt, more, rest, ?_, hleft, ?_, ?_, hdone⟩
  · rw [Mysql.capture, hrun]
    rfl
  · rw [changesIn_outcome, hflushed, List.flatMap_def]
  · rw [endOf_append, ← hparts.reached]
    exact hend

theorem MysqlHistory.partitioned
    (hbase : chainStartCoords catalog.toStorage baseId = .ok base)
    (history : MysqlHistory env render baseId base passed catalog binlog
      current changes) :
    Divided env render base passed binlog ∧ ∃ taken left coords,
      Partitioned env render baseId base passed taken left binlog current
        changes coords := by
  induction history with
  | full hdivided =>
      obtain ⟨rest, hboundary⟩ := hdivided.boundary
      exact ⟨hdivided, [], rest, base,
        { log := by rw [log_of_boundary hboundary, List.append_nil]
          captured := rfl
          start := hbase
          reached := rfl }⟩
  | grow history hgrows hdivided ih =>
      obtain ⟨-, taken, left, coords, hparts⟩ := ih
      obtain ⟨more, hmore⟩ := hgrows
      exact ⟨hdivided, taken, left ++ more, coords,
        { hparts with
          log := by rw [← hmore, hparts.log, List.append_assoc] }⟩
  | @increment _ _ _ _ _ outcome id createdAt _ history hstart hdumps hcapture
      hrecord ih =>
      obtain ⟨hdivided, taken, left, coords, hparts⟩ := ih
      have hsame := hparts.start
      rw [hstart] at hsame
      cases hsame
      obtain ⟨captured, more, rest, hcaptured, rfl, hchanges, hend, -⟩ :=
        hparts.capture hdivided createdAt hdumps
      rw [hcapture] at hcaptured
      obtain rfl := Except.ok.inj hcaptured
      have hincrement : isIncrementOf MYSQL_INCR_FORMAT_ID baseId
          (mysqlIncrementalManifest id createdAt baseId outcome.count
            outcome.end_) = true := by
        simp [isIncrementOf, mysqlIncrementalManifest]
      exact ⟨hdivided, taken ++ more, rest, outcome.end_,
        { log := by
            rw [hparts.log, ← List.append_assoc, ← List.append_assoc]
          captured := by
            rw [hparts.captured, hchanges, List.flatMap_append]
          start := chainStartCoords_tryRecord hincrement rfl hrecord
          reached := hend }⟩

/-- However often the binlog of a base was captured while it grew, the captured
changes are those of the transactions behind the base up to the coordinates
where the next capture starts, each once and in its place.  These coordinates
lie behind the last of the transactions, and a capture from them on succeeds. -/
theorem mysqlHistory_partitions
    (hbase : chainStartCoords catalog.toStorage baseId = .ok base)
    (history : MysqlHistory env render baseId base passed catalog binlog
      current changes) :
    ∃ taken left coords,
      Partitioned env render baseId base passed taken left binlog current
        changes coords ∧
      binlog.Boundary coords.file coords.position (passed ++ taken) left ∧
      ∀ createdAt stream,
        binlog.Dumps coords.file coords.position stream →
          ∃ outcome, capture env createdAt coords stream = .ok outcome ∧
            (outcome.morePending = false → changesIn outcome.archive =
              left.flatMap fun item =>
                item.2.changes env.sourceDb render) := by
  obtain ⟨hdivided, taken, left, coords, hparts⟩ := history.partitioned hbase
  refine ⟨taken, left, coords, hparts, hparts.boundary hdivided, ?_⟩
  intro createdAt stream hdumps
  obtain ⟨outcome, more, rest, hcapture, rfl, hchanges, -, hdone⟩ :=
    hparts.capture hdivided createdAt hdumps
  refine ⟨outcome, hcapture, ?_⟩
  intro hmore
  rw [hchanges, hdone hmore, List.append_nil]

/-- Rows of one insert. -/
def insertRow (seconds logPos : UInt32) (id : String) :
    TableRows (List String) Unit :=
  ⟨⟨seconds, logPos⟩, .insert, ⟨"app", "t", [none]⟩, [(none, some [id])]⟩

def insertTransaction : Transaction (List String) Unit :=
  ⟨⟨none, [insertRow 10 200 "1"]⟩, ⟨10, 300⟩⟩

/-- A transaction, and the beginning of another. -/
def shortBinlog : Binlog (List String) Unit :=
  ⟨[⟨"bin.1", [insertTransaction]⟩], ⟨none, [insertRow 20 400 "2"]⟩⟩

def shortDump : List (Except String (Event (List String) Unit)) :=
  .ok ⟨⟨0, 0⟩, .ok (some (.rotate "bin.1"))⟩ ::
    (insertTransaction.events ++ shortBinlog.opened.events).map
      fun (header, data) => .ok ⟨header, .ok (some data)⟩

def shortBase : MysqlBinlogCoords := ⟨"bin.1", 150, ""⟩

def shortCatalog : Catalog where
  manifests := [mysqlFullManifest "b1" "10" false (some shortBase) false]
  ascending := List.pairwise_singleton _ _
  named := by decide

def shortCapture : CaptureState where
  curFile := "bin.1"
  boundaryFile := "bin.1"
  boundaryPos := 300
  txBuf := [⟨.insert, "app", "t", [], ["2"], 20000000⟩]
  curCommitMicros := 0
  flushed := [[⟨.insert, "app", "t", [], ["1"], 10000000⟩]]
  count := 1
  morePending := false

theorem divided_shortBinlog :
    Divided plainEnv (fun _ image => image) shortBase [] shortBinlog where
  wellFormed :=
    { names := by decide
      ascending := by
        intro file hfile
        rw [List.mem_singleton.mp hfile]
        decide }
  renders := by
    have hrenders : ∀ tx : Unfinished (List String) Unit,
        tx.Renders plainEnv fun _ image => image :=
      fun _ _ _ _ _ _ _ => rfl
    exact ⟨hrenders _, fun item _ => hrenders _⟩
  boundary :=
    ⟨_, [], [], [insertTransaction], [], rfl, rfl, rfl, by simp, by decide⟩

theorem dumps_shortBinlog : shortBinlog.Dumps "bin.1" 150 shortDump := by
  constructor
  · intro item hitem
    rcases List.mem_cons.mp hitem with rfl | hsent
    · exact ⟨_, _, rfl⟩
    · obtain ⟨⟨header, data⟩, -, rfl⟩ := List.mem_map.mp hsent
      exact ⟨_, _, rfl⟩
  · refine ⟨(⟨0, 0⟩, .rotate "bin.1") :: insertTransaction.events, ?_, rfl⟩
    exact ⟨[(⟨0, 0⟩, .rotate "bin.1")], [], rfl, by simp, by simp, rfl⟩

theorem mysqlHistory_partitions_short :
    ∃ next taken left coords,
      shortCatalog.tryRecord (mysqlIncrementalManifest "b2" "20" "b1" 1
        ⟨"bin.1", 300, ""⟩) = some next ∧
      Partitioned plainEnv (fun _ image => image) "b1" shortBase [] taken left
        shortBinlog next
        [⟨.insert, "app", "t", [], ["1"], 10000000⟩] coords := by
  have hbase : chainStartCoords shortCatalog.toStorage "b1" =
      .ok shortBase := by
    decide
  have hcapture : capture plainEnv "20" shortBase shortDump =
      .ok (shortCapture.outcome "20") := rfl
  have hfresh : shortCatalog.Fresh "b2" := by decide
  have hrecord : shortCatalog.tryRecord (mysqlIncrementalManifest "b2" "20" "b1"
      1 ⟨"bin.1", 300, ""⟩) = some (shortCatalog.record _ hfresh) :=
    dif_pos hfresh
  obtain ⟨taken, left, coords, hparts, -, -⟩ :=
    mysqlHistory_partitions hbase
      (.increment "b2" "20" (.full divided_shortBinlog) hbase dumps_shortBinlog
        hcapture hrecord)
  exact ⟨_, taken, left, coords, hrecord, hparts⟩

end History

end Mysql

end XBackup
