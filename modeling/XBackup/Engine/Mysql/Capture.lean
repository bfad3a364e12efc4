/-
The capture of a MySQL increment: row events are kept until their transaction
commits, and the position behind the last commit is where the next capture
starts.  What the driver decodes is taken as it yields it.
-/
import XBackup.Engine.DbKind
import XBackup.Engine.Mongo.Bson
import XBackup.Foundation.Sections

namespace XBackup

namespace Mysql

open Sections

inductive Op where
  | insert
  | update
  | delete
deriving DecidableEq, Repr

/-- A change of one row; the values are SQL literals in column order. -/
structure Change where
  op : Op
  db : String
  table : String
  before : List String
  after : List String
  commitUnixMicros : Int64
deriving DecidableEq, Repr

structure EventHeader where
  timestamp : UInt32
  logPos : UInt32
deriving DecidableEq, Repr

inductive RowsEventKind where
  | writeRows
  | updateRows
  | deleteRows
  | partialUpdateRows
deriving DecidableEq, Repr

structure TableMap (ColumnType : Type) where
  databaseName : String
  tableName : String
  columnTypes : List (Option ColumnType)

/-- A rows event with the table map its id finds in the stream, and its rows,
each with the images before and after. -/
structure RowsEvent (Image ColumnType : Type) where
  kind : RowsEventKind
  tableMap : Option (TableMap ColumnType)
  rows : List (Except String (Option Image × Option Image))

inductive EventData (Image ColumnType : Type) where
  | rotate (name : String)
  | gtid (immediateCommitTimestamp : UInt64)
  | rows (event : RowsEvent Image ColumnType)
  | xid
  | other

/-- An event; its data may be unknown to the driver or damaged. -/
structure Event (Image ColumnType : Type) where
  header : EventHeader
  data : Except String (Option (EventData Image ColumnType))

def MAX_CHANGES_PER_CAPTURE : Nat := 200000

/-- The frames of an archive. -/
inductive Frame where
  | header (doc : Document)
  | change (doc : Document)
  | end_

def Op.tag : Op → String
  | .insert => "I"
  | .update => "U"
  | .delete => "D"

def changeToDoc (change : Change) : Document :=
  let strs := fun values : List String =>
    Bson.array (values.map fun value => .scalar (.string value))
  [("op", .scalar (.string change.op.tag)),
    ("db", .scalar (.string change.db)),
    ("table", .scalar (.string change.table)),
    ("before", strs change.before),
    ("after", strs change.after),
    ("ts", .scalar (.int64 change.commitUnixMicros))]

/-- What a capture knows besides the stream: the database it is for, all of
them if that is empty, and how an image is rendered. -/
structure CaptureEnv (Image ColumnType : Type) where
  sourceDb : String
  renderRow : List (Option ColumnType) → Image →
    Except XBackupError (List String)

/-- The variables of the capture loop.  What it wrote is kept by commit. -/
structure CaptureState where
  curFile : String
  boundaryFile : String
  boundaryPos : Nat
  txBuf : List Change
  curCommitMicros : Int64
  flushed : List (List Change)
  count : Nat
  morePending : Bool
deriving DecidableEq, Repr

def CaptureState.start (start : MysqlBinlogCoords) : CaptureState where
  curFile := start.file
  boundaryFile := start.file
  boundaryPos := start.position
  txBuf := []
  curCommitMicros := 0
  flushed := []
  count := 0
  morePending := false

structure CaptureOutcome where
  archive : List Frame
  end_ : MysqlBinlogCoords
  count : Nat
  morePending : Bool

def CaptureState.outcome (createdAt : String) (st : CaptureState) :
    CaptureOutcome where
  archive :=
    .header [("format", .scalar (.string MYSQL_INCR_FORMAT_ID)),
        ("created_at", .scalar (.string createdAt))] ::
      st.flushed.flatten.map (fun change => .change (changeToDoc change)) ++
        [.end_]
  end_ := ⟨st.boundaryFile, st.boundaryPos, ""⟩
  count := st.count
  morePending := st.morePending

def RowsEventKind.op : RowsEventKind → Option Op
  | .writeRows => some .insert
  | .updateRows => some .update
  | .deleteRows => some .delete
  | .partialUpdateRows => none

/-- The commit time of the GTID event, else the second of the event itself. -/
def commitMicros (curCommitMicros : Int64) (header : EventHeader) : Int64 :=
  if 0 < curCommitMicros then curCommitMicros
  else header.timestamp.toUInt64.toInt64 * 1000000

section Loop

variable {Image ColumnType : Type} (env : CaptureEnv Image ColumnType)
  (limit : Nat)

def renderBinlogRow (columnTypes : List (Option ColumnType)) :
    Option Image → Except XBackupError (List String)
  | none => .ok []
  | some image => env.renderRow columnTypes image

def rowChange (micros : Int64) (op : Op) (tme : TableMap ColumnType) :
    Except String (Option Image × Option Image) → Except XBackupError Change
  | .error e => .error (.failure ("failed to decode a binlog row: " ++ e))
  | .ok (before, after) => do
      let before ← renderBinlogRow env tme.columnTypes before
      let after ← renderBinlogRow env tme.columnTypes after
      return ⟨op, tme.databaseName, tme.tableName, before, after, micros⟩

/-- The changes of a rows event; none of a kind or a table that is passed
over. -/
def rowsChanges (micros : Int64) (event : RowsEvent Image ColumnType) :
    Except XBackupError (List Change) :=
  match event.kind.op, event.tableMap with
  | none, _ => .ok []
  | some _, none => .ok []
  | some op, some tme =>
      if env.sourceDb ≠ "" ∧ tme.databaseName ≠ env.sourceDb then .ok []
      else event.rows.mapM (rowChange env micros op tme)

def captureEvent (st : CaptureState) (header : EventHeader) :
    EventData Image ColumnType → Except XBackupError CaptureState
  | .rotate name => .ok { st with curFile := name }
  | .gtid timestamp => .ok { st with curCommitMicros := timestamp.toInt64 }
  | .rows event =>
      (rowsChanges env (commitMicros st.curCommitMicros header) event).map
        fun changes => { st with txBuf := st.txBuf ++ changes }
  | .xid =>
      let count := st.count + st.txBuf.length
      .ok
        { curFile := st.curFile
          boundaryFile := st.curFile
          boundaryPos := header.logPos.toNat
          txBuf := []
          curCommitMicros := 0
          flushed := st.flushed ++ [st.txBuf]
          count := count
          -- only here: never inside of a transaction
          morePending := limit ≤ count }
  | .other => .ok st

def captureLoop (st : CaptureState) :
    List (Except String (Event Image ColumnType)) →
      Except XBackupError CaptureState
  | [] => .ok st
  | .error e :: _ => .error (.failure ("failed to read a binlog event: " ++ e))
  | .ok event :: rest =>
      match event.data with
      | .error e => .error (.failure ("failed to decode a binlog event: " ++ e))
      | .ok none => captureLoop st rest
      | .ok (some data) =>
          match captureEvent env limit st event.header data with
          | .error err => .error err
          | .ok next => if next.morePending then .ok next
              else captureLoop next rest

/-- A capture of what the stream yields behind `start`. -/
def captureRun (start : MysqlBinlogCoords)
    (stream : List (Except String (Event Image ColumnType))) :
    Except XBackupError CaptureState :=
  captureLoop env MAX_CHANGES_PER_CAPTURE (.start start) stream

def capture (createdAt : String) (start : MysqlBinlogCoords)
    (stream : List (Except String (Event Image ColumnType))) :
    Except XBackupError CaptureOutcome :=
  (captureRun env start stream).map (CaptureState.outcome createdAt)

end Loop

/-- An event the loop looks into. -/
abbrev Decoded (Image ColumnType : Type) :=
  EventHeader × EventData Image ColumnType

section Spec

variable {Image ColumnType : Type}

def decoded : Except String (Event Image ColumnType) →
    Option (Decoded Image ColumnType)
  | .ok ⟨_, .ok (some .other)⟩ => none
  | .ok ⟨header, .ok (some data)⟩ => some (header, data)
  | _ => none

theorem decoded_ok {header : EventHeader} {data : EventData Image ColumnType}
    (hdata : data ≠ .other) :
    decoded (.ok ⟨header, .ok (some data)⟩) = some (header, data) := by
  cases data with
  | other => exact absurd rfl hdata
  | rotate name => rfl
  | gtid timestamp => rfl
  | rows event => rfl
  | xid => rfl

def isXid : Decoded Image ColumnType → Bool
  | (_, .xid) => true
  | _ => false

theorem isXid_iff {header : EventHeader} {data : EventData Image ColumnType} :
    isXid (header, data) = true ↔ data = .xid := by
  cases data <;> simp [isXid]

def fileBehind (file : String) : Decoded Image ColumnType → String
  | (_, .rotate name) => name
  | _ => file

def micros (held : Int64) : Decoded Image ColumnType → Int64
  | (_, .gtid timestamp) => timestamp.toInt64
  | _ => held

/-- The changes of events of one transaction, each with its commit time: that
of the GTID event before it, else its own. -/
def txChanges (env : CaptureEnv Image ColumnType) (held : Int64) :
    List (Decoded Image ColumnType) → List Change
  | [] => []
  | (header, .rows event) :: rest =>
      (rowsChanges env (commitMicros held header) event).toOption.getD [] ++
        txChanges env held rest
  | item :: rest => txChanges env (micros held item) rest

/-- The changes of a stream by transaction, as far as one capture takes
them. -/
def transactions (env : CaptureEnv Image ColumnType) (limit : Nat)
    (stream : List (Except String (Event Image ColumnType))) :
    List (List Change) :=
  fill limit 0 ((sections isXid (stream.filterMap decoded)).1.map
    (txChanges env 0))

variable {env : CaptureEnv Image ColumnType} {limit : Nat}
  {start : MysqlBinlogCoords} {st next last : CaptureState}
  {done opened : List (Decoded Image ColumnType)}

theorem txChanges_append (held : Int64)
    (front rest : List (Decoded Image ColumnType)) :
    txChanges env held (front ++ rest) =
      txChanges env held front ++
        txChanges env (front.foldl micros held) rest := by
  induction front generalizing held with
  | nil => rfl
  | cons item front ih =>
      obtain ⟨header, data⟩ := item
      cases data with
      | rows event =>
          rw [List.cons_append, txChanges, txChanges, ih, List.append_assoc]
          rfl
      | rotate name => exact ih _
      | gtid timestamp => exact ih _
      | xid => exact ih _
      | other => exact ih _

/-- What an event other than a commit does. -/
theorem captureEvent_other {header : EventHeader}
    {data : EventData Image ColumnType}
    (hdata : ¬ isXid (header, data) = true)
    (hevent : captureEvent env limit st header data = .ok next) :
    next =
      { st with
        curFile := fileBehind st.curFile (header, data)
        curCommitMicros := micros st.curCommitMicros (header, data)
        txBuf := st.txBuf ++
          txChanges env st.curCommitMicros [(header, data)] } := by
  cases data with
  | xid => exact absurd rfl hdata
  | rotate name =>
      cases hevent
      simp [fileBehind, micros, txChanges]
  | gtid timestamp =>
      cases hevent
      simp [fileBehind, micros, txChanges]
  | rows event =>
      simp only [captureEvent, Except.map] at hevent
      split at hevent
      next => cases hevent
      next changes hchanges =>
        cases hevent
        simp [fileBehind, micros, txChanges, hchanges, Except.toOption]
  | other =>
      cases hevent
      simp [fileBehind, micros, txChanges]

/-- The loop behind the events `done ++ opened`, of which `done` ends with the
last commit. -/
structure CaptureInv (env : CaptureEnv Image ColumnType) (limit : Nat)
    (start : MysqlBinlogCoords) (done opened : List (Decoded Image ColumnType))
    (st : CaptureState) : Prop where
  curFile : st.curFile = (done ++ opened).foldl fileBehind start.file
  boundary : done = [] ∧ st.boundaryFile = start.file ∧
      st.boundaryPos = start.position ∨
    ∃ front header, done = front ++ [(header, .xid)] ∧
      st.boundaryFile = front.foldl fileBehind start.file ∧
      st.boundaryPos = header.logPos.toNat
  uncommitted : ∀ item ∈ opened, ¬ isXid item = true
  txBuf : st.txBuf = txChanges env 0 opened
  curCommitMicros : st.curCommitMicros = opened.foldl micros 0
  flushed : st.flushed = (sections isXid done).1.map (txChanges env 0)
  count : st.count = st.flushed.flatten.length
  fill : ∀ more, fill limit 0 (st.flushed ++ more) =
    st.flushed ++ if st.morePending then [] else fill limit st.count more

namespace CaptureInv

theorem start_ : CaptureInv env limit start [] [] (.start start) where
  curFile := rfl
  boundary := Or.inl ⟨rfl, rfl, rfl⟩
  uncommitted := by simp
  txBuf := rfl
  curCommitMicros := rfl
  flushed := rfl
  count := rfl
  fill more := rfl

/-- A commit stands at the end of `done`. -/
theorem closed (hinv : CaptureInv env limit start done opened st) :
    (sections isXid done).2 = [] := by
  rcases hinv.boundary with ⟨rfl, -⟩ | ⟨front, header, rfl, -⟩
  · rfl
  · rw [sections_closing rfl]

theorem xid {header : EventHeader}
    (hinv : CaptureInv env limit start done opened st)
    (hpending : st.morePending = false)
    (hevent : captureEvent env limit st header .xid = .ok next) :
    CaptureInv env limit start (done ++ opened ++ [(header, .xid)]) []
      next := by
  cases hevent
  have hsections : sections isXid (done ++ opened ++ [(header, .xid)]) =
      ((sections isXid done).1 ++ [opened], []) := by
    rw [sections_closing rfl, sections_append hinv.closed,
      sections_open hinv.uncommitted, List.append_nil]
  exact
    { curFile := by
        rw [List.append_nil, List.foldl_concat]
        exact hinv.curFile
      boundary := Or.inr ⟨done ++ opened, header, rfl, hinv.curFile, rfl⟩
      uncommitted := by simp
      txBuf := rfl
      curCommitMicros := rfl
      flushed := by
        rw [hsections, List.map_append, ← hinv.flushed, hinv.txBuf]
        rfl
      count := by
        rw [hinv.count, List.flatten_append, List.length_append]
        simp
      fill := fun more => by
        rw [List.append_assoc, hinv.fill, hpending]
        simp [fill_cons] }

theorem other {header : EventHeader} {data : EventData Image ColumnType}
    (hinv : CaptureInv env limit start done opened st)
    (hdata : ¬ isXid (header, data) = true)
    (hevent : captureEvent env limit st header data = .ok next) :
    next.morePending = st.morePending ∧
      CaptureInv env limit start done (opened ++ [(header, data)]) next := by
  cases captureEvent_other hdata hevent
  exact ⟨rfl,
    { hinv with
      curFile := by
        rw [← List.append_assoc, List.foldl_concat, ← hinv.curFile]
      uncommitted := by
        intro item hitem
        rcases List.mem_append.mp hitem with hold | hnew
        · exact hinv.uncommitted item hold
        · rwa [List.mem_singleton.mp hnew]
      txBuf := by
        rw [txChanges_append, ← hinv.txBuf, ← hinv.curCommitMicros]
      curCommitMicros := by
        rw [List.foldl_concat, ← hinv.curCommitMicros] }⟩

end CaptureInv

/-- The loop stops at the end of the stream or behind a commit. -/
theorem captureLoop_inv {stream : List (Except String (Event Image ColumnType))}
    (hinv : CaptureInv env limit start done opened st)
    (hpending : st.morePending = false)
    (hloop : captureLoop env limit st stream = .ok last) :
    ∃ done' opened' rest,
      done ++ opened ++ stream.filterMap decoded = done' ++ opened' ++ rest ∧
      CaptureInv env limit start done' opened' last ∧
      (last.morePending = false ∧ rest = [] ∨
        last.morePending = true ∧ opened' = []) := by
  induction stream generalizing st done opened with
  | nil =>
      cases hloop
      exact ⟨done, opened, [], by simp, hinv, Or.inl ⟨hpending, rfl⟩⟩
  | cons item stream ih =>
      cases item with
      | error e => cases hloop
      | ok event =>
          obtain ⟨header, data⟩ := event
          cases data with
          | error e => cases hloop
          | ok data =>
              cases data with
              | none => exact ih hinv hpending hloop
              | some data =>
                  simp only [captureLoop] at hloop
                  split at hloop
                  next => cases hloop
                  next next hnext =>
                    by_cases hignored : data = .other
                    · subst hignored
                      cases hnext
                      rw [hpending] at hloop
                      exact ih hinv hpending hloop
                    have hstream : done ++ opened ++
                        (Except.ok ⟨header, .ok (some data)⟩ ::
                          stream).filterMap decoded =
                        done ++ opened ++ [(header, data)] ++
                          stream.filterMap decoded := by
                      simp [decoded_ok hignored]
                    rw [hstream]
                    by_cases hdata : isXid (header, data) = true
                    · cases isXid_iff.mp hdata
                      have hxid := hinv.xid hpending hnext
                      split at hloop
                      next hmore =>
                        cases hloop
                        exact ⟨_, [], stream.filterMap decoded, by simp, hxid,
                          Or.inr ⟨hmore, rfl⟩⟩
                      next hmore =>
                        have hrest := ih hxid (by simpa using hmore) hloop
                        rwa [List.append_nil] at hrest
                    · obtain ⟨hkept, hother⟩ := hinv.other hdata hnext
                      have hmore : next.morePending = false :=
                        hkept.trans hpending
                      rw [hmore] at hloop
                      have hrest := ih hother hmore hloop
                      rwa [← List.append_assoc] at hrest

/-- What a capture keeps: the transactions of the stream. -/
theorem captureRun_flushed
    {stream : List (Except String (Event Image ColumnType))}
    (hrun : captureRun env start stream = .ok last) :
    last.flushed = transactions env MAX_CHANGES_PER_CAPTURE stream := by
  obtain ⟨done, opened, rest, hstream, hinv, hend⟩ :=
    captureLoop_inv CaptureInv.start_ rfl hrun
  have hclosed : (sections isXid (stream.filterMap decoded)).1 =
      (sections isXid done).1 ++ (sections isXid (opened ++ rest)).1 := by
    rw [show stream.filterMap decoded = done ++ (opened ++ rest) by
        simpa using hstream, sections_append hinv.closed]
  rw [transactions, hclosed, List.map_append, ← hinv.flushed, hinv.fill]
  rcases hend with ⟨hmore, rfl⟩ | ⟨hmore, rfl⟩
  · rw [List.append_nil, sections_open hinv.uncommitted, hmore]
    simp [fill]
  · rw [hmore, if_pos rfl, List.append_nil]

end Spec

end Mysql

end XBackup
