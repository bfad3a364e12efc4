/-
The replay of a MySQL increment: the changes up to a commit time become
statements, and each of them is executed on its own.
-/
import XBackup.Engine.Mysql.Capture
import XBackup.Foundation.Groups
import XBackup.Foundation.MemoTable

namespace XBackup

namespace Mysql

open Groups MemoTable

structure ColInfo where
  name : String
  /-- Stored generated: part of an image, but not to be written. -/
  generated : Bool
  isPk : Bool
deriving DecidableEq, Repr

inductive IncrFrame where
  | header (doc : Document)
  | change (change : Change)
  | end_

def IncrFrame.describe : IncrFrame → String
  | .header _ => "Header"
  | .change _ => "Change"
  | .end_ => "End"

def asStr : Bson → Option String
  | .scalar (.string value) => some value
  | _ => none

def docToChange (doc : Document) : Except XBackupError Change :=
  let strs := fun key : String =>
    ((doc.getArray key).getD []).filterMap asStr
  let change := fun op : Op =>
    { op := op
      db := (doc.getStr "db").getD ""
      table := (doc.getStr "table").getD ""
      before := strs "before"
      after := strs "after"
      commitUnixMicros := (doc.getI64 "ts").getD 0 : Change }
  match (doc.getStr "op").getD "" with
  | "I" => .ok (change .insert)
  | "U" => .ok (change .update)
  | "D" => .ok (change .delete)
  | other => .error (.failure ("corrupt incremental op: '" ++ other ++ "'"))

def Frame.read : Frame → Except XBackupError IncrFrame
  | .header doc => .ok (.header doc)
  | .change doc => (docToChange doc).map .change
  | .end_ => .ok .end_

def quoteIdent (name : String) : String :=
  "`" ++ String.ofList (name.toList.flatMap fun c =>
    if c = Char.ofNat 96 then [c, c] else [c]) ++ "`"

def eqPredicate (col literal : String) : String :=
  if literal = "NULL" then col ++ " IS NULL" else col ++ " = " ++ literal

def hasPk (cols : List ColInfo) : Bool :=
  cols.any ColInfo.isPk

/-- The key columns of the image before, else all that are not generated. -/
def whereClause (change : Change) (cols : List ColInfo) : String :=
  let cells := cols.zip change.before
  let matched :=
    if hasPk cols then cells.filter fun cell => cell.1.isPk
    else cells.filter fun cell => !cell.1.generated
  " AND ".intercalate
    (matched.map fun cell => eqPredicate (quoteIdent cell.1.name) cell.2)

/-- The statement of a change; none for an image that does not fit the
columns. -/
def buildDml (change : Change) (cols : List ColInfo) : Option String :=
  let q := quoteIdent change.table
  let written := (cols.zip change.after).filter fun cell => !cell.1.generated
  -- a table without a key may hold a row twice
  let limit := if hasPk cols then "" else " LIMIT 1"
  match change.op with
  | .insert =>
      if change.after.length ≠ cols.length then none
      else if written.isEmpty then none
      else
        let collist := ", ".intercalate
          (written.map fun cell => quoteIdent cell.1.name)
        let vals := ", ".intercalate (written.map Prod.snd)
        let upd := (written.filter fun cell => !cell.1.isPk).map fun cell =>
          let col := quoteIdent cell.1.name
          col ++ "=VALUES(" ++ col ++ ")"
        if upd.isEmpty then
          some ("INSERT IGNORE INTO " ++ q ++ " (" ++ collist ++ ") VALUES (" ++
            vals ++ ")")
        else
          some ("INSERT INTO " ++ q ++ " (" ++ collist ++ ") VALUES (" ++
            vals ++ ") ON DUPLICATE KEY UPDATE " ++ ", ".intercalate upd)
  | .update =>
      if change.after.length ≠ cols.length ∨
          change.before.length ≠ cols.length then none
      else if written.isEmpty then none
      else
        let set := ", ".intercalate
          (written.map fun cell => quoteIdent cell.1.name ++ " = " ++ cell.2)
        some ("UPDATE " ++ q ++ " SET " ++ set ++ " WHERE " ++
          whereClause change cols ++ limit)
  | .delete =>
      if change.before.length ≠ cols.length then none
      else some ("DELETE FROM " ++ q ++ " WHERE " ++ whereClause change cols ++
        limit)

/-- The server restored to: the columns of its tables, each with name, extra
and key, and what a statement does to its rows. -/
structure Target (σ : Type) where
  columns : String → Except String (List (String × String × String))
  queryDrop : σ → String → Except String σ

def toAsciiUppercase (text : String) : String :=
  String.ofList (text.toList.map Char.toUpper)

def contains (word text : String) : Bool :=
  decide (word.toList <:+: text.toList)

section Apply

variable {σ : Type} (target : Target σ)

def targetColumns (table : String) : Except XBackupError (List ColInfo) :=
  match target.columns table with
  | .error e => .error (.failure
      (table ++ ": failed to query column metadata: " ++ e))
  | .ok rows => .ok
      ((rows.filter fun (_, extra, _) =>
          !contains "VIRTUAL GENERATED" (toAsciiUppercase extra)).map
        fun (name, extra, key) =>
          { name := name
            generated := contains "STORED GENERATED" (toAsciiUppercase extra)
            isPk := key == "PRI" })

structure ApplyState (σ : Type) where
  server : σ
  metaCache : Table String (List ColInfo)
  applied : Nat
  /-- Of the changes read so far, which were executed. -/
  executed : List Bool

def sessionStatements : List String :=
  ["SET FOREIGN_KEY_CHECKS = 0",
    "SET UNIQUE_CHECKS = 0",
    "SET SQL_MODE = 'NO_AUTO_VALUE_ON_ZERO'",
    "SET SESSION time_zone = '+00:00'",
    "SET NAMES utf8mb4"]

/-- The session settings; one that is refused is passed over. -/
def openSession (server : σ) : σ :=
  sessionStatements.foldl (fun server stmt =>
    match target.queryDrop server stmt with
    | .ok next => next
    | .error _ => server) server

def isBehind (maxCommitMicros : Option Int64) (change : Change) : Bool :=
  maxCommitMicros.any fun max => max < change.commitUnixMicros

variable (maxCommitMicros : Option Int64)

def applyChange (st : ApplyState σ) (change : Change) :
    ApplyState σ × Option XBackupError :=
  if isBehind maxCommitMicros change then
    ({ st with executed := st.executed ++ [false] }, none)
  else
    match tryFetch (targetColumns target) st.metaCache change.table with
    | .error err => (st, some err)
    | .ok (cols, metaCache) =>
        match buildDml change cols with
        | none =>
            ({ st with
                metaCache := metaCache
                executed := st.executed ++ [false] }, none)
        | some sql =>
            match target.queryDrop st.server sql with
            | .error e =>
                ({ st with metaCache := metaCache }, some (.failure
                  (change.db ++ "." ++ change.table ++
                    " incremental apply failed: " ++ e ++ "\n SQL: " ++ sql)))
            | .ok server =>
                ({ server := server
                   metaCache := metaCache
                   applied := st.applied + 1
                   executed := st.executed ++ [true] }, none)

def applyLoop (st : ApplyState σ) :
    List Frame → ApplyState σ × Except XBackupError Nat
  | [] => (st, .ok st.applied)
  | frame :: rest =>
      match frame.read with
      | .error err => (st, .error err)
      | .ok (.header _) =>
          (st, .error (.failure "duplicate MySQL incremental header"))
      | .ok .end_ => (st, .ok st.applied)
      | .ok (.change change) =>
          match applyChange target maxCommitMicros st change with
          | (next, some err) => (next, .error err)
          | (next, none) => applyLoop next rest

/-- A replay, with the state it stopped in. -/
def apply (server : σ) (frames : List Frame) :
    ApplyState σ × Except XBackupError Nat :=
  let closed : ApplyState σ := ⟨server, [], 0, []⟩
  let headerMissing := fun found : IncrFrame =>
    XBackupError.failure
      ("MySQL incremental header missing: " ++ found.describe)
  match frames with
  | [] => (closed, .error (headerMissing .end_))
  | frame :: rest =>
      match frame.read with
      | .error err => (closed, .error err)
      | .ok (.header doc) =>
          let fmt := (doc.getStr "format").getD ""
          if fmt ≠ MYSQL_INCR_FORMAT_ID then
            (closed, .error (.failure
              ("MySQL incremental format mismatch: '" ++ fmt ++ "'")))
          else
            applyLoop target maxCommitMicros
              { closed with server := openSession target server } rest
      | .ok other => (closed, .error (headerMissing other))

end Apply

theorem docToChange_changeToDoc (change : Change) :
    docToChange (changeToDoc change) = .ok change := by
  have hstrs : ∀ values : List String,
      (values.map fun value => Bson.scalar (.string value)).filterMap asStr =
        values := by
    intro values
    rw [List.filterMap_map]
    exact List.filterMap_some
  obtain ⟨op, db, table, before, after, commitUnixMicros⟩ := change
  cases op <;>
    simp [docToChange, changeToDoc, Op.tag, Document.getStr, Document.getArray,
      Document.getI64, Document.get, List.lookup, hstrs]

section Spec

variable {σ : Type} (target : Target σ) (maxCommitMicros : Option Int64)

/-- A change within the limit that fits the columns, as far as these are
known. -/
def chosen (change : Change) : Bool :=
  !isBehind maxCommitMicros change &&
    match targetColumns target change.table with
    | .error _ => true
    | .ok cols => (buildDml change cols).isSome

/-- The server behind a change, unless it refuses the statement or the query of
the columns. -/
def execute (server : σ) (change : Change) : Option σ :=
  match targetColumns target change.table with
  | .error _ => none
  | .ok cols => (buildDml change cols).bind fun sql =>
      (target.queryDrop server sql).toOption

variable {target maxCommitMicros} {st next : ApplyState σ}

/-- What one change does: it is passed over, refused or executed. -/
theorem applyChange_cases (maxCommitMicros : Option Int64)
    (change : Change)
    (hsound : Succeeded (targetColumns target) st.metaCache) :
    (¬ chosen target maxCommitMicros change = true ∧
      ∃ metaCache, Succeeded (targetColumns target) metaCache ∧
        applyChange target maxCommitMicros st change =
          ({ st with
              metaCache := metaCache
              executed := st.executed ++ [false] }, none)) ∨
    (chosen target maxCommitMicros change = true ∧
      execute target st.server change = none ∧
      ∃ metaCache err, applyChange target maxCommitMicros st change =
        ({ st with metaCache := metaCache }, some err)) ∨
    (chosen target maxCommitMicros change = true ∧
      ∃ server, execute target st.server change = some server ∧
      ∃ metaCache, Succeeded (targetColumns target) metaCache ∧
        applyChange target maxCommitMicros st change =
          ({ server := server
             metaCache := metaCache
             applied := st.applied + 1
             executed := st.executed ++ [true] }, none)) := by
  rw [applyChange, chosen, execute]
  by_cases hbehind : isBehind maxCommitMicros change = true
  · rw [if_pos hbehind]
    exact Or.inl ⟨by simp [hbehind], st.metaCache, hsound, rfl⟩
  rw [if_neg hbehind]
  rcases tryFetch_spec hsound change.table with
    ⟨err, hcolumns, hfetch⟩ | ⟨cols, metaCache, hcolumns, hfetch, hnext⟩
  · rw [hfetch, hcolumns]
    exact Or.inr (Or.inl ⟨by simp [hbehind], rfl, st.metaCache, err, rfl⟩)
  rw [hfetch, hcolumns]
  cases hsql : buildDml change cols with
  | none => exact Or.inl ⟨by simp [hsql], metaCache, hnext, by simp [hsql]⟩
  | some sql =>
      cases hserver : target.queryDrop st.server sql with
      | error e =>
          exact Or.inr (Or.inl ⟨by simp [hbehind, hsql],
            by simp [hsql, hserver, Except.toOption], metaCache, _,
            by simp [hsql, hserver]; rfl⟩)
      | ok server =>
          exact Or.inr (Or.inr ⟨by simp [hbehind, hsql], server,
            by simp [hsql, hserver, Except.toOption], metaCache, hnext,
            by simp [hsql, hserver]⟩)

theorem applyLoop_executed
    (hsound : Succeeded (targetColumns target) st.metaCache)
    (changes : List Change) :
    (applyLoop target maxCommitMicros st
        (changes.map (fun change => .change (changeToDoc change)) ++
          [.end_])).1.executed =
      st.executed ++
        taken (chosen target maxCommitMicros) (execute target) st.server
          changes := by
  induction changes generalizing st with
  | nil => simp [applyLoop, Frame.read, taken]
  | cons change rest ih =>
      rw [List.map_cons, List.cons_append, applyLoop, Frame.read,
        docToChange_changeToDoc]
      simp only [Except.map]
      rcases applyChange_cases maxCommitMicros change hsound with
        ⟨hchosen, metaCache, hnext, happly⟩ |
        ⟨hchosen, hrefused, metaCache, err, happly⟩ |
        ⟨hchosen, server, haccepted, metaCache, hnext, happly⟩
      · rw [happly, taken_passed hchosen]
        simp only
        rw [ih hnext, List.append_assoc]
        rfl
      · rw [happly, taken_refused hchosen hrefused, List.append_nil]
      · rw [happly, taken_accepted hchosen haccepted]
        simp only
        rw [ih hnext, List.append_assoc]
        rfl

theorem apply_executed (last : CaptureState) (createdAt : String)
    (server : σ) :
    (apply target maxCommitMicros server
        (last.outcome createdAt).archive).1.executed =
      taken (chosen target maxCommitMicros) (execute target)
        (openSession target server) last.flushed.flatten := by
  have hformat : (Document.getStr
      [("format", .scalar (.string MYSQL_INCR_FORMAT_ID)),
        ("created_at", .scalar (.string createdAt))] "format").getD "" =
      MYSQL_INCR_FORMAT_ID := rfl
  rw [CaptureState.outcome, List.cons_append, apply]
  simp only [Frame.read, hformat, ne_eq, not_true_eq_false, if_false]
  rw [applyLoop_executed (by simp [Succeeded]), List.nil_append]

/-- Images that are rendered already. -/
def plainEnv : CaptureEnv (List String) Unit :=
  ⟨"app", fun _ image => .ok image⟩

/-- A server with one table of one key column that keeps what it is told. -/
def plainTarget : Target (List String) :=
  ⟨fun _ => .ok [("id", "", "PRI")], fun told sql => .ok (told ++ [sql])⟩

def insertAt (seconds : UInt32) (id : String) :
    Except String (Event (List String) Unit) :=
  .ok ⟨⟨seconds, 0⟩, .ok (some (.rows
    ⟨.writeRows, some ⟨"app", "t", [none]⟩, [.ok (none, some [id])]⟩))⟩

/-- A transaction of two rows, ten seconds apart, without a GTID event. -/
def slowTransaction : List (Except String (Event (List String) Unit)) :=
  [insertAt 10 "1", insertAt 20 "2", .ok ⟨⟨20, 300⟩, .ok (some .xid)⟩]

def slowCapture : CaptureState where
  curFile := "bin.1"
  boundaryFile := "bin.1"
  boundaryPos := 300
  txBuf := []
  curCommitMicros := 0
  flushed := [[⟨.insert, "app", "t", [], ["1"], 10000000⟩,
    ⟨.insert, "app", "t", [], ["2"], 20000000⟩]]
  count := 2
  morePending := false

theorem captureRun_slowTransaction :
    captureRun plainEnv ⟨"bin.1", 4, ""⟩ slowTransaction =
      .ok slowCapture := rfl

end Spec

end Mysql

end XBackup
