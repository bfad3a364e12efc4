/-
Restoring a MySQL archive: tables are created and filled as their frames come,
and views, triggers and routines wait for the end.
-/
import XBackup.Engine.Archive
import XBackup.Engine.Mysql.Apply
import XBackup.Foundation.Bytes
import XBackup.Foundation.Rounds

namespace XBackup

open Bytes Framing Rounds

namespace Mysql

def TAG_PRE : UInt8 := 0x52

def TAG_POST : UInt8 := 0x4F

def TAG_TABLE : UInt8 := 0x54

def TAG_DATA : UInt8 := 0x44

def TAG_TABLE_END : UInt8 := 0x58

def archiveFraming : Format where
  shape tag :=
    if tag = TAG_TABLE_END then some .bare
    else if tag = TAG_DATA then some .data
    else if tag = TAG_HEADER ∨ tag = TAG_PRE ∨ tag = TAG_POST ∨
        tag = TAG_TABLE then some .document
    else none
  endTag := TAG_END
  maxBytes := 256 * 1024 * 1024

def ioErr (ctx : String) : String :=
  "MySQL archive " ++ ctx ++ " failed: " ++ EARLY_EOF

def archiveWording : Wording where
  fault
    | .corruptTag tag => "corrupt MySQL archive frame tag: 0x" ++ hexByte tag
    | .noLength .data => ioErr "데이터 길이 읽기"
    | .noLength _ => ioErr "프레임 길이 읽기"
    | .badLength .data length =>
        "invalid MySQL archive data length: " ++ toString length ++ " bytes"
    | .badLength _ length =>
        "invalid MySQL archive document length: " ++ toString length ++ " bytes"
    | .noBody .data => ioErr "데이터 본문 읽기"
    | .noBody _ => ioErr "프레임 본문 읽기"
  parse e := "failed to parse a MySQL archive frame: " ++ e

inductive ArchiveFrame where
  | header (doc : Document)
  | pre (doc : Document)
  | post (doc : Document)
  | table (doc : Document)
  | data (bytes : List UInt8)
  | tableEnd
  | end_

/-- A frame of the archive; no frame reads as the end. -/
def ArchiveFrame.ofItem (item : Item) : Except XBackupError ArchiveFrame :=
  match item.payload with
  | .bare => .ok .tableEnd
  | .data bytes => .ok (.data bytes)
  | .document doc =>
      if item.tag = TAG_HEADER then .ok (.header doc)
      else if item.tag = TAG_PRE then .ok (.pre doc)
      else if item.tag = TAG_POST then .ok (.post doc)
      else .ok (.table doc)

def readArchive (lib : BsonLib) (input : List UInt8) :
    List ArchiveFrame × Option XBackupError :=
  readDecoded lib archiveFraming archiveWording ArchiveFrame.ofItem input

def FLUSH_BYTES : Nat := 2000000

def FLUSH_ROWS : Nat := 2000

/-- An error of the server, and its code. -/
structure ServerError where
  text : String
  code : Option UInt16

/-- The server restored to: what it becomes by a statement with its parameters,
and its error; and the database it works on. -/
structure RestoreConn (σ : Type) where
  execute : σ → String → List String → σ × Option ServerError
  database : σ → Except ServerError (Option String)

/-- `String::from_utf8`: bytes that are valid read back as they were written. -/
def fromUtf8 (bytes : List UInt8) : Option String :=
  if utf8 (fromUtf8Lossy bytes) = bytes then some (fromUtf8Lossy bytes)
  else none

structure PostObj where
  kind : String
  name : String
  sql : String
  sqlMode : Option String
  characterSetClient : Option String
  collationConnection : Option String
  timeZone : Option String

structure Copying where
  ns : String
  quoted : String
  colList : String
  batch : List String
  batchBytes : Nat

structure RestoreState (σ : Type) where
  server : σ
  inserted : Nat
  preDdls : List String
  post : List PostObj
  /-- The table whose data frames are read. -/
  copying : Option Copying

def isAlreadyExists (e : ServerError) : Bool :=
  e.code = some 1050 ∨ e.code = some 1304 ∨ e.code = some 1359 ∨
    e.code = some 1537

def dropKeyword (kind : String) : Option String :=
  match kind with
  | "view" => some "VIEW"
  | "trigger" => some "TRIGGER"
  | "procedure" => some "PROCEDURE"
  | "function" => some "FUNCTION"
  | "event" => some "EVENT"
  | _ => none

def optionalStr (info : Document) (key : String) : Option String :=
  (info.getStr key).filter fun value => value ≠ ""

section Statements

variable {σ : Type} (conn : RestoreConn σ)

def queryDrop (server : σ) (sql : String) : σ × Option ServerError :=
  conn.execute server sql []

/-- An object that exists counts as created. -/
def runIgnoreExists (server : σ) (sql : String) : σ × Option ServerError :=
  match queryDrop conn server sql with
  | (server, none) => (server, none)
  | (server, some e) =>
      if isAlreadyExists e then (server, none) else (server, some e)

/-- The session an object was created in: statements, each with its parameters
and with what an error of it is reported as. -/
def PostObj.session (obj : PostObj) : List (String × List String × String) :=
  (obj.sqlMode.toList.map fun sqlMode =>
    ("SET SESSION sql_mode = ?", [sqlMode], "failed to restore sql_mode: ")) ++
  (obj.timeZone.toList.map fun timeZone =>
    ("SET SESSION time_zone = ?", [timeZone],
      "failed to restore time_zone: ")) ++
  (obj.characterSetClient.toList.map fun charset =>
    ("SET NAMES " ++ quoteIdent charset ++
        ((obj.collationConnection.map fun collation =>
          " COLLATE " ++ quoteIdent collation).getD ""),
      [], "failed to restore the object-creation charset: "))

/-- Statements up to the first that fails. -/
def runSession (server : σ) :
    List (String × List String × String) → σ × Option String
  | [] => (server, none)
  | (sql, params, what) :: rest =>
      match conn.execute server sql params with
      | (server, none) => runSession server rest
      | (server, some e) => (server, some (what ++ e.text))

def applyPostObject (server : σ) (obj : PostObj) : σ × Option String :=
  match runSession conn server obj.session with
  | (server, some e) => (server, some e)
  | (server, none) =>
      let (server, err) := runIgnoreExists conn server obj.sql
      (server, err.map ServerError.text)

/-- What is answered to a drop is not looked at. -/
def dropPost (server : σ) (obj : PostObj) : σ :=
  match dropKeyword obj.kind with
  | none => server
  | some kw =>
      if obj.name = "" then server
      else (queryDrop conn server
        ("DROP " ++ kw ++ " IF EXISTS " ++ quoteIdent obj.name)).1

def applyPost (server : σ) (post : List PostObj) (drop : Bool) :
    Except XBackupError σ :=
  let server := if drop then post.foldl (dropPost conn) server else server
  match exhaust (applyPostObject conn) server post with
  | .ok server => .ok server
  | .error failed =>
      let lastErr := failed.getLast?.map fun (obj, e) =>
        e ++ "\n  SQL: " ++ obj.sql
      .error (.failure ("failed to apply trailing DDL " ++
        "(views/triggers/routines/events) — could not resolve dependencies: " ++
        lastErr.getD ""))

def flushInsert (st : RestoreState σ) (c : Copying) :
    Except XBackupError (RestoreState σ) :=
  if c.batch.isEmpty then .ok st
  else
    let sql := "INSERT INTO " ++ c.quoted ++ c.colList ++ " VALUES " ++
      String.intercalate ", " c.batch
    match queryDrop conn st.server sql with
    | (server, none) => .ok { st with
        server := server
        inserted := st.inserted + c.batch.length }
    | (_, some e) => .error (.failure (c.ns ++ ": INSERT failed: " ++ e.text))

end Statements

section Restore

variable {σ : Type} (conn : RestoreConn σ) (drop : Bool)

def openRestoreSession (server : σ) : List String → Except XBackupError σ
  | [] => .ok server
  | stmt :: rest =>
      match queryDrop conn server stmt with
      | (server, none) => openRestoreSession server rest
      | (_, some e) => .error (.failure
          ("failed to set up the restore session (" ++ stmt ++ "): " ++ e.text))

/-- An archive that knows the defaults of its database sets them. -/
def applyDatabaseDefaults (server : σ) (header : Document) :
    Except XBackupError σ :=
  match header.getStr "database_charset",
      header.getStr "database_collation" with
  | some charset, some collation =>
      match conn.database server with
      | .error e => .error (.failure
          ("failed to query the restore target database: " ++ e.text))
      | .ok none => .error (.usage
          "the MySQL restore target URI must name a database")
      | .ok (some database) =>
          match queryDrop conn server ("ALTER DATABASE " ++
              quoteIdent database ++ " CHARACTER SET " ++ quoteIdent charset ++
              " COLLATE " ++ quoteIdent collation) with
          | (server, none) => .ok server
          | (_, some e) => .error (.failure
              ("failed to apply the restore target database's default charset (" ++
                charset ++ "/" ++ collation ++ "): " ++ e.text))
  | _, _ => .ok server

def postObj (info : Document) : Except XBackupError PostObj :=
  match info.getStr "sql" with
  | none => .error (.failure "the trailing DDL frame has no sql")
  | some sql => .ok
      { kind := (info.getStr "kind").getD ""
        name := (info.getStr "name").getD ""
        sql := sql
        sqlMode := optionalStr info "sql_mode"
        characterSetClient := optionalStr info "character_set_client"
        collationConnection := optionalStr info "collation_connection"
        timeZone := optionalStr info "time_zone" }

/-- A table is created, and its data frames are awaited. -/
def restoreTable (st : RestoreState σ) (info : Document) :
    Except XBackupError (RestoreState σ) :=
  let ns := (info.getStr "ns").getD ""
  match info.getStr "quoted" with
  | none => .error (.failure (ns ++ ": table has no quoted"))
  | some quoted =>
      match info.getStr "create_sql" with
      | none => .error (.failure (ns ++ ": table has no create_sql"))
      | some createSql =>
          let insertCols := ((info.getArray "insert_cols").getD []).filterMap
            asStr
          -- what the drop answers is not looked at
          let server :=
            if drop then
              (queryDrop conn st.server ("DROP TABLE IF EXISTS " ++ quoted)).1
            else st.server
          match runIgnoreExists conn server createSql with
          | (_, some e) => .error (.failure
              (ns ++ ": failed to create the table: " ++ e.text))
          | (server, none) =>
              let colList :=
                if insertCols.isEmpty then ""
                else " (" ++ String.intercalate ", " insertCols ++ ")"
              .ok { st with
                server := server
                copying := some ⟨ns, quoted, colList, [], 0⟩ }

variable (shown : ArchiveFrame → String) (utf8Error : List UInt8 → String)

/-- A frame between a table and its end. -/
def copyFrame (st : RestoreState σ) (c : Copying) :
    ArchiveFrame → Except XBackupError (RestoreState σ)
  | .data bytes =>
      match fromUtf8 bytes with
      | none => .error (.failure
          (c.ns ++ ": failed to decode a row tuple: " ++ utf8Error bytes))
      | some tuple =>
          let c := { c with
            batch := c.batch ++ [tuple]
            batchBytes := c.batchBytes + tuple.utf8ByteSize + 1 }
          if FLUSH_BYTES ≤ c.batchBytes ∨ FLUSH_ROWS ≤ c.batch.length then
            (flushInsert conn st c).map fun st => { st with
              copying := some { c with batch := [], batchBytes := 0 } }
          else .ok { st with copying := some c }
  | .tableEnd => (flushInsert conn st c).map fun st =>
      { st with copying := none }
  | other => .error (.failure
      (c.ns ++ ": unexpected frame in data: " ++ shown other))

def restoreFrame (st : RestoreState σ) (frame : ArchiveFrame) :
    Except XBackupError (RestoreState σ) :=
  match st.copying with
  | some c => copyFrame conn shown utf8Error st c frame
  | none =>
      match frame with
      | .header _ => .error (.failure "duplicate MySQL archive header")
      | .pre info => .ok { st with
          preDdls := st.preDdls ++ (info.getStr "sql").toList }
      | .post info => (postObj info).map fun obj => { st with
          post := st.post ++ [obj] }
      | .table info => restoreTable conn drop st info
      | .data _ => .error (.failure
          "encountered a data frame outside a table (corrupt)")
      | .tableEnd => .error (.failure
          "encountered a data frame outside a table (corrupt)")
      | .end_ => .ok st

/-- The loop over the frames between the header and the end, and over the error
that ends them. -/
def restoreLoop (err : Option XBackupError) (st : RestoreState σ) :
    List ArchiveFrame → Except XBackupError (RestoreState σ)
  | [] =>
      match err with
      | some err => .error err
      | none => restoreFrame conn drop shown utf8Error st .end_
  | frame :: rest =>
      match restoreFrame conn drop shown utf8Error st frame with
      | .error err => .error err
      | .ok next => restoreLoop err next rest

/-- `restore_into` on the frames of an archive, and the error that ends
them. -/
def restoreFrames (server : σ)
    (read : List ArchiveFrame × Option XBackupError) :
    Except XBackupError (RestoreState σ) := do
  let server ← openRestoreSession conn server sessionStatements
  let headerMissing := fun found : ArchiveFrame =>
    XBackupError.failure ("MySQL archive header missing (first frame: " ++
      shown found ++ ")")
  match read with
  | ([], some err) => .error err
  | ([], none) => .error (headerMissing .end_)
  | (.header doc :: rest, err) =>
      let fmt := (doc.getStr "format").getD ""
      if fmt ≠ MYSQL_FORMAT_ID then
        .error (.failure ("MySQL archive format mismatch: '" ++ fmt ++
          "' (expected '" ++ MYSQL_FORMAT_ID ++ "')"))
      else
        let server ← applyDatabaseDefaults conn server doc
        let st ← restoreLoop conn drop shown utf8Error err
          ⟨server, 0, [], [], none⟩ rest
        let server := st.preDdls.foldl
          (fun server sql => (runIgnoreExists conn server sql).1) st.server
        let server ← applyPost conn server st.post drop
        return { st with server := server }
  | (other :: _, _) => .error (headerMissing other)

def restoreInto (lib : BsonLib) (server : σ) (input : List UInt8) :
    Except XBackupError (RestoreState σ) :=
  restoreFrames conn drop shown utf8Error server (readArchive lib input)

end Restore

end Mysql

end XBackup
