/-
Restoring a PostgreSQL archive: types, sequences and tables are created as their
frames come, rows are copied in, and constraints, indexes and views wait for the
end.
-/
import XBackup.Engine.Native.Restore
import XBackup.Engine.Mysql.Apply
import XBackup.Foundation.Rounds

namespace XBackup

open Framing Rounds

namespace Postgres

open Mysql (asStr)

def TAG_PRE : UInt8 := 0x52

def TAG_POST : UInt8 := 0x4F

def TAG_SEQUENCE : UInt8 := 0x51

def TAG_TABLE : UInt8 := 0x54

def TAG_DATA : UInt8 := 0x44

def TAG_TABLE_END : UInt8 := 0x58

def archiveFraming : Format where
  shape tag :=
    if tag = TAG_TABLE_END then some .bare
    else if tag = TAG_DATA then some .data
    else if tag = TAG_HEADER ∨ tag = TAG_PRE ∨ tag = TAG_POST ∨
        tag = TAG_SEQUENCE ∨ tag = TAG_TABLE then some .document
    else none
  endTag := TAG_END
  maxBytes := 256 * 1024 * 1024

def ioErr (ctx : String) : String :=
  "PostgreSQL archive " ++ ctx ++ " failed: " ++ EARLY_EOF

def archiveWording : Wording where
  fault
    | .corruptTag tag =>
        "corrupt PostgreSQL archive frame tag: 0x" ++ hexByte tag
    | .noLength .data => ioErr "데이터 길이 읽기"
    | .noLength _ => ioErr "프레임 길이 읽기"
    | .badLength .data length =>
        "invalid PostgreSQL archive data length: " ++ toString length ++
          " bytes"
    | .badLength _ length =>
        "invalid PostgreSQL archive document length: " ++ toString length ++
          " bytes"
    | .noBody .data => ioErr "데이터 본문 읽기"
    | .noBody _ => ioErr "프레임 본문 읽기"
  parse e := "failed to parse a PostgreSQL archive frame: " ++ e

inductive ArchiveFrame where
  | header (doc : Document)
  | pre (doc : Document)
  | post (doc : Document)
  | sequence (doc : Document)
  | table (doc : Document)
  | data (bytes : List UInt8)
  | tableEnd
  | end_

/-- A frame of the archive; no frame reads as the end. -/
def ArchiveFrame.ofItem (item : Item) : Except XBackupError ArchiveFrame :=
  match item.payload with
  | .bare => .ok .tableEnd
  | .data bytes => .ok (.data bytes)
  | .document doc =>
      if item.tag = TAG_HEADER then .ok (.header doc)
      else if item.tag = TAG_PRE then .ok (.pre doc)
      else if item.tag = TAG_POST then .ok (.post doc)
      else if item.tag = TAG_SEQUENCE then .ok (.sequence doc)
      else .ok (.table doc)

def readArchive (lib : BsonLib) (input : List UInt8) :
    List ArchiveFrame × Option XBackupError :=
  readDecoded lib archiveFraming archiveWording ArchiveFrame.ofItem input

inductive SqlState where
  | duplicateTable
  | duplicateObject
  | duplicateSchema
  | other
deriving DecidableEq, Repr

structure DbError where
  text : String
  code : Option SqlState

/-- The server restored to: what it becomes by a command, and its error. -/
structure RestoreClient (σ : Type) where
  batchExecute : σ → String → σ × Option DbError
  copyIn : σ → String → σ × Option DbError
  send : σ → List UInt8 → σ × Option DbError
  finish : σ → σ × Except DbError Nat
  setval : σ → String → Int64 → Bool → σ
  resetIdentity : σ → String → String × String → String → σ

structure RestoreState (σ : Type) where
  server : σ
  inserted : Nat
  deferredConstraints : List String
  deferredIndexes : List String
  setvals : List (String × Int64 × Bool)
  identityResets : List (String × String)
  preDdls : List String
  postDdls : List String
  unresolvedPre : List String
  preApplied : Bool
  /-- The table whose data frames are read. -/
  copying : Option String

section Statements

variable {σ : Type} (client : RestoreClient σ)

/-- An object that exists counts as created. -/
def runIgnoreExists (server : σ) (sql : String) : σ × Option DbError :=
  match client.batchExecute server sql with
  | (server, none) => (server, none)
  | (server, some e) =>
      match e.code with
      | some .duplicateTable => (server, none)
      | some .duplicateObject => (server, none)
      | some .duplicateSchema => (server, none)
      | _ => (server, some e)

/-- Statements in rounds, as far as the rounds get; what is left. -/
def retryApply (server : σ) (ddls : List String) : σ × List String :=
  settle (runIgnoreExists client) server ddls

/-- Statements in rounds; an error when a round gets no further. -/
def applyWithRetry (what : String) (server : σ) (ddls : List String) :
    Except XBackupError σ :=
  match exhaust (runIgnoreExists client) server ddls with
  | .ok server => .ok server
  | .error failed =>
      let lastErr := failed.getLast?.map fun (sql, e) =>
        e.text ++ "\n  SQL: " ++ sql
      .error (.failure ("failed to apply " ++ what ++
        " — could not resolve dependencies: " ++ lastErr.getD ""))

/-- Statements in their order, up to the first that fails. -/
def applyAll (what : String) (server : σ) :
    List String → Except XBackupError σ
  | [] => .ok server
  | sql :: rest =>
      match runIgnoreExists client server sql with
      | (server, none) => applyAll what server rest
      | (_, some e) => .error (.failure
          ("failed to apply " ++ what ++ ": " ++ e.text ++ "\n SQL: " ++ sql))

end Statements

section Restore

variable {σ : Type} (client : RestoreClient σ) (drop : Bool)

/-- What stands before the first sequence or table is applied once. -/
def applyPre (st : RestoreState σ) : RestoreState σ :=
  if st.preApplied then st
  else
    let (server, unresolved) := retryApply client st.server st.preDdls
    { st with server := server, unresolvedPre := unresolved, preApplied := true }

def createSchema (server : σ) (schema : String) : Except XBackupError σ :=
  if schema = "" then .ok server
  else
    match runIgnoreExists client server
        ("CREATE SCHEMA IF NOT EXISTS " ++ schema) with
    | (server, none) => .ok server
    | (_, some e) => .error (.failure
        (schema ++ ": failed to create the schema: " ++ e.text))

def restoreSequence (st : RestoreState σ) (info : Document) :
    Except XBackupError (RestoreState σ) := do
  let st := applyPre client st
  match info.getStr "name" with
  | none => .error (.failure "the sequence frame has no name")
  | some name =>
      let lastValue := (info.getI64 "last_value").getD 1
      let isCalled := (info.getBool "is_called").getD true
      let server ← createSchema client st.server
        ((info.getStr "schema").getD "")
      let create := (info.getStr "create_sql").getD ("CREATE SEQUENCE " ++ name)
      match runIgnoreExists client server create with
      | (_, some e) => .error (.failure
          (name ++ ": failed to create the sequence: " ++ e.text))
      | (server, none) => .ok { st with
          server := server
          setvals := st.setvals ++ [(name, lastValue, isCalled)] }

def strings (info : Document) (key : String) : List String :=
  ((info.getArray key).getD []).filterMap asStr

/-- A table is created, and its data frames are awaited. -/
def restoreTable (st : RestoreState σ) (info : Document) :
    Except XBackupError (RestoreState σ) := do
  let st := applyPre client st
  match info.getStr "ns" with
  | none => .error (.failure "the table frame has no ns")
  | some ns =>
      match info.getStr "create_sql" with
      | none => .error (.failure (ns ++ ": table has no create_sql"))
      | some createSql =>
          let quoted := (info.getStr "quoted").getD ns
          let server ← createSchema client st.server
            ((info.getStr "schema").getD "")
          -- what the drop answers is not looked at
          let server :=
            if drop then
              (client.batchExecute server
                ("DROP TABLE IF EXISTS " ++ quoted ++ " CASCADE")).1
            else server
          match runIgnoreExists client server createSql with
          | (_, some e) => .error (.failure
              (ns ++ ": failed to create the table: " ++ e.text))
          | (server, none) =>
              let copyCols := strings info "copy_cols"
              let colList :=
                if copyCols.isEmpty then ""
                else " (" ++ String.intercalate ", " copyCols ++ ")"
              match client.copyIn server ("COPY " ++ quoted ++ colList ++
                  " FROM STDIN (FORMAT text)") with
              | (_, some e) => .error (.failure
                  (ns ++ ": COPY IN failed to start: " ++ e.text))
              | (server, none) => .ok { st with
                  server := server
                  deferredConstraints := st.deferredConstraints ++
                    strings info "constraints"
                  deferredIndexes := st.deferredIndexes ++
                    strings info "indexes"
                  identityResets := st.identityResets ++
                    (strings info "identity_cols").map fun col => (ns, col)
                  copying := some ns }

variable (shown : ArchiveFrame → String)

/-- A frame between a table and its end. -/
def copyFrame (st : RestoreState σ) (ns : String) :
    ArchiveFrame → Except XBackupError (RestoreState σ)
  | .data bytes =>
      match client.send st.server bytes with
      | (server, none) => .ok { st with server := server }
      | (_, some e) => .error (.failure
          (ns ++ ": failed to send COPY data: " ++ e.text))
  | .tableEnd =>
      match client.finish st.server with
      | (server, .ok n) => .ok { st with
          server := server
          inserted := st.inserted + n
          copying := none }
      | (_, .error e) => .error (.failure
          (ns ++ ": COPY IN failed to finish: " ++ e.text))
  | other => .error (.failure
      (ns ++ ": unexpected frame in data: " ++ shown other))

def restoreFrame (st : RestoreState σ) (frame : ArchiveFrame) :
    Except XBackupError (RestoreState σ) :=
  match st.copying with
  | some ns => copyFrame client shown st ns frame
  | none =>
      match frame with
      | .header _ => .error (.failure "duplicate PostgreSQL archive header")
      | .pre info => .ok { st with
          preDdls := st.preDdls ++ (info.getStr "sql").toList }
      | .post info => .ok { st with
          postDdls := st.postDdls ++ (info.getStr "sql").toList }
      | .sequence info => restoreSequence client st info
      | .table info => restoreTable client drop st info
      | .data _ => .error (.failure
          "encountered a data frame outside a table (corrupt)")
      | .tableEnd => .error (.failure
          "encountered a data frame outside a table (corrupt)")
      | .end_ => .ok st

/-- The loop over the frames between the header and the end, and over the error
that ends them. -/
def restoreLoop (err : Option XBackupError) (st : RestoreState σ) :
    List ArchiveFrame → Except XBackupError (RestoreState σ)
  | [] =>
      match err with
      | some err => .error err
      | none => restoreFrame client drop shown st .end_
  | frame :: rest =>
      match restoreFrame client drop shown st frame with
      | .error err => .error err
      | .ok next => restoreLoop err next rest

/-- Behind the last frame: constraints, indexes, sequence values, and what is
left of the statements before and behind the tables. -/
def applyDeferred (st : RestoreState σ) : Except XBackupError (RestoreState σ) :=
  do
  let server ← applyAll client "a constraint" st.server st.deferredConstraints
  let server ← applyAll client "an index" server st.deferredIndexes
  let server := st.setvals.foldl (fun server (name, lastValue, isCalled) =>
    client.setval server name lastValue isCalled) server
  let server := st.identityResets.foldl (fun server (ns, col) =>
    match splitOnce '.' ns with
    | some relation => client.resetIdentity server ns relation col
    | none => server) server
  let st := applyPre client { st with server := server }
  let server ← applyWithRetry client "후행 DDL(함수/뷰/트리거)" st.server
    (st.unresolvedPre ++ st.postDdls)
  return { st with server := server }

/-- `restore_into` on the frames of an archive, and the error that ends
them. -/
def restoreFrames (server : σ)
    (read : List ArchiveFrame × Option XBackupError) :
    Except XBackupError (RestoreState σ) :=
  let server := (client.batchExecute server
    "SET check_function_bodies = false").1
  let headerMissing := fun found : ArchiveFrame =>
    XBackupError.failure ("PostgreSQL archive header missing (first frame: " ++
      shown found ++ ")")
  match read with
  | ([], some err) => .error err
  | ([], none) => .error (headerMissing .end_)
  | (.header doc :: rest, err) =>
      let fmt := (doc.getStr "format").getD ""
      if fmt ≠ PG_FORMAT_ID then
        .error (.failure ("PostgreSQL archive format mismatch: '" ++ fmt ++
          "' (expected '" ++ PG_FORMAT_ID ++ "')"))
      else
        match restoreLoop client drop shown err
            ⟨server, 0, [], [], [], [], [], [], [], false, none⟩ rest with
        | .error err => .error err
        | .ok st => applyDeferred client st
  | (other :: _, _) => .error (headerMissing other)

def restoreInto (lib : BsonLib) (server : σ) (input : List UInt8) :
    Except XBackupError (RestoreState σ) :=
  restoreFrames client drop shown server (readArchive lib input)

end Restore

end Postgres

end XBackup
