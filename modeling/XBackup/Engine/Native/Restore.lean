/-
Restoring a native MongoDB archive: collections are created with their options
and indexes, and their documents are inserted in batches.
-/
import XBackup.Engine.Archive
import XBackup.Engine.DbKind

namespace XBackup

open Framing

/-- `split_once`. -/
def splitOnce (sep : Char) (text : String) : Option (String × String) :=
  match text.toList.span (· ≠ sep) with
  | (_, []) => none
  | (front, _ :: rest) => some (String.ofList front, String.ofList rest)

namespace Native

def TAG_COLLECTION : UInt8 := 0x43

def TAG_DOCUMENT : UInt8 := 0x44

def framing : Format where
  shape tag :=
    if tag = TAG_HEADER ∨ tag = TAG_COLLECTION ∨ tag = TAG_DOCUMENT then
      some .document
    else none
  endTag := TAG_END
  maxBytes := 32 * 1024 * 1024

def ioErr (ctx : String) : String :=
  "archive " ++ ctx ++ " failed: " ++ EARLY_EOF

def wording : Wording where
  fault
    | .corruptTag tag => "corrupt archive frame tag: 0x" ++ hexByte tag
    | .noLength _ => ioErr "프레임 길이 읽기"
    | .badLength _ length =>
        "invalid archive frame length: " ++ toString length ++ " bytes"
    | .noBody _ => ioErr "프레임 본문 읽기"
  parse e := "failed to parse an archive frame: " ++ e

inductive Frame where
  | header (doc : Document)
  | collection (doc : Document)
  | document (doc : Document)
  | end_

/-- A frame with its document; no other frame stands before the end. -/
def Frame.ofItem (item : Item) : Except XBackupError Frame :=
  match item.payload with
  | .document doc =>
      if item.tag = TAG_HEADER then .ok (.header doc)
      else if item.tag = TAG_COLLECTION then .ok (.collection doc)
      else .ok (.document doc)
  | _ => .error (.failure (wording.fault (.corruptTag item.tag)))

def readFrames (lib : BsonLib) (input : List UInt8) :
    List Frame × Option XBackupError :=
  readDecoded lib framing wording Frame.ofItem input

def INSERT_BATCH : Nat := 1000

/-- An error of the server, and its code. -/
structure CommandError where
  text : String
  code : Option Int32

/-- The server restored to: what it becomes by a command, and its error. -/
structure Client (σ : Type) where
  drop : σ → String → String → σ × Option CommandError
  runCreate : σ → String → Document → σ × Option CommandError
  createIndexes : σ → String → String → List Document →
    σ × Option CommandError
  insertMany : σ → String → String → List Document → σ × Option CommandError

structure RestoreState (σ : Type) where
  server : σ
  inserted : Nat
  /-- The collection in work, and whether it is left out. -/
  current : Option (String × String × Bool)
  batch : List Document

section Restore

variable {σ : Type} (client : Client σ)

def flushBatch (st : RestoreState σ) : Except XBackupError (RestoreState σ) :=
  if st.batch.isEmpty then .ok st
  else
    match st.current with
    | none => .ok { st with batch := [] }
    | some (db, coll, skip) =>
        if skip then .ok { st with batch := [] }
        else
          match client.insertMany st.server db coll st.batch with
          | (_, some e) => .error (.failure
              (db ++ "." ++ coll ++ ": insert_many failed: " ++ e.text))
          | (server, none) => .ok { st with
              server := server
              inserted := st.inserted + st.batch.length
              batch := [] }

/-- The command, with the options behind the name. -/
def createCmd (coll : String) (options : Document) : Document :=
  options.foldl (fun cmd field => Document.insert cmd field.1 field.2)
    [("create", .scalar (.string coll))]

def createIndexes (server : σ) (db coll : String) (indexes : List Document) :
    Except XBackupError σ :=
  if indexes.isEmpty then .ok server
  else
    match client.createIndexes server db coll indexes with
    | (server, none) => .ok server
    | (_, some e) => .error (.failure
        (db ++ "." ++ coll ++ ": failed to restore indexes: " ++ e.text))

def createCollection (server : σ) (db coll : String) (options : Document)
    (indexes : List Document) (drop : Bool) : Except XBackupError σ :=
  -- what the drop answers is not looked at
  let server := if drop then (client.drop server db coll).1 else server
  match client.runCreate server db (createCmd coll options) with
  | (server, none) => createIndexes client server db coll indexes
  | (server, some e) =>
      -- a namespace that exists is filled up
      if e.code = some 48 then createIndexes client server db coll indexes
      else .error (.failure
        (db ++ "." ++ coll ++ ": failed to create the collection: " ++ e.text))

variable (drop : Bool) (nsInclude : Option String)

def asDocument : Bson → Option Document
  | .document fields => some fields
  | _ => none

/-- A collection frame: what is left of the batch goes to the collection
before. -/
def restoreCollection (st : RestoreState σ) (info : Document) :
    Except XBackupError (RestoreState σ) := do
  let st ← flushBatch client st
  match info.getStr "ns" with
  | none => .error (.failure "the collection frame has no ns")
  | some ns =>
      match splitOnce '.' ns with
      | none => .error (.failure ("malformed ns: '" ++ ns ++ "'"))
      | some (db, coll) =>
          if nsInclude.any fun want => want ≠ ns then
            .ok { st with current := some (db, coll, true) }
          else
            let options := (info.getDocument "options").getD []
            let indexes := ((info.getArray "indexes").getD []).filterMap
              asDocument
            let server ← createCollection client st.server db coll options
              indexes drop
            .ok { st with
              server := server
              current := some (db, coll, false) }

def restoreDocument (st : RestoreState σ) (doc : Document) :
    Except XBackupError (RestoreState σ) :=
  match st.current with
  | some (_, _, true) => .ok st
  | _ =>
      let st := { st with batch := st.batch ++ [doc] }
      if INSERT_BATCH ≤ st.batch.length then flushBatch client st else .ok st

/-- The loop over the frames behind the header, and over the error that ends
them. -/
def restoreLoop (err : Option XBackupError) (st : RestoreState σ) :
    List Frame → Except XBackupError (RestoreState σ)
  | [] =>
      match err with
      | some err => .error err
      | none => flushBatch client st
  | .header _ :: _ => .error (.failure "duplicate archive header")
  | .collection info :: rest =>
      match restoreCollection client drop nsInclude st info with
      | .error err => .error err
      | .ok next => restoreLoop err next rest
  | .document doc :: rest =>
      match restoreDocument client st doc with
      | .error err => .error err
      | .ok next => restoreLoop err next rest
  | .end_ :: _ => flushBatch client st

/-- `native_restore` on the frames of an archive, and the error that ends them;
`shown` is what a frame looks like in an error. -/
def restoreFrames (shown : Frame → String) (server : σ)
    (read : List Frame × Option XBackupError) :
    Except XBackupError (RestoreState σ) :=
  let headerMissing := fun found : Frame =>
    XBackupError.failure ("native archive header missing (first frame: " ++
      shown found ++ ")")
  match read with
  | ([], some err) => .error err
  | ([], none) => .error (headerMissing .end_)
  | (.header doc :: rest, err) =>
      let fmt := (doc.getStr "format").getD ""
      if fmt ≠ NATIVE_FORMAT_ID then
        .error (.failure ("native archive format mismatch: '" ++ fmt ++
          "' (expected '" ++ NATIVE_FORMAT_ID ++ "')"))
      else restoreLoop client drop nsInclude err ⟨server, 0, none, []⟩ rest
  | (other :: _, _) => .error (headerMissing other)

def nativeRestore (lib : BsonLib) (shown : Frame → String) (server : σ)
    (input : List UInt8) : Except XBackupError (RestoreState σ) :=
  restoreFrames client drop nsInclude shown server (readFrames lib input)

end Restore

end Native

end XBackup
