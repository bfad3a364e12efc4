/-
The flat keys of a resolved profile, written out as nested settings.
-/
import XBackup.Config.Resolve
import XBackup.Schedule.Fields

namespace XBackup

namespace Config

open Fallible Schedule

/-- The tables that the settings of a profile are collected in. -/
inductive Part where
  | source
  | mode
  | destination
  | s3
  | compression
  | encryption
  | incremental
  | retention
  | hooks
  | notify
deriving DecidableEq

/-- The keys that are written as they are: their part, and their name there. -/
def plainKeys : List (String × Part × String) :=
  [("uri", .source, "uri"),
    ("uri_env", .source, "uri_env"),
    ("read_uri", .source, "read_uri"),
    ("read_uri_env", .source, "read_uri_env"),
    ("prefer_secondary", .source, "prefer_secondary"),
    ("connect_timeout_secs", .source, "connect_timeout_secs"),
    ("backup_type", .mode, "backup_type"),
    ("output_mode", .mode, "output"),
    ("precheck", .mode, "precheck"),
    ("engine", .mode, "engine"),
    ("dest_name", .destination, "name"),
    ("s3_bucket", .s3, "bucket"),
    ("s3_prefix", .s3, "prefix"),
    ("s3_region", .s3, "region"),
    ("s3_endpoint", .s3, "endpoint"),
    ("s3_creds", .s3, "credentials_env"),
    ("compress_algorithm", .compression, "algorithm"),
    ("compress_level", .compression, "level"),
    ("encrypt_algorithm", .encryption, "algorithm"),
    ("recipient_file", .encryption, "recipient_file"),
    ("incr_interval", .incremental, "interval"),
    ("incr_on_gap", .incremental, "on_gap"),
    ("pg_logical", .incremental, "pg_logical"),
    ("mysql_binlog", .incremental, "mysql_binlog"),
    ("keep_full", .retention, "keep_full"),
    ("keep_days", .retention, "keep_days"),
    ("keep_last", .retention, "keep_last"),
    ("recovery_window_days", .retention, "recovery_window_days"),
    ("min_redundancy", .retention, "min_redundancy"),
    ("hook_pre_backup", .hooks, "pre_backup"),
    ("hook_post_backup", .hooks, "post_backup"),
    ("hook_pre_restore", .hooks, "pre_restore"),
    ("hook_post_restore", .hooks, "post_restore"),
    ("hook_pre_prune", .hooks, "pre_prune"),
    ("hook_post_prune", .hooks, "post_prune"),
    ("hook_on_error", .hooks, "on_error"),
    ("hook_timeout_secs", .hooks, "hook_timeout_secs"),
    ("notify_webhook_env", .notify, "webhook_url_env")]

/-- The keys of an entry of several destinations. -/
def destKeys : List (String × Part × String) :=
  [("type", .destination, "type"),
    ("path", .destination, "path"),
    ("name", .destination, "name"),
    ("s3_bucket", .s3, "bucket"),
    ("s3_prefix", .s3, "prefix"),
    ("s3_region", .s3, "region"),
    ("s3_endpoint", .s3, "endpoint"),
    ("s3_creds", .s3, "credentials_env")]

/-- What a flat key writes. -/
inductive Write where
  | field (part : Part) (key : String) (v : Value)
  | schedule (v : Value)
  | destinations (v : Value)

/-- What is collected of a profile. -/
structure Parts where
  tables : Part → Table
  schedule : Option Value
  destinations : Option Value

def Parts.empty : Parts where
  tables _ := SortedMap.Map.empty
  schedule := none
  destinations := none

def Parts.write (p : Parts) : Write → Parts
  | .field part key v =>
      { p with tables :=
          Function.update p.tables part ((p.tables part).insert key v) }
  | .schedule v => { p with schedule := some v }
  | .destinations v => { p with destinations := some v }

section Compact

variable (name : String)

/-- A signed number of 64 bits in decimal digits. -/
def parseI64 (text : List Char) : Option Int64 :=
  let signed := text.head? = some '+' ∨ text.head? = some '-'
  let digits := if signed then text.tail else text
  let size : Int := Nat.ofDigitChars 10 digits 0
  let n := if text.head? = some '-' then -size else size
  if digits ≠ [] ∧ digits.all Char.isDigit ∧ -2 ^ 63 ≤ n ∧ n < 2 ^ 63 then
    some (Int64.ofInt n)
  else none

def text (chars : List Char) : Value :=
  .string (String.ofList chars)

/-- `dest`: `local:/path` or `s3:bucket/prefix`. -/
def parseDestCompact (s : String) : Except String (List Write) :=
  let refused := fun why => "[profile." ++ name ++ "] dest \"" ++ s ++ "\": " ++
    why
  match splitOnceAt ':' s.toList with
  | none => .error (refused
      "\"local:/path\" 또는 \"s3:bucket/prefix\" 형식이어야 합니다")
  | some (scheme, rest) =>
      if scheme = "local".toList then
        if rest = [] then .error (refused "local 경로가 비었습니다")
        else .ok [.field .destination "type" (.string "local"),
          .field .destination "path" (text rest)]
      else if scheme = "s3".toList then
        let (bucket, pre) := (splitOnceAt '/' rest).getD (rest, [])
        if bucket = [] then .error (refused "s3 버킷이 비었습니다")
        else .ok (.field .destination "type" (.string "s3") ::
          .field .s3 "bucket" (text bucket) ::
          if pre = [] then [] else [.field .s3 "prefix" (text pre)])
      else .error (refused ("알 수 없는 스킴 '" ++ String.ofList scheme ++
        "'(local|s3)"))

/-- `compress`: an algorithm, and a level behind a colon. -/
def parseCompress (v : Value) : Except String (List Write) :=
  match v.asStr with
  | none => .error ("[profile." ++ name ++
      "] compress는 \"zstd:6\" 같은 문자열이어야 합니다")
  | some s =>
      let algorithm := ((splitOnceAt ':' s.toList).map Prod.fst).getD s.toList
      if algorithm = [] then .error ("[profile." ++ name ++ "] compress \"" ++ s ++
        "\": 알고리즘이 비었습니다")
      else
        match splitOnceAt ':' s.toList with
        | none => .ok [.field .compression "algorithm" (text algorithm)]
        | some (_, level) =>
            match parseI64 level with
            | none => .error ("[profile." ++ name ++ "] compress 레벨 '" ++
                String.ofList level ++ "'은 정수여야 합니다")
            | some n => .ok [.field .compression "algorithm" (text algorithm),
                .field .compression "level" (.integer n)]

/-- `encrypt`: a switch, or an algorithm with a recipient behind a colon. -/
def parseEncrypt : Value → Except String (List Write)
  | .boolean b => .ok [.field .encryption "enabled" (.boolean b)]
  | .string s =>
      if s = "off" ∨ s = "false" then
        .ok [.field .encryption "enabled" (.boolean false)]
      else
        let (algorithm, recipient) :=
          (splitOnceAt ':' s.toList).getD (s.toList, [])
        if algorithm = [] then .error ("[profile." ++ name ++ "] encrypt \"" ++
          s ++ "\": 알고리즘이 비었습니다")
        else .ok (.field .encryption "enabled" (.boolean true) ::
          .field .encryption "algorithm" (text algorithm) ::
          if recipient = [] then []
          else [.field .encryption "recipient_file" (text recipient)])
  | _ => .error ("[profile." ++ name ++
      "] encrypt는 bool 또는 \"age:/path\"/\"off\" 문자열이어야 합니다")

/-- A key of one of several destinations. -/
def destEntryWrites (i : Nat) (entry : String × Value) :
    Except String (List Write) :=
  let refused := fun why => "[[profile." ++ name ++ ".dest]] " ++ toString i ++
    ": " ++ why
  if entry.1 = "dest" then
    match entry.2.asStr with
    | none => .error (refused "dest는 문자열이어야 합니다")
    | some s => parseDestCompact name s
  else
    match destKeys.lookup entry.1 with
    | some (part, key) => .ok [.field part key entry.2]
    | none => .error (refused ("알 수 없는 키 '" ++ entry.1 ++ "'"))

end Compact

/-- A table that holds nothing is left out. -/
def insertTable (t : Table) (key : String) (sub : Table) : Table :=
  if sub.entries.isEmpty then t else t.insert key (.table sub.entries)

def Parts.destination (p : Parts) : Table :=
  insertTable (p.tables .destination) "s3" (p.tables .s3)

/-- The loop over the entries of a table, by what each of them writes. -/
def collectEntries (writes : String × Value → Except String (List Write))
    (entries : List (String × Value)) (p : Parts) : Except String Parts :=
  entries.foldlM (fun p entry => do
    let ws ← writes entry
    return ws.foldl Parts.write p) p

def collect (writes : String × Value → Except String (List Write)) (t : Table) :
    Except String Parts :=
  collectEntries writes t.entries Parts.empty

/-- `[[profile.x.dest]]`. -/
def expandDestArray (name : String) (items : List Value) : Except String Value := do
  let out ← items.zipIdx.mapM fun (elem, i) =>
    match elem.asTable with
    | none => .error ("[[profile." ++ name ++ ".dest]] " ++ toString i ++
        "번 항목이 테이블이 아닙니다")
    | some t => (collect (destEntryWrites name i) t).map fun p =>
        Value.table p.destination.entries
  return .array out

/-- What a flat key of a profile writes; a key that is not known is refused. -/
def keyWrites (name : String) (entry : String × Value) :
    Except String (List Write) :=
  if entry.1 = "dest" then
    match entry.2 with
    | .string s => parseDestCompact name s
    | .array items => (expandDestArray name items).map fun d => [.destinations d]
    | _ => .error ("[profile." ++ name ++ "] dest는 문자열(\"local:/path\") " ++
        "또는 [[profile." ++ name ++ ".dest]] 배열이어야 합니다")
  else if entry.1 = "compress" then parseCompress name entry.2
  else if entry.1 = "encrypt" then parseEncrypt name entry.2
  else if entry.1 = "schedule" then .ok [.schedule entry.2]
  else if entry.1 = "extends" then .ok []
  else
    match plainKeys.lookup entry.1 with
    | some (part, key) => .ok [.field part key entry.2]
    | none => .error ("[profile." ++ name ++ "] 알 수 없는 키 '" ++ entry.1 ++ "'")

def Parts.features (p : Parts) : Table :=
  insertTable (insertTable (insertTable SortedMap.Map.empty "compression"
    (p.tables .compression)) "encryption" (p.tables .encryption))
      "incremental" (p.tables .incremental)

/-- Several destinations take the place of the single one. -/
def Parts.insertDestination (p : Parts) (t : Table) : Table :=
  match p.destinations with
  | some d => t.insert "destinations" d
  | none => insertTable t "destination" p.destination

def Parts.insertSchedule (p : Parts) (t : Table) : Table :=
  match p.schedule with
  | some sched => t.insert "schedule" sched
  | none => t

def Parts.nested (p : Parts) : Table :=
  let profile := insertTable SortedMap.Map.empty "source" (p.tables .source)
  let profile := insertTable profile "mode" (p.tables .mode)
  let profile := p.insertDestination profile
  let profile := insertTable profile "features" p.features
  let profile := insertTable profile "retention" (p.tables .retention)
  let profile := insertTable profile "hooks" (p.tables .hooks)
  let profile := p.insertSchedule profile
  insertTable profile "notify" (p.tables .notify)

/-- The nested settings of a profile. -/
def expandProfile (name : String) (flat : Table) : Except String Table :=
  (collect (keyWrites name) flat).map Parts.nested

end Config

end XBackup
