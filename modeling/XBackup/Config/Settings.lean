/-
The settings of a config, and how they are read from its tables.
-/
import XBackup.Config.Expand

namespace XBackup

namespace Config

open Fallible

structure S3Config where
  endpoint : Option String
  bucket : Option String
  pre : Option String
  region : Option String
  credentialsEnv : Option String
deriving DecidableEq

structure DestinationConfig where
  name : Option String
  type : Option String
  path : Option String
  s3 : Option S3Config
deriving DecidableEq

structure SourceConfig where
  uri : Option String
  uriEnv : Option String
  preferSecondary : Bool
  readUri : Option String
  readUriEnv : Option String
  connectTimeoutSecs : Option Nat
deriving DecidableEq

structure ModeConfig where
  backupType : String
  output : String
  precheck : Bool
  engine : String
deriving DecidableEq

structure CompressionConfig where
  algorithm : String
  level : Int
deriving DecidableEq

structure EncryptionConfig where
  enabled : Bool
  algorithm : String
  recipientFile : Option String
deriving DecidableEq

structure IncrementalConfig where
  interval : String
  onGap : String
  pgLogical : Bool
  mysqlBinlog : Bool
deriving DecidableEq

structure FeaturesConfig where
  compression : CompressionConfig
  encryption : EncryptionConfig
  incremental : IncrementalConfig
deriving DecidableEq

structure RetentionConfig where
  keepFull : Option Nat
  keepDays : Option Nat
  keepLast : Option Nat
  recoveryWindowDays : Option Nat
  minRedundancy : Option Nat
deriving DecidableEq

structure HooksConfig where
  preBackup : Option String
  postBackup : Option String
  preRestore : Option String
  postRestore : Option String
  prePrune : Option String
  postPrune : Option String
  onError : Option String
  hookTimeoutSecs : Option Nat
deriving DecidableEq

structure NotifyConfig where
  webhookUrlEnv : Option String
deriving DecidableEq

structure Profile where
  schedule : Option String
  notify : NotifyConfig
  mode : ModeConfig
  source : SourceConfig
  destination : DestinationConfig
  destinations : List DestinationConfig
  features : FeaturesConfig
  retention : RetentionConfig
  hooks : HooksConfig
deriving DecidableEq

structure OutputSection where
  language : Option String
deriving DecidableEq

/-- The settings of a config file. -/
structure Settings where
  defaultProfile : Option String
  profiles : SortedMap.Map String Profile
  output : Option OutputSection

section Read

variable {α : Type}

/-- What a value of another type than that of its setting is refused with. -/
def mistyped (key : String) : String :=
  "config.toml 파싱 실패: " ++ key

/-- A setting of a table: its default where it is not there. -/
def field (read : Value → Option α) (default : α) (t : Table) (key : String) :
    Except String α :=
  match t.get key with
  | none => .ok default
  | some v =>
      match read v with
      | some a => .ok a
      | none => .error (mistyped key)

def Value.asBool : Value → Option Bool
  | .boolean b => some b
  | _ => none

/-- An integer from a range. -/
def Value.asIntIn (low high : Int) : Value → Option Int
  | .integer n => if low ≤ n.toInt ∧ n.toInt < high then some n.toInt else none
  | _ => none

def Value.asNatBelow (bound : Int) (v : Value) : Option Nat :=
  (v.asIntIn 0 bound).map Int.toNat

def optString (t : Table) (key : String) : Except String (Option String) :=
  field (fun v => v.asStr.map some) none t key

def optU64 (t : Table) (key : String) : Except String (Option Nat) :=
  field (fun v => (v.asNatBelow (2 ^ 64)).map some) none t key

def optU32 (t : Table) (key : String) : Except String (Option Nat) :=
  field (fun v => (v.asNatBelow (2 ^ 32)).map some) none t key

def boolField (default : Bool) (t : Table) (key : String) : Except String Bool :=
  field Value.asBool default t key

def stringField (default : String) (t : Table) (key : String) :
    Except String String :=
  field Value.asStr default t key

/-- The settings of a table in a table. -/
def sub (read : Table → Except String α) (t : Table) (key : String) :
    Except String α :=
  match t.get key with
  | none => read SortedMap.Map.empty
  | some v =>
      match v.asTable with
      | some inner => read inner
      | none => .error (mistyped key)

def optSub (read : Table → Except String α) (t : Table) (key : String) :
    Except String (Option α) :=
  match t.get key with
  | none => .ok none
  | some _ => (sub read t key).map some

end Read

def S3Config.read (t : Table) : Except String S3Config := do
  let endpoint ← optString t "endpoint"
  let bucket ← optString t "bucket"
  let pre ← optString t "prefix"
  let region ← optString t "region"
  let credentialsEnv ← optString t "credentials_env"
  return ⟨endpoint, bucket, pre, region, credentialsEnv⟩

def DestinationConfig.read (t : Table) : Except String DestinationConfig := do
  let name ← optString t "name"
  let type ← optString t "type"
  let path ← optString t "path"
  let s3 ← optSub S3Config.read t "s3"
  return ⟨name, type, path, s3⟩

def SourceConfig.read (t : Table) : Except String SourceConfig := do
  let uri ← optString t "uri"
  let uriEnv ← optString t "uri_env"
  let preferSecondary ← boolField false t "prefer_secondary"
  let readUri ← optString t "read_uri"
  let readUriEnv ← optString t "read_uri_env"
  let connectTimeoutSecs ← optU64 t "connect_timeout_secs"
  return ⟨uri, uriEnv, preferSecondary, readUri, readUriEnv,
    connectTimeoutSecs⟩

def ModeConfig.read (t : Table) : Except String ModeConfig := do
  let backupType ← stringField "full" t "backup_type"
  let output ← stringField "progress" t "output"
  let precheck ← boolField true t "precheck"
  let engine ← stringField "native" t "engine"
  return ⟨backupType, output, precheck, engine⟩

def CompressionConfig.read (t : Table) : Except String CompressionConfig := do
  let algorithm ← stringField "zstd" t "algorithm"
  let level ← field (Value.asIntIn (-2 ^ 31) (2 ^ 31)) 10 t "level"
  return ⟨algorithm, level⟩

def EncryptionConfig.read (t : Table) : Except String EncryptionConfig := do
  let enabled ← boolField true t "enabled"
  let algorithm ← stringField "age" t "algorithm"
  let recipientFile ← optString t "recipient_file"
  return ⟨enabled, algorithm, recipientFile⟩

def IncrementalConfig.read (t : Table) : Except String IncrementalConfig := do
  let interval ← stringField "15m" t "interval"
  let onGap ← stringField "promote_full" t "on_gap"
  let pgLogical ← boolField false t "pg_logical"
  let mysqlBinlog ← boolField false t "mysql_binlog"
  return ⟨interval, onGap, pgLogical, mysqlBinlog⟩

def FeaturesConfig.read (t : Table) : Except String FeaturesConfig := do
  let compression ← sub CompressionConfig.read t "compression"
  let encryption ← sub EncryptionConfig.read t "encryption"
  let incremental ← sub IncrementalConfig.read t "incremental"
  return ⟨compression, encryption, incremental⟩

def RetentionConfig.read (t : Table) : Except String RetentionConfig := do
  let keepFull ← optU32 t "keep_full"
  let keepDays ← optU32 t "keep_days"
  let keepLast ← optU32 t "keep_last"
  let recoveryWindowDays ← optU32 t "recovery_window_days"
  let minRedundancy ← optU32 t "min_redundancy"
  return ⟨keepFull, keepDays, keepLast, recoveryWindowDays, minRedundancy⟩

def HooksConfig.read (t : Table) : Except String HooksConfig := do
  let preBackup ← optString t "pre_backup"
  let postBackup ← optString t "post_backup"
  let preRestore ← optString t "pre_restore"
  let postRestore ← optString t "post_restore"
  let prePrune ← optString t "pre_prune"
  let postPrune ← optString t "post_prune"
  let onError ← optString t "on_error"
  let hookTimeoutSecs ← optU64 t "hook_timeout_secs"
  return ⟨preBackup, postBackup, preRestore, postRestore, prePrune, postPrune,
    onError, hookTimeoutSecs⟩

def NotifyConfig.read (t : Table) : Except String NotifyConfig := do
  let webhookUrlEnv ← optString t "webhook_url_env"
  return ⟨webhookUrlEnv⟩

def OutputSection.read (t : Table) : Except String OutputSection := do
  let language ← optString t "language"
  return ⟨language⟩

def readDestination (v : Value) : Except String DestinationConfig :=
  match v.asTable with
  | some t => DestinationConfig.read t
  | none => .error (mistyped "destinations")

def readDestinations (t : Table) : Except String (List DestinationConfig) :=
  match t.get "destinations" with
  | none => .ok []
  | some (.array items) => items.mapM readDestination
  | some _ => .error (mistyped "destinations")

def Profile.read (t : Table) : Except String Profile := do
  let schedule ← optString t "schedule"
  let notify ← sub NotifyConfig.read t "notify"
  let mode ← sub ModeConfig.read t "mode"
  let source ← sub SourceConfig.read t "source"
  let destination ← sub DestinationConfig.read t "destination"
  let destinations ← readDestinations t
  let features ← sub FeaturesConfig.read t "features"
  let retention ← sub RetentionConfig.read t "retention"
  let hooks ← sub HooksConfig.read t "hooks"
  return ⟨schedule, notify, mode, source, destination, destinations, features,
    retention, hooks⟩

/-- Each entry of a table, read into a map of the same keys. -/
def readEntry (read : Table → Except String Profile)
    (entry : String × Value) : Except String (String × Profile) :=
  match entry.2.asTable with
  | some t => (read t).map fun p => (entry.1, p)
  | none => .error (mistyped entry.1)

def readProfiles (t : Table) :
    Except String (SortedMap.Map String Profile) :=
  (t.entries.mapM (readEntry Profile.read)).map SortedMap.Map.ofEntries

def Settings.read (t : Table) : Except String Settings := do
  let defaultProfile ← optString t "default_profile"
  let profiles ← sub readProfiles t "profiles"
  let output ← optSub OutputSection.read t "output"
  return ⟨defaultProfile, profiles, output⟩

def takeTable (t : Table) (key : String) : Except String Table :=
  match t.get key with
  | none => .ok SortedMap.Map.empty
  | some v =>
      match v.asTable with
      | some inner => .ok inner
      | none => .error ("'" ++ key ++ "'는 테이블이어야 합니다")

/-- A profile of the second syntax, written out. -/
def normalizeProfile (r : Root) (entry : String × Value) :
    Except String (String × Value) :=
  match entry.2.asTable with
  | none => .error ("[profile." ++ entry.1 ++ "]가 테이블이 아닙니다")
  | some prof => do
      let flat ← r.resolveFlat entry.1 prof [entry.1]
      let nested ← expandProfile entry.1 flat
      return (entry.1, .table nested.entries)

/-- A config of the second syntax is written out as one of the first. -/
def normalizeV2 (table : Table) : Except String Table :=
  let hasV1 := (table.get "profiles").isSome
  let hasV2 := (table.get "profile").isSome ∨ (table.get "base").isSome ∨
    (table.get "defaults").isSome
  if hasV1 ∧ hasV2 then .error ("config에 v1(profiles)과 " ++
    "v2(profile/defaults/base)가 섞여 있습니다 — 한 형식만 쓰세요")
  else if ¬ hasV2 then .ok table
  else do
    let defaults ← takeTable table "defaults"
    let bases ← takeTable table "base"
    let profilesIn ← takeTable table "profile"
    if profilesIn.entries.isEmpty then
      .error "v2 config에 [profile.<name>] 프로파일이 하나도 없습니다"
    else do
      let profilesOut ←
        profilesIn.entries.mapM (normalizeProfile ⟨defaults, bases, profilesIn⟩)
      let rest := ((table.erase "defaults").erase "base").erase "profile"
      return rest.insert "profiles"
        (.table (SortedMap.Map.ofEntries profilesOut).entries)

/-- A config from its text; `fromStr` is the TOML crate. -/
def fromTomlStr (fromStr : String → Except String Value) (s : String) :
    Except String Settings :=
  match fromStr s with
  | .error e => .error ("config.toml 파싱 실패: " ++ e)
  | .ok value =>
      match value.asTable with
      | none => .error (mistyped "config")
      | some table => do
          let table ← normalizeV2 table
          Settings.read table

end Config

end XBackup
