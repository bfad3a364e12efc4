/-
Settings written out as text of the second syntax.
-/
import XBackup.Config.Settings
import XBackup.Foundation.TomlText

namespace XBackup

namespace Config

open TomlText (Scalar Pair)

/-- Four hexadecimal digits. -/
def hex4 (n : Nat) : List Char :=
  [n / 4096, n / 256, n / 16, n].map fun d =>
    TomlText.hexDigits.getD (d % 16) '0'

def escChar (c : Char) : List Char :=
  if c = '"' then ['\\', '"']
  else if c = '\\' then ['\\', '\\']
  else if c = '\n' then ['\\', 'n']
  else if c = '\r' then ['\\', 'r']
  else if c = '\t' then ['\\', 't']
  else if c.toNat < 0x20 then '\\' :: 'u' :: hex4 c.toNat
  else [c]

def esc (s : String) : List Char :=
  '"' :: (s.toList.flatMap escChar ++ ['"'])

/-- What stands behind the sign of equality: `line_str`, `line_raw`. -/
def scalarText : Scalar → List Char
  | .string s => esc s
  | .integer n => (toString n).toList
  | .boolean b => (toString b).toList

def line (pair : Pair) : List Char :=
  pair.1.toList ++ " = ".toList ++ scalarText pair.2 ++ ['\n']

/-- Lines in their order; one without a value is not written. -/
abbrev Lines := List (String × Option Scalar)

def Lines.pairs (ls : Lines) : List Pair :=
  ls.filterMap fun l => l.2.map fun v => (l.1, v)

def Lines.text (ls : Lines) : List Char :=
  ls.pairs.flatMap line

def strLine (key : String) (s : Option String) : String × Option Scalar :=
  (key, s.map .string)

def numLine (key : String) (n : Option Nat) : String × Option Scalar :=
  (key, n.map fun m : Nat => .integer m)

/-- A line for a value that is not the default. -/
def unlessLine (key default s : String) : String × Option Scalar :=
  (key, if s ≠ default then some (.string s) else none)

def flagLine (key : String) (b : Bool) : String × Option Scalar :=
  (key, if b then some (.boolean true) else none)

/-- The bucket and the prefix of a compact destination. -/
def s3Compact (bucket : String) (pre : Option String) : String :=
  match pre.filter (· ≠ "") with
  | some p => "s3:" ++ bucket ++ "/" ++ p
  | none => "s3:" ++ bucket

def destCompact (d : DestinationConfig) : Option String :=
  match d.type with
  | some "local" => d.path.map fun p => "local:" ++ p
  | some "s3" => d.s3.bind fun s3 => s3.bucket.map fun b => s3Compact b s3.pre
  | _ => none

/-- The keys of S3 that a compact destination has no place for. -/
def s3Lines (s3 : S3Config) : Lines :=
  [strLine "s3_region" s3.region, strLine "s3_endpoint" s3.endpoint,
    strLine "s3_creds" s3.credentialsEnv]

def emitSingleDest (d : DestinationConfig) : Lines :=
  strLine "dest_name" d.name ::
    match d.type with
    | some "local" => [strLine "dest" (d.path.map fun p => "local:" ++ p)]
    | some "s3" =>
        match d.s3 with
        | some s3 =>
            strLine "dest" (some (match s3.bucket with
              | some b => s3Compact b s3.pre
              | none => "s3:")) :: s3Lines s3
        | none => []
    | _ => []

def ALGORITHM_NONE : String := "none"

def emitCompression (c : CompressionConfig) : Lines :=
  if c.algorithm = ALGORITHM_NONE ∧ c.level = 10 then
    [strLine "compress" (some ALGORITHM_NONE)]
  else if c.algorithm ≠ "zstd" ∨ c.level ≠ 10 then
    [strLine "compress" (some (c.algorithm ++ ":" ++ toString c.level))]
  else []

def emitEncryption (e : EncryptionConfig) : Lines :=
  if ¬ e.enabled then [("encrypt", some (.boolean false))]
  else if e.algorithm = "age" then
    [strLine "encrypt" (e.recipientFile.map fun rf => "age:" ++ rf)]
  else
    [strLine "encrypt_algorithm" (some e.algorithm),
      strLine "recipient_file" e.recipientFile]

namespace Profile

def isEndpointOnly (p : Profile) : Bool :=
  p.destinations.isEmpty && p.destination.type.isNone

/-- The lines of the table of a profile. -/
def emitProfileBody (p : Profile) : Lines :=
  [strLine "uri" p.source.uri, strLine "uri_env" p.source.uriEnv,
    flagLine "prefer_secondary" p.source.preferSecondary,
    numLine "connect_timeout_secs" p.source.connectTimeoutSecs,
    unlessLine "backup_type" "full" p.mode.backupType,
    unlessLine "output_mode" "progress" p.mode.output,
    ("precheck", if p.mode.precheck then none else some (.boolean false)),
    unlessLine "engine" "native" p.mode.engine] ++
  (if p.destinations.isEmpty && !p.isEndpointOnly then
    emitSingleDest p.destination
  else []) ++
  emitCompression p.features.compression ++
  emitEncryption p.features.encryption ++
  [unlessLine "incr_interval" "15m" p.features.incremental.interval,
    unlessLine "incr_on_gap" "promote_full" p.features.incremental.onGap,
    flagLine "pg_logical" p.features.incremental.pgLogical,
    flagLine "mysql_binlog" p.features.incremental.mysqlBinlog,
    numLine "keep_full" p.retention.keepFull,
    numLine "keep_days" p.retention.keepDays,
    numLine "keep_last" p.retention.keepLast]

end Profile

/-- The lines of one of several destinations. -/
def destinationLines (d : DestinationConfig) : Lines :=
  strLine "name" d.name ::
    match destCompact d with
    | some compact =>
        strLine "dest" (some compact) ::
          if d.type = some "s3" then (d.s3.map s3Lines).getD [] else []
    | none =>
        [strLine "type" d.type, strLine "path" d.path] ++
          (d.s3.map fun s3 => strLine "s3_bucket" s3.bucket ::
            strLine "s3_prefix" s3.pre :: s3Lines s3).getD []

def emitMultiDest (name : String) (dests : List DestinationConfig) : List Char :=
  dests.flatMap fun d =>
    "[[profile.".toList ++ name.toList ++ ".dest]]\n".toList ++
      (destinationLines d).text ++ ['\n']

def emitProfile (name : String) (p : Profile) : List Char :=
  "\n[profile.".toList ++ name.toList ++ "]\n".toList ++
    p.emitProfileBody.text ++
    if p.destinations.isEmpty then []
    else '\n' :: emitMultiDest name p.destinations

/-- `[output]`, where there is a language. -/
def emitOutput (output : Option OutputSection) : List Char :=
  match output.bind OutputSection.language with
  | some lang => "\n[output]\n".toList ++ line ("language", .string lang)
  | none => []

def toV2String (c : Settings) : String :=
  String.ofList
    (Lines.text [strLine "default_profile" c.defaultProfile] ++
      emitOutput c.output ++
      c.profiles.entries.flatMap fun entry => emitProfile entry.1 entry.2)

end Config

end XBackup
