/-
The forms of the console, and the command lines of the children that it makes
from them.
-/
import XBackup.Schedule.Fields
import XBackup.Web.ProfileName

namespace XBackup

namespace Web

open Schedule

/-- A number of 32 bits. -/
abbrev U32 := Fin (2 ^ 32)

def parseCount (text : List Char) : Option U32 :=
  (parseU32 text).bind fun n => if h : n < 2 ^ 32 then some ⟨n, h⟩ else none

/-- The decoded fields of a form in their order. -/
structure FormBody where
  fields : List (String × String)

namespace FormBody

def get (form : FormBody) (key : String) : Option String :=
  (form.fields.find? fun field => field.1 = key).map Prod.snd

/-- A box that is not checked is not sent. -/
def checked (form : FormBody) (key : String) : Bool :=
  (form.get key).any fun value => value ≠ ""

def nonEmpty (form : FormBody) (key : String) : Option String :=
  ((form.get key).map fun value => String.ofList (trim value.toList)).filter
    fun value => value ≠ ""

end FormBody

inductive JobCommand where
  | backup
  | restore
  | verify
  | prune
  | migrate
  | status
  | list
  | peek
  | doctor
deriving DecidableEq

namespace JobCommand

def verb : JobCommand → String
  | backup => "backup"
  | restore => "restore"
  | verify => "verify"
  | prune => "prune"
  | migrate => "migrate"
  | status => "status"
  | list => "list"
  | peek => "peek"
  | doctor => "doctor"

def isDestructive : JobCommand → Bool
  | restore | prune | migrate => true
  | _ => false

def auditAction (command : JobCommand) : String :=
  command.verb ++ ".run"

end JobCommand

inductive JobFlag where
  | dryRun
  | force
  | deep
  | chain
  | all
  | skipPrecheck
  | noHooks
  | noEncrypt
  | drop
  | nsDetail
  | asc
  | watch
deriving DecidableEq

def JobFlag.asArg : JobFlag → String
  | dryRun => "--dry-run"
  | force => "--force"
  | deep => "--deep"
  | chain => "--chain"
  | all => "--all"
  | skipPrecheck => "--skip-precheck"
  | noHooks => "--no-hooks"
  | noEncrypt => "--no-encrypt"
  | drop => "--drop"
  | nsDetail => "--ns-detail"
  | asc => "--asc"
  | watch => "--watch"

inductive JobCount where
  | keepFull
  | keepDays
  | keepLast
  | recoveryWindowDays
  | minRedundancy
  | limit
  | interval
  | count
deriving DecidableEq

def JobCount.asArg : JobCount → String
  | keepFull => "--keep-full"
  | keepDays => "--keep-days"
  | keepLast => "--keep-last"
  | recoveryWindowDays => "--recovery-window-days"
  | minRedundancy => "--min-redundancy"
  | limit => "--limit"
  | interval => "--interval"
  | count => "--count"

/-- A piece of a command line. -/
inductive Opt where
  | flag (arg : String)
  | valued (arg value : String)
deriving DecidableEq

namespace Opt

def arg : Opt → String
  | flag arg => arg
  | valued arg _ => arg

def value : Opt → Option String
  | flag _ => none
  | valued _ value => some value

def words : Opt → List String
  | flag arg => [arg]
  | valued arg value => [arg, value]

/-- Puts a piece in the place of the one with its name, or at the end. -/
def pushOnto (opt : Opt) : List Opt → List Opt
  | [] => [opt]
  | head :: rest =>
      if head.arg = opt.arg then opt :: rest else head :: pushOnto opt rest

end Opt

/-- The piece of a name, as the parser of the child finds it. -/
def pieceOf (arg : String) (opts : List Opt) : Option Opt :=
  opts.find? fun opt => opt.arg = arg

theorem pieceOf_pushOnto (arg : String) (opt : Opt) (opts : List Opt) :
    pieceOf arg (opt.pushOnto opts) =
      if opt.arg = arg then some opt else pieceOf arg opts := by
  induction opts with
  | nil => simp [pieceOf, Opt.pushOnto, List.find?_singleton]
  | cons head rest ih =>
      rw [Opt.pushOnto]
      by_cases hsame : head.arg = opt.arg
      · rw [if_pos hsame]
        by_cases harg : opt.arg = arg
        · rw [if_pos harg, pieceOf, List.find?_cons_of_pos (by simpa using harg)]
        · have hhead : head.arg ≠ arg := by rwa [hsame]
          rw [if_neg harg, pieceOf, pieceOf,
            List.find?_cons_of_neg (by simpa using harg),
            List.find?_cons_of_neg (by simpa using hhead)]
      · rw [if_neg hsame]
        by_cases hhead : head.arg = arg
        · have harg : opt.arg ≠ arg := by
            rintro rfl
            exact hsame hhead
          rw [if_neg harg, pieceOf, pieceOf,
            List.find?_cons_of_pos (by simpa using hhead),
            List.find?_cons_of_pos (by simpa using hhead)]
        · rw [pieceOf, List.find?_cons_of_neg (by simpa using hhead)]
          rw [pieceOf, List.find?_cons_of_neg (by simpa using hhead)]
          exact ih

section Values

def MAX_VALUE_LEN : Nat := 256

def isIdentifierChar (c : Char) : Bool := isProfileChar c

def isCollectionChar (c : Char) : Bool := isIdentifierChar c || c = '.'

def isDestinationChar (c : Char) : Bool := isIdentifierChar c || c = '#'

def isHexDigit (c : Char) : Bool :=
  c.isDigit || ('a' ≤ c && c ≤ 'f') || ('A' ≤ c && c ≤ 'F')

def isBackupIdChar (c : Char) : Bool := isHexDigit c || c = '-'

def isTimestampChar (c : Char) : Bool :=
  c.isDigit || c ∈ ['-', ':', '.', '+', 'T', 'Z', 't', 'z']

/-- The first character is of a kind. -/
def ensureStart (raw label : String) (fits : Char → Bool) (told : String) :
    Except String Unit :=
  if fits ((raw.toList.head?).getD (Char.ofNat 0)) then .ok ()
  else .error (label ++ " '" ++ raw ++ "' does not start with " ++ told)

def validateDbName (raw : String) : Except String String := do
  ensureCommon raw "database name" MAX_VALUE_LEN
  ensureCharset raw "database name" isIdentifierChar CHARSET_ALNUM
  ensureAlnumStart raw "database name"
  .ok raw

def validateCollectionName (raw : String) : Except String String := do
  ensureCommon raw "collection name" MAX_VALUE_LEN
  ensureCharset raw "collection name" isCollectionChar
    "letters, digits, `_`, `-`, `.`"
  ensureAlnumStart raw "collection name"
  .ok raw

/-- The database stands before the first dot. -/
def splitNamespace (raw : String) : Except String (String × String) :=
  match splitOnceAt '.' raw.toList with
  | some (db, coll) => .ok (String.ofList db, String.ofList coll)
  | none => .error ("namespace '" ++ raw ++ "' has no `.` — write it as " ++
      "`<db>.<collection>`.")

def validateNamespace (raw : String) : Except String String := do
  ensureCommon raw "namespace" MAX_VALUE_LEN
  let (db, coll) ← splitNamespace raw
  let _ ← validateDbName db
  let _ ← validateCollectionName coll
  .ok raw

def validateBackupId (raw : String) : Except String String := do
  ensureCommon raw "backup ID" MAX_VALUE_LEN
  ensureCharset raw "backup ID" isBackupIdChar "hex digits and `-`"
  ensureStart raw "backup ID" isHexDigit
    "a hex digit — a backup ID is a UUID."
  .ok raw

def validateDestinationRef (raw : String) : Except String String := do
  ensureCommon raw "destination name" MAX_VALUE_LEN
  ensureCharset raw "destination name" isDestinationChar
    "letters, digits, `_`, `-`, `#`"
  ensureAlnumStart raw "destination name"
  .ok raw

/-- An RFC 3339 time, by the parser `parse`. -/
def ensureRfc3339 (parse : String → Except String Int) (raw : String) :
    Except String Unit :=
  match parse raw with
  | .ok _ => .ok ()
  | .error err => .error ("timestamp '" ++ raw ++ "' is not RFC3339 (" ++
      err ++ ") — write it like `2026-07-25T13:00:00Z`.")

def validateTimestamp (parse : String → Except String Int) (raw : String) :
    Except String String := do
  ensureCommon raw "timestamp" MAX_VALUE_LEN
  ensureCharset raw "timestamp" isTimestampChar
    "digits and `-` `:` `.` `+` `T` `Z`"
  ensureStart raw "timestamp" Char.isDigit
    "a digit — RFC3339 begins with a 4-digit year."
  ensureRfc3339 parse raw
  .ok raw

end Values

structure JobSpec where
  command : JobCommand
  profile : Option ProfileName
  opts : List Opt

namespace JobSpec

def new (command : JobCommand) : JobSpec := ⟨command, none, []⟩

def push (spec : JobSpec) (opt : Opt) : JobSpec :=
  { spec with opts := opt.pushOnto spec.opts }

def withProfile (spec : JobSpec) (profile : ProfileName) : JobSpec :=
  { spec.push (.valued "--profile" profile.asStr) with profile := some profile }

def withTargetProfile (spec : JobSpec) (profile : ProfileName) : JobSpec :=
  spec.push (.valued "--target-profile" profile.asStr)

def withFlag (spec : JobSpec) (flag : JobFlag) : JobSpec :=
  spec.push (.flag flag.asArg)

def withCount (spec : JobSpec) (opt : JobCount) (value : U32) : JobSpec :=
  spec.push (.valued opt.asArg (toString value.val))

/-- An option with its value, once the value is validated. -/
def withChecked (spec : JobSpec) (arg : String)
    (validate : String → Except String String) (raw : String) :
    Except String JobSpec := do
  let value ← validate raw
  .ok (spec.push (.valued arg value))

def withBackupId (spec : JobSpec) (raw : String) : Except String JobSpec :=
  spec.withChecked "--id" validateBackupId raw

def withAt (parse : String → Except String Int) (spec : JobSpec)
    (raw : String) : Except String JobSpec :=
  spec.withChecked "--at" (validateTimestamp parse) raw

def withOnly (spec : JobSpec) (raw : String) : Except String JobSpec :=
  spec.withChecked "--only" validateNamespace raw

def withFrom (spec : JobSpec) (raw : String) : Except String JobSpec :=
  spec.withChecked "--from" validateDestinationRef raw

def hasDryRun (spec : JobSpec) : Bool :=
  spec.opts.any fun opt => opt = .flag JobFlag.dryRun.asArg

def toArgv (spec : JobSpec) : List String :=
  spec.command.verb :: spec.opts.flatMap Opt.words ++ ["--json"]

/-- Whether the child finds a flag on its command line. -/
def isOn (spec : JobSpec) (flag : JobFlag) : Bool :=
  (pieceOf flag.asArg spec.opts).isSome

/-- The value that the child finds behind an option. -/
def valueOf (spec : JobSpec) (arg : String) : Option String :=
  (pieceOf arg spec.opts).bind Opt.value

def countOf (spec : JobSpec) (opt : JobCount) : Option Nat :=
  (spec.valueOf opt.asArg).bind fun value => parseU32 value.toList

end JobSpec

/-- The child reads back the numbers that the console writes. -/
theorem parseU32_toString (value : U32) :
    parseU32 (toString value.val).toList = some value.val := by
  have hdigits : (toString value.val).toList = Nat.toDigits 10 value.val := by
    rw [Nat.toString_eq_repr, Nat.repr, String.toList_ofList]
  have hplus : (Nat.toDigits 10 value.val).head? ≠ some '+' := by
    intro hhead
    have hdigit := Nat.isDigit_of_mem_toDigits (by decide) (by decide)
      (List.mem_of_mem_head? hhead)
    exact absurd hdigit (by decide)
  rw [hdigits, parseU32, if_neg hplus, Nat.ofDigitChars_toDigits (by decide)
    (by decide)]
  rw [if_pos]
  refine ⟨Nat.toDigits_ne_nil, ?_, value.isLt⟩
  rw [List.all_eq_true]
  intro c hc
  exact Nat.isDigit_of_mem_toDigits (by decide) (by decide) hc

namespace JobSpec

variable (spec : JobSpec) (flag other : JobFlag) (opt wanted : JobCount)

theorem isOn_withFlag :
    (spec.withFlag flag).isOn other =
      (decide (flag = other) || spec.isOn other) := by
  have hargs : flag.asArg = other.asArg ↔ flag = other := by
    cases flag <;> cases other <;> decide
  rw [isOn, withFlag, push, pieceOf_pushOnto]
  simp only [Opt.arg, hargs]
  split_ifs with hsame
  · simp [hsame]
  · simp [hsame, isOn]

theorem isOn_withCount (value : U32) :
    (spec.withCount opt value).isOn flag = spec.isOn flag := by
  have hargs : opt.asArg ≠ flag.asArg := by
    cases opt <;> cases flag <;> decide
  rw [isOn, withCount, push, pieceOf_pushOnto]
  exact congrArg Option.isSome (if_neg hargs)

theorem countOf_withFlag :
    (spec.withFlag flag).countOf opt = spec.countOf opt := by
  have hargs : (Opt.flag flag.asArg).arg ≠ opt.asArg := by
    cases opt <;> cases flag <;> decide
  rw [countOf, valueOf, withFlag, push, pieceOf_pushOnto, if_neg hargs]
  rfl

theorem countOf_withCount (value : U32) :
    (spec.withCount opt value).countOf wanted =
      if opt = wanted then some value.val else spec.countOf wanted := by
  have hargs : opt.asArg = wanted.asArg ↔ opt = wanted := by
    cases opt <;> cases wanted <;> decide
  rw [countOf, valueOf, withCount, push, pieceOf_pushOnto]
  simp only [Opt.arg, hargs]
  split_ifs with hsame
  · exact parseU32_toString value
  · rfl

variable (profile : ProfileName) (command : JobCommand)

theorem pieceOf_start {arg : String} (harg : "--profile" ≠ arg) :
    pieceOf arg ((new command).withProfile profile).opts = none :=
  List.find?_cons_of_neg fun heq => harg (of_decide_eq_true heq)

theorem isOn_start :
    ((new command).withProfile profile).isOn flag = false := by
  rw [isOn, pieceOf_start]
  · rfl
  · cases flag <;> decide

theorem countOf_start :
    ((new command).withProfile profile).countOf opt = none := by
  rw [countOf, valueOf, pieceOf_start]
  · rfl
  · cases opt <;> decide

end JobSpec

end Web

end XBackup
