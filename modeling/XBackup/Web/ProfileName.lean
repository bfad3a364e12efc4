/-
The names of profiles that the console takes.
-/
import Mathlib

namespace XBackup

namespace Web

def MAX_PROFILE_NAME_LEN : Nat := 64

/-- What the messages call a profile name. -/
def PROFILE : String := "profile name"

def CHARSET_ALNUM : String := "letters, digits, `_`, `-`"

/-- The code point, and the character if it can be seen. -/
def describeChar (c : Char) : String :=
  let digits := (Nat.toDigits 16 c.toNat).map Char.toUpper
  let code := "U+" ++
    String.ofList (List.replicate (4 - digits.length) '0' ++ digits)
  if 33 ≤ c.toNat ∧ c.toNat ≤ 126 then
    "'" ++ c.toString ++ "'(" ++ code ++ ")"
  else code

def ensureCommon (raw label : String) (maxLen : Nat) : Except String Unit :=
  if raw = "" then .error (label ++ " is empty.")
  else if maxLen < raw.utf8ByteSize then
    .error (label ++ " is too long (" ++ toString raw.utf8ByteSize ++
      " bytes) — it must be at most " ++ toString maxLen ++ " bytes.")
  else if raw.toList.contains (Char.ofNat 0) then
    .error (label ++ " contains a null byte — it cannot be passed as a " ++
      "process argument.")
  else if raw.toList.head? = some '-' then
    .error (label ++ " '" ++ raw ++ "' starts with `-` — rejected because " ++
      "the value could be read as a flag.")
  else .ok ()

def ensureCharset (raw label : String) (allowed : Char → Bool)
    (charset : String) : Except String Unit :=
  match raw.toList.find? (!allowed ·) with
  | some bad => .error (label ++ " '" ++ raw ++
      "' contains a disallowed character " ++ describeChar bad ++ " — only " ++
      charset ++ " are allowed (ASCII).")
  | none => .ok ()

def ensureAlnumStart (raw label : String) : Except String Unit :=
  if ((raw.toList.head?).getD (Char.ofNat 0)).isAlphanum then .ok ()
  else .error (label ++ " '" ++ raw ++
    "' does not start with a letter or digit — it must, so that names " ++
    "cannot be read as a path or an option.")

def isProfileChar (c : Char) : Bool :=
  c.isAlphanum || c = '_' || c = '-'

def checkProfile (raw : String) : Except String Unit := do
  ensureCommon raw PROFILE MAX_PROFILE_NAME_LEN
  ensureCharset raw PROFILE isProfileChar CHARSET_ALNUM
  ensureAlnumStart raw PROFILE

structure ProfileName where
  asStr : String
  checked : checkProfile asStr = .ok ()

def ProfileName.parse (raw : String) : Except String ProfileName :=
  match h : checkProfile raw with
  | .ok () => .ok ⟨raw, h⟩
  | .error message => .error message

theorem ProfileName.parse_asStr (name : ProfileName) :
    ProfileName.parse name.asStr = .ok name := by
  rw [ProfileName.parse]
  split
  next => rfl
  next message hmessage =>
    rw [name.checked] at hmessage
    cases hmessage

end Web

end XBackup
