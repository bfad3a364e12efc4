/-
The manifest as it is stored beside the data: what it says about the stored
bytes, the text it is written as and the sidecar with the checksum of that text.
-/
import XBackup.Foundation.Utf8
import XBackup.Pipeline.DriverPitr
import XBackup.Pipeline.PruneRun
import XBackup.Schedule.Fields

namespace XBackup

structure CompressionMeta where
  algorithm : String
  level : Int
deriving DecidableEq, Repr

structure EncryptionMeta where
  algorithm : String
  keyId : Option String
deriving DecidableEq, Repr

/-- The manifest with what it records of the stored bytes. -/
structure ArtifactManifest extends BackupManifest where
  originalSizeBytes : Nat
  storedSizeBytes : Nat
  compression : Option CompressionMeta
  encryption : Option EncryptionMeta
  checksumSha256 : String
deriving DecidableEq, Repr

/-- The JSON and SHA-256 libraries.  A digest is given as its hex text. -/
structure ManifestLib where
  toVecPretty : ArtifactManifest → List UInt8
  fromSlice : List UInt8 → Except String ArtifactManifest
  sha256 : List UInt8 → String

def isHexDigit (c : Char) : Bool :=
  c ∈ ['0', '1', '2', '3', '4', '5', '6', '7', '8', '9', 'a', 'b', 'c', 'd',
    'e', 'f']

def EMPTY_SHA256 : String :=
  "e3b0c44298fc1c149afbf4c8996fb92427ae41e4649b934ca495991b7852b855"

/-- A digest is 64 lower-case hex digits. -/
structure ManifestLib.Sound (lib : ManifestLib) : Prop where
  length : ∀ bytes, (lib.sha256 bytes).length = 64
  digits : ∀ bytes, ∀ c ∈ (lib.sha256 bytes).toList, isHexDigit c = true
  empty : lib.sha256 [] = EMPTY_SHA256

/-- The manifest is read back as it is written. -/
def ManifestLib.ReadsBack (lib : ManifestLib) (manifest : ArtifactManifest) :
    Prop :=
  lib.fromSlice (lib.toVecPretty manifest) = .ok manifest

/-- The sidecar has the form that `sha256sum` reads. -/
def sidecarChecksum (lib : ManifestLib) (manifestBytes : List UInt8) : String :=
  lib.sha256 manifestBytes ++ "  " ++ MANIFEST_FILE ++ "\n"

/-- The digest is the first word of the sidecar. -/
def parseSidecar (sidecar : String) : Option String :=
  (Schedule.splitWhitespace sidecar.toList).head?.map String.ofList

section Hex

variable {c : Char}

theorem isWhitespace_of_isHexDigit (hc : isHexDigit c = true) :
    Schedule.isWhitespace c = false := by
  have hall : ['0', '1', '2', '3', '4', '5', '6', '7', '8', '9', 'a', 'b', 'c',
      'd', 'e', 'f'].all (fun c => !Schedule.isWhitespace c) = true := rfl
  rw [isHexDigit, decide_eq_true_eq] at hc
  simpa using List.all_eq_true.mp hall c hc

theorem toLower_of_isHexDigit (hc : isHexDigit c = true) : c.toLower = c := by
  have hall : ['0', '1', '2', '3', '4', '5', '6', '7', '8', '9', 'a', 'b', 'c',
      'd', 'e', 'f'].all (fun c => decide (c.toLower = c)) = true := rfl
  rw [isHexDigit, decide_eq_true_eq] at hc
  exact of_decide_eq_true (List.all_eq_true.mp hall c hc)

end Hex

variable {lib : ManifestLib}

theorem ManifestLib.Sound.word (hlib : lib.Sound) (bytes : List UInt8) :
    Schedule.Word (lib.sha256 bytes).toList := by
  refine ⟨fun hnil => ?_, fun c hc =>
    isWhitespace_of_isHexDigit (hlib.digits bytes c hc)⟩
  have hlength := hlib.length bytes
  rw [← String.length_toList, hnil] at hlength
  cases hlength

/-- Whatever follows the digest, it is found again. -/
theorem parseSidecar_sidecarChecksum (hlib : lib.Sound)
    (manifestBytes : List UInt8) :
    parseSidecar (sidecarChecksum lib manifestBytes) =
      some (lib.sha256 manifestBytes) := by
  have hblank : ("  " ++ (MANIFEST_FILE ++ "\n")).toList =
      ' ' :: (" " ++ (MANIFEST_FILE ++ "\n")).toList := rfl
  rw [parseSidecar, sidecarChecksum, String.append_assoc, String.append_assoc,
    String.toList_append, hblank,
    Schedule.splitWhitespace_append_cons _ _ (by decide),
    Schedule.splitWhitespace_word (hlib.word manifestBytes)]
  simp

/-- Digests that differ in the case of letters at most are the same. -/
theorem ManifestLib.Sound.sha256_inj_case (hlib : lib.Sound) {text : String}
    {left right : List UInt8}
    (hleft : eqIgnoreAsciiCase text (lib.sha256 left) = true)
    (hright : eqIgnoreAsciiCase text (lib.sha256 right) = true) :
    lib.sha256 left = lib.sha256 right := by
  have hlower : ∀ bytes, (lib.sha256 bytes).toList.map Char.toLower =
      (lib.sha256 bytes).toList := fun bytes =>
    (List.map_congr_left fun c hc =>
      toLower_of_isHexDigit (hlib.digits bytes c hc)).trans (List.map_id' _)
  rw [eqIgnoreAsciiCase, decide_eq_true_eq, hlower] at hleft hright
  exact String.toList_inj.mp (hleft.symm.trans hright)

theorem eqIgnoreAsciiCase_self (text : String) :
    eqIgnoreAsciiCase text text = true :=
  decide_eq_true rfl

end XBackup
