/-
The verify command's check of one backup: the manifest against its sidecar, the
stored bytes against the manifest and, if asked, whether they decode to the end.
No key is needed for the first two.
-/
import XBackup.Foundation.Fallible
import XBackup.Manifest.Artifact

namespace XBackup

open Bytes Fallible

/-- A destination at rest: what downloading a path to its end gives. -/
abbrev Download := String → Except XBackupError (List UInt8)

/-- The decoders of the stages, which find their keys in the environment. -/
structure Decoders where
  decrypt : EncryptionMeta → Except String (List UInt8 → Except String (List UInt8))
  decompress : String → Option (List UInt8 → Except String (List UInt8))

/-- A missing key is an error of the configuration. -/
inductive VerifyError where
  | storage (err : XBackupError)
  | config (message : String)
deriving DecidableEq, Repr

structure VerifyReport where
  backupId : String
  manifestSidecarOk : Bool
  dataChecksumOk : Bool
  deepDecodeOk : Option Bool
  warnings : List String
  emptySlice : Bool
deriving DecidableEq, Repr

def VerifyReport.isOk (report : VerifyReport) : Bool :=
  report.manifestSidecarOk && report.dataChecksumOk &&
    report.deepDecodeOk.getD true

/-- Decrypt first, then decompress. -/
def reverseStackFor (decoders : Decoders) (manifest : ArtifactManifest) :
    Except VerifyError (List (List UInt8 → Except String (List UInt8))) := do
  let decrypt ←
    match manifest.encryption with
    | none => .ok []
    | some encMeta =>
        match decoders.decrypt encMeta with
        | .ok stage => .ok [stage]
        | .error err => .error (.config err)
  match manifest.compression with
  | none => .ok decrypt
  | some compMeta =>
      match decoders.decompress compMeta.algorithm with
      | some stage => .ok (decrypt ++ [stage])
      | none => .error (.storage (.failure
          ("unknown compression algorithm: '" ++ compMeta.algorithm ++
            "' (supported: zstd, gzip) — cannot restore")))

def applyStack (stages : List (List UInt8 → Except String (List UInt8)))
    (raw : List UInt8) : Except String (List UInt8) :=
  stages.foldlM (fun bytes stage => stage bytes) raw

/-- `ManifestStore::read` -/
def readManifest (lib : ManifestLib) (read : Download) (backupId : String) :
    Except XBackupError ArtifactManifest := do
  let bytes ← read (manifestPath backupId)
  match lib.fromSlice bytes with
  | .ok manifest => .ok manifest
  | .error err => .error (.failure
      ("failed to parse the manifest (" ++ backupId ++ "): " ++ err))

/-- A sidecar that is missing or says nothing does not match. -/
def verifyManifestSidecar (lib : ManifestLib) (read : Download)
    (backupId : String) : Except XBackupError Bool := do
  let manifestBytes ← read (manifestPath backupId)
  match read (manifestShaPath backupId) with
  | .error _ => .ok false
  | .ok sidecarRaw =>
      match parseSidecar (fromUtf8Lossy sidecarRaw),
        parseSidecar (sidecarChecksum lib manifestBytes) with
      | some recorded, some expected => .ok (eqIgnoreAsciiCase recorded expected)
      | _, _ => .ok false

def verifyDataChecksum (lib : ManifestLib) (read : Download) (backupId : String)
    (manifest : ArtifactManifest) (emptySlice : Bool) :
    Except XBackupError Bool :=
  match read (dataPath backupId) with
  | .ok bytes =>
      .ok (eqIgnoreAsciiCase (lib.sha256 bytes) manifest.checksumSha256)
  | .error err =>
      if emptySlice then
        .ok (eqIgnoreAsciiCase manifest.checksumSha256 EMPTY_SHA256)
      else
        .error (.failure ("failed to read data.bin (" ++ backupId ++ "): " ++
          err.message ++ " — the artifact is missing or unreachable"))

def verifyDeepDecode (decoders : Decoders) (read : Download) (backupId : String)
    (manifest : ArtifactManifest) (emptySlice : Bool) :
    Except VerifyError Bool :=
  if emptySlice && !(read (dataPath backupId)).isOk then .ok true
  else do
    let stages ← reverseStackFor decoders manifest
    match read (dataPath backupId) with
    | .error err => .error (.storage (.failure
        ("failed to read data.bin (" ++ backupId ++ "): " ++ err.message)))
    | .ok raw =>
        match applyStack stages raw with
        | .ok _ => .ok true
        | .error err => .error (.storage (.failure
            ("deep verification failed (" ++ backupId ++
              "): error while decrypting/decompressing — " ++ err ++
              " (wrong key or corrupt artifact)")))

def incompleteWarning (backupId : String) : String :=
  "백업 '" ++ backupId ++
    "'이 incomplete 상태입니다 — 복구·증분 base로 사용하지 마세요"

def require (holds : Bool) (message : String) : Except VerifyError Unit :=
  if holds then .ok () else .error (.storage (.failure message))

def verifyBackup (lib : ManifestLib) (decoders : Decoders) (read : Download)
    (backupId : String) (deep : Bool) : Except VerifyError VerifyReport := do
  let manifest ← (readManifest lib read backupId).mapError fun err =>
    .storage (.failure
      ("failed to load the manifest (" ++ backupId ++ "): " ++ err.message))
  let manifestSidecarOk ←
    (verifyManifestSidecar lib read backupId).mapError .storage
  require manifestSidecarOk ("manifest self-integrity check failed (" ++
    backupId ++ "): manifest.json does not match its sidecar checksum " ++
    "(tampered or corrupt)")
  let emptySlice := decide (manifest.oplogCount = some 0)
  let dataChecksumOk ←
    (verifyDataChecksum lib read backupId manifest emptySlice).mapError .storage
  require dataChecksumOk ("data.bin checksum mismatch (" ++ backupId ++
    "): the stored bytes differ from manifest.checksum_sha256 " ++
    "(tampered or corrupt)")
  let deepDecodeOk ← (if deep then
      some <$> verifyDeepDecode decoders read backupId manifest emptySlice
    else .ok none)
  .ok
    { backupId, manifestSidecarOk, dataChecksumOk, deepDecodeOk
      warnings :=
        if manifest.status = .incomplete then [incompleteWarning backupId]
        else []
      emptySlice }

/-- The stored bytes a backup is checked by: those of an empty slice may be
missing. -/
def verifiedData (read : Download) (backupId : String)
    (manifest : ArtifactManifest) : Option (List UInt8) :=
  match read (dataPath backupId) with
  | .ok bytes => some bytes
  | .error _ => if manifest.oplogCount = some 0 then some [] else none

/-- The manifest is the one its sidecar tells of, and the data are those it
tells of. -/
structure Intact (lib : ManifestLib) (read : Download) (backupId : String)
    (manifestBytes : List UInt8) (manifest : ArtifactManifest)
    (data : List UInt8) : Prop where
  stored : read (manifestPath backupId) = .ok manifestBytes
  parses : lib.fromSlice manifestBytes = .ok manifest
  sidecar : ∃ raw recorded, read (manifestShaPath backupId) = .ok raw ∧
    parseSidecar (fromUtf8Lossy raw) = some recorded ∧
    eqIgnoreAsciiCase recorded (lib.sha256 manifestBytes) = true
  found : verifiedData read backupId manifest = some data
  checksum : eqIgnoreAsciiCase (lib.sha256 data) manifest.checksumSha256 = true

/-- The stored bytes, if they are there, go through the decoders to the end. -/
def Decodes (decoders : Decoders) (read : Download) (backupId : String)
    (manifest : ArtifactManifest) : Prop :=
  (manifest.oplogCount = some 0 ∧ ∃ err, read (dataPath backupId) = .error err) ∨
    ∃ stages raw plain, reverseStackFor decoders manifest = .ok stages ∧
      read (dataPath backupId) = .ok raw ∧ applyStack stages raw = .ok plain

section Reports

variable {lib : ManifestLib} {decoders : Decoders} {read : Download}
  {backupId : String} {manifest : ArtifactManifest}
  {manifestBytes data : List UInt8}

theorem readManifest_eq_ok :
    readManifest lib read backupId = .ok manifest ↔
      ∃ bytes, read (manifestPath backupId) = .ok bytes ∧
        lib.fromSlice bytes = .ok manifest := by
  rw [readManifest, bind_eq_ok]
  refine exists_congr fun bytes => and_congr_right fun _ => ?_
  cases lib.fromSlice bytes with
  | ok found => simp
  | error err => simp

theorem verifyManifestSidecar_eq_true (hlib : lib.Sound)
    (hstored : read (manifestPath backupId) = .ok manifestBytes) :
    verifyManifestSidecar lib read backupId = .ok true ↔
      ∃ raw recorded, read (manifestShaPath backupId) = .ok raw ∧
        parseSidecar (fromUtf8Lossy raw) = some recorded ∧
        eqIgnoreAsciiCase recorded (lib.sha256 manifestBytes) = true := by
  rw [verifyManifestSidecar, hstored]
  change (match read (manifestShaPath backupId) with
    | .error _ => _
    | .ok sidecarRaw => _) = _ ↔ _
  cases hraw : read (manifestShaPath backupId) with
  | error err => simp
  | ok raw =>
      rw [parseSidecar_sidecarChecksum hlib]
      cases hrecorded : parseSidecar (fromUtf8Lossy raw) with
      | none => simp [hrecorded]
      | some recorded => simp [hrecorded]

theorem eqIgnoreAsciiCase_comm (left right : String) :
    eqIgnoreAsciiCase left right = eqIgnoreAsciiCase right left := by
  simp only [eqIgnoreAsciiCase, eq_comm]

theorem verifyDataChecksum_eq_true (hlib : lib.Sound) :
    verifyDataChecksum lib read backupId manifest
        (decide (manifest.oplogCount = some 0)) = .ok true ↔
      ∃ data, verifiedData read backupId manifest = some data ∧
        eqIgnoreAsciiCase (lib.sha256 data) manifest.checksumSha256 = true := by
  rw [verifyDataChecksum, verifiedData]
  cases read (dataPath backupId) with
  | ok bytes => simp
  | error err =>
      by_cases hempty : manifest.oplogCount = some 0
      · simp [hempty, hlib.empty, eqIgnoreAsciiCase_comm EMPTY_SHA256]
      · simp [hempty]

theorem verifyDeepDecode_eq_ok {decoded : Bool} :
    verifyDeepDecode decoders read backupId manifest
        (decide (manifest.oplogCount = some 0)) = .ok decoded ↔
      decoded = true ∧ Decodes decoders read backupId manifest := by
  rw [verifyDeepDecode, Decodes]
  cases hread : read (dataPath backupId) with
  | error err =>
      by_cases hempty : manifest.oplogCount = some 0
      · simp [hempty, Except.isOk, Except.toBool, eq_comm]
      · simp [hempty, bind_eq_ok]
  | ok raw =>
      rw [if_neg (by simp [Except.isOk, Except.toBool]), bind_eq_ok]
      simp only [reduceCtorEq, exists_false, and_false, false_or, Except.ok.injEq]
      constructor
      · rintro ⟨stages, hstages, happly⟩
        cases hplain : applyStack stages raw with
        | error err =>
            rw [hplain] at happly
            cases happly
        | ok plain =>
            rw [hplain] at happly
            cases happly
            exact ⟨rfl, stages, raw, plain, hstages, rfl, hplain⟩
      · rintro ⟨rfl, stages, raw, plain, hstages, rfl, hplain⟩
        exact ⟨stages, hstages, by rw [hplain]⟩

theorem require_eq_ok {holds : Bool} {message : String} {done : Unit} :
    require holds message = .ok done ↔ holds = true := by
  cases holds with
  | true => simp [require]
  | false => simp [require]

theorem mapError_eq_ok {ε ε' α : Type} {wrap : ε → ε'} {result : Except ε α}
    {value : α} : result.mapError wrap = .ok value ↔ result = .ok value := by
  cases result with
  | ok found => simp [Except.mapError]
  | error err => simp [Except.mapError]

theorem deepDecode_eq_ok {deep : Bool} {decoded : Option Bool} :
    (if deep then
        some <$> verifyDeepDecode decoders read backupId manifest
          (decide (manifest.oplogCount = some 0))
      else .ok none) = .ok decoded ↔
      decoded = (if deep then some true else none) ∧
        (deep = true → Decodes decoders read backupId manifest) := by
  cases deep with
  | false => simp [eq_comm]
  | true =>
      rw [if_pos rfl, if_pos rfl, map_eq_ok]
      constructor
      · rintro ⟨value, hvalue, rfl⟩
        obtain ⟨rfl, hdecodes⟩ := verifyDeepDecode_eq_ok.mp hvalue
        exact ⟨rfl, fun _ => hdecodes⟩
      · rintro ⟨rfl, hdecodes⟩
        exact ⟨true, verifyDeepDecode_eq_ok.mpr ⟨rfl, hdecodes rfl⟩, rfl⟩

theorem verifyBackup_eq_ok (hlib : lib.Sound) {deep : Bool}
    {report : VerifyReport} :
    verifyBackup lib decoders read backupId deep = .ok report ↔
      ∃ manifestBytes manifest data,
        Intact lib read backupId manifestBytes manifest data ∧
        (deep = true → Decodes decoders read backupId manifest) ∧
        report =
          { backupId
            manifestSidecarOk := true
            dataChecksumOk := true
            deepDecodeOk := if deep then some true else none
            warnings :=
              if manifest.status = .incomplete then [incompleteWarning backupId]
              else []
            emptySlice := decide (manifest.oplogCount = some 0) } := by
  unfold verifyBackup
  simp only [bind_eq_ok, require_eq_ok, mapError_eq_ok, deepDecode_eq_ok]
  constructor
  · rintro ⟨manifest, hmanifest, sidecarOk, hsidecar, -, rfl, dataOk, hdata, -,
      rfl, decoded, ⟨rfl, hdecodes⟩, hreport⟩
    obtain ⟨manifestBytes, hstored, hparses⟩ := readManifest_eq_ok.mp hmanifest
    obtain ⟨data, hfound, hchecksum⟩ := (verifyDataChecksum_eq_true hlib).mp hdata
    exact ⟨manifestBytes, manifest, data,
      ⟨hstored, hparses, (verifyManifestSidecar_eq_true hlib hstored).mp hsidecar,
        hfound, hchecksum⟩, hdecodes, (Except.ok.inj hreport).symm⟩
  · rintro ⟨manifestBytes, manifest, data, hintact, hdecodes, rfl⟩
    have hmanifest := readManifest_eq_ok.mpr
      ⟨manifestBytes, hintact.stored, hintact.parses⟩
    have hsidecar := (verifyManifestSidecar_eq_true hlib hintact.stored).mpr
      hintact.sidecar
    have hdata := (verifyDataChecksum_eq_true hlib).mpr
      ⟨data, hintact.found, hintact.checksum⟩
    exact ⟨manifest, hmanifest, true, hsidecar, (), rfl, true, hdata, (), rfl, _,
      ⟨rfl, hdecodes⟩, rfl⟩

/-- The texts of a backup whose digests are compared. -/
def digested (read : Download) (backupId : String) : Set (List UInt8) :=
  { bytes | bytes = [] ∨ read (manifestPath backupId) = .ok bytes ∨
    read (dataPath backupId) = .ok bytes }

/-- The manifest has the same bytes, and so have the data. -/
def Unchanged (lib : ManifestLib) (read later : Download) (backupId : String) :
    Prop :=
  later (manifestPath backupId) = read (manifestPath backupId) ∧
    ∀ manifest, readManifest lib read backupId = .ok manifest →
      verifiedData later backupId manifest = verifiedData read backupId manifest

theorem verifiedData_mem_digested (hfound :
    verifiedData read backupId manifest = some data) :
    data ∈ digested read backupId := by
  rw [verifiedData] at hfound
  split at hfound
  next bytes hbytes =>
    cases hfound
    exact Or.inr (Or.inr hbytes)
  next err herr =>
    split at hfound
    · cases hfound
      exact Or.inl rfl
    · cases hfound

/-- As long as the sidecar is the same, a backup that passed passes again just
if neither its manifest nor its data have changed, unless what is there now has
a digest in common with what was there then. -/
theorem verify_passes_iff_unchanged (hlib : lib.Sound) {later : Download}
    {report : VerifyReport}
    (hpassed : verifyBackup lib decoders read backupId false = .ok report)
    (hsidecar : later (manifestShaPath backupId) =
      read (manifestShaPath backupId))
    (hdistinct : Set.InjOn lib.sha256
      (digested read backupId ∪ digested later backupId)) :
    (∃ report, verifyBackup lib decoders later backupId false = .ok report) ↔
      Unchanged lib read later backupId := by
  obtain ⟨manifestBytes, manifest, data, hintact, -, -⟩ :=
    (verifyBackup_eq_ok hlib).mp hpassed
  have hmanifest : readManifest lib read backupId = .ok manifest :=
    readManifest_eq_ok.mpr ⟨manifestBytes, hintact.stored, hintact.parses⟩
  constructor
  · rintro ⟨report', hpasses⟩
    obtain ⟨bytes', manifest', data', hintact', -, -⟩ :=
      (verifyBackup_eq_ok hlib).mp hpasses
    obtain ⟨raw, recorded, hraw, hrecorded, hmatch⟩ := hintact.sidecar
    obtain ⟨raw', recorded', hraw', hrecorded', hmatch'⟩ := hintact'.sidecar
    cases (hsidecar ▸ hraw').symm.trans hraw
    cases hrecorded'.symm.trans hrecorded
    have hbytes : manifestBytes = bytes' := hdistinct
      (Or.inl (Or.inr (Or.inl hintact.stored)))
      (Or.inr (Or.inr (Or.inl hintact'.stored)))
      (hlib.sha256_inj_case hmatch hmatch')
    subst hbytes
    cases hintact'.parses.symm.trans hintact.parses
    have hdata : data = data' := by
      refine hdistinct (Or.inl (verifiedData_mem_digested hintact.found))
        (Or.inr (verifiedData_mem_digested hintact'.found)) ?_
      have hchecksum := hintact.checksum
      have hchecksum' := hintact'.checksum
      rw [eqIgnoreAsciiCase_comm] at hchecksum hchecksum'
      exact hlib.sha256_inj_case hchecksum hchecksum'
    refine ⟨hintact'.stored.trans hintact.stored.symm, fun other hother => ?_⟩
    cases hother.symm.trans hmanifest
    rw [hintact'.found, hintact.found, hdata]
  · rintro ⟨hbytes, hdata⟩
    refine ⟨_, (verifyBackup_eq_ok hlib).mpr ⟨manifestBytes, manifest, data,
      ⟨hbytes.trans hintact.stored, hintact.parses, ?_,
        (hdata manifest hmanifest).trans hintact.found, hintact.checksum⟩,
      fun hdeep => absurd hdeep Bool.false_ne_true, rfl⟩⟩
    rw [hsidecar]
    exact hintact.sidecar

end Reports

section Notes

def noteId : String := "0199-a"

def noteData : List UInt8 := [49, 10]

def noteDataSha : String :=
  "4355a46b19d348dc2f57c046f8ef63d4538ebb936000f3c9ee954a27460dd865"

/-- The stored bytes with a byte changed. -/
def otherData : List UInt8 := [50, 10]

def otherDataSha : String :=
  "53c234e5e8472b6ac51c1ae1cab3fe06fad053beb8ebfd8977b010655bfdd3c3"

/-- The manifest of a PostgreSQL backup as it is written. -/
@[irreducible] def noteText : List UInt8 :=
  123 :: utf8 ("\n  \"format_version\": 1,\n  \"id\": \"0199-a\",\n" ++
    "  \"created_at\": \"2026-01-01T00:00:00Z\",\n" ++
    "  \"backup_type\": \"full\",\n  \"topology\": \"standalone\",\n" ++
    "  \"server_version\": \"postgresql 16.2\",\n" ++
    "  \"tool_versions\": \x7b\n    \"archive_format\": \"xb-pg-v1\"\n  \x7d,\n" ++
    "  \"selective\": false,\n  \"original_size_bytes\": 2,\n" ++
    "  \"stored_size_bytes\": 2,\n  \"checksum_sha256\": \"" ++ noteDataSha ++
    "\",\n  \"table_rows\": \x7b\n    \"public.notes\": 1\n  \x7d,\n" ++
    "  \"status\": \"complete\"\n\x7d")

def noteTextSha : String :=
  "cf031d8daee307a52a4713b27b2b446df501945efcc76b61ab76701959be2c7f"

def noteManifest : ArtifactManifest where
  id := noteId
  createdAt := "2026-01-01T00:00:00Z"
  backupType := .full
  baseId := none
  topology := .standalone
  toolVersions := ⟨none, some "xb-pg-v1"⟩
  selective := false
  oplogRange := none
  oplogCount := none
  promotedFromGap := false
  mysqlBinlog := none
  status := .complete
  originalSizeBytes := 2
  storedSizeBytes := 2
  compression := none
  encryption := none
  checksumSha256 := noteDataSha

def noteSha (bytes : List UInt8) : String :=
  if bytes = [] then EMPTY_SHA256
  else if bytes = noteData then noteDataSha
  else if bytes = otherData then otherDataSha
  else noteTextSha

def noteLib : ManifestLib where
  toVecPretty _ := noteText
  fromSlice bytes :=
    if bytes = noteText then .ok noteManifest else .error "expected value"
  sha256 := noteSha

theorem noteText_ne : noteText ≠ [] ∧ noteText ≠ noteData ∧
    noteText ≠ otherData := by
  rw [noteText]
  exact ⟨List.cons_ne_nil _ _,
    fun hsame => absurd (List.cons.inj hsame).1 (by decide),
    fun hsame => absurd (List.cons.inj hsame).1 (by decide)⟩

theorem noteSha_noteText : noteSha noteText = noteTextSha := by
  rw [noteSha, if_neg noteText_ne.1, if_neg noteText_ne.2.1,
    if_neg noteText_ne.2.2]

theorem noteLib_sound : noteLib.Sound := by
  have hall : ∀ digest ∈ [EMPTY_SHA256, noteDataSha, otherDataSha, noteTextSha],
      digest.length = 64 ∧ digest.toList.all isHexDigit = true := by
    decide +kernel
  have hmem : ∀ bytes, noteSha bytes ∈
      [EMPTY_SHA256, noteDataSha, otherDataSha, noteTextSha] := by
    intro bytes
    simp only [noteSha]
    split_ifs <;> simp
  refine ⟨fun bytes => (hall _ (hmem bytes)).1,
    fun bytes => List.all_eq_true.mp (hall _ (hmem bytes)).2, ?_⟩
  change noteSha [] = EMPTY_SHA256
  rw [noteSha, if_pos rfl]

/-- A destination that holds the backup, with these data. -/
def noteStored (data : List UInt8) : Download := fun path =>
  if path = manifestPath noteId then .ok noteText
  else if path = manifestShaPath noteId then
    .ok (utf8 (noteTextSha ++ "  manifest.json\n"))
  else if path = dataPath noteId then .ok data
  else .error (.storageDownload ("'" ++ path ++ "': download failed"))

theorem noteStored_manifest (data : List UInt8) :
    noteStored data (manifestPath noteId) = .ok noteText := by
  rw [noteStored, if_pos rfl]

theorem noteStored_sidecar (data : List UInt8) :
    noteStored data (manifestShaPath noteId) =
      .ok (utf8 (sidecarChecksum noteLib noteText)) := by
  rw [noteStored, if_neg (by decide +kernel), if_pos rfl, sidecarChecksum]
  change _ = Except.ok (utf8 (noteSha noteText ++ _ ++ _ ++ _))
  rw [noteSha_noteText]
  rfl

theorem noteStored_data (data : List UInt8) :
    noteStored data (dataPath noteId) = .ok data := by
  rw [noteStored, if_neg (by decide +kernel), if_neg (by decide +kernel),
    if_pos rfl]

theorem noteSha_noteData : noteSha noteData = noteDataSha := by
  rw [noteSha, if_neg (by decide), if_pos rfl]

theorem noteSha_otherData : noteSha otherData = otherDataSha := by
  rw [noteSha, if_neg (by decide), if_neg (by decide), if_pos rfl]

theorem noteLib_reads : noteLib.fromSlice noteText = .ok noteManifest := by
  change (if noteText = noteText then _ else _) = _
  rw [if_pos rfl]

theorem intact_note : Intact noteLib (noteStored noteData) noteId noteText
    noteManifest noteData where
  stored := noteStored_manifest noteData
  parses := noteLib_reads
  sidecar := by
    refine ⟨_, _, noteStored_sidecar noteData, ?_, eqIgnoreAsciiCase_self _⟩
    rw [fromUtf8Lossy_utf8, parseSidecar_sidecarChecksum noteLib_sound]
  found := by rw [verifiedData, noteStored_data]
  checksum := by
    change eqIgnoreAsciiCase (noteSha noteData) noteDataSha = true
    rw [noteSha_noteData]
    exact eqIgnoreAsciiCase_self _

theorem digested_noteStored (data : List UInt8) :
    digested (noteStored data) noteId = {[], noteText, data} := by
  ext bytes
  simp [digested, noteStored_manifest, noteStored_data, eq_comm]

/-- The environment has no key. -/
def keyless : Decoders where
  decrypt _ := .error "no key"
  decompress _ := none

theorem noteSha_injOn :
    Set.InjOn noteSha {[], noteText, noteData, otherData} := by
  have hvalues : ∀ bytes ∈ ({[], noteText, noteData, otherData} :
      Set (List UInt8)),
      (bytes, noteSha bytes) ∈ [([], EMPTY_SHA256), (noteText, noteTextSha),
        (noteData, noteDataSha), (otherData, otherDataSha)] := by
    rintro bytes (rfl | rfl | rfl | rfl)
    · simp [noteSha]
    · simp [noteSha_noteText]
    · simp [noteSha_noteData]
    · simp [noteSha_otherData]
  have hdistinct : [EMPTY_SHA256, noteTextSha, noteDataSha,
      otherDataSha].Nodup := by
    decide +kernel
  intro left hleft right hright hsame
  have hpair := hvalues right hright
  rw [← hsame] at hpair
  have hnodup : ([([], EMPTY_SHA256), (noteText, noteTextSha),
      (noteData, noteDataSha), (otherData, otherDataSha)].map
        Prod.snd).Nodup := hdistinct
  exact congrArg Prod.fst
    (List.inj_on_of_nodup_map hnodup (hvalues left hleft) hpair rfl)

/-- A changed byte of the data is noticed. -/
theorem verify_notices_otherData :
    ¬ ∃ report, verifyBackup noteLib keyless (noteStored otherData) noteId
      false = .ok report := by
  have hpassed : verifyBackup noteLib keyless (noteStored noteData) noteId
      false = .ok _ := (verifyBackup_eq_ok noteLib_sound).mpr
    ⟨noteText, noteManifest, noteData, intact_note,
      fun hdeep => absurd hdeep Bool.false_ne_true, rfl⟩
  have hdistinct : Set.InjOn noteLib.sha256
      (digested (noteStored noteData) noteId ∪
        digested (noteStored otherData) noteId) := by
    refine noteSha_injOn.mono ?_
    rw [digested_noteStored, digested_noteStored]
    intro bytes hbytes
    simp only [Set.mem_union, Set.mem_insert_iff, Set.mem_singleton_iff] at hbytes ⊢
    tauto
  rw [verify_passes_iff_unchanged noteLib_sound hpassed
    ((noteStored_sidecar otherData).trans (noteStored_sidecar noteData).symm)
    hdistinct]
  rintro ⟨-, hdata⟩
  have hsame := hdata noteManifest
    (readManifest_eq_ok.mpr ⟨_, noteStored_manifest _, noteLib_reads⟩)
  rw [verifiedData, verifiedData, noteStored_data, noteStored_data] at hsame
  exact absurd hsame (by decide)

end Notes

end XBackup
