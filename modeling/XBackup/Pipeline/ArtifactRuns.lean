/-
Runs of the backup command and prunes of any backups, on shared destinations,
in any order, each of them failing or being killed anywhere: what is under the
id of a backup is always what its run wrote, so that a backup passes its check
just if all its files are there.
-/
import XBackup.Pipeline.ArtifactWrites
import XBackup.Pipeline.Verify

namespace XBackup

open Bytes Interleaving Transition

/-- What a run may write under one id.  Only a promoted backup has two versions
of its manifest. -/
structure Artifact where
  backupId : String
  data : Option (List UInt8)
  index : Option (List UInt8)
  versions : List ArtifactManifest

inductive ArtifactFile where
  | data
  | index
  | manifest
  | sidecar
deriving DecidableEq, Repr

def ArtifactFile.name : ArtifactFile → String
  | .data => DATA_FILE
  | .index => FILE_INDEX_FILE
  | .manifest => MANIFEST_FILE
  | .sidecar => MANIFEST_SHA_FILE

def ArtifactFile.path (file : ArtifactFile) (backupId : String) : String :=
  pathIn backupId file.name

namespace Artifact

/-- What the artifact may have in a file. -/
def contents (lib : ManifestLib) (artifact : Artifact) :
    ArtifactFile → Set (List UInt8)
  | .data => { bytes | artifact.data = some bytes }
  | .index => { bytes | artifact.index = some bytes }
  | .manifest => { bytes | ∃ version ∈ artifact.versions,
      bytes = lib.toVecPretty version }
  | .sidecar => { bytes | ∃ version ∈ artifact.versions,
      bytes = utf8 (sidecarChecksum lib (lib.toVecPretty version)) }

/-- In the files of the planned artifacts there is only what they may have
there. -/
def allows {δ : Type} (lib : ManifestLib) (planned : Set Artifact)
    (key : ObjectKey δ) (bytes : List UInt8) : Prop :=
  ∀ artifact ∈ planned, ∀ file : ArtifactFile,
    key.2 = file.path artifact.backupId → bytes ∈ artifact.contents lib file

/-- The versions of the manifest tell of the data: their digest, and that there
are none. -/
structure Sound (lib : ManifestLib) (artifact : Artifact) : Prop where
  names : ∀ version ∈ artifact.versions, version.id = artifact.backupId
  checksum : ∀ version ∈ artifact.versions,
    version.checksumSha256 = lib.sha256 (artifact.data.getD [])
  empty : ∀ version ∈ artifact.versions,
    version.oplogCount = some 0 ↔ artifact.data = none

section Plans

variable (lib : ManifestLib)

/-- The upload of a dump with the manifests that are written for it. -/
def ofUpload (upload : Upload) (stages : Staging) (index : Option (List UInt8))
    (versions : List ArtifactManifest) : Artifact where
  backupId := upload.backupId
  data := some (stages.apply upload.bytes)
  index := index
  versions := versions

/-- The stored bytes of a full backup. -/
def dumped (upload : Upload) (stages : Staging) : StoredDump :=
  let stored := stages.apply upload.bytes
  { backupId := upload.backupId
    storedSize := stored.length
    originalSize := upload.bytes.length
    checksum := lib.sha256 stored }

def fullManifest (plan : FullPlan) : ArtifactManifest :=
  (dumped lib plan.upload plan.stages).describe plan.stages.about
    (plan.kind.manifest plan.upload.backupId plan.createdAt)

def ofFull (plan : FullPlan) : Artifact :=
  ofUpload plan.upload plan.stages none [fullManifest lib plan]

def ofPromoted (plan : FullPlan) : Artifact :=
  ofUpload plan.upload plan.stages none [fullManifest lib plan,
    { fullManifest lib plan with promotedFromGap := true }]

def ofEmptySlice (plan : MongoIncrement) : Artifact where
  backupId := plan.emptyId
  data := none
  index := none
  versions := [(emptyDump lib plan.emptyId).describe ⟨none, none⟩
    (mongoIncrementalManifest plan.emptyId plan.createdAt plan.baseId
      ⟨plan.lastBackupTs, plan.lastBackupTs⟩ 0)]

def ofSlice (plan : MongoIncrement) (upload : Upload) (upper : OplogTimestamp)
    (count : Nat) : Artifact :=
  ofUpload upload plan.stages none
    [(slice lib upload plan.stages).describe plan.stages.about
      (mongoIncrementalManifest upload.backupId plan.createdAt plan.baseId
        ⟨plan.lastBackupTs, upper⟩ count)]

/-- A slice that is not recorded may leave its data. -/
def ofCapture (plan : MongoIncrement) : List Artifact :=
  match plan.capture with
  | .captured upload upper (.ok (more + 1)) =>
      [ofSlice lib plan upload upper (more + 1)]
  | .captured upload _ _ => [ofUpload upload plan.stages none []]
  | _ => []

def ofDriver (plan : DriverIncrement) : Artifact :=
  let manifest := plan.kind.manifest plan.upload.backupId plan.createdAt
    plan.baseId plan.changeCount
  if plan.changeCount = 0 then
    { backupId := plan.upload.backupId
      data := none
      index := none
      versions := [(emptyDump lib plan.upload.backupId).describe ⟨none, none⟩
        manifest] }
  else
    ofUpload plan.upload plan.stages none
      [(slice lib plan.upload plan.stages).describe plan.stages.about manifest]

def ofFile (plan : FilePlan) (promotedFromGap : Bool) : Artifact :=
  ofUpload plan.upload plan.stages (some plan.index)
    [(dumped lib plan.upload plan.stages).describe plan.stages.about
      (fileFullManifest plan.upload.backupId plan.createdAt promotedFromGap)]

def ofFileIncrement (increment : FileIncrement) : Artifact :=
  let plan := increment.plan
  let manifest := fileIncrementalManifest plan.upload.backupId plan.createdAt
    increment.chain increment.changeCount
  if increment.changeCount = 0 then
    { backupId := plan.upload.backupId
      data := none
      index := some plan.index
      versions := [(emptyDump lib plan.upload.backupId).describe
        plan.stages.about manifest] }
  else
    ofUpload plan.upload plan.stages (some plan.index)
      [(dumped lib plan.upload plan.stages).describe plan.stages.about manifest]

/-- The artifacts a run may write. -/
def ofRun : ArtifactRun → List Artifact
  | .full plan => [ofFull lib plan]
  | .mongoIncremental plan =>
      ofPromoted lib plan.full :: ofEmptySlice lib plan :: ofCapture lib plan
  | .driverIncremental plan => [ofDriver lib plan]
  | .fileFull plan promotedFromGap => [ofFile lib plan promotedFromGap]
  | .fileIncremental increment => [ofFileIncrement lib increment]

end Plans

variable {lib : ManifestLib}

theorem sound_ofUpload {upload : Upload} {stages : Staging}
    {index : Option (List UInt8)} {versions : List ArtifactManifest}
    (hversions : ∀ version ∈ versions, version.id = upload.backupId ∧
      version.checksumSha256 = lib.sha256 (stages.apply upload.bytes) ∧
      version.oplogCount ≠ some 0) :
    (ofUpload upload stages index versions).Sound lib where
  names version hversion := (hversions version hversion).1
  checksum version hversion := (hversions version hversion).2.1
  empty version hversion := by
    simp [ofUpload, (hversions version hversion).2.2]

theorem manifest_fullKind (kind : FullKind) (id createdAt : String) :
    (kind.manifest id createdAt).id = id ∧
      (kind.manifest id createdAt).oplogCount = none := by
  cases kind <;> exact ⟨rfl, rfl⟩

theorem manifest_driverKind (kind : DriverKind) (id createdAt baseId : String)
    (changeCount : Nat) :
    (kind.manifest id createdAt baseId changeCount).id = id ∧
      (kind.manifest id createdAt baseId changeCount).oplogCount =
        some changeCount := by
  cases kind <;> exact ⟨rfl, rfl⟩

theorem sound_ofNothing {backupId : String} {index : Option (List UInt8)}
    {version : ArtifactManifest} (hid : version.id = backupId)
    (hchecksum : version.checksumSha256 = lib.sha256 [])
    (hcount : version.oplogCount = some 0) :
    Sound lib ⟨backupId, none, index, [version]⟩ where
  names other hother := by rw [List.mem_singleton.mp hother, hid]
  checksum other hother := by
    rw [List.mem_singleton.mp hother, hchecksum, Option.getD_none]
  empty other hother := by simp [List.mem_singleton.mp hother, hcount]

theorem sound_ofFull (plan : FullPlan) : (ofFull lib plan).Sound lib := by
  obtain ⟨hid, hcount⟩ := manifest_fullKind plan.kind plan.upload.backupId
    plan.createdAt
  refine sound_ofUpload fun version hversion => ?_
  rw [List.mem_singleton.mp hversion]
  exact ⟨hid, rfl, by simp [fullManifest, StoredDump.describe, hcount]⟩

theorem sound_ofPromoted (plan : FullPlan) : (ofPromoted lib plan).Sound lib := by
  obtain ⟨hid, hcount⟩ := manifest_fullKind plan.kind plan.upload.backupId
    plan.createdAt
  refine sound_ofUpload fun version hversion => ?_
  rcases List.mem_pair.mp hversion with rfl | rfl
  · exact ⟨hid, rfl, by simp [fullManifest, StoredDump.describe, hcount]⟩
  · exact ⟨hid, rfl, by simp [fullManifest, StoredDump.describe, hcount]⟩

theorem sound_ofCapture {plan : MongoIncrement} :
    ∀ artifact ∈ ofCapture lib plan, artifact.Sound lib := by
  intro artifact hartifact
  rw [ofCapture] at hartifact
  split at hartifact
  next upload upper more hcapture =>
    rw [List.mem_singleton.mp hartifact]
    refine sound_ofUpload fun version hversion => ?_
    rw [List.mem_singleton.mp hversion]
    exact ⟨rfl, rfl, by simp [StoredDump.describe, mongoIncrementalManifest]⟩
  next upload upper result hcapture hnot =>
    rw [List.mem_singleton.mp hartifact]
    exact sound_ofUpload fun version hversion =>
      absurd hversion List.not_mem_nil
  next => exact absurd hartifact List.not_mem_nil

theorem sound_ofDriver (plan : DriverIncrement) :
    (ofDriver lib plan).Sound lib := by
  obtain ⟨hid, hcount⟩ := manifest_driverKind plan.kind plan.upload.backupId
    plan.createdAt plan.baseId plan.changeCount
  rw [ofDriver]
  split
  next hzero => exact sound_ofNothing hid rfl (hcount.trans (by rw [hzero]))
  next hsome =>
    refine sound_ofUpload fun version hversion => ?_
    rw [List.mem_singleton.mp hversion]
    exact ⟨hid, rfl, by simp [StoredDump.describe, hcount, hsome]⟩

theorem sound_ofFileIncrement (increment : FileIncrement) :
    (ofFileIncrement lib increment).Sound lib := by
  rw [ofFileIncrement]
  split
  next hzero =>
    refine sound_ofNothing rfl rfl ?_
    simp [StoredDump.describe, fileIncrementalManifest, hzero]
  next hsome =>
    refine sound_ofUpload fun version hversion => ?_
    rw [List.mem_singleton.mp hversion]
    exact ⟨rfl, rfl,
      by simp [StoredDump.describe, fileIncrementalManifest, hsome]⟩

theorem sound_ofRun {run : ArtifactRun} :
    ∀ artifact ∈ ofRun lib run, artifact.Sound lib := by
  intro artifact hartifact
  cases run with
  | full plan =>
      rw [List.mem_singleton.mp hartifact]
      exact sound_ofFull plan
  | mongoIncremental plan =>
      rcases List.mem_cons.mp hartifact with rfl | hartifact
      · exact sound_ofPromoted plan.full
      rcases List.mem_cons.mp hartifact with rfl | hartifact
      · exact sound_ofNothing rfl rfl rfl
      · exact sound_ofCapture artifact hartifact
  | driverIncremental plan =>
      rw [List.mem_singleton.mp hartifact]
      exact sound_ofDriver plan
  | fileFull plan promotedFromGap =>
      rw [List.mem_singleton.mp hartifact]
      refine sound_ofUpload fun version hversion => ?_
      rw [List.mem_singleton.mp hversion]
      exact ⟨rfl, rfl, by simp [StoredDump.describe, fileFullManifest]⟩
  | fileIncremental increment =>
      rw [List.mem_singleton.mp hartifact]
      exact sound_ofFileIncrement increment

theorem sep_notMem_name (file : ArtifactFile) : '/' ∉ file.name.toList := by
  cases file <;> decide

theorem name_injective : Function.Injective ArtifactFile.name := by
  intro file other hname
  cases file <;> cases other <;> first | rfl | exact absurd hname (by decide)

theorem path_inj {left right : String} {file other : ArtifactFile}
    (hpath : file.path left = other.path right) :
    left = right ∧ file = other := by
  obtain ⟨hid, hname⟩ := pathIn_inj (sep_notMem_name file)
    (sep_notMem_name other) hpath
  exact ⟨hid, name_injective hname⟩

section Keeping

variable {δ : Type} {planned : Set Artifact}
  (hids : Set.InjOn Artifact.backupId planned)

include hids

/-- A planned artifact may be written. -/
theorem allows_of_contents {artifact : Artifact} (hplanned : artifact ∈ planned)
    (file : ArtifactFile) {bytes : List UInt8}
    (hbytes : bytes ∈ artifact.contents lib file) (dest : δ) :
    allows lib planned (dest, file.path artifact.backupId) bytes := by
  intro other hother file' hpath
  obtain ⟨hid, rfl⟩ := path_inj hpath
  rwa [← hids hplanned hother hid]

omit hids in
theorem contents_of_allows {artifact : Artifact} (hplanned : artifact ∈ planned)
    (file : ArtifactFile) {bytes : List UInt8} {dest : δ}
    (hallows : allows lib planned (dest, file.path artifact.backupId) bytes) :
    bytes ∈ artifact.contents lib file :=
  hallows artifact hplanned file rfl

variable [DecidableEq δ] {dest target : δ} {st later : Objects δ}
  {artifact : Artifact}

/-- The files that make a backup are there, but for deletes of them. -/
structure Filed (artifact : Artifact) (dest : δ) (st : Objects δ) : Prop where
  data : artifact.data.isSome → st.Held (dest, dataPath artifact.backupId)
  manifest : st.Held (dest, manifestPath artifact.backupId)
  sidecar : st.Held (dest, manifestShaPath artifact.backupId)

omit hids [DecidableEq δ] in
theorem Filed.mono (hfiled : Filed artifact dest st) (hgrows : st.Grows later) :
    Filed artifact dest later where
  data hdata := hgrows.held _ (hfiled.data hdata)
  manifest := hgrows.held _ hfiled.manifest
  sidecar := hgrows.held _ hfiled.sidecar

variable (lib planned) in
/-- The rules of the store for what is planned. -/
abbrev rules : Discipline (Objects.storage δ) :=
  Objects.discipline (allows lib planned)

omit hids in
theorem keeps_deleteAll {paths : List String} :
    (rules lib planned).Keeps (fun _ _ => True) (deleteAll dest paths) st :=
  Discipline.keeps_forM fun _ _ _ _ =>
    Discipline.Keeps.bind Objects.keeps_delete fun _ _ _ _ _ =>
      Discipline.keeps_ret fun _ _ _ => trivial

omit hids in
theorem leaves_ended {ended : Except XBackupError Unit} :
    (rules lib planned).Leaves (fun _ _ => True)
      (ExceptT.mk (return ended) : StorageRun δ Unit) st :=
  Discipline.leaves_answer fun _ _ _ _ _ => trivial

omit hids in
theorem leaves_cleaningUp {α : Type} {post : α → Objects δ → Prop}
    {clean : Program (StorageOp.Reply (δ := δ)) PUnit} {action : StorageRun δ α}
    (hclean : ∀ later, (rules lib planned).Keeps (fun _ _ => True) clean later)
    (hpost : ∀ value {st later : Objects δ}, st.Grows later →
      post value st → post value later)
    (haction : (rules lib planned).Leaves post action st) :
    (rules lib planned).Leaves post (cleaningUp clean action) st := by
  refine Discipline.Keeps.bind haction fun result later _ _ hresult => ?_
  cases result with
  | ok value =>
      exact Discipline.leaves_return fun last _ hgrows =>
        hpost value hgrows (hresult value rfl)
  | error err =>
      refine Discipline.Keeps.bind (hclean later) fun _ _ _ _ _ => ?_
      exact Discipline.leaves_error

theorem leaves_writeManifest (hplanned : artifact ∈ planned)
    {version : ArtifactManifest} (hversion : version ∈ artifact.versions)
    (hid : version.id = artifact.backupId) :
    (rules lib planned).Leaves
      (fun _ later => later.Held (dest, manifestPath artifact.backupId) ∧
        later.Held (dest, manifestShaPath artifact.backupId))
      (writeManifest lib dest version) st := by
  rw [writeManifest, hid]
  refine Discipline.Leaves.bind (Objects.leaves_putStream
    (allows_of_contents hids hplanned .manifest ⟨version, hversion, rfl⟩ dest)) ?_
  intro _ later _ _ hmanifest
  refine Discipline.Leaves.imp (Objects.leaves_putStream
    (allows_of_contents hids hplanned .sidecar ⟨version, hversion, rfl⟩ dest)) ?_
  exact fun _ last _ hgrows hsidecar => ⟨hgrows.held _ hmanifest, hsidecar⟩

theorem leaves_storeDumpStream (hplanned : artifact ∈ planned) {upload : Upload}
    {stages : Staging} {ended : Except XBackupError Unit}
    (hid : artifact.backupId = upload.backupId)
    (hdata : artifact.data = some (stages.apply upload.bytes)) :
    (rules lib planned).Leaves
      (fun stored later => stored = dumped lib upload stages ∧
        later.Held (dest, dataPath artifact.backupId))
      (storeDumpStream lib dest upload stages ended) st := by
  rw [storeDumpStream, ← hid]
  refine Discipline.Leaves.bind (Objects.leaves_putStream
    (allows_of_contents hids hplanned .data hdata dest)) ?_
  intro _ later _ _ hheld
  refine Discipline.Leaves.bind (leaves_cleaningUp (fun _ => keeps_deleteAll)
    (fun _ _ _ _ => id) leaves_ended) fun _ last _ hgrows _ => ?_
  refine Discipline.leaves_return fun final _ hmore => ⟨?_, ?_⟩
  · rw [dumped, hid]
  · exact hmore.held _ (hgrows.held _ hheld)

/-- A run has reported what is stored: the artifact is there, but for deletes
of its files. -/
structure Recorded (artifact : Artifact) (dest : δ) (stored : Stored)
    (st : Objects δ) : Prop where
  name : stored.backupId = artifact.backupId
  size : stored.storedSize = (artifact.data.getD []).length
  versions : artifact.versions ≠ []
  filed : Filed artifact dest st

omit hids [DecidableEq δ] in
theorem Recorded.mono {stored : Stored} (hrecorded : Recorded artifact dest stored st)
    (hgrows : st.Grows later) : Recorded artifact dest stored later :=
  ⟨hrecorded.name, hrecorded.size, hrecorded.versions,
    hrecorded.filed.mono hgrows⟩

/-- The manifest and its sidecar come last. -/
theorem leaves_recording (hplanned : artifact ∈ planned)
    {version : ArtifactManifest} (hversion : version ∈ artifact.versions)
    (hid : version.id = artifact.backupId) {stored : Stored}
    {write : StorageRun δ Unit}
    (hwrite : write = writeManifest lib dest version ∨
      ∃ paths, write = cleaningUp (deleteAll dest paths)
        (writeManifest lib dest version))
    (hname : stored.backupId = artifact.backupId)
    (hsize : stored.storedSize = (artifact.data.getD []).length)
    (hdata : artifact.data.isSome → st.Held (dest, dataPath artifact.backupId)) :
    (rules lib planned).Leaves (Recorded artifact dest)
      (do write; return stored) st := by
  have hwritten : (rules lib planned).Leaves
      (fun _ later => later.Held (dest, manifestPath artifact.backupId) ∧
        later.Held (dest, manifestShaPath artifact.backupId)) write st := by
    rcases hwrite with rfl | ⟨paths, rfl⟩
    · exact leaves_writeManifest hids hplanned hversion hid
    · exact leaves_cleaningUp (fun _ => keeps_deleteAll)
        (fun _ _ _ hgrows held => held.imp (hgrows.held _) (hgrows.held _))
        (leaves_writeManifest hids hplanned hversion hid)
  refine Discipline.Leaves.bind hwritten ?_
  rintro _ later - hgrows ⟨hmanifest, hsidecar⟩
  exact Discipline.leaves_return fun last _ hmore =>
    ⟨hname, hsize, List.ne_nil_of_mem hversion,
      fun hsome => hmore.held _ (hgrows.held _ (hdata hsome)),
      hmore.held _ hmanifest, hmore.held _ hsidecar⟩

theorem leaves_runFullBackup (hplanned : artifact ∈ planned) {plan : FullPlan}
    (hid : artifact.backupId = plan.upload.backupId)
    (hdata : artifact.data = some (plan.stages.apply plan.upload.bytes))
    (hversion : fullManifest lib plan ∈ artifact.versions) :
    (rules lib planned).Leaves (Recorded artifact dest)
      (runFullBackup lib dest plan) st := by
  refine Discipline.Leaves.bind
    (leaves_storeDumpStream hids hplanned hid hdata) ?_
  rintro stored later - - ⟨rfl, hheld⟩
  refine Discipline.Leaves.bind leaves_ended fun _ asked _ hasked _ => ?_
  exact leaves_recording hids hplanned hversion
    ((manifest_fullKind _ _ _).1.trans hid.symm) (Or.inr ⟨_, rfl⟩) hid.symm
    (by rw [hdata, Option.getD_some]; rfl) fun _ => hasked.held _ hheld

omit hids in
/-- What is read under the id of an artifact is a version of its manifest. -/
theorem leaves_readStored (hplanned : artifact ∈ planned)
    (hreads : ∀ version ∈ artifact.versions, lib.ReadsBack version) :
    (rules lib planned).Leaves (fun manifest _ => manifest ∈ artifact.versions)
      (readStored lib dest artifact.backupId) st := by
  refine Discipline.Leaves.bind Objects.leaves_getStream ?_
  intro bytes later _ _ hallowed
  obtain ⟨version, hversion, rfl⟩ :=
    contents_of_allows hplanned .manifest hallowed
  have hread := hreads version hversion
  rw [ManifestLib.ReadsBack] at hread
  rw [hread]
  exact Discipline.leaves_return fun _ _ _ => hversion

theorem keeps_markPromoted (hplanned : artifact ∈ planned)
    (hnames : ∀ version ∈ artifact.versions, version.id = artifact.backupId)
    (hreads : ∀ version ∈ artifact.versions, lib.ReadsBack version)
    (hmarked : ∀ version ∈ artifact.versions,
      { version with promotedFromGap := true } ∈ artifact.versions) :
    (rules lib planned).Keeps (fun _ _ => True)
      (markPromoted lib dest artifact.backupId) st := by
  refine Discipline.Keeps.bind (leaves_readStored hplanned hreads) ?_
  intro result later _ _ hresult
  cases result with
  | error err => exact Discipline.keeps_ret fun _ _ _ => trivial
  | ok manifest =>
      have hversion := hresult manifest rfl
      refine Discipline.Keeps.bind (leaves_writeManifest hids hplanned
        (hmarked manifest hversion) (hnames manifest hversion)) ?_
      exact fun _ _ _ _ _ => Discipline.keeps_ret fun _ _ _ => trivial

theorem leaves_promoteToFull {plan : FullPlan}
    (hplanned : ofPromoted lib plan ∈ planned)
    (hreads : ∀ version ∈ (ofPromoted lib plan).versions,
      lib.ReadsBack version) :
    (rules lib planned).Leaves (Recorded (ofPromoted lib plan) dest)
      (promoteToFull lib dest plan) st := by
  have hmarked : ∀ version ∈ (ofPromoted lib plan).versions,
      { version with promotedFromGap := true } ∈
        (ofPromoted lib plan).versions := by
    intro version hversion
    rcases List.mem_pair.mp hversion with rfl | rfl
    · exact List.mem_pair.mpr (Or.inr rfl)
    · exact List.mem_pair.mpr (Or.inr rfl)
  refine Discipline.Leaves.bind (leaves_runFullBackup hids hplanned rfl rfl
    List.mem_cons_self) fun stored later _ _ hrecorded => ?_
  rw [hrecorded.name]
  refine Discipline.Leaves.bind (Discipline.Keeps.leaves
    (keeps_markPromoted hids hplanned (sound_ofPromoted plan).names hreads
      hmarked)) fun _ last _ hgrows _ => ?_
  exact Discipline.leaves_return fun final _ hmore =>
    (hrecorded.mono hgrows).mono hmore

theorem leaves_recordEmptySlice {plan : MongoIncrement}
    (hplanned : ofEmptySlice lib plan ∈ planned) :
    (rules lib planned).Leaves (Recorded (ofEmptySlice lib plan) dest)
      (recordEmptySlice lib dest plan) st :=
  leaves_recording hids hplanned (List.mem_singleton.mpr rfl) rfl
    (Or.inr ⟨_, rfl⟩) rfl rfl fun hdata => absurd hdata Bool.false_ne_true

omit hids [DecidableEq δ] in
theorem exists_ofCapture {plan : MongoIncrement} {upload : Upload}
    {upper : OplogTimestamp} {result : Except CaptureError Nat}
    (hcapture : plan.capture = .captured upload upper result) :
    ∃ artifact ∈ ofCapture lib plan, artifact.backupId = upload.backupId ∧
      artifact.data = some (plan.stages.apply upload.bytes) := by
  rw [ofCapture, hcapture]
  split
  next hsame =>
    cases hsame
    exact ⟨_, List.mem_singleton.mpr rfl, rfl, rfl⟩
  next hsame =>
    cases hsame
    exact ⟨_, List.mem_singleton.mpr rfl, rfl, rfl⟩
  next hnot => exact absurd rfl (hnot _ _ _)

/-- The run has reported one of its artifacts, and that one is there. -/
def Reports (lib : ManifestLib) (run : ArtifactRun) (dest : δ) (stored : Stored)
    (st : Objects δ) : Prop :=
  ∃ artifact ∈ ofRun lib run, Recorded artifact dest stored st

theorem leaves_runIncrementalBackup {plan : MongoIncrement}
    (hplanned : ∀ artifact ∈ ofRun lib (.mongoIncremental plan),
      artifact ∈ planned)
    (hreads : ∀ version ∈ (ofPromoted lib plan.full).versions,
      lib.ReadsBack version) :
    (rules lib planned).Leaves (Reports lib (.mongoIncremental plan) dest)
      (runIncrementalBackup lib dest plan) st := by
  have hpromoted : ofPromoted lib plan.full ∈
      ofRun lib (.mongoIncremental plan) := List.mem_cons_self
  have hempty : ofEmptySlice lib plan ∈ ofRun lib (.mongoIncremental plan) :=
    List.mem_cons_of_mem _ List.mem_cons_self
  have hslices : ∀ artifact ∈ ofCapture lib plan,
      artifact ∈ ofRun lib (.mongoIncremental plan) := fun artifact hartifact =>
    List.mem_cons_of_mem _ (List.mem_cons_of_mem _ hartifact)
  have hpromote : ∀ st : Objects δ, (rules lib planned).Leaves
      (Reports lib (.mongoIncremental plan) dest)
      (promoteToFull lib dest plan.full) st := fun st =>
    Discipline.Leaves.imp
      (leaves_promoteToFull hids (hplanned _ hpromoted) hreads)
      fun _ _ _ _ hrecorded => ⟨_, hpromoted, hrecorded⟩
  have hnothing : ∀ st : Objects δ, (rules lib planned).Leaves
      (Reports lib (.mongoIncremental plan) dest)
      (recordEmptySlice lib dest plan) st := fun st =>
    Discipline.Leaves.imp (leaves_recordEmptySlice hids (hplanned _ hempty))
      fun _ _ _ _ hrecorded => ⟨_, hempty, hrecorded⟩
  rw [runIncrementalBackup]
  split
  next => exact hpromote st
  next => exact hnothing st
  next upload upper result hcapture =>
    obtain ⟨artifact, hartifact, hid, hdata⟩ := exists_ofCapture hcapture
    have hallowed : allows lib planned (dest, dataPath upload.backupId)
        (plan.stages.apply upload.bytes) := by
      rw [← hid]
      exact allows_of_contents hids (hplanned _ (hslices artifact hartifact))
        .data hdata dest
    refine Discipline.Leaves.bind (leaves_cleaningUp
      (fun _ => keeps_deleteAll) (fun _ _ _ hgrows => hgrows.held _)
      (Objects.leaves_putStream hallowed)) fun _ later _ _ hheld => ?_
    have hclean : ∀ st : Objects δ, (rules lib planned).Leaves
        (fun _ _ => True)
        (ExceptT.lift (cleanupIncremental dest upload.backupId) :
          StorageRun δ PUnit) st :=
      fun _ => Discipline.Keeps.leaves keeps_deleteAll
    cases result with
    | error failure =>
        cases failure with
        | lateGap message =>
            exact Discipline.Leaves.bind (hclean later)
              fun _ last _ _ _ => hpromote last
        | other err =>
            exact Discipline.Leaves.bind (hclean later)
              fun _ _ _ _ _ => Discipline.leaves_error
    | ok count =>
        cases count with
        | zero =>
            exact Discipline.Leaves.bind (hclean later)
              fun _ last _ _ _ => hnothing last
        | succ more =>
            have hslice : ofSlice lib plan upload upper (more + 1) ∈
                ofCapture lib plan := by
              rw [ofCapture, hcapture]
              exact List.mem_singleton.mpr rfl
            have hrun := hslices _ hslice
            exact Discipline.Leaves.imp (leaves_recording hids (hplanned _ hrun)
              (List.mem_singleton.mpr rfl) rfl (Or.inr ⟨_, rfl⟩) rfl rfl
              fun _ => hheld) fun _ _ _ _ hrecorded => ⟨_, hrun, hrecorded⟩

theorem leaves_runDriverIncremental {plan : DriverIncrement}
    (hplanned : ofDriver lib plan ∈ planned) :
    (rules lib planned).Leaves (Recorded (ofDriver lib plan) dest)
      (runDriverIncremental lib dest plan) st := by
  obtain ⟨hid, -⟩ := manifest_driverKind plan.kind plan.upload.backupId
    plan.createdAt plan.baseId plan.changeCount
  by_cases hzero : plan.changeCount = 0
  · have hdriver : ofDriver lib plan =
        ⟨plan.upload.backupId, none, none, [(emptyDump lib
          plan.upload.backupId).describe ⟨none, none⟩ (plan.kind.manifest
            plan.upload.backupId plan.createdAt plan.baseId
            plan.changeCount)]⟩ := if_pos hzero
    rw [hdriver] at hplanned ⊢
    rw [runDriverIncremental, if_pos hzero]
    exact leaves_recording hids hplanned (List.mem_singleton.mpr rfl) hid
      (Or.inl rfl) rfl rfl fun hdata => absurd hdata Bool.false_ne_true
  · have hdriver : ofDriver lib plan = ofUpload plan.upload plan.stages none
        [(slice lib plan.upload plan.stages).describe plan.stages.about
          (plan.kind.manifest plan.upload.backupId plan.createdAt plan.baseId
            plan.changeCount)] := if_neg hzero
    rw [hdriver] at hplanned ⊢
    rw [runDriverIncremental, if_neg hzero]
    refine Discipline.Leaves.bind (leaves_cleaningUp
      (fun _ => keeps_deleteAll) (fun _ _ _ hgrows => hgrows.held _)
      (Objects.leaves_putStream (allows_of_contents hids hplanned .data rfl
        dest))) fun _ later _ _ hheld => ?_
    exact leaves_recording hids hplanned (List.mem_singleton.mpr rfl) hid
      (Or.inr ⟨_, rfl⟩) rfl rfl fun _ => hheld

/-- The index of a file backup comes before its manifest. -/
theorem leaves_indexing (hplanned : artifact ∈ planned) {index : List UInt8}
    (hindex : artifact.index = some index) {version : ArtifactManifest}
    (hversion : version ∈ artifact.versions)
    (hid : version.id = artifact.backupId) {stored : Stored}
    (hname : stored.backupId = artifact.backupId)
    (hsize : stored.storedSize = (artifact.data.getD []).length)
    (hdata : artifact.data.isSome → st.Held (dest, dataPath artifact.backupId)) :
    (rules lib planned).Leaves (Recorded artifact dest)
      (do writeFileIndexOrCleanup dest artifact.backupId index
          writeManifestOrCleanup lib dest version
          return stored) st := by
  refine Discipline.Leaves.bind (leaves_cleaningUp
    (fun _ => keeps_deleteAll) (fun _ _ _ hgrows => hgrows.held _)
    (Objects.leaves_putStream (allows_of_contents hids hplanned .index hindex
      dest))) fun _ later _ hgrows _ => ?_
  exact leaves_recording hids hplanned hversion hid (Or.inr ⟨_, rfl⟩) hname
    hsize fun hsome => hgrows.held _ (hdata hsome)

theorem leaves_runFileFull {plan : FilePlan} {promotedFromGap : Bool}
    (hplanned : ofFile lib plan promotedFromGap ∈ planned) :
    (rules lib planned).Leaves (Recorded (ofFile lib plan promotedFromGap) dest)
      (runFileFullBackupInner lib dest plan promotedFromGap) st := by
  refine Discipline.Leaves.bind
    (leaves_storeDumpStream hids hplanned rfl rfl) ?_
  rintro stored later - - ⟨rfl, hheld⟩
  exact leaves_indexing hids hplanned rfl (List.mem_singleton.mpr rfl) rfl rfl
    rfl fun _ => hheld

theorem leaves_runFileIncremental {increment : FileIncrement}
    (hplanned : ofFileIncrement lib increment ∈ planned) :
    (rules lib planned).Leaves (Recorded (ofFileIncrement lib increment) dest)
      (runFileIncrementalBackup lib dest increment) st := by
  rw [runFileIncrementalBackup]
  rw [ofFileIncrement] at hplanned ⊢
  by_cases hzero : increment.changeCount = 0
  · simp only [if_pos hzero] at hplanned ⊢
    exact leaves_indexing hids hplanned rfl (List.mem_singleton.mpr rfl) rfl rfl
      rfl fun hdata => absurd hdata Bool.false_ne_true
  · simp only [if_neg hzero] at hplanned ⊢
    refine Discipline.Leaves.bind
      (leaves_storeDumpStream hids hplanned rfl rfl) ?_
    rintro stored later - - ⟨rfl, hheld⟩
    exact leaves_indexing hids hplanned rfl (List.mem_singleton.mpr rfl) rfl rfl
      rfl fun _ => hheld

theorem leaves_runBackup {run : ArtifactRun}
    (hplanned : ∀ artifact ∈ ofRun lib run, artifact ∈ planned)
    (hreads : ∀ artifact ∈ ofRun lib run, ∀ version ∈ artifact.versions,
      lib.ReadsBack version) :
    (rules lib planned).Leaves (Reports lib run dest) (runBackup lib dest run)
      st := by
  cases run with
  | full plan =>
      have hmem := List.mem_singleton.mpr (rfl : ofFull lib plan = _)
      exact Discipline.Leaves.imp (leaves_runFullBackup hids (hplanned _ hmem)
        rfl rfl (List.mem_singleton.mpr rfl))
        fun _ _ _ _ hrecorded => ⟨_, hmem, hrecorded⟩
  | mongoIncremental plan =>
      exact leaves_runIncrementalBackup hids hplanned
        (hreads _ List.mem_cons_self)
  | driverIncremental plan =>
      have hmem := List.mem_singleton.mpr (rfl : ofDriver lib plan = _)
      exact Discipline.Leaves.imp
        (leaves_runDriverIncremental hids (hplanned _ hmem))
        fun _ _ _ _ hrecorded => ⟨_, hmem, hrecorded⟩
  | fileFull plan promotedFromGap =>
      have hmem := List.mem_singleton.mpr
        (rfl : ofFile lib plan promotedFromGap = _)
      exact Discipline.Leaves.imp
        (leaves_runFileFull hids (hplanned _ hmem))
        fun _ _ _ _ hrecorded => ⟨_, hmem, hrecorded⟩
  | fileIncremental increment =>
      have hmem := List.mem_singleton.mpr
        (rfl : ofFileIncrement lib increment = _)
      exact Discipline.Leaves.imp
        (leaves_runFileIncremental hids (hplanned _ hmem))
        fun _ _ _ _ hrecorded => ⟨_, hmem, hrecorded⟩

theorem leaves_copyObject (hplanned : artifact ∈ planned)
    (file : ArtifactFile) :
    (rules lib planned).Leaves
      (fun _ later => later.Held (target, file.path artifact.backupId))
      (copyObject dest target (file.path artifact.backupId)) st := by
  refine Discipline.Leaves.bind Objects.leaves_getStream ?_
  intro bytes later _ _ hallowed
  exact Objects.leaves_putStream (allows_of_contents hids hplanned file
    (contents_of_allows hplanned file hallowed) target)

/-- A copy that succeeds has the files of the backup, unless it was told that
there are no data. -/
theorem leaves_replicateArtifact (hplanned : artifact ∈ planned)
    {hasData : Bool} :
    (rules lib planned).Leaves
      (fun _ later => (artifact.data.isSome → hasData = true) →
        Filed artifact target later)
      (replicateArtifact dest target artifact.backupId hasData) st := by
  have hbehind : ∀ st : Objects δ,
      (hasData = true → st.Held (target, dataPath artifact.backupId)) →
      (rules lib planned).Leaves
        (fun _ later => (artifact.data.isSome → hasData = true) →
          Filed artifact target later)
        (do copyObject dest target (manifestPath artifact.backupId)
            copyObject dest target (manifestShaPath artifact.backupId)) st := by
    intro st hheld
    refine Discipline.Leaves.bind (leaves_copyObject hids hplanned .manifest)
      fun _ later _ hgrows hmanifest => ?_
    refine Discipline.Leaves.imp (leaves_copyObject hids hplanned .sidecar) ?_
    exact fun _ last _ hmore hsidecar htold =>
      ⟨fun hsome => hmore.held _ (hgrows.held _ (hheld (htold hsome))),
        hmore.held _ hmanifest, hsidecar⟩
  cases hasData with
  | false => exact hbehind st fun hfalse => absurd hfalse Bool.false_ne_true
  | true =>
      refine Discipline.Leaves.bind (leaves_copyObject hids hplanned .data) ?_
      exact fun _ later _ _ hheld => hbehind later fun _ => hheld

/-- Every destination whose copy is reported has the files. -/
def Copied (artifact : Artifact) (secondaries : List (Except XBackupError δ))
    (copies : List (Except XBackupError Unit)) (st : Objects δ) : Prop :=
  List.Forall₂ (fun secondary copy => ∀ target, secondary = .ok target →
    copy = .ok () → Filed artifact target st) secondaries copies

omit hids [DecidableEq δ] in
theorem Copied.mono {secondaries : List (Except XBackupError δ)}
    {copies : List (Except XBackupError Unit)}
    (hcopied : Copied artifact secondaries copies st)
    (hgrows : st.Grows later) : Copied artifact secondaries copies later :=
  hcopied.imp fun _ _ hcopy target hsecondary hok =>
    (hcopy target hsecondary hok).mono hgrows

theorem keeps_replicate (hplanned : artifact ∈ planned) {hasData : Bool}
    {secondaries : List (Except XBackupError δ)} :
    (rules lib planned).Keeps
      (fun copies later => (artifact.data.isSome → hasData = true) →
        Copied artifact secondaries copies later)
      (replicate dest artifact.backupId hasData secondaries) st := by
  induction secondaries generalizing st with
  | nil => exact Discipline.keeps_ret fun _ _ _ _ => List.Forall₂.nil
  | cons secondary rest ih =>
      cases secondary with
      | error err =>
          refine Discipline.Keeps.bind ih fun copies later _ _ hcopied => ?_
          refine Discipline.keeps_ret fun last _ hgrows htold => ?_
          exact .cons (fun _ hsecondary => by cases hsecondary)
            ((hcopied htold).mono hgrows)
      | ok target =>
          refine Discipline.Keeps.bind (leaves_replicateArtifact hids hplanned)
            fun copied later _ _ hcopy => ?_
          refine Discipline.Keeps.bind ih fun copies last _ hlast hcopied => ?_
          refine Discipline.keeps_ret fun final _ hfinal htold => ?_
          refine .cons (fun other hother hok => ?_) ((hcopied htold).mono hfinal)
          cases hother
          exact ((hcopy () hok htold).mono hlast).mono hfinal

/-- What the backup command promises with its report. -/
def Promised (lib : ManifestLib) (run : ArtifactRun) (primary : δ)
    (secondaries : List (Except XBackupError δ)) (reported : Reported)
    (st : Objects δ) : Prop :=
  ∃ artifact ∈ ofRun lib run, Recorded artifact primary reported.stored st ∧
    (artifact.data ≠ some [] →
      Copied artifact secondaries reported.copies st)

omit hids [DecidableEq δ] in
theorem Promised.mono {run : ArtifactRun}
    {secondaries : List (Except XBackupError δ)} {reported : Reported}
    (hpromised : Promised lib run dest secondaries reported st)
    (hgrows : st.Grows later) :
    Promised lib run dest secondaries reported later := by
  obtain ⟨artifact, hartifact, hrecorded, hcopied⟩ := hpromised
  exact ⟨artifact, hartifact, hrecorded.mono hgrows,
    fun hne => (hcopied hne).mono hgrows⟩

theorem leaves_backup {run : ArtifactRun}
    {secondaries : List (Except XBackupError δ)}
    (hplanned : ∀ artifact ∈ ofRun lib run, artifact ∈ planned)
    (hreads : ∀ artifact ∈ ofRun lib run, ∀ version ∈ artifact.versions,
      lib.ReadsBack version) :
    (rules lib planned).Leaves (Promised lib run dest secondaries)
      (backup lib dest run secondaries) st := by
  refine Discipline.Leaves.bind (leaves_runBackup hids hplanned hreads) ?_
  rintro stored later - - ⟨artifact, hartifact, hrecorded⟩
  rw [hrecorded.name, hrecorded.size]
  refine Discipline.Leaves.bind (Discipline.Keeps.leaves
    (keeps_replicate hids (hplanned artifact hartifact))) ?_
  intro copies last _ hlast hcopied
  refine Discipline.leaves_return fun final _ hfinal => ?_
  refine ⟨artifact, hartifact, (hrecorded.mono hlast).mono hfinal, ?_⟩
  intro hne
  refine (hcopied fun hsome => ?_).mono hfinal
  obtain ⟨data, hdata⟩ := Option.isSome_iff_exists.mp hsome
  rw [hdata, Option.getD_some, decide_eq_true_eq, List.length_pos_iff]
  exact fun hnil => hne (hnil ▸ hdata)

omit hids in
theorem leaves_prune {backupIds : List String} :
    (rules lib planned).Leaves (fun _ _ => True) (prune dest backupIds) st := by
  refine Discipline.leaves_forM fun path _ later _ => ?_
  refine Discipline.Keeps.bind Objects.keeps_delete fun result _ _ _ _ => ?_
  cases result with
  | ok done => exact Discipline.keeps_ret fun _ _ _ _ _ => trivial
  | error err =>
      dsimp only
      split
      · exact Discipline.keeps_ret fun _ _ _ _ _ => trivial
      · exact Discipline.keeps_ret fun _ _ _ _ _ => trivial

end Keeping

end Artifact

end XBackup
