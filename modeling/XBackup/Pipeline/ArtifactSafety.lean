/-
What verify says of the backups on shared destinations, at any time of any
history of backup runs and prunes.
-/
import XBackup.Pipeline.ArtifactRuns

namespace XBackup

open Bytes Interleaving Transition

/-- What is downloaded from a destination at rest. -/
def Objects.download {δ : Type} (st : Objects δ) (dest : δ) : Download :=
  fun path =>
    match st.objects (dest, path) with
    | some bytes => .ok bytes
    | none => .error (.storageDownload ("'" ++ path ++ "': download failed"))

theorem Objects.download_eq_ok {δ : Type} {st : Objects δ} {dest : δ}
    {path : String} {bytes : List UInt8} :
    st.download dest path = .ok bytes ↔
      st.objects (dest, path) = some bytes := by
  rw [download]
  cases st.objects (dest, path) with
  | none => simp
  | some found => simp

/-- Whoever works on the destinations. -/
inductive Party (δ : Type) where
  | backup (run : ArtifactRun) (primary : δ)
      (secondaries : List (Except XBackupError δ))
  | prune (dest : δ) (backupIds : List String)

namespace Artifact

variable {δ ι : Type} {lib : ManifestLib} {decoders : Decoders}

def program (lib : ManifestLib) : Party δ → StorageRun δ (Option Reported)
  | .backup run primary secondaries => do
      let reported ← backup lib primary run secondaries
      return some reported
  | .prune dest backupIds => do
      prune dest backupIds
      return none

/-- All parties before their first step. -/
def start (lib : ManifestLib) (parties : ι → Party δ) (st : Objects δ) :
    Pool (StorageOp.Reply (δ := δ)) (Objects δ) ι
      (Except XBackupError (Option Reported)) where
  store := st
  programs party := (program lib (parties party)).run

/-- The artifacts of all the runs. -/
def planned (lib : ManifestLib) (parties : ι → Party δ) : Set Artifact :=
  { artifact | ∃ party run primary secondaries,
    parties party = .backup run primary secondaries ∧
      artifact ∈ ofRun lib run }

/-- What the runs draw is new: no id is drawn twice, nothing is stored under one
yet, and no digest is met twice among the versions of a manifest. -/
structure Setting (lib : ManifestLib) (parties : ι → Party δ) (st : Objects δ) :
    Prop where
  digests : lib.Sound
  ids : Set.InjOn backupId (planned lib parties)
  reads : ∀ artifact ∈ planned lib parties, ∀ version ∈ artifact.versions,
    lib.ReadsBack version
  fresh : ∀ artifact ∈ planned lib parties, ∀ dest (file : ArtifactFile),
    st.objects (dest, file.path artifact.backupId) = none
  distinct : ∀ artifact ∈ planned lib parties, Set.InjOn
    (fun version => lib.sha256 (lib.toVecPretty version))
    { version | version ∈ artifact.versions }

/-- All that belongs to the artifact is there, and of one version. -/
def Whole (lib : ManifestLib) (artifact : Artifact) (dest : δ)
    (st : Objects δ) : Prop :=
  ∃ version ∈ artifact.versions,
    st.objects (dest, manifestPath artifact.backupId) =
      some (lib.toVecPretty version) ∧
    st.objects (dest, manifestShaPath artifact.backupId) =
      some (utf8 (sidecarChecksum lib (lib.toVecPretty version))) ∧
    st.objects (dest, dataPath artifact.backupId) = artifact.data

/-- The manifest has its mark and the sidecar is from before, or the other way
round. -/
def Torn (lib : ManifestLib) (artifact : Artifact) (dest : δ)
    (st : Objects δ) : Prop :=
  ∃ version ∈ artifact.versions, ∃ other ∈ artifact.versions, version ≠ other ∧
    st.objects (dest, manifestPath artifact.backupId) =
      some (lib.toVecPretty version) ∧
    st.objects (dest, manifestShaPath artifact.backupId) =
      some (utf8 (sidecarChecksum lib (lib.toVecPretty other)))

/-- With the keys at hand the data of the artifact decode. -/
def Decodable (decoders : Decoders) (artifact : Artifact) : Prop :=
  ∀ version ∈ artifact.versions, ∀ data, artifact.data = some data →
    ∃ stages plain, reverseStackFor decoders version = .ok stages ∧
      applyStack stages data = .ok plain

/-- The destinations a report speaks of: the primary one, and those whose copy
went well. -/
def Covers (reported : Reported) (primary : δ)
    (secondaries : List (Except XBackupError δ)) (dest : δ) : Prop :=
  dest = primary ∨ ∃ n : Nat, secondaries[n]? = some (.ok dest) ∧
    reported.copies[n]? = some (.ok ())

section Rest

theorem verifiedData_download {dest : δ} {st : Objects δ} {id : String}
    {manifest : ArtifactManifest} {data : List UInt8} :
    verifiedData (st.download dest) id manifest = some data ↔
      st.objects (dest, dataPath id) = some data ∨
        st.objects (dest, dataPath id) = none ∧
          manifest.oplogCount = some 0 ∧ data = [] := by
  rw [verifiedData, Objects.download]
  cases st.objects (dest, dataPath id) with
  | some bytes => simp
  | none => simp [eq_comm]

variable {artifact : Artifact} {dest : δ} {st : Objects δ}

/-- A destination that holds only what was planned passes the check just if it
holds all of it. -/
theorem verifyBackup_iff_whole (hlib : lib.Sound)
    (hsound : artifact.Sound lib)
    (hreads : ∀ version ∈ artifact.versions, lib.ReadsBack version)
    (hdistinct : Set.InjOn
      (fun version => lib.sha256 (lib.toVecPretty version))
      { version | version ∈ artifact.versions })
    (hcontents : ∀ (file : ArtifactFile) bytes,
      st.objects (dest, file.path artifact.backupId) = some bytes →
        bytes ∈ artifact.contents lib file)
    {deep : Bool} (hdeep : deep = true → artifact.Decodable decoders) :
    (∃ report, verifyBackup lib decoders (st.download dest) artifact.backupId
        deep = .ok report) ↔ Whole lib artifact dest st := by
  simp only [verifyBackup_eq_ok hlib]
  constructor
  · rintro ⟨report, manifestBytes, manifest, data, hintact, -, -⟩
    have hstored := Objects.download_eq_ok.mp hintact.stored
    obtain ⟨version, hversion, rfl⟩ := hcontents .manifest _ hstored
    cases (hreads version hversion).symm.trans hintact.parses
    obtain ⟨raw, recorded, hraw, hrecorded, hmatch⟩ := hintact.sidecar
    have hsidecar := Objects.download_eq_ok.mp hraw
    obtain ⟨other, hother, rfl⟩ := hcontents .sidecar _ hsidecar
    rw [fromUtf8Lossy_utf8, parseSidecar_sidecarChecksum hlib] at hrecorded
    cases hrecorded
    have hsame : other = manifest := hdistinct hother hversion
      (hlib.sha256_inj_case (eqIgnoreAsciiCase_self _) hmatch)
    subst hsame
    refine ⟨_, hversion, hstored, hsidecar, ?_⟩
    rcases verifiedData_download.mp hintact.found with
      hobject | ⟨hobject, hcount, -⟩
    · exact hobject.trans (hcontents .data data hobject).symm
    · exact hobject.trans ((hsound.empty _ hversion).mp hcount).symm
  · rintro ⟨version, hversion, hmanifest, hsidecar, hdata⟩
    have hfound : verifiedData (st.download dest) artifact.backupId version =
        some (artifact.data.getD []) := by
      rw [verifiedData_download, hdata]
      cases hstored : artifact.data with
      | some bytes => exact Or.inl rfl
      | none =>
          exact Or.inr ⟨rfl, (hsound.empty version hversion).mpr hstored, rfl⟩
    refine ⟨_, _, version, artifact.data.getD [],
      ⟨Objects.download_eq_ok.mpr hmanifest, hreads version hversion,
        ⟨_, _, Objects.download_eq_ok.mpr hsidecar, ?_,
          eqIgnoreAsciiCase_self _⟩, hfound, ?_⟩, fun htrue => ?_, rfl⟩
    · rw [fromUtf8Lossy_utf8, parseSidecar_sidecarChecksum hlib]
    · rw [hsound.checksum version hversion]
      exact eqIgnoreAsciiCase_self _
    · cases hstored : artifact.data with
      | none =>
          refine Or.inl ⟨(hsound.empty version hversion).mpr hstored, ?_⟩
          rw [Objects.download, hdata, hstored]
          exact ⟨_, rfl⟩
      | some bytes =>
          obtain ⟨stages, plain, hstages, hplain⟩ :=
            hdeep htrue version hversion bytes hstored
          exact Or.inr ⟨stages, bytes, plain, hstages,
            Objects.download_eq_ok.mpr (hdata.trans hstored), hplain⟩

end Rest

section Histories

variable [DecidableEq δ] [DecidableEq ι] {parties : ι → Party δ}
  {st : Objects δ} {labels : List (Interleaving.Label ι Outcome ℕ)}
  {last : Pool (StorageOp.Reply (δ := δ)) (Objects δ) ι
    (Except XBackupError (Option Reported))}

/-- A program that comes to an end has kept what its report promises. -/
def Kept (lib : ManifestLib) (party : Party δ)
    (result : Except XBackupError (Option Reported)) (st : Objects δ) : Prop :=
  ∀ reported, result = .ok (some reported) → ∀ run primary secondaries,
    party = .backup run primary secondaries →
      Promised lib run primary secondaries reported st

omit [DecidableEq ι] in
theorem safe_start (hsetting : Setting lib parties st) :
    (rules lib (planned lib parties)).Safe
      (fun party => Kept lib (parties party)) (start lib parties st) where
  valid := by
    rintro ⟨dest, path⟩ bytes hbytes artifact hplanned file rfl
    cases (hsetting.fresh artifact hplanned dest file).symm.trans hbytes
  keeps party := by
    change (rules lib (planned lib parties)).Keeps (Kept lib (parties party))
      (program lib (parties party)).run st
    cases hparty : parties party with
    | backup run primary secondaries =>
        have hplanned : ∀ artifact ∈ ofRun lib run,
            artifact ∈ planned lib parties := fun artifact hartifact =>
          ⟨party, run, primary, secondaries, hparty, hartifact⟩
        have hreads : ∀ artifact ∈ ofRun lib run,
            ∀ version ∈ artifact.versions, lib.ReadsBack version :=
          fun artifact hartifact =>
            hsetting.reads artifact (hplanned artifact hartifact)
        have hleaves : (rules lib (planned lib parties)).Leaves
            (fun result later => ∀ reported, result = some reported →
              Promised lib run primary secondaries reported later)
            (program lib (.backup run primary secondaries)) st := by
          refine Discipline.Leaves.bind
            (leaves_backup hsetting.ids hplanned hreads) ?_
          intro reported later _ _ hpromised
          refine Discipline.leaves_return fun last _ hgrows other hother => ?_
          cases hother
          exact hpromised.mono hgrows
        refine Discipline.Keeps.imp hleaves fun result later _ _ hresult => ?_
        rintro reported rfl other primary' secondaries' ⟨⟩
        exact hresult _ rfl reported rfl
    | prune dest backupIds =>
        have hleaves : (rules lib (planned lib parties)).Leaves
            (fun _ _ => True) (program lib (.prune dest backupIds)) st :=
          Discipline.Leaves.bind leaves_prune fun _ _ _ _ _ =>
            Discipline.leaves_return fun _ _ _ => trivial
        refine Discipline.Keeps.imp hleaves fun result later _ _ _ => ?_
        exact fun _ _ _ _ _ hother => by cases hother

section Reached

variable (hsetting : Setting lib parties st)
  (hrun : run (step (Objects.storage δ)) (start lib parties st) labels =
    some last)

include hsetting hrun

theorem contents_of_run {artifact : Artifact}
    (hplanned : artifact ∈ planned lib parties) {dest : δ} :
    ∀ (file : ArtifactFile) bytes,
      last.store.objects (dest, file.path artifact.backupId) = some bytes →
        bytes ∈ artifact.contents lib file := fun file bytes hbytes =>
  contents_of_allows hplanned file
    (((safe_start hsetting).run hrun).1.valid _ bytes hbytes)

theorem passes_iff_whole {artifact : Artifact}
    (hplanned : artifact ∈ planned lib parties) (dest : δ) {deep : Bool}
    (hdeep : deep = true → artifact.Decodable decoders) :
    (∃ report, verifyBackup lib decoders (last.store.download dest)
        artifact.backupId deep = .ok report) ↔
      Whole lib artifact dest last.store := by
  have hsound : artifact.Sound lib := by
    obtain ⟨party, run, primary, secondaries, -, hartifact⟩ := hplanned
    exact sound_ofRun artifact hartifact
  exact verifyBackup_iff_whole hsetting.digests hsound
    (hsetting.reads artifact hplanned) (hsetting.distinct artifact hplanned)
    (contents_of_run hsetting hrun hplanned) hdeep

/-- At any time of any history and at every destination, a backup passes its
check just if the whole of it is there; the data are then what its run stored. -/
theorem verify_exact (dest : δ) {deep : Bool}
    (hdeep : deep = true →
      ∀ artifact ∈ planned lib parties, artifact.Decodable decoders) :
    ∀ artifact ∈ planned lib parties,
      ((∃ report, verifyBackup lib decoders (last.store.download dest)
          artifact.backupId deep = .ok report) ↔
        Whole lib artifact dest last.store) :=
  fun artifact hplanned => passes_iff_whole hsetting hrun hplanned dest
    fun htrue => hdeep htrue artifact hplanned

/-- With no delete of them the files are there, the manifest and the sidecar of
one version or of two. -/
theorem whole_or_torn {artifact : Artifact}
    (hplanned : artifact ∈ planned lib parties) {dest : δ}
    (hfiled : Filed artifact dest last.store)
    (hkept : ∀ file : ArtifactFile, file ≠ .index →
      (dest, file.path artifact.backupId) ∉ last.store.deletes) :
    Whole lib artifact dest last.store ∨ Torn lib artifact dest last.store := by
  have hthere : ∀ file : ArtifactFile, file ≠ .index →
      last.store.Held (dest, file.path artifact.backupId) →
        ∃ bytes ∈ artifact.contents lib file,
          last.store.objects (dest, file.path artifact.backupId) =
            some bytes := by
    intro file hfile hheld
    obtain ⟨bytes, hbytes⟩ := Option.isSome_iff_exists.mp
      (hheld.resolve_right (hkept file hfile))
    exact ⟨bytes, contents_of_run hsetting hrun hplanned file bytes hbytes,
      hbytes⟩
  obtain ⟨-, ⟨version, hversion, rfl⟩, hmanifest⟩ :=
    hthere .manifest (by decide) hfiled.manifest
  obtain ⟨-, ⟨other, hother, rfl⟩, hsidecar⟩ :=
    hthere .sidecar (by decide) hfiled.sidecar
  by_cases hsame : version = other
  · subst hsame
    refine Or.inl ⟨version, hversion, hmanifest, hsidecar, ?_⟩
    cases hdata : artifact.data with
    | some data =>
        obtain ⟨bytes, hbytes, hobject⟩ := hthere .data (by decide)
          (hfiled.data (by rw [hdata]; rfl))
        exact hobject.trans (hbytes.symm.trans hdata)
    | none =>
        rw [Option.eq_none_iff_forall_ne_some]
        intro bytes hobject
        have hbytes := contents_of_run hsetting hrun hplanned .data bytes hobject
        cases hdata.symm.trans hbytes
  · exact Or.inr ⟨version, hversion, other, hother, hsame, hmanifest, hsidecar⟩

omit [DecidableEq δ] [DecidableEq ι] hrun in
theorem not_torn_of_whole {artifact : Artifact}
    (hplanned : artifact ∈ planned lib parties) {dest : δ} {now : Objects δ}
    (hwhole : Whole lib artifact dest now) : ¬ Torn lib artifact dest now := by
  obtain ⟨kept, hkept, hmanifest, hsidecar, -⟩ := hwhole
  rintro ⟨version, hversion, other, hother, hne, hmanifest', hsidecar'⟩
  have hbytes := Option.some.inj (hmanifest.symm.trans hmanifest')
  have htext := utf8_injective (Option.some.inj (hsidecar.symm.trans hsidecar'))
  have hread := hsetting.reads artifact hplanned kept hkept
  have hread' := hsetting.reads artifact hplanned version hversion
  rw [ManifestLib.ReadsBack] at hread hread'
  rw [hbytes] at hread
  have hparsed := parseSidecar_sidecarChecksum hsetting.digests
    (lib.toVecPretty kept)
  rw [htext, parseSidecar_sidecarChecksum hsetting.digests] at hparsed
  have hlast : other = kept := hsetting.distinct artifact hplanned hother hkept
    (Option.some.inj hparsed)
  exact hne ((Except.ok.inj (hread'.symm.trans hread)).trans hlast.symm)

end Reached

end Histories

section Notes

/-- A backup of a PostgreSQL database that holds one note. -/
def notePlan : FullPlan where
  upload := ⟨noteId, noteData⟩
  stages := ⟨id, ⟨none, none⟩⟩
  createdAt := "2026-01-01T00:00:00Z"
  kind := .postgres false
  ended := .ok ()
  asked := .ok ()

def noteParties : Unit → Party Unit := fun _ =>
  .backup (.full notePlan) () []

def emptyStore : Objects Unit := ⟨fun _ => none, [], []⟩

theorem planned_notes :
    planned noteLib noteParties = {ofFull noteLib notePlan} := by
  ext artifact
  constructor
  · rintro ⟨party, run, primary, secondaries, ⟨⟩, hartifact⟩
    exact List.mem_singleton.mp hartifact
  · rintro rfl
    exact ⟨(), _, _, _, rfl, List.mem_singleton.mpr rfl⟩

theorem fullManifest_note : fullManifest noteLib notePlan = noteManifest := by
  have hsha : noteLib.sha256 (notePlan.stages.apply notePlan.upload.bytes) =
      noteDataSha := noteSha_noteData
  rw [fullManifest, dumped, hsha]
  rfl

theorem setting_notes : Setting noteLib noteParties emptyStore where
  digests := noteLib_sound
  ids := by
    rw [planned_notes]
    exact Set.injOn_singleton _ _
  reads := by
    rw [planned_notes]
    rintro artifact rfl version hversion
    rw [List.mem_singleton.mp hversion, fullManifest_note]
    exact noteLib_reads
  fresh _ _ _ _ := rfl
  distinct := by
    rw [planned_notes]
    rintro artifact rfl version hversion other hother -
    exact (List.mem_singleton.mp hversion).trans
      (List.mem_singleton.mp hother).symm

/-- Three uploads, all of which succeed. -/
def noteLabels : List (Interleaving.Label Unit Outcome ℕ) :=
  List.replicate 3 (.turn () .done)

theorem run_notes : ∃ last,
    run (step (Objects.storage Unit)) (start noteLib noteParties emptyStore)
      noteLabels = some last ∧
    last.store.deletes = [] ∧
    last.programs () = .ret (.ok (some ⟨⟨noteId, 2⟩, []⟩)) :=
  ⟨_, rfl, rfl, rfl⟩

theorem verify_exact_notes : ∃ last,
    run (step (Objects.storage Unit)) (start noteLib noteParties emptyStore)
      noteLabels = some last ∧
    ∀ artifact ∈ planned noteLib noteParties,
      ((∃ report, verifyBackup noteLib keyless (last.store.download ())
          artifact.backupId false = .ok report) ↔
        Whole noteLib artifact () last.store) := by
  obtain ⟨last, hrun, -, -⟩ := run_notes
  exact ⟨last, hrun, verify_exact setting_notes hrun ()
    fun hdeep => absurd hdeep Bool.false_ne_true⟩

end Notes

end Artifact

end XBackup
