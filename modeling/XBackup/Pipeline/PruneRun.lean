/-
Executing a prune plan: the deletes in their order, against a storage that may
refuse any of them.  A run that stops somewhere has deleted a first part of the
planned paths.
-/
import XBackup.Foundation.Infixes
import XBackup.Foundation.Interrupted
import XBackup.Foundation.Precedence
import XBackup.Pipeline.PruneSafety

namespace XBackup

open Infixes Interrupted Precedence

def DATA_FILE : String := "data.bin"
def MANIFEST_FILE : String := "manifest.json"
def MANIFEST_SHA_FILE : String := "manifest.json.sha256"
def FILE_INDEX_FILE : String := "index.json.zst"

def pathIn (backupId file : String) : String := backupId ++ "/" ++ file

def dataPath (backupId : String) : String := pathIn backupId DATA_FILE
def manifestPath (backupId : String) : String := pathIn backupId MANIFEST_FILE
def manifestShaPath (backupId : String) : String :=
  pathIn backupId MANIFEST_SHA_FILE
def fileIndexPath (backupId : String) : String := pathIn backupId FILE_INDEX_FILE

/-- What a storage answers besides doing what it is asked: the text with which
it refuses its n-th delete, and the one it has for a path that is not there, if
it has one. -/
structure Backend where
  refusal : Nat → String → Option String
  missing : String → Option String

/-- The paths of a storage and the deletes it was asked for. -/
structure DeleteRun where
  entries : List String
  calls : Nat
deriving DecidableEq, Repr

def deleteFailed (path text : String) : String :=
  "'" ++ path ++ "': delete failed: " ++ text

/-- `Storage::delete` of either backend. -/
def Backend.delete (backend : Backend) (path : String) (run : DeleteRun) :
    Except XBackupError Unit × DeleteRun :=
  let next := { run with calls := run.calls + 1 }
  match backend.refusal run.calls path with
  | some text => (.error (.storageDownload (deleteFailed path text)), next)
  | none =>
      if path ∈ run.entries then
        (.ok (), { next with entries := run.entries.filter (· ≠ path) })
      else
        match backend.missing path with
        | some text => (.error (.storageDownload (deleteFailed path text)), next)
        | none => (.ok (), next)

/-- The texts by which an error is taken for the absence of the path. -/
def absenceTexts : List String :=
  ["not found", "No such file", "NotFound", "찾을 수 없"]

def tellsAbsence (text : String) : Bool :=
  absenceTexts.any fun absence => absence.toList <:+: text.toList

/-- The text of an error; its class is not part of it. -/
def XBackupError.message : XBackupError → String
  | .failure message => message
  | .usage message => message
  | .precheckFailed message => message
  | .storageDownload message => message
  | .storageUpload message => message

def deleteIfExists (backend : Backend) (path : String) (run : DeleteRun) :
    Option XBackupError × DeleteRun :=
  match backend.delete path run with
  | (.ok (), next) => (none, next)
  | (.error err, next) =>
      if tellsAbsence err.message then (none, next)
      else (some (.storageDownload (deleteFailed path err.message)), next)

/-- The files of a backup in the order they go, the manifest last. -/
def backupPaths (backupId : String) : List String :=
  [dataPath backupId, manifestShaPath backupId, fileIndexPath backupId,
    manifestPath backupId]

def deleteOneBackup (backend : Backend) (backupId : String) :
    DeleteRun → Option XBackupError × DeleteRun :=
  run (deleteIfExists backend) (backupPaths backupId)

/-- The increments from the newest on, the base last. -/
def deleteOrder (memberIds : List String) : List String :=
  match memberIds with
  | [] => []
  | base :: increments => increments.reverse ++ [base]

structure PruneOutcome where
  deletedBackups : Nat
  deletedChains : Nat
deriving DecidableEq, Repr

def selectedTargets (plan : PrunePlan) (includeForceOnly : Bool) :
    List PruneTarget :=
  plan.targets.filter fun target =>
    includeForceOnly || target.kind.isNormalChain

def executePrune (backend : Backend) (plan : PrunePlan)
    (includeForceOnly : Bool) (start : DeleteRun) :
    Except XBackupError PruneOutcome × DeleteRun :=
  let selected := selectedTargets plan includeForceOnly
  match run (fun target : PruneTarget =>
      run (deleteOneBackup backend) (deleteOrder target.memberIds))
    selected start with
  | (some err, stopped) => (.error err, stopped)
  | (none, finished) =>
      (.ok
        { deletedBackups :=
            (selected.map fun target => target.memberIds.length).sum
          deletedChains := selected.countP fun target =>
            target.kind.isNormalChain }, finished)

/-- The ids in the order they are deleted. -/
def deletedOrder (plan : PrunePlan) (includeForceOnly : Bool) : List String :=
  (selectedTargets plan includeForceOnly).flatMap fun target =>
    deleteOrder target.memberIds

def plannedPaths (plan : PrunePlan) (includeForceOnly : Bool) : List String :=
  (deletedOrder plan includeForceOnly).flatMap backupPaths

/-- The nested loops delete the planned paths one after the other. -/
theorem executePrune_state (backend : Backend) (plan : PrunePlan)
    (includeForceOnly : Bool) (start : DeleteRun) :
    (executePrune backend plan includeForceOnly start).2 =
      (run (deleteIfExists backend) (plannedPaths plan includeForceOnly)
        start).2 := by
  have hnested : (fun target : PruneTarget =>
      run (deleteOneBackup backend) (deleteOrder target.memberIds)) =
      fun target : PruneTarget => run (deleteIfExists backend)
        ((deleteOrder target.memberIds).flatMap backupPaths) := by
    funext target state
    exact run_flatMap (deleteIfExists backend) backupPaths _ state
  rw [executePrune, hnested, run_flatMap, plannedPaths, deletedOrder, List.flatMap_assoc]
  cases run (deleteIfExists backend)
      ((selectedTargets plan includeForceOnly).flatMap fun target =>
        (deleteOrder target.memberIds).flatMap backupPaths) start with
  | mk failure state =>
      cases failure with
      | none => rfl
      | some err => rfl

theorem deleteOrder_perm (memberIds : List String) :
    (deleteOrder memberIds).Perm memberIds := by
  cases memberIds with
  | nil => exact List.Perm.refl _
  | cons base increments =>
      rw [deleteOrder]
      exact (List.perm_append_singleton base _).trans
        ((List.reverse_perm increments).cons base)

theorem mem_deletedOrder {plan : PrunePlan} {includeForceOnly : Bool}
    {id : String} :
    id ∈ deletedOrder plan includeForceOnly ↔
      id ∈ plan.deletableMemberIds includeForceOnly := by
  rw [deletedOrder, PrunePlan.deletableMemberIds, List.mem_flatMap,
    List.mem_flatMap]
  simp only [(deleteOrder_perm _).mem_iff, selectedTargets]

theorem pathIn_inj {left right file other : String}
    (hfile : '/' ∉ file.toList) (hother : '/' ∉ other.toList)
    (heq : pathIn left file = pathIn right other) :
    left = right ∧ file = other := by
  have hlists := congrArg String.toList heq
  simp only [pathIn, String.toList_append, List.append_assoc] at hlists
  obtain ⟨hids, hfiles⟩ := append_sep_inj hfile hother hlists
  exact ⟨String.toList_inj.mp hids, String.toList_inj.mp hfiles⟩

/-- The file names of a backup. -/
def backupFiles : List String :=
  [DATA_FILE, MANIFEST_SHA_FILE, FILE_INDEX_FILE, MANIFEST_FILE]

theorem sep_notMem_backupFiles :
    ∀ file ∈ backupFiles, '/' ∉ file.toList := by
  decide

theorem backupPaths_eq (backupId : String) :
    backupPaths backupId = backupFiles.map (pathIn backupId) := rfl

/-- A file of a backup is among the paths of that backup alone. -/
theorem pathIn_mem_backupPaths {left right file : String}
    (hfile : file ∈ backupFiles) :
    pathIn left file ∈ backupPaths right ↔ left = right := by
  rw [backupPaths_eq, List.mem_map]
  constructor
  · rintro ⟨other, hother, heq⟩
    exact (pathIn_inj (sep_notMem_backupFiles other hother)
      (sep_notMem_backupFiles file hfile) heq).1.symm
  · rintro rfl
    exact ⟨file, hfile, rfl⟩

theorem pathIn_mem_plannedPaths {plan : PrunePlan} {includeForceOnly : Bool}
    {id file : String} (hfile : file ∈ backupFiles) :
    pathIn id file ∈ plannedPaths plan includeForceOnly ↔
      id ∈ plan.deletableMemberIds includeForceOnly := by
  rw [plannedPaths, List.mem_flatMap, ← mem_deletedOrder]
  constructor
  · rintro ⟨other, hother, hpath⟩
    rwa [(pathIn_mem_backupPaths hfile).mp hpath]
  · intro hid
    exact ⟨id, hid, (pathIn_mem_backupPaths hfile).mpr rfl⟩

theorem backupPaths_nodup (id : String) : (backupPaths id).Nodup := by
  rw [backupPaths_eq]
  apply List.Nodup.map_on ?_ (by decide)
  intro file hfile other hother heq
  exact (pathIn_inj (sep_notMem_backupFiles file hfile)
    (sep_notMem_backupFiles other hother) heq).2

/-- Where the manifest of a backup has been reached, the backup is done and so
is all that is ordered before it. -/
theorem manifest_reached {ids : List String} {cut : List String} {id : String}
    (hcut : cut <+: ids.flatMap backupPaths) (hmem : manifestPath id ∈ cut) :
    ∃ front, front <+: ids ∧ id ∈ front ∧
      front.flatMap backupPaths <+: cut := by
  have hfile : MANIFEST_FILE ∈ backupFiles := by decide
  refine complete_of_last hcut hmem ?_ ?_
  · intro other hpath
    exact ((pathIn_mem_backupPaths hfile).mp hpath).symm
  · rintro part ⟨tail, htail⟩ hreached
    cases htailCase : tail with
    | nil => rw [← htail, htailCase, List.append_nil]
    | cons head rest =>
        have hlast : manifestPath id ∈ tail := by
          have hne : tail ≠ [] := by simp [htailCase]
          have hend : (part ++ tail).getLast (by simp [hne]) =
              manifestPath id := by
            simp only [htail]
            rfl
          rw [List.getLast_append_of_ne_nil _ hne] at hend
          rw [← hend]
          exact List.getLast_mem hne
        have hnodup := backupPaths_nodup id
        rw [← htail] at hnodup
        exact absurd hlast
          (List.disjoint_of_nodup_append hnodup hreached)

/-! What the storage answers. -/

structure Backend.Honest (backend : Backend) : Prop where
  refusal : ∀ n path text, backend.refusal n path = some text →
    tellsAbsence text = false

theorem tellsAbsence_pathIn {id file : String} (hfile : file ∈ backupFiles) :
    tellsAbsence (pathIn id file) = tellsAbsence id := by
  have hwords : ∀ word ∈ absenceTexts, '/' ∉ word.toList ∧
      ∀ file ∈ backupFiles, ¬ word.toList <:+: file.toList := by decide
  rw [Bool.eq_iff_iff, tellsAbsence, tellsAbsence, List.any_eq_true,
    List.any_eq_true]
  refine exists_congr fun word => and_congr_right fun hword => ?_
  obtain ⟨hsep, hnone⟩ := hwords word hword
  have htext : (pathIn id file).toList = id.toList ++ '/' :: file.toList := by
    simp [pathIn]
  rw [decide_eq_true_iff, decide_eq_true_iff, htext, infix_sep_iff hsep]
  simp [hnone file hfile]

/-- The apostrophe around the path of an error. -/
def apostrophe : Char := Char.ofNat 39

/-- A failed delete tells absence by its path or by the text of the storage. -/
theorem tellsAbsence_deleteFailed (path text : String) :
    tellsAbsence (deleteFailed path text) =
      (tellsAbsence path || tellsAbsence text) := by
  have hwords : ∀ word ∈ absenceTexts, apostrophe ∉ word.toList ∧
      ¬ word.toList <:+: ": delete failed: ".toList ∧
      word.toList ≠ [] ∧
      ∀ front ∈ word.toList.inits, front ≠ [] → front ≠ word.toList →
        ¬ front <:+ ": delete failed: ".toList := by decide
  rw [Bool.eq_iff_iff, Bool.or_eq_true, tellsAbsence, tellsAbsence,
    tellsAbsence, List.any_eq_true, List.any_eq_true, List.any_eq_true,
    ← exists_or]
  refine exists_congr fun word => ?_
  rw [← and_or_left]
  refine and_congr_right fun hword => ?_
  obtain ⟨hquote, hnone, hne, hfronts⟩ := hwords word hword
  have htext : (deleteFailed path text).toList =
      [] ++ apostrophe :: (path.toList ++
        apostrophe :: (": delete failed: ".toList ++ text.toList)) := by
    simp [deleteFailed, apostrophe]
  have hborder : ∀ front back, front ≠ [] → back ≠ [] →
      word.toList = front ++ back → front <:+ ": delete failed: ".toList →
        ¬ back <+: text.toList := by
    intro front back hfront hback hsplit hend _
    refine hfronts front ?_ hfront ?_ hend
    · exact (List.mem_inits front word.toList).mpr ⟨back, hsplit.symm⟩
    · intro hwhole
      rw [hwhole] at hsplit
      exact hback (List.self_eq_append_right.mp hsplit)
  rw [decide_eq_true_iff, decide_eq_true_iff, decide_eq_true_iff, htext,
    infix_sep_iff hquote, infix_sep_iff hquote,
    infix_append_iff_of_border hborder, List.infix_nil]
  simp only [hne, hnone, false_or]

/-- A delete takes away its own path, unless it is refused. -/
theorem deleteIfExists_effect (backend : Backend) (path : String)
    (state : DeleteRun) :
    (deleteIfExists backend path state).2.calls = state.calls + 1 ∧
      ∀ other, other ∈ (deleteIfExists backend path state).2.entries ↔
        other ∈ state.entries ∧
          (other = path → (backend.refusal state.calls path).isSome) := by
  rw [deleteIfExists, Backend.delete]
  cases hrefusal : backend.refusal state.calls path with
  | some text =>
      dsimp only
      split_ifs
      · exact ⟨rfl, by simp⟩
      · exact ⟨rfl, by simp⟩
  | none =>
      by_cases hmem : path ∈ state.entries
      · simp only [if_pos hmem]
        exact ⟨trivial, by simp⟩
      · have hgone : ∀ other, other ∈ state.entries ↔
            other ∈ state.entries ∧ (other = path → false = true) := by
          intro other
          refine ⟨fun hother => ⟨hother, ?_⟩, And.left⟩
          rintro rfl
          exact absurd hother hmem
        simp only [if_neg hmem]
        cases backend.missing path with
        | none => exact ⟨rfl, hgone⟩
        | some text =>
            dsimp only
            split_ifs
            · exact ⟨rfl, hgone⟩
            · exact ⟨rfl, hgone⟩

theorem run_entries_subset (backend : Backend) (paths : List String)
    (state : DeleteRun) {path : String}
    (hafter : path ∈ (run (deleteIfExists backend) paths state).2.entries) :
    path ∈ state.entries := by
  induction paths generalizing state with
  | nil => exact hafter
  | cons head rest ih =>
      have heffect := (deleteIfExists_effect backend head state).2
      rw [run] at hafter
      cases hresult : deleteIfExists backend head state with
      | mk failure next =>
          rw [hresult] at hafter heffect
          cases failure with
          | none => exact ((heffect path).mp (ih next hafter)).1
          | some err => exact ((heffect path).mp hafter).1

/-- A path stays if every delete of it is refused. -/
theorem run_keeps {backend : Backend} {paths : List String} {state : DeleteRun}
    {path : String} (hthere : path ∈ state.entries)
    (hrefused : ∀ n, paths[n]? = some path →
      (backend.refusal (state.calls + n) path).isSome) :
    path ∈ (run (deleteIfExists backend) paths state).2.entries := by
  induction paths generalizing state with
  | nil => exact hthere
  | cons head rest ih =>
      obtain ⟨hcalls, heffect⟩ := deleteIfExists_effect backend head state
      rw [run]
      cases hresult : deleteIfExists backend head state with
      | mk failure next =>
          rw [hresult] at hcalls heffect
          have hnext : path ∈ next.entries := by
            refine (heffect path).mpr ⟨hthere, ?_⟩
            rintro rfl
            exact hrefused 0 rfl
          cases failure with
          | some err => exact hnext
          | none =>
              refine ih hnext fun n hn => ?_
              have hlater := hrefused (n + 1) hn
              have hcount : next.calls + n = state.calls + (n + 1) := by
                rw [hcalls]
                omega
              rwa [hcount]

/-- A delete that does not stop the run, whatever the storage holds. -/
def Passes (backend : Backend) (calls : Nat) (path : String) : Prop :=
  ∀ entries, (deleteIfExists backend path ⟨entries, calls⟩).1 = none

/-- A path is gone if the run reaches it and its delete is not refused. -/
theorem run_deletes {backend : Backend} {front rest : List String}
    {state : DeleteRun} {path : String}
    (hfront : ∀ n other, front[n]? = some other →
      Passes backend (state.calls + n) other)
    (hgranted : backend.refusal (state.calls + front.length) path = none) :
    path ∉ (run (deleteIfExists backend) (front ++ path :: rest)
      state).2.entries := by
  induction front generalizing state with
  | nil =>
      have heffect := (deleteIfExists_effect backend path state).2 path
      rw [List.length_nil, Nat.add_zero] at hgranted
      rw [List.nil_append, run]
      cases hresult : deleteIfExists backend path state with
      | mk failure next =>
          rw [hresult, hgranted] at heffect
          have hgone : path ∉ next.entries := fun hmem =>
            absurd ((heffect.mp hmem).2 rfl) (by simp)
          cases failure with
          | none =>
              intro hafter
              exact hgone (run_entries_subset backend rest next hafter)
          | some err => exact hgone
  | cons head front ih =>
      have hpasses := hfront 0 head rfl state.entries
      have hcalls := (deleteIfExists_effect backend head state).1
      rw [List.cons_append, run]
      cases hresult : deleteIfExists backend head state with
      | mk failure next =>
          have hsame : deleteIfExists backend head
              ⟨state.entries, state.calls + 0⟩ = (failure, next) := hresult
          rw [hsame] at hpasses
          rw [hresult] at hcalls
          subst hpasses
          have hcount : ∀ n, next.calls + n = state.calls + (n + 1) := by
            intro n
            rw [hcalls]
            omega
          refine ih ?_ ?_
          · intro n other hother
            rw [hcount]
            exact hfront (n + 1) other hother
          · rw [hcount]
            exact hgranted

/-- A storage that denies some deletes and grants the others. -/
def denying (denies : Nat → String → Bool) : Backend where
  refusal n path :=
    if denies n path then some "Permission denied (os error 13)" else none
  missing _ := none

theorem denying_honest (denies : Nat → String → Bool) :
    (denying denies).Honest where
  refusal n path text htext := by
    rw [denying] at htext
    dsimp only at htext
    split at htext
    · cases htext
      decide
    · cases htext

/-- What is not denied passes, and so does what the path itself excuses. -/
theorem denying_passes {denies : Nat → String → Bool} {calls : Nat}
    {path : String} (hpath : denies calls path = true →
      tellsAbsence path = true) : Passes (denying denies) calls path := by
  intro entries
  rw [deleteIfExists, Backend.delete, denying]
  dsimp only
  by_cases hdenies : denies calls path = true
  · simp only [if_pos hdenies, XBackupError.message, tellsAbsence_deleteFailed,
      hpath hdenies, Bool.true_or, if_true]
  · by_cases hmem : path ∈ entries
    · simp [hdenies, hmem]
    · simp [hdenies, hmem]

/-- The paths of the backups of a catalog. -/
def catalogPaths (manifests : List BackupManifest) : List String :=
  manifests.flatMap fun m => backupPaths m.id

/-- The catalog paths of a storage are the ones it had, less the ones done. -/
def Deleted (manifests : List BackupManifest) (before done : List String)
    (state : DeleteRun) : Prop :=
  ∀ path ∈ catalogPaths manifests,
    path ∈ state.entries ↔ path ∈ before ∧ path ∉ done

theorem extends_deleted {backend : Backend} {manifests : List BackupManifest}
    {before paths : List String} (hhonest : backend.Honest)
    (hpaths : ∀ path ∈ paths, path ∈ catalogPaths manifests →
      tellsAbsence path = false) :
    Extends (deleteIfExists backend) (Deleted manifests before) paths := by
  intro done path hpath state hdone
  -- a path that is not there, or not of the catalog, is done as it is
  have hskip : path ∉ state.entries ∨ path ∉ catalogPaths manifests →
      Deleted manifests before (done ++ [path])
        { state with calls := state.calls + 1 } := by
    intro hgone other hother
    have hold := hdone other hother
    rw [List.mem_append, List.mem_singleton]
    by_cases hsame : other = path
    · subst hsame
      have habsent := hgone.resolve_right (not_not_intro hother)
      exact ⟨fun hmem => absurd hmem habsent,
        fun hboth => absurd (Or.inr rfl) hboth.2⟩
    · simpa [hsame] using hold
  rw [deleteIfExists, Backend.delete]
  cases hrefusal : backend.refusal state.calls path with
  | some text =>
      dsimp only
      rw [XBackupError.message, tellsAbsence_deleteFailed,
        hhonest.refusal _ _ _ hrefusal, Bool.or_false]
      by_cases hlisted : path ∈ catalogPaths manifests
      · rw [hpaths path hpath hlisted]
        exact hdone
      · by_cases htells : tellsAbsence path = true
        · rw [if_pos htells]
          exact hskip (Or.inr hlisted)
        · rw [if_neg htells]
          exact hdone
  | none =>
      by_cases hmem : path ∈ state.entries
      · simp only [if_pos hmem]
        intro other hother
        have hold := hdone other hother
        by_cases hsame : other = path
        · simp [hsame]
        · simpa [hsame] using hold
      · simp only [if_neg hmem]
        cases backend.missing path with
        | none => exact hskip (Or.inl hmem)
        | some text =>
            dsimp only
            by_cases htells : tellsAbsence (XBackupError.message
                (.storageDownload (deleteFailed path text))) = true
            · rw [if_pos htells]
              exact hskip (Or.inl hmem)
            · rw [if_neg htells]
              exact hdone

/-- A run against an honest storage deletes a first part of the planned
paths. -/
theorem executePrune_stops {backend : Backend}
    {manifests : List BackupManifest} {plan : PrunePlan}
    {includeForceOnly : Bool} (hhonest : backend.Honest)
    (hpaths : ∀ path ∈ plannedPaths plan includeForceOnly,
      path ∈ catalogPaths manifests → tellsAbsence path = false)
    (before : List String) (calls : Nat) :
    ∃ done, done <+: plannedPaths plan includeForceOnly ∧
      Deleted manifests before done
        (executePrune backend plan includeForceOnly ⟨before, calls⟩).2 := by
  have hstart : Deleted manifests before [] ⟨before, calls⟩ := by
    intro path _
    simp
  obtain ⟨done, rest, hsplit, hdone, -⟩ :=
    run_stops (extends_deleted hhonest hpaths) hstart
  rw [executePrune_state]
  exact ⟨done, ⟨rest, hsplit.symm⟩, hdone⟩

end XBackup
