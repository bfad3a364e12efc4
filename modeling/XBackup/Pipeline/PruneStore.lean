/-
A prune of a destination.  Its directories are listed and read under their
names and planned and deleted under the ids their manifests state: what is
deleted is what was judged exactly when each chain keeps to its own names.
-/
import XBackup.Manifest.Store
import XBackup.Pipeline.PruneRun

namespace XBackup

open Ranking Interrupted SortedNames

/-- The paths of a destination and what the manifest of a directory reads as. -/
structure ObjectStore where
  entries : List String
  read : String → Except XBackupError BackupManifest

def stripSuffix (suffix path : String) : Option String :=
  if suffix.toList <:+ path.toList then
    some (String.ofList
      (path.toList.take (path.toList.length - suffix.toList.length)))
  else none

/-- The directories that hold a file. -/
def dirsHolding (file : String) (entries : List String) : List String :=
  entries.filterMap (stripSuffix ("/" ++ file))

def ObjectStore.catalog (store : ObjectStore) : Storage where
  manifestDirs := dirsHolding MANIFEST_FILE store.entries
  read := store.read

/-- Data whose directory is not known and has no manifest file either. -/
def detectOrphanIds (store : ObjectStore) (knownIds : List String) :
    List String :=
  sortDedup (((dirsHolding DATA_FILE store.entries).filter isBackupId).filter
    fun id => id ∉ knownIds ∧ id ++ ("/" ++ MANIFEST_FILE) ∉ store.entries)

/-- The manifests that can be read, and the orphans. -/
def loadBackups (store : ObjectStore) : List BackupManifest × List String :=
  let ids := collectManifestIds store.catalog
  (ids.filterMap fun id => (store.read id).toOption, detectOrphanIds store ids)

def planStore (parse : String → Option I64) (store : ObjectStore)
    (policy : RetentionPolicy) (nowSecs : ℤ) : PrunePlan :=
  let (manifests, orphanIds) := loadBackups store
  planPrune parse manifests orphanIds policy nowSecs

def pruneStore (backend : Backend) (parse : String → Option I64)
    (store : ObjectStore) (policy : RetentionPolicy) (nowSecs : ℤ)
    (includeForceOnly : Bool) : Except XBackupError PruneOutcome × DeleteRun :=
  executePrune backend (planStore parse store policy nowSecs) includeForceOnly
    ⟨store.entries, 0⟩

/-- The manifest of a directory was judged as `m`. -/
structure Loaded (store : ObjectStore) (dir : String) (m : BackupManifest) :
    Prop where
  listed : dir ∈ collectManifestIds store.catalog
  reads : store.read dir = .ok m

/-- A storage that deletes what it is asked to; a path that is not there it may
report as absent. -/
structure Backend.Granting (backend : Backend) : Prop where
  refusal : ∀ n path, backend.refusal n path = none
  missing : ∀ path text, backend.missing path = some text →
    tellsAbsence text = true

/-- What a prune promises of the directories it judged. -/
structure DeletesJudged (parse : String → Option I64) (store : ObjectStore)
    (policy : RetentionPolicy) (nowSecs : ℤ) : Prop where
  kept : ∀ includeForceOnly backend dir m, Loaded store dir m →
    ∀ base ∈ (loadBackups store).1, opensChain base = true →
      base.id ∈ (planStore parse store policy nowSecs).keptBaseIds →
      ChainMember m base → ∀ file ∈ [DATA_FILE, MANIFEST_FILE],
        pathIn dir file ∈ (pruneStore backend parse store policy nowSecs
            includeForceOnly).2.entries ↔ pathIn dir file ∈ store.entries
  dropped : ∀ includeForceOnly backend, Backend.Granting backend →
    ∀ dir m, Loaded store dir m →
    ∀ target ∈ (planStore parse store policy nowSecs).targets,
      target.kind = .chain → m.id ∈ target.memberIds →
      ∀ file ∈ [DATA_FILE, MANIFEST_FILE],
        pathIn dir file ∉ (pruneStore backend parse store policy nowSecs
          includeForceOnly).2.entries

/-- No directory shares the id of a backup of a chain. -/
def IdsDistinct (store : ObjectStore) : Prop :=
  ∀ dir m other m', Loaded store dir m → Loaded store other m' →
    ¬ Unchained (loadBackups store).1 m → m'.id = m.id → other = dir

/-- The ids of the chains are distinct, and the directories of a chain are named
by ids of that chain. -/
structure ChainsOwnNames (store : ObjectStore) : Prop where
  distinct : IdsDistinct store
  named : ∀ dir m, Loaded store dir m →
    ∀ base ∈ (loadBackups store).1, opensChain base = true → ChainMember m base →
      ∃ m' ∈ (loadBackups store).1, ChainMember m' base ∧ m'.id = dir

theorem stripSuffix_eq_some_iff {suffix path front : String} :
    stripSuffix suffix path = some front ↔ front ++ suffix = path := by
  rw [stripSuffix]
  constructor
  · intro hstrip
    split_ifs at hstrip with hsuffix
    obtain ⟨letters, hletters⟩ := hsuffix
    rw [← hletters, List.length_append, Nat.add_sub_cancel, List.take_left,
      Option.some.injEq] at hstrip
    rw [← String.toList_inj, String.toList_append, ← hstrip,
      String.toList_ofList, hletters]
  · rintro rfl
    rw [String.toList_append, if_pos (List.suffix_append _ _),
      List.length_append, Nat.add_sub_cancel, List.take_left,
      String.ofList_toList]

theorem mem_dirsHolding {file : String} {entries : List String}
    {dir : String} :
    dir ∈ dirsHolding file entries ↔ pathIn dir file ∈ entries := by
  rw [dirsHolding, List.mem_filterMap]
  simp only [stripSuffix_eq_some_iff]
  constructor
  · rintro ⟨path, hpath, rfl⟩
    rwa [pathIn, String.append_assoc]
  · intro hpath
    refine ⟨_, hpath, ?_⟩
    rw [pathIn, String.append_assoc]

section Catalog

variable {store : ObjectStore} {dir : String} {m : BackupManifest}

theorem loaded_of_read (hdir : dir ∈ collectManifestIds store.catalog)
    (hread : (store.read dir).toOption = some m) : Loaded store dir m := by
  cases hresult : store.read dir with
  | error err => simp [hresult, Except.toOption] at hread
  | ok other =>
      rw [hresult, Except.toOption, Option.some.injEq] at hread
      exact ⟨hdir, by rw [hresult, hread]⟩

theorem mem_loadBackups :
    m ∈ (loadBackups store).1 ↔ ∃ dir, Loaded store dir m := by
  rw [loadBackups, List.mem_filterMap]
  constructor
  · rintro ⟨dir, hdir, hread⟩
    exact ⟨dir, loaded_of_read hdir hread⟩
  · rintro ⟨dir, hdir, hread⟩
    exact ⟨dir, hdir, by rw [hread, Except.toOption]⟩

theorem Loaded.mem (hloaded : Loaded store dir m) :
    m ∈ (loadBackups store).1 :=
  mem_loadBackups.mpr ⟨dir, hloaded⟩

theorem Loaded.manifest_eq {other : BackupManifest}
    (hloaded : Loaded store dir m) (hother : Loaded store dir other) :
    other = m := by
  have hread := hother.reads
  rw [hloaded.reads] at hread
  cases hread
  rfl

theorem Loaded.manifestPath_mem (hloaded : Loaded store dir m) :
    manifestPath dir ∈ store.entries :=
  mem_dirsHolding.mp (mem_collectManifestIds.mp hloaded.listed).1

theorem Loaded.notMem_orphans (hloaded : Loaded store dir m) :
    dir ∉ (loadBackups store).2 := by
  rw [loadBackups, detectOrphanIds, mem_sortDedup, List.mem_filter,
    decide_eq_true_iff]
  intro horphan
  exact horphan.2.1 hloaded.listed

end Catalog

section Execution

variable {plan : PrunePlan} {includeForceOnly : Bool} {entries : List String}
  {path : String}

/-- What is not planned is not touched, whatever the storage answers. -/
theorem executePrune_frame (backend : Backend)
    (hunplanned : path ∉ plannedPaths plan includeForceOnly) :
    path ∈ (executePrune backend plan includeForceOnly ⟨entries, 0⟩).2.entries ↔
      path ∈ entries := by
  rw [executePrune_state]
  constructor
  · intro hafter
    exact run_entries_subset backend _ _ hafter
  · intro hthere
    apply run_keeps hthere
    intro n hn
    exact absurd (List.mem_of_getElem? hn) hunplanned

theorem Backend.Granting.passes {backend : Backend}
    (hgranting : backend.Granting) (calls : Nat) (path : String) :
    Passes backend calls path := by
  intro entries
  rw [deleteIfExists, Backend.delete, hgranting.refusal]
  by_cases hmem : path ∈ entries
  · simp only [if_pos hmem]
  · simp only [if_neg hmem]
    cases hmissing : backend.missing path with
    | none => rfl
    | some text =>
        simp only [XBackupError.message, tellsAbsence_deleteFailed,
          hgranting.missing path text hmissing, Bool.or_true, if_true]

theorem executePrune_grants {backend : Backend} (hgranting : backend.Granting)
    (hplanned : path ∈ plannedPaths plan includeForceOnly) :
    path ∉ (executePrune backend plan includeForceOnly
      ⟨entries, 0⟩).2.entries := by
  obtain ⟨front, rest, hsplit⟩ := List.append_of_mem hplanned
  rw [executePrune_state, hsplit]
  apply run_deletes
  · intro n other _
    exact hgranting.passes _ other
  · exact hgranting.refusal _ path

end Execution

/-- The ids of the chain targets are what goes without `--force`. -/
theorem mem_deletable_false {plan : PrunePlan} {id : String} :
    id ∈ plan.deletableMemberIds false ↔
      ∃ target ∈ plan.targets, target.kind = .chain ∧
        id ∈ target.memberIds := by
  simp [PrunePlan.deletableMemberIds, PruneKind.isNormalChain, and_assoc]

section Names

variable {parse : String → Option I64} {store : ObjectStore}

/-- Backups of a chain are found under their ids. -/
theorem IdsDistinct.own_id (hdistinct : IdsDistinct store)
    {m : BackupManifest} (hm : m ∈ (loadBackups store).1)
    (hchained : ¬ Unchained (loadBackups store).1 m) :
    ∀ other ∈ (loadBackups store).1, other.id = m.id → other = m := by
  intro other hother hid
  obtain ⟨dir, hdir⟩ := mem_loadBackups.mp hm
  obtain ⟨otherDir, hotherDir⟩ := mem_loadBackups.mp hother
  obtain rfl := hdistinct dir m otherDir other hdir hotherDir hchained hid
  exact hdir.manifest_eq hotherDir

theorem chained_of_chainMember {manifests : List BackupManifest}
    {m base : BackupManifest} (hbase : base ∈ manifests)
    (hopens : opensChain base = true) (hin : ChainMember m base) :
    ¬ Unchained manifests m :=
  fun hunchained => hunchained base hbase hopens hin

theorem IdsDistinct.openers_nodup (hdistinct : IdsDistinct store) :
    (((loadBackups store).1.filter opensChain).map
      BackupManifest.id).Nodup := by
  have hdirs := collectManifestIds_pairwise store.catalog
  rw [List.Nodup, List.pairwise_map, List.pairwise_filter, loadBackups,
    List.pairwise_filterMap]
  refine hdirs.imp_of_mem ?_
  intro left right hleft hright hlt m hm other hother hopens _ hid
  have hloaded := loaded_of_read hleft hm
  have hsame := hdistinct left m right other hloaded
    (loaded_of_read hright hother)
    (chained_of_chainMember hloaded.mem hopens (Or.inl rfl)) hid.symm
  exact hlt.ne hsame.symm

theorem IdsDistinct.own_base (hdistinct : IdsDistinct store)
    {base : BackupManifest} (hbase : base ∈ (loadBackups store).1)
    (hopens : opensChain base = true) :
    ∀ other ∈ (loadBackups store).1, other.id = base.id → other = base :=
  hdistinct.own_id hbase (chained_of_chainMember hbase hopens (Or.inl rfl))

/-- A directory of a chain shares the fate of the chain. -/
theorem ChainsOwnNames.deletable_iff (hnames : ChainsOwnNames store)
    {policy : RetentionPolicy} {nowSecs : ℤ} {includeForceOnly : Bool}
    {dir : String} {m base : BackupManifest} (hloaded : Loaded store dir m)
    (hbase : base ∈ (loadBackups store).1) (hopens : opensChain base = true)
    (hin : ChainMember m base) :
    dir ∈ (planStore parse store policy nowSecs).deletableMemberIds
        includeForceOnly ↔
      ¬ Retained policy nowSecs (chainsOf parse (loadBackups store).1)
        (chainOf parse (loadBackups store).1 base) := by
  have hdistinct := hnames.distinct
  have hopeners := hdistinct.openers_nodup
  obtain ⟨named, hnamed, hnamedIn, rfl⟩ :=
    hnames.named dir m hloaded base hbase hopens hin
  have hmember : named.id ∈
      (chainOf parse (loadBackups store).1 base).memberIds :=
    (mem_memberIds hbase hopens (hdistinct.own_base hbase hopens)).mpr
      ⟨named, hnamed, hnamedIn, rfl⟩
  rw [planStore, mem_deletable_iff hopeners]
  constructor
  · rintro (⟨other, hother, hotherOpens, hlisted, hdropped⟩ |
      ⟨-, hremnant | horphan⟩)
    · obtain ⟨found, hfound, hfoundIn, hid⟩ :=
        (mem_memberIds hother hotherOpens
          (hdistinct.own_base hother hotherOpens)).mp hlisted
      obtain rfl := hdistinct.own_id hnamed
        (chained_of_chainMember hbase hopens hnamedIn) found hfound hid
      rwa [opener_unique hopeners hbase hother hopens hotherOpens hnamedIn
        hfoundIn]
    · obtain ⟨remnant, hlisted, hid⟩ := List.mem_map.mp hremnant
      rw [remnants, List.mem_filter, decide_eq_true_iff, hid] at hlisted
      refine absurd (List.mem_flatMap.mpr ⟨_, ?_, hmember⟩) hlisted.2.2
      exact (rankChains_perm _).mem_iff.mpr
        (mem_chainsOf.mpr ⟨base, hbase, hopens, rfl⟩)
    · exact absurd horphan hloaded.notMem_orphans
  · intro hdropped
    exact Or.inl ⟨base, hbase, hopens, hmember, hdropped⟩

theorem deletesJudged_of_ownNames (hnames : ChainsOwnNames store)
    (policy : RetentionPolicy) (nowSecs : ℤ) :
    DeletesJudged parse store policy nowSecs := by
  have hdistinct := hnames.distinct
  have hopeners := hdistinct.openers_nodup
  have hfiles : ∀ file ∈ [DATA_FILE, MANIFEST_FILE], file ∈ backupFiles := by
    decide
  constructor
  · intro flag backend dir m hloaded base hbase hopens hkept hin file hfile
    obtain ⟨opener, hopener, hopenerOpens, hretained, hid⟩ :=
      (mem_keptBaseIds hopeners).mp hkept
    obtain rfl := hdistinct.own_base hbase hopens opener hopener hid
    apply executePrune_frame
    rw [pathIn_mem_plannedPaths (hfiles file hfile),
      hnames.deletable_iff hloaded hbase hopens hin]
    exact not_not_intro hretained
  · intro flag backend hgranting dir m hloaded target htarget hkind hmember
      file hfile
    have hlisted := mem_deletable_false.mpr ⟨target, htarget, hkind, hmember⟩
    rw [planStore, mem_deletable_iff hopeners] at hlisted
    obtain ⟨base, hbase, hopens, hid, hdropped⟩ :=
      hlisted.resolve_right (by simp)
    obtain ⟨named, hnamed, hin, hsame⟩ := (mem_memberIds hbase hopens
      (hdistinct.own_base hbase hopens)).mp hid
    obtain rfl := hdistinct.own_id hnamed (chained_of_chainMember hbase hopens hin)
      m hloaded.mem hsame.symm
    apply executePrune_grants hgranting
    rw [pathIn_mem_plannedPaths (hfiles file hfile),
      hnames.deletable_iff hloaded hbase hopens hin]
    exact hdropped

end Names

/-- A chain lists ids of backups only, whatever its report is about. -/
theorem exists_of_mem_memberIds {parse : String → Option I64}
    {manifests : List BackupManifest} {base : BackupManifest} {id : String}
    (hbase : base ∈ manifests)
    (hmember : id ∈ (chainOf parse manifests base).memberIds) :
    ∃ m ∈ manifests, m.id = id := by
  rw [chainOf, chainGroup] at hmember
  dsimp only at hmember
  rcases List.mem_cons.mp hmember with rfl | hincr
  · exact ⟨base, hbase, rfl⟩
  · rw [chainReport, reportBy] at hincr
    split at hincr
    next baseId _ =>
      cases hfound : lastNode (manifests.map ChainNode.fromManifest) baseId with
      | none =>
          rw [hfound] at hincr
          cases hincr
      | some node =>
          rw [hfound, Option.elim_some, reportWith] at hincr
          obtain ⟨incr, hlisted, rfl⟩ := List.mem_map.mp hincr
          obtain ⟨m, hm, rfl⟩ := List.mem_map.mp
            (mem_incrementalsOf.mp hlisted).1
          exact ⟨m, hm, rfl⟩
    next => cases hincr
    next => cases hincr

/-- `--keep-full 0` drops every chain. -/
theorem judgedChains_keepNone (parse : String → Option I64)
    (manifests : List BackupManifest) (nowSecs : ℤ) :
    judgedChains parse manifests (keepFullOnly 0) nowSecs false =
      rankedChains parse manifests := by
  rw [judgedChains, judgedPlaces, List.filter_eq_self.mpr, map_chain_places]
  intro place _
  simp [keptAt, keepFullOnly, RetentionPolicy.default, boundaryIdx,
    RetentionPolicy.isUnspecified, keptByRules]

/-! Plans that drop every chain, or cut right before or behind one, show which
names a chain has. -/

section Necessity

variable {parse : String → Option I64} {store : ObjectStore}

/-- The id is listed by a chain. -/
def ListedId (parse : String → Option I64) (store : ObjectStore)
    (id : String) : Prop :=
  ∃ base ∈ (loadBackups store).1, opensChain base = true ∧
    id ∈ (chainOf parse (loadBackups store).1 base).memberIds

theorem listedId_iff {id : String} :
    ListedId parse store id ↔
      id ∈ (planStore parse store (keepFullOnly 0) 0).deletableMemberIds
        false := by
  rw [planStore, deletableMemberIds_eq, judgedChains_keepNone, List.mem_append,
    List.mem_flatMap]
  have hperm : (rankedChains parse (loadBackups store).1).Perm
      (chainsOf parse (loadBackups store).1) := rankChains_perm _
  simp only [hperm.mem_iff, mem_chainsOf, Bool.false_eq_true, if_false,
    List.not_mem_nil, or_false, ListedId]
  constructor
  · rintro ⟨base, hbase, hopens, hmember⟩
    exact ⟨_, ⟨base, hbase, hopens, rfl⟩, hmember⟩
  · rintro ⟨_, ⟨base, hbase, hopens, rfl⟩, hmember⟩
    exact ⟨base, hbase, hopens, hmember⟩

theorem denying_none_granting : (denying fun _ _ => false).Granting where
  refusal _ _ := rfl
  missing _ _ htext := by cases htext

variable (hjudged : ∀ policy nowSecs, DeletesJudged parse store policy nowSecs)

include hjudged

theorem dir_dropped {policy : RetentionPolicy} {nowSecs : ℤ} {dir : String}
    {m : BackupManifest} (hloaded : Loaded store dir m)
    (hid : m.id ∈ (planStore parse store policy nowSecs).deletableMemberIds
      false) :
    dir ∈ (planStore parse store policy nowSecs).deletableMemberIds false := by
  obtain ⟨target, htarget, hkind, hmember⟩ := mem_deletable_false.mp hid
  by_contra hleft
  refine (hjudged policy nowSecs).dropped false _ denying_none_granting dir m
    hloaded target htarget hkind hmember MANIFEST_FILE (by simp) ?_
  refine (executePrune_frame _ ?_).mpr hloaded.manifestPath_mem
  rwa [pathIn_mem_plannedPaths (by decide)]

theorem dir_kept {policy : RetentionPolicy} {nowSecs : ℤ} {dir : String}
    {m base : BackupManifest} (hloaded : Loaded store dir m)
    (hbase : base ∈ (loadBackups store).1) (hopens : opensChain base = true)
    (hin : ChainMember m base)
    (hkept : base.id ∈ (planStore parse store policy nowSecs).keptBaseIds) :
    dir ∉ (planStore parse store policy nowSecs).deletableMemberIds false := by
  intro hgoes
  refine executePrune_grants denying_none_granting
    ((pathIn_mem_plannedPaths (by decide)).mpr hgoes)
    (((hjudged policy nowSecs).kept false _ dir m hloaded base hbase hopens
      hkept hin MANIFEST_FILE (by simp)).mpr hloaded.manifestPath_mem)

/-- There are no more listed ids than directories that hold one, and each of
these directories is named by one: so none of them share an id. -/
theorem distinct_of_listed {dir other : String} {m m' : BackupManifest}
    (hdir : Loaded store dir m) (hother : Loaded store other m')
    (hlisted : ListedId parse store m.id) (hid : m'.id = m.id) :
    other = dir := by
  classical
  have hpure : ∀ dir m, Loaded store dir m → ListedId parse store m.id →
      ListedId parse store dir := by
    intro dir m hloaded hlisted
    rw [listedId_iff] at hlisted ⊢
    exact dir_dropped hjudged hloaded hlisted
  let idOf := fun dir => (store.read dir).toOption.elim dir BackupManifest.id
  have hidOf : ∀ {dir m}, Loaded store dir m → idOf dir = m.id := by
    intro dir m hloaded
    simp only [idOf, hloaded.reads, Except.toOption, Option.elim_some]
  let ids := ((planStore parse store (keepFullOnly 0)
    0).deletableMemberIds false).toFinset
  have hids : ∀ id, id ∈ ids ↔ ListedId parse store id := by
    intro id
    rw [listedId_iff, List.mem_toFinset]
  let dirs := (collectManifestIds store.catalog).toFinset.filter fun dir =>
    ∃ m, Loaded store dir m ∧ ListedId parse store m.id
  have hdirs : ∀ {dir m}, Loaded store dir m → ListedId parse store m.id →
      dir ∈ dirs := by
    intro dir m hloaded hlisted
    exact Finset.mem_filter.mpr
      ⟨List.mem_toFinset.mpr hloaded.listed, m, hloaded, hlisted⟩
  have hinj : Set.InjOn idOf dirs := by
    apply Finset.injOn_of_surjOn_of_card_le idOf (t := ids)
    · intro dir hmem
      obtain ⟨m, hloaded, hlisted⟩ := (Finset.mem_filter.mp hmem).2
      rw [hidOf hloaded]
      exact (hids _).mpr hlisted
    · intro id hmem
      have hlisted := (hids id).mp hmem
      obtain ⟨base, hbase, -, hmember⟩ := (hids id).mp hmem
      obtain ⟨m, hm, rfl⟩ := exists_of_mem_memberIds hbase hmember
      obtain ⟨dir, hloaded⟩ := mem_loadBackups.mp hm
      exact ⟨dir, hdirs hloaded hlisted, hidOf hloaded⟩
    · apply Finset.card_le_card
      intro dir hmem
      obtain ⟨m, hloaded, hlisted⟩ := (Finset.mem_filter.mp hmem).2
      exact (hids dir).mpr (hpure dir m hloaded hlisted)
  apply hinj (hdirs hother (hid ▸ hlisted)) (hdirs hdir hlisted)
  rw [hidOf hother, hidOf hdir, hid]

theorem listed_of_chainMember {m base : BackupManifest}
    (hm : m ∈ (loadBackups store).1) (hbase : base ∈ (loadBackups store).1)
    (hopens : opensChain base = true) (hin : ChainMember m base) :
    m.id ∈ (chainOf parse (loadBackups store).1 base).memberIds := by
  have hown : ∀ other ∈ (loadBackups store).1, other.id = base.id →
      other = base := by
    intro other hother hid
    obtain ⟨dir, hdir⟩ := mem_loadBackups.mp hbase
    obtain ⟨otherDir, hotherDir⟩ := mem_loadBackups.mp hother
    have hlisted : ListedId parse store base.id :=
      ⟨base, hbase, hopens, List.mem_cons_self⟩
    obtain rfl := distinct_of_listed hjudged hdir hotherDir hlisted hid
    exact hdir.manifest_eq hotherDir
  exact (mem_memberIds hbase hopens hown).mpr ⟨m, hm, hin, rfl⟩

theorem idsDistinct_of_deletesJudged : IdsDistinct store := by
  intro dir m other m' hdir hother hchained hid
  simp only [Unchained, not_forall, not_not] at hchained
  obtain ⟨base, hbase, hopens, hin⟩ := hchained
  exact distinct_of_listed hjudged hdir hother
    ⟨base, hbase, hopens, listed_of_chainMember hjudged hdir.mem hbase hopens hin⟩
    hid

theorem ownNames_of_deletesJudged : ChainsOwnNames store := by
  have hdistinct := idsDistinct_of_deletesJudged hjudged
  refine ⟨hdistinct, ?_⟩
  intro dir m hloaded base hbase hopens hin
  have hopeners := hdistinct.openers_nodup
  generalize hrank : (ahead ChainGroup.rankKey
    (chainsOf parse (loadBackups store).1)
    (chainOf parse (loadBackups store).1 base)).length = rank
  have hlisted := listed_of_chainMember hjudged hloaded.mem hbase hopens hin
  -- cut right before the chain: its own directories go
  have hdropped : m.id ∈ (planStore parse store (keepFullOnly rank)
      0).deletableMemberIds false := by
    refine (mem_deletable_iff hopeners).mpr
      (Or.inl ⟨base, hbase, hopens, hlisted, ?_⟩)
    rw [retained_keepFullOnly, hrank]
    exact lt_irrefl rank
  obtain ⟨opener, hopener, hopenerOpens, hmember, hout⟩ :=
    ((mem_deletable_iff hopeners).mp
      (dir_dropped hjudged hloaded hdropped)).resolve_right (by simp)
  rw [retained_keepFullOnly, not_lt] at hout
  -- cut right behind it: they stay
  have hkept : base.id ∈ (planStore parse store (keepFullOnly (rank + 1))
      0).keptBaseIds := by
    refine (mem_keptBaseIds hopeners).mpr ⟨base, hbase, hopens, ?_, rfl⟩
    rw [retained_keepFullOnly, hrank]
    exact Nat.lt_succ_self rank
  have hstays := dir_kept hjudged hloaded hbase hopens hin hkept
  have hahead : (ahead ChainGroup.rankKey
      (chainsOf parse (loadBackups store).1)
      (chainOf parse (loadBackups store).1 opener)).length ≤ rank := by
    by_contra hlate
    refine hstays ((mem_deletable_iff hopeners).mpr
      (Or.inl ⟨opener, hopener, hopenerOpens, hmember, ?_⟩))
    rw [retained_keepFullOnly]
    omega
  have hsame : opener.id = base.id := by
    by_contra hne
    have hother : base.id ≠ opener.id := Ne.symm hne
    have hlt := rankKey_lt_of_length
      (mem_chainsOf.mpr ⟨base, hbase, hopens, rfl⟩) hne (hrank ▸ hahead)
    have hgt := rankKey_lt_of_length
      (mem_chainsOf.mpr ⟨opener, hopener, hopenerOpens, rfl⟩) hother
      (hrank ▸ hout)
    exact lt_asymm hlt hgt
  obtain rfl := hdistinct.own_base hbase hopens opener hopener hsame
  exact (mem_memberIds hbase hopens
    (hdistinct.own_base hbase hopens)).mp hmember

end Necessity

/-- A prune deletes what it judged, under every policy and at all times, exactly
when the chains of the destination own their names. -/
theorem pruneStore_deletesJudged_iff (parse : String → Option I64)
    (store : ObjectStore) :
    (∀ policy nowSecs, DeletesJudged parse store policy nowSecs) ↔
      ChainsOwnNames store := by
  constructor
  · intro hjudged
    exact ownNames_of_deletesJudged hjudged
  · intro hnames policy nowSecs
    exact deletesJudged_of_ownNames hnames policy nowSecs

/-- Two full backups whose directories were renamed to each other's id. -/
def crossedStore : ObjectStore where
  entries := ["a/data.bin", "a/manifest.json", "b/data.bin", "b/manifest.json"]
  read
    | "a" => .ok (plainFull "b" "2024-01-02T00:00:00Z")
    | "b" => .ok (plainFull "a" "2024-01-01T00:00:00Z")
    | _ => .error (.failure "not found")

/-- Pruning the older backup takes the directory of the newer one. -/
theorem pruneStore_deletesUnjudged :
    ¬ ∀ (parse : String → Option I64) (store : ObjectStore)
      (policy : RetentionPolicy) (nowSecs : ℤ),
      DeletesJudged parse store policy nowSecs := by
  intro hjudged
  have hnames : ChainsOwnNames crossedStore :=
    ownNames_of_deletesJudged (hjudged january crossedStore)
  have hloaded : Loaded crossedStore "a"
      (plainFull "b" "2024-01-02T00:00:00Z") :=
    ⟨mem_collectManifestIds.mpr ⟨mem_dirsHolding.mpr (by decide), by decide⟩,
      rfl⟩
  have hfulls : ∀ m ∈ (loadBackups crossedStore).1, m.backupType = .full := by
    intro m hm
    obtain ⟨dir, -, hread⟩ := mem_loadBackups.mp hm
    simp only [crossedStore] at hread
    split at hread
    next => cases hread; rfl
    next => cases hread; rfl
    next => cases hread
  obtain ⟨m, hm, hin, hid⟩ := hnames.named "a" _ hloaded _ hloaded.mem
    (by decide) (Or.inl rfl)
  rw [hin.eq_of_full (hfulls m hm)] at hid
  exact absurd hid (by decide)

end XBackup
