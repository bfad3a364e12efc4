/-
The backups of a changing directory, a full one and then one increment for each
later snapshot, and the restore that applies them one after the other.
-/
import XBackup.Engine.File.Backup
import XBackup.Foundation.Fallible

namespace XBackup

open FileTree SortedMap

def rejectReservedPaths (index : FileIndex) : Except XBackupError Unit :=
  if index.keys.any fun path => path = ".xb" || startsWith path ".xb/" then
    .error (.usage ("백업 소스에 예약 경로 '.xb'가 있습니다 — 파일 엔진이 내부 " ++
      "메타(tombstone)에 쓰는 이름이라 백업할 수 없습니다"))
  else .ok ()

/-- What a restore reads of one backup: the number of changes its manifest
states, and the archive. -/
structure FileSlice where
  oplogCount : Option Nat
  data : List TarItem

def runFileFullBackup (snapshot : Snapshot) :
    Except XBackupError (FileIndex × FileSlice) :=
  let index := FileIndex.build snapshot
  match rejectReservedPaths index with
  | .error err => .error err
  | .ok () => .ok (index, ⟨none, buildTar snapshot⟩)

def runFileIncrementalBackup (prevIndex : FileIndex) (snapshot : Snapshot) :
    Except XBackupError (FileIndex × FileSlice) :=
  let curIndex := FileIndex.build snapshot
  match rejectReservedPaths curIndex with
  | .error err => .error err
  | .ok () =>
      let diff := diffFrom curIndex prevIndex
      if diff.isEmpty then .ok (curIndex, ⟨some diff.count, []⟩)
      else
        match buildIncrTar snapshot diff.changed diff.deleted with
        | .error err => .error err
        | .ok data => .ok (curIndex, ⟨some diff.count, data⟩)

/-- Each increment is taken against the index of the backup before it. -/
def runFileIncrements (prevIndex : FileIndex) :
    List Snapshot → Except XBackupError (List FileSlice)
  | [] => .ok []
  | snapshot :: rest =>
      match runFileIncrementalBackup prevIndex snapshot with
      | .error err => .error err
      | .ok (index, slice) => (slice :: ·) <$> runFileIncrements index rest

def runFileBackups (base : Snapshot) (later : List Snapshot) :
    Except XBackupError (List FileSlice) :=
  match runFileFullBackup base with
  | .error err => .error err
  | .ok (index, slice) => (slice :: ·) <$> runFileIncrements index later

/-- The file system a restore leaves behind, also when it fails. -/
def fileChainRestore (tar : TarCrate) (target : Path) (fs : FileSystem) :
    List FileSlice → FileSystem × Except XBackupError Unit
  | [] => (fs, .ok ())
  | slice :: rest =>
      if slice.oplogCount = some 0 then fileChainRestore tar target fs rest
      else
        match unpackTar tar target fs 0 (slice.data.map .ok) with
        | (fs, .error err) => (fs, .error err)
        | (fs, .ok _) => fileChainRestore tar target fs rest

/-- What changed between the snapshots shows in their indexes. -/
def SeesChanges (prev cur : Snapshot) : Prop :=
  ∀ path old new, prev.node path = some old → cur.node path = some new →
    prev.indexed path old = cur.indexed path new → old = new

/-- No path turns from a directory into anything else, or back. -/
def SameKinds (prev cur : Snapshot) : Prop :=
  ∀ path old new, prev.node path = some old → cur.node path = some new →
    old.isDir = new.isDir

theorem seesChanges_iff {prev cur : Snapshot} :
    SeesChanges prev cur ↔ ∀ old ∈ prev.entries, ∀ new ∈ cur.entries,
      old.1 = new.1 → prev.indexed old.1 old.2 = cur.indexed new.1 new.2 →
        old.2 = new.2 := by
  constructor
  · rintro hseen ⟨path, old⟩ hold ⟨other, new⟩ hnew hpath hsame
    obtain rfl : path = other := hpath
    exact hseen path old new (Snapshot.node_eq_some_iff.mpr hold)
      (Snapshot.node_eq_some_iff.mpr hnew) hsame
  · intro hentries path old new hold hnew hsame
    exact hentries _ (Snapshot.node_eq_some_iff.mp hold) _
      (Snapshot.node_eq_some_iff.mp hnew) rfl hsame

instance : DecidableRel SeesChanges := fun _ _ =>
  decidable_of_iff _ seesChanges_iff.symm

theorem sameKinds_iff {prev cur : Snapshot} :
    SameKinds prev cur ↔ ∀ old ∈ prev.entries, ∀ new ∈ cur.entries,
      old.1 = new.1 → old.2.isDir = new.2.isDir := by
  constructor
  · rintro hkinds ⟨path, old⟩ hold ⟨other, new⟩ hnew hpath
    obtain rfl : path = other := hpath
    exact hkinds path old new (Snapshot.node_eq_some_iff.mpr hold)
      (Snapshot.node_eq_some_iff.mpr hnew)
  · intro hentries path old new hold hnew
    exact hentries _ (Snapshot.node_eq_some_iff.mp hold) _
      (Snapshot.node_eq_some_iff.mp hnew) rfl

instance : DecidableRel SameKinds := fun _ _ =>
  decidable_of_iff _ sameKinds_iff.symm

/-- What the tombstones leave of the snapshot before. -/
def kept (prev cur : Snapshot) : FileSystem := fun path =>
  if (cur.node path).isSome then prev.node path else none

theorem rejectReservedPaths_free {snapshot : Snapshot}
    (hfree : rejectReservedPaths (.build snapshot) = .ok ()) {path : Path}
    (hsome : (snapshot.node path).isSome) :
    components (joinNames path) ≠ components TOMBSTONE_ENTRY := by
  intro heq
  obtain ⟨hpath, hplain⟩ := Snapshot.plain hsome
  rw [components_joinNames hpath hplain] at heq
  have hreserved : components TOMBSTONE_ENTRY = [".xb", "tombstones.json"] := by
    decide
  rw [hreserved] at heq
  subst heq
  have hkey : joinNames [".xb", "tombstones.json"] ∈
      (FileIndex.build snapshot).keys := by
    rw [Map.mem_keys_iff, get_build_joinNames hplain]
    simpa using hsome
  have hrefused : (FileIndex.build snapshot).keys.any
      (fun path => path = ".xb" || startsWith path ".xb/") = true :=
    List.any_eq_true.mpr ⟨_, hkey, by decide⟩
  rw [rejectReservedPaths, if_pos hrefused] at hfree
  cases hfree

/-- The base archive builds its snapshot out of nothing. -/
theorem base_patch (base : Snapshot) :
    Patch (fun _ => none) base.node (base.entries.map Prod.fst) where
  named := by
    intro path hpath
    obtain ⟨entry, hentry, rfl⟩ := List.mem_map.mp hpath
    exact Snapshot.plain_of_mem hentry
  held := by
    intro path hpath
    obtain ⟨entry, hentry, rfl⟩ := List.mem_map.mp hpath
    rw [Snapshot.node_eq_some_iff.mpr hentry]
    rfl
  agrees := by
    intro path hpath
    by_contra hne
    obtain ⟨node, hnode⟩ := Option.ne_none_iff_exists'.mp (Ne.symm hne)
    exact hpath (List.mem_map_of_mem (Snapshot.node_eq_some_iff.mp hnode))
  closed := base.closed
  nodup := base.nodup
  leading := by
    intro before path after hsplit above below hpath habove hbelow _
    obtain ⟨first, rest, hentries, rfl, hrest⟩ := List.map_eq_append_iff.mp hsplit
    obtain ⟨entry, last, rfl, rfl, rfl⟩ := List.map_eq_cons_iff.mp hrest
    obtain ⟨place, node⟩ := entry
    obtain rfl : place = above ++ below := hpath
    obtain ⟨attrs, hmem⟩ := Snapshot.above_mem hentries habove hbelow
    exact List.mem_map_of_mem hmem

/-- The changed paths of an increment, in the order of their texts. -/
def changedPaths (prev cur : Snapshot) : List Path :=
  (diffFrom (.build cur) (.build prev)).changed.map names

theorem mem_changedPaths_iff {prev cur : Snapshot} {path : Path} :
    path ∈ changedPaths prev cur ↔ ∃ node, cur.node path = some node ∧
      (prev.node path).map (prev.indexed path) ≠
        some (cur.indexed path node) := by
  rw [changedPaths, List.mem_map]
  constructor
  · rintro ⟨rel, hrel, rfl⟩
    obtain ⟨path, node, rfl, hnode, hne⟩ := mem_changed_iff.mp hrel
    have hplain := (Snapshot.plain (by rw [hnode]; rfl)).2
    rw [names_joinNames hplain]
    exact ⟨node, hnode, hne⟩
  · rintro ⟨node, hnode, hne⟩
    have hplain := (Snapshot.plain (by rw [hnode]; rfl)).2
    exact ⟨joinNames path, mem_changed_iff.mpr ⟨path, node, rfl, hnode, hne⟩,
      names_joinNames hplain⟩

theorem map_joinNames_changedPaths (prev cur : Snapshot) :
    (changedPaths prev cur).map joinNames =
      (diffFrom (.build cur) (.build prev)).changed := by
  rw [changedPaths, List.map_map]
  refine (List.map_congr_left fun rel hrel => ?_).trans (List.map_id _)
  obtain ⟨path, node, rfl, hnode, -⟩ := mem_changed_iff.mp hrel
  have hplain := (Snapshot.plain (by rw [hnode]; rfl)).2
  simp [names_joinNames hplain]

theorem changedPaths_sorted (prev cur : Snapshot) :
    (changedPaths prev cur).Pairwise fun first second =>
      joinNames first < joinNames second := by
  have hsorted := changed_sorted (.build cur) (.build prev)
  rw [← map_joinNames_changedPaths, List.pairwise_map] at hsorted
  exact hsorted

/-- The changed entries turn what the tombstones leave into the snapshot. -/
theorem increment_patch {prev cur : Snapshot} (hseen : SeesChanges prev cur) :
    Patch (kept prev cur) cur.node (changedPaths prev cur) where
  named := by
    intro path hpath
    obtain ⟨node, hnode, -⟩ := mem_changedPaths_iff.mp hpath
    exact Snapshot.plain (by rw [hnode]; rfl)
  held := by
    intro path hpath
    obtain ⟨node, hnode, -⟩ := mem_changedPaths_iff.mp hpath
    rw [hnode]
    rfl
  agrees := by
    intro path hpath
    rw [kept]
    cases hnode : cur.node path with
    | none => rfl
    | some node =>
        rw [Option.isSome_some, if_pos rfl]
        by_contra hne
        refine hpath (mem_changedPaths_iff.mpr ⟨node, hnode, fun heq => ?_⟩)
        obtain ⟨old, hold, hsame⟩ := Option.map_eq_some_iff.mp heq
        exact hne (hold.trans (congrArg some
          (hseen path old node hold hnode hsame)))
  closed := cur.closed
  nodup := (changedPaths_sorted prev cur).imp fun hlt heq =>
    (heq ▸ hlt).ne rfl
  leading := by
    intro before path after hsplit above below hpath habove hbelow hmem
    have hsorted := changedPaths_sorted prev cur
    rw [hsplit] at hmem hsorted
    have hlt : joinNames above < joinNames path :=
      hpath ▸ joinNames_lt_append habove hbelow
    rcases List.mem_append.mp hmem with hbefore | hrest
    · exact hbefore
    · rcases List.mem_cons.mp hrest with rfl | hafter
      · exact absurd hlt (lt_irrefl _)
      · have htail := (List.pairwise_append.mp hsorted).2.1
        exact absurd ((List.pairwise_cons.mp htail).1 above hafter) hlt.not_gt

theorem fits_iff {found : Option FileNode} {node : FileNode} :
    fits found node = true ↔
      ∀ old, found = some old → old.isDir = node.isDir := by
  simp [fits, Option.all_eq_true]

/-- The changed entries all fit exactly when no path changes its kind. -/
theorem fits_changed_iff {prev cur : Snapshot} (hseen : SeesChanges prev cur) :
    (∀ path ∈ changedPaths prev cur, ∀ node, cur.node path = some node →
        fits (kept prev cur path) node = true) ↔ SameKinds prev cur := by
  constructor
  · intro hfits path old new hold hnew
    by_cases hmem : path ∈ changedPaths prev cur
    · have hkept : kept prev cur path = some old := by
        rw [kept, hnew, Option.isSome_some, if_pos rfl, hold]
      exact fits_iff.mp (hfits path hmem new hnew) old hkept
    · have hsame : prev.indexed path old = cur.indexed path new := by
        by_contra hne
        refine hmem (mem_changedPaths_iff.mpr ⟨new, hnew, ?_⟩)
        simpa [hold] using hne
      rw [hseen path old new hold hnew hsame]
  · intro hkinds path _ node hnode
    refine fits_iff.mpr fun old hold => ?_
    rw [kept, hnode, Option.isSome_some, if_pos rfl] at hold
    exact hkinds path old node hold hnode

/-- The deleted paths of an increment. -/
def gonePaths (prev cur : Snapshot) : List Path :=
  (diffFrom (.build cur) (.build prev)).deleted.map names

theorem mem_gonePaths_iff {prev cur : Snapshot} {path : Path} :
    path ∈ gonePaths prev cur ↔
      (prev.node path).isSome ∧ cur.node path = none := by
  rw [gonePaths, List.mem_map]
  constructor
  · rintro ⟨rel, hrel, rfl⟩
    obtain ⟨path, rfl, hsome, hnone⟩ := mem_deleted_iff.mp hrel
    rw [names_joinNames (Snapshot.plain hsome).2]
    exact ⟨hsome, hnone⟩
  · rintro ⟨hsome, hnone⟩
    exact ⟨joinNames path, mem_deleted_iff.mpr ⟨path, rfl, hsome, hnone⟩,
      names_joinNames (Snapshot.plain hsome).2⟩

theorem map_joinNames_gonePaths (prev cur : Snapshot) :
    (gonePaths prev cur).map joinNames =
      (diffFrom (.build cur) (.build prev)).deleted := by
  rw [gonePaths, List.map_map]
  refine (List.map_congr_left fun rel hrel => ?_).trans (List.map_id _)
  obtain ⟨path, rfl, hsome, -⟩ := mem_deleted_iff.mp hrel
  simp [names_joinNames (Snapshot.plain hsome).2]

theorem foldl_prune_gonePaths (prev cur : Snapshot) :
    (gonePaths prev cur).foldl prune prev.node = kept prev cur := by
  refine foldl_prune_eq_kept cur.closed (fun _ => mem_gonePaths_iff) ?_
  by_contra hroot
  exact (Snapshot.plain (Option.isSome_iff_ne_none.mpr hroot)).1 rfl

/-- Without changes nothing is lost and nothing is new. -/
theorem node_eq_of_isEmpty {prev cur : Snapshot} (hseen : SeesChanges prev cur)
    (hempty : (diffFrom (.build cur) (.build prev)).isEmpty = true) :
    prev.node = cur.node ∧ SameKinds prev cur := by
  simp only [IndexDiff.isEmpty, Bool.and_eq_true, List.isEmpty_iff] at hempty
  have hchanged : changedPaths prev cur = [] := by
    rw [changedPaths, hempty.1, List.map_nil]
  have hkept : kept prev cur = prev.node := by
    rw [← foldl_prune_gonePaths, gonePaths, hempty.2, List.map_nil,
      List.foldl_nil]
  have hpatch := (increment_patch hseen).patched_all
  rw [hchanged, patched_nil, hkept] at hpatch
  refine ⟨hpatch, (fits_changed_iff hseen).mp ?_⟩
  simp [hchanged]

theorem mapM_readEntry_changed (prev cur : Snapshot) :
    (diffFrom (.build cur) (.build prev)).changed.mapM (readEntry cur) =
      .ok (entryItems cur.node (changedPaths prev cur)) := by
  rw [← map_joinNames_changedPaths]
  refine mapM_readEntry fun path hpath => ?_
  obtain ⟨node, hnode, -⟩ := mem_changedPaths_iff.mp hpath
  rw [hnode]
  rfl

/-- An increment states its changes, and archives them if there are any. -/
theorem runFileIncrementalBackup_spec {prev cur : Snapshot} {index : FileIndex}
    {slice : FileSlice}
    (hbackup : runFileIncrementalBackup (.build prev) cur =
      .ok (index, slice)) :
    rejectReservedPaths (.build cur) = .ok () ∧ index = .build cur ∧
      slice.oplogCount =
        some (diffFrom (.build cur) (.build prev)).count ∧
      ((diffFrom (.build cur) (.build prev)).isEmpty = false →
        slice.data =
          (if (diffFrom (.build cur) (.build prev)).deleted = [] then []
            else [tombstoneItem (diffFrom (.build cur) (.build prev)).deleted]) ++
            entryItems cur.node (changedPaths prev cur)) := by
  simp only [runFileIncrementalBackup, buildIncrTar,
    mapM_readEntry_changed] at hbackup
  split at hbackup
  · cases hbackup
  next hfree =>
    refine ⟨hfree, ?_⟩
    split at hbackup
    next hempty =>
      cases hbackup
      refine ⟨rfl, rfl, fun hfull => ?_⟩
      rw [hempty] at hfull
      cases hfull
    next hfull =>
      cases hbackup
      refine ⟨rfl, rfl, fun _ => ?_⟩
      split
      · rfl
      · rfl

/-- Nothing but a reserved path ends an increment. -/
theorem runFileIncrementalBackup_isOk (prev : Snapshot) {cur : Snapshot}
    (hfree : rejectReservedPaths (.build cur) = .ok ()) :
    ∃ slice, runFileIncrementalBackup (.build prev) cur =
      .ok (.build cur, slice) := by
  simp only [runFileIncrementalBackup, buildIncrTar, hfree,
    mapM_readEntry_changed]
  split
  · exact ⟨_, rfl⟩
  · exact ⟨_, rfl⟩

theorem runFileIncrements_isOk (prev : Snapshot) {later : List Snapshot}
    (hfree : ∀ snapshot ∈ later,
      rejectReservedPaths (.build snapshot) = .ok ()) :
    ∃ slices, runFileIncrements (.build prev) later = .ok slices := by
  induction later generalizing prev with
  | nil => exact ⟨[], rfl⟩
  | cons cur rest ih =>
      obtain ⟨slice, hslice⟩ :=
        runFileIncrementalBackup_isOk prev (hfree cur List.mem_cons_self)
      obtain ⟨slices, hslices⟩ := ih cur fun other hother =>
        hfree other (List.mem_cons_of_mem cur hother)
      refine ⟨slice :: slices, ?_⟩
      simp only [runFileIncrements, hslice, hslices]
      rfl

section Restore

variable {tar : TarCrate} {target : Path} {fs : FileSystem}
  (htar : tar.Unpacks target) (hdir : ∃ attrs, fs target = some (.dir attrs))

include hdir

/-- The tombstones of an increment leave what is kept of the snapshot. -/
theorem unpackTar_tombstones (tar : TarCrate) (prev cur : Snapshot)
    (items : List (Except String TarItem)) :
    ∃ count, unpackTar tar target (mount target prev.node fs) 0
        (((if (diffFrom (.build cur) (.build prev)).deleted = [] then []
          else [tombstoneItem (diffFrom (.build cur) (.build prev)).deleted]).map
            .ok) ++ items) =
      unpackTar tar target (mount target (kept prev cur) fs) count items := by
  rw [← foldl_prune_gonePaths, ← map_joinNames_gonePaths]
  by_cases hnone : gonePaths prev cur = []
  · exact ⟨0, by simp [hnone]⟩
  · have hgone : ∀ path ∈ gonePaths prev cur, path ≠ [] ∧
        (∀ name ∈ path, PlainName name) ∧ (prev.node path).isSome := by
      intro path hpath
      have hsome := (mem_gonePaths_iff.mp hpath).1
      exact ⟨(Snapshot.plain hsome).1, (Snapshot.plain hsome).2, hsome⟩
    obtain ⟨count, hdeleted⟩ := applyTombstones_mount hdir prev.closed
      prev.closed (fun _ => Or.inl rfl) hgone 0
    refine ⟨0 + count, ?_⟩
    rw [if_neg (by simpa using hnone), List.map_singleton, List.singleton_append]
    simp only [unpackTar, unpackItem, tombstoneItem, if_true, hdeleted]
include htar

/-- Into an empty target the base archive restores its snapshot. -/
theorem unpackTar_buildTar {base : Snapshot}
    (hfree : rejectReservedPaths (.build base) = .ok ())
    (hempty : ∀ path, Inside target path → fs path = none) :
    ∃ count, unpackTar tar target fs 0 ((buildTar base).map .ok) =
      (mount target base.node fs, .ok count) := by
  have hpatch : Patch (fun _ => none) base.node
      ([] ++ base.entries.map Prod.fst) := base_patch base
  have hcurrent : unpackItem tar target fs (entryItem "." (.dir base.mode)) =
      (fs, .ok 1) := by
    have hdot : components "." ≠ components TOMBSTONE_ENTRY := by decide
    rw [unpackItem, entryItem, if_neg hdot, htar.ignores]
    rfl
  have hentries := unpackTar_fits hdir htar hpatch
    (fun path hpath => rejectReservedPaths_free hfree (hpatch.held path hpath))
    (fun path _ node _ => fits_iff.mpr fun old hold => by cases hold) (0 + 1)
  rw [patched_nil, mount_of_empty hempty] at hentries
  rw [buildTar_eq, List.map_cons]
  simp only [unpackTar, hcurrent]
  exact hentries

/-- An increment leads from one snapshot to the next as long as no path changes
its kind, and fails when one does. -/
theorem fileChainRestore_increment {prev cur : Snapshot} {index : FileIndex}
    {slice : FileSlice} (hseen : SeesChanges prev cur)
    (hbackup : runFileIncrementalBackup (.build prev) cur = .ok (index, slice))
    (rest : List FileSlice) :
    (SameKinds prev cur →
      fileChainRestore tar target (mount target prev.node fs) (slice :: rest) =
        fileChainRestore tar target (mount target cur.node fs) rest) ∧
    (¬ SameKinds prev cur → ∃ err,
      (fileChainRestore tar target (mount target prev.node fs)
        (slice :: rest)).2 = .error err) := by
  obtain ⟨hfree, -, hcount, hdata⟩ := runFileIncrementalBackup_spec hbackup
  cases hempty : (diffFrom (.build cur) (.build prev)).isEmpty with
  | true =>
      obtain ⟨hnode, hkinds⟩ := node_eq_of_isEmpty hseen hempty
      have hskip : slice.oplogCount = some 0 := by
        rw [hcount]
        simp only [IndexDiff.isEmpty, Bool.and_eq_true,
          List.isEmpty_iff] at hempty
        simp [IndexDiff.count, hempty.1, hempty.2]
      refine ⟨fun _ => ?_, fun hnot => absurd hkinds hnot⟩
      rw [fileChainRestore, if_pos hskip, hnode]
  | false =>
      have hfull : slice.oplogCount ≠ some 0 := by
        rw [hcount]
        simp only [IndexDiff.isEmpty, Bool.and_eq_false_iff,
          List.isEmpty_eq_false_iff] at hempty
        simp only [IndexDiff.count, ne_eq, Option.some.injEq,
          Nat.add_eq_zero_iff, List.length_eq_zero_iff]
        tauto
      have hpatch : Patch (kept prev cur) cur.node
          ([] ++ changedPaths prev cur) := increment_patch hseen
      have hunreserved : ∀ path ∈ changedPaths prev cur,
          components (joinNames path) ≠ components TOMBSTONE_ENTRY :=
        fun path hpath =>
          rejectReservedPaths_free hfree (hpatch.held path hpath)
      obtain ⟨count, hdeleted⟩ := unpackTar_tombstones hdir tar prev cur
        ((entryItems cur.node (changedPaths prev cur)).map .ok)
      rw [fileChainRestore, if_neg hfull, hdata hempty, List.map_append,
        hdeleted]
      constructor
      · intro hkinds
        obtain ⟨unpacked, hentries⟩ := unpackTar_fits hdir htar hpatch
          hunreserved ((fits_changed_iff hseen).mpr hkinds) count
        rw [patched_nil] at hentries
        rw [hentries]
      · intro hkinds
        have hclash : ∃ path ∈ changedPaths prev cur, ∃ node,
            cur.node path = some node ∧
              fits (kept prev cur path) node = false := by
          rw [← fits_changed_iff hseen] at hkinds
          simpa only [not_forall, exists_prop, Bool.not_eq_true] using hkinds
        obtain ⟨err, herr⟩ := unpackTar_clash hdir htar hpatch hunreserved
          hclash count
        rw [patched_nil] at herr
        refine ⟨err, ?_⟩
        split
        next hresult =>
          rw [hresult] at herr
          cases herr
          rfl
        next hresult =>
          rw [hresult] at herr
          cases herr

end Restore

/-- From one snapshot of a chain the increments lead to the last exactly when no
path changes its kind between two of them. -/
theorem fileChainRestore_increments_iff {tar : TarCrate} {target : Path}
    {fs : FileSystem} (htar : tar.Unpacks target)
    (hdir : ∃ attrs, fs target = some (.dir attrs)) {prev : Snapshot}
    {later : List Snapshot} {slices : List FileSlice}
    (hseen : (prev :: later).IsChain SeesChanges)
    (hbackup : runFileIncrements (.build prev) later = .ok slices) :
    fileChainRestore tar target (mount target prev.node fs) slices =
        (mount target (later.getLastD prev).node fs, .ok ()) ↔
      (prev :: later).IsChain SameKinds := by
  induction later generalizing prev slices with
  | nil =>
      cases hbackup
      simp [fileChainRestore]
  | cons cur rest ih =>
      rw [List.isChain_cons_cons] at hseen ⊢
      rw [runFileIncrements] at hbackup
      split at hbackup
      · cases hbackup
      next index slice hslice =>
        obtain ⟨more, hmore, rfl⟩ := Fallible.map_eq_ok.mp hbackup
        obtain ⟨-, rfl, -⟩ := runFileIncrementalBackup_spec hslice
        obtain ⟨hstep, hfail⟩ :=
          fileChainRestore_increment htar hdir hseen.1 hslice more
        rw [List.getLastD_cons]
        by_cases hkinds : SameKinds prev cur
        · rw [hstep hkinds, ih hseen.2 hmore]
          exact (and_iff_right hkinds).symm
        · obtain ⟨err, herr⟩ := hfail hkinds
          refine iff_of_false (fun hresult => ?_) fun hall => hkinds hall.1
          rw [hresult] at herr
          cases herr

def emptyTarget : FileSystem
  | [] => some (.dir 0o755)
  | ["t"] => some (.dir 0o755)
  | _ => none

/-- A directory with a file in it, beside another file. -/
def dirSnapshot : Snapshot where
  root := "/src"
  mode := 0o755
  entries := [(["d"], .dir 0o755), (["d", "x"], .file ⟨[1], 0o644⟩),
    (["a"], .file ⟨[2], 0o644⟩)]
  mtime := fun _ => 1
  walkOrder := by decide

/-- The file changed, and a link in place of the other one. -/
def editedSnapshot : Snapshot where
  root := "/src"
  mode := 0o755
  entries := [(["d"], .dir 0o755), (["d", "y"], .file ⟨[3], 0o600⟩),
    (["a"], .symlink "d/y")]
  mtime := fun _ => 2
  walkOrder := by decide

/-- A file in place of the directory. -/
def flippedSnapshot : Snapshot where
  root := "/src"
  mode := 0o755
  entries := [(["d"], .file ⟨[4], 0o644⟩), (["a"], .file ⟨[2], 0o644⟩)]
  mtime := fun path => if path = ["a"] then 1 else 3
  walkOrder := by decide

theorem emptyTarget_inside {path : Path} (hinside : Inside ["t"] path) :
    emptyTarget path = none := by
  obtain ⟨below, hbelow, rfl⟩ := inside_iff.mp hinside
  obtain ⟨name, rest, rfl⟩ := List.exists_cons_of_ne_nil hbelow
  rfl

end XBackup
