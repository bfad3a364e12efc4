/-
Writing the archives of a file backup: the whole tree, or the deleted paths and
the changed entries; and what unpacking them does to a tree.
-/
import XBackup.Engine.File.Restore

namespace XBackup

open FileTree

/-- An entry of the tree, which is never read as a list of deleted paths. -/
def entryItem (path : String) (node : FileNode) : TarItem where
  path := path
  node := node
  payload := .error (.failure "tombstone 파싱 실패")

/-- The source directory as the root of a file system. -/
def Snapshot.fs (snapshot : Snapshot) : FileSystem :=
  mount [] snapshot.node fun _ => some (.dir snapshot.mode)

def buildTar (snapshot : Snapshot) : List TarItem :=
  entryItem "." (.dir snapshot.mode) ::
    snapshot.entries.map fun entry => entryItem (joinNames entry.1) entry.2

/-- One round over the changed paths. -/
def readEntry (snapshot : Snapshot) (rel : String) :
    Except XBackupError TarItem :=
  let failed (err : IoError) : XBackupError :=
    .failure ("파일 증분 항목 조회 실패('" ++ snapshot.root ++ "'): " ++
      ioErrorText err)
  match lstat snapshot.fs [] rel with
  | .error err => .error (failed err)
  | .ok found =>
      match snapshot.fs found with
      | none => .error (failed .notFound)
      | some node => .ok (entryItem rel node)

def buildIncrTar (snapshot : Snapshot) (changed deleted : List String) :
    Except XBackupError (List TarItem) :=
  match changed.mapM (readEntry snapshot) with
  | .error err => .error err
  | .ok items =>
      .ok (if deleted = [] then items else tombstoneItem deleted :: items)

/-- The items that set the paths of `order` as `goal` has them. -/
def entryItems (goal : FileSystem) (order : List Path) : List TarItem :=
  order.filterMap fun path => (goal path).map (entryItem (joinNames path))

theorem entryItems_cons {goal : FileSystem} {path : Path} {node : FileNode}
    (hnode : goal path = some node) (rest : List Path) :
    entryItems goal (path :: rest) =
      entryItem (joinNames path) node :: entryItems goal rest := by
  simp [entryItems, hnode]

theorem readEntry_joinNames {snapshot : Snapshot} {path : Path}
    {node : FileNode} (hnode : snapshot.node path = some node) :
    readEntry snapshot (joinNames path) =
      .ok (entryItem (joinNames path) node) := by
  have hsome : (snapshot.node path).isSome := by
    rw [hnode]
    rfl
  obtain ⟨hpath, hplain⟩ := Snapshot.plain hsome
  have habove : DirsAbove snapshot.fs [] path :=
    snapshot.closed.dirsAbove_mount ⟨snapshot.mode, rfl⟩ hsome
  have hfound : snapshot.fs ([] ++ path) = some node := by
    rw [Snapshot.fs, mount_append hpath, hnode]
  have hlstat := lstat_joinNames hpath habove hplain
    (by rw [hfound]; rfl)
  simp only [readEntry, hlstat, hfound]

theorem mapM_readEntry {snapshot : Snapshot} {order : List Path}
    (horder : ∀ path ∈ order, (snapshot.node path).isSome) :
    (order.map joinNames).mapM (readEntry snapshot) =
      .ok (entryItems snapshot.node order) := by
  induction order with
  | nil => rfl
  | cons path rest ih =>
      obtain ⟨node, hnode⟩ :=
        Option.isSome_iff_exists.mp (horder path List.mem_cons_self)
      rw [List.map_cons, List.mapM_cons, readEntry_joinNames hnode,
        ih fun other hother => horder other (List.mem_cons_of_mem path hother),
        entryItems_cons hnode]
      rfl

theorem buildTar_eq (snapshot : Snapshot) :
    buildTar snapshot = entryItem "." (.dir snapshot.mode) ::
      entryItems snapshot.node (snapshot.entries.map Prod.fst) := by
  have hitems : snapshot.entries.map (fun entry =>
        entryItem (joinNames entry.1) entry.2) =
      entryItems snapshot.node (snapshot.entries.map Prod.fst) := by
    rw [entryItems, List.filterMap_map, ← List.filterMap_eq_map]
    refine List.filterMap_congr fun entry hentry => ?_
    simp [Snapshot.node_eq_some_iff.mpr hentry]
  rw [buildTar, hitems]

theorem startsWith_joinNames {path : Path} (hpath : path ≠ [])
    (hplain : ∀ name ∈ path, PlainName name) :
    startsWith (joinNames path) "/" = false := by
  obtain ⟨name, rest, rfl⟩ := List.exists_cons_of_ne_nil hpath
  obtain ⟨first, more, hchars, hfirst⟩ :=
    @joinNames_cons_head _ rest (hplain name List.mem_cons_self)
  have hslash : "/".toList = ['/'] := rfl
  rw [startsWith, hchars, hslash, List.isPrefixOf_cons_cons]
  simp [Ne.symm hfirst]

theorem components_joinNames {path : Path} (hpath : path ≠ [])
    (hplain : ∀ name ∈ path, PlainName name) :
    components (joinNames path) = path := by
  have hfirst : path.head? ≠ some "." := fun hhead =>
    (hplain "." (List.mem_of_mem_head? hhead)).2.1 rfl
  have hdots : path.filter (fun name => name ≠ ".") = path :=
    List.filter_eq_self.mpr fun name hname => by
      simpa using (hplain name hname).2.1
  simp only [components, startsWith_joinNames hpath hplain,
    names_joinNames hplain, Bool.false_eq_true, if_false, if_neg hfirst,
    List.nil_append]
  exact hdots

theorem escapesTarget_joinNames {path : Path} (hpath : path ≠ [])
    (hplain : ∀ name ∈ path, PlainName name) :
    escapesTarget (joinNames path) = false := by
  have hparent : ".." ∉ path := fun hmem => (hplain ".." hmem).2.2.1 rfl
  rw [escapesTarget, startsWith_joinNames hpath hplain,
    components_joinNames hpath hplain]
  simpa using hparent

section Mounted

variable {tar : TarCrate} {target : Path} {fs : FileSystem}
  (hdir : ∃ attrs, fs target = some (.dir attrs))

include hdir

/-- A tombstone prunes the tree below the target. -/
theorem applyTombstone_mount {tree : FileSystem} {path : Path}
    (hclosed : Closed tree) (hpath : path ≠ [])
    (hplain : ∀ name ∈ path, PlainName name)
    (hway : ∀ above below, path = above ++ below → above ≠ [] → below ≠ [] →
      tree above = none ∨ ∃ attrs, tree above = some (.dir attrs)) :
    applyTombstone target (mount target tree fs) (joinNames path) =
      (mount target (prune tree path) fs, .ok (tree path).isSome) := by
  rw [applyTombstone, escapesTarget_joinNames hpath hplain]
  simp only [Bool.false_eq_true, if_false]
  cases hnode : tree path with
  | none =>
      have hmissing : lstat (mount target tree fs) target (joinNames path) =
          .error .notFound := by
        refine lstat_joinNames_of_missing hpath hplain (by simpa using hdir) ?_
          (by rw [mount_append hpath, hnode])
        intro above below hsplit habove hbelow
        rw [mount_append habove]
        exact hway above below hsplit habove hbelow
      have hsame : prune tree path = tree := by
        rw [hclosed.prune_of_not_dir hpath (by simp [hnode]), ← hnode,
          Function.update_eq_self]
      rw [hmissing, hsame]
      rfl
  | some node =>
      have hsome : (tree path).isSome := by
        rw [hnode]
        rfl
      have hfound : lstat (mount target tree fs) target (joinNames path) =
          .ok (target ++ path) :=
        lstat_joinNames hpath (hclosed.dirsAbove_mount hdir hsome) hplain
          (by rwa [mount_append hpath])
      simp only [hfound, mount_append hpath, hnode, Option.any_some]
      by_cases hisDir : node.isDir = true
      · simp only [hisDir, if_true, removeDirAll_mount hpath hplain]
        rfl
      · rw [if_neg hisDir, removeFile, update_mount hpath,
          hclosed.prune_of_not_dir hpath (by simpa [hnode] using hisDir)]
        rfl

/-- The tombstones of paths of `prev` prune what is left of it. -/
theorem applyTombstones_mount {prev tree : FileSystem} (hprev : Closed prev)
    (hclosed : Closed tree)
    (hleft : ∀ path, tree path = prev path ∨ tree path = none)
    {gone : List Path}
    (hgone : ∀ path ∈ gone, path ≠ [] ∧ (∀ name ∈ path, PlainName name) ∧
      (prev path).isSome) (applied : Nat) :
    ∃ count, applyTombstones target (mount target tree fs) applied
        (gone.map joinNames) =
      (mount target (gone.foldl prune tree) fs, .ok count) := by
  induction gone generalizing tree applied with
  | nil => exact ⟨applied, rfl⟩
  | cons path rest ih =>
      obtain ⟨hpath, hplain, hsome⟩ := hgone path List.mem_cons_self
      have hway : ∀ above below, path = above ++ below → above ≠ [] →
          below ≠ [] →
          tree above = none ∨ ∃ attrs, tree above = some (.dir attrs) := by
        intro above below hsplit habove hbelow
        obtain ⟨attrs, hattrs⟩ :=
          hprev above below habove hbelow (hsplit ▸ hsome)
        rcases hleft above with hsame | hnone
        · exact Or.inr ⟨attrs, by rw [hsame, hattrs]⟩
        · exact Or.inl hnone
      have hnext : ∀ other, prune tree path other = prev other ∨
          prune tree path other = none := by
        intro other
        rw [prune]
        split
        · exact Or.inr rfl
        · exact hleft other
      simp only [List.map_cons, applyTombstones,
        applyTombstone_mount hdir hclosed hpath hplain hway, List.foldl_cons]
      exact ih (hclosed.prune path) hnext
        (fun other hother => hgone other (List.mem_cons_of_mem path hother)) _

variable {start goal : FileSystem} {before after : List Path} {path : Path}
  {node : FileNode}

/-- An entry that fits is set. -/
theorem unpackItem_fits (htar : tar.Unpacks target)
    (hpatch : Patch start goal (before ++ path :: after))
    (hfree : components (joinNames path) ≠ components TOMBSTONE_ENTRY)
    (hnode : goal path = some node) (hfits : fits (start path) node = true) :
    unpackItem tar target (mount target (patched start goal before) fs)
        (entryItem (joinNames path) node) =
      (mount target (patched start goal (before ++ [path])) fs, .ok 1) := by
  obtain ⟨hpath, hplain⟩ := hpatch.named path (by simp)
  have hnew : path ∉ before := fun hmem =>
    (List.nodup_append.mp hpatch.nodup).2.2 path hmem path
      List.mem_cons_self rfl
  have hunpack := htar.replaces (mount target (patched start goal before) fs)
    path node (entryItem (joinNames path) node).payload hpath hplain
    (hpatch.dirsAbove_mount hdir)
    (by rwa [mount_append hpath, patched, if_neg hnew])
  rw [update_mount hpath, ← hnode, update_patched] at hunpack
  rw [unpackItem, entryItem, if_neg hfree]
  rw [entryItem] at hunpack
  rw [hunpack]
  rfl

/-- Another one ends the restore. -/
theorem unpackItem_clash (htar : tar.Unpacks target)
    (hpatch : Patch start goal (before ++ path :: after))
    (hfree : components (joinNames path) ≠ components TOMBSTONE_ENTRY)
    (hfits : fits (start path) node = false) :
    ∃ err, (unpackItem tar target
      (mount target (patched start goal before) fs)
      (entryItem (joinNames path) node)).2 = .error err := by
  obtain ⟨hpath, hplain⟩ := hpatch.named path (by simp)
  have hnew : path ∉ before := fun hmem =>
    (List.nodup_append.mp hpatch.nodup).2.2 path hmem path
      List.mem_cons_self rfl
  obtain ⟨err, herr⟩ := htar.refuses
    (mount target (patched start goal before) fs) path node
    (entryItem (joinNames path) node).payload hpath hplain
    (hpatch.dirsAbove_mount hdir)
    (by rwa [mount_append hpath, patched, if_neg hnew])
  refine ⟨restoreFailed "항목 풀기" target err, ?_⟩
  rw [unpackItem, entryItem, if_neg hfree]
  rw [entryItem] at herr
  split
  next hresult =>
    rw [hresult] at herr
    cases herr
    rfl
  next hresult =>
    rw [hresult] at herr
    cases herr

/-- Entries that all fit turn the tree into `goal`. -/
theorem unpackTar_fits (htar : tar.Unpacks target)
    (hpatch : Patch start goal (before ++ after))
    (hfree : ∀ path ∈ after,
      components (joinNames path) ≠ components TOMBSTONE_ENTRY)
    (hfits : ∀ path ∈ after, ∀ node, goal path = some node →
      fits (start path) node = true) (unpacked : Nat) :
    ∃ count, unpackTar tar target (mount target (patched start goal before) fs)
        unpacked ((entryItems goal after).map .ok) =
      (mount target goal fs, .ok count) := by
  induction after generalizing before unpacked with
  | nil =>
      rw [List.append_nil] at hpatch
      rw [hpatch.patched_all]
      exact ⟨unpacked, rfl⟩
  | cons path rest ih =>
      obtain ⟨node, hnode⟩ :=
        Option.isSome_iff_exists.mp (hpatch.held path (by simp))
      have hitem := unpackItem_fits hdir htar hpatch
        (hfree path List.mem_cons_self) hnode
        (hfits path List.mem_cons_self node hnode)
      rw [entryItems_cons hnode, List.map_cons]
      simp only [unpackTar, hitem]
      exact ih (by simpa using hpatch)
        (fun other hother => hfree other (List.mem_cons_of_mem path hother))
        (fun other hother => hfits other (List.mem_cons_of_mem path hother)) _

/-- One that does not ends the restore, whatever comes before and after. -/
theorem unpackTar_clash (htar : tar.Unpacks target)
    (hpatch : Patch start goal (before ++ after))
    (hfree : ∀ path ∈ after,
      components (joinNames path) ≠ components TOMBSTONE_ENTRY)
    (hclash : ∃ path ∈ after, ∃ node, goal path = some node ∧
      fits (start path) node = false) (unpacked : Nat) :
    ∃ err, (unpackTar tar target (mount target (patched start goal before) fs)
      unpacked ((entryItems goal after).map .ok)).2 = .error err := by
  induction after generalizing before unpacked with
  | nil => simp at hclash
  | cons path rest ih =>
      obtain ⟨node, hnode⟩ :=
        Option.isSome_iff_exists.mp (hpatch.held path (by simp))
      rw [entryItems_cons hnode, List.map_cons]
      cases hfits : fits (start path) node with
      | true =>
          have hitem := unpackItem_fits hdir htar hpatch
            (hfree path List.mem_cons_self) hnode hfits
          simp only [unpackTar, hitem]
          refine ih (by simpa using hpatch)
            (fun other hother => hfree other (List.mem_cons_of_mem path hother))
            ?_ _
          obtain ⟨other, hmem, found, hfound, hother⟩ := hclash
          rcases List.mem_cons.mp hmem with rfl | hlater
          · obtain rfl := Option.some.inj (hfound.symm.trans hnode)
            rw [hfits] at hother
            cases hother
          · exact ⟨other, hlater, found, hfound, hother⟩
      | false =>
          obtain ⟨err, herr⟩ := unpackItem_clash hdir htar hpatch
            (hfree path List.mem_cons_self) hfits
          refine ⟨err, ?_⟩
          simp only [unpackTar]
          split
          next hresult =>
            rw [hresult] at herr
            exact herr
          next hresult =>
            rw [hresult] at herr
            cases herr

end Mounted

end XBackup
