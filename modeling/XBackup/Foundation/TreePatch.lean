/-
A tree placed below a directory, and how it changes: paths are pruned, and
entries are set one after the other, each behind the directories it lies in.
-/
import XBackup.Foundation.FileTree

namespace FileTree

universe u v

variable {κ : Type u} {δ : Type v}

/-- The file system with `tree` below `dir`. -/
def mount (dir : Path) (tree fs : Fs κ δ) : Fs κ δ := fun path =>
  if Inside dir path then tree (path.drop dir.length) else fs path

theorem mount_append {dir below : Path} {tree fs : Fs κ δ}
    (hbelow : below ≠ []) : mount dir tree fs (dir ++ below) = tree below := by
  rw [mount, if_pos (inside_append dir hbelow), List.drop_left]

@[simp] theorem mount_self (dir : Path) (tree fs : Fs κ δ) :
    mount dir tree fs dir = fs dir := by
  simp [mount, Inside]

theorem mount_of_empty {dir : Path} {fs : Fs κ δ}
    (hempty : ∀ path, Inside dir path → fs path = none) :
    mount dir (fun _ => none) fs = fs := by
  funext path
  rw [mount]
  split
  next hinside => exact (hempty path hinside).symm
  next => rfl

theorem update_mount {dir path : Path} {tree fs : Fs κ δ} (hpath : path ≠ [])
    (node : Option (Node κ δ)) :
    Function.update (mount dir tree fs) (dir ++ path) node =
      mount dir (Function.update tree path node) fs := by
  funext place
  by_cases hinside : Inside dir place
  · obtain ⟨below, hbelow, rfl⟩ := inside_iff.mp hinside
    rw [mount_append hbelow]
    by_cases hsame : below = path
    · simp [hsame]
    · rw [Function.update_of_ne (by simpa using hsame), mount_append hbelow,
        Function.update_of_ne hsame]
  · have hne : place ≠ dir ++ path := by
      rintro rfl
      exact hinside (inside_append dir hpath)
    simp [hne, mount, hinside]

/-- The tree without the path and all below it. -/
def prune (tree : Fs κ δ) (path : Path) : Fs κ δ := fun other =>
  if path <+: other then none else tree other

/-- Every node lies in a directory. -/
def Closed (tree : Fs κ δ) : Prop :=
  ∀ above below, above ≠ [] → below ≠ [] → (tree (above ++ below)).isSome →
    ∃ attrs, tree above = some (.dir attrs)

theorem closed_empty : Closed (fun _ => none : Fs κ δ) := by
  intro above below _ _ hsome
  cases hsome

theorem Closed.prune {tree : Fs κ δ} (hclosed : Closed tree) (path : Path) :
    Closed (prune tree path) := by
  intro above below habove hbelow hsome
  simp only [FileTree.prune] at hsome ⊢
  split at hsome
  · cases hsome
  next hnot =>
    rw [if_neg fun hpath => hnot (hpath.trans (List.prefix_append above below))]
    exact hclosed above below habove hbelow hsome

theorem Closed.dirsAbove_mount {dir path : Path} {tree fs : Fs κ δ}
    (hclosed : Closed tree) (hdir : ∃ attrs, fs dir = some (.dir attrs))
    (hsome : (tree path).isSome) : DirsAbove (mount dir tree fs) dir path := by
  intro above below hsplit hbelow
  by_cases habove : above = []
  · subst habove
    simpa using hdir
  · rw [mount_append habove]
    exact hclosed above below habove hbelow (hsplit ▸ hsome)

theorem foldl_prune_apply (gone : List Path) (tree : Fs κ δ) (path : Path) :
    gone.foldl prune tree path =
      if ∃ top ∈ gone, top <+: path then none else tree path := by
  induction gone generalizing tree with
  | nil => simp
  | cons first rest ih =>
      rw [List.foldl_cons, ih]
      by_cases hrest : ∃ top ∈ rest, top <+: path
      · obtain ⟨top, hmem, hbelow⟩ := hrest
        rw [if_pos ⟨top, hmem, hbelow⟩,
          if_pos ⟨top, List.mem_cons_of_mem first hmem, hbelow⟩]
      · rw [if_neg hrest, prune]
        refine if_congr ⟨fun hfirst => ⟨first, List.mem_cons_self, hfirst⟩, ?_⟩
          rfl rfl
        rintro ⟨top, hmem, hbelow⟩
        rcases List.mem_cons.mp hmem with rfl | hlater
        · exact hbelow
        · exact absurd ⟨top, hlater, hbelow⟩ hrest

/-- Without the paths that `goal` lacks the tree keeps those that it has. -/
theorem foldl_prune_eq_kept {tree goal : Fs κ δ} {gone : List Path}
    (hgoal : Closed goal)
    (hgone : ∀ path, path ∈ gone ↔ (tree path).isSome ∧ goal path = none)
    (hroot : tree [] = none) :
    gone.foldl prune tree =
      fun path => if (goal path).isSome then tree path else none := by
  funext path
  rw [foldl_prune_apply]
  by_cases hkept : (goal path).isSome
  · rw [if_pos hkept, if_neg]
    rintro ⟨top, hmem, below, rfl⟩
    obtain ⟨htree, hnone⟩ := (hgone top).mp hmem
    have htop : top ≠ [] := by
      rintro rfl
      simp [hroot] at htree
    by_cases hbelow : below = []
    · simp [hbelow, hnone] at hkept
    · obtain ⟨attrs, hattrs⟩ := hgoal top below htop hbelow hkept
      simp [hattrs] at hnone
  · rw [if_neg hkept]
    split
    · rfl
    next hnot =>
      by_contra hsome
      refine hnot ⟨path, (hgone path).mpr ⟨?_, ?_⟩, List.prefix_rfl⟩
      · exact Option.isSome_iff_ne_none.mpr hsome
      · simpa using hkept

/-- Below what is no directory there is nothing. -/
theorem Closed.prune_of_not_dir {tree : Fs κ δ} (hclosed : Closed tree)
    {path : Path} (hpath : path ≠ [])
    (hnode : ¬ (tree path).any Node.isDir = true) :
    FileTree.prune tree path = Function.update tree path none := by
  funext other
  rw [FileTree.prune]
  split
  next hbelow =>
    obtain ⟨below, rfl⟩ := hbelow
    by_cases hself : below = []
    · simp [hself]
    · rw [Function.update_of_ne (by simpa using hself)]
      by_contra hsome
      obtain ⟨attrs, hattrs⟩ := hclosed path below hpath hself
        (Option.isSome_iff_ne_none.mpr (Ne.symm hsome))
      simp [hattrs, Node.isDir] at hnode
  next hnot =>
    rw [Function.update_of_ne]
    rintro rfl
    exact hnot List.prefix_rfl

theorem removeDirAll_mount {dir path : Path} {tree fs : Fs κ δ}
    (hpath : path ≠ []) (hplain : ∀ name ∈ path, PlainName name) :
    removeDirAll (mount dir tree fs) dir (joinNames path) (dir ++ path) =
      (mount dir (prune tree path) fs, .ok ()) := by
  have hkeeps : keepsDir (mount dir tree fs) dir (joinNames path) = false :=
    keepsDir_joinNames hpath hplain
  refine Prod.ext ?_ (by simp [removeDirAll, hkeeps])
  · funext place
    rw [removeDirAll_apply, hkeeps]
    change _ = mount dir (prune tree path) fs place
    by_cases hinside : Inside dir place
    · obtain ⟨below, hbelow, rfl⟩ := inside_iff.mp hinside
      rw [mount_append hbelow, mount_append hbelow, prune]
      refine if_congr ?_ rfl rfl
      simp only [Inside, List.prefix_append_right_inj, ne_eq,
        List.append_cancel_left_eq, true_and]
      constructor
      · rintro (⟨hbelow, -⟩ | rfl)
        · exact hbelow
        · exact List.prefix_rfl
      · intro hbelow
        by_cases hsame : path = below
        · exact Or.inr hsame.symm
        · exact Or.inl ⟨hbelow, hsame⟩
    · have hnot : ¬ (Inside (dir ++ path) place ∨
          false = false ∧ place = dir ++ path) := by
        rintro (hbelow | ⟨-, rfl⟩)
        · exact hinside ((inside_append dir hpath).trans hbelow)
        · exact hinside (inside_append dir hpath)
      rw [if_neg hnot, mount, if_neg hinside, mount, if_neg hinside]

/-- What `order` sets turns `start` into `goal`: each path once, the directories
it lies in before it. -/
structure Patch (start goal : Fs κ δ) (order : List Path) : Prop where
  named : ∀ path ∈ order, path ≠ [] ∧ ∀ name ∈ path, PlainName name
  held : ∀ path ∈ order, (goal path).isSome
  agrees : ∀ path, path ∉ order → start path = goal path
  closed : Closed goal
  nodup : order.Nodup
  leading : ∀ before path after, order = before ++ path :: after →
    ∀ above below, path = above ++ below → above ≠ [] → below ≠ [] →
      above ∈ order → above ∈ before

/-- The tree when the paths `done` are set. -/
def patched (start goal : Fs κ δ) (done : List Path) : Fs κ δ := fun path =>
  if path ∈ done then goal path else start path

@[simp] theorem patched_nil (start goal : Fs κ δ) :
    patched start goal [] = start := by
  funext path
  simp [patched]

theorem update_patched (start goal : Fs κ δ) (done : List Path) (path : Path) :
    Function.update (patched start goal done) path (goal path) =
      patched start goal (done ++ [path]) := by
  funext other
  by_cases hsame : other = path
  · simp [hsame, patched]
  · simp [hsame, patched]

theorem Patch.patched_all {start goal : Fs κ δ} {order : List Path}
    (hpatch : Patch start goal order) : patched start goal order = goal := by
  funext path
  rw [patched]
  split
  · rfl
  next hnot => exact hpatch.agrees path hnot

theorem Patch.dirsAbove_mount {start goal fs : Fs κ δ} {dir : Path}
    {before after : List Path} {path : Path}
    (hpatch : Patch start goal (before ++ path :: after))
    (hdir : ∃ attrs, fs dir = some (.dir attrs)) :
    DirsAbove (mount dir (patched start goal before) fs) dir path := by
  intro above below hsplit hbelow
  by_cases habove : above = []
  · subst habove
    simpa using hdir
  · rw [mount_append habove]
    have hgoal := hpatch.held path (by simp)
    rw [hsplit] at hgoal
    obtain ⟨attrs, hattrs⟩ := hpatch.closed above below habove hbelow hgoal
    refine ⟨attrs, ?_⟩
    rw [patched]
    split
    · exact hattrs
    next hnot =>
      rw [hpatch.agrees above, hattrs]
      intro hmem
      exact hnot (hpatch.leading before path after rfl above below hsplit
        habove hbelow hmem)

end FileTree
