/-
The snapshot of a directory tree, the index a backup records of it, and the
changes between two indexes.
-/
import XBackup.Foundation.SortedMap
import XBackup.Foundation.TreePatch

namespace XBackup

open FileTree SortedMap

structure FileData where
  content : List UInt8
  mode : UInt32
deriving DecidableEq, Repr

/-- Directories carry their mode. -/
abbrev FileNode := Node FileData UInt32

abbrev FileSystem := Fs FileData UInt32

inductive EntryKind where
  | file
  | dir
  | symlink
deriving DecidableEq, Repr

structure IndexEntry where
  k : EntryKind
  s : Nat
  mt : Int
  mo : UInt32
  lt : Option String
deriving DecidableEq, Repr

/-- Paths as texts, in their order. -/
abbrev FileIndex := Map String IndexEntry

structure IndexDiff where
  changed : List String
  deleted : List String
deriving DecidableEq, Repr

def IndexDiff.isEmpty (diff : IndexDiff) : Bool :=
  diff.changed.isEmpty && diff.deleted.isEmpty

def IndexDiff.count (diff : IndexDiff) : Nat :=
  diff.changed.length + diff.deleted.length

def diffFrom (cur prev : FileIndex) : IndexDiff where
  changed := (cur.entries.filter fun entry =>
    prev.get entry.1 ≠ some entry.2).map Prod.fst
  deleted := prev.keys.filter fun path => (cur.get path).isNone

/-- An entry of the walk is new, and its directory was walked before it. -/
def EntryFits (seen : List (Path × FileNode)) (entry : Path × FileNode) :
    Prop :=
  entry.1 ≠ [] ∧ (∀ name ∈ entry.1, PlainName name) ∧
    entry.1 ∉ seen.map Prod.fst ∧
    (entry.1.dropLast ≠ [] →
      ∃ above ∈ seen, above.1 = entry.1.dropLast ∧ above.2.isDir = true)

instance (seen : List (Path × FileNode)) (entry : Path × FileNode) :
    Decidable (EntryFits seen entry) :=
  inferInstanceAs (Decidable (_ ∧ _ ∧ _ ∧ _))

def WalkOrder (seen : List (Path × FileNode)) :
    List (Path × FileNode) → Prop
  | [] => True
  | entry :: rest => EntryFits seen entry ∧ WalkOrder (seen ++ [entry]) rest

instance decidableWalkOrder : (seen entries : List (Path × FileNode)) →
    Decidable (WalkOrder seen entries)
  | _, [] => isTrue trivial
  | seen, entry :: rest =>
      have := decidableWalkOrder (seen ++ [entry]) rest
      inferInstanceAs (Decidable (_ ∧ _))

/-- A source directory at the time of a backup: its entries in the order a walk
meets them, and their modification times. -/
structure Snapshot where
  root : String
  mode : UInt32
  entries : List (Path × FileNode)
  mtime : Path → Int
  walkOrder : WalkOrder [] entries

def Snapshot.node (snapshot : Snapshot) : FileSystem := fun path =>
  snapshot.entries.lookup path

def entryFromMeta (node : FileNode) (mtime : Int) : IndexEntry :=
  match node with
  | .file data =>
      ⟨.file, data.content.length, mtime, data.mode &&& 0o7777, none⟩
  | .dir mode => ⟨.dir, 0, mtime, mode &&& 0o7777, none⟩
  | .symlink target => ⟨.symlink, 0, mtime, 0o777, some target⟩

def Snapshot.indexed (snapshot : Snapshot) (path : Path) (node : FileNode) :
    IndexEntry :=
  entryFromMeta node (snapshot.mtime path)

def FileIndex.build (snapshot : Snapshot) : FileIndex :=
  Map.ofEntries (snapshot.entries.map fun entry =>
    (joinNames entry.1, snapshot.indexed entry.1 entry.2))

theorem walkOrder_split {seen before after : List (Path × FileNode)}
    {entry : Path × FileNode}
    (hwalk : WalkOrder seen (before ++ entry :: after)) :
    EntryFits (seen ++ before) entry := by
  induction before generalizing seen with
  | nil =>
      rw [List.append_nil]
      exact hwalk.1
  | cons first rest ih =>
      have hrest := ih hwalk.2
      rwa [List.append_assoc, List.singleton_append] at hrest

theorem Snapshot.fits_split {snapshot : Snapshot}
    {before after : List (Path × FileNode)} {entry : Path × FileNode}
    (hsplit : snapshot.entries = before ++ entry :: after) :
    EntryFits before entry := by
  have hwalk := snapshot.walkOrder
  rw [hsplit] at hwalk
  simpa using walkOrder_split hwalk

theorem walkOrder_nodup {seen entries : List (Path × FileNode)}
    (hwalk : WalkOrder seen entries) :
    (entries.map Prod.fst).Nodup ∧
      ∀ entry ∈ entries, entry.1 ∉ seen.map Prod.fst := by
  induction entries generalizing seen with
  | nil => simp
  | cons first rest ih =>
      obtain ⟨hfirst, hrest⟩ := hwalk
      obtain ⟨hnodup, hnew⟩ := ih hrest
      constructor
      · refine List.nodup_cons.mpr ⟨?_, hnodup⟩
        intro hmem
        obtain ⟨entry, hentry, heq⟩ := List.mem_map.mp hmem
        exact hnew entry hentry (by simp [heq])
      · intro entry hentry
        rcases List.mem_cons.mp hentry with rfl | hlater
        · exact hfirst.2.2.1
        · intro hseen
          exact hnew entry hlater (by
            rw [List.map_append]
            exact List.mem_append_left _ hseen)

theorem Snapshot.nodup (snapshot : Snapshot) :
    (snapshot.entries.map Prod.fst).Nodup :=
  (walkOrder_nodup snapshot.walkOrder).1

theorem Snapshot.node_eq_some_iff {snapshot : Snapshot} {path : Path}
    {node : FileNode} :
    snapshot.node path = some node ↔ (path, node) ∈ snapshot.entries :=
  lookup_eq_some_iff_mem snapshot.nodup

theorem Snapshot.plain_of_mem {snapshot : Snapshot} {entry : Path × FileNode}
    (hmem : entry ∈ snapshot.entries) :
    entry.1 ≠ [] ∧ ∀ name ∈ entry.1, PlainName name := by
  obtain ⟨before, after, hsplit⟩ := List.append_of_mem hmem
  obtain ⟨hpath, hplain, -⟩ := Snapshot.fits_split hsplit
  exact ⟨hpath, hplain⟩

theorem Snapshot.plain {snapshot : Snapshot} {path : Path}
    (hsome : (snapshot.node path).isSome) :
    path ≠ [] ∧ ∀ name ∈ path, PlainName name := by
  obtain ⟨node, hnode⟩ := Option.isSome_iff_exists.mp hsome
  exact Snapshot.plain_of_mem (Snapshot.node_eq_some_iff.mp hnode)

/-- The directories an entry lies in are walked before it. -/
theorem Snapshot.above_mem {snapshot : Snapshot} {above below : Path}
    {node : FileNode} {before after : List (Path × FileNode)}
    (hsplit : snapshot.entries = before ++ (above ++ below, node) :: after)
    (habove : above ≠ []) (hbelow : below ≠ []) :
    ∃ attrs, (above, .dir attrs) ∈ before := by
  induction below using List.reverseRecOn generalizing node before after with
  | nil => exact absurd rfl hbelow
  | append_singleton more name ih =>
      have hfits := (Snapshot.fits_split hsplit).2.2.2
      simp only [← List.append_assoc, List.dropLast_concat] at hfits
      obtain ⟨⟨place, parent⟩, hmem, rfl, hdir⟩ := hfits (by simp [habove])
      cases parent with
      | file data => cases hdir
      | symlink target => cases hdir
      | dir attrs =>
          by_cases hmore : more = []
          · subst hmore
            exact ⟨attrs, by simpa using hmem⟩
          · obtain ⟨first, second, hbefore⟩ := List.append_of_mem hmem
            rw [hbefore, List.append_assoc, List.cons_append] at hsplit
            obtain ⟨found, hfound⟩ := ih hsplit hmore
            exact ⟨found, hbefore ▸ List.mem_append_left _ hfound⟩

theorem Snapshot.closed (snapshot : Snapshot) : Closed snapshot.node := by
  intro above below habove hbelow hsome
  obtain ⟨node, hnode⟩ := Option.isSome_iff_exists.mp hsome
  obtain ⟨before, after, hsplit⟩ :=
    List.append_of_mem (Snapshot.node_eq_some_iff.mp hnode)
  obtain ⟨attrs, hmem⟩ := Snapshot.above_mem hsplit habove hbelow
  refine ⟨attrs, Snapshot.node_eq_some_iff.mpr ?_⟩
  rw [hsplit]
  exact List.mem_append_left _ hmem

theorem joinNames_inj {first second : Path}
    (hfirst : ∀ name ∈ first, PlainName name)
    (hsecond : ∀ name ∈ second, PlainName name)
    (heq : joinNames first = joinNames second) : first = second := by
  rw [← names_joinNames hfirst, ← names_joinNames hsecond, heq]

theorem get_build_eq_some_iff {snapshot : Snapshot} {rel : String}
    {entry : IndexEntry} :
    (FileIndex.build snapshot).get rel = some entry ↔
      ∃ path node, snapshot.node path = some node ∧ rel = joinNames path ∧
        entry = snapshot.indexed path node := by
  have hkeys : ((snapshot.entries.map fun entry =>
      (joinNames entry.1, snapshot.indexed entry.1 entry.2)).map
        Prod.fst).Nodup := by
    rw [List.map_map]
    refine (List.nodup_map_iff_inj_on (List.Nodup.of_map _ snapshot.nodup)).mpr ?_
    intro first hfirst second hsecond heq
    have hnames : first.1 = second.1 := by
      exact joinNames_inj (Snapshot.plain_of_mem hfirst).2
        (Snapshot.plain_of_mem hsecond).2 heq
    exact List.inj_on_of_nodup_map snapshot.nodup hfirst hsecond hnames
  rw [FileIndex.build, Map.get_ofEntries_eq_some_iff hkeys, List.mem_map]
  constructor
  · rintro ⟨⟨path, node⟩, hmem, heq⟩
    obtain ⟨rfl, rfl⟩ := Prod.ext_iff.mp heq
    exact ⟨path, node, Snapshot.node_eq_some_iff.mpr hmem, rfl, rfl⟩
  · rintro ⟨path, node, hnode, rfl, rfl⟩
    exact ⟨(path, node), Snapshot.node_eq_some_iff.mp hnode, rfl⟩

/-- The index finds under a path what the snapshot holds there. -/
theorem get_build_joinNames {snapshot : Snapshot} {path : Path}
    (hplain : ∀ name ∈ path, PlainName name) :
    (FileIndex.build snapshot).get (joinNames path) =
      (snapshot.node path).map (snapshot.indexed path) := by
  refine Option.ext fun entry => ?_
  rw [get_build_eq_some_iff, Option.map_eq_some_iff]
  constructor
  · rintro ⟨other, node, hnode, heq, rfl⟩
    have hother := (Snapshot.plain (by rw [hnode]; rfl)).2
    obtain rfl := joinNames_inj hplain hother heq
    exact ⟨node, hnode, rfl⟩
  · rintro ⟨node, hnode, rfl⟩
    exact ⟨path, node, hnode, rfl, rfl⟩

theorem mem_changed_iff {cur prev : Snapshot} {rel : String} :
    rel ∈ (diffFrom (.build cur) (.build prev)).changed ↔
      ∃ path node, rel = joinNames path ∧ cur.node path = some node ∧
        (prev.node path).map (prev.indexed path) ≠
          some (cur.indexed path node) := by
  simp only [diffFrom, List.mem_map, List.mem_filter, decide_eq_true_eq]
  constructor
  · rintro ⟨⟨rel, entry⟩, ⟨hmem, hne⟩, rfl⟩
    obtain ⟨path, node, hnode, rfl, rfl⟩ :=
      get_build_eq_some_iff.mp (Map.get_eq_some_iff.mpr hmem)
    have hplain := (Snapshot.plain (by rw [hnode]; rfl)).2
    rw [get_build_joinNames hplain] at hne
    exact ⟨path, node, rfl, hnode, hne⟩
  · rintro ⟨path, node, rfl, hnode, hne⟩
    have hplain := (Snapshot.plain (by rw [hnode]; rfl)).2
    refine ⟨(joinNames path, cur.indexed path node), ⟨?_, ?_⟩, rfl⟩
    · exact Map.get_eq_some_iff.mp
        (get_build_eq_some_iff.mpr ⟨path, node, hnode, rfl, rfl⟩)
    · rwa [get_build_joinNames hplain]

theorem mem_deleted_iff {cur prev : Snapshot} {rel : String} :
    rel ∈ (diffFrom (.build cur) (.build prev)).deleted ↔
      ∃ path, rel = joinNames path ∧ (prev.node path).isSome ∧
        cur.node path = none := by
  simp only [diffFrom, List.mem_filter, Map.mem_keys_iff]
  constructor
  · rintro ⟨hprev, hcur⟩
    obtain ⟨entry, hentry⟩ := Option.isSome_iff_exists.mp hprev
    obtain ⟨path, node, hnode, rfl, -⟩ := get_build_eq_some_iff.mp hentry
    have hsome : (prev.node path).isSome := by rw [hnode]; rfl
    rw [get_build_joinNames (Snapshot.plain hsome).2] at hcur
    exact ⟨path, rfl, hsome, by simpa using hcur⟩
  · rintro ⟨path, rfl, hsome, hnone⟩
    have hplain := (Snapshot.plain hsome).2
    rw [get_build_joinNames hplain, get_build_joinNames hplain]
    exact ⟨by simpa using hsome, by simp [hnone]⟩

theorem changed_sorted (cur prev : FileIndex) :
    (diffFrom cur prev).changed.Pairwise (· < ·) :=
  cur.sorted.sublist (List.filter_sublist.map Prod.fst)

end XBackup
