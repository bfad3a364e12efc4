/-
A file system as a map from paths to nodes: path texts and their names, the walk
that follows symbolic links, and the removal of files and directories.
-/
import Mathlib

namespace FileTree

universe u v

/-- The names from the root down. -/
abbrev Path := List String

inductive Node (κ : Type u) (δ : Type v) where
  | file (data : κ)
  | dir (attrs : δ)
  | symlink (target : String)
deriving DecidableEq, Repr

def Node.isDir {κ : Type u} {δ : Type v} : Node κ δ → Bool
  | .dir _ => true
  | _ => false

def Node.isSymlink {κ : Type u} {δ : Type v} : Node κ δ → Bool
  | .symlink _ => true
  | _ => false

abbrev Fs (κ : Type u) (δ : Type v) := Path → Option (Node κ δ)

inductive IoError where
  | notFound
  | notADirectory
  | filesystemLoop
  | invalidInput
deriving DecidableEq, Repr

/-- What stands between the separators, empty names included. -/
def rawNames (text : String) : List String :=
  (text.toList.splitOn '/').map String.ofList

def names (text : String) : List String :=
  (rawNames text).filter fun name => name ≠ ""

def joinNames (path : Path) : String :=
  String.ofList (['/'].intercalate (path.map String.toList))

/-- Only separators leave no name. -/
theorem head_eq_of_names_eq_nil {text : String} (hnames : names text = []) :
    text = "" ∨ text.toList.head? = some '/' := by
  have hpieces : ∀ piece ∈ text.toList.splitOn '/', piece = [] := by
    intro piece hpiece
    have hname := List.filter_eq_nil_iff.mp hnames (String.ofList piece)
      (List.mem_map_of_mem hpiece)
    simpa using hname
  cases hchars : text.toList with
  | nil => exact Or.inl (String.toList_eq_nil_iff.mp hchars)
  | cons first rest =>
      refine Or.inr ?_
      by_contra hfirst
      rw [hchars, List.splitOn_cons_eq_if_modifyHead,
        if_neg (by simpa using hfirst)] at hpieces
      obtain ⟨piece, more, hsplit⟩ :=
        List.exists_cons_of_ne_nil (List.splitOn_ne_nil '/' rest)
      rw [hsplit] at hpieces
      exact absurd (hpieces (first :: piece) (by simp)) (by simp)

/-- A name that stands for an entry of its directory. -/
def PlainName (name : String) : Prop :=
  name ≠ "" ∧ name ≠ "." ∧ name ≠ ".." ∧ '/' ∉ name.toList

instance (name : String) : Decidable (PlainName name) :=
  inferInstanceAs (Decidable (_ ∧ _ ∧ _ ∧ _))

theorem rawNames_joinNames {path : Path} (hpath : path ≠ [])
    (hplain : ∀ name ∈ path, PlainName name) :
    rawNames (joinNames path) = path := by
  have hsplit : (['/'].intercalate (path.map String.toList)).splitOn '/' =
      path.map String.toList := by
    refine List.splitOn_intercalate '/' ?_ (by simpa using hpath)
    intro chars hchars
    obtain ⟨name, hname, rfl⟩ := List.mem_map.mp hchars
    exact (hplain name hname).2.2.2
  rw [rawNames, joinNames, String.toList_ofList, hsplit, List.map_map]
  simp [Function.comp_def]

theorem names_joinNames {path : Path}
    (hplain : ∀ name ∈ path, PlainName name) :
    names (joinNames path) = path := by
  by_cases hpath : path = []
  · subst hpath
    decide
  · rw [names, rawNames_joinNames hpath hplain]
    refine List.filter_eq_self.mpr fun name hname => ?_
    simpa using (hplain name hname).1

theorem joinNames_cons_head {name : String} {rest : Path}
    (hname : PlainName name) :
    ∃ first more, (joinNames (name :: rest)).toList = first :: more ∧
      first ≠ '/' := by
  cases hchars : name.toList with
  | nil => exact absurd (String.toList_eq_nil_iff.mp hchars) hname.1
  | cons first more =>
      have hfirst : first ≠ '/' := by
        rintro rfl
        exact hname.2.2.2 (by simp [hchars])
      rw [joinNames, String.toList_ofList, List.map_cons, hchars,
        List.intercalate_cons_cons_left]
      exact ⟨first, _, rfl, hfirst⟩

theorem joinNames_append {above below : Path} (habove : above ≠ [])
    (hbelow : below ≠ []) :
    (joinNames (above ++ below)).toList =
      (joinNames above).toList ++ '/' :: (joinNames below).toList := by
  simp only [joinNames, String.toList_ofList]
  induction above with
  | nil => exact absurd rfl habove
  | cons name rest ih =>
      by_cases hlast : rest = []
      · subst hlast
        rw [List.singleton_append, List.map_cons, List.map_singleton,
          List.intercalate_singleton,
          List.intercalate_cons_of_ne_nil (by simpa using hbelow)]
        simp
      · rw [List.cons_append, List.map_cons, List.map_cons,
          List.intercalate_cons_of_ne_nil (by simp [hlast]), ih hlast,
          List.intercalate_cons_of_ne_nil (by simpa using hlast)]
        simp only [List.append_assoc]

/-- A directory sorts before what is below it. -/
theorem joinNames_lt_append {above below : Path} (habove : above ≠ [])
    (hbelow : below ≠ []) : joinNames above < joinNames (above ++ below) := by
  rw [String.lt_iff_toList_lt, joinNames_append habove hbelow]
  have hlt : (joinNames above).toList ++ [] <
      (joinNames above).toList ++ '/' :: (joinNames below).toList :=
    List.append_left_lt (List.nil_lt_cons _ _)
  rwa [List.append_nil] at hlt

/-- A text that ends in a separator or in `.` names a directory, behind a
symbolic link if there is one. -/
def opensLast (text : String) : Bool :=
  match (rawNames text).getLast? with
  | some name => name = "" ∨ name = "."
  | none => true

theorem opensLast_of_getLast_dot {text : String}
    (hlast : (names text).getLast? = some ".") : opensLast text = true := by
  have hraw : rawNames text ≠ [] := by
    simp [rawNames, List.splitOn_ne_nil]
  obtain ⟨first, last, hsplit⟩ := (List.eq_nil_or_concat _).resolve_left hraw
  rw [List.concat_eq_append] at hsplit
  rw [names, hsplit, List.filter_append] at hlast
  rw [opensLast, hsplit, List.getLast?_concat]
  by_cases hempty : last = ""
  · simp [hempty]
  · simpa [hempty] using hlast

theorem opensLast_joinNames {path : Path} (hpath : path ≠ [])
    (hplain : ∀ name ∈ path, PlainName name) :
    opensLast (joinNames path) = false := by
  rw [opensLast, rawNames_joinNames hpath hplain,
    List.getLast?_eq_some_getLast hpath]
  have hlast := hplain _ (List.getLast_mem hpath)
  simp [hlast.1, hlast.2.1]

/-- Strictly below the directory. -/
def Inside (dir path : Path) : Prop :=
  dir <+: path ∧ dir ≠ path

instance (dir path : Path) : Decidable (Inside dir path) :=
  inferInstanceAs (Decidable (_ ∧ _))

theorem inside_iff {dir path : Path} :
    Inside dir path ↔ ∃ below, below ≠ [] ∧ path = dir ++ below := by
  constructor
  · rintro ⟨⟨below, rfl⟩, hne⟩
    refine ⟨below, ?_, rfl⟩
    rintro rfl
    simp at hne
  · rintro ⟨below, hbelow, rfl⟩
    exact ⟨List.prefix_append dir below, by simpa using hbelow⟩

theorem inside_append (dir : Path) {below : Path} (hbelow : below ≠ []) :
    Inside dir (dir ++ below) :=
  inside_iff.mpr ⟨below, hbelow, rfl⟩

theorem Inside.trans {top dir path : Path} (hdir : Inside top dir)
    (hpath : Inside dir path) : Inside top path := by
  obtain ⟨first, hfirst, rfl⟩ := inside_iff.mp hdir
  obtain ⟨second, -, rfl⟩ := inside_iff.mp hpath
  exact inside_iff.mpr ⟨first ++ second, by simp [hfirst],
    List.append_assoc _ _ _⟩

section Frame

variable {κ : Type u} {δ : Type v}

/-- Nothing outside the directory differs. -/
def Untouched (dir : Path) (before after : Fs κ δ) : Prop :=
  ∀ path, ¬ Inside dir path → after path = before path

/-- Outside the directory nothing was added or changed. -/
def OnlyRemoved (dir : Path) (before after : Fs κ δ) : Prop :=
  ∀ path, ¬ Inside dir path → after path = before path ∨ after path = none

theorem Untouched.onlyRemoved {dir : Path} {before after : Fs κ δ}
    (huntouched : Untouched dir before after) :
    OnlyRemoved dir before after :=
  fun path hpath => Or.inl (huntouched path hpath)

theorem OnlyRemoved.trans {dir : Path} {first second third : Fs κ δ}
    (hfirst : OnlyRemoved dir first second)
    (hsecond : OnlyRemoved dir second third) :
    OnlyRemoved dir first third := by
  intro path hpath
  rcases hsecond path hpath with hsame | hnone
  · rw [hsame]
    exact hfirst path hpath
  · exact Or.inr hnone

/-- What was taken away does not come back, so a run of removals leaves the
outside alone exactly when each of them does. -/
theorem untouched_trans_iff {dir : Path} {first second third : Fs κ δ}
    (hfirst : OnlyRemoved dir first second)
    (hsecond : OnlyRemoved dir second third) :
    Untouched dir first third ↔
      Untouched dir first second ∧ Untouched dir second third := by
  constructor
  · intro huntouched
    have hmiddle : Untouched dir first second := by
      intro path hpath
      rcases hfirst path hpath with hsame | hnone
      · exact hsame
      · have hlast : third path = none := by
          rcases hsecond path hpath with hsame | hgone
          · rw [hsame, hnone]
          · exact hgone
        rw [hnone, ← huntouched path hpath, hlast]
    refine ⟨hmiddle, fun path hpath => ?_⟩
    rw [huntouched path hpath, hmiddle path hpath]
  · rintro ⟨hbefore, hafter⟩ path hpath
    rw [hafter path hpath, hbefore path hpath]

end Frame

section Walk

variable {κ : Type u} {δ : Type v}

/-- Where a walk without links ends: at the path, or at a link to follow. -/
inductive WalkStop where
  | arrived (path : Path)
  | link (dir : Path) (target : String) (rest : List String)
deriving DecidableEq, Repr

/-- Go down name by name.  The last name is followed only if `follow`. -/
def walkPlain (fs : Fs κ δ) (follow : Bool) :
    Path → List String → Except IoError WalkStop
  | dir, [] => .ok (.arrived dir)
  | dir, name :: rest =>
      match fs dir with
      | none => .error .notFound
      | some (.file _) => .error .notADirectory
      | some (.symlink _) => .error .notADirectory
      | some (.dir _) =>
          if name = "." then walkPlain fs follow dir rest
          else if name = ".." then walkPlain fs follow dir.dropLast rest
          else
            match fs (dir ++ [name]) with
            | none => .error .notFound
            | some (.symlink target) =>
                if rest = [] ∧ follow = false then
                  .ok (.arrived (dir ++ [name]))
                else .ok (.link dir target rest)
            | some _ => walkPlain fs follow (dir ++ [name]) rest

/-- Walk on behind every link, up to a number of links. -/
def walk (fs : Fs κ δ) (follow : Bool) :
    Nat → Path → List String → Except IoError Path
  | links, dir, path =>
      match walkPlain fs follow dir path with
      | .error err => .error err
      | .ok (.arrived found) => .ok found
      | .ok (.link at_ target rest) =>
          match links with
          | 0 => .error .filesystemLoop
          | links + 1 =>
              let start := if target.toList.head? = some '/' then [] else at_
              walk fs follow links start (names target ++ rest)

def MAX_LINKS : Nat := 40

/-- The place a text names from a directory on, a last link not followed. -/
def lstat (fs : Fs κ δ) (dir : Path) (text : String) : Except IoError Path :=
  match walk fs (opensLast text) MAX_LINKS dir (names text) with
  | .error err => .error err
  | .ok found =>
      match fs found with
      | none => .error .notFound
      | some node =>
          if opensLast text && !node.isDir then .error .notADirectory
          else .ok found

theorem lstat_eq_ok_iff {fs : Fs κ δ} {dir found : Path} {text : String} :
    lstat fs dir text = .ok found ↔
      walk fs (opensLast text) MAX_LINKS dir (names text) = .ok found ∧
        (fs found).isSome ∧
        (opensLast text = true → (fs found).any Node.isDir = true) := by
  rw [lstat]
  cases hwalk : walk fs (opensLast text) MAX_LINKS dir (names text) with
  | error err => simp
  | ok place =>
      simp only [Except.ok.injEq]
      cases hnode : fs place with
      | none =>
          simp only [reduceCtorEq, false_iff]
          rintro ⟨rfl, hsome, -⟩
          simp [hnode] at hsome
      | some node =>
          by_cases hrefused : (opensLast text && !node.isDir) = true
          · simp only [hrefused, if_true, reduceCtorEq, false_iff]
            rintro ⟨rfl, -, hdir⟩
            simp_all
          · simp only [hrefused, Bool.false_eq_true, if_false, Except.ok.injEq]
            constructor
            · rintro rfl
              refine ⟨rfl, by simp [hnode], fun hopens => ?_⟩
              simpa [hnode, hopens] using hrefused
            · exact fun hfound => hfound.1

/-- Without a link the names alone decide where a walk ends. -/
theorem walkPlain_arrived {fs : Fs κ δ} {follow : Bool} {dir found : Path}
    {path : List String} (hpath : ".." ∉ path)
    (hwalk : walkPlain fs follow dir path = .ok (.arrived found)) :
    found = dir ++ path.filter fun name => name ≠ "." := by
  induction path generalizing dir with
  | nil =>
      cases hwalk
      simp
  | cons name rest ih =>
      have hname : name ≠ ".." := fun heq => hpath (by simp [heq])
      have hrest : ".." ∉ rest := fun hmem =>
        hpath (List.mem_cons_of_mem name hmem)
      simp only [walkPlain] at hwalk
      split at hwalk
      · cases hwalk
      · cases hwalk
      · cases hwalk
      by_cases hdot : name = "."
      · rw [if_pos hdot] at hwalk
        simpa [hdot] using ih hrest hwalk
      · rw [if_neg hdot, if_neg hname] at hwalk
        rw [List.filter_cons_of_pos (by simpa using hdot)]
        split at hwalk
        · cases hwalk
        · split at hwalk
          next hlast =>
            cases hwalk
            simp [hlast.1]
          · cases hwalk
        · simpa using ih hrest hwalk

/-- Every directory on the way from `dir` to `dir ++ path` is one. -/
def DirsAbove (fs : Fs κ δ) (dir path : Path) : Prop :=
  ∀ above below, path = above ++ below → below ≠ [] →
    ∃ attrs, fs (dir ++ above) = some (.dir attrs)

theorem DirsAbove.tail {fs : Fs κ δ} {dir rest : Path} {name : String}
    (habove : DirsAbove fs dir (name :: rest)) :
    DirsAbove fs (dir ++ [name]) rest := by
  intro above below hsplit hbelow
  obtain ⟨attrs, hattrs⟩ := habove (name :: above) below (by simp [hsplit]) hbelow
  exact ⟨attrs, by simpa using hattrs⟩

/-- Through directories alone a walk goes where the names say. -/
theorem walkPlain_of_dirsAbove {fs : Fs κ δ} {dir path : Path}
    (habove : DirsAbove fs dir path)
    (hplain : ∀ name ∈ path, PlainName name)
    (hsome : (fs (dir ++ path)).isSome) :
    walkPlain fs false dir path = .ok (.arrived (dir ++ path)) := by
  induction path generalizing dir with
  | nil => simp [walkPlain]
  | cons name rest ih =>
      obtain ⟨attrs, hdir⟩ := habove [] (name :: rest) rfl (by simp)
      rw [List.append_nil] at hdir
      have hname := hplain name List.mem_cons_self
      have hrest := ih habove.tail
        (fun other hother => hplain other (List.mem_cons_of_mem name hother))
        (by simpa using hsome)
      rw [List.append_assoc, List.singleton_append] at hrest
      simp only [walkPlain, hdir, if_neg hname.2.1, if_neg hname.2.2.1]
      by_cases hlast : rest = []
      · subst hlast
        obtain ⟨node, hnode⟩ := Option.isSome_iff_exists.mp hsome
        cases node with
        | file data => simp [hnode, walkPlain]
        | dir attrs => simp [hnode, walkPlain]
        | symlink target => simp [hnode]
      · obtain ⟨attrs, hnext⟩ := habove [name] rest rfl hlast
        simp only [hnext]
        exact hrest

theorem lstat_joinNames {fs : Fs κ δ} {dir path : Path} (hpath : path ≠ [])
    (habove : DirsAbove fs dir path)
    (hplain : ∀ name ∈ path, PlainName name)
    (hsome : (fs (dir ++ path)).isSome) :
    lstat fs dir (joinNames path) = .ok (dir ++ path) := by
  obtain ⟨node, hnode⟩ := Option.isSome_iff_exists.mp hsome
  rw [lstat, opensLast_joinNames hpath hplain, names_joinNames hplain, walk,
    walkPlain_of_dirsAbove habove hplain hsome]
  simp [hnode]

/-- What is there on the way from `dir` to `dir ++ path` is a directory. -/
def DirsOrMissing (fs : Fs κ δ) (dir path : Path) : Prop :=
  ∀ above below, path = above ++ below → above ≠ [] → below ≠ [] →
    fs (dir ++ above) = none ∨ ∃ attrs, fs (dir ++ above) = some (.dir attrs)

theorem DirsOrMissing.tail {fs : Fs κ δ} {dir rest : Path} {name : String}
    (hway : DirsOrMissing fs dir (name :: rest)) :
    DirsOrMissing fs (dir ++ [name]) rest := by
  intro above below hsplit _ hbelow
  have hnext := hway (name :: above) below (by simp [hsplit]) (by simp) hbelow
  simpa using hnext

theorem lstat_joinNames_of_missing {fs : Fs κ δ} {dir path : Path}
    (hpath : path ≠ []) (hplain : ∀ name ∈ path, PlainName name)
    (hdir : ∃ attrs, fs dir = some (.dir attrs))
    (hway : DirsOrMissing fs dir path) (hmissing : fs (dir ++ path) = none) :
    lstat fs dir (joinNames path) = .error .notFound := by
  have hwalk : walkPlain fs false dir path = .error .notFound := by
    induction path generalizing dir with
    | nil => exact absurd rfl hpath
    | cons name rest ih =>
        obtain ⟨attrs, hattrs⟩ := hdir
        have hname := hplain name List.mem_cons_self
        simp only [walkPlain, hattrs, if_neg hname.2.1, if_neg hname.2.2.1]
        by_cases hlast : rest = []
        · subst hlast
          simp [hmissing]
        · rcases hway [name] rest rfl (by simp) hlast with hnone | hnext
          · simp [hnone]
          · obtain ⟨next, hnode⟩ := hnext
            simp only [hnode]
            exact ih hlast
              (fun other hother => hplain other (List.mem_cons_of_mem name hother))
              ⟨next, hnode⟩ hway.tail (by simpa using hmissing)
  rw [lstat, opensLast_joinNames hpath hplain, names_joinNames hplain, walk,
    hwalk]

/-- The last name of the text is a link that a walk would follow. -/
def endsInLink (fs : Fs κ δ) (dir : Path) (text : String) : Bool :=
  match walk fs false MAX_LINKS dir (names text) with
  | .error _ => false
  | .ok found => (fs found).any Node.isSymlink

/-- The system call that removes a directory refuses a path that ends in `.`
or, with a separator behind it, in a link. -/
def keepsDir (fs : Fs κ δ) (dir : Path) (text : String) : Bool :=
  opensLast text &&
    ((names text).getLast? = some "." || endsInLink fs dir text)

def clearBelow (fs : Fs κ δ) (dir : Path) : Fs κ δ :=
  fun path => if Inside dir path then none else fs path

/-- Remove the directory `found`, which `text` names, and all below it. -/
def removeDirAll (fs : Fs κ δ) (dir : Path) (text : String) (found : Path) :
    Fs κ δ × Except IoError Unit :=
  let cleared := clearBelow fs found
  if keepsDir fs dir text then
    (cleared, .error (if (names text).getLast? = some "." then .invalidInput
      else .notADirectory))
  else (Function.update cleared found none, .ok ())

def removeFile (fs : Fs κ δ) (found : Path) : Fs κ δ :=
  Function.update fs found none

theorem keepsDir_joinNames {fs : Fs κ δ} {dir path : Path} (hpath : path ≠ [])
    (hplain : ∀ name ∈ path, PlainName name) :
    keepsDir fs dir (joinNames path) = false := by
  simp [keepsDir, opensLast_joinNames hpath hplain]

/-- Which paths a removal takes away. -/
theorem removeDirAll_apply (fs : Fs κ δ) (dir : Path) (text : String)
    (found path : Path) :
    (removeDirAll fs dir text found).1 path =
      if Inside found path ∨ keepsDir fs dir text = false ∧ path = found then
        none
      else fs path := by
  simp only [removeDirAll]
  cases hkeeps : keepsDir fs dir text with
  | true => simp [clearBelow]
  | false =>
      by_cases hsame : path = found
      · simp [hsame]
      · simp [hsame, clearBelow]

end Walk

end FileTree
