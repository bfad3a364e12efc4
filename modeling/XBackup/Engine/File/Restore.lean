/-
Restoring a file archive: the items of a tar stream are unpacked below the
target, the reserved one lists paths to delete.  Unpacking itself is the work
of the tar library.
-/
import XBackup.Engine.DbKind
import XBackup.Engine.File.Index

namespace XBackup

open FileTree

def TOMBSTONE_ENTRY : String := ".xb/tombstones.json"

/-- An item of the stream; `payload` is what its content reads as when it is
taken for the list of deleted paths. -/
structure TarItem where
  path : String
  node : FileNode
  payload : Except XBackupError (List String)

/-- The item an increment lists its deleted paths in. -/
def tombstoneItem (deleted : List String) : TarItem where
  path := TOMBSTONE_ENTRY
  node := .file ⟨[], 0o600⟩
  payload := .ok deleted

/-- `unpack_in` of the tar library: the file system it leaves behind, and
whether the item was unpacked. -/
structure TarCrate where
  unpackIn : FileSystem → Path → TarItem → FileSystem × Except String Bool

/-- The tar library changes nothing outside the target. -/
def TarCrate.Confined (tar : TarCrate) (target : Path) : Prop :=
  ∀ fs item, Untouched target fs (tar.unpackIn fs target item).1

/-- An item fits where there is nothing; on a directory only a directory fits,
and on anything else all but a directory. -/
def fits (found : Option FileNode) (node : FileNode) : Bool :=
  found.all fun old => old.isDir = node.isDir

/-- The tar library ignores `.`.  Below directories it sets an item that fits,
what lies in a directory kept, and refuses every other one. -/
structure TarCrate.Unpacks (tar : TarCrate) (target : Path) : Prop where
  ignores : ∀ fs node payload,
    tar.unpackIn fs target ⟨".", node, payload⟩ = (fs, .ok true)
  replaces : ∀ fs path node payload, path ≠ [] →
    (∀ name ∈ path, PlainName name) → DirsAbove fs target path →
    fits (fs (target ++ path)) node = true →
      tar.unpackIn fs target ⟨joinNames path, node, payload⟩ =
        (Function.update fs (target ++ path) (some node), .ok true)
  refuses : ∀ fs path node payload, path ≠ [] →
    (∀ name ∈ path, PlainName name) → DirsAbove fs target path →
    fits (fs (target ++ path)) node = false →
      ∃ err, (tar.unpackIn fs target ⟨joinNames path, node, payload⟩).2 =
        .error err

/-- The components of a path: `.` counts at the front only. -/
def components (text : String) : List String :=
  let lead :=
    if startsWith text "/" then ["/"]
    else if (names text).head? = some "." then ["."]
    else []
  lead ++ (names text).filter fun name => name ≠ "."

def escapesTarget (rel : String) : Bool :=
  startsWith rel "/" || (components rel).contains ".."

def ioErrorText : IoError → String
  | .notFound => "No such file or directory"
  | .notADirectory => "Not a directory"
  | .filesystemLoop => "Too many levels of symbolic links"
  | .invalidInput => "Invalid argument"

/-- One round of `apply_tombstones`; the result says whether something was
deleted. -/
def applyTombstone (target : Path) (fs : FileSystem) (rel : String) :
    FileSystem × Except XBackupError Bool :=
  if escapesTarget rel then
    (fs, .error (.failure
      ("tombstone 경로가 대상을 벗어납니다(조작 의심): '" ++ rel ++ "'")))
  else
    let failed (err : IoError) : XBackupError :=
      .failure ("tombstone 삭제 실패('" ++ rel ++ "'): " ++ ioErrorText err)
    match lstat fs target rel with
    | .error .notFound => (fs, .ok false)
    | .error err => (fs, .error (failed err))
    | .ok found =>
        if (fs found).any Node.isDir then
          match removeDirAll fs target rel found with
          | (fs, .ok ()) => (fs, .ok true)
          | (fs, .error err) => (fs, .error (failed err))
        else (removeFile fs found, .ok true)

def applyTombstones (target : Path) (fs : FileSystem) (applied : Nat) :
    List String → FileSystem × Except XBackupError Nat
  | [] => (fs, .ok applied)
  | rel :: rest =>
      match applyTombstone target fs rel with
      | (fs, .error err) => (fs, .error err)
      | (fs, .ok removed) =>
          applyTombstones target fs (if removed then applied + 1 else applied)
            rest

def restoreFailed (ctx : String) (target : Path) (err : String) :
    XBackupError :=
  .failure ("파일 복구 " ++ ctx ++ " 실패('/" ++ joinNames target ++ "'): " ++
    err)

/-- One round of the loop over the archive. -/
def unpackItem (tar : TarCrate) (target : Path) (fs : FileSystem)
    (item : TarItem) : FileSystem × Except XBackupError Nat :=
  if components item.path = components TOMBSTONE_ENTRY then
    match item.payload with
    | .error err => (fs, .error err)
    | .ok deleted => applyTombstones target fs 0 deleted
  else
    match tar.unpackIn fs target item with
    | (fs, .error err) => (fs, .error (restoreFailed "항목 풀기" target err))
    | (fs, .ok unpacked) => (fs, .ok (if unpacked then 1 else 0))

/-- The file system a restore leaves behind, also when it fails, and the number
of items unpacked. -/
def unpackTar (tar : TarCrate) (target : Path) (fs : FileSystem)
    (unpacked : Nat) :
    List (Except String TarItem) → FileSystem × Except XBackupError Nat
  | [] => (fs, .ok unpacked)
  | .error err :: _ => (fs, .error (restoreFailed "항목 읽기" target err))
  | .ok item :: rest =>
      match unpackItem tar target fs item with
      | (fs, .error err) => (fs, .error err)
      | (fs, .ok count) => unpackTar tar target fs (unpacked + count) rest

/-- Whatever is deleted when the tombstone leads to `found` lies strictly inside
the target. -/
def StaysAt (target : Path) (fs : FileSystem) (rel : String) (found : Path) :
    Prop :=
  if keepsDir fs target rel then
    ∀ path, Inside found path → (fs path).isSome → Inside target path
  else Inside target found

/-- A tombstone with no symbolic link on its way is not empty while the target
is there; one with a link leads to a place inside the target. -/
def TombstoneStays (target : Path) (fs : FileSystem) (rel : String) : Prop :=
  escapesTarget rel = false →
    match walkPlain fs (opensLast rel) target (names rel) with
    | .error _ => True
    | .ok (.arrived _) => (fs target).any Node.isDir → rel ≠ ""
    | .ok (.link _ _ _) =>
        ∀ found, lstat fs target rel = .ok found → StaysAt target fs rel found

theorem dotdot_notMem_names {rel : String} (hrel : escapesTarget rel = false) :
    ".." ∉ names rel := by
  intro hmem
  have hcomponent : ".." ∈ components rel := by
    refine List.mem_append_right _ (List.mem_filter.mpr ⟨hmem, ?_⟩)
    decide
  simp [escapesTarget, hcomponent] at hrel

theorem names_ne_nil {rel : String} (hrel : escapesTarget rel = false)
    (hne : rel ≠ "") : names rel ≠ [] := by
  intro hnames
  have hhead := (head_eq_of_names_eq_nil hnames).resolve_left hne
  obtain ⟨rest, hrest⟩ := List.head?_eq_some_iff.mp hhead
  simp [escapesTarget, startsWith, hrest] at hrel

/-- Without a link on its way every other tombstone stays. -/
theorem staysAt_of_arrived {target found : Path} {fs : FileSystem}
    {rel : String} (hrel : escapesTarget rel = false) (hne : rel ≠ "")
    (hwalk : walkPlain fs (opensLast rel) target (names rel) =
      .ok (.arrived found)) : StaysAt target fs rel found := by
  have hfound := walkPlain_arrived (dotdot_notMem_names hrel) hwalk
  by_cases hdots : (names rel).filter (fun name => name ≠ ".") = []
  · have hlast : (names rel).getLast? = some "." := by
      rw [List.getLast?_eq_some_getLast (names_ne_nil hrel hne)]
      have hdot := List.filter_eq_nil_iff.mp hdots _
        (List.getLast_mem (names_ne_nil hrel hne))
      simpa using hdot
    have hkeeps : keepsDir fs target rel = true := by
      simp [keepsDir, opensLast_of_getLast_dot hlast, hlast]
    rw [hdots, List.append_nil] at hfound
    subst hfound
    rw [StaysAt, if_pos hkeeps]
    exact fun path hpath _ => hpath
  · have hinside : Inside target found :=
      inside_iff.mpr ⟨_, hdots, hfound⟩
    rw [StaysAt]
    split
    · exact fun path hpath _ => hinside.trans hpath
    · exact hinside

/-- The empty tombstone names the target itself. -/
theorem staysAt_empty_iff {target : Path} {fs : FileSystem} :
    (∀ found, lstat fs target "" = .ok found → StaysAt target fs "" found) ↔
      ¬ (fs target).any Node.isDir := by
  have hnames : names "" = [] := by decide
  have hopens : opensLast "" = true := by decide
  have hwalk : ∀ follow, walk fs follow MAX_LINKS target (names "") =
      .ok target := by
    intro follow
    rw [hnames, walk, walkPlain]
  constructor
  · intro hstays hdir
    cases hnode : fs target with
    | none => simp [hnode] at hdir
    | some node =>
        have hat := hstays target (lstat_eq_ok_iff.mpr
          ⟨hwalk _, by simp [hnode], fun _ => hdir⟩)
        have hlink : endsInLink fs target "" = false := by
          simp only [endsInLink, hwalk, hnode]
          cases node with
          | file => rfl
          | dir => rfl
          | symlink => simp [hnode, Node.isDir] at hdir
        rw [StaysAt, keepsDir, hlink, hnames] at hat
        simp [Inside] at hat
  · intro hmissing found hfound
    obtain ⟨harrived, -, hdir⟩ := lstat_eq_ok_iff.mp hfound
    rw [hwalk] at harrived
    cases harrived
    exact absurd (hdir hopens) hmissing

theorem tombstoneStays_iff {target : Path} {fs : FileSystem} {rel : String} :
    TombstoneStays target fs rel ↔ (escapesTarget rel = false →
      ∀ found, lstat fs target rel = .ok found →
        StaysAt target fs rel found) := by
  rw [TombstoneStays]
  refine imp_congr_right fun hrel => ?_
  cases hwalk : walkPlain fs (opensLast rel) target (names rel) with
  | error err =>
      have hlstat : lstat fs target rel = .error err := by
        rw [lstat, walk, hwalk]
      simp [hlstat]
  | ok stop =>
      cases stop with
      | link dir link rest => rfl
      | arrived place =>
          have hplace : ∀ found, lstat fs target rel = .ok found →
              found = place := by
            intro found hfound
            have harrived := (lstat_eq_ok_iff.mp hfound).1
            rw [walk, hwalk] at harrived
            exact (Except.ok.inj harrived).symm
          by_cases hempty : rel = ""
          · subst hempty
            rw [staysAt_empty_iff]
            simp
          · refine ⟨fun _ found hfound => ?_, fun _ _ => hempty⟩
            rw [hplace found hfound]
            exact staysAt_of_arrived hrel hempty hwalk

theorem applyTombstone_fst_of_escapes {target : Path} {fs : FileSystem}
    {rel : String} (hrel : escapesTarget rel = true) :
    (applyTombstone target fs rel).1 = fs := by
  rw [applyTombstone, if_pos hrel]

theorem applyTombstone_fst_of_error {target : Path} {fs : FileSystem}
    {rel : String} {err : IoError} (hlstat : lstat fs target rel = .error err) :
    (applyTombstone target fs rel).1 = fs := by
  rw [applyTombstone, hlstat]
  split
  · rfl
  · cases err <;> rfl

/-- What a tombstone that names something takes away. -/
theorem applyTombstone_fst_of_ok {target found : Path} {fs : FileSystem}
    {rel : String} (hrel : escapesTarget rel = false)
    (hlstat : lstat fs target rel = .ok found) (path : Path) :
    (applyTombstone target fs rel).1 path =
      if (fs found).any Node.isDir ∧ Inside found path ∨
          keepsDir fs target rel = false ∧ path = found then none
      else fs path := by
  rw [applyTombstone, if_neg (by simp [hrel]), hlstat]
  by_cases hdir : (fs found).any Node.isDir = true
  · have hremove := removeDirAll_apply fs target rel found path
    simp only [hdir, if_true, true_and]
    split
    next hresult => simpa [hresult] using hremove
    next hresult => simpa [hresult] using hremove
  · have hopens : opensLast rel = false := by
      by_contra hopens
      exact hdir ((lstat_eq_ok_iff.mp hlstat).2.2 (by simpa using hopens))
    by_cases hsame : path = found
    · simp [hdir, hsame, removeFile, keepsDir, hopens]
    · simp [hdir, hsame, removeFile]

/-- Tombstones only take away. -/
theorem applyTombstone_eq_or (target : Path) (fs : FileSystem) (rel : String)
    (path : Path) :
    (applyTombstone target fs rel).1 path = fs path ∨
      (applyTombstone target fs rel).1 path = none := by
  cases hrel : escapesTarget rel with
  | true => exact Or.inl (by rw [applyTombstone_fst_of_escapes hrel])
  | false =>
      cases hlstat : lstat fs target rel with
      | error err => exact Or.inl (by rw [applyTombstone_fst_of_error hlstat])
      | ok found =>
          rw [applyTombstone_fst_of_ok hrel hlstat]
          split
          · exact Or.inr rfl
          · exact Or.inl rfl

/-- A tombstone changes nothing outside the target exactly when it stays. -/
theorem applyTombstone_stays_iff {target : Path} {fs : FileSystem}
    {rel : String} :
    Untouched target fs (applyTombstone target fs rel).1 ↔
      TombstoneStays target fs rel := by
  rw [tombstoneStays_iff, Untouched]
  cases hrel : escapesTarget rel with
  | true => simp [applyTombstone_fst_of_escapes hrel]
  | false =>
      cases hlstat : lstat fs target rel with
      | error err => simp [applyTombstone_fst_of_error hlstat]
      | ok found =>
          have hsome := (lstat_eq_ok_iff.mp hlstat).2.1
          simp only [Except.ok.injEq, forall_eq', true_imp_iff, StaysAt,
            applyTombstone_fst_of_ok hrel hlstat]
          cases hkeeps : keepsDir fs target rel with
          | true =>
              have hdir : (fs found).any Node.isDir = true := by
                refine (lstat_eq_ok_iff.mp hlstat).2.2 ?_
                by_contra hopens
                simp [keepsDir, hopens] at hkeeps
              simp only [hdir, true_and, if_true]
              constructor
              · intro hframe path hbelow hpath
                by_contra houtside
                have hsame := hframe path houtside
                rw [if_pos (Or.inl hbelow)] at hsame
                simp [← hsame] at hpath
              · intro hbelow path houtside
                split
                next htaken =>
                  by_contra hpath
                  refine houtside (hbelow path (by simpa using htaken) ?_)
                  exact Option.isSome_iff_ne_none.mpr (Ne.symm hpath)
                next => rfl
          | false =>
              simp only [Bool.false_eq_true, if_false, true_and]
              constructor
              · intro hframe
                by_contra houtside
                have hsame := hframe found houtside
                rw [if_pos (Or.inr rfl)] at hsame
                simp [← hsame] at hsome
              · intro hinside path houtside
                refine if_neg ?_
                rintro (⟨-, hbelow⟩ | rfl)
                · exact houtside (hinside.trans hbelow)
                · exact houtside hinside

/-- Every tombstone that is reached stays, in the state it is reached in. -/
def TombstonesStay (target : Path) (fs : FileSystem) : List String → Prop
  | [] => True
  | rel :: rest =>
      TombstoneStays target fs rel ∧
        match applyTombstone target fs rel with
        | (_, .error _) => True
        | (fs, .ok _) => TombstonesStay target fs rest

def ItemStays (target : Path) (fs : FileSystem) (item : TarItem) : Prop :=
  components item.path = components TOMBSTONE_ENTRY →
    ∀ deleted, item.payload = .ok deleted → TombstonesStay target fs deleted

def StreamStays (tar : TarCrate) (target : Path) (fs : FileSystem) :
    List (Except String TarItem) → Prop
  | [] => True
  | .error _ :: _ => True
  | .ok item :: rest =>
      ItemStays target fs item ∧
        match unpackItem tar target fs item with
        | (_, .error _) => True
        | (fs, .ok _) => StreamStays tar target fs rest

theorem applyTombstones_onlyRemoved (target : Path) (fs : FileSystem)
    (applied : Nat) (deleted : List String) :
    OnlyRemoved target fs (applyTombstones target fs applied deleted).1 := by
  induction deleted generalizing fs applied with
  | nil => exact fun path _ => Or.inl rfl
  | cons rel rest ih =>
      have hfirst : OnlyRemoved target fs (applyTombstone target fs rel).1 :=
        fun path _ => applyTombstone_eq_or target fs rel path
      simp only [applyTombstones]
      split
      next hresult => simpa [hresult] using hfirst
      next next_ removed hresult =>
        rw [hresult] at hfirst
        exact hfirst.trans (ih next_ _)

theorem applyTombstones_untouched_iff (target : Path) (fs : FileSystem)
    (applied : Nat) (deleted : List String) :
    Untouched target fs (applyTombstones target fs applied deleted).1 ↔
      TombstonesStay target fs deleted := by
  induction deleted generalizing fs applied with
  | nil => simp [applyTombstones, TombstonesStay, Untouched]
  | cons rel rest ih =>
      have hfirst : OnlyRemoved target fs (applyTombstone target fs rel).1 :=
        fun path _ => applyTombstone_eq_or target fs rel path
      rw [TombstonesStay, ← applyTombstone_stays_iff, applyTombstones]
      cases hresult : applyTombstone target fs rel with
      | mk next_ result =>
          cases result with
          | error err => simp
          | ok removed =>
              rw [hresult] at hfirst
              have hrest := applyTombstones_onlyRemoved target next_
                (if removed then applied + 1 else applied) rest
              exact (untouched_trans_iff hfirst hrest).trans
                (and_congr_right fun _ => ih next_ _)

theorem unpackItem_onlyRemoved {tar : TarCrate} {target : Path}
    (htar : tar.Confined target) (fs : FileSystem) (item : TarItem) :
    OnlyRemoved target fs (unpackItem tar target fs item).1 := by
  rw [unpackItem]
  split
  · split
    · exact fun path _ => Or.inl rfl
    · exact applyTombstones_onlyRemoved target fs 0 _
  · have hunpack := (htar fs item).onlyRemoved
    split
    next hresult => simpa [hresult] using hunpack
    next hresult => simpa [hresult] using hunpack

theorem unpackItem_untouched_iff {tar : TarCrate} {target : Path}
    (htar : tar.Confined target) (fs : FileSystem) (item : TarItem) :
    Untouched target fs (unpackItem tar target fs item).1 ↔
      ItemStays target fs item := by
  rw [unpackItem, ItemStays]
  by_cases hreserved : components item.path = components TOMBSTONE_ENTRY
  · simp only [hreserved, if_true, true_imp_iff]
    cases item.payload with
    | error err => simp [Untouched]
    | ok deleted => simpa using applyTombstones_untouched_iff target fs 0 deleted
  · have hunpack := htar fs item
    simp only [hreserved, if_false, false_imp_iff, iff_true]
    split
    next hresult => simpa [hresult] using hunpack
    next hresult => simpa [hresult] using hunpack

theorem unpackTar_onlyRemoved {tar : TarCrate} {target : Path}
    (htar : tar.Confined target) (fs : FileSystem) (unpacked : Nat)
    (stream : List (Except String TarItem)) :
    OnlyRemoved target fs (unpackTar tar target fs unpacked stream).1 := by
  induction stream generalizing fs unpacked with
  | nil => exact fun path _ => Or.inl rfl
  | cons item rest ih =>
      cases item with
      | error err => exact fun path _ => Or.inl rfl
      | ok item =>
          have hfirst := unpackItem_onlyRemoved htar fs item
          simp only [unpackTar]
          split
          next hresult => simpa [hresult] using hfirst
          next next_ count hresult =>
            rw [hresult] at hfirst
            exact hfirst.trans (ih next_ _)

/-- A tar library that unpacks below directories alone. -/
def plainTar : TarCrate where
  unpackIn fs target item :=
    let below := (names item.path).filter fun name => name ≠ "."
    if ".." ∈ below then (fs, .ok false)
    else if below = [] then (fs, .ok true)
    else if (List.range below.length).all fun depth =>
        (fs (target ++ below.take depth)).any Node.isDir then
      if fits (fs (target ++ below)) item.node then
        (Function.update fs (target ++ below) (some item.node), .ok true)
      else (fs, .error "File exists")
    else (fs, .error "Not a directory")

theorem plainTar_confined (target : Path) : plainTar.Confined target := by
  intro fs item path houtside
  simp only [plainTar]
  split
  · rfl
  · split
    · rfl
    next hbelow =>
      have hne : path ≠ target ++ (names item.path).filter
          (fun name => name ≠ ".") := by
        rintro rfl
        exact houtside (inside_append target hbelow)
      split
      · split
        · exact Function.update_of_ne hne _ _
        · rfl
      · rfl

theorem plainTar_unpackIn {target path : Path} {fs : FileSystem}
    (node : FileNode) (payload : Except XBackupError (List String))
    (hpath : path ≠ []) (hplain : ∀ name ∈ path, PlainName name)
    (habove : DirsAbove fs target path) :
    plainTar.unpackIn fs target ⟨joinNames path, node, payload⟩ =
      if fits (fs (target ++ path)) node then
        (Function.update fs (target ++ path) (some node), .ok true)
      else (fs, .error "File exists") := by
  have hnames : (names (joinNames path)).filter (fun name => name ≠ ".") =
      path := by
    rw [names_joinNames hplain]
    exact List.filter_eq_self.mpr fun name hname => by
      simpa using (hplain name hname).2.1
  have hparent : ".." ∉ path := fun hmem => (hplain ".." hmem).2.2.1 rfl
  have hdirs : ((List.range path.length).all fun depth =>
      (fs (target ++ path.take depth)).any Node.isDir) = true := by
    refine List.all_eq_true.mpr fun depth hdepth => ?_
    have hrest : path.drop depth ≠ [] := by
      simpa using List.mem_range.mp hdepth
    obtain ⟨attrs, hattrs⟩ :=
      habove _ _ (List.take_append_drop depth path).symm hrest
    simp [hattrs, Node.isDir]
  simp only [plainTar, hnames, if_neg hparent, if_neg hpath, hdirs, if_true]

theorem plainTar_unpacks (target : Path) : plainTar.Unpacks target where
  ignores := by
    intro fs node payload
    have hdot : (names ".").filter (fun name => name ≠ ".") = [] := by decide
    simp only [plainTar, hdot]
    rfl
  replaces := by
    intro fs path node payload hpath hplain habove hfits
    rw [plainTar_unpackIn node payload hpath hplain habove, if_pos hfits]
  refuses := by
    intro fs path node payload hpath hplain habove hfits
    rw [plainTar_unpackIn node payload hpath hplain habove, hfits]
    exact ⟨_, rfl⟩

/-- A target that holds a file and a link out of it. -/
def linkedTree : FileSystem
  | [] => some (.dir 0o755)
  | ["t"] => some (.dir 0o755)
  | ["t", "old"] => some (.file ⟨[1], 0o644⟩)
  | ["t", "link"] => some (.symlink "/out")
  | ["out"] => some (.dir 0o755)
  | ["out", "x"] => some (.file ⟨[2], 0o600⟩)
  | _ => none

end XBackup
