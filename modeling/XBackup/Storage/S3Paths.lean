/-
The paths of objects under the prefix of a bucket: how they are stored, and how
a listing gives them back.
-/
import XBackup.Manifest.Store
import XBackup.Storage.Multipart

namespace XBackup

namespace S3

section Paths

/-- The characters that a segment of a path does not hold as they are. -/
def INVALID : List Char :=
  ['\\', '{', '}', '^', '%', '`', '~', '#', '|', '*', '?', '[', ']', '<', '>',
    '"']

def isEscaped (c : Char) : Bool :=
  INVALID.contains c || c.toNat < 0x20 || c.toNat == 0x7F

def HEX_DIGITS : List Char :=
  ['0', '1', '2', '3', '4', '5', '6', '7', '8', '9', 'A', 'B', 'C', 'D', 'E',
    'F']

def hexDigit (n : Nat) : Char :=
  HEX_DIGITS.getD n '0'

def encodeChar (c : Char) : List Char :=
  if isEscaped c then ['%', hexDigit (c.toNat / 16), hexDigit (c.toNat % 16)]
  else [c]

def encode (segment : List Char) : List Char :=
  segment.flatMap encodeChar

/-- The segments of a path between its slashes, without the empty ones. -/
def segments (path : List Char) : List (List Char) :=
  (path.splitOn '/').filter fun segment => segment ≠ []

def joined (parts : List (List Char)) : List Char :=
  List.intercalate ['/'] parts

/-- `Path::from` -/
def pathFrom (path : List Char) : List Char :=
  joined ((segments path).map encode)

/-- The locations that a store has below a path. -/
def isBelow : Option (List Char) → List Char → Bool
  | none, _ => true
  | some path, location => (path ++ ['/']).isPrefixOf location

end Paths

/-- `trim_matches('/')` of the prefix that is configured. -/
def normalizePrefix (configured : Option (List Char)) : List Char :=
  ((configured.getD []).dropWhile (· = '/')).rdropWhile (· = '/')

/-- A store with its prefix. -/
structure S3Compatible where
  start : List Char

namespace S3Compatible

def new (configured : Option (List Char)) : S3Compatible :=
  ⟨normalizePrefix configured⟩

variable (s3 : S3Compatible)

def objectPath (path : List Char) : List Char :=
  if s3.start = [] then pathFrom path
  else pathFrom (s3.start ++ ['/'] ++ path)

/-- The prefix is taken off a location that has it. -/
def stripPrefix (location : List Char) : List Char :=
  if s3.start = [] then location
  else if (s3.start ++ ['/']).isPrefixOf location then
    location.drop (s3.start ++ ['/']).length
  else location

def objectPrefix (path : List Char) : Option (List Char) :=
  if path = [] then
    if s3.start = [] then none else some (pathFrom s3.start)
  else some (s3.objectPath path)

/-- The paths of the objects of a bucket. -/
def list (path : List Char) (bucket : List (List Char)) : List (List Char) :=
  (bucket.filter (isBelow (s3.objectPrefix path))).map s3.stripPrefix

end S3Compatible

/-- The text of a UUID. -/
structure BackupId where
  text : List Char
  nonempty : text ≠ []
  chars : ∀ c ∈ text, c.isAlphanum = true ∨ c = '-'

inductive BackupFile where
  | data
  | manifest
  | sidecar

def BackupFile.name : BackupFile → List Char
  | data => DATA_FILE.toList
  | manifest => MANIFEST_FILE.toList
  | sidecar => MANIFEST_SHA_FILE.toList

/-- A file of a backup. -/
structure Stored where
  id : BackupId
  file : BackupFile

def Stored.path (stored : Stored) : List Char :=
  stored.id.text ++ '/' :: stored.file.name

/-- The listed paths that end in `/manifest.json`, without that ending. -/
def manifestDirs (paths : List (List Char)) : List String :=
  paths.filterMap fun path =>
    if ('/' :: BackupFile.manifest.name).isSuffixOf path then
      some (String.ofList
        (path.take (path.length - ('/' :: BackupFile.manifest.name).length)))
    else none

section Encoding

variable {c : Char} {segment : List Char}

theorem encodeChar_of_not_escaped (hc : isEscaped c = false) :
    encodeChar c = [c] :=
  if_neg (by rw [hc]; decide)

theorem length_encodeChar :
    (encodeChar c).length = if isEscaped c then 3 else 1 := by
  rw [encodeChar]
  split <;> rfl

theorem slash_not_mem_encodeChar (hc : c ≠ '/') : '/' ∉ encodeChar c := by
  rw [encodeChar]
  split
  · have hdigit : ∀ n, hexDigit n ≠ '/' := by
      have hall : ∀ c ∈ HEX_DIGITS, c ≠ '/' := by simp [HEX_DIGITS]
      intro n
      rw [hexDigit, List.getD_eq_getElem?_getD]
      cases hget : HEX_DIGITS[n]? with
      | none => exact (by decide : '0' ≠ '/')
      | some digit => exact hall digit (List.mem_of_getElem? hget)
    simp only [List.mem_cons, List.not_mem_nil, or_false, not_or]
    exact ⟨by decide, (hdigit _).symm, (hdigit _).symm⟩
  · rw [List.mem_singleton]
    exact hc.symm

theorem slash_not_mem_encode (hsegment : '/' ∉ segment) :
    '/' ∉ encode segment := by
  rw [encode, List.mem_flatMap]
  rintro ⟨c, hc, hslash⟩
  exact slash_not_mem_encodeChar (fun heq => hsegment (heq ▸ hc)) hslash

theorem encode_ne_nil (hsegment : segment ≠ []) : encode segment ≠ [] := by
  obtain ⟨c, rest, rfl⟩ := List.exists_cons_of_ne_nil hsegment
  rw [encode, List.flatMap_cons, encodeChar]
  split <;> simp

/-- A segment is encoded as itself if no character of it is escaped. -/
theorem encode_eq_self_iff :
    encode segment = segment ↔ ∀ c ∈ segment, isEscaped c = false := by
  constructor
  · intro hself
    have hlength : ∀ text : List Char, text.length ≤ (encode text).length ∧
        ((encode text).length ≤ text.length → ∀ c ∈ text, isEscaped c = false) := by
      intro text
      induction text with
      | nil => exact ⟨le_rfl, fun _ => nofun⟩
      | cons c rest ih =>
          rw [encode, List.flatMap_cons, List.length_append, length_encodeChar,
            ← encode, List.length_cons]
          refine ⟨by split <;> omega, fun hle => ?_⟩
          rw [List.forall_mem_cons]
          split at hle
          next => omega
          next hc => exact ⟨eq_false_of_ne_true hc, ih.2 (by omega)⟩
    exact (hlength segment).2 (by rw [hself])
  · intro hall
    induction segment with
    | nil => rfl
    | cons c rest ih =>
        obtain ⟨hc, hrest⟩ := List.forall_mem_cons.mp hall
        rw [encode, List.flatMap_cons, encodeChar_of_not_escaped hc, ← encode,
          ih hrest]
        rfl

end Encoding

section Locations

variable {path start : List Char} {first second : List (List Char)}

theorem slash_not_mem_segment {segment : List Char}
    (hsegment : segment ∈ path.splitOn '/') : '/' ∉ segment := by
  induction path generalizing segment with
  | nil =>
      rw [List.splitOn_nil, List.mem_singleton] at hsegment
      rw [hsegment]
      exact List.not_mem_nil
  | cons c rest ih =>
      rw [List.splitOn_cons_eq_if_modifyHead] at hsegment
      split at hsegment
      next =>
        rcases List.mem_cons.mp hsegment with rfl | hrest
        · exact List.not_mem_nil
        · exact ih hrest
      next hne =>
        cases hsplit : rest.splitOn '/' with
        | nil => exact absurd hsplit (List.splitOn_ne_nil _ _)
        | cons head others =>
            rw [hsplit] at ih hsegment
            rw [List.modifyHead_cons] at hsegment
            rcases List.mem_cons.mp hsegment with rfl | hother
            · rw [List.mem_cons, not_or]
              refine ⟨fun heq => hne ?_, ih List.mem_cons_self⟩
              rw [heq]
              exact beq_self_eq_true c
            · exact ih (List.mem_cons_of_mem _ hother)

theorem segments_append (front back : List Char) :
    segments (front ++ '/' :: back) = segments front ++ segments back := by
  rw [segments, List.splitOn_append_cons_self, List.filter_append]
  rfl

theorem joined_append (hfirst : first ≠ []) (hsecond : second ≠ []) :
    joined (first ++ second) = joined first ++ '/' :: joined second := by
  induction first with
  | nil => exact absurd rfl hfirst
  | cons part rest ih =>
      cases rest with
      | nil =>
          obtain ⟨next, others, rfl⟩ := List.exists_cons_of_ne_nil hsecond
          simp [joined, List.intercalate]
      | cons next others =>
          have hrest := ih (List.cons_ne_nil _ _)
          simp only [joined, List.intercalate, List.cons_append,
            List.intersperse_cons_cons, List.flatten_cons] at hrest ⊢
          rw [hrest]
          simp only [List.nil_append, List.cons_append, List.append_assoc]

theorem segments_of_plain (hslash : '/' ∉ path) (hne : path ≠ []) :
    segments path = [path] := by
  rw [segments, List.splitOn_eq_singleton hslash]
  simp [hne]

theorem not_escaped_of_alphanum {c : Char}
    (hc : c.isAlphanum = true ∨ c = '-' ∨ c = '.') :
    isEscaped c = false ∧ c ≠ '/' := by
  rcases hc with hc | rfl | rfl
  · have hrange : 48 ≤ c.toNat ∧ c.toNat ≤ 122 := by
      simp only [Char.isAlphanum, Char.isAlpha, Char.isUpper, Char.isLower,
        Char.isDigit, Bool.or_eq_true, Bool.and_eq_true, decide_eq_true_eq,
        ge_iff_le, UInt32.le_iff_toNat_le] at hc
      change 48 ≤ c.val.toNat ∧ c.val.toNat ≤ 122
      rcases hc with (⟨hlow, hhigh⟩ | ⟨hlow, hhigh⟩) | ⟨hlow, hhigh⟩
      · change 65 ≤ c.val.toNat at hlow
        change c.val.toNat ≤ 90 at hhigh
        omega
      · change 97 ≤ c.val.toNat at hlow
        change c.val.toNat ≤ 122 at hhigh
        omega
      · change 48 ≤ c.val.toNat at hlow
        change c.val.toNat ≤ 57 at hhigh
        omega
    have hinvalid : c ∉ INVALID := by
      intro hmem
      simp only [INVALID, List.mem_cons, List.not_mem_nil, or_false] at hmem
      rcases hmem with rfl | rfl | rfl | rfl | rfl | rfl | rfl | rfl | rfl |
        rfl | rfl | rfl | rfl | rfl | rfl | rfl <;> exact absurd hc (by decide)
    refine ⟨?_, fun hslash => absurd (hslash ▸ hc) (by decide)⟩
    rw [isEscaped, Bool.or_eq_false_iff, Bool.or_eq_false_iff]
    refine ⟨⟨eq_false_of_ne_true (mt List.contains_iff_mem.mp hinvalid), ?_⟩, ?_⟩
    · exact decide_eq_false (by omega)
    · exact beq_eq_false_iff_ne.mpr (by omega)
  · exact ⟨rfl, by decide⟩
  · exact ⟨rfl, by decide⟩

/-- What is stored of a backup has a path of its own below the prefix. -/
theorem segments_path (stored : Stored) :
    segments stored.path = [stored.id.text, stored.file.name] ∧
      encode stored.id.text = stored.id.text ∧
      encode stored.file.name = stored.file.name := by
  have hid : ∀ c ∈ stored.id.text, isEscaped c = false ∧ c ≠ '/' := by
    intro c hc
    rcases stored.id.chars c hc with hchar | hchar
    · exact not_escaped_of_alphanum (.inl hchar)
    · exact not_escaped_of_alphanum (.inr (.inl hchar))
  have hname : ∀ c ∈ stored.file.name, isEscaped c = false ∧ c ≠ '/' := by
    have hchars : ∀ c ∈ stored.file.name,
        c.isAlphanum = true ∨ c = '-' ∨ c = '.' := by
      cases stored.file <;>
        simp [BackupFile.name, DATA_FILE, MANIFEST_FILE, MANIFEST_SHA_FILE]
    exact fun c hc => not_escaped_of_alphanum (hchars c hc)
  have hsome : stored.file.name ≠ [] := by
    cases stored.file <;> exact List.cons_ne_nil _ _
  refine ⟨?_, encode_eq_self_iff.mpr fun c hc => (hid c hc).1,
    encode_eq_self_iff.mpr fun c hc => (hname c hc).1⟩
  rw [Stored.path, segments_append, segments_of_plain _ stored.id.nonempty,
    segments_of_plain _ hsome]
  · rfl
  · exact fun hslash => (hname _ hslash).2 rfl
  · exact fun hslash => (hid _ hslash).2 rfl

/-- A path is kept as it is when its segments are. -/
def Verbatim (path : List Char) : Prop :=
  path = [] ∨ ∀ segment ∈ path.splitOn '/',
    segment ≠ [] ∧ ∀ c ∈ segment, isEscaped c = false

theorem pathFrom_eq_self_iff : pathFrom path = path ↔ Verbatim path := by
  constructor
  · intro hself
    by_cases hempty : segments path = []
    · refine .inl ?_
      rw [← hself, pathFrom, hempty]
      rfl
    · refine .inr ?_
      have hslash : ∀ part ∈ (segments path).map encode, '/' ∉ part := by
        intro part hpart
        obtain ⟨segment, hsegment, rfl⟩ := List.mem_map.mp hpart
        exact slash_not_mem_encode
          (slash_not_mem_segment (List.mem_of_mem_filter hsegment))
      have hsplit : path.splitOn '/' = (segments path).map encode := by
        have hjoin := List.splitOn_intercalate '/' hslash
          (mt List.map_eq_nil_iff.mp hempty)
        rw [← joined, ← pathFrom, hself] at hjoin
        exact hjoin
      have hsome : ∀ segment ∈ path.splitOn '/', segment ≠ [] := by
        intro segment hsegment
        rw [hsplit] at hsegment
        obtain ⟨found, hfound, rfl⟩ := List.mem_map.mp hsegment
        exact encode_ne_nil (of_decide_eq_true (List.mem_filter.mp hfound).2)
      have hall : segments path = path.splitOn '/' :=
        List.filter_eq_self.mpr fun segment hsegment =>
          decide_eq_true (hsome segment hsegment)
      rw [hall] at hsplit
      intro segment hsegment
      refine ⟨hsome segment hsegment, encode_eq_self_iff.mp ?_⟩
      have hsame : (path.splitOn '/').map encode = (path.splitOn '/').map id := by
        rw [← hsplit, List.map_id]
      exact List.map_eq_map_iff.mp hsame segment hsegment
  · rintro (rfl | hall)
    · rfl
    · have hsegments : segments path = path.splitOn '/' :=
        List.filter_eq_self.mpr fun segment hsegment =>
          decide_eq_true (hall segment hsegment).1
      have hencode : (path.splitOn '/').map encode = path.splitOn '/' := by
        refine (List.map_congr_left fun segment hsegment => ?_).trans
          (List.map_id _)
        exact encode_eq_self_iff.mpr (hall segment hsegment).2
      rw [pathFrom, hsegments, hencode]
      exact List.intercalate_splitOn '/'

end Locations

section Listing

variable {configured : Option (List Char)} {stored : List Stored}

/-- The path that the prefix stands for. -/
def S3Compatible.root (s3 : S3Compatible) : List Char :=
  pathFrom s3.start

theorem segments_normalizePrefix (hsome : normalizePrefix configured ≠ []) :
    segments (normalizePrefix configured) ≠ [] := by
  have hhead : ∀ c ∈ (normalizePrefix configured).head?, c ≠ '/' := by
    intro c hc hslash
    obtain ⟨rest, hrest⟩ := List.rdropWhile_prefix (fun c => decide (c = '/'))
      ((configured.getD []).dropWhile (· = '/'))
    have hfirst := List.head?_dropWhile_not (fun c => decide (c = '/'))
      (configured.getD [])
    rw [← hrest, List.head?_append, ← normalizePrefix, hc] at hfirst
    exact of_decide_eq_false hfirst hslash
  obtain ⟨c, rest, hpath⟩ := List.exists_cons_of_ne_nil hsome
  rw [hpath] at hhead ⊢
  have hc : c ≠ '/' := hhead c rfl
  rw [segments, List.splitOn_cons_eq_if_modifyHead, if_neg (by simp [hc])]
  cases hsplit : rest.splitOn '/' with
  | nil => exact absurd hsplit (List.splitOn_ne_nil _ _)
  | cons head others => simp

/-- A file of a backup is stored below the path of the prefix. -/
theorem objectPath_stored (stored : Stored) :
    (S3Compatible.new configured).objectPath stored.path =
      if (S3Compatible.new configured).start = [] then stored.path
      else (S3Compatible.new configured).root ++ '/' :: stored.path := by
  obtain ⟨hsegments, hid, hname⟩ := segments_path stored
  have hself : joined ((segments stored.path).map encode) = stored.path := by
    rw [hsegments, List.map_cons, List.map_cons, List.map_nil, hid, hname]
    simp [joined, List.intercalate, Stored.path]
  rw [S3Compatible.objectPath]
  by_cases hstart : (S3Compatible.new configured).start = []
  · rw [if_pos hstart, if_pos hstart, pathFrom, hself]
  · rw [if_neg hstart, if_neg hstart, pathFrom, List.append_assoc,
      List.singleton_append, segments_append, List.map_append, joined_append,
      hself]
    · rfl
    · exact mt List.map_eq_nil_iff.mp (segments_normalizePrefix hstart)
    · rw [hsegments]
      exact List.cons_ne_nil _ _

/-- The locations below the prefix are those of the files that are stored. -/
def Holds (s3 : S3Compatible) (bucket : List (List Char))
    (stored : List Stored) : Prop :=
  bucket.filter (isBelow (s3.objectPrefix [])) =
    stored.map fun st => s3.objectPath st.path

/-- Each file is listed under its own path and nothing else is, and so each
backup with a manifest is found, whatever else is in the bucket. -/
structure FindsStored (s3 : S3Compatible) (stored : List Stored) : Prop where
  listed : ∀ bucket, Holds s3 bucket stored →
    s3.list [] bucket = stored.map Stored.path
  collected : ∀ bucket, Holds s3 bucket stored →
    ∀ st ∈ stored, st.file = .manifest → ∀ read,
      String.ofList st.id.text ∈
        collectManifestIds ⟨manifestDirs (s3.list [] bucket), read⟩

theorem list_of_holds {s3 : S3Compatible} {bucket : List (List Char)}
    (hholds : Holds s3 bucket stored) :
    s3.list [] bucket =
      stored.map fun st => s3.stripPrefix (s3.objectPath st.path) := by
  rw [S3Compatible.list, hholds, List.map_map]
  rfl

theorem holds_stored (configured : Option (List Char)) (stored : List Stored) :
    Holds (S3Compatible.new configured)
      (stored.map fun st => (S3Compatible.new configured).objectPath st.path)
      stored := by
  refine List.filter_eq_self.mpr fun location hlocation => ?_
  obtain ⟨st, -, rfl⟩ := List.mem_map.mp hlocation
  rw [objectPath_stored, S3Compatible.objectPrefix, if_pos rfl]
  by_cases hstart : (S3Compatible.new configured).start = []
  · rw [if_pos hstart]
    rfl
  · rw [if_neg hstart, if_neg hstart, isBelow, List.isPrefixOf_iff_prefix]
    exact ⟨st.path, by rw [S3Compatible.root, List.append_assoc]; rfl⟩

/-- The prefix is taken off again if it is the path that it stands for. -/
theorem stripPrefix_objectPath_iff (st : Stored) :
    (S3Compatible.new configured).stripPrefix
        ((S3Compatible.new configured).objectPath st.path) = st.path ↔
      Verbatim (normalizePrefix configured) := by
  rw [objectPath_stored, S3Compatible.stripPrefix, ← pathFrom_eq_self_iff]
  change _ ↔ (S3Compatible.new configured).root =
    (S3Compatible.new configured).start
  by_cases hstart : (S3Compatible.new configured).start = []
  · rw [if_pos hstart, if_pos hstart, S3Compatible.root, hstart]
    exact iff_of_true rfl rfl
  · rw [if_neg hstart, if_neg hstart]
    have hsplit : ∀ front : List Char,
        front ++ '/' :: st.path = front ++ ['/'] ++ st.path := fun front => by
      rw [List.append_assoc]
      rfl
    constructor
    · intro hstrip
      split at hstrip
      next hbelow =>
        obtain ⟨rest, hrest⟩ := List.isPrefixOf_iff_prefix.mp hbelow
        rw [← hrest, List.drop_left, ] at hstrip
        rw [hstrip, hsplit] at hrest
        exact (List.append_cancel_right (List.append_cancel_right hrest)).symm
      next =>
        have hlength := congrArg List.length hstrip
        rw [List.length_append, List.length_cons] at hlength
        omega
    · intro hroot
      rw [hroot, hsplit, if_pos (List.isPrefixOf_iff_prefix.mpr ⟨_, rfl⟩),
        List.drop_left]

theorem mem_collectManifestIds_of_path {st : Stored} {paths : List (List Char)}
    (hpath : st.path ∈ paths) (hfile : st.file = .manifest)
    (read : String → Except XBackupError BackupManifest) :
    String.ofList st.id.text ∈ collectManifestIds ⟨manifestDirs paths, read⟩ := by
  rw [mem_collectManifestIds]
  refine ⟨List.mem_filterMap.mpr ⟨st.path, hpath, ?_⟩, ?_⟩
  · rw [Stored.path, hfile, if_pos (List.isSuffixOf_iff_suffix.mpr ⟨_, rfl⟩),
      List.length_append, Nat.add_sub_cancel, List.take_left]
  · rw [isBackupId, decide_eq_true_iff, String.toList_ofList]
    refine ⟨fun hempty => st.id.nonempty ?_, fun hslash => ?_⟩
    · have htext := congrArg String.toList hempty
      rw [String.toList_ofList] at htext
      exact htext
    · rcases st.id.chars _ hslash with h | h
      · exact absurd h (by decide)
      · exact absurd h (by decide)

end Listing

/-- A prefix with a character that is escaped. -/
def teamPrefix : Option (List Char) :=
  some ['t', 'e', 'a', 'm', '#', '1']

def firstBackup : BackupId where
  text := ['b', '1']
  nonempty := List.cons_ne_nil _ _
  chars := List.forall_mem_cons.mpr
    ⟨.inl rfl, List.forall_mem_cons.mpr ⟨.inl rfl, nofun⟩⟩

end S3

end XBackup
