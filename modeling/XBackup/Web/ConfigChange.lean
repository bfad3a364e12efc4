/-
What a change of one profile makes of the tables of a config.
-/
import XBackup.Config.Resolve
import XBackup.Schedule.Fields
import XBackup.Web.ProfileName

namespace XBackup

namespace Web

namespace ConfigWrite

open Fallible Schedule

open Config (Table Value)

inductive SaveError where
  | config (message : String)
  | usage (message : String)
  | io (message : String)
deriving DecidableEq

inductive ChangeOp where
  | create
  | update
  | delete
deriving DecidableEq

inductive ConfigSyntax where
  | v1
  | v2
  | empty
deriving DecidableEq

/-- A change of one profile, in flat keys. -/
structure ProfileChange where
  op : ChangeOp
  name : ProfileName
  configSyntax : ConfigSyntax
  set : Table
  unset : List String

namespace ProfileChange

def isNoop (change : ProfileChange) : Bool :=
  change.op ≠ .delete && change.set.entries.isEmpty && change.unset.isEmpty

end ProfileChange

def KEY_DEST : String := "dest"

def V1_DEST_PATHS : List String :=
  ["destination.type", "destination.path", "destination.s3.bucket",
    "destination.s3.prefix"]

def V1_PATHS : List (String × String) :=
  [("source.uri", "uri"),
    ("source.uri_env", "uri_env"),
    ("source.read_uri", "read_uri"),
    ("source.read_uri_env", "read_uri_env"),
    ("source.prefer_secondary", "prefer_secondary"),
    ("source.connect_timeout_secs", "connect_timeout_secs"),
    ("mode.backup_type", "backup_type"),
    ("mode.output", "output_mode"),
    ("mode.precheck", "precheck"),
    ("mode.engine", "engine"),
    ("destination.name", "dest_name"),
    ("destination.type", "dest"),
    ("destination.path", "dest"),
    ("destination.s3.bucket", "dest"),
    ("destination.s3.prefix", "dest"),
    ("destination.s3.region", "s3_region"),
    ("destination.s3.endpoint", "s3_endpoint"),
    ("destination.s3.credentials_env", "s3_creds"),
    ("features.compression.algorithm", "compress_algorithm"),
    ("features.compression.level", "compress_level"),
    ("features.encryption.enabled", "encrypt"),
    ("features.encryption.algorithm", "encrypt_algorithm"),
    ("features.encryption.recipient_file", "recipient_file"),
    ("features.incremental.interval", "incr_interval"),
    ("features.incremental.on_gap", "incr_on_gap"),
    ("features.incremental.pg_logical", "pg_logical"),
    ("features.incremental.mysql_binlog", "mysql_binlog"),
    ("retention.keep_full", "keep_full"),
    ("retention.keep_days", "keep_days"),
    ("retention.keep_last", "keep_last"),
    ("retention.recovery_window_days", "recovery_window_days"),
    ("retention.min_redundancy", "min_redundancy"),
    ("hooks.pre_backup", "hook_pre_backup"),
    ("hooks.post_backup", "hook_post_backup"),
    ("hooks.pre_restore", "hook_pre_restore"),
    ("hooks.post_restore", "hook_post_restore"),
    ("hooks.pre_prune", "hook_pre_prune"),
    ("hooks.post_prune", "hook_post_prune"),
    ("hooks.on_error", "hook_on_error"),
    ("hooks.hook_timeout_secs", "hook_timeout_secs")]

/-- The path of a flat key; `dest` is on several of them. -/
def v1PathFor (key : String) : Option String :=
  if key = KEY_DEST then none
  else (V1_PATHS.find? fun entry => entry.2 = key).map Prod.fst

def segments (path : String) : List String :=
  (path.toList.splitOn '.').map String.ofList

/-- The table under a key, an empty one where there is none. -/
def tableIn (t : Table) (key : String) : Option Table :=
  ((t.get key).getD (.table [])).asTable

def setSegments (value : Value) : Table → List String → Except SaveError Table
  | t, [] => .ok t
  | t, [last] => .ok (t.insert last value)
  | t, segment :: next :: rest =>
      match tableIn t segment with
      | none => .error (.config ("config의 '" ++ segment ++
          "'가 테이블이 아니어서 그 안에 값을 쓸 수 없습니다(파일이 저장 도중 " ++
          "바뀌었을 수 있습니다) — 다시 시도하세요."))
      | some sub => do
          let sub ← setSegments value sub (next :: rest)
          return t.insert segment (.table sub.entries)

def setPath (t : Table) (path : String) (value : Value) :
    Except SaveError Table :=
  setSegments value t (segments path)

def removeSegments : Table → List String → Table
  | t, [] => t
  | t, [last] => t.erase last
  | t, segment :: next :: rest =>
      match (t.get segment).bind Config.Value.asTable with
      | none => t
      | some sub => t.insert segment
          (.table (removeSegments sub (next :: rest)).entries)

def removePath (t : Table) (path : String) : Table :=
  removeSegments t (segments path)

def pruneEmptyDestTables (entry : Table) : Table :=
  match (entry.get "destination").bind Config.Value.asTable with
  | none => entry
  | some destination =>
      let empty := ((destination.get "s3").bind Config.Value.asTable).any
        fun s3 => s3.entries.isEmpty
      let destination := if empty then destination.erase "s3" else destination
      if destination.entries.isEmpty then entry.erase "destination"
      else entry.insert "destination" (.table destination.entries)

def clearDestV1 (entry : Table) : Table :=
  pruneEmptyDestTables (V1_DEST_PATHS.foldl removePath entry)

/-- The compact `dest`, spread over its paths. -/
def applyDestV1 (entry : Table) (compact : String) : Except SaveError Table :=
  let refused := fun why => SaveError.usage ("'" ++ KEY_DEST ++ "' 값 '" ++
    compact ++ "'" ++ why)
  match splitOnceAt ':' compact.toList with
  | none => .error (refused ("에 스킴이 없습니다 — \"local:/path\" 또는 " ++
      "\"s3:bucket/prefix\" 형태여야 합니다."))
  | some (scheme, rest) =>
      let entry := clearDestV1 entry
      if scheme = "local".toList then
        if rest = [] then .error (refused ": local 경로가 비었습니다.")
        else do
          let entry ← setPath entry "destination.type" (.string "local")
          let entry ← setPath entry "destination.path"
            (.string (String.ofList rest))
          return pruneEmptyDestTables entry
      else if scheme = "s3".toList then
        let (bucket, pre) := (splitOnceAt '/' rest).getD (rest, [])
        if bucket = [] then .error (refused ": s3 버킷이 비었습니다.")
        else do
          let entry ← setPath entry "destination.type" (.string "s3")
          let entry ← setPath entry "destination.s3.bucket"
            (.string (String.ofList bucket))
          let entry ← (if pre = [] then .ok entry
            else setPath entry "destination.s3.prefix"
              (.string (String.ofList pre)))
          return pruneEmptyDestTables entry
      else .error (refused (": 알 수 없는 스킴 '" ++ String.ofList scheme ++
        "'(local|s3)."))

def unsetV1 (entry : Table) (key : String) : Table :=
  if key = KEY_DEST then clearDestV1 entry
  else
    match v1PathFor key with
    | some path => removePath entry path
    | none => entry

def setV1 (entry : Table) (item : String × Value) : Except SaveError Table :=
  if item.1 = KEY_DEST then
    match item.2.asStr with
    | none => .error (.usage ("'" ++ KEY_DEST ++ "' 값이 문자열이 아닙니다."))
    | some compact => applyDestV1 entry compact
  else
    match v1PathFor item.1 with
    | some path => setPath entry path item.2
    | none => .error (.config ("'" ++ item.1 ++
        "'는 v1 문법에서 쓸 자리가 없습니다."))

/-- What a change makes of the table of its profile. -/
def editV1 (change : ProfileChange) (entry : Table) : Except SaveError Table :=
  change.set.entries.foldlM setV1 (change.unset.foldl unsetV1 entry)

def editV2 (change : ProfileChange) (entry : Table) : Table :=
  (change.unset.foldl SortedMap.Map.erase entry).overlay change.set

/-- The last guard against edits at the same time. -/
def checkExistencePrecondition (profiles : Table) (change : ProfileChange) :
    Except SaveError Unit :=
  match change.op, (profiles.get change.name.asStr).isSome with
  | .create, true => .error (.config ("프로파일 '" ++ change.name.asStr ++
      "'이 이미 있습니다 — 다른 요청이 먼저 만들었을 수 있습니다. " ++
      "화면을 새로고침한 뒤 다시 시도하세요."))
  | .update, false => .error (.config ("프로파일 '" ++ change.name.asStr ++
      "'을 찾을 수 없습니다 — 다른 요청이 먼저 지웠을 수 있습니다."))
  | _, _ => .ok ()

/-- What a change makes of the section of the profiles. -/
def applyToProfiles (sectionName : String) (change : ProfileChange)
    (edit : Table → Except SaveError Table) (profiles : Table) :
    Except SaveError Table :=
  if change.op = .delete then .ok (profiles.erase change.name.asStr)
  else do
    checkExistencePrecondition profiles change
    match tableIn profiles change.name.asStr with
    | none => .error (.config ("[" ++ sectionName ++ "." ++
        change.name.asStr ++ "]이 테이블이 아닙니다"))
    | some entry => do
        let entry ← edit entry
        return profiles.insert change.name.asStr (.table entry.entries)

def applyInSection (sectionName particle : String) (change : ProfileChange)
    (edit : Table → Except SaveError Table) (root : Table) :
    Except SaveError Table :=
  match tableIn root sectionName with
  | none => .error (.config ("'" ++ sectionName ++ "'" ++ particle ++
      " 테이블이 아닙니다"))
  | some profiles => do
      let profiles ← applyToProfiles sectionName change edit profiles
      return root.insert sectionName (.table profiles.entries)

def applyChangeV2 (root : Table) (change : ProfileChange) :
    Except SaveError Table :=
  applyInSection "profile" "이" change (fun entry => .ok (editV2 change entry))
    root

def applyChangeV1 (root : Table) (change : ProfileChange) :
    Except SaveError Table :=
  applyInSection "profiles" "가" change (editV1 change) root

/-- A config without a profile begins with the second syntax. -/
def applyChangeToTable (root : Table) (change : ProfileChange) :
    Except SaveError Table :=
  match change.configSyntax with
  | .v1 => applyChangeV1 root change
  | .v2 => applyChangeV2 root change
  | .empty => applyChangeV2 root change

theorem get_foldl_erase (keys : List String) (entry : Table) (key : String) :
    (keys.foldl SortedMap.Map.erase entry).get key =
      if key ∈ keys then none else entry.get key := by
  induction keys generalizing entry with
  | nil => simp
  | cons first rest ih =>
      rw [List.foldl_cons, ih, SortedMap.Map.get_erase]
      by_cases hfirst : key = first
      · simp [hfirst]
      · simp [hfirst]

/-- What a change of the second syntax leaves in a profile, key by key. -/
theorem get_editV2 (change : ProfileChange) (entry : Table) (key : String) :
    (editV2 change entry).get key =
      (change.set.get key).or
        (if key ∈ change.unset then none else entry.get key) := by
  rw [editV2, SortedMap.Map.get_overlay, get_foldl_erase]

section InSection

variable {sectionName particle : String} {change : ProfileChange}
  {edit : Table → Except SaveError Table} {profiles profiles' : Table}

/-- No profile but that of the change is another one afterwards. -/
theorem get_applyToProfiles_ne
    (happly : applyToProfiles sectionName change edit profiles = .ok profiles')
    {other : String} (hother : other ≠ change.name.asStr) :
    profiles'.get other = profiles.get other := by
  rw [applyToProfiles] at happly
  split at happly
  next hdelete =>
    cases happly
    rw [SortedMap.Map.get_erase, if_neg hother]
  next hkept =>
    obtain ⟨-, -, hentry⟩ := bind_eq_ok.mp happly
    split at hentry
    next => cases hentry
    next entry hin =>
      obtain ⟨edited, -, hresult⟩ := bind_eq_ok.mp hentry
      cases hresult
      rw [SortedMap.Map.get_insert, if_neg hother]

/-- The profile of a change that is not a deletion is what the edit makes of
the one that was there. -/
theorem get_applyToProfiles
    (happly : applyToProfiles sectionName change edit profiles = .ok profiles')
    (hop : change.op ≠ .delete) :
    ∃ entry edited, tableIn profiles change.name.asStr = some entry ∧
      edit entry = .ok edited ∧
      profiles'.get change.name.asStr = some (.table edited.entries) := by
  rw [applyToProfiles, if_neg hop] at happly
  obtain ⟨-, -, hentry⟩ := bind_eq_ok.mp happly
  split at hentry
  next => cases hentry
  next entry hin =>
    obtain ⟨edited, hedit, hresult⟩ := bind_eq_ok.mp hentry
    cases hresult
    refine ⟨entry, edited, hin, hedit, ?_⟩
    rw [SortedMap.Map.get_insert, if_pos rfl]

/-- A creation meets no profile of its name, an update meets one. -/
theorem op_of_applyToProfiles
    (happly : applyToProfiles sectionName change edit profiles = .ok profiles') :
    change.op = .delete ∨
      (change.op = .create ∧ profiles.get change.name.asStr = none) ∨
      change.op = .update ∧ (profiles.get change.name.asStr).isSome := by
  rw [applyToProfiles] at happly
  split at happly
  next hdelete => exact .inl hdelete
  next hkept =>
    obtain ⟨_, hcheck, -⟩ := bind_eq_ok.mp happly
    rw [checkExistencePrecondition] at hcheck
    cases hop : change.op with
    | delete => exact .inl rfl
    | create =>
        cases hget : profiles.get change.name.asStr with
        | none => exact .inr (.inl ⟨rfl, rfl⟩)
        | some found =>
            rw [hop, hget] at hcheck
            cases hcheck
    | update =>
        cases hget : profiles.get change.name.asStr with
        | none =>
            rw [hop, hget] at hcheck
            cases hcheck
        | some found => exact .inr (.inr ⟨rfl, rfl⟩)

end InSection

theorem tableIn_of_get {t : Table} {key : String} {entries : List (String × Value)}
    (hget : t.get key = some (.table entries)) :
    tableIn t key = some (SortedMap.Map.ofEntries entries) := by
  rw [tableIn, hget]
  rfl

/-- A config of the second syntax has what a change says of its profile. -/
def ProfileChange.Held (change : ProfileChange) (root : Table) : Prop :=
  ∃ profiles, tableIn root "profile" = some profiles ∧
    if change.op = .delete then profiles.get change.name.asStr = none
    else (profiles.get change.name.asStr).isSome ∧
      ∃ entry, tableIn profiles change.name.asStr = some entry ∧
        (∀ key value, change.set.get key = some value →
          entry.get key = some value) ∧
        ∀ key ∈ change.unset, change.set.get key = none → entry.get key = none

theorem ProfileChange.held_ofEntries {change : ProfileChange} {root : Table} :
    change.Held (SortedMap.Map.ofEntries root.entries) ↔ change.Held root := by
  rw [Held, Held, tableIn, tableIn, Config.get_ofEntries]

theorem ProfileChange.held_of_applyChangeV2 {change : ProfileChange}
    {root root' : Table} (happly : applyChangeV2 root change = .ok root') :
    change.Held root' := by
  rw [applyChangeV2, applyInSection] at happly
  split at happly
  next => cases happly
  next profiles hprofiles =>
    obtain ⟨profiles', hprofiles', hroot⟩ := bind_eq_ok.mp happly
    cases hroot
    refine ⟨_, tableIn_of_get (by rw [SortedMap.Map.get_insert, if_pos rfl]), ?_⟩
    split
    next hdelete =>
      rw [applyToProfiles, if_pos hdelete] at hprofiles'
      cases hprofiles'
      rw [Config.get_ofEntries, SortedMap.Map.get_erase, if_pos rfl]
    next hkept =>
      obtain ⟨entry, edited, -, hedit, hget⟩ :=
        get_applyToProfiles hprofiles' hkept
      cases hedit
      rw [Config.get_ofEntries, hget]
      refine ⟨rfl, _, tableIn_of_get
        ((Config.get_ofEntries profiles' _).trans hget), ?_, ?_⟩
      · intro key value hset
        rw [Config.get_ofEntries, get_editV2, hset, Option.some_or]
      · intro key hunset hset
        rw [Config.get_ofEntries, get_editV2, hset, Option.none_or,
          if_pos hunset]

end ConfigWrite

end Web

end XBackup
