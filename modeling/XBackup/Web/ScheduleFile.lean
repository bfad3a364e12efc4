/-
The file of the schedules, and what a load makes of it.
-/
import XBackup.Foundation.Fallible
import XBackup.Foundation.JsonText
import XBackup.Web.Schedule

namespace XBackup

namespace Web

open Bytes Fallible

def SCHEDULES_SCHEMA : Nat := 1

/-- A schedule as the file has it, before its texts are checked. -/
structure StoredSchedule where
  id : String
  profile : String
  expr : String
  kind : ScheduleKind
  enabled : Bool
  createdAt : Int
  lastRunAt : Option Int
  lastJobId : Option String
deriving DecidableEq

/-- What the libraries make of JSON texts and of identifiers. -/
structure Codec where
  Value : Type
  fromSlice : List UInt8 → Except String (Nat × List Value)
  fromValue : Value → Except String StoredSchedule
  toVecPretty : Nat → List StoredSchedule → List UInt8
  parseUuid : String → Option (Fin (2 ^ 128))
  uuidText : Fin (2 ^ 128) → String

def isAsciiWhitespace (byte : UInt8) : Bool :=
  byte ∈ [32, 9, 10, 12, 13]

/-- What is written is read again, and white space is no document. -/
structure Codec.Faithful (codec : Codec) : Prop where
  uuid : ∀ id, codec.parseUuid (codec.uuidText id) = some id
  document : ∀ schema stored, ∃ values,
    codec.fromSlice (codec.toVecPretty schema stored) = .ok (schema, values) ∧
      values.map codec.fromValue = stored.map Except.ok
  blank : ∀ bytes result, bytes.all isAsciiWhitespace = true →
    codec.fromSlice bytes ≠ .ok result

/-- The two bodies that a schedule file may be parsed into. -/
inductive ParsedFile where
  | ok (schedules : List Schedule) (unreadable : Nat)
  | fatal (reason : String)

structure LoadReport where
  filePresent : Bool
  loaded : Nat
  unreadableEntries : Nat
  fatalError : Option String
  corruptCopySaved : Bool
  recoveredFromPrev : Bool
deriving DecidableEq

def LoadReport.default : LoadReport where
  filePresent := false
  loaded := 0
  unreadableEntries := 0
  fatalError := none
  corruptCopySaved := false
  recoveredFromPrev := false

def LoadReport.degraded (report : LoadReport) : Bool :=
  report.fatalError.isSome || 0 < report.unreadableEntries

/-- What reading a file gives. -/
inductive FileRead where
  | bytes (content : List UInt8)
  | notFound
  | failed (reason : String)

namespace Codec

variable (codec : Codec)

def parseScheduleId (raw : String) : Except String ScheduleId :=
  match codec.parseUuid raw with
  | some id => .ok id
  | none => .error ("스케줄 id '" ++ raw ++ "'는 UUID 형식이 아닙니다 — 화면의 링크가 " ++
      "잘못되었거나 손상된 스케줄 항목입니다.")

def parseJobId (raw : String) : Except String JobId :=
  match codec.parseUuid raw with
  | some id => .ok id
  | none => .error ("잡 id '" ++ raw ++ "'는 UUID 형식이 아닙니다 — 잡 이력 링크가 " ++
      "잘못되었거나 손상된 인덱스 항목입니다.")

/-- The job of the last run, if there was one. -/
def parseLastJobId : Option String → Except String (Option JobId)
  | some raw => codec.parseJobId raw >>= fun jobId => .ok (some jobId)
  | none => .ok none

def intoDomain (stored : StoredSchedule) : Except String Schedule := do
  let expr ← CronExpr.parse stored.expr
  let id ← codec.parseScheduleId stored.id
  let profile ← ProfileName.parse stored.profile
  let lastJobId ← codec.parseLastJobId stored.lastJobId
  .ok
    { id := id
      profile := profile.asStr
      expr := expr
      kind := stored.kind
      enabled := stored.enabled
      createdAt := stored.createdAt
      lastRunAt := stored.lastRunAt
      lastJobId := lastJobId }

def fromDomain (schedule : Schedule) : StoredSchedule where
  id := codec.uuidText schedule.id
  profile := schedule.profile
  expr := schedule.expr.raw
  kind := schedule.kind
  enabled := schedule.enabled
  createdAt := schedule.createdAt
  lastRunAt := schedule.lastRunAt
  lastJobId := schedule.lastJobId.map codec.uuidText

/-- One entry of the file. -/
def readEntry (value : codec.Value) : Except String Schedule :=
  codec.fromValue value >>= codec.intoDomain

/-- The order of the identifiers is the order of creation. -/
def sortById (schedules : List Schedule) : List Schedule :=
  schedules.mergeSort fun a b => a.id ≤ b.id

def parseFile (bytes : List UInt8) : ParsedFile :=
  if bytes.all isAsciiWhitespace then
    .fatal "파일이 비어 있습니다(0바이트) — 쓰는 중 중단된 흔적입니다"
  else
    match codec.fromSlice bytes with
    | .error e => .fatal ("JSON을 해석할 수 없습니다: " ++ e)
    | .ok (schema, values) =>
        if SCHEDULES_SCHEMA < schema then
          .fatal ("스키마 버전 " ++ toString schema ++ "은 이 빌드(" ++
            toString SCHEDULES_SCHEMA ++ ")가 모르는 상위 버전입니다 — " ++
            "더 새 버전의 x-backup이 쓴 파일입니다")
        else
          let entries := values.map codec.readEntry
          .ok (sortById (entries.filterMap Except.toOption))
            (entries.countP fun entry => !entry.isOk)

def readWithRecovery (main prev : FileRead) (corruptSaved : Bool) :
    List Schedule × LoadReport :=
  match main with
  | .notFound => ([], .default)
  | .failed reason => ([], { LoadReport.default with
      filePresent := true
      fatalError := some ("파일을 읽을 수 없습니다: " ++ reason) })
  | .bytes bytes =>
      match codec.parseFile bytes with
      | .ok schedules unreadable => (schedules, { LoadReport.default with
          filePresent := true
          loaded := schedules.length
          unreadableEntries := unreadable })
      | .fatal reason =>
          let report := { LoadReport.default with
            filePresent := true
            fatalError := some reason
            corruptCopySaved := corruptSaved }
          match prev with
          | .bytes prevBytes =>
              match codec.parseFile prevBytes with
              | .ok schedules unreadable => (schedules, { report with
                  recoveredFromPrev := true
                  loaded := schedules.length
                  unreadableEntries := unreadable })
              | .fatal _ => ([], report)
          | _ => ([], report)

/-- The body that `persist` writes. -/
def body (schedules : List Schedule) : List UInt8 :=
  codec.toVecPretty SCHEDULES_SCHEMA (schedules.map codec.fromDomain)

end Codec

/-- A schedule whose texts pass their checks. -/
def Schedule.Checked (schedule : Schedule) : Prop :=
  (∃ name : ProfileName, name.asStr = schedule.profile) ∧
    ∃ input, CronExpr.parse input = .ok schedule.expr

section RoundTrip

variable {codec : Codec} {schedule : Schedule} {schedules : List Schedule}

theorem checked_of_intoDomain {stored : StoredSchedule}
    (hok : codec.intoDomain stored = .ok schedule) : schedule.Checked := by
  obtain ⟨expr, hexpr, hok⟩ := bind_eq_ok.mp hok
  obtain ⟨id, -, hok⟩ := bind_eq_ok.mp hok
  obtain ⟨profile, -, hok⟩ := bind_eq_ok.mp hok
  obtain ⟨lastJobId, -, hok⟩ := bind_eq_ok.mp hok
  cases hok
  exact ⟨⟨profile, rfl⟩, stored.expr, hexpr⟩

theorem intoDomain_fromDomain (hcodec : codec.Faithful)
    (hchecked : schedule.Checked) :
    codec.intoDomain (codec.fromDomain schedule) = .ok schedule := by
  obtain ⟨⟨name, hname⟩, input, hinput⟩ := hchecked
  have hid : codec.parseScheduleId (codec.uuidText schedule.id) =
      .ok schedule.id := by
    rw [Codec.parseScheduleId, hcodec.uuid]
  have hprofile : ProfileName.parse schedule.profile = .ok name := by
    rw [← hname, name.parse_asStr]
  have hjob : codec.parseLastJobId (schedule.lastJobId.map codec.uuidText) =
      .ok schedule.lastJobId := by
    cases schedule.lastJobId with
    | none => rfl
    | some jobId =>
        rw [Option.map_some, Codec.parseLastJobId, Codec.parseJobId,
          hcodec.uuid]
        rfl
  rw [Codec.intoDomain]
  simp only [Codec.fromDomain, parse_raw hinput, hid, hprofile, hjob, bind,
    Except.bind, hname]

theorem parseFile_body (hcodec : codec.Faithful)
    (hchecked : ∀ schedule ∈ schedules, schedule.Checked) :
    codec.parseFile (codec.body schedules) =
      .ok (Codec.sortById schedules) 0 := by
  obtain ⟨values, hslice, hvalues⟩ := hcodec.document SCHEDULES_SCHEMA
    (schedules.map codec.fromDomain)
  have hentries : values.map codec.readEntry = schedules.map Except.ok := by
    have hread : values.map codec.readEntry =
        (values.map codec.fromValue).map (· >>= codec.intoDomain) := by
      rw [List.map_map]
      rfl
    rw [hread, hvalues, List.map_map, List.map_map]
    exact List.map_congr_left fun schedule hmem =>
      intoDomain_fromDomain hcodec (hchecked schedule hmem)
  have hblank : ¬ (codec.body schedules).all isAsciiWhitespace = true :=
    fun hblank => hcodec.blank _ _ hblank hslice
  rw [Codec.parseFile, if_neg hblank, Codec.body, hslice]
  simp only [hentries, lt_irrefl, if_false]
  congr 1
  · rw [List.filterMap_map]
    congr 1
    exact List.filterMap_some
  · rw [List.countP_map]
    exact List.countP_eq_zero.mpr fun schedule _ => Bool.false_ne_true

end RoundTrip

section EveryMinuteFile

/-- The file of a schedule with its text; what has run since is the end of its
entry. -/
def everyMinuteText (lastRun : String) : List UInt8 :=
  123 :: utf8 ("\n  \"schema\": 1,\n  \"schedules\": [\n    \x7b\n" ++
    "      \"id\": \"00000000-0000-0000-0000-000000000001\",\n" ++
    "      \"profile\": \"local\",\n      \"expr\": \"* * * * *\",\n" ++
    "      \"kind\": \"incr\",\n      \"enabled\": true,\n" ++
    "      \"created_at\": \"1970-01-01T00:00:00Z\"" ++ lastRun ++
    "\n    \x7d\n  ]\n\x7d")

def uuidText (id : Fin (2 ^ 128)) : String :=
  if id = 1 then "00000000-0000-0000-0000-000000000001" else toString id.val

def everyMinuteStored (lastRunAt : Option Int) : StoredSchedule where
  id := uuidText everyMinuteSchedule.id
  profile := everyMinuteSchedule.profile
  expr := everyMinute.raw
  kind := everyMinuteSchedule.kind
  enabled := true
  createdAt := 0
  lastRunAt := lastRunAt
  lastJobId := none

instance : Countable StoredSchedule := by
  have hchar : Countable Char :=
    Function.Injective.countable fun _ _ h => Char.toNat_inj.mp h
  have hstring : Countable String :=
    Function.Injective.countable fun _ _ h => String.toList_injective h
  refine @Function.Injective.countable _ (String × String × String ×
    Bool × Bool × Int × Option Int × Option String) _
      (fun stored => (stored.id, stored.profile, stored.expr,
        decide (stored.kind = .full), stored.enabled, stored.createdAt,
        stored.lastRunAt, stored.lastJobId)) ?_
  intro left right hsame
  simp only [Prod.mk.injEq, decide_eq_decide] at hsame
  obtain ⟨hid, hprofile, hexpr, hkind, henabled, hcreated, hrun, hjob⟩ := hsame
  have hkinds : left.kind = right.kind := by
    cases hleft : left.kind <;> cases hright : right.kind <;>
      simp [hleft, hright] at hkind ⊢
  cases left
  cases right
  simp_all

/-- Any other file gets a number. -/
noncomputable def fileText (file : Nat × List StoredSchedule) : List UInt8 :=
  if file = (1, [everyMinuteStored none]) then everyMinuteText ""
  else if file = (1, [everyMinuteStored (some Calendar.MINUTE)]) then
    everyMinuteText ",\n      \"last_run_at\": \"1970-01-01T00:01:00Z\""
  else JsonText.digits ((exists_injective_nat _).choose file)

theorem everyMinuteText_ne_digits (lastRun : String) (n : Nat) :
    everyMinuteText lastRun ≠ JsonText.digits n := by
  intro hsame
  have hmem : 123 ∈ JsonText.digits n := hsame ▸ List.mem_cons_self
  exact absurd (JsonText.digits_bounds hmem).2 (by decide)

theorem between_injective (front behind : String) :
    Function.Injective fun s => utf8 (front ++ s ++ behind) := by
  intro left right hsame
  have htext := congrArg fromUtf8Lossy hsame
  rw [fromUtf8Lossy_utf8, fromUtf8Lossy_utf8, String.append_left_inj,
    String.append_right_inj] at htext
  exact htext

theorem fileText_injective : Function.Injective fileText := by
  have hne : everyMinuteText "" ≠
      everyMinuteText ",\n      \"last_run_at\": \"1970-01-01T00:01:00Z\"" := by
    intro hsame
    have hempty := between_injective _ _ (List.cons.inj hsame).2
    exact absurd hempty (by decide)
  intro left right hsame
  rw [fileText, fileText] at hsame
  split at hsame
  next hleft =>
    split at hsame
    next hright => rw [hleft, hright]
    next =>
      split at hsame
      next => exact absurd hsame hne
      next => exact absurd hsame (everyMinuteText_ne_digits _ _)
  next =>
    split at hsame
    next hleft =>
      split at hsame
      next => exact absurd hsame.symm hne
      next =>
        split at hsame
        next hright => rw [hleft, hright]
        next => exact absurd hsame (everyMinuteText_ne_digits _ _)
    next =>
      split at hsame
      next => exact absurd hsame.symm (everyMinuteText_ne_digits _ _)
      next =>
        split at hsame
        next => exact absurd hsame.symm (everyMinuteText_ne_digits _ _)
        next =>
          exact (exists_injective_nat _).choose_spec
            (JsonText.digits_injective hsame)

/-- No text of a file starts with white space. -/
theorem fileText_blank (file : Nat × List StoredSchedule) :
    (fileText file).all isAsciiWhitespace = false := by
  rw [fileText]
  split
  · rfl
  · split
    · rfl
    · have hne : JsonText.digits ((exists_injective_nat _).choose file) ≠ [] :=
        List.map_eq_nil_iff.not.mpr Nat.toDigits_ne_nil
      obtain ⟨first, rest, hdigits⟩ := List.exists_cons_of_ne_nil hne
      have hfirst : 48 ≤ first.toNat :=
        (JsonText.digits_bounds (hdigits ▸ List.mem_cons_self)).1
      have hplain : isAsciiWhitespace first = false := by
        rw [isAsciiWhitespace, decide_eq_false_iff_not]
        intro hmem
        fin_cases hmem <;> exact absurd hfirst (by decide)
      rw [hdigits, List.all_cons, hplain, Bool.false_and]

theorem uuidText_injective : Function.Injective uuidText := by
  have hdash : ∀ n : Nat,
      toString n ≠ "00000000-0000-0000-0000-000000000001" := by
    intro n hsame
    have hmem : '-' ∈ Nat.toDigits 10 n := by
      have hdigits : (String.ofList (Nat.toDigits 10 n)).toList = _ :=
        congrArg String.toList hsame
      have htoList : (String.ofList (Nat.toDigits 10 n)).toList =
          Nat.toDigits 10 n := String.toList_ofList
      rw [← htoList, hdigits]
      decide
    exact absurd (JsonText.digit_bounds hmem).1 (by decide)
  intro left right hsame
  rw [uuidText, uuidText] at hsame
  split at hsame <;> split at hsame
  next hleft hright => rw [hleft, hright]
  next => exact absurd hsame.symm (hdash _)
  next => exact absurd hsame (hdash _)
  next => exact Fin.ext (Nat.repr_inj.mp hsame)

noncomputable def exampleCodec : Codec where
  Value := StoredSchedule
  fromSlice := fun bytes =>
    match Function.partialInv fileText bytes with
    | some file => .ok file
    | none => .error "expected value at line 1 column 1"
  fromValue := .ok
  toVecPretty := fun schema stored => fileText (schema, stored)
  parseUuid := Function.partialInv uuidText
  uuidText := uuidText

theorem exampleCodec_faithful : exampleCodec.Faithful where
  uuid := Function.partialInv_left uuidText_injective
  document := by
    intro schema stored
    refine ⟨stored, ?_, rfl⟩
    have hfound := Function.partialInv_left fileText_injective (schema, stored)
    simp only [exampleCodec, hfound]
  blank := by
    intro bytes result hblank hslice
    simp only [exampleCodec] at hslice
    split at hslice
    next file hfile =>
      have htext := (fileText_injective.isPartialInv _ _).mp hfile
      rw [← htext, fileText_blank] at hblank
      cases hblank
    next => cases hslice

theorem everyMinute_checked : everyMinuteSchedule.Checked :=
  ⟨⟨⟨"local", by decide⟩, rfl⟩, "* * * * *", parse_everyMinute⟩

theorem body_everyMinute :
    exampleCodec.body [everyMinuteSchedule] = everyMinuteText "" := by
  have hsame : (SCHEDULES_SCHEMA, [everyMinuteSchedule].map
      exampleCodec.fromDomain) = (1, [everyMinuteStored none]) := rfl
  have hbody : exampleCodec.body [everyMinuteSchedule] =
      fileText (SCHEDULES_SCHEMA, [everyMinuteSchedule].map
        exampleCodec.fromDomain) := rfl
  rw [hbody, hsame, fileText, if_pos rfl]

theorem parseFile_everyMinute :
    exampleCodec.parseFile (everyMinuteText "") = .ok [everyMinuteSchedule] 0 := by
  rw [← body_everyMinute, parseFile_body exampleCodec_faithful, Codec.sortById,
    List.mergeSort_singleton]
  exact fun schedule hmem => List.mem_singleton.mp hmem ▸ everyMinute_checked

end EveryMinuteFile

end Web

end XBackup
