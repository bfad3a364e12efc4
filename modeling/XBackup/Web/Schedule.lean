/-
A schedule, and what the edits of the console make of a list of schedules.
-/
import XBackup.Web.CronExpr
import XBackup.Web.ProfileName

namespace XBackup

namespace Web

def MAX_SCHEDULES : Nat := 64

/-- The bound of a scan for what was missed. -/
def MISSED_SCAN_MAX : Nat := 1000

/-- A UUID, in the order of its creation. -/
abbrev ScheduleId := Fin (2 ^ 128)

instance neZero_ids : NeZero (2 ^ 128) := ⟨by decide⟩

/-- The first eight digits. -/
def ScheduleId.short (id : ScheduleId) : String :=
  let digits := Nat.toDigits 16 (id.val / 2 ^ 96)
  String.ofList (List.replicate (8 - digits.length) '0' ++ digits)

abbrev JobId := Fin (2 ^ 128)

inductive ScheduleKind where
  | full
  | incr
deriving DecidableEq, Repr

structure Schedule where
  id : ScheduleId
  profile : String
  expr : CronExpr
  kind : ScheduleKind
  enabled : Bool
  createdAt : Int
  lastRunAt : Option Int
  lastJobId : Option JobId
deriving DecidableEq

/-- What the operator may set. -/
structure ScheduleDraft where
  profile : ProfileName
  expr : CronExpr
  kind : ScheduleKind
  enabled : Bool
  parsed : ∃ input, CronExpr.parse input = .ok expr

def sameTrigger (a b : Schedule) : Bool :=
  a.profile = b.profile && a.kind = b.kind && a.expr = b.expr

def notFound (id : ScheduleId) : String :=
  "스케줄 " ++ id.short ++ "을 찾을 수 없습니다 — 다른 탭에서 이미 삭제되었을 수 있습니다."

/-- The schedule that `create` makes of a draft. -/
def ScheduleDraft.created (draft : ScheduleDraft) (id : ScheduleId)
    (now : Int) : Schedule where
  id := id
  profile := draft.profile.asStr
  expr := draft.expr
  kind := draft.kind
  enabled := draft.enabled
  createdAt := now
  lastRunAt := none
  lastJobId := none

/-- The schedule that `update` makes of a draft. -/
def ScheduleDraft.updated (draft : ScheduleDraft) (schedule : Schedule) :
    Schedule :=
  { schedule with
    profile := draft.profile.asStr
    expr := draft.expr
    kind := draft.kind
    enabled := draft.enabled }

/-- The list that `create` stores. -/
def createIn (schedules : List Schedule) (created : Schedule) :
    Except String (List Schedule) :=
  if MAX_SCHEDULES ≤ schedules.length then
    .error ("스케줄이 이미 " ++ toString MAX_SCHEDULES ++ "개입니다 — 더 추가하려면 " ++
      "쓰지 않는 스케줄을 먼저 삭제하세요.")
  else
    match schedules.find? (sameTrigger · created) with
    | some existing => .error
        ("같은 프로파일·표현식·종류의 스케줄이 이미 있습니다(id " ++ existing.id.short ++
          ") — 중복 등록은 같은 시각에 두 백업을 띄워 뒤쪽이 파일 락에 걸리게 " ++
          "만들므로 거부합니다.")
    | none => .ok (schedules ++ [created])

/-- The list that `update` stores. -/
def updateIn (schedules : List Schedule) (id : ScheduleId)
    (draft : ScheduleDraft) : Except String (List Schedule) :=
  match schedules.findIdx? (·.id = id) with
  | none => .error (notFound id)
  | some index =>
      match schedules[index]? with
      | none => .error "index out of bounds"
      | some schedule =>
          let updated := draft.updated schedule
          match schedules.find? fun s =>
              s.id ≠ id && sameTrigger s updated with
          | some other => .error
              ("수정 결과가 기존 스케줄(id " ++ other.id.short ++ ")과 같은 " ++
                "프로파일·표현식·종류가 됩니다 — 중복 등록은 거부합니다.")
          | none => .ok (schedules.set index updated)

/-- The list that `delete` stores. -/
def deleteIn (schedules : List Schedule) (id : ScheduleId) :
    Except String (List Schedule) :=
  match schedules.findIdx? (·.id = id) with
  | none => .error (notFound id)
  | some index => .ok (schedules.eraseIdx index)

/-- The list that `recordRun` stores; none if the schedule is gone. -/
def recordRunIn (schedules : List Schedule) (id : ScheduleId) (firedAt : Int)
    (jobId : Option JobId) : Option (List Schedule) :=
  match schedules.findIdx? (·.id = id) with
  | none => none
  | some index =>
      schedules[index]?.map fun entry => schedules.set index
        { entry with
          lastRunAt := some firedAt
          lastJobId := if jobId.isSome then jobId else entry.lastJobId }

section Edits

variable {schedules result : List Schedule} {created : Schedule}
  {id : ScheduleId} {draft : ScheduleDraft}

theorem createIn_ok (hok : createIn schedules created = .ok result) :
    result = schedules ++ [created] := by
  rw [createIn] at hok
  split at hok
  next => cases hok
  next =>
    split at hok
    next => cases hok
    next => exact (Except.ok.inj hok).symm

theorem findIdx_id {index : Nat} {schedule : Schedule}
    (hindex : schedules.findIdx? (·.id = id) = some index)
    (hschedule : schedules[index]? = some schedule) : schedule.id = id := by
  obtain ⟨hlt, hid, -⟩ := List.findIdx?_eq_some_iff_getElem.mp hindex
  obtain ⟨_, hget⟩ := List.getElem?_eq_some_iff.mp hschedule
  rw [hget] at hid
  exact of_decide_eq_true hid

theorem updateIn_ok (hok : updateIn schedules id draft = .ok result) :
    ∃ index schedule, schedules[index]? = some schedule ∧ schedule.id = id ∧
      result = schedules.set index (draft.updated schedule) := by
  rw [updateIn] at hok
  split at hok
  next => cases hok
  next index hindex =>
    split at hok
    next => cases hok
    next schedule hschedule =>
      refine ⟨index, schedule, hschedule, findIdx_id hindex hschedule, ?_⟩
      cases hother : schedules.find? fun s =>
          s.id ≠ id && sameTrigger s (draft.updated schedule) with
      | some other =>
          simp only [hother] at hok
          cases hok
      | none =>
          simp only [hother] at hok
          exact (Except.ok.inj hok).symm

theorem deleteIn_ok (hok : deleteIn schedules id = .ok result) :
    ∃ index, result = schedules.eraseIdx index := by
  rw [deleteIn] at hok
  split at hok
  next => cases hok
  next index _ => exact ⟨index, (Except.ok.inj hok).symm⟩

theorem recordRunIn_some {firedAt : Int} {jobId : Option JobId}
    (hsome : recordRunIn schedules id firedAt jobId = some result) :
    ∃ index entry, schedules[index]? = some entry ∧ entry.id = id ∧
      result = schedules.set index
        { entry with
          lastRunAt := some firedAt
          lastJobId := if jobId.isSome then jobId else entry.lastJobId } := by
  rw [recordRunIn] at hsome
  split at hsome
  next => cases hsome
  next index hindex =>
    obtain ⟨entry, hentry, rfl⟩ := Option.map_eq_some_iff.mp hsome
    exact ⟨index, entry, hentry, findIdx_id hindex hentry, rfl⟩

/-- A schedule that takes the place of one with the same identifier. -/
theorem ids_set {index : Nat} {schedule replacement : Schedule}
    (hschedule : schedules[index]? = some schedule)
    (hid : replacement.id = schedule.id) :
    (schedules.set index replacement).map (·.id) = schedules.map (·.id) := by
  obtain ⟨hlt, rfl⟩ := List.getElem?_eq_some_iff.mp hschedule
  have hlength : index < (schedules.map (·.id)).length := by
    rwa [List.length_map]
  have hsame : (schedules.map (·.id))[index] = schedules[index].id :=
    List.getElem_map _
  rw [List.map_set, hid, ← hsame, List.set_getElem_self]

end Edits

section EveryMinute

theorem every_day : false = !isFull 0xfffffffe#64 RANGE_DOM.min RANGE_DOM.max := by
  decide

/-- What `* * * * *` is read as. -/
def everyMinute : CronExpr where
  raw := "* * * * *"
  minute := 0x0fffffffffffffff#64
  hour := 0xffffff#64
  dom := 0xfffffffe#64
  month := 0x1ffe#64
  dow := 0x7f#64
  domRestricted := false
  dowRestricted := false
  dom_full := every_day
  dow_full := by decide

def everyMinuteSchedule : Schedule where
  id := 1
  profile := "local"
  expr := everyMinute
  kind := .incr
  enabled := true
  createdAt := 0
  lastRunAt := none
  lastJobId := none

theorem parse_everyMinute : CronExpr.parse "* * * * *" = .ok everyMinute := by
  rfl

end EveryMinute

end Web

end XBackup
