/-
The cron expressions of the built-in scheduler, which are read in local time.
Here local time is UTC.
-/
import XBackup.Foundation.Calendar
import XBackup.Foundation.Occurrences
import XBackup.Schedule.Fields

namespace XBackup

namespace Schedule

open Calendar Occurrences

/-- The values that each field allows, and whether a text was a star. -/
structure CronExpr where
  minutes : BitVec 64
  hours : BitVec 32
  dom : BitVec 32
  months : BitVec 16
  dow : BitVec 8
  domIsWildcard : Bool
  dowIsWildcard : Bool
deriving DecidableEq, Repr

namespace CronExpr

/-- A part without its step, and the step. -/
def partStep (part : List Char) : Except String (List Char × Nat) :=
  match splitOnceAt '/' part with
  | some (r, s) =>
      match parseU32 s with
      | none => .error ("스텝 '" ++ String.ofList s ++ "'가 숫자가 아님")
      | some step => if step = 0 then .error "스텝 0 불가" else .ok (r, step)
  | none => .ok (part, 1)

/-- The first and the last value: a single value with a step goes on to the end
of the field. -/
def partBounds (range : List Char) (step min max : Nat) :
    Except String (Nat × Nat) :=
  if range = ['*'] then .ok (min, max)
  else
    match splitOnceAt '-' range with
    | some (a, b) =>
        match parseU32 a, parseU32 b with
        | none, _ => .error ("'" ++ String.ofList a ++ "'가 숫자가 아님")
        | _, none => .error ("'" ++ String.ofList b ++ "'가 숫자가 아님")
        | some a, some b =>
            if b < a then
              .error ("역순 범위 " ++ toString a ++ "-" ++ toString b)
            else .ok (a, b)
    | none =>
        match parseU32 range with
        | none => .error ("'" ++ String.ofList range ++ "'가 숫자가 아님")
        | some v => if 1 < step then .ok (v, max) else .ok (v, v)

/-- The first and the last value of a part of a field, and its step. -/
def partRange (part : List Char) (min max : Nat) :
    Except String (Nat × Nat × Nat) := do
  let (range, step) ← partStep part
  let (lo, hi) ← partBounds range step min max
  if lo < min ∨ max < hi then
    .error (toString lo ++ "-" ++ toString hi ++ "가 허용 범위 " ++
      toString min ++ "-" ++ toString max ++ " 밖")
  else .ok (lo, hi, step)

def addPart (min max : Nat) (mask : BitVec 64) (part : List Char) :
    Except String (BitVec 64) := do
  let (lo, hi, step) ← partRange part min max
  pure (insertEvery mask lo hi step)

def parseMask (field : List Char) (min max : Nat) : Except String (BitVec 64) := do
  let mask ← (field.splitOn ',').foldlM (addPart min max) 0#64
  if mask = 0 then .error "허용 값이 없음" else .ok mask

def parseField (field : List Char) (min max : Nat) (expr : String) :
    Except String (BitVec 64) :=
  (parseMask field min max).mapError fun why =>
    "cron 필드 '" ++ String.ofList field ++ "' 파싱 실패(" ++ why ++ "): '" ++
      expr ++ "'"

def parse (expr : String) : Except String CronExpr :=
  match splitWhitespace expr.toList with
  | [minute, hour, dom, month, dow] => do
      let minutes ← parseField minute 0 59 expr
      let hours ← parseField hour 0 23 expr
      let days ← parseField dom 1 31 expr
      let months ← parseField month 1 12 expr
      let dowRaw ← parseField dow 0 7 expr
      pure
        { minutes := minutes
          hours := hours.setWidth 32
          dom := days.setWidth 32
          months := months.setWidth 16
          dow := ((dowRaw &&& 0x7f#64) ||| (dowRaw >>> 7)).setWidth 8
          domIsWildcard := dom = ['*']
          dowIsWildcard := dow = ['*'] }
  | fields => .error
      ("cron 표현식은 5필드(분 시 일 월 요일)여야 합니다(현재 " ++
        toString fields.length ++ "필드): '" ++ expr ++ "'")

variable (e : CronExpr)

def matchesDate (day : Int) : Bool :=
  if !contains e.months (dateOf day).month then false
  else
    let domOk := contains e.dom (dateOf day).day
    let dowOk := contains e.dow (weekdayFromSunday day)
    match e.domIsWildcard, e.dowIsWildcard with
    | false, false => domOk || dowOk
    | _, _ => domOk && dowOk

/-- The loop of `nextAfter`: what does not match is left by the day, by the hour
and by the minute. -/
def search (limit t : Int) : Option Int :=
  if t ≤ limit then
    if !e.matchesDate (dayOf t) then search limit (startOfDay (t + DAY))
    else if !contains e.hours (hourOf t) then
      search limit (withMinuteZero (t + HOUR))
    else if contains e.minutes (minuteOf t) then some t
    else search limit (t + MINUTE)
  else none
termination_by (limit + 1 - t).toNat
decreasing_by
  all_goals
    simp only [startOfDay, withMinuteZero, minuteOf, DAY, HOUR, MINUTE]
    omega

def nextAfter (after : Int) : Option Int :=
  e.search (after + 400 * DAY) (startOfMinute (after + MINUTE))

/-- An instant that the expression names. -/
def Occurs (t : Int) : Prop :=
  t % MINUTE = 0 ∧ e.matchesDate (dayOf t) = true ∧
    contains e.hours (hourOf t) = true ∧ contains e.minutes (minuteOf t) = true

variable {e} {limit t next time : Int}

/-- A jump leaves no occurrence out. -/
theorem first_of_jump {found : Option Int} (hle : t ≤ next)
    (hskip : ∀ time, e.Occurs time → t ≤ time → next ≤ time)
    (hfirst : First {time | e.Occurs time ∧ next ≤ time ∧ time ≤ limit} found) :
    First {time | e.Occurs time ∧ t ≤ time ∧ time ≤ limit} found := by
  have hsame : {time | e.Occurs time ∧ t ≤ time ∧ time ≤ limit} =
      {time | e.Occurs time ∧ next ≤ time ∧ time ≤ limit} := by
    ext time
    constructor
    · rintro ⟨hoccurs, hlater, hlimit⟩
      exact ⟨hoccurs, hskip time hoccurs hlater, hlimit⟩
    · rintro ⟨hoccurs, hlater, hlimit⟩
      exact ⟨hoccurs, hle.trans hlater, hlimit⟩
  rwa [hsame]

theorem sameDay (hlater : t ≤ time) (hbefore : time < startOfDay (t + DAY)) :
    dayOf time = dayOf t := by
  simp only [startOfDay, dayOf, DAY, HOUR, MINUTE] at *
  omega

theorem sameHour (ht : t % MINUTE = 0) (hlater : t ≤ time)
    (hbefore : time < withMinuteZero (t + HOUR)) :
    hourOf time = hourOf t := by
  simp only [withMinuteZero, minuteOf, hourOf, DAY, HOUR, MINUTE] at *
  omega

theorem search_first (ht : t % MINUTE = 0) :
    First {time | e.Occurs time ∧ t ≤ time ∧ time ≤ limit}
      (e.search limit t) := by
  fun_induction search e limit t with
  | case1 t hlimit hdate ih =>
      apply first_of_jump _ _ (ih _)
      · simp only [startOfDay, DAY, HOUR, MINUTE]
        omega
      · intro time hoccurs hlater
        by_contra hbefore
        rw [← sameDay hlater (not_le.mp hbefore), hoccurs.2.1] at hdate
        cases hdate
      · simp only [startOfDay, DAY, HOUR, MINUTE] at ht ⊢
        omega
  | case2 t hlimit hdate hhour ih =>
      apply first_of_jump _ _ (ih _)
      · simp only [withMinuteZero, minuteOf, HOUR, MINUTE]
        omega
      · intro time hoccurs hlater
        by_contra hbefore
        rw [← sameHour ht hlater (not_le.mp hbefore), hoccurs.2.2.1] at hhour
        cases hhour
      · simp only [withMinuteZero, minuteOf, HOUR, MINUTE] at ht ⊢
        omega
  | case3 t hlimit hdate hhour hminute =>
      rw [Bool.not_eq_true, Bool.not_eq_false'] at hdate hhour
      exact ⟨⟨⟨ht, hdate, hhour, hminute⟩, le_refl t, hlimit⟩,
        fun time htime => htime.2.1⟩
  | case4 t hlimit hdate hhour hminute ih =>
      apply first_of_jump _ _ (ih _)
      · simp only [MINUTE]
        omega
      · intro time hoccurs hlater
        by_contra hbefore
        have hsame : time = t := by
          have haligned := hoccurs.1
          simp only [MINUTE] at *
          omega
        rw [← hsame] at hminute
        exact hminute hoccurs.2.2.2
      · simp only [MINUTE] at ht ⊢
        omega
  | case5 t hlimit =>
      apply Set.eq_empty_iff_forall_notMem.mpr
      rintro time ⟨-, hlater, hbefore⟩
      exact hlimit (hlater.trans hbefore)

/-- The occurrences of the next four hundred days are found. -/
theorem nextAfter_first (after : Int) :
    First {time | e.Occurs time ∧ after < time ∧ time ≤ after + 400 * DAY}
      (e.nextAfter after) := by
  have haligned : startOfMinute (after + MINUTE) % MINUTE = 0 := by
    simp only [startOfMinute, MINUTE]
    omega
  have hsame : {time | e.Occurs time ∧ after < time ∧
        time ≤ after + 400 * DAY} =
      {time | e.Occurs time ∧ startOfMinute (after + MINUTE) ≤ time ∧
        time ≤ after + 400 * DAY} := by
    ext time
    refine and_congr_right fun hoccurs => and_congr_left fun _ => ?_
    have hminute := hoccurs.1
    simp only [startOfMinute, MINUTE] at *
    omega
  rw [hsame]
  exact search_first haligned

end CronExpr

end Schedule

end XBackup
