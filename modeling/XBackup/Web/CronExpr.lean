/-
The cron expressions of the web console, which are read in UTC.
-/
import XBackup.Foundation.Calendar
import XBackup.Foundation.Fallible
import XBackup.Foundation.Occurrences
import XBackup.Schedule.Fields

namespace XBackup

namespace Web

open Calendar Occurrences Schedule

def CRON_FIELDS : Nat := 5

def MAX_EXPR_LEN : Nat := 128

def MAX_DAYS_AHEAD : Nat := 3300

def MINUTES_PER_DAY : Nat := 24 * 60

def MINUTES_PER_HOUR : Nat := 60

/-- The values of a field, and its name in a message. -/
structure FieldRange where
  min : Nat
  max : Nat
  label : String

def RANGE_MINUTE : FieldRange := ⟨0, 59, "minute"⟩

def RANGE_HOUR : FieldRange := ⟨0, 23, "hour"⟩

def RANGE_DOM : FieldRange := ⟨1, 31, "day-of-month"⟩

def RANGE_MONTH : FieldRange := ⟨1, 12, "month"⟩

/-- Seven is a Sunday too. -/
def RANGE_DOW : FieldRange := ⟨0, 7, "day-of-week"⟩

def DOW_MAX_NORMALIZED : Nat := 6

section FieldSets

def full (min max : Nat) : BitVec 64 :=
  (List.range' min (max + 1 - min)).foldl insert 0#64

def isFull (set : BitVec 64) (min max : Nat) : Bool :=
  set = full min max

def firstAtOrAfter (set : BitVec 64) (start max : Nat) : Option Nat :=
  (List.range' start (max + 1 - start)).find? (contains set)

end FieldSets

/-- The expression as it was written, and the values that its fields allow. A
field of the day is restricted if it lacks a value. -/
structure CronExpr where
  raw : String
  minute : BitVec 64
  hour : BitVec 64
  dom : BitVec 64
  month : BitVec 64
  dow : BitVec 64
  domRestricted : Bool
  dowRestricted : Bool
  dom_full : domRestricted = !isFull dom RANGE_DOM.min RANGE_DOM.max
  dow_full : dowRestricted = !isFull dow RANGE_DOW.min DOW_MAX_NORMALIZED
deriving DecidableEq

section Parsing

def parseNumber (raw field : List Char) (label what : String) :
    Except String Nat :=
  if raw = [] then
    .error ("the " ++ what ++ " in the " ++ label ++ " field '" ++
      String.ofList field ++ "' is empty.")
  else if !raw.all Char.isDigit then
    let hint := " — only digits 0-9 are allowed (no signs, spaces, or " ++
      "punctuation)." ++
        if raw.all Char.isAlpha then
          " English names for months and weekdays (JAN, MON, …) are not " ++
            "supported either — write numbers (1 = January, 0 = Sunday)."
        else ""
    .error ("the " ++ what ++ " '" ++ String.ofList raw ++ "' in the " ++
      label ++ " field '" ++ String.ofList field ++ "' is not a number" ++ hint)
  else
    match parseU32 raw with
    | some value => .ok value
    | none => .error ("the " ++ what ++ " '" ++ String.ofList raw ++
        "' in the " ++ label ++ " field '" ++ String.ofList field ++
        "' is too large.")

def checkRange (value : Nat) (field : List Char) (range : FieldRange) :
    Except String Unit :=
  if value < range.min ∨ range.max < value then
    .error (toString value ++ " in the " ++ range.label ++ " field '" ++
      String.ofList field ++ "' is out of range — only " ++
      toString range.min ++ "-" ++ toString range.max ++ " are allowed.")
  else .ok ()

def inField (field : List Char) (label : String) : String :=
  "the " ++ label ++ " field '" ++ String.ofList field ++ "'"

/-- A term without its step, and the step. -/
def termStep (term field : List Char) (label : String) :
    Except String (List Char × Nat) :=
  match splitOnceAt '/' term with
  | some (base, stepRaw) => do
      let step ← parseNumber stepRaw field label "step"
      if step = 0 then
        .error ("the step in " ++ inField field label ++ " is 0 — `*/0` " ++
          "would mean 'every 0 minutes', which defines no run time. Use 1 " ++
          "or more.")
      else .ok (base, step)
  | none => .ok (term, 1)

/-- The first and the last value: a single value takes no step. -/
def termBounds (base field : List Char) (step : Nat) (range : FieldRange) :
    Except String (Nat × Nat) :=
  if base = ['*'] then .ok (range.min, range.max)
  else
    match splitOnceAt '-' base with
    | some (loRaw, hiRaw) => do
        let lo ← parseNumber loRaw field range.label "range start"
        let hi ← parseNumber hiRaw field range.label "range end"
        checkRange lo field range
        checkRange hi field range
        if hi < lo then
          .error ("the range in " ++ inField field range.label ++
            " runs backwards (" ++ toString lo ++ "-" ++ toString hi ++
            ") — the start must be at most the end. To cross midnight, " ++
            "split it into two items (e.g. `22-23,0-5`).")
        else .ok (lo, hi)
    | none => do
        let value ← parseNumber base field range.label "value"
        checkRange value field range
        if step ≠ 1 then
          .error (inField field range.label ++ " attaches a step to a " ++
            "single value — implementations disagree on what that means, " ++
            "so it is not supported. Write the range explicitly (e.g. `" ++
            toString value ++ "-" ++ toString range.max ++ "/" ++
            toString step ++ "`).")
        else .ok (value, value)

/-- The first and the last value of a term, and its step. -/
def termRange (term field : List Char) (range : FieldRange) :
    Except String (Nat × Nat × Nat) :=
  if term = [] then
    .error (inField field range.label ++ " has an empty item — check for a " ++
      "missing value in the comma list (e.g. `0,15,30`).")
  else if term.head? = some '-' ∨ term.head? = some '+' then
    .error ("'" ++ String.ofList term ++ "' in " ++
      inField field range.label ++ " carries a sign — only digits 0-9 are " ++
      "allowed (there is no negative time).")
  else do
    let (base, step) ← termStep term field range.label
    let (first, last) ← termBounds base field step range
    pure (first, last, step)

def parseTerm (field : List Char) (range : FieldRange) (set : BitVec 64)
    (term : List Char) : Except String (BitVec 64) := do
  let (first, last, step) ← termRange term field range
  pure (insertEvery set first last step)

def parseField (field : List Char) (range : FieldRange) :
    Except String (BitVec 64) :=
  (field.splitOn ',').foldlM (parseTerm field range) 0#64

def expandAlias (input : List Char) : Except String (List Char) :=
  if input = "@hourly".toList then .ok "0 * * * *".toList
  else if input = "@daily".toList then .ok "0 0 * * *".toList
  else .error ("alias '" ++ String.ofList input ++ "' is not supported — " ++
    "only `@hourly` (top of every hour) and `@daily` (00:00 UTC daily) are " ++
    "accepted. Write `@weekly`, `@monthly`, `@yearly` as five fields instead " ++
    "(e.g. Sunday 03:00 = `0 3 * * 0`). `@reboot` has no 'next run time', " ++
    "so it is not supported.")

/-- Sunday is one day, whatever its number. -/
def foldSunday (dowRaw : BitVec 64) : BitVec 64 :=
  (List.range' RANGE_DOW.min (RANGE_DOW.max + 1 - RANGE_DOW.min)).foldl
    (fun dow value =>
      if contains dowRaw value then
        insert dow (if value = RANGE_DOW.max then 0 else value)
      else dow) 0#64

def joinFields (fields : List (List Char)) : List Char :=
  [' '].intercalate fields

/-- The text of the five fields, and what is kept as written. -/
def expand (trimmed : List Char) : Except String (List Char × List Char) :=
  if trimmed.head? = some '@' then
    (expandAlias trimmed).map fun expanded => (expanded, trimmed)
  else
    let fields := splitWhitespace trimmed
    if fields.length ≠ CRON_FIELDS then
      .error ("the cron expression has " ++ toString fields.length ++
        " fields — it must have exactly " ++ toString CRON_FIELDS ++
        " (`<min> <hour> <day-of-month> <month> <day-of-week>`). " ++
        "Six-field (seconds) and Quartz extensions are not supported.")
    else .ok (joinFields fields, joinFields fields)

def CronExpr.parse (input : String) : Except String CronExpr :=
  let trimmed := trim input.toList
  let len := (String.ofList trimmed).utf8ByteSize
  if trimmed = [] then
    .error ("the cron expression is empty — write five fields (`<min> <hour> " ++
      "<day-of-month> <month> <day-of-week>`) or an alias (`@hourly`, " ++
      "`@daily`).")
  else if MAX_EXPR_LEN < len then
    .error ("the cron expression is too long (" ++ toString len ++
      " chars) — keep it at most " ++ toString MAX_EXPR_LEN ++ ".")
  else do
    let (fieldsSource, raw) ← expand trimmed
    match splitWhitespace fieldsSource with
    | [minute, hour, dom, month, dow] => do
        let minute ← parseField minute RANGE_MINUTE
        let hour ← parseField hour RANGE_HOUR
        let dom ← parseField dom RANGE_DOM
        let month ← parseField month RANGE_MONTH
        let dowRaw ← parseField dow RANGE_DOW
        let dow := foldSunday dowRaw
        pure
          { raw := String.ofList raw
            minute := minute
            hour := hour
            dom := dom
            month := month
            dow := dow
            domRestricted := !isFull dom RANGE_DOM.min RANGE_DOM.max
            dowRestricted := !isFull dow RANGE_DOW.min DOW_MAX_NORMALIZED
            dom_full := rfl
            dow_full := rfl }
    | _ => .error "index out of bounds"

section Raw

open Fallible

variable {input other : String} {e : CronExpr}

/-- A text is read by what it expands to. -/
theorem parse_of_expand
    (hexpand : expand (trim other.toList) = expand (trim input.toList))
    (hother : trim other.toList ≠ [])
    (hlen : size (trim other.toList) ≤ MAX_EXPR_LEN)
    (hparse : CronExpr.parse input = .ok e) : CronExpr.parse other = .ok e := by
  rw [CronExpr.parse] at hparse ⊢
  simp only at hparse ⊢
  split at hparse
  next => cases hparse
  next =>
    split at hparse
    next => cases hparse
    next =>
      have hshort : ¬ MAX_EXPR_LEN <
          (String.ofList (trim other.toList)).utf8ByteSize := not_lt.mpr hlen
      rw [if_neg hother, if_neg hshort, hexpand]
      exact hparse

theorem raw_of_parse (hparse : CronExpr.parse input = .ok e) :
    trim input.toList ≠ [] ∧ size (trim input.toList) ≤ MAX_EXPR_LEN ∧
      ∃ source raw, expand (trim input.toList) = .ok (source, raw) ∧
        e.raw = String.ofList raw := by
  rw [CronExpr.parse] at hparse
  simp only at hparse
  split at hparse
  next => cases hparse
  next hne =>
    split at hparse
    next => cases hparse
    next hlen =>
      obtain ⟨⟨source, raw⟩, hexpand, hparse⟩ := bind_eq_ok.mp hparse
      refine ⟨hne, not_lt.mp hlen, source, raw, hexpand, ?_⟩
      simp only at hparse
      split at hparse
      next =>
        obtain ⟨_, -, hparse⟩ := bind_eq_ok.mp hparse
        obtain ⟨_, -, hparse⟩ := bind_eq_ok.mp hparse
        obtain ⟨_, -, hparse⟩ := bind_eq_ok.mp hparse
        obtain ⟨_, -, hparse⟩ := bind_eq_ok.mp hparse
        obtain ⟨_, -, hparse⟩ := bind_eq_ok.mp hparse
        cases hparse
        rfl
      next => cases hparse

/-- An expression is read again from what it keeps of its text. -/
theorem parse_raw (hparse : CronExpr.parse input = .ok e) :
    CronExpr.parse e.raw = .ok e := by
  obtain ⟨hne, hlen, source, raw, hexpand, hraw⟩ := raw_of_parse hparse
  have htoList : e.raw.toList = raw := by
    rw [hraw, String.toList_ofList]
  obtain ⟨c, text, htext⟩ := List.exists_cons_of_ne_nil hne
  have hc : isWhitespace c = false :=
    trim_head input.toList c (by rw [htext]; rfl)
  by_cases halias : (trim input.toList).head? = some '@'
  · have hkept : raw = trim input.toList := by
      rw [expand, if_pos halias] at hexpand
      cases hexpanded : expandAlias (trim input.toList) with
      | error _ =>
          rw [hexpanded] at hexpand
          cases hexpand
      | ok fields =>
          rw [hexpanded] at hexpand
          exact (Prod.ext_iff.mp (Except.ok.inj hexpand)).2.symm
    have htrim : trim e.raw.toList = trim input.toList := by
      rw [htoList, hkept, trim_trim]
    rw [← htrim] at hne hlen
    exact parse_of_expand (congrArg expand htrim) hne hlen hparse
  · obtain ⟨word, words, hwords⟩ := splitWhitespace_cons hc text
    rw [← htext] at hwords
    have hjoined : raw = joinFields (splitWhitespace (trim input.toList)) ∧
        (splitWhitespace (trim input.toList)).length = CRON_FIELDS := by
      rw [expand, if_neg halias] at hexpand
      simp only at hexpand
      split at hexpand
      next => cases hexpand
      next hcount =>
        exact ⟨(Prod.ext_iff.mp (Except.ok.inj hexpand)).2.symm,
          not_not.mp hcount⟩
    have hfields : ∀ word ∈ splitWhitespace (trim input.toList), Word word :=
      fun _ => splitWhitespace_words
    have htrim : trim e.raw.toList =
        joinFields (splitWhitespace (trim input.toList)) := by
      rw [htoList, hjoined.1, joinFields, trim_intercalate hfields]
    have hhead : (joinFields (splitWhitespace (trim input.toList))).head? =
        some c := by
      rw [hwords] at hfields ⊢
      exact head_intercalate (hfields _ List.mem_cons_self) words
    have hsame : expand (trim e.raw.toList) = expand (trim input.toList) := by
      have hplain : ¬ some c = some '@' := by
        rw [htext] at halias
        exact halias
      have hagain := splitWhitespace_intercalate hfields
      rw [htrim, expand, expand, if_neg halias, hhead, if_neg hplain]
      simp only [joinFields, hagain]
    refine parse_of_expand hsame ?_ ?_ hparse
    · rw [htrim]
      intro hnil
      rw [hnil] at hhead
      cases hhead
    · rw [htrim]
      refine (size_intercalate_splitWhitespace ?_).trans hlen
      rw [hwords]
      exact List.cons_ne_nil _ _

end Raw

end Parsing

namespace CronExpr

variable (e : CronExpr)

/-- Where both fields of the day are restricted, one of them is enough. -/
def matchesDate (day : Int) : Bool :=
  if !contains e.month (dateOf day).month then false
  else
    let domHit := contains e.dom (dateOf day).day
    let dowHit := contains e.dow (weekdayFromSunday day)
    if e.domRestricted && e.dowRestricted then domHit || dowHit
    else domHit && dowHit

/-- The first minute of an hour that is not before `start`. -/
def firstMinuteIn (start hour : Nat) : Option Nat :=
  if !contains e.hour hour then none
  else
    match firstAtOrAfter e.minute (start - hour * MINUTES_PER_HOUR)
        RANGE_MINUTE.max with
    | none => none
    | some minute =>
        let total := hour * MINUTES_PER_HOUR + minute
        if total < MINUTES_PER_DAY then some total else none

/-- The first minute of a day from `start` on. -/
def firstMinuteAtOrAfter (start : Nat) : Option Nat :=
  match firstAtOrAfter e.hour (start / MINUTES_PER_HOUR) RANGE_HOUR.max with
  | none => none
  | some first =>
      (List.range' first (RANGE_HOUR.max + 1 - first)).findSome?
        (e.firstMinuteIn start)

/-- The loop of `nextAfter`: only the first day starts later than at 00:00. -/
def search : (days : Nat) → (date : Int) → (floorMinutes : Nat) → Option Int
  | 0, _, _ => none
  | days + 1, date, floorMinutes =>
      match if e.matchesDate date then e.firstMinuteAtOrAfter floorMinutes
          else none with
      | some minutes =>
          some (date * DAY + (minutes / MINUTES_PER_HOUR : Nat) * HOUR +
            (minutes % MINUTES_PER_HOUR : Nat) * MINUTE)
      | none => search days (date + 1) 0

def nextAfter (after : Int) : Option Int :=
  let floor := startOfMinute after + MINUTE
  e.search MAX_DAYS_AHEAD (dayOf floor)
    (hourOf floor * MINUTES_PER_HOUR + minuteOf floor)

/-- An instant that the expression names. -/
def Occurs (t : Int) : Prop :=
  t % MINUTE = 0 ∧ e.matchesDate (dayOf t) = true ∧
    contains e.hour (hourOf t) = true ∧ contains e.minute (minuteOf t) = true

variable {e}

theorem firstAtOrAfter_first (set : BitVec 64) (start max : Nat) :
    First {value | start ≤ value ∧ value ≤ max ∧ contains set value = true}
      (firstAtOrAfter set start max) := by
  rw [firstAtOrAfter]
  cases hfound : (List.range' start (max + 1 - start)).find? (contains set) with
  | none =>
      rw [List.find?_range'_eq_none] at hfound
      apply Set.eq_empty_iff_forall_notMem.mpr
      rintro value ⟨hlow, hhigh, hvalue⟩
      have hnot := hfound value hlow (by omega)
      rw [hvalue] at hnot
      cases hnot
  | some found =>
      rw [List.find?_range'_eq_some] at hfound
      obtain ⟨hvalue, hmem, hbefore⟩ := hfound
      rw [List.mem_range'_1] at hmem
      refine ⟨⟨hmem.1, by omega, hvalue⟩, ?_⟩
      rintro other ⟨hlow, hhigh, hother⟩
      by_contra hlt
      have hnot := hbefore other hlow (not_le.mp hlt)
      rw [hother] at hnot
      cases hnot

theorem findSome?_range' {β : Type*} {f : Nat → Option β} {start count : Nat}
    {found : β} (hfound : (List.range' start count).findSome? f = some found) :
    ∃ index, start ≤ index ∧ index < start + count ∧ f index = some found ∧
      ∀ other, start ≤ other → other < index → f other = none := by
  induction count generalizing start with
  | zero => cases hfound
  | succ count ih =>
      rw [List.range'_succ, List.findSome?_cons] at hfound
      cases hfirst : f start with
      | some value =>
          rw [hfirst] at hfound
          exact ⟨start, le_refl start, by omega, hfirst.trans hfound,
            fun other hlow hhigh => absurd hhigh (not_lt.mpr hlow)⟩
      | none =>
          rw [hfirst] at hfound
          obtain ⟨index, hlow, hhigh, hindex, hbefore⟩ := ih hfound
          refine ⟨index, by omega, by omega, hindex, fun other hother hlt => ?_⟩
          rcases hother.eq_or_lt with rfl | hother
          · exact hfirst
          · exact hbefore other hother hlt

/-- The minutes of a day that the fields allow. -/
def Minute (e : CronExpr) (minutes : Nat) : Prop :=
  minutes < MINUTES_PER_DAY ∧
    contains e.hour (minutes / MINUTES_PER_HOUR) = true ∧
      contains e.minute (minutes % MINUTES_PER_HOUR) = true

theorem firstMinuteIn_first (e : CronExpr) (start : Nat) {hour : Nat}
    (hhour : hour ≤ RANGE_HOUR.max) :
    First {minutes | start ≤ minutes ∧ e.Minute minutes ∧
        minutes / MINUTES_PER_HOUR = hour}
      (e.firstMinuteIn start hour) := by
  have hfirst := firstAtOrAfter_first e.minute (start - hour * MINUTES_PER_HOUR)
    RANGE_MINUTE.max
  rw [firstMinuteIn]
  cases hin : contains e.hour hour with
  | false =>
      apply Set.eq_empty_iff_forall_notMem.mpr
      rintro minutes ⟨-, ⟨-, hhours, -⟩, rfl⟩
      rw [hin] at hhours
      cases hhours
  | true =>
      have hperHour : MINUTES_PER_HOUR = 60 := rfl
      have hperDay : MINUTES_PER_DAY = 1440 := rfl
      have hlastHour : RANGE_HOUR.max = 23 := rfl
      have hlastMinute : RANGE_MINUTE.max = 59 := rfl
      rw [Bool.not_true, if_neg Bool.false_ne_true]
      split
      next hnone =>
        rw [hnone] at hfirst
        apply Set.eq_empty_iff_forall_notMem.mpr
        rintro minutes ⟨hstart, ⟨hday, -, hminute⟩, hsame⟩
        apply Set.eq_empty_iff_forall_notMem.mp hfirst
          (minutes % MINUTES_PER_HOUR)
        refine ⟨?_, ?_, hminute⟩
        · rw [hperHour] at *
          omega
        · rw [hperHour, hlastMinute]
          omega
      next minute hsome =>
        rw [hsome] at hfirst
        obtain ⟨⟨hlow, hhigh, hminute⟩, hleast⟩ := hfirst
        have hplace : (hour * MINUTES_PER_HOUR + minute) % MINUTES_PER_HOUR =
            minute := by
          rw [hperHour]
          omega
        have hhours : (hour * MINUTES_PER_HOUR + minute) / MINUTES_PER_HOUR =
            hour := by
          rw [hperHour]
          omega
        have htotal : hour * MINUTES_PER_HOUR + minute < MINUTES_PER_DAY := by
          rw [hperHour, hperDay]
          omega
        simp only [htotal, if_true]
        refine ⟨⟨by omega, ⟨htotal, ?_, ?_⟩, hhours⟩, ?_⟩
        · rwa [hhours]
        · rwa [hplace]
        · rintro other ⟨hother, ⟨-, -, hallowed⟩, hsame⟩
          have hsplit := Nat.div_add_mod other MINUTES_PER_HOUR
          have hshort : other % MINUTES_PER_HOUR ≤ RANGE_MINUTE.max := by
            rw [hperHour, hlastMinute]
            omega
          rw [hsame, Nat.mul_comm] at hsplit
          have hle := @hleast (other % MINUTES_PER_HOUR)
            ⟨by omega, hshort, hallowed⟩
          omega

theorem firstMinuteAtOrAfter_first (e : CronExpr) (start : Nat) :
    First {minutes | start ≤ minutes ∧ e.Minute minutes}
      (e.firstMinuteAtOrAfter start) := by
  have hhours := firstAtOrAfter_first e.hour (start / MINUTES_PER_HOUR)
    RANGE_HOUR.max
  have hlast : ∀ minutes, e.Minute minutes →
      minutes / MINUTES_PER_HOUR ≤ RANGE_HOUR.max := by
    rintro minutes ⟨hday, -⟩
    simp only [MINUTES_PER_DAY, MINUTES_PER_HOUR, RANGE_HOUR] at *
    omega
  have hstarts : ∀ minutes, start ≤ minutes →
      start / MINUTES_PER_HOUR ≤ minutes / MINUTES_PER_HOUR :=
    fun minutes hle => Nat.div_le_div_right hle
  rw [firstMinuteAtOrAfter]
  split
  next hnone =>
    rw [hnone] at hhours
    apply Set.eq_empty_iff_forall_notMem.mpr
    rintro minutes ⟨hstart, hminute⟩
    exact Set.eq_empty_iff_forall_notMem.mp hhours _
      ⟨hstarts minutes hstart, hlast minutes hminute, hminute.2.1⟩
  next first hsome =>
    rw [hsome] at hhours
    obtain ⟨⟨hlow, hhigh, -⟩, hleast⟩ := hhours
    have hfirstLe : ∀ minutes, start ≤ minutes → e.Minute minutes →
        first ≤ minutes / MINUTES_PER_HOUR := fun minutes hstart hminute =>
      hleast ⟨hstarts minutes hstart, hlast minutes hminute, hminute.2.1⟩
    cases hfound : (List.range' first (RANGE_HOUR.max + 1 - first)).findSome?
        (e.firstMinuteIn start) with
    | none =>
        rw [List.findSome?_eq_none_iff] at hfound
        apply Set.eq_empty_iff_forall_notMem.mpr
        rintro minutes ⟨hstart, hminute⟩
        have hle := hlast minutes hminute
        have hnone := hfound (minutes / MINUTES_PER_HOUR)
          (List.mem_range'_1.mpr ⟨hfirstLe minutes hstart hminute, by omega⟩)
        have hin := firstMinuteIn_first e start hle
        rw [hnone] at hin
        exact Set.eq_empty_iff_forall_notMem.mp hin minutes
          ⟨hstart, hminute, rfl⟩
    | some found =>
        obtain ⟨hour, hlow, hhigh, hhour, hbefore⟩ := findSome?_range' hfound
        have hin := firstMinuteIn_first e start
          (show hour ≤ RANGE_HOUR.max by omega)
        rw [hhour] at hin
        obtain ⟨⟨hstart, hminute, hsame⟩, hleastIn⟩ := hin
        refine ⟨⟨hstart, hminute⟩, ?_⟩
        rintro other ⟨hother, hallowed⟩
        rcases lt_trichotomy (other / MINUTES_PER_HOUR) hour with
          hlt | heq | hgt
        · have hnone := hbefore _ (hfirstLe other hother hallowed) hlt
          have hempty := firstMinuteIn_first e start (hlast other hallowed)
          rw [hnone] at hempty
          exact absurd ⟨hother, hallowed, rfl⟩
            (Set.eq_empty_iff_forall_notMem.mp hempty other)
        · exact hleastIn ⟨hother, hallowed, heq⟩
        · simp only [MINUTES_PER_HOUR] at hsame hgt
          omega

/-- The instant of a minute of a day. -/
def instant (date : Int) (minutes : Nat) : Int :=
  date * DAY + minutes * MINUTE

theorem instant_eq (date : Int) (minutes : Nat) :
    date * DAY + (minutes / MINUTES_PER_HOUR : Nat) * HOUR +
        (minutes % MINUTES_PER_HOUR : Nat) * MINUTE =
      instant date minutes := by
  simp only [instant, MINUTES_PER_HOUR, HOUR, MINUTE]
  omega

theorem instant_lt {date later : Int} {minutes others : Nat}
    (hdate : date < later) (hminutes : minutes < MINUTES_PER_DAY) :
    instant date minutes < instant later others := by
  simp only [instant, MINUTES_PER_DAY, DAY, HOUR, MINUTE] at *
  omega

theorem instant_le_instant {date : Int} {minutes others : Nat} :
    instant date minutes ≤ instant date others ↔ minutes ≤ others := by
  simp only [instant, MINUTE]
  omega

theorem occurs_iff {t : Int} : e.Occurs t ↔ ∃ date minutes,
    t = instant date minutes ∧ e.matchesDate date = true ∧
      e.Minute minutes := by
  constructor
  · rintro ⟨haligned, hdate, hhour, hminute⟩
    have hhours : (t % DAY / MINUTE).toNat / MINUTES_PER_HOUR = hourOf t := by
      simp only [hourOf, MINUTES_PER_HOUR, DAY, HOUR, MINUTE]
      omega
    have hminutes : (t % DAY / MINUTE).toNat % MINUTES_PER_HOUR =
        minuteOf t := by
      simp only [minuteOf, MINUTES_PER_HOUR, DAY, HOUR, MINUTE]
      omega
    refine ⟨dayOf t, (t % DAY / MINUTE).toNat, ?_, hdate, ?_, ?_, ?_⟩
    · simp only [instant, dayOf, DAY, HOUR, MINUTE] at *
      omega
    · simp only [MINUTES_PER_DAY, DAY, HOUR, MINUTE]
      omega
    · rwa [hhours]
    · rwa [hminutes]
  · rintro ⟨date, minutes, rfl, hdate, hday, hhour, hminute⟩
    have hdateOf : dayOf (instant date minutes) = date := by
      simp only [instant, dayOf, MINUTES_PER_DAY, DAY, HOUR, MINUTE] at *
      omega
    have hhours : hourOf (instant date minutes) = minutes / MINUTES_PER_HOUR := by
      simp only [instant, hourOf, MINUTES_PER_DAY, MINUTES_PER_HOUR, DAY, HOUR,
        MINUTE] at *
      omega
    have hminutes : minuteOf (instant date minutes) =
        minutes % MINUTES_PER_HOUR := by
      simp only [instant, minuteOf, MINUTES_PER_DAY, MINUTES_PER_HOUR, DAY,
        HOUR, MINUTE] at *
      omega
    refine ⟨?_, ?_, ?_, ?_⟩
    · simp only [instant, DAY, HOUR, MINUTE]
      omega
    · rwa [hdateOf]
    · rwa [hhours]
    · rwa [hminutes]

theorem search_first (e : CronExpr) (days : Nat) (date : Int)
    {floorMinutes : Nat} (hfloor : floorMinutes < MINUTES_PER_DAY) :
    First {t | e.Occurs t ∧ instant date floorMinutes ≤ t ∧
        t < instant (date + days) 0}
      (e.search days date floorMinutes) := by
  induction days generalizing date floorMinutes with
  | zero =>
      apply Set.eq_empty_iff_forall_notMem.mpr
      rintro t ⟨-, hlow, hhigh⟩
      simp only [instant, DAY, HOUR, MINUTE] at hlow hhigh
      omega
  | succ days ih =>
      rw [CronExpr.search]
      split
      next minutes hfound =>
        have hdate : e.matchesDate date = true := by
          by_contra hnot
          rw [if_neg hnot] at hfound
          cases hfound
        have hfirst := firstMinuteAtOrAfter_first e floorMinutes
        rw [if_pos hdate] at hfound
        rw [hfound] at hfirst
        obtain ⟨⟨hfloor, hminute⟩, hleast⟩ := hfirst
        rw [instant_eq]
        refine ⟨⟨occurs_iff.mpr ⟨date, minutes, rfl, hdate, hminute⟩,
          instant_le_instant.mpr hfloor, instant_lt (by omega) hminute.1⟩, ?_⟩
        rintro t ⟨hoccurs, hlow, -⟩
        obtain ⟨other, others, rfl, -, hallowed⟩ := occurs_iff.mp hoccurs
        rcases lt_trichotomy other date with hlt | rfl | hgt
        · exact absurd hlow (not_le.mpr (instant_lt hlt hallowed.1))
        · rw [instant_le_instant] at hlow ⊢
          exact hleast ⟨hlow, hallowed⟩
        · exact le_of_lt (instant_lt hgt hminute.1)
      next hnone =>
        have hsame : {t | e.Occurs t ∧ instant date floorMinutes ≤ t ∧
              t < instant (date + (days + 1 : Nat)) 0} =
            {t | e.Occurs t ∧ instant (date + 1) 0 ≤ t ∧
              t < instant (date + 1 + days) 0} := by
          have hlimit : date + (days + 1 : Nat) = date + 1 + days := by
            push_cast
            omega
          rw [hlimit]
          ext t
          refine and_congr_right fun hoccurs => and_congr_left fun _ => ?_
          obtain ⟨other, others, rfl, hdate, hallowed⟩ := occurs_iff.mp hoccurs
          rcases lt_trichotomy other date with hlt | rfl | hgt
          · have hnext : other < date + 1 := by omega
            exact iff_of_false (not_le.mpr (instant_lt hlt hallowed.1))
              (not_le.mpr (instant_lt hnext hallowed.1))
          · rw [if_pos hdate] at hnone
            have hfirst := firstMinuteAtOrAfter_first e floorMinutes
            rw [hnone] at hfirst
            have hnext : other < other + 1 := by omega
            refine iff_of_false ?_ (not_le.mpr (instant_lt hnext hallowed.1))
            intro hle
            exact Set.eq_empty_iff_forall_notMem.mp hfirst others
              ⟨instant_le_instant.mp hle, hallowed⟩
          · refine iff_of_true (le_of_lt (instant_lt hgt hfloor)) ?_
            simp only [instant, DAY, HOUR, MINUTE]
            omega
        rw [hsame]
        exact ih (date + 1) (by decide)

/-- The occurrences of the next days are found. -/
theorem nextAfter_first (e : CronExpr) (after : Int) :
    First {t | e.Occurs t ∧ after < t ∧
        dayOf t < dayOf (startOfMinute after + MINUTE) + MAX_DAYS_AHEAD}
      (e.nextAfter after) := by
  have hfloor : hourOf (startOfMinute after + MINUTE) * MINUTES_PER_HOUR +
      minuteOf (startOfMinute after + MINUTE) < MINUTES_PER_DAY := by
    simp only [hourOf, minuteOf, MINUTES_PER_HOUR, MINUTES_PER_DAY, DAY, HOUR,
      MINUTE]
    omega
  have hstart : instant (dayOf (startOfMinute after + MINUTE))
      (hourOf (startOfMinute after + MINUTE) * MINUTES_PER_HOUR +
        minuteOf (startOfMinute after + MINUTE)) =
      startOfMinute after + MINUTE := by
    simp only [instant, dayOf, hourOf, minuteOf, startOfMinute,
      MINUTES_PER_HOUR, DAY, HOUR, MINUTE]
    omega
  have hfirst := search_first e MAX_DAYS_AHEAD
    (dayOf (startOfMinute after + MINUTE)) hfloor
  rw [hstart] at hfirst
  have hsame : {t | e.Occurs t ∧ after < t ∧
        dayOf t < dayOf (startOfMinute after + MINUTE) + MAX_DAYS_AHEAD} =
      {t | e.Occurs t ∧ startOfMinute after + MINUTE ≤ t ∧
        t < instant (dayOf (startOfMinute after + MINUTE) +
          MAX_DAYS_AHEAD) 0} := by
    ext t
    refine and_congr_right fun hoccurs => and_congr ?_ ?_
    · have haligned := hoccurs.1
      simp only [startOfMinute, MINUTE] at *
      omega
    · simp only [instant, dayOf, DAY, HOUR, MINUTE]
      omega
  rw [hsame]
  exact hfirst

section Dates

theorem getLsbD_full (min max value : Nat) :
    (full min max).getLsbD value =
      (decide (value < 64) && decide (min ≤ value ∧ value ≤ max)) := by
  have hmem : value ∈ List.range' min (max + 1 - min) ↔
      min ≤ value ∧ value ≤ max := by
    rw [List.mem_range'_1]
    omega
  rw [full, getLsbD_foldl_insert, BitVec.getLsbD_zero, Bool.false_or]
  congr 1
  exact decide_eq_decide.mpr hmem

theorem contains_dom (hfull : e.domRestricted = false) {day : Nat}
    (hlow : 1 ≤ day) (hhigh : day ≤ 31) : contains e.dom day = true := by
  have hdom : e.dom = full RANGE_DOM.min RANGE_DOM.max := by
    rw [e.dom_full, Bool.not_eq_false'] at hfull
    exact of_decide_eq_true hfull
  rw [contains_eq_getLsbD, hdom, getLsbD_full]
  simp only [RANGE_DOM, hlow, hhigh, and_self, decide_true, Bool.and_true,
    decide_eq_true_eq]
  omega

theorem contains_dow (hfull : e.dowRestricted = false) {weekday : Nat}
    (hweekday : weekday < 7) : contains e.dow weekday = true := by
  have hdow : e.dow = full RANGE_DOW.min DOW_MAX_NORMALIZED := by
    rw [e.dow_full, Bool.not_eq_false'] at hfull
    exact of_decide_eq_true hfull
  rw [contains_eq_getLsbD, hdow, getLsbD_full]
  rw [Bool.and_eq_true, decide_eq_true_eq, decide_eq_true_eq]
  exact ⟨by omega, Nat.zero_le weekday, Nat.lt_succ_iff.mp hweekday⟩

theorem weekdayFromSunday_lt (day : Int) : weekdayFromSunday day < 7 := by
  rw [weekdayFromSunday]
  omega

theorem day_le (day : Int) : 1 ≤ (dateOf day).day ∧ (dateOf day).day ≤ 31 := by
  have hlong : ∀ leap : Bool, ∀ length ∈ monthLengths leap, length ≤ 31 := by
    decide
  obtain ⟨length, hlength, hday⟩ := (dateOf day).day_le
  have hle := hlong _ length (List.mem_of_getElem? hlength)
  exact ⟨(dateOf day).day_pos, hday.trans hle⟩

theorem matchesDate_iff {day : Int} :
    e.matchesDate day = true ↔
      contains e.month (dateOf day).month = true ∧
        if e.domRestricted && e.dowRestricted then
          contains e.dom (dateOf day).day = true ∨
            contains e.dow (weekdayFromSunday day) = true
        else contains e.dom (dateOf day).day = true ∧
          contains e.dow (weekdayFromSunday day) = true := by
  rw [matchesDate]
  cases hmonth : contains e.month (dateOf day).month with
  | false => simp
  | true =>
      simp only [Bool.not_true, Bool.false_eq_true, if_false, true_and]
      split
      · rw [Bool.or_eq_true]
      · rw [Bool.and_eq_true]

/-- The day of the month decides: unless the day of the week alone does. -/
theorem matchesDate_of_dom (hrule : e.dowRestricted = true → e.domRestricted = true)
    {day : Int} (hmonth : contains e.month (dateOf day).month = true)
    (hday : contains e.dom (dateOf day).day = true) :
    e.matchesDate day = true := by
  refine matchesDate_iff.mpr ⟨hmonth, ?_⟩
  cases hdow : e.dowRestricted with
  | false =>
      rw [Bool.and_false, if_neg Bool.false_ne_true]
      exact ⟨hday, contains_dow hdow (weekdayFromSunday_lt day)⟩
  | true =>
      rw [hrule hdow, Bool.and_self, if_pos rfl]
      exact Or.inl hday

theorem matchesDate_of_dow (hrule : e.domRestricted = true → e.dowRestricted = true)
    {day : Int} (hmonth : contains e.month (dateOf day).month = true)
    (hdow : contains e.dow (weekdayFromSunday day) = true) :
    e.matchesDate day = true := by
  refine matchesDate_iff.mpr ⟨hmonth, ?_⟩
  cases hdom : e.domRestricted with
  | false =>
      rw [Bool.false_and, if_neg Bool.false_ne_true]
      exact ⟨contains_dom hdom (day_le day).1 (day_le day).2, hdow⟩
  | true =>
      rw [hrule hdom, Bool.and_self, if_pos rfl]
      exact Or.inr hdow

/-- A date matches by its day of the month, or by its day of the week. -/
theorem matchesDate_cases {day : Int} (hmatch : e.matchesDate day = true) :
    (contains e.dom (dateOf day).day = true ∧
        (e.dowRestricted = true → e.domRestricted = true)) ∨
      contains e.dow (weekdayFromSunday day) = true ∧
        (e.domRestricted = true → e.dowRestricted = true) := by
  obtain ⟨-, hrule⟩ := matchesDate_iff.mp hmatch
  cases hdom : e.domRestricted <;> cases hdow : e.dowRestricted <;>
    simp only [hdom, hdow, Bool.and_self, Bool.and_false, Bool.false_and,
      Bool.false_eq_true, if_false, if_true] at hrule
  · exact Or.inl ⟨hrule.1, fun h => h⟩
  · exact Or.inr ⟨hrule.2, fun h => absurd h Bool.false_ne_true⟩
  · exact Or.inl ⟨hrule.1, fun h => absurd h Bool.false_ne_true⟩
  · exact hrule.imp (fun h => ⟨h, fun h => h⟩) (fun h => ⟨h, fun h => h⟩)

theorem month_le (day : Int) : 1 ≤ (dateOf day).month ∧ (dateOf day).month ≤ 12 := by
  obtain ⟨length, hlength, -⟩ := (dateOf day).day_le
  obtain ⟨hlt, -⟩ := List.getElem?_eq_some_iff.mp hlength
  have hcount : (monthLengths (isLeap (dateOf day).year)).length = 12 := rfl
  exact ⟨(dateOf day).month_pos, by omega⟩

/-- What matches by its day of the week comes again within a year and a week. -/
theorem exists_match_of_dow {date : Int}
    (hmonth : contains e.month (dateOf date).month = true) {weekday : Nat}
    (hweekday : weekday < 7) (hdow : contains e.dow weekday = true)
    (hrule : e.domRestricted = true → e.dowRestricted = true) (n : Int) :
    ∃ k : Nat, 1 ≤ k ∧ k ≤ 374 ∧ e.matchesDate (n + k) = true := by
  obtain ⟨k, hlow, hhigh, hsame, -, hday⟩ :=
    exists_weekday (month_le date) hweekday n
  refine ⟨k, hlow, hhigh, matchesDate_of_dow hrule ?_ ?_⟩
  · rwa [hsame]
  · rwa [hday]

theorem exists_match_of_dom {month day : Nat} (hyearly : Yearly month day)
    (hmonth : contains e.month month = true)
    (hdom : contains e.dom day = true)
    (hrule : e.dowRestricted = true → e.domRestricted = true) (n : Int) :
    ∃ k : Nat, 1 ≤ k ∧ k ≤ 374 ∧ e.matchesDate (n + k) = true := by
  obtain ⟨k, hlow, hhigh, hsame, hday⟩ := exists_yearly hyearly n
  refine ⟨k, hlow, by omega, matchesDate_of_dom hrule ?_ ?_⟩
  · rwa [hsame]
  · rwa [hday]

/-- A date that matches comes again before the search ends. -/
theorem exists_match {date : Int} (hmatch : e.matchesDate date = true)
    (n : Int) :
    ∃ k : Nat, 1 ≤ k ∧ k < MAX_DAYS_AHEAD ∧ e.matchesDate (n + k) = true := by
  have hmonth := (matchesDate_iff.mp hmatch).1
  have hahead : MAX_DAYS_AHEAD = 3300 := rfl
  rcases matchesDate_cases hmatch with ⟨hdom, hrule⟩ | ⟨hdow, hrule⟩
  · rcases yearly_or_leapDay (dateOf date) with hyearly | hleap
    · obtain ⟨k, hlow, hhigh, hfound⟩ :=
        exists_match_of_dom hyearly hmonth hdom hrule n
      exact ⟨k, hlow, by omega, hfound⟩
    · obtain ⟨k, hlow, hhigh, hagain⟩ := exists_leapDay n
      refine ⟨k, hlow, by omega, matchesDate_of_dom hrule ?_ ?_⟩
      · rwa [hagain.1, ← hleap.1]
      · rwa [hagain.2, ← hleap.2]
  · obtain ⟨k, hlow, hhigh, hfound⟩ := exists_match_of_dow hmonth
      (weekdayFromSunday_lt date) hdow hrule n
    exact ⟨k, hlow, by omega, hfound⟩

end Dates

/-- Every next occurrence is found: no expression that has one leaves more days
between two of them than are searched. -/
theorem nextAfter_finds (e : CronExpr) : Finds e.Occurs e.nextAfter := by
  intro after
  have hfirst := nextAfter_first e after
  have hwithin : ∀ t, e.Occurs t → after < t → ∃ found,
      e.Occurs found ∧ after < found ∧ dayOf found <
        dayOf (startOfMinute after + MINUTE) + MAX_DAYS_AHEAD := by
    intro t hoccurs hlater
    obtain ⟨date, minutes, rfl, hdate, hminute⟩ := occurs_iff.mp hoccurs
    obtain ⟨k, hlow, hhigh, hmatch⟩ :=
      exists_match hdate (dayOf (startOfMinute after + MINUTE))
    refine ⟨instant (dayOf (startOfMinute after + MINUTE) + k) minutes,
      occurs_iff.mpr ⟨_, minutes, rfl, hmatch, hminute⟩, ?_, ?_⟩
    · simp only [instant, dayOf, startOfMinute, DAY, HOUR, MINUTE]
      omega
    · have hday := hminute.1
      simp only [instant, dayOf, MINUTES_PER_DAY, DAY, HOUR, MINUTE] at *
      omega
  cases hnext : e.nextAfter after with
  | none =>
      rw [hnext] at hfirst
      apply Set.eq_empty_iff_forall_notMem.mpr
      rintro t ⟨hoccurs, hlater⟩
      obtain ⟨found, hfound⟩ := hwithin t hoccurs hlater
      exact Set.eq_empty_iff_forall_notMem.mp hfirst found hfound
  | some found =>
      rw [hnext] at hfirst
      obtain ⟨⟨hoccurs, hlater, hday⟩, hleast⟩ := hfirst
      refine ⟨⟨hoccurs, hlater⟩, ?_⟩
      rintro t ⟨hother, hafter⟩
      by_contra hbefore
      have hdays : dayOf t ≤ dayOf found := by
        simp only [dayOf, DAY, HOUR, MINUTE] at *
        omega
      exact hbefore (hleast ⟨hother, hafter, hdays.trans_lt hday⟩)

end CronExpr

end Web

end XBackup
