/-
Where the two cron expressions of a text name the same instants, and where the
one looks further than the other.
-/
import XBackup.Foundation.Fallible
import XBackup.Schedule.CronExpr
import XBackup.Web.CronExpr

namespace XBackup

namespace Web

open Calendar Occurrences Schedule Fallible

section Terms

variable {term field raw : List Char} {range : FieldRange} {label what : String}
  {value first last step : Nat}

theorem parseNumber_eq_ok (hparse : parseNumber raw field label what = .ok value) :
    parseU32 raw = some value := by
  rw [parseNumber] at hparse
  split at hparse
  next => cases hparse
  next =>
    split at hparse
    next => cases hparse
    next =>
      split at hparse
      next found hfound =>
        cases hparse
        exact hfound
      next => cases hparse

theorem checkRange_eq_ok (hcheck : checkRange value field range = .ok ()) :
    range.min ≤ value ∧ value ≤ range.max := by
  rw [checkRange] at hcheck
  split at hcheck
  next => cases hcheck
  next hin => omega

theorem partStep_of_termStep {base : List Char}
    (hstep : termStep term field label = .ok (base, step)) :
    Schedule.CronExpr.partStep term = .ok (base, step) ∧ 0 < step := by
  rw [termStep] at hstep
  rw [Schedule.CronExpr.partStep]
  cases hsplit : splitOnceAt '/' term with
  | none =>
      rw [hsplit] at hstep
      cases hstep
      exact ⟨rfl, Nat.one_pos⟩
  | some parts =>
      rw [hsplit] at hstep
      obtain ⟨found, hparse, hstep⟩ := bind_eq_ok.mp hstep
      split at hstep
      next => cases hstep
      next hzero =>
        cases hstep
        simp only [parseNumber_eq_ok hparse, hzero, if_false]
        exact ⟨trivial, Nat.pos_of_ne_zero hzero⟩

theorem partBounds_of_termBounds {base : List Char}
    (hrange : range.min ≤ range.max)
    (hbounds : termBounds base field step range = .ok (first, last)) :
    Schedule.CronExpr.partBounds base step range.min range.max =
        .ok (first, last) ∧
      range.min ≤ first ∧ first ≤ last ∧ last ≤ range.max := by
  rw [termBounds] at hbounds
  rw [Schedule.CronExpr.partBounds]
  split at hbounds
  next hstar =>
    cases hbounds
    rw [if_pos hstar]
    exact ⟨rfl, le_refl _, hrange, le_refl _⟩
  next hstar =>
    rw [if_neg hstar]
    cases hsplit : splitOnceAt '-' base with
    | some parts =>
        rw [hsplit] at hbounds
        obtain ⟨lo, hlo, hbounds⟩ := bind_eq_ok.mp hbounds
        obtain ⟨hi, hhi, hbounds⟩ := bind_eq_ok.mp hbounds
        obtain ⟨⟨⟩, hcheckLo, hbounds⟩ := bind_eq_ok.mp hbounds
        obtain ⟨⟨⟩, hcheckHi, hbounds⟩ := bind_eq_ok.mp hbounds
        split at hbounds
        next => cases hbounds
        next horder =>
          cases hbounds
          simp only [parseNumber_eq_ok hlo, parseNumber_eq_ok hhi, horder,
            if_false]
          exact ⟨trivial, (checkRange_eq_ok hcheckLo).1, not_lt.mp horder,
            (checkRange_eq_ok hcheckHi).2⟩
    | none =>
        rw [hsplit] at hbounds
        obtain ⟨value, hvalue, hbounds⟩ := bind_eq_ok.mp hbounds
        obtain ⟨⟨⟩, hcheck, hbounds⟩ := bind_eq_ok.mp hbounds
        split at hbounds
        next => cases hbounds
        next hone =>
          cases hbounds
          simp only [parseNumber_eq_ok hvalue, not_not.mp hone, lt_irrefl,
            if_false]
          obtain ⟨hlow, hhigh⟩ := checkRange_eq_ok hcheck
          exact ⟨trivial, hlow, le_refl _, hhigh⟩

/-- What a term means to the console it means to the daemon. -/
theorem partRange_of_termRange (hrange : range.min ≤ range.max)
    (hterm : termRange term field range = .ok (first, last, step)) :
    Schedule.CronExpr.partRange term range.min range.max =
        .ok (first, last, step) ∧
      range.min ≤ first ∧ first ≤ last ∧ last ≤ range.max := by
  rw [termRange] at hterm
  split at hterm
  next => cases hterm
  next =>
    split at hterm
    next => cases hterm
    next =>
      obtain ⟨⟨base, found⟩, hstep, hterm⟩ := bind_eq_ok.mp hterm
      obtain ⟨⟨lo, hi⟩, hbounds, hterm⟩ := bind_eq_ok.mp hterm
      cases hterm
      obtain ⟨hsame, hlow, horder, hhigh⟩ :=
        partBounds_of_termBounds hrange hbounds
      refine ⟨?_, hlow, horder, hhigh⟩
      rw [Schedule.CronExpr.partRange, (partStep_of_termStep hstep).1]
      simp only [Except.bind, Bind.bind, hsame]
      rw [if_neg (by omega)]

theorem foldTerms_of_console (hrange : range.min ≤ range.max)
    (hword : range.max < 64) {terms : List (List Char)}
    {start set : BitVec 64}
    (hfold : terms.foldlM (parseTerm field range) start = .ok set) :
    terms.foldlM (Schedule.CronExpr.addPart range.min range.max) start =
        .ok set ∧
      (∀ value, start.getLsbD value = true → set.getLsbD value = true) ∧
      (∀ value, set.getLsbD value = true →
        start.getLsbD value = true ∨ value ≤ range.max) ∧
        (terms ≠ [] → ∃ value, range.min ≤ value ∧ value ≤ range.max ∧
          set.getLsbD value = true) := by
  induction terms generalizing start with
  | nil =>
      cases hfold
      exact ⟨rfl, fun value hvalue => hvalue, fun value hvalue => Or.inl hvalue,
        fun hsome => absurd rfl hsome⟩
  | cons term terms ih =>
      obtain ⟨middle, hterm, hrest⟩ := foldlM_cons_eq_ok.mp hfold
      obtain ⟨⟨first, last, step⟩, hbounds, hmiddle⟩ := bind_eq_ok.mp hterm
      cases hmiddle
      obtain ⟨hsame, hlow, horder, hhigh⟩ :=
        partRange_of_termRange hrange hbounds
      obtain ⟨hfound, hkeeps, hbounded, -⟩ := ih hrest
      refine ⟨foldlM_cons_eq_ok.mpr ⟨_, ?_, hfound⟩, ?_, ?_, ?_⟩
      · rw [Schedule.CronExpr.addPart, hsame]
        rfl
      · intro value hvalue
        exact hkeeps value (getLsbD_insertEvery_of hvalue)
      · intro value hvalue
        rcases hbounded value hvalue with hmiddle | hle
        · exact (getLsbD_insertEvery_cases hmiddle).imp_right
            fun hle => hle.trans hhigh
        · exact Or.inr hle
      · intro _
        exact ⟨first, hlow, horder.trans hhigh, hkeeps first
          (getLsbD_insertEvery_first horder (by omega))⟩

/-- A field that the console reads is one that the daemon reads, to the same
values, and it has one of its range. -/
theorem parseField_of_console (expr : String) {set : BitVec 64}
    (hrange : range.min ≤ range.max) (hword : range.max < 64)
    (hfield : parseField field range = .ok set) :
    Schedule.CronExpr.parseField field range.min range.max expr = .ok set ∧
      (∀ value, set.getLsbD value = true → value ≤ range.max) ∧
      ∃ value, range.min ≤ value ∧ value ≤ range.max ∧
        set.getLsbD value = true := by
  obtain ⟨hfold, -, hbounded, hsome⟩ := foldTerms_of_console hrange hword hfield
  obtain ⟨value, hlow, hhigh, hvalue⟩ :=
    hsome (List.splitOn_ne_nil _ _)
  refine ⟨?_, ?_, value, hlow, hhigh, hvalue⟩
  swap
  · intro other hother
    exact (hbounded other hother).resolve_left (by simp)
  have hne : set ≠ 0 := by
    rintro rfl
    cases hvalue.symm.trans (BitVec.getLsbD_zero)
  have hmask : Schedule.CronExpr.parseMask field range.min range.max =
      .ok set := bind_eq_ok.mpr ⟨set, hfold, if_neg hne⟩
  rw [Schedule.CronExpr.parseField, hmask]
  rfl

end Terms

/-- The fields of the daemon's expression and of the console's have the same
values, and a text that is a star leaves its field full. -/
structure SameFields (d : Schedule.CronExpr) (w : CronExpr) : Prop where
  minute : ∀ value, contains d.minutes value = contains w.minute value
  hour : ∀ value ≤ 23, contains d.hours value = contains w.hour value
  dom : ∀ value ≤ 31, contains d.dom value = contains w.dom value
  month : ∀ value ≤ 12, contains d.months value = contains w.month value
  dow : ∀ value ≤ 6, contains d.dow value = contains w.dow value
  dom_star : d.domIsWildcard = true → w.domRestricted = false
  dow_star : d.dowIsWildcard = true → w.dowRestricted = false
  minute_some : ∃ value ≤ 59, contains w.minute value = true
  hour_some : ∃ value ≤ 23, contains w.hour value = true
  month_some : ∃ value, 1 ≤ value ∧ value ≤ 12 ∧ contains w.month value = true
  dow_some : ∃ value ≤ 6, contains w.dow value = true
  dow_bounded : ∀ value, contains w.dow value = true → value ≤ 6

theorem getLsbD_foldl_if {values : List Nat} {move : Nat → Nat}
    {raw set : BitVec 64} {value : Nat} :
    (values.foldl (fun set other =>
        if contains raw other then insert set (move other) else set)
      set).getLsbD value = true ↔
      set.getLsbD value = true ∨
        value < 64 ∧ ∃ other ∈ values, raw.getLsbD other = true ∧
          move other = value := by
  induction values generalizing set with
  | nil => simp
  | cons other values ih =>
      rw [List.foldl_cons, ih, contains_eq_getLsbD]
      cases hraw : raw.getLsbD other with
      | false => simp [hraw]
      | true =>
          rw [if_pos rfl, getLsbD_insert]
          simp only [List.exists_mem_cons_iff, hraw, true_and, Bool.or_eq_true,
            Bool.and_eq_true, decide_eq_true_eq]
          tauto

theorem getLsbD_foldSunday (raw : BitVec 64) (value : Nat) :
    (foldSunday raw).getLsbD value = true ↔
      value ≤ 6 ∧ raw.getLsbD value = true ∨
        value = 0 ∧ raw.getLsbD 7 = true := by
  have hvalues : List.range' RANGE_DOW.min
      (RANGE_DOW.max + 1 - RANGE_DOW.min) = [0, 1, 2, 3, 4, 5, 6, 7] := rfl
  rw [foldSunday, hvalues, getLsbD_foldl_if, BitVec.getLsbD_zero]
  have hmax : RANGE_DOW.max = 7 := rfl
  constructor
  · rintro (hnone | ⟨-, other, hother, hraw, hmove⟩)
    · cases hnone
    · rw [hmax] at hmove
      by_cases hseven : other = 7
      · rw [if_pos hseven] at hmove
        rw [hseven] at hraw
        exact Or.inr ⟨hmove.symm, hraw⟩
      · rw [if_neg hseven] at hmove
        subst hmove
        simp only [List.mem_cons, List.not_mem_nil, or_false] at hother
        exact Or.inl ⟨by omega, hraw⟩
  · rintro (⟨hle, hraw⟩ | ⟨rfl, hraw⟩)
    · refine Or.inr ⟨by omega, value, ?_, hraw, ?_⟩
      · simp only [List.mem_cons, List.not_mem_nil, or_false]
        omega
      · rw [hmax, if_neg (by omega)]
    · exact Or.inr ⟨by decide, 7, by simp, hraw, rfl⟩

/-- The daemon's week, where seven is folded back by a shift. -/
theorem getLsbD_foldMask {raw : BitVec 64}
    (hbounded : ∀ value, raw.getLsbD value = true → value ≤ 7) {value : Nat}
    (hvalue : value ≤ 6) :
    (((raw &&& 0x7f#64) ||| (raw >>> 7)).setWidth 8).getLsbD value =
      (foldSunday raw).getLsbD value := by
  have hmask : (0x7f#64).getLsbD value = true := by
    interval_cases value <;> rfl
  rw [Bool.eq_iff_iff, getLsbD_foldSunday]
  simp only [BitVec.getLsbD_setWidth, BitVec.getLsbD_or, BitVec.getLsbD_and,
    BitVec.getLsbD_ushiftRight, hmask, Bool.and_true, Bool.and_eq_true,
    Bool.or_eq_true, decide_eq_true_eq]
  constructor
  · rintro ⟨-, hraw | hraw⟩
    · exact Or.inl ⟨hvalue, hraw⟩
    · have hle := hbounded _ hraw
      obtain rfl : value = 0 := by omega
      exact Or.inr ⟨rfl, hraw⟩
  · rintro (⟨-, hraw⟩ | ⟨rfl, hraw⟩)
    · exact ⟨by omega, Or.inl hraw⟩
    · exact ⟨by omega, Or.inr hraw⟩

/-- A text of five words is no alias. -/
theorem splitWhitespace_of_expand {trimmed source raw : List Char}
    {minute hour dom month dow : List Char}
    (hwords : splitWhitespace trimmed = [minute, hour, dom, month, dow])
    (hexpand : expand trimmed = .ok (source, raw)) :
    splitWhitespace source = [minute, hour, dom, month, dow] := by
  rw [expand] at hexpand
  split at hexpand
  next =>
    exfalso
    rw [expandAlias] at hexpand
    split at hexpand
    next halias =>
      have hone : splitWhitespace "@hourly".toList = ["@hourly".toList] := by
        decide
      rw [halias, hone] at hwords
      cases hwords
    next =>
      split at hexpand
      next halias =>
        have hone : splitWhitespace "@daily".toList = ["@daily".toList] := by
          decide
        rw [halias, hone] at hwords
        cases hwords
      next => cases hexpand
  next =>
    simp only [hwords] at hexpand
    split at hexpand
    next => cases hexpand
    next =>
      cases hexpand
      rw [joinFields, ← hwords]
      exact splitWhitespace_intercalate fun _ => splitWhitespace_words

theorem parse_console {expr : String} {w : CronExpr}
    {minute hour dom month dow : List Char}
    (hwords : splitWhitespace expr.toList = [minute, hour, dom, month, dow])
    (hparse : CronExpr.parse expr = .ok w) :
    parseField minute RANGE_MINUTE = .ok w.minute ∧
      parseField hour RANGE_HOUR = .ok w.hour ∧
      parseField dom RANGE_DOM = .ok w.dom ∧
      parseField month RANGE_MONTH = .ok w.month ∧
      ∃ raw, parseField dow RANGE_DOW = .ok raw ∧ w.dow = foldSunday raw := by
  rw [CronExpr.parse] at hparse
  simp only at hparse
  split at hparse
  next => cases hparse
  next =>
    split at hparse
    next => cases hparse
    next =>
      obtain ⟨⟨source, raw⟩, hexpand, hparse⟩ := bind_eq_ok.mp hparse
      rw [← splitWhitespace_trim] at hwords
      simp only [splitWhitespace_of_expand hwords hexpand] at hparse
      obtain ⟨minutes, hminutes, hparse⟩ := bind_eq_ok.mp hparse
      obtain ⟨hours, hhours, hparse⟩ := bind_eq_ok.mp hparse
      obtain ⟨days, hdays, hparse⟩ := bind_eq_ok.mp hparse
      obtain ⟨months, hmonths, hparse⟩ := bind_eq_ok.mp hparse
      obtain ⟨weekdays, hweekdays, hparse⟩ := bind_eq_ok.mp hparse
      cases hparse
      exact ⟨hminutes, hhours, hdays, hmonths, weekdays, hweekdays, rfl⟩

theorem parse_daemon {expr : String} {d : Schedule.CronExpr}
    (hparse : Schedule.CronExpr.parse expr = .ok d) :
    ∃ minute hour dom month dow minutes hours days months weekdays,
      splitWhitespace expr.toList = [minute, hour, dom, month, dow] ∧
      Schedule.CronExpr.parseField minute 0 59 expr = .ok minutes ∧
      Schedule.CronExpr.parseField hour 0 23 expr = .ok hours ∧
      Schedule.CronExpr.parseField dom 1 31 expr = .ok days ∧
      Schedule.CronExpr.parseField month 1 12 expr = .ok months ∧
      Schedule.CronExpr.parseField dow 0 7 expr = .ok weekdays ∧
      d = { minutes := minutes
            hours := hours.setWidth 32
            dom := days.setWidth 32
            months := months.setWidth 16
            dow := ((weekdays &&& 0x7f#64) ||| (weekdays >>> 7)).setWidth 8
            domIsWildcard := dom = ['*']
            dowIsWildcard := dow = ['*'] } := by
  rw [Schedule.CronExpr.parse] at hparse
  split at hparse
  next minute hour dom month dow hwords =>
    obtain ⟨minutes, hminutes, hparse⟩ := bind_eq_ok.mp hparse
    obtain ⟨hours, hhours, hparse⟩ := bind_eq_ok.mp hparse
    obtain ⟨days, hdays, hparse⟩ := bind_eq_ok.mp hparse
    obtain ⟨months, hmonths, hparse⟩ := bind_eq_ok.mp hparse
    obtain ⟨weekdays, hweekdays, hparse⟩ := bind_eq_ok.mp hparse
    cases hparse
    exact ⟨minute, hour, dom, month, dow, minutes, hours, days, months,
      weekdays, hwords, hminutes, hhours, hdays, hmonths, hweekdays, rfl⟩
  next => cases hparse

theorem contains_setWidth {width value : Nat} (set : BitVec 64)
    (hvalue : value < width) :
    contains (set.setWidth width) value = contains set value := by
  rw [contains_eq_getLsbD, contains_eq_getLsbD, BitVec.getLsbD_setWidth,
    decide_eq_true hvalue, Bool.true_and]

theorem parseField_star_dom :
    parseField ['*'] RANGE_DOM = .ok (full RANGE_DOM.min RANGE_DOM.max) := by
  rfl

theorem parseField_star_dow : ∃ raw,
    parseField ['*'] RANGE_DOW = .ok raw ∧
      foldSunday raw = full RANGE_DOW.min DOW_MAX_NORMALIZED :=
  ⟨full 0 7, rfl, by decide⟩

theorem sameFields_of_parse {expr : String} {d : Schedule.CronExpr} {w : CronExpr}
    (hdaemon : Schedule.CronExpr.parse expr = .ok d)
    (hconsole : CronExpr.parse expr = .ok w) : SameFields d w := by
  obtain ⟨minute, hour, dom, month, dow, minutes, hours, days, months, weekdays,
    hwords, hminutes, hhours, hdays, hmonths, hweekdays, rfl⟩ :=
    parse_daemon hdaemon
  obtain ⟨hminute, hhour, hdom, hmonth, raw, hdow, hfold⟩ :=
    parse_console hwords hconsole
  obtain ⟨hsameMinute, -, minuteValue, -, hminuteLe, hminuteIn⟩ :=
    parseField_of_console expr (by decide) (by decide) hminute
  obtain ⟨hsameHour, -, hourValue, -, hhourLe, hhourIn⟩ :=
    parseField_of_console expr (by decide) (by decide) hhour
  obtain ⟨hsameDom, -, -⟩ :=
    parseField_of_console expr (by decide) (by decide) hdom
  obtain ⟨hsameMonth, -, monthValue, hmonthLow, hmonthLe, hmonthIn⟩ :=
    parseField_of_console expr (by decide) (by decide) hmonth
  obtain ⟨hsameDow, hbounded, dowValue, -, hdowLe, hdowIn⟩ :=
    parseField_of_console expr (by decide) (by decide) hdow
  cases hminutes.symm.trans hsameMinute
  cases hhours.symm.trans hsameHour
  cases hdays.symm.trans hsameDom
  cases hmonths.symm.trans hsameMonth
  cases hweekdays.symm.trans hsameDow
  constructor
  · exact fun value => rfl
  · exact fun value hvalue => contains_setWidth _ (by omega)
  · exact fun value hvalue => contains_setWidth _ (by omega)
  · exact fun value hvalue => contains_setWidth _ (by omega)
  · intro value hvalue
    rw [contains_eq_getLsbD, contains_eq_getLsbD, hfold]
    exact getLsbD_foldMask hbounded hvalue
  · intro hstar
    rw [of_decide_eq_true hstar, parseField_star_dom] at hdom
    rw [w.dom_full, ← Except.ok.inj hdom]
    simp [isFull]
  · intro hstar
    obtain ⟨full, hfull, hsame⟩ := parseField_star_dow
    rw [of_decide_eq_true hstar, hfull] at hdow
    rw [w.dow_full, hfold, ← Except.ok.inj hdow, hsame]
    simp [isFull]
  · exact ⟨minuteValue, hminuteLe, by rwa [contains_eq_getLsbD]⟩
  · exact ⟨hourValue, hhourLe, by rwa [contains_eq_getLsbD]⟩
  · exact ⟨monthValue, hmonthLow, hmonthLe, by rwa [contains_eq_getLsbD]⟩
  · by_cases hseven : dowValue = 7
    · refine ⟨0, by decide, ?_⟩
      rw [contains_eq_getLsbD, hfold, getLsbD_foldSunday]
      exact Or.inr ⟨rfl, hseven ▸ hdowIn⟩
    · have hle : dowValue ≤ 7 := hdowLe
      refine ⟨dowValue, by omega, ?_⟩
      rw [contains_eq_getLsbD, hfold, getLsbD_foldSunday]
      exact Or.inl ⟨by omega, hdowIn⟩
  · intro value hvalue
    rw [contains_eq_getLsbD, hfold, getLsbD_foldSunday] at hvalue
    rcases hvalue with ⟨hle, -⟩ | ⟨rfl, -⟩
    · exact hle
    · exact Nat.zero_le 6

/-- No text of the two day fields is a star. -/
def NoStar (d : Schedule.CronExpr) : Prop :=
  d.domIsWildcard = false ∧ d.dowIsWildcard = false

/-- One of the day fields is full, and the other lacks a day that there is. -/
def FullBesideRestricted (w : CronExpr) : Prop :=
  (w.domRestricted = false ∧ w.dowRestricted = true) ∨
    w.dowRestricted = false ∧ ∃ month day, 1 ≤ month ∧ 1 ≤ day ∧
      (∃ length, (monthLengths true)[month - 1]? = some length ∧
        day ≤ length) ∧
      contains w.month month = true ∧ contains w.dom day = false

/-- The leap day is the only day of the expression. -/
def LeapDayOnly (w : CronExpr) : Prop :=
  w.dowRestricted = false ∧ contains w.month 2 = true ∧
    contains w.dom 29 = true ∧
      ∀ month day, Yearly month day → contains w.month month = true →
        contains w.dom day = false

section Agreement

variable {d : Schedule.CronExpr} {w : CronExpr}

theorem daemon_matchesDate_iff (h : SameFields d w) {day : Int} :
    d.matchesDate day = true ↔
      contains w.month (dateOf day).month = true ∧
        if d.domIsWildcard = false ∧ d.dowIsWildcard = false then
          contains w.dom (dateOf day).day = true ∨
            contains w.dow (weekdayFromSunday day) = true
        else contains w.dom (dateOf day).day = true ∧
          contains w.dow (weekdayFromSunday day) = true := by
  have hmonth := h.month _ (CronExpr.month_le day).2
  have hdom := h.dom _ (CronExpr.day_le day).2
  have hdow := h.dow _ (Nat.lt_succ_iff.mp (CronExpr.weekdayFromSunday_lt day))
  rw [Schedule.CronExpr.matchesDate, hmonth, hdom, hdow]
  cases contains w.month (dateOf day).month <;>
    cases hdomStar : d.domIsWildcard <;> cases hdowStar : d.dowIsWildcard <;>
      simp

theorem exists_missing_weekday (h : SameFields d w)
    (hrestricted : w.dowRestricted = true) :
    ∃ weekday < 7, contains w.dow weekday = false := by
  by_contra hnone
  push Not at hnone
  have hfull : w.dow = full RANGE_DOW.min DOW_MAX_NORMALIZED := by
    apply BitVec.eq_of_getLsbD_eq
    intro value hvalue
    rw [CronExpr.getLsbD_full, Bool.eq_iff_iff, ← contains_eq_getLsbD,
      Bool.and_eq_true, decide_eq_true_eq, decide_eq_true_eq]
    constructor
    · intro hin
      exact ⟨hvalue, Nat.zero_le value, h.dow_bounded value hin⟩
    · rintro ⟨-, -, hle⟩
      have hmax : DOW_MAX_NORMALIZED = 6 := rfl
      exact Bool.eq_true_of_not_eq_false (hnone value (by omega))
  rw [w.dow_full, hfull] at hrestricted
  simp [isFull] at hrestricted

/-- The daemon sees that a text is a star, the console that a field is full. -/
theorem sameDates_iff (h : SameFields d w) :
    (∀ day, d.matchesDate day = w.matchesDate day) ↔
      ¬ (NoStar d ∧ FullBesideRestricted w) := by
  constructor
  · rintro hsame ⟨hstars, ⟨hdom, hdow⟩ | ⟨hdow, month, day, hmonthPos,
      hdayPos, hlength, hmonth, hday⟩⟩
    · obtain ⟨weekday, hlt, hmissing⟩ := exists_missing_weekday h hdow
      obtain ⟨month, hlow, hhigh, hmonth⟩ := h.month_some
      obtain ⟨k, -, -, hfound, -, hweekday⟩ :=
        exists_weekday ⟨hlow, hhigh⟩ hlt 0
      have hdaemon : d.matchesDate (0 + k) = true := by
        refine (daemon_matchesDate_iff h).mpr ⟨by rwa [hfound], ?_⟩
        rw [if_pos ⟨hstars.1, hstars.2⟩]
        exact Or.inl (CronExpr.contains_dom hdom (CronExpr.day_le _).1
          (CronExpr.day_le _).2)
      have hconsole := (CronExpr.matchesDate_iff.mp ((hsame _).symm.trans
        hdaemon)).2
      rw [hdom, Bool.false_and, if_neg Bool.false_ne_true, hweekday,
        hmissing] at hconsole
      cases hconsole.2
    · let date : Date :=
        { year := 2000, month := month, day := day, month_pos := hmonthPos
          day_pos := hdayPos, day_le := hlength }
      have hdate : dateOf date.number = date := dateOf_number date
      have hdaemon : d.matchesDate date.number = true := by
        refine (daemon_matchesDate_iff h).mpr ⟨by rwa [hdate], ?_⟩
        rw [if_pos ⟨hstars.1, hstars.2⟩]
        exact Or.inr (CronExpr.contains_dow hdow
          (CronExpr.weekdayFromSunday_lt _))
      have hconsole := (CronExpr.matchesDate_iff.mp ((hsame _).symm.trans
        hdaemon)).2
      rw [hdow, Bool.and_false, if_neg Bool.false_ne_true, hdate] at hconsole
      cases hday.symm.trans hconsole.1
  · intro hnot day
    rw [Bool.eq_iff_iff, daemon_matchesDate_iff h, CronExpr.matchesDate_iff]
    refine and_congr_right fun hmonth => ?_
    by_cases hstars : d.domIsWildcard = false ∧ d.dowIsWildcard = false
    · rw [if_pos hstars]
      cases hdom : w.domRestricted <;> cases hdow : w.dowRestricted
      · have hin := CronExpr.contains_dom hdom (CronExpr.day_le day).1
          (CronExpr.day_le day).2
        have hweek := CronExpr.contains_dow hdow
          (CronExpr.weekdayFromSunday_lt day)
        simp [hin, hweek]
      · exact absurd ⟨hstars, Or.inl ⟨hdom, hdow⟩⟩ hnot
      · have hweek := CronExpr.contains_dow hdow
          (CronExpr.weekdayFromSunday_lt day)
        have hin : contains w.dom (dateOf day).day = true := by
          by_contra hmissing
          obtain ⟨length, hlength, hday⟩ := (dateOf day).day_le
          refine hnot ⟨hstars, Or.inr ⟨hdow, _, _, (dateOf day).month_pos,
            (dateOf day).day_pos, ?_, hmonth, Bool.eq_false_iff.mpr hmissing⟩⟩
          cases hleap : isLeap (dateOf day).year with
          | true => exact ⟨length, hleap ▸ hlength, hday⟩
          | false =>
              rw [hleap] at hlength
              obtain ⟨longer, hlonger, hle⟩ := monthLengths_false_or true hlength
              exact ⟨longer, hlonger, hday.trans hle⟩
        simp [hin, hweek]
      · simp
    · rw [if_neg hstars]
      have hfull : (w.domRestricted && w.dowRestricted) = false := by
        rw [Bool.and_eq_false_iff]
        by_cases hdomStar : d.domIsWildcard = false
        · exact Or.inr (h.dow_star (Bool.eq_true_of_not_eq_false fun hdowStar =>
            hstars ⟨hdomStar, hdowStar⟩))
        · exact Or.inl (h.dom_star (Bool.eq_true_of_not_eq_false hdomStar))
      rw [hfull, if_neg Bool.false_ne_true]

theorem daemon_occurs_iff (h : SameFields d w) {t : Int} :
    d.Occurs t ↔ t % MINUTE = 0 ∧ d.matchesDate (dayOf t) = true ∧
      contains w.hour (hourOf t) = true ∧
        contains w.minute (minuteOf t) = true := by
  rw [Schedule.CronExpr.Occurs, h.hour _ (hourOf_le t), h.minute]

/-- A minute of the day that both expressions allow. -/
theorem exists_minute (h : SameFields d w) : ∃ minutes, w.Minute minutes := by
  obtain ⟨hour, hhourLe, hhour⟩ := h.hour_some
  obtain ⟨minute, hminuteLe, hminute⟩ := h.minute_some
  refine ⟨hour * MINUTES_PER_HOUR + minute, ?_, ?_, ?_⟩
  · simp only [MINUTES_PER_HOUR, MINUTES_PER_DAY]
    omega
  · rwa [show (hour * MINUTES_PER_HOUR + minute) / MINUTES_PER_HOUR = hour by
      simp only [MINUTES_PER_HOUR]
      omega]
  · rwa [show (hour * MINUTES_PER_HOUR + minute) % MINUTES_PER_HOUR = minute by
      simp only [MINUTES_PER_HOUR]
      omega]

theorem occurs_instant_iff {day : Int} {minutes : Nat}
    (hminute : w.Minute minutes) :
    w.Occurs (CronExpr.instant day minutes) ↔ w.matchesDate day = true := by
  have hday : dayOf (CronExpr.instant day minutes) = day := by
    have hlt := hminute.1
    simp only [CronExpr.instant, dayOf, MINUTES_PER_DAY, DAY, HOUR, MINUTE] at *
    omega
  constructor
  · rintro ⟨-, hdate, -⟩
    rwa [hday] at hdate
  · intro hdate
    exact CronExpr.occurs_iff.mpr ⟨day, minutes, rfl, hdate, hminute⟩

theorem daemon_occurs_instant_iff (h : SameFields d w) {day : Int}
    {minutes : Nat} (hminute : w.Minute minutes) :
    d.Occurs (CronExpr.instant day minutes) ↔ d.matchesDate day = true := by
  have hday : dayOf (CronExpr.instant day minutes) = day := by
    have hlt := hminute.1
    simp only [CronExpr.instant, dayOf, MINUTES_PER_DAY, DAY, HOUR, MINUTE] at *
    omega
  have hhour : hourOf (CronExpr.instant day minutes) =
      minutes / MINUTES_PER_HOUR := by
    have hlt := hminute.1
    simp only [CronExpr.instant, hourOf, MINUTES_PER_DAY, MINUTES_PER_HOUR, DAY,
      HOUR, MINUTE] at *
    omega
  have hminutes : minuteOf (CronExpr.instant day minutes) =
      minutes % MINUTES_PER_HOUR := by
    have hlt := hminute.1
    simp only [CronExpr.instant, minuteOf, MINUTES_PER_DAY, MINUTES_PER_HOUR,
      DAY, HOUR, MINUTE] at *
    omega
  have haligned : CronExpr.instant day minutes % MINUTE = 0 := by
    simp only [CronExpr.instant, DAY, HOUR, MINUTE]
    omega
  rw [daemon_occurs_iff h, hday, hhour, hminutes]
  constructor
  · exact fun hoccurs => hoccurs.2.1
  · exact fun hdate => ⟨haligned, hdate, hminute.2.1, hminute.2.2⟩

/-- Just before a minute that one of them names and the other does not, the
results differ. -/
theorem nextAfter_ne (h : SameFields d w) {day : Int} {minutes : Nat}
    (hminute : w.Minute minutes)
    (hday : d.matchesDate day ≠ w.matchesDate day) :
    d.nextAfter (CronExpr.instant day minutes - MINUTE) ≠
      w.nextAfter (CronExpr.instant day minutes - MINUTE) := by
  generalize ht : CronExpr.instant day minutes = t
  have haligned : t % MINUTE = 0 := by
    rw [← ht]
    simp only [CronExpr.instant, DAY, HOUR, MINUTE]
    omega
  have hconsole := CronExpr.nextAfter_finds w (t - MINUTE)
  have hdaemon := @Schedule.CronExpr.nextAfter_first d (t - MINUTE)
  have hnot : d.Occurs t ↔ ¬ w.Occurs t := by
    rw [← ht, daemon_occurs_instant_iff h hminute, occurs_instant_iff hminute]
    cases hleft : d.matchesDate day <;> cases hright : w.matchesDate day <;>
      simp_all
  intro hsame
  by_cases hoccurs : w.Occurs t
  · have hleast : First {time | w.Occurs time ∧ t - MINUTE < time} (some t) := by
      refine ⟨⟨hoccurs, by simp only [MINUTE]; omega⟩, ?_⟩
      rintro time ⟨hother, hlater⟩
      have hminutes := hother.1
      simp only [MINUTE] at *
      omega
    rw [hsame, hconsole.unique hleast] at hdaemon
    exact hnot.mp hdaemon.1.1 hoccurs
  · have hleast : First {time | d.Occurs time ∧ t - MINUTE < time ∧
        time ≤ t - MINUTE + 400 * DAY} (some t) := by
      refine ⟨⟨hnot.mpr hoccurs, by simp only [MINUTE]; omega,
        by simp only [DAY, HOUR, MINUTE]; omega⟩, ?_⟩
      rintro time ⟨hother, hlater, -⟩
      have hminutes := hother.1
      simp only [MINUTE] at *
      omega
    rw [← hsame, hdaemon.unique hleast] at hconsole
    exact hoccurs hconsole.1.1

/-- Of a date that comes at all, unless it is the leap day, one comes before the
daemon has given up. -/
theorem exists_match_soon (h : SameFields d w) (hleap : ¬ LeapDayOnly w)
    {date : Int} (hmatch : w.matchesDate date = true) (n : Int) :
    ∃ k : Nat, 1 ≤ k ∧ k ≤ 374 ∧ w.matchesDate (n + k) = true := by
  have hmonth := (CronExpr.matchesDate_iff.mp hmatch).1
  rcases CronExpr.matchesDate_cases hmatch with ⟨hdom, hrule⟩ | ⟨hdow, hrule⟩
  · rcases yearly_or_leapDay (dateOf date) with hyearly | hday
    · exact CronExpr.exists_match_of_dom hyearly hmonth hdom hrule n
    · cases hrestricted : w.dowRestricted with
      | true =>
          obtain ⟨weekday, hle, hweekday⟩ := h.dow_some
          exact CronExpr.exists_match_of_dow hmonth (Nat.lt_succ_of_le hle)
            hweekday (fun _ => hrestricted) n
      | false =>
          rw [hday.1] at hmonth
          rw [hday.2] at hdom
          by_cases hother : ∀ month day, Yearly month day →
              contains w.month month = true → contains w.dom day = false
          · exact absurd ⟨hrestricted, hmonth, hdom, hother⟩ hleap
          · push Not at hother
            obtain ⟨month, day, hyearly, hin, hdayIn⟩ := hother
            exact CronExpr.exists_match_of_dom hyearly hin
              (Bool.eq_true_of_not_eq_false hdayIn) hrule n
  · exact CronExpr.exists_match_of_dow hmonth
      (CronExpr.weekdayFromSunday_lt date) hdow hrule n

theorem nextAfter_eq (h : SameFields d w)
    (hdates : ∀ day, d.matchesDate day = w.matchesDate day)
    (hleap : ¬ LeapDayOnly w) (after : Int) :
    d.nextAfter after = w.nextAfter after := by
  have hoccurs : ∀ t, d.Occurs t ↔ w.Occurs t := by
    intro t
    rw [daemon_occurs_iff h, hdates]
    rfl
  have hconsole := CronExpr.nextAfter_finds w after
  apply (@Schedule.CronExpr.nextAfter_first d after).unique
  simp only [hoccurs]
  cases hnext : w.nextAfter after with
  | none =>
      rw [hnext] at hconsole
      apply Set.eq_empty_iff_forall_notMem.mpr
      rintro t ⟨hfound, hlater, -⟩
      exact Set.eq_empty_iff_forall_notMem.mp hconsole t ⟨hfound, hlater⟩
  | some found =>
      rw [hnext] at hconsole
      obtain ⟨⟨hfound, hlater⟩, hleast⟩ := hconsole
      obtain ⟨date, minutes, -, hdate, hminute⟩ := CronExpr.occurs_iff.mp hfound
      obtain ⟨k, hlow, hhigh, hmatch⟩ :=
        exists_match_soon h hleap hdate (dayOf after)
      have hsoon : found ≤ CronExpr.instant (dayOf after + k) minutes := by
        refine hleast ⟨(occurs_instant_iff hminute).mpr hmatch, ?_⟩
        simp only [CronExpr.instant, dayOf, DAY, HOUR, MINUTE]
        omega
      have hlimit : CronExpr.instant (dayOf after + k) minutes ≤
          after + 400 * DAY := by
        have hday := hminute.1
        simp only [CronExpr.instant, dayOf, MINUTES_PER_DAY, DAY, HOUR,
          MINUTE] at *
        omega
      exact ⟨⟨hfound, hlater, hsoon.trans hlimit⟩,
        fun t ht => hleast ⟨ht.1, ht.2.1⟩⟩

theorem leapDay_of_matchesDate (hleap : LeapDayOnly w) {day : Int}
    (hmatch : w.matchesDate day = true) : LeapDay (dateOf day) := by
  obtain ⟨hfull, -, -, hother⟩ := hleap
  obtain ⟨hmonth, hrule⟩ := CronExpr.matchesDate_iff.mp hmatch
  rw [hfull, Bool.and_false, if_neg Bool.false_ne_true] at hrule
  refine (yearly_or_leapDay (dateOf day)).resolve_left fun hyearly => ?_
  cases (hother _ _ hyearly hmonth).symm.trans hrule.1

/-- At the end of a leap day the console waits for the next one, and the daemon
does not. -/
theorem nextAfter_ne_of_leapDay (h : SameFields d w)
    (hdates : ∀ day, d.matchesDate day = w.matchesDate day)
    (hleap : LeapDayOnly w) :
    ∃ after, d.nextAfter after ≠ w.nextAfter after := by
  obtain ⟨minutes, hminute⟩ := exists_minute h
  obtain ⟨k, -, -, hday⟩ := exists_leapDay 0
  obtain ⟨more, hmore, -, hagain⟩ := exists_leapDay (0 + k)
  have hmatch : w.matchesDate (0 + k + more) = true := by
    apply CronExpr.matchesDate_of_dom
    · intro hrestricted
      cases hleap.1.symm.trans hrestricted
    · rw [hagain.1]
      exact hleap.2.1
    · rw [hagain.2]
      exact hleap.2.2.1
  refine ⟨CronExpr.instant (0 + k) 1439, ?_⟩
  have hconsole := CronExpr.nextAfter_finds w (CronExpr.instant (0 + k) 1439)
  have hdaemon :=
    @Schedule.CronExpr.nextAfter_first d (CronExpr.instant (0 + k) 1439)
  intro hsame
  cases hnext : w.nextAfter (CronExpr.instant (0 + k) 1439) with
  | none =>
      rw [hnext] at hconsole
      refine Set.eq_empty_iff_forall_notMem.mp hconsole
        (CronExpr.instant (0 + k + more) minutes)
        ⟨(occurs_instant_iff hminute).mpr hmatch, ?_⟩
      exact CronExpr.instant_lt (by omega) (by decide)
  | some found =>
      rw [hsame, hnext] at hdaemon
      obtain ⟨hoccurs, hlater, hlimit⟩ := hdaemon.1
      have hdate := ((daemon_occurs_iff h).mp hoccurs).2.1
      rw [hdates] at hdate
      have haligned := hoccurs.1
      obtain ⟨gap, hgap⟩ : ∃ gap : Nat, dayOf found = 0 + k + gap := by
        refine ⟨(dayOf found - (0 + k)).toNat, ?_⟩
        simp only [CronExpr.instant, dayOf, DAY, HOUR, MINUTE] at *
        omega
      have hlow : 1 ≤ gap := by
        simp only [CronExpr.instant, dayOf, DAY, HOUR, MINUTE] at *
        omega
      have hhigh : gap ≤ 1000 := by
        simp only [CronExpr.instant, dayOf, DAY, HOUR, MINUTE] at *
        omega
      have hfound := leapDay_of_matchesDate hleap hdate
      rw [hgap] at hfound
      exact not_leapDay_add hday hlow hhigh hfound

end Agreement

/-- Daemon and console agree on an expression at every instant, unless the texts
hide a full field from the daemon, or the leap day is all that it names. -/
theorem nextAfter_agree_iff {expr : String} {d : Schedule.CronExpr} {w : CronExpr}
    (hdaemon : Schedule.CronExpr.parse expr = .ok d)
    (hconsole : CronExpr.parse expr = .ok w) :
    (∀ after, d.nextAfter after = w.nextAfter after) ↔
      ¬ (NoStar d ∧ FullBesideRestricted w) ∧ ¬ LeapDayOnly w := by
  have h := sameFields_of_parse hdaemon hconsole
  rw [← sameDates_iff h]
  constructor
  · intro hsame
    have hdates : ∀ day, d.matchesDate day = w.matchesDate day := by
      intro day
      by_contra hday
      obtain ⟨minutes, hminute⟩ := exists_minute h
      exact nextAfter_ne h hminute hday (hsame _)
    refine ⟨hdates, fun hleap => ?_⟩
    obtain ⟨after, hne⟩ := nextAfter_ne_of_leapDay h hdates hleap
    exact hne (hsame after)
  · rintro ⟨hdates, hleap⟩
    exact nextAfter_eq h hdates hleap

section Mondays

/-- Monday mornings, as the daemon reads them. -/
def mondaysDaemon : Schedule.CronExpr where
  minutes := 1#64
  hours := 16#32
  dom := 0xfffffffe#32
  months := 0x1ffe#16
  dow := 2#8
  domIsWildcard := true
  dowIsWildcard := false

/-- And as the console reads them. -/
def mondaysConsole : CronExpr where
  raw := "0 4 * * 1"
  minute := 1#64
  hour := 16#64
  dom := 0xfffffffe#64
  month := 0x1ffe#64
  dow := 2#64
  domRestricted := false
  dowRestricted := true
  dom_full := by decide
  dow_full := by decide

theorem parse_mondays :
    Schedule.CronExpr.parse "0 4 * * 1" = .ok mondaysDaemon := by
  rfl

theorem parse_mondays_console :
    CronExpr.parse "0 4 * * 1" = .ok mondaysConsole := by
  rfl

theorem nextAfter_agree_mondays :
    (∀ after, mondaysDaemon.nextAfter after = mondaysConsole.nextAfter after) ↔
      ¬ (NoStar mondaysDaemon ∧ FullBesideRestricted mondaysConsole) ∧
        ¬ LeapDayOnly mondaysConsole :=
  nextAfter_agree_iff parse_mondays parse_mondays_console

/-- Midnight of a Monday to the console, and of every day to the daemon. -/
def steppedDaemon : Schedule.CronExpr :=
  { mondaysDaemon with hours := 1#32, domIsWildcard := false }

def steppedConsole : CronExpr :=
  { mondaysConsole with raw := "0 0 */1 * 1", hour := 1#64 }

/-- A Wednesday. -/
def wednesday : Date where
  year := 2028
  month := 3
  day := 1
  month_pos := by decide
  day_pos := by decide
  day_le := ⟨31, rfl, by decide⟩

theorem nextAfter_differs_stepped :
    Schedule.CronExpr.parse "0 0 */1 * 1" = .ok steppedDaemon ∧
      CronExpr.parse "0 0 */1 * 1" = .ok steppedConsole ∧
        steppedDaemon.nextAfter (wednesday.number * DAY - MINUTE) ≠
          steppedConsole.nextAfter (wednesday.number * DAY - MINUTE) := by
  have hdaemon : Schedule.CronExpr.parse "0 0 */1 * 1" = .ok steppedDaemon := by
    rfl
  have hconsole : CronExpr.parse "0 0 */1 * 1" = .ok steppedConsole := by
    rfl
  have hminute : steppedConsole.Minute 0 := by
    refine ⟨by decide, by decide, by decide⟩
  have hdiffers : steppedDaemon.matchesDate wednesday.number ≠
      steppedConsole.matchesDate wednesday.number := by
    rw [Schedule.CronExpr.matchesDate, CronExpr.matchesDate, dateOf_number]
    decide
  have hmidnight : CronExpr.instant wednesday.number 0 =
      wednesday.number * DAY := by
    rw [CronExpr.instant, Nat.cast_zero, Int.zero_mul, Int.add_zero]
  refine ⟨hdaemon, hconsole, ?_⟩
  rw [← hmidnight]
  exact nextAfter_ne (sameFields_of_parse hdaemon hconsole) hminute hdiffers

end Mondays

end Web

end XBackup
