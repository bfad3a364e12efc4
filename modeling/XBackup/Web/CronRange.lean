/-
The next occurrence of an expression of the web console, in a calendar that has
a last day, and the occurrences one after the other.
-/
import XBackup.Web.CronExpr

namespace XBackup

namespace Web

open Calendar Occurrences Schedule

/-- Ten years have at most three leap days. -/
def TEN_YEARS : Int := 3653

namespace CronExpr

section Specification

variable (e : CronExpr)

/-- A day that the expression names: one field of the day is enough where both
lack a value. -/
def NamesDay (day : Int) : Prop :=
  let domHit := contains e.dom (dateOf day).day
  let dowHit := contains e.dow (weekdayFromSunday day)
  contains e.month (dateOf day).month ∧
    if e.dom ≠ full RANGE_DOM.min RANGE_DOM.max ∧
        e.dow ≠ full RANGE_DOW.min DOW_MAX_NORMALIZED then domHit ∨ dowHit
    else domHit ∧ dowHit

/-- A whole minute that the expression names. -/
def Names (t : Int) : Prop :=
  t % MINUTE = 0 ∧ contains e.minute (minuteOf t) ∧
    contains e.hour (hourOf t) ∧ e.NamesDay (dayOf t)

end Specification

section Search

variable (e : CronExpr) (lastDay : Int)

/-- `succ_opt`. -/
def succOpt (date : Int) : Option Int :=
  if date < lastDay then some (date + 1) else none

/-- `checked_add_signed`, of a minute. -/
def addMinute (t : Int) : Option Int :=
  if dayOf (t + MINUTE) ≤ lastDay then some (t + MINUTE) else none

/-- The loop of `nextAfterWithin`. -/
def searchWithin : (days : Nat) → (date : Int) → (floorMinutes : Nat) →
    Option Int
  | 0, _, _ => none
  | days + 1, date, floorMinutes =>
      match if e.matchesDate date then e.firstMinuteAtOrAfter floorMinutes
          else none with
      | some minutes =>
          some (date * DAY + (minutes / MINUTES_PER_HOUR : Nat) * HOUR +
            (minutes % MINUTES_PER_HOUR : Nat) * MINUTE)
      | none => do
          let next ← succOpt lastDay date
          searchWithin days next 0

/-- `next_after`, in a calendar that ends with `lastDay`. -/
def nextAfterWithin (after : Int) : Option Int := do
  let floor ← addMinute lastDay (startOfMinute after)
  e.searchWithin lastDay MAX_DAYS_AHEAD (dayOf floor)
    (hourOf floor * MINUTES_PER_HOUR + minuteOf floor)

/-- What comes of calling `next_after` on its own result. -/
def repeated (after : Int) : Nat → Option Int
  | 0 => e.nextAfterWithin lastDay after
  | n + 1 => (repeated after n).bind (e.nextAfterWithin lastDay)

end Search

section Results

variable {e : CronExpr} {lastDay after found t date : Int}
  {days floorMinutes n : Nat}

theorem names_iff_occurs : e.Names t ↔ e.Occurs t := by
  have hday : e.NamesDay (dayOf t) ↔ e.matchesDate (dayOf t) = true := by
    have hdom : e.domRestricted = true ↔
        e.dom ≠ full RANGE_DOM.min RANGE_DOM.max := by
      rw [e.dom_full, isFull, Bool.not_eq_true', decide_eq_false_iff_not]
    have hdow : e.dowRestricted = true ↔
        e.dow ≠ full RANGE_DOW.min DOW_MAX_NORMALIZED := by
      rw [e.dow_full, isFull, Bool.not_eq_true', decide_eq_false_iff_not]
    simp only [NamesDay, matchesDate, ← hdom, ← hdow, ← Bool.and_eq_true]
    cases contains e.month (dateOf (dayOf t)).month with
    | false => simp
    | true => cases e.domRestricted && e.dowRestricted <;> simp
  rw [Names, Occurs, hday]
  tauto

/-- A search that stays in the calendar is not cut off. -/
theorem searchWithin_eq (hin : date + days ≤ lastDay) :
    e.searchWithin lastDay days date floorMinutes =
      e.search days date floorMinutes := by
  induction days generalizing date floorMinutes with
  | zero => rfl
  | succ days ih =>
      have hnext : succOpt lastDay date = some (date + 1) :=
        if_pos (by omega)
      rw [searchWithin, search]
      cases if e.matchesDate date then e.firstMinuteAtOrAfter floorMinutes
          else none with
      | some minutes => rfl
      | none =>
          dsimp only
          rw [hnext]
          exact ih (by push_cast at hin; omega)

/-- What is found before the calendar ends is what a longer search finds. -/
theorem search_of_searchWithin
    (hfound : e.searchWithin lastDay days date floorMinutes = some found) :
    e.search days date floorMinutes = some found := by
  induction days generalizing date floorMinutes with
  | zero => cases hfound
  | succ days ih =>
      revert hfound
      rw [searchWithin, search]
      cases if e.matchesDate date then e.firstMinuteAtOrAfter floorMinutes
          else none with
      | some minutes => exact id
      | none =>
          intro hfound
          obtain ⟨next, hnext, hrest⟩ := Option.bind_eq_some_iff.mp hfound
          rw [succOpt] at hnext
          split at hnext
          next =>
            cases hnext
            exact ih hrest
          next => cases hnext

theorem nextAfter_of_within
    (hfound : e.nextAfterWithin lastDay after = some found) :
    e.nextAfter after = some found := by
  obtain ⟨floor, hfloor, hsearch⟩ := Option.bind_eq_some_iff.mp hfound
  rw [addMinute] at hfloor
  split at hfloor
  next =>
    cases hfloor
    exact search_of_searchWithin hsearch
  next => cases hfloor

theorem nextAfterWithin_eq (hrange : dayOf after + TEN_YEARS ≤ lastDay) :
    e.nextAfterWithin lastDay after = e.nextAfter after := by
  have hday : dayOf (startOfMinute after + MINUTE) ≤ dayOf after + 1 := by
    simp only [dayOf, startOfMinute, DAY, HOUR, MINUTE]
    omega
  have hfloor : addMinute lastDay (startOfMinute after) =
      some (startOfMinute after + MINUTE) := by
    simp only [TEN_YEARS] at hrange
    exact if_pos (by omega)
  rw [nextAfterWithin, hfloor]
  refine searchWithin_eq ?_
  simp only [TEN_YEARS, MAX_DAYS_AHEAD] at hrange ⊢
  push_cast
  omega

/-- A whole minute is later than a time if it is later than its minute. -/
theorem lt_iff_startOfMinute_lt (hwhole : t % MINUTE = 0) :
    after < t ↔ startOfMinute after < t := by
  simp only [startOfMinute, MINUTE] at *
  omega

theorem later_eq (e : CronExpr) (after : Int) :
    {t | e.Occurs t ∧ after < t} = {t | e.Names t ∧ startOfMinute after < t} := by
  ext t
  simp only [Set.mem_ofPred_eq, names_iff_occurs]
  exact and_congr_right fun hoccurs => lt_iff_startOfMinute_lt hoccurs.1

theorem nextAfterWithin_least
    (hfound : e.nextAfterWithin lastDay after = some found) :
    IsLeast {t | e.Names t ∧ startOfMinute after < t} found := by
  rw [← later_eq]
  exact (nextAfter_finds e).least after found (nextAfter_of_within hfound)

theorem nextAfterWithin_first (hrange : dayOf after + TEN_YEARS ≤ lastDay) :
    First {t | e.Names t ∧ startOfMinute after < t}
      (e.nextAfterWithin lastDay after) := by
  rw [← later_eq, nextAfterWithin_eq hrange]
  exact nextAfter_finds e after

theorem repeated_succ (e : CronExpr) (lastDay after : Int) (n : Nat) :
    e.repeated lastDay after (n + 1) =
      (e.nextAfterWithin lastDay after).bind fun found =>
        e.repeated lastDay found n := by
  induction n with
  | zero => rfl
  | succ n ih =>
      rw [repeated, ih, Option.bind_assoc]
      rfl

/-- Every later minute that is named is reached. -/
theorem exists_repeated (hnames : e.Names t) (hlater : startOfMinute after < t)
    (hrange : dayOf t + TEN_YEARS ≤ lastDay) :
    ∃ n, e.repeated lastDay after n = some t := by
  induction hleft : (t - startOfMinute after).toNat using Nat.strong_induction_on
    generalizing after with
  | _ left ih =>
      have hday : dayOf after + TEN_YEARS ≤ lastDay := by
        simp only [dayOf, startOfMinute, TEN_YEARS, DAY, HOUR, MINUTE] at *
        omega
      have hfirst := nextAfterWithin_first (e := e) hday
      cases hfound : e.nextAfterWithin lastDay after with
      | none =>
          rw [hfound] at hfirst
          exact absurd ⟨hnames, hlater⟩
            (Set.eq_empty_iff_forall_notMem.mp hfirst t)
      | some found =>
          obtain ⟨⟨hfoundNames, hfoundLater⟩, hleast⟩ :=
            nextAfterWithin_least hfound
          rcases (hleast ⟨hnames, hlater⟩).lt_or_eq with hlt | rfl
          · have hstart : startOfMinute found = found := by
              rw [startOfMinute, hfoundNames.1, sub_zero]
            rw [← hstart] at hlt hfoundLater
            obtain ⟨n, hn⟩ := ih _ (by omega) hlt rfl
            refine ⟨n + 1, ?_⟩
            rw [repeated_succ, hfound]
            exact hn
          · exact ⟨0, hfound⟩

/-- What is reached is named and later, and each comes behind the one before. -/
theorem repeated_names (hreached : e.repeated lastDay after n = some t) :
    e.Names t ∧ startOfMinute after < t := by
  induction n generalizing t with
  | zero => exact (nextAfterWithin_least hreached).1
  | succ n ih =>
      obtain ⟨found, hfound, hnext⟩ := Option.bind_eq_some_iff.mp hreached
      obtain ⟨hfoundNames, hfoundLater⟩ := ih hfound
      obtain ⟨hnames, hlater⟩ := (nextAfterWithin_least hnext).1
      refine ⟨hnames, hfoundLater.trans ?_⟩
      exact (lt_iff_startOfMinute_lt hnames.1).mpr hlater

/-- The least minute is found, or there is none; and one call after the other
comes to every minute once, in order. -/
theorem nextAfter_enumerates (e : CronExpr) (lastDay after : Int)
    (hrange : dayOf after + TEN_YEARS ≤ lastDay) :
    First {t | e.Names t ∧ startOfMinute after < t}
        (e.nextAfterWithin lastDay after) ∧
      (∀ n t, e.repeated lastDay after n = some t →
        e.Names t ∧ startOfMinute after < t) ∧
      (∀ n found t, e.repeated lastDay after n = some found →
        e.repeated lastDay after (n + 1) = some t →
          IsLeast {t | e.Names t ∧ found < t} t) ∧
      ∀ t, e.Names t → startOfMinute after < t →
        dayOf t + TEN_YEARS ≤ lastDay →
          ∃ n, e.repeated lastDay after n = some t := by
  refine ⟨nextAfterWithin_first hrange, fun n t => repeated_names, ?_,
    fun t => exists_repeated⟩
  intro n found t hfound hnext
  obtain ⟨other, hother, hnext⟩ := Option.bind_eq_some_iff.mp hnext
  cases hfound.symm.trans hother
  have hstart : startOfMinute found = found := by
    rw [startOfMinute, (repeated_names hfound).1.1, sub_zero]
  rw [← hstart]
  exact nextAfterWithin_least hnext

def everyMinute : CronExpr where
  raw := "* * * * *"
  minute := full RANGE_MINUTE.min RANGE_MINUTE.max
  hour := full RANGE_HOUR.min RANGE_HOUR.max
  dom := full RANGE_DOM.min RANGE_DOM.max
  month := full RANGE_MONTH.min RANGE_MONTH.max
  dow := full RANGE_DOW.min DOW_MAX_NORMALIZED
  domRestricted := false
  dowRestricted := false
  dom_full := by decide
  dow_full := by decide

theorem nextAfter_enumerates_everyMinute : dayOf 0 + TEN_YEARS ≤ TEN_YEARS ∧
    First {t | everyMinute.Names t ∧ startOfMinute 0 < t}
      (everyMinute.nextAfterWithin TEN_YEARS 0) :=
  ⟨by decide, (nextAfter_enumerates everyMinute TEN_YEARS 0 (by decide)).1⟩

end Results

end CronExpr

end Web

end XBackup
