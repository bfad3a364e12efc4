/-
The Gregorian calendar on numbered days. Day 1 is the first of January of the
year 1, a Monday.
-/
import Mathlib

namespace Calendar

section Blocks

/-- The block that a position lies in, the blocks being counted from `index`,
and the place in it. -/
def locate : List Nat → (index position : Nat) → Nat × Nat
  | [], index, position => (index, position)
  | size :: rest, index, position =>
      if position ≤ size then (index, position)
      else locate rest (index + 1) (position - size)

theorem locate_spec (index : Nat) {sizes : List Nat} {position : Nat}
    (hlow : 1 ≤ position) (hhigh : position ≤ sizes.sum) :
    ∃ block place, locate sizes index position = (index + block, place) ∧
      1 ≤ place ∧ (∃ size, sizes[block]? = some size ∧ place ≤ size) ∧
        position = (sizes.take block).sum + place := by
  induction sizes generalizing index position with
  | nil =>
      rw [List.sum_nil] at hhigh
      omega
  | cons size rest ih =>
      rw [locate]
      by_cases hfirst : position ≤ size
      · rw [if_pos hfirst]
        exact ⟨0, position, rfl, hlow, ⟨size, rfl, hfirst⟩, by simp⟩
      · rw [List.sum_cons] at hhigh
        obtain ⟨block, place, hlocate, hplace, hsize, hposition⟩ :=
          ih (index + 1) (by omega : 1 ≤ position - size)
            (by omega)
        refine ⟨block + 1, place, ?_, hplace, hsize, ?_⟩
        · rw [if_neg hfirst, hlocate, Nat.add_right_comm, Nat.add_assoc]
        · rw [List.take_succ_cons, List.sum_cons]
          omega

/-- A place of a block is found again. -/
theorem locate_sum (index : Nat) {sizes : List Nat} {block place size : Nat}
    (hsize : sizes[block]? = some size) (hlow : 1 ≤ place)
    (hhigh : place ≤ size) :
    locate sizes index ((sizes.take block).sum + place) =
      (index + block, place) := by
  induction sizes generalizing index block with
  | nil => cases hsize
  | cons first rest ih =>
      rw [locate]
      cases block with
      | zero =>
          cases hsize
          rw [List.take_zero, List.sum_nil, Nat.zero_add, if_pos hhigh]
          rfl
      | succ block =>
          rw [List.take_succ_cons, List.sum_cons, if_neg (by omega),
            show first + (rest.take block).sum + place - first =
              (rest.take block).sum + place by omega,
            ih (index + 1) hsize,
            Nat.add_right_comm, Nat.add_assoc]

end Blocks

def isLeap (year : Int) : Bool :=
  year % 4 = 0 && (year % 100 ≠ 0 || year % 400 = 0)

def monthLengths (leap : Bool) : List Nat :=
  [31, if leap then 29 else 28, 31, 30, 31, 30, 31, 31, 30, 31, 30, 31]

def daysBeforeMonth (leap : Bool) (month : Nat) : Nat :=
  ((monthLengths leap).take (month - 1)).sum

/-- The days before the first of January of a year. -/
def daysBeforeYear (year : Int) : Int :=
  365 * (year - 1) + (year - 1) / 4 - (year - 1) / 100 + (year - 1) / 400

/-- A day of the calendar. -/
@[ext] structure Date where
  year : Int
  month : Nat
  day : Nat
  month_pos : 1 ≤ month
  day_pos : 1 ≤ day
  day_le : ∃ length, (monthLengths (isLeap year))[month - 1]? = some length ∧
    day ≤ length

def Date.number (date : Date) : Int :=
  daysBeforeYear date.year + daysBeforeMonth (isLeap date.year) date.month +
    date.day

/-- The year of a numbered day: the estimate from the mean length of a year is
the right year, or the one before it. -/
def yearOf (n : Int) : Int :=
  let year := (n - 1) * 400 / 146097 + 1
  if daysBeforeYear (year + 1) < n then year + 1 else year

theorem yearOf_spec (n : Int) :
    daysBeforeYear (yearOf n) < n ∧ n ≤ daysBeforeYear (yearOf n + 1) := by
  rw [yearOf]
  generalize hyear : (n - 1) * 400 / 146097 + 1 = year
  have hlow : daysBeforeYear year < n := by
    rw [daysBeforeYear]
    omega
  have hhigh : n ≤ daysBeforeYear (year + 1 + 1) := by
    rw [daysBeforeYear]
    omega
  by_cases hnext : daysBeforeYear (year + 1) < n
  · simp only [hnext, if_true]
    exact ⟨trivial, hhigh⟩
  · simp only [hnext, if_false]
    exact ⟨hlow, not_lt.mp hnext⟩

theorem daysBeforeYear_succ (year : Int) :
    daysBeforeYear (year + 1) =
      daysBeforeYear year + (monthLengths (isLeap year)).sum := by
  rw [daysBeforeYear, daysBeforeYear]
  cases hleap : isLeap year <;>
    simp only [isLeap, Bool.and_eq_true, Bool.or_eq_true, decide_eq_true_eq,
      Bool.and_eq_false_iff, Bool.or_eq_false_iff, decide_eq_false_iff_not]
      at hleap <;>
    simp [monthLengths] <;> omega

theorem daysBeforeYear_mono {year other : Int} (hle : year ≤ other) :
    daysBeforeYear year ≤ daysBeforeYear other := by
  rw [daysBeforeYear, daysBeforeYear]
  omega

/-- The year of a day is the one that it lies in. -/
theorem yearOf_eq {n year : Int} (hlow : daysBeforeYear year < n)
    (hhigh : n ≤ daysBeforeYear (year + 1)) : yearOf n = year := by
  obtain ⟨hbefore, hafter⟩ := yearOf_spec n
  rcases lt_trichotomy (yearOf n) year with hlt | heq | hgt
  · have hmono := daysBeforeYear_mono (show yearOf n + 1 ≤ year by omega)
    omega
  · exact heq
  · have hmono := daysBeforeYear_mono (show year + 1 ≤ yearOf n by omega)
    omega

def ordinalOf (n : Int) : Nat :=
  (n - daysBeforeYear (yearOf n)).toNat

theorem ordinalOf_spec (n : Int) :
    1 ≤ ordinalOf n ∧
      ordinalOf n ≤ (monthLengths (isLeap (yearOf n))).sum ∧
        n = daysBeforeYear (yearOf n) + ordinalOf n := by
  obtain ⟨hbefore, hafter⟩ := yearOf_spec n
  rw [daysBeforeYear_succ] at hafter
  rw [ordinalOf]
  omega

/-- The date of a numbered day. -/
def dateOf (n : Int) : Date :=
  let found := locate (monthLengths (isLeap (yearOf n))) 1 (ordinalOf n)
  { year := yearOf n
    month := found.1
    day := found.2
    month_pos := by
      obtain ⟨hlow, hhigh, -⟩ := ordinalOf_spec n
      obtain ⟨block, place, hfound, -⟩ := locate_spec 1 hlow hhigh
      rw [show found = (1 + block, place) from hfound]
      exact Nat.le_add_right 1 block
    day_pos := by
      obtain ⟨hlow, hhigh, -⟩ := ordinalOf_spec n
      obtain ⟨block, place, hfound, hplace, -⟩ :=
        locate_spec 1 hlow hhigh
      rw [show found = (1 + block, place) from hfound]
      exact hplace
    day_le := by
      obtain ⟨hlow, hhigh, -⟩ := ordinalOf_spec n
      obtain ⟨block, place, hfound, -, hsize, -⟩ :=
        locate_spec 1 hlow hhigh
      rw [show found = (1 + block, place) from hfound, Nat.add_sub_cancel_left]
      exact hsize }

@[simp] theorem number_dateOf (n : Int) : (dateOf n).number = n := by
  obtain ⟨hlow, hhigh, hn⟩ := ordinalOf_spec n
  obtain ⟨block, place, hfound, -, -, hplace⟩ :=
    locate_spec 1 hlow hhigh
  have hmonth : (dateOf n).month = 1 + block := congrArg Prod.fst hfound
  have hday : (dateOf n).day = place := congrArg Prod.snd hfound
  have hyear : (dateOf n).year = yearOf n := rfl
  rw [Date.number, hmonth, hday, hyear, daysBeforeMonth,
    Nat.add_sub_cancel_left]
  omega

theorem ordinal_le (date : Date) :
    1 ≤ daysBeforeMonth (isLeap date.year) date.month + date.day ∧
      daysBeforeMonth (isLeap date.year) date.month + date.day ≤
        (monthLengths (isLeap date.year)).sum := by
  obtain ⟨length, hlength, hday⟩ := date.day_le
  have hpos := date.day_pos
  have hsplit := List.take_append_drop (date.month - 1)
    (monthLengths (isLeap date.year))
  obtain ⟨hlt, hget⟩ := List.getElem?_eq_some_iff.mp hlength
  rw [List.drop_eq_getElem_cons hlt, hget] at hsplit
  have hsum := congrArg List.sum hsplit
  rw [List.sum_append, List.sum_cons] at hsum
  rw [daysBeforeMonth]
  omega

@[simp] theorem dateOf_number (date : Date) : dateOf date.number = date := by
  obtain ⟨hlow, hhigh⟩ := ordinal_le date
  have hyear : yearOf date.number = date.year := by
    apply yearOf_eq
    · rw [Date.number]
      omega
    · rw [daysBeforeYear_succ, Date.number]
      omega
  have hordinal : ordinalOf date.number =
      daysBeforeMonth (isLeap date.year) date.month + date.day := by
    rw [ordinalOf, hyear, Date.number]
    omega
  obtain ⟨length, hlength, hday⟩ := date.day_le
  have hfound := locate_sum 1 hlength date.day_pos hday
  have hmonth := date.month_pos
  rw [Nat.add_sub_cancel' hmonth] at hfound
  ext
  · exact hyear
  · show (locate _ 1 (ordinalOf date.number)).1 = date.month
    rw [hyear, hordinal, daysBeforeMonth, hfound]
  · show (locate _ 1 (ordinalOf date.number)).2 = date.day
    rw [hyear, hordinal, daysBeforeMonth, hfound]

def weekdayFromSunday (n : Int) : Nat :=
  (n % 7).toNat

section Recurring

/-- A day that every year has. -/
def Yearly (month day : Nat) : Prop :=
  1 ≤ month ∧ 1 ≤ day ∧
    ∃ length, (monthLengths false)[month - 1]? = some length ∧ day ≤ length

def LeapDay (date : Date) : Prop :=
  date.month = 2 ∧ date.day = 29

theorem monthLengths_false_or (leap : Bool) {index length : Nat}
    (hlength : (monthLengths false)[index]? = some length) :
    ∃ longer, (monthLengths leap)[index]? = some longer ∧ length ≤ longer := by
  cases leap
  · exact ⟨length, hlength, Nat.le_refl length⟩
  · match index, hlength with
    | 0, h | 2, h | 3, h | 4, h | 5, h | 6, h | 7, h | 8, h | 9, h | 10, h
    | 11, h => exact ⟨length, h, Nat.le_refl length⟩
    | 1, h =>
        cases h
        exact ⟨29, rfl, by decide⟩

/-- The day of a year that stands at a place which every year has. -/
def Yearly.date {month day : Nat} (h : Yearly month day) (year : Int) : Date where
  year := year
  month := month
  day := day
  month_pos := h.1
  day_pos := h.2.1
  day_le := by
    obtain ⟨-, -, length, hlength, hday⟩ := h
    obtain ⟨longer, hlonger, hle⟩ := monthLengths_false_or (isLeap year) hlength
    exact ⟨longer, hlonger, hday.trans hle⟩

/-- Every date is one that every year has, or a leap day. -/
theorem yearly_or_leapDay (date : Date) :
    Yearly date.month date.day ∨ LeapDay date := by
  obtain ⟨length, hlength, hday⟩ := date.day_le
  cases hleap : isLeap date.year with
  | false =>
      rw [hleap] at hlength
      exact Or.inl ⟨date.month_pos, date.day_pos, length, hlength, hday⟩
  | true =>
      rw [hleap] at hlength
      by_cases hmonth : date.month - 1 = 1
      · rw [hmonth] at hlength
        cases hlength
        rw [if_pos rfl] at hday
        by_cases hshort : date.day ≤ 28
        · refine Or.inl ⟨date.month_pos, date.day_pos, 28, ?_, hshort⟩
          rw [hmonth]
          rfl
        · refine Or.inr ⟨by omega, by omega⟩
      · refine Or.inl ⟨date.month_pos, date.day_pos, length, ?_, hday⟩
        rw [← hlength, monthLengths, monthLengths]
        match hindex : date.month - 1 with
        | 0 => rfl
        | 1 => exact absurd hindex hmonth
        | n + 2 => rfl

theorem not_yearly_leapDay : ¬ Yearly 2 29 := by
  rintro ⟨-, -, length, hlength, hday⟩
  cases hlength
  exact absurd hday (by decide)

theorem daysBeforeMonth_le (leap other : Bool) (month : Nat) :
    daysBeforeMonth leap month ≤ daysBeforeMonth other month + 1 := by
  rw [daysBeforeMonth, daysBeforeMonth]
  match month - 1 with
  | 0 => simp
  | 1 => simp [monthLengths]
  | n + 2 =>
      cases leap <;> cases other <;>
        simp only [monthLengths, List.take_succ_cons, List.sum_cons, if_true,
          Bool.false_eq_true, if_false] <;> omega

theorem length_year (leap : Bool) :
    (monthLengths leap).sum = if leap then 366 else 365 := by
  cases leap <;> rfl

/-- What every year has comes again within a year. -/
theorem exists_yearly {month day : Nat} (h : Yearly month day) (n : Int) :
    ∃ k : Nat, 1 ≤ k ∧ k ≤ 367 ∧ (dateOf (n + k)).month = month ∧
      (dateOf (n + k)).day = day := by
  obtain ⟨hlow, hhigh, hn⟩ := ordinalOf_spec n
  have hlength := length_year (isLeap (yearOf n))
  have hthis := ordinal_le (h.date (yearOf n))
  have hnext := ordinal_le (h.date (yearOf n + 1))
  have hshift := daysBeforeMonth_le (isLeap (yearOf n + 1))
    (isLeap (yearOf n)) month
  have hfound : ∀ (date : Date) (k : Nat), date.number = n + k →
      date.month = month → date.day = day →
        (dateOf (n + k)).month = month ∧ (dateOf (n + k)).day = day := by
    intro date k hnumber hmonth hday
    rw [← hnumber, dateOf_number]
    exact ⟨hmonth, hday⟩
  simp only [Yearly.date] at hthis hnext
  by_cases hlater : ordinalOf n <
      daysBeforeMonth (isLeap (yearOf n)) month + day
  · refine ⟨daysBeforeMonth (isLeap (yearOf n)) month + day - ordinalOf n,
      by omega, by split at hlength <;> omega,
      hfound (h.date (yearOf n)) _ ?_ rfl rfl⟩
    rw [Date.number]
    simp only [Yearly.date]
    omega
  · have hyear := daysBeforeYear_succ (yearOf n)
    refine ⟨(monthLengths (isLeap (yearOf n))).sum +
      (daysBeforeMonth (isLeap (yearOf n + 1)) month + day) - ordinalOf n,
      by omega, by split at hlength <;> omega,
      hfound (h.date (yearOf n + 1)) _ ?_ rfl rfl⟩
    rw [Date.number]
    simp only [Yearly.date]
    omega

/-- The days that follow within a month of twenty-eight days. -/
theorem dateOf_add {n : Int} {k : Nat} (hday : (dateOf n).day + k ≤ 28) :
    (dateOf (n + k)).month = (dateOf n).month ∧
      (dateOf (n + k)).day = (dateOf n).day + k := by
  have hlong : ∀ leap : Bool, ∀ length ∈ monthLengths leap, 28 ≤ length := by
    decide
  obtain ⟨length, hlength, -⟩ := (dateOf n).day_le
  have hle := hlong _ length (List.mem_of_getElem? hlength)
  let later : Date := { dateOf n with
    day := (dateOf n).day + k
    day_pos := (dateOf n).day_pos.trans (Nat.le_add_right _ k)
    day_le := ⟨length, hlength, by omega⟩ }
  have hnumber : later.number = n + k := by
    have hn := number_dateOf n
    rw [Date.number] at hn ⊢
    simp only [later]
    omega
  rw [← hnumber, dateOf_number]
  exact ⟨rfl, rfl⟩

/-- Each day of the week comes within the first seven days of a month. -/
theorem exists_weekday {month weekday : Nat}
    (hmonth : 1 ≤ month ∧ month ≤ 12) (hweekday : weekday < 7) (n : Int) :
    ∃ k : Nat, 1 ≤ k ∧ k ≤ 374 ∧ (dateOf (n + k)).month = month ∧
      (dateOf (n + k)).day ≤ 7 ∧ weekdayFromSunday (n + k) = weekday := by
  have hyearly : Yearly month 1 := by
    have hlong : ∀ length ∈ monthLengths false, 1 ≤ length := by decide
    have hlt : month - 1 < (monthLengths false).length := by
      show month - 1 < 12
      omega
    exact ⟨hmonth.1, Nat.le_refl 1, (monthLengths false)[month - 1],
      List.getElem?_eq_getElem hlt, hlong _ (List.getElem_mem hlt)⟩
  obtain ⟨first, hlow, hhigh, hfirst, hday⟩ := exists_yearly hyearly n
  let offset : Nat := ((weekday - (n + first)) % 7).toNat
  have hoffset : (offset : Int) = (weekday - (n + first)) % 7 :=
    Int.toNat_of_nonneg (Int.emod_nonneg _ (by decide))
  have hbound : offset < 7 := by omega
  obtain ⟨hsame, hplace⟩ :=
    dateOf_add (by rw [hday]; omega : (dateOf (n + first)).day + offset ≤ 28)
  refine ⟨first + offset, by omega, by omega, ?_, ?_, ?_⟩
  · rw [Nat.cast_add, ← Int.add_assoc, hsame, hfirst]
  · rw [Nat.cast_add, ← Int.add_assoc, hplace, hday]
    omega
  · rw [weekdayFromSunday, Nat.cast_add]
    omega

theorem isLeap_of_leapDay {date : Date} (hdate : LeapDay date) :
    isLeap date.year = true := by
  obtain ⟨length, hlength, hday⟩ := date.day_le
  rw [hdate.1] at hlength
  rw [hdate.2] at hday
  cases hleap : isLeap date.year with
  | true => rfl
  | false =>
      rw [hleap] at hlength
      cases hlength
      exact absurd hday (by decide)

theorem isLeap_iff (year : Int) :
    isLeap year = true ↔
      year % 4 = 0 ∧ (year % 100 ≠ 0 ∨ year % 400 = 0) := by
  simp [isLeap]

theorem number_leapDay {date : Date} (hdate : LeapDay date) :
    date.number = daysBeforeYear date.year + 60 := by
  have hmonth : daysBeforeMonth true 2 = 31 := by decide
  rw [Date.number, hdate.1, hdate.2, isLeap_of_leapDay hdate, hmonth]
  omega

/-- A leap day comes again within eight years. -/
theorem exists_leapDay (n : Int) :
    ∃ k : Nat, 1 ≤ k ∧ k < 3300 ∧ LeapDay (dateOf (n + k)) := by
  obtain ⟨hbefore, hafter⟩ := yearOf_spec n
  obtain ⟨year, hlow, hhigh, hleap⟩ : ∃ year, yearOf n + 1 ≤ year ∧
      year ≤ yearOf n + 8 ∧ isLeap year = true := by
    by_cases hfour : isLeap (4 * (yearOf n / 4 + 1)) = true
    · exact ⟨_, by omega, by omega, hfour⟩
    · refine ⟨4 * (yearOf n / 4 + 1) + 4, by omega, by omega, ?_⟩
      rw [isLeap_iff] at hfour ⊢
      omega
  let date : Date :=
    { year := year, month := 2, day := 29, month_pos := by decide
      day_pos := by decide
      day_le := ⟨29, by rw [hleap]; rfl, Nat.le_refl 29⟩ }
  have hnumber := number_leapDay (⟨rfl, rfl⟩ : LeapDay date)
  have hfirst := daysBeforeYear_mono hlow
  have hlast := daysBeforeYear_mono hhigh
  have hspan : daysBeforeYear (yearOf n + 8) ≤
      daysBeforeYear (yearOf n) + 2928 := by
    rw [daysBeforeYear, daysBeforeYear]
    omega
  have hyear : date.year = year := rfl
  rw [hyear] at hnumber
  refine ⟨(date.number - n).toNat, by omega, by omega, ?_⟩
  rw [show n + ((date.number - n).toNat : Int) = date.number by omega,
    dateOf_number]
  exact ⟨rfl, rfl⟩

/-- After a leap day there is no other for more than a thousand days. -/
theorem not_leapDay_add {n : Int} {k : Nat} (hday : LeapDay (dateOf n))
    (hlow : 1 ≤ k) (hhigh : k ≤ 1000) : ¬ LeapDay (dateOf (n + k)) := by
  intro hagain
  have hfirst := number_leapDay hday
  have hsecond := number_leapDay hagain
  have hleap := (isLeap_iff _).mp (isLeap_of_leapDay hday)
  have hother := (isLeap_iff _).mp (isLeap_of_leapDay hagain)
  rw [number_dateOf] at hfirst hsecond
  rcases le_or_gt (dateOf (n + k)).year (dateOf n).year with hle | hgt
  · have hmono := daysBeforeYear_mono hle
    omega
  · have hmono := daysBeforeYear_mono
      (show (dateOf n).year + 4 ≤ (dateOf (n + k)).year by omega)
    have hspan : daysBeforeYear (dateOf n).year + 1460 ≤
        daysBeforeYear ((dateOf n).year + 4) := by
      rw [daysBeforeYear, daysBeforeYear]
      omega
    omega

end Recurring

section Clock

/-! Instants are nanoseconds from the start of day 0. -/

def MINUTE : Int := 60000000000

def HOUR : Int := 60 * MINUTE

def DAY : Int := 24 * HOUR

def dayOf (t : Int) : Int := t / DAY

def hourOf (t : Int) : Nat := (t % DAY / HOUR).toNat

def minuteOf (t : Int) : Nat := (t % HOUR / MINUTE).toNat

/-- The instant with neither seconds nor parts of one. -/
def startOfMinute (t : Int) : Int := t - t % MINUTE

/-- The instant at minute 0 of its hour. -/
def withMinuteZero (t : Int) : Int := t - minuteOf t * MINUTE

def startOfDay (t : Int) : Int := t - t % DAY

theorem hourOf_le (t : Int) : hourOf t ≤ 23 := by
  simp only [hourOf, DAY, HOUR, MINUTE]
  omega

theorem minuteOf_le (t : Int) : minuteOf t ≤ 59 := by
  simp only [minuteOf, HOUR, MINUTE]
  omega

end Clock

end Calendar
