/-
The search of the built-in scheduler in a local time whose clock is put forward
and back.
-/
import XBackup.Foundation.Walks
import XBackup.Schedule.CronExpr

namespace XBackup

namespace Schedule

open Calendar Walks

def SECOND : Int := 1000000000

/-- A local time: what its clock is ahead at an instant, and the instant of a
reading that the clock shows just once. -/
structure Zone where
  offset : Int → Int
  single : Int → Option Int
  single_eq : ∀ reading t, single reading = some t ↔
    ∀ other, other + offset other = reading ↔ other = t

namespace Zone

variable (z : Zone)

def clock (t : Int) : Int :=
  t + z.offset t

/-- Fields of the reading are set; a reading that is not shown, or twice, is no
time. -/
def adjust (set : Int → Int) (t : Int) : Option Int :=
  z.single (set (z.clock t))

/-- A clock that runs evenly for a while, and shows at no other time what it
shows then. -/
def Steady (low high : Int) : Prop :=
  ∃ ahead, ∀ t, low ≤ t → t ≤ high → ∀ other,
    z.clock other = t + ahead ↔ other = t

/-- A clock that is changed once. -/
def changing (change before after : Int) : Zone where
  offset t := if t < change then before else after
  single reading :=
    if reading - before < change then
      if change ≤ reading - after ∧ before ≠ after then none
      else some (reading - before)
    else if change ≤ reading - after then some (reading - after) else none
  single_eq reading t := by
    constructor
    · intro hsingle other
      split_ifs at hsingle ⊢ <;> grind
    · intro hshown
      have hself := hshown t
      have hbefore := hshown (reading - before)
      have hafter := hshown (reading - after)
      split_ifs at hself hbefore hafter ⊢ <;> grind

end Zone

def withHourZero (reading : Int) : Int :=
  reading - hourOf reading * HOUR

def withSecondZero (reading : Int) : Int :=
  reading - reading % MINUTE + reading % SECOND

def withNanosecondZero (reading : Int) : Int :=
  reading - reading % SECOND

namespace CronExpr

section Search

variable (e : CronExpr) (z : Zone) (start : Int)

/-- The minute that the search begins with. -/
def firstMinute : Option Int := do
  let t ← z.adjust withSecondZero (start + MINUTE)
  z.adjust withNanosecondZero t

/-- The midnight of the day that follows. -/
def nextDay (t : Int) : Option Int := do
  let t ← z.adjust withHourZero (t + DAY)
  let t ← z.adjust withMinuteZero t
  let t ← z.adjust withSecondZero t
  z.adjust withNanosecondZero t

def nextHour (t : Int) : Option Int :=
  z.adjust withMinuteZero (t + HOUR)

def toMove : Option Int → Move Int (Option Int)
  | some t => .on t
  | none => .ended none

/-- One round of the loop. -/
def round (limit t : Int) : Move Int (Option Int) :=
  if limit < t then .ended none
  else if !e.matchesDate (dayOf (z.clock t)) then toMove (nextDay z t)
  else if !contains e.hours (hourOf (z.clock t)) then toMove (nextHour z t)
  else if contains e.minutes (minuteOf (z.clock t)) then .ended (some t)
  else .on (t + MINUTE)

def limitOf : Int :=
  start + 400 * DAY

/-- What `next_after` gives; nothing where its loop goes on for ever. -/
def Returns (result : Option Int) : Prop :=
  match firstMinute z start with
  | none => result = none
  | some t => Ends (e.round z (limitOf start)) t result

/-- A whole minute of the clock that the expression names, shown for the first
time. -/
structure Due (t : Int) : Prop where
  whole : z.clock t % MINUTE = 0
  date : e.matchesDate (dayOf (z.clock t)) = true
  hour : contains e.hours (hourOf (z.clock t)) = true
  minute : contains e.minutes (minuteOf (z.clock t)) = true
  once : ∀ other < t, z.clock other ≠ z.clock t

/-- The due minutes of the next 400 days. -/
def upcoming : Set Int :=
  {t | e.Due z t ∧ start < t ∧ t ≤ limitOf start}

/-- The first due minute is given if there is one, and none that is not later
than `start`. -/
structure FindsDue : Prop where
  least : (e.upcoming z start).Nonempty →
    ∃ t, IsLeast (e.upcoming z start) t ∧ e.Returns z start (some t)
  later : ∀ t, e.Returns z start (some t) → start < t

/-- A minute that the loop stands at. -/
def IsStop (t : Int) : Prop :=
  ∃ first, firstMinute z start = some first ∧
    Stop (e.round z (limitOf start)) first t

/-- No jump of the loop comes back to where it started from, or before it. -/
def Forward : Prop :=
  ∀ t, e.IsStop z start t → ∀ next,
    e.round z (limitOf start) t = .on next → t < next

/-- As long as a minute is due: the minute after `start` is shown once, neither
it nor a jump is past a due minute, no jump is to a reading that is not shown or
twice, and no minute that is shown again is taken. And nothing up to `start` is
taken. -/
structure Clear : Prop where
  opens : (e.upcoming z start).Nonempty →
    ∃ first, firstMinute z start = some first ∧
      ∀ due ∈ e.upcoming z start, first ≤ due
  passes : ∀ t, e.IsStop z start t → ∀ next,
    e.round z (limitOf start) t = .on next →
      ∀ due ∈ e.upcoming z start, t < due → next ≤ due
  ends : (e.upcoming z start).Nonempty → ∀ t, e.IsStop z start t → ∀ result,
    e.round z (limitOf start) t = .ended result → t ∈ e.upcoming z start
  later : ∀ t, e.IsStop z start t → t ≤ start →
    e.round z (limitOf start) t ≠ .ended (some t)

end Search

section Results

variable {e : CronExpr} {z : Zone} {start t next found : Int}
  {result : Option Int}

theorem round_of_due (hdue : e.Due z t) (hlimit : t ≤ limitOf start) :
    e.round z (limitOf start) t = .ended (some t) := by
  rw [round, if_neg (not_lt.mpr hlimit), hdue.date, hdue.hour, hdue.minute]
  rfl

theorem eq_of_round_ended
    (hround : e.round z (limitOf start) t = .ended (some found)) :
    found = t := by
  have hmove : ∀ answer, toMove answer ≠ .ended (some found) := by
    intro answer
    cases answer <;> exact nofun
  rw [round] at hround
  split at hround
  next => cases hround
  next =>
    split at hround
    next => exact absurd hround (hmove _)
    next =>
      split at hround
      next => exact absurd hround (hmove _)
      next =>
        split at hround
        next =>
          cases hround
          rfl
        next => cases hround

theorem returns_iff {first : Int} (hfirst : firstMinute z start = some first) :
    e.Returns z start result ↔
      Ends (e.round z (limitOf start)) first result := by
  rw [Returns, hfirst]

theorem exists_least (hsome : (e.upcoming z start).Nonempty) :
    ∃ t, IsLeast (e.upcoming z start) t := by
  obtain ⟨t, ht, hleast⟩ := Int.exists_least_of_bdd
    ⟨start, fun t (ht : t ∈ e.upcoming z start) => ht.2.1.le⟩ hsome
  exact ⟨t, ht, hleast⟩

theorem findsDue_of_clear (hforward : e.Forward z start)
    (hclear : e.Clear z start) : e.FindsDue z start := by
  constructor
  · intro hsome
    obtain ⟨target, htarget, hleast⟩ := exists_least hsome
    obtain ⟨first, hfirst, hopens⟩ := hclear.opens hsome
    refine ⟨target, ⟨htarget, hleast⟩, (returns_iff hfirst).mpr ?_⟩
    have hbefore : ∀ t, Stop (e.round z (limitOf start)) first t →
        t ≤ target := by
      intro t hstop
      induction hstop with
      | refl => exact hopens target htarget
      | @tail t next hstop hmove ih =>
          refine hclear.passes t ⟨first, hfirst, hstop⟩ next hmove target
            htarget (lt_of_le_of_ne ih ?_)
          rintro rfl
          rw [round_of_due htarget.1 htarget.2.2] at hmove
          cases hmove
    refine ends_of_approach (fun t => (target - t).toNat) ?_
    intro t hstop
    cases hmove : e.round z (limitOf start) t with
    | ended result =>
        have hdue := hclear.ends hsome t ⟨first, hfirst, hstop⟩ result hmove
        rw [round_of_due hdue.1 hdue.2.2] at hmove
        cases hmove
        exact .inl (by rw [(hbefore t hstop).antisymm (hleast hdue)])
    | on next =>
        have hlater := hforward t ⟨first, hfirst, hstop⟩ next hmove
        have hle := hbefore next (hstop.tail hmove)
        exact .inr ⟨next, rfl, by omega⟩
  · intro t hreturns
    rw [Returns] at hreturns
    split at hreturns
    next => cases hreturns
    next first hfirst =>
      obtain ⟨last, hlast, hended⟩ := hreturns.stop
      cases eq_of_round_ended hended
      by_contra hle
      exact hclear.later t ⟨first, hfirst, hlast⟩ (not_lt.mp hle) hended

theorem clear_of_findsDue (hforward : e.Forward z start)
    (hfinds : e.FindsDue z start) : e.Clear z start := by
  have hlate : ∀ first, firstMinute z start = some first → ∀ t,
      Stop (e.round z (limitOf start)) first t → ∀ last,
        Stop (e.round z (limitOf start)) t last → t ≤ last := by
    intro first hfirst t hstop last hlast
    induction hlast with
    | refl => exact le_refl t
    | @tail middle last hmiddle hmove ih =>
        exact ih.trans
          (hforward middle ⟨first, hfirst, hstop.trans hmiddle⟩ last hmove).le
  have hway : (e.upcoming z start).Nonempty → ∃ first target,
      firstMinute z start = some first ∧
        IsLeast (e.upcoming z start) target ∧
        ∀ t, Stop (e.round z (limitOf start)) first t →
          Stop (e.round z (limitOf start)) t target := by
    intro hsome
    obtain ⟨target, hleast, hreturns⟩ := hfinds.least hsome
    cases hfirst : firstMinute z start with
    | none =>
        rw [Returns, hfirst] at hreturns
        cases hreturns
    | some first =>
        refine ⟨first, target, rfl, hleast, fun t hstop => ?_⟩
        obtain ⟨last, hlast, hended⟩ := ((returns_iff hfirst).mp hreturns).stop
        cases eq_of_round_ended hended
        rcases hstop.linear hlast with hon | hback
        · exact hon
        · rw [hback.eq_of_ended hended]
          exact .refl
  refine ⟨?_, ?_, ?_, ?_⟩
  · intro hsome
    obtain ⟨first, target, hfirst, hleast, hto⟩ := hway hsome
    refine ⟨first, hfirst, fun due hdue => ?_⟩
    exact (hlate first hfirst first .refl target (hto first .refl)).trans
      (hleast.2 hdue)
  · rintro t ⟨first, hfirst, hstop⟩ next hmove due hdue -
    obtain ⟨other, target, hother, hleast, hto⟩ := hway ⟨due, hdue⟩
    cases hfirst.symm.trans hother
    exact (hlate first hfirst next (hstop.tail hmove) target
      (hto next (hstop.tail hmove))).trans (hleast.2 hdue)
  · rintro hsome t ⟨first, hfirst, hstop⟩ result hended
    obtain ⟨other, target, hother, hleast, hto⟩ := hway hsome
    cases hfirst.symm.trans hother
    rw [← (hto t hstop).eq_of_ended hended]
    exact hleast.1
  · rintro t ⟨first, hfirst, hstop⟩ hle hended
    have hreturns : e.Returns z start (some t) := by
      rw [returns_iff hfirst, hstop.ends_iff]
      exact (ends_iff_of_ended hended).mpr rfl
    exact absurd (hfinds.later t hreturns) (not_lt.mpr hle)

theorem adjust_eq {set : Int → Int} {low high ahead reading : Int}
    (hsteady : ∀ t, low ≤ t → t ≤ high → ∀ other,
      z.clock other = t + ahead ↔ other = t)
    (hlow : low ≤ next) (hhigh : next ≤ high)
    (hreading : z.clock t = reading) (hset : set reading = next + ahead) :
    z.adjust set t = some next := by
  rw [Zone.adjust, hreading, hset]
  exact (z.single_eq _ _).mpr (hsteady next hlow hhigh)

section Steady

variable {ahead : Int}

theorem nextDay_steady (haligned : (t + ahead) % MINUTE = 0)
    (hsteady : ∀ u, t ≤ u → u ≤ t + DAY → ∀ other,
      z.clock other = u + ahead ↔ other = u) :
    nextDay z t = some (startOfDay (t + DAY + ahead) - ahead) := by
  have hclock : ∀ u, t ≤ u → u ≤ t + DAY → z.clock u = u + ahead :=
    fun u hlow hhigh => (hsteady u hlow hhigh u).mpr rfl
  have hhour : z.adjust withHourZero (t + DAY) =
      some (withHourZero (t + DAY + ahead) - ahead) := by
    refine adjust_eq hsteady ?_ ?_ (hclock _ ?_ (le_refl _)) ?_ <;>
      simp only [withHourZero, hourOf, DAY, HOUR, MINUTE] at * <;> omega
  have hminute : z.adjust withMinuteZero (withHourZero (t + DAY + ahead) - ahead)
      = some (startOfDay (t + DAY + ahead) - ahead) := by
    refine adjust_eq hsteady ?_ ?_ (hclock _ ?_ ?_) ?_ <;>
      simp only [withHourZero, withMinuteZero, hourOf, minuteOf, startOfDay,
        DAY, HOUR, MINUTE] at * <;> omega
  have hsecond : z.adjust withSecondZero (startOfDay (t + DAY + ahead) - ahead)
      = some (startOfDay (t + DAY + ahead) - ahead) := by
    refine adjust_eq hsteady ?_ ?_ (hclock _ ?_ ?_) ?_ <;>
      simp only [withSecondZero, startOfDay, SECOND, DAY, HOUR, MINUTE] at * <;>
      omega
  have hnanosecond : z.adjust withNanosecondZero
      (startOfDay (t + DAY + ahead) - ahead) =
        some (startOfDay (t + DAY + ahead) - ahead) := by
    refine adjust_eq hsteady ?_ ?_ (hclock _ ?_ ?_) ?_ <;>
      simp only [withNanosecondZero, startOfDay, SECOND, DAY, HOUR,
        MINUTE] at * <;> omega
  simp only [nextDay, hhour, hminute, hsecond, hnanosecond, Option.bind_eq_bind,
    Option.bind_some]

theorem nextHour_steady (haligned : (t + ahead) % MINUTE = 0)
    (hsteady : ∀ u, t ≤ u → u ≤ t + DAY → ∀ other,
      z.clock other = u + ahead ↔ other = u) :
    nextHour z t = some (withMinuteZero (t + HOUR + ahead) - ahead) := by
  have hclock : z.clock (t + HOUR) = t + HOUR + ahead := by
    refine (hsteady _ ?_ ?_ _).mpr rfl <;> simp only [DAY, HOUR, MINUTE] <;>
      omega
  refine adjust_eq hsteady ?_ ?_ hclock ?_ <;>
    simp only [withMinuteZero, minuteOf, DAY, HOUR, MINUTE] at * <;> omega

/-- Where the clock runs evenly, a round ends at a due minute, or goes on to a
whole minute with no due one in between. -/
theorem round_steady {limit : Int} (haligned : (t + ahead) % MINUTE = 0)
    (hlimit : t ≤ limit)
    (hsteady : ∀ u, t ≤ u → u ≤ t + DAY → ∀ other,
      z.clock other = u + ahead ↔ other = u) :
    e.round z limit t = .ended (some t) ∧ e.Due z t ∨
      ∃ next, e.round z limit t = .on next ∧ t < next ∧ next ≤ t + DAY ∧
        (next + ahead) % MINUTE = 0 ∧
          ∀ due, e.Due z due → t < due → next ≤ due := by
  have hday : (0 : Int) ≤ DAY := by decide
  have hclock : ∀ u, t ≤ u → u ≤ t + DAY → z.clock u = u + ahead :=
    fun u hlow hhigh => (hsteady u hlow hhigh u).mpr rfl
  have hnow : z.clock t = t + ahead := hclock t (le_refl t) (by omega)
  rw [round, if_neg (not_lt.mpr hlimit), hnow]
  split_ifs with hdate hhour hminute
  · refine .inr ⟨startOfDay (t + DAY + ahead) - ahead, ?_, ?_, ?_, ?_, ?_⟩
    · rw [nextDay_steady haligned hsteady]
      rfl
    · simp only [startOfDay, DAY, HOUR, MINUTE]
      omega
    · simp only [startOfDay, DAY, HOUR, MINUTE]
      omega
    · simp only [startOfDay, DAY, HOUR, MINUTE]
      omega
    · intro due hdue hafter
      by_contra hbefore
      have hsame : dayOf (z.clock due) = dayOf (t + ahead) := by
        rw [hclock due hafter.le (by
          simp only [startOfDay, DAY, HOUR, MINUTE] at *
          omega)]
        simp only [startOfDay, dayOf, DAY, HOUR, MINUTE] at *
        omega
      rw [← hsame, hdue.date] at hdate
      cases hdate
  · refine .inr ⟨withMinuteZero (t + HOUR + ahead) - ahead, ?_, ?_, ?_, ?_, ?_⟩
    · rw [nextHour_steady haligned hsteady]
      rfl
    · simp only [withMinuteZero, minuteOf, HOUR, MINUTE] at *
      omega
    · simp only [withMinuteZero, minuteOf, DAY, HOUR, MINUTE] at *
      omega
    · simp only [withMinuteZero, minuteOf, HOUR, MINUTE] at *
      omega
    · intro due hdue hafter
      by_contra hbefore
      have hsame : hourOf (z.clock due) = hourOf (t + ahead) := by
        rw [hclock due hafter.le (by
          simp only [withMinuteZero, minuteOf, DAY, HOUR, MINUTE] at *
          omega)]
        simp only [withMinuteZero, minuteOf, hourOf, DAY, HOUR, MINUTE] at *
        omega
      rw [← hsame, hdue.hour] at hhour
      cases hhour
  · refine .inl ⟨rfl, ?_, ?_, ?_, ?_, ?_⟩
    · rwa [hnow]
    · rw [hnow]
      simpa using hdate
    · rw [hnow]
      simpa using hhour
    · rwa [hnow]
    · intro other hother hsame
      rw [hnow, hsteady t (le_refl t) (by omega)] at hsame
      exact hother.ne hsame
  · refine .inr ⟨t + MINUTE, rfl, ?_, ?_, ?_, ?_⟩
    · simp only [MINUTE]
      omega
    · simp only [DAY, HOUR, MINUTE]
      omega
    · simp only [MINUTE] at *
      omega
    · intro due hdue hafter
      by_contra hbefore
      have hwhole := hdue.whole
      rw [hclock due hafter.le (by
        simp only [DAY, HOUR, MINUTE] at *
        omega)] at hwhole
      simp only [MINUTE] at *
      omega

theorem firstMinute_steady
    (hsteady : ∀ u, start ≤ u → u ≤ start + DAY → ∀ other,
      z.clock other = u + ahead ↔ other = u) :
    firstMinute z start =
      some (start + MINUTE - (start + MINUTE + ahead) % MINUTE) := by
  have hclock : ∀ u, start ≤ u → u ≤ start + DAY → z.clock u = u + ahead :=
    fun u hlow hhigh => (hsteady u hlow hhigh u).mpr rfl
  have hsecond : z.adjust withSecondZero (start + MINUTE) =
      some (withSecondZero (start + MINUTE + ahead) - ahead) := by
    refine adjust_eq hsteady ?_ ?_ (hclock _ ?_ ?_) ?_ <;>
      simp only [withSecondZero, SECOND, DAY, HOUR, MINUTE] <;> omega
  have hnanosecond : z.adjust withNanosecondZero
      (withSecondZero (start + MINUTE + ahead) - ahead) =
        some (start + MINUTE - (start + MINUTE + ahead) % MINUTE) := by
    refine adjust_eq hsteady ?_ ?_ (hclock _ ?_ ?_) ?_ <;>
      simp only [withSecondZero, withNanosecondZero, SECOND, DAY, HOUR,
        MINUTE] <;> omega
  simp only [firstMinute, hsecond, hnanosecond, Option.bind_eq_bind,
    Option.bind_some]

/-- Where the clock is not changed, no way of a search is lost. -/
theorem forward_and_clear_of_steady (e : CronExpr)
    (hsteady : z.Steady start (start + 402 * DAY)) :
    e.Forward z start ∧ e.Clear z start := by
  obtain ⟨ahead, hsteady⟩ := hsteady
  have hday : (0 : Int) < DAY := by decide
  have hminute : (0 : Int) < MINUTE ∧ MINUTE < DAY := by decide
  have hfirst : firstMinute z start =
      some (start + MINUTE - (start + MINUTE + ahead) % MINUTE) :=
    firstMinute_steady fun u hlow hhigh => hsteady u hlow (by omega)
  have hround : ∀ t, start < t → t ≤ limitOf start →
      (t + ahead) % MINUTE = 0 →
        e.round z (limitOf start) t = .ended (some t) ∧ e.Due z t ∨
          ∃ next, e.round z (limitOf start) t = .on next ∧ t < next ∧
            next ≤ t + DAY ∧ (next + ahead) % MINUTE = 0 ∧
              ∀ due, e.Due z due → t < due → next ≤ due := by
    intro t hstart hlimit haligned
    refine round_steady haligned hlimit fun u hlow hhigh => ?_
    refine hsteady u (by omega) ?_
    rw [limitOf] at hlimit
    omega
  have hstop : ∀ t, e.IsStop z start t → start < t ∧
      (t + ahead) % MINUTE = 0 ∧ ∀ due ∈ e.upcoming z start, t ≤ due := by
    rintro t ⟨first, hfound, hway⟩
    cases hfirst.symm.trans hfound
    induction hway with
    | refl =>
        refine ⟨by simp only [MINUTE]; omega, by simp only [MINUTE]; omega, ?_⟩
        rintro due ⟨hdue, hafter, hlimit⟩
        by_contra hbefore
        have hwhole := hdue.whole
        have hclock : z.clock due = due + ahead := by
          refine (hsteady due hafter.le ?_ due).mpr rfl
          rw [limitOf] at hlimit
          omega
        rw [hclock] at hwhole
        simp only [MINUTE] at *
        omega
    | @tail t next _ hmove ih =>
        obtain ⟨hstart, haligned, hbefore⟩ := ih
        have hlimit : t ≤ limitOf start := by
          by_contra hover
          rw [round, if_pos (not_le.mp hover)] at hmove
          cases hmove
        rcases hround t hstart hlimit haligned with ⟨hended, -⟩ |
          ⟨other, hon, hlater, -, hwhole, hpasses⟩
        · rw [hended] at hmove
          cases hmove
        · rw [hon] at hmove
          cases hmove
          refine ⟨hstart.trans hlater, hwhole, fun due hdue => ?_⟩
          refine hpasses due hdue.1 (lt_of_le_of_ne (hbefore due hdue) ?_)
          rintro rfl
          rw [round_of_due hdue.1 hlimit] at hon
          cases hon
  have hgoes : ∀ t, e.IsStop z start t → t ≤ limitOf start →
      e.round z (limitOf start) t = .ended (some t) ∧ e.Due z t ∨
        ∃ next, e.round z (limitOf start) t = .on next ∧ t < next ∧
          ∀ due, e.Due z due → t < due → next ≤ due := by
    intro t ht hlimit
    obtain ⟨hstart, haligned, -⟩ := hstop t ht
    refine (hround t hstart hlimit haligned).imp id ?_
    rintro ⟨next, hon, hlater, -, -, hpasses⟩
    exact ⟨next, hon, hlater, hpasses⟩
  have hin : ∀ t next, e.round z (limitOf start) t = .on next →
      t ≤ limitOf start := by
    intro t next hmove
    by_contra hover
    rw [round, if_pos (not_le.mp hover)] at hmove
    cases hmove
  refine ⟨?_, ?_, ?_, ?_, ?_⟩
  · intro t ht next hmove
    rcases hgoes t ht (hin t next hmove) with ⟨hended, -⟩ | ⟨other, hon, hlater, -⟩
    · rw [hended] at hmove
      cases hmove
    · rw [hon] at hmove
      cases hmove
      exact hlater
  · rintro -
    exact ⟨_, hfirst, (hstop _ ⟨_, hfirst, .refl⟩).2.2⟩
  · intro t ht next hmove due hdue hafter
    rcases hgoes t ht (hin t next hmove) with ⟨hended, -⟩ | ⟨other, hon, -, hpasses⟩
    · rw [hended] at hmove
      cases hmove
    · rw [hon] at hmove
      cases hmove
      exact hpasses due hdue.1 hafter
  · rintro ⟨due, hdue⟩ t ht result hended
    obtain ⟨hstart, -, hbefore⟩ := hstop t ht
    have hlimit : t ≤ limitOf start := (hbefore due hdue).trans hdue.2.2
    rcases hgoes t ht hlimit with ⟨-, hfound⟩ | ⟨next, hon, -⟩
    · exact ⟨hfound, hstart, hlimit⟩
    · rw [hon] at hended
      cases hended
  · intro t ht hle
    exact absurd (hstop t ht).1 (not_lt.mpr hle)

end Steady

end Results

section Change

/-- All minutes of all days. -/
def everyMinute : CronExpr where
  minutes := insertEvery 0#64 0 59 1
  hours := (insertEvery 0#64 0 23 1).setWidth 32
  dom := (insertEvery 0#64 1 31 1).setWidth 32
  months := (insertEvery 0#64 1 12 1).setWidth 16
  dow := (insertEvery 0#64 0 7 1).setWidth 8 &&& 0x7f#8
  domIsWildcard := true
  dowIsWildcard := true

/-- Midnight of the first of February. -/
def yearly : CronExpr where
  minutes := insertEvery 0#64 0 0 1
  hours := (insertEvery 0#64 0 0 1).setWidth 32
  dom := (insertEvery 0#64 1 1 1).setWidth 32
  months := (insertEvery 0#64 2 2 1).setWidth 16
  dow := everyMinute.dow
  domIsWildcard := false
  dowIsWildcard := true

/-- The clock is four hours behind, and put back by an hour at two. -/
def putBack : Zone :=
  Zone.changing (6 * HOUR) (-4 * HOUR) (-5 * HOUR)

theorem putBack_once {other t : Int} (hother : other < t)
    (hapart : t < 6 * HOUR ∨ 7 * HOUR ≤ t) :
    putBack.clock other < putBack.clock t := by
  simp only [Zone.clock, putBack, Zone.changing, HOUR, MINUTE] at *
  split_ifs <;> omega

end Change

end CronExpr

end Schedule

end XBackup
