/-
What the loop fires of a schedule from the first tick that sees it on.
-/
import XBackup.Web.ScheduleClock

namespace XBackup

namespace Web

open Calendar Occurrences

/-- The time that a verdict fires. -/
def Due.fired : Due → Option Int
  | .fire at_ _ => some at_
  | _ => none

/-- The occurrences that a verdict accounts for: its time, and those that it
coalesces. -/
def Due.accounts (occurs : Int → Prop) : Due → Set Int
  | .fire at_ coalesced | .tooLate at_ coalesced => Trailing occurs at_ coalesced
  | .notYet => ∅

/-- The verdict on a schedule among those of a tick. -/
def dueOf (id : ScheduleId) (results : List (Schedule × Due)) : Due :=
  ((results.find? (·.1.id = id)).map (·.2)).getD .notYet

/-- The verdicts on a schedule, tick after tick. -/
def watch (id : ScheduleId) :
    ScheduleClock → List (Int × List Schedule) → List (Int × Due)
  | _, [] => []
  | clock, (now, all) :: rest =>
      (now, dueOf id (clock.tick now all).1) ::
        watch id (clock.tick now all).2 rest

/-- The store lists the schedule, and it is on with this expression. -/
def Lists (id : ScheduleId) (e : CronExpr) (all : List Schedule) : Prop :=
  (all.map (·.id)).Nodup ∧
    ∃ schedule ∈ all, schedule.id = id ∧ schedule.enabled = true ∧
      schedule.expr = e

/-- What is promised of the verdicts on a schedule. -/
structure Exact (occurs : Int → Prop) (seen : List (Int × Due)) : Prop where
  /-- What lies in a long sleep is fired neither then nor later. -/
  slept : ∀ front before due now verdict back,
    seen = front ++ (before, due) :: (now, verdict) :: back →
      LATE_FIRE_LIMIT < now - before → ∀ entry ∈ (now, verdict) :: back,
        ∀ at_, entry.2.fired = some at_ → before < at_ → ¬ at_ ≤ now
  /-- Nothing is fired that was not after the first tick. -/
  later : ∀ first rest, seen = first :: rest → ∀ entry ∈ seen,
    ∀ at_, entry.2.fired = some at_ → first.1 < at_
  increasing : (seen.filterMap (·.2.fired)).Pairwise (· < ·)
  /-- Every occurrence up to a tick is accounted for, and once. -/
  accounted : ∀ first rest, seen = first :: rest → ∀ time, occurs time →
    first.1 < time → (∃ entry ∈ seen, time ≤ entry.1) →
      ∃ front entry back, seen = front ++ entry :: back ∧
        time ∈ entry.2.accounts occurs ∧
          ∀ other ∈ front ++ back, time ∉ other.2.accounts occurs

/-- No tick finds more occurrences since all ticks before it than a scan may
find. -/
def ScansSuffice (occurs : Int → Prop) (ticks : List Int) : Prop :=
  ∀ front now back, ticks = front ++ now :: back → front ≠ [] →
    {time | occurs time ∧ (∀ tick ∈ front, tick < time) ∧ time ≤ now}.encard ≤
      MISSED_SCAN_MAX

section Watching

variable {id : ScheduleId} {e : CronExpr} {clock : ScheduleClock} {now : Int}
  {all : List Schedule}

theorem dueOf_tick (hall : Lists id e all) :
    dueOf id (clock.tick now all).1 =
        ScheduleClock.verdict (clock.stall now) (scan e.nextAfter now
          MISSED_SCAN_MAX ((clock.cursors id).getD now)) ∧
      (clock.tick now all).2.cursors id =
        some ((scan e.nextAfter now MISSED_SCAN_MAX
          ((clock.cursors id).getD now)).getLast?.getD
            ((clock.cursors id).getD now)) := by
  obtain ⟨hids, schedule, hmem, rfl, henabled, rfl⟩ := hall
  refine ⟨?_, ScheduleClock.tick_cursor hids hmem henabled⟩
  have hin : schedule ∈ all.filter (·.enabled) :=
    List.mem_filter.mpr ⟨hmem, henabled⟩
  rw [ScheduleClock.tick_fst hids, dueOf]
  cases hfind : ((all.filter (·.enabled)).map fun other => (other,
      ScheduleClock.verdict (clock.stall now) (clock.passed other now))).find?
        (·.1.id = schedule.id) with
  | none =>
      have hnot := List.find?_eq_none.mp hfind _ (List.mem_map_of_mem hin)
      exact absurd (decide_eq_true rfl) hnot
  | some found =>
      have hsame := List.find?_some hfind
      rw [decide_eq_true_eq] at hsame
      obtain ⟨other, hother, rfl⟩ :=
        List.mem_map.mp (List.mem_of_find?_eq_some hfind)
      rw [List.inj_on_of_nodup_map hids (List.mem_of_mem_filter hother) hmem
        hsame]
      rfl

theorem fired_verdict {stall at_ : Int} {times : List Int}
    (hfired : (ScheduleClock.verdict stall times).fired = some at_) :
    at_ ∈ times ∧ stall ≤ LATE_FIRE_LIMIT := by
  rw [ScheduleClock.verdict] at hfired
  split at hfired
  next => cases hfired
  next last hlast =>
    split at hfired
    next => cases hfired
    next hlate =>
      cases hfired
      exact ⟨List.mem_of_getLast? hlast, not_lt.mp hlate⟩

theorem accounts_verdict {occurs : Int → Prop} {next : Int → Option Int}
    (hnext : Finds occurs next) {stall after : Int} {count : Nat} :
    (ScheduleClock.verdict stall (scan next now count after)).accounts occurs =
      {time | time ∈ scan next now count after} := by
  rw [ScheduleClock.verdict]
  split
  next hnone =>
    rw [List.getLast?_eq_none_iff.mp hnone]
    exact (Set.eq_empty_iff_forall_notMem.mpr fun time htime => by
      cases htime).symm
  next last hlast =>
    have hsame := trailing_scan hnext hlast
    split <;> exact hsame

/-- What holds of the verdicts from a cursor on, after a tick at `previous`. -/
structure ExactFrom (occurs : Int → Prop) (cursor previous : Int)
    (seen : List (Int × Due)) : Prop where
  slept : ∀ front before due now verdict back,
    (previous, .notYet) :: seen =
        front ++ (before, due) :: (now, verdict) :: back →
      LATE_FIRE_LIMIT < now - before → ∀ entry ∈ (now, verdict) :: back,
        ∀ at_, entry.2.fired = some at_ → before < at_ → ¬ at_ ≤ now
  later : ∀ entry ∈ seen, ∀ at_, entry.2.fired = some at_ →
    occurs at_ ∧ cursor < at_
  increasing : (seen.filterMap (·.2.fired)).Pairwise (· < ·)
  accountsLater : ∀ entry ∈ seen, ∀ time ∈ entry.2.accounts occurs,
    cursor < time
  accounted : ∀ time, occurs time → cursor < time →
    (∃ entry ∈ seen, time ≤ entry.1) →
      ∃ front entry back, seen = front ++ entry :: back ∧
        time ∈ entry.2.accounts occurs ∧
          ∀ other ∈ front ++ back, time ∉ other.2.accounts occurs

theorem ExactFrom.nil (occurs : Int → Prop) (cursor previous : Int) :
    ExactFrom occurs cursor previous [] where
  slept := by
    intro front before due now verdict back hseen
    cases front with
    | nil => cases (List.cons.inj hseen).2
    | cons _ front =>
        exact absurd (List.cons.inj hseen).2.symm (List.append_ne_nil_of_right_ne_nil
          front (List.cons_ne_nil _ _))
  later := fun entry hentry => by cases hentry
  increasing := List.Pairwise.nil
  accountsLater := fun entry hentry => by cases hentry
  accounted := by
    rintro time - - ⟨entry, hentry, -⟩
    cases hentry

section Step

variable {occurs : Int → Prop} {next : Int → Option Int}
  {cursor previous stall : Int} {times : List Int} {seen : List (Int × Due)}

/-- A sleep is the one before this tick, or lies between it and later ones. -/
theorem ExactFrom.slept_cons (hnext : Finds occurs next)
    (htimes : times = scan next now MISSED_SCAN_MAX cursor)
    (hcomplete : ∀ time, occurs time → cursor < time → time ≤ now →
      time ∈ times)
    (hrest : ExactFrom occurs (times.getLast?.getD cursor) now seen)
    {front back : List (Int × Due)} {before tick : Int} {due verdict : Due}
    (hseen : (previous, .notYet) :: (now,
        ScheduleClock.verdict (now - previous) times) :: seen =
      front ++ (before, due) :: (tick, verdict) :: back)
    (hlong : LATE_FIRE_LIMIT < tick - before) {entry : Int × Due}
    (hentry : entry ∈ (tick, verdict) :: back) {at_ : Int}
    (hfired : entry.2.fired = some at_) (hbefore : before < at_) :
    ¬ at_ ≤ tick := by
  cases front with
  | nil =>
      -- nothing is fired now, and later only what is behind the new cursor
      cases hseen
      rcases List.mem_cons.mp hentry with rfl | hentry
      · obtain ⟨-, hshort⟩ := fired_verdict hfired
        exact absurd hlong (not_lt.mpr hshort)
      · intro hnow
        obtain ⟨hoccurs, hlater⟩ := hrest.later entry hentry at_ hfired
        rw [htimes] at hlater hcomplete
        have hfresh := (getD_scan hnext now cursor _).1.trans_lt hlater
        exact absurd (le_getD_scan hnext (hcomplete at_ hoccurs hfresh hnow))
          (not_le.mpr hlater)
  | cons first front =>
      have htail := (List.cons.inj hseen).2
      cases front with
      | nil =>
          obtain ⟨hhead, hback⟩ := List.cons.inj htail
          cases hhead
          exact hrest.slept [] now .notYet tick verdict back
            (congrArg _ hback) hlong entry hentry at_ hfired hbefore
      | cons second front =>
          exact hrest.slept ((now, .notYet) :: front) before due tick verdict
            back (congrArg _ (List.cons.inj htail).2) hlong entry hentry at_
            hfired hbefore

/-- A tick whose scan is complete, before what holds from its cursor on. -/
theorem ExactFrom.cons (hnext : Finds occurs next)
    (htimes : times = scan next now MISSED_SCAN_MAX cursor)
    (hcomplete : ∀ time, occurs time → cursor < time → time ≤ now →
      time ∈ times)
    (hrest : ExactFrom occurs (times.getLast?.getD cursor) now seen) :
    ExactFrom occurs cursor previous
      ((now, ScheduleClock.verdict (now - previous) times) :: seen) := by
  have hmem : ∀ time ∈ times, occurs time ∧ cursor < time ∧ time ≤ now := by
    rw [htimes]
    exact fun time => mem_scan hnext
  have hlast : ∀ time ∈ times, time ≤ times.getLast?.getD cursor := by
    rw [htimes]
    exact fun time => le_getD_scan hnext
  obtain ⟨hcursor, hreach⟩ : cursor ≤ times.getLast?.getD cursor ∧
      (times.getLast?.getD cursor ≤ now ∨
        times.getLast?.getD cursor = cursor) := by
    rw [htimes]
    exact getD_scan hnext now cursor _
  have haccounts : (ScheduleClock.verdict (now - previous) times).accounts
      occurs = {time | time ∈ times} := by
    rw [htimes]
    exact accounts_verdict hnext
  constructor
  · intro front before due tick verdict back hseen hlong entry hentry at_ hfired
    exact hrest.slept_cons hnext htimes hcomplete hseen hlong hentry hfired
  · intro entry hentry at_ hfired
    rcases List.mem_cons.mp hentry with rfl | hentry
    · obtain ⟨hoccurs, hlater, -⟩ := hmem at_ (fired_verdict hfired).1
      exact ⟨hoccurs, hlater⟩
    · obtain ⟨hoccurs, hlater⟩ := hrest.later entry hentry at_ hfired
      exact ⟨hoccurs, hcursor.trans_lt hlater⟩
  · rw [List.filterMap_cons]
    split
    next => exact hrest.increasing
    next at_ hfired =>
      refine List.pairwise_cons.mpr ⟨?_, hrest.increasing⟩
      intro other hother
      obtain ⟨entry, hentry, hfires⟩ := List.mem_filterMap.mp hother
      exact (hlast at_ (fired_verdict hfired).1).trans_lt
        (hrest.later entry hentry other hfires).2
  · intro entry hentry time htime
    rcases List.mem_cons.mp hentry with rfl | hentry
    · rw [haccounts] at htime
      exact (hmem time htime).2.1
    · exact hcursor.trans_lt (hrest.accountsLater entry hentry time htime)
  · rintro time hoccurs hlater ⟨entry, hentry, hle⟩
    by_cases htime : time ∈ times
    · refine ⟨[], _, seen, rfl, haccounts ▸ htime, ?_⟩
      intro other hother hagain
      exact absurd (hrest.accountsLater other hother time hagain)
        (not_lt.mpr (hlast time htime))
    · have hnow : now < time :=
        not_le.mp fun hnow => htime (hcomplete time hoccurs hlater hnow)
      have hbehind : times.getLast?.getD cursor < time := by
        rcases hreach with hreach | hreach
        · exact hreach.trans_lt hnow
        · rw [hreach]
          exact hlater
      have hseen : entry ∈ seen := by
        rcases List.mem_cons.mp hentry with rfl | hseen
        · exact absurd hle (not_le.mpr hnow)
        · exact hseen
      obtain ⟨front, found, back, rfl, hfound, hothers⟩ :=
        hrest.accounted time hoccurs hbehind ⟨entry, hseen, hle⟩
      refine ⟨_ :: front, found, back, rfl, hfound, ?_⟩
      intro other hother
      rcases List.mem_cons.mp hother with rfl | hother
      · rwa [haccounts]
      · exact hothers other hother

end Step

theorem watch_exactFrom {ticks : List (Int × List Schedule)}
    {cursor previous latest : Int}
    (hall : ∀ entry ∈ ticks, Lists id e entry.2)
    (hcursor : clock.cursors id = some cursor)
    (hprevious : clock.lastTick = some previous)
    (hjudged : ∀ time, e.Occurs time → cursor < time → latest < time)
    (hle : cursor ≤ latest)
    (hcounts : ∀ front now back, ticks.map (·.1) = front ++ now :: back →
      {time | e.Occurs time ∧ latest < time ∧ (∀ tick ∈ front, tick < time) ∧
        time ≤ now}.encard ≤ MISSED_SCAN_MAX) :
    ExactFrom e.Occurs cursor previous (watch id clock ticks) := by
  induction ticks generalizing clock cursor previous latest with
  | nil => exact ExactFrom.nil _ _ _
  | cons tick ticks ih =>
      obtain ⟨now, all⟩ := tick
      obtain ⟨hhead, hrest⟩ := List.forall_mem_cons.mp hall
      obtain ⟨hdue, hmoved⟩ := @dueOf_tick id e clock now all hhead
      rw [hcursor, Option.getD_some] at hdue hmoved
      have hnext := CronExpr.nextAfter_finds e
      have hstall : clock.stall now = now - previous := by
        rw [ScheduleClock.stall, ScheduleClock.beginTick, hprevious]
      have hcomplete : ∀ time, e.Occurs time → cursor < time → time ≤ now →
          time ∈ scan e.nextAfter now MISSED_SCAN_MAX cursor := by
        intro time hoccurs hlater hnow
        refine mem_scan_of_encard hnext ?_ hoccurs hlater hnow
        refine (Set.encard_le_encard ?_).trans (hcounts [] now _ rfl)
        rintro other ⟨hother, hafter, hbefore⟩
        exact ⟨hother, hjudged other hother hafter,
          fun tick htick => absurd htick List.not_mem_nil, hbefore⟩
      obtain ⟨hbehind, hreach⟩ := getD_scan hnext now cursor MISSED_SCAN_MAX
      rw [watch, hdue, hstall]
      refine ExactFrom.cons hnext rfl hcomplete
        (@ih _ _ _ (max latest now) hrest hmoved ScheduleClock.tick_lastTick
          ?_ ?_ ?_)
      · intro time hoccurs hlater
        have hfresh := hbehind.trans_lt hlater
        refine max_lt (hjudged time hoccurs hfresh) (not_le.mp fun hnow => ?_)
        exact absurd (le_getD_scan hnext (hcomplete time hoccurs hfresh hnow))
          (not_le.mpr hlater)
      · rcases hreach with hreach | hreach
        · exact hreach.trans (le_max_right latest now)
        · exact (le_of_eq hreach).trans (hle.trans (le_max_left latest now))
      · intro front other back hticks
        refine (Set.encard_le_encard ?_).trans
          (hcounts (now :: front) other back (congrArg (now :: ·) hticks))
        rintro time ⟨hoccurs, hlater, hfront, hbefore⟩
        obtain ⟨hlatest, hnow⟩ := max_lt_iff.mp hlater
        refine ⟨hoccurs, hlatest, ?_, hbefore⟩
        exact List.forall_mem_cons.mpr ⟨hnow, hfront⟩

theorem watch_times (id : ScheduleId) (clock : ScheduleClock)
    (ticks : List (Int × List Schedule)) :
    (watch id clock ticks).map (·.1) = ticks.map (·.1) := by
  induction ticks generalizing clock with
  | nil => rfl
  | cons tick ticks ih =>
      rw [watch, List.map_cons, List.map_cons, ih]

/-- A verdict accounts for no more than a scan may find, and for nothing to
come. -/
theorem watch_accounts {ticks : List (Int × List Schedule)} {entry : Int × Due}
    (hall : ∀ entry ∈ ticks, Lists id e entry.2)
    (hentry : entry ∈ watch id clock ticks) :
    (entry.2.accounts e.Occurs).encard ≤ MISSED_SCAN_MAX ∧
      ∀ time ∈ entry.2.accounts e.Occurs, time ≤ entry.1 := by
  induction ticks generalizing clock with
  | nil => cases hentry
  | cons tick ticks ih =>
      obtain ⟨now, all⟩ := tick
      obtain ⟨hhead, hrest⟩ := List.forall_mem_cons.mp hall
      rcases List.mem_cons.mp hentry with rfl | hentry
      · have hnext := CronExpr.nextAfter_finds e
        rw [(dueOf_tick hhead).1, accounts_verdict hnext, encard_scan hnext]
        exact ⟨Nat.cast_le.mpr (length_scan_le now _ _),
          fun time htime => (mem_scan hnext htime).2.2⟩
      · exact ih hrest hentry

/-- Nothing has passed when a tick first sees the schedule. -/
theorem tick_first (hall : Lists id e all) (hclock : clock.cursors id = none) :
    dueOf id (clock.tick now all).1 = .notYet ∧
      (clock.tick now all).2.cursors id = some now := by
  obtain ⟨hdue, hcursor⟩ := @dueOf_tick id e clock now all hall
  have hnothing : scan e.nextAfter now MISSED_SCAN_MAX now = [] := by
    refine List.eq_nil_iff_forall_not_mem.mpr fun time htime => ?_
    obtain ⟨-, hlater, hnow⟩ := mem_scan (CronExpr.nextAfter_finds e) htime
    exact absurd hnow (not_le.mpr hlater)
  rw [hclock, Option.getD_none, hnothing] at hdue hcursor
  exact ⟨hdue, hcursor⟩

theorem watch_exact {ticks : List (Int × List Schedule)}
    (hclock : clock.cursors id = none)
    (hall : ∀ entry ∈ ticks, Lists id e entry.2)
    (hscans : ScansSuffice e.Occurs (ticks.map (·.1))) :
    Exact e.Occurs (watch id clock ticks) := by
  cases ticks with
  | nil =>
      exact
        { slept := fun front _ _ _ _ _ hseen => absurd hseen.symm
            (List.append_ne_nil_of_right_ne_nil front (List.cons_ne_nil _ _))
          later := fun _ _ hseen => absurd hseen.symm (List.cons_ne_nil _ _)
          increasing := List.Pairwise.nil
          accounted := fun _ _ hseen => absurd hseen.symm (List.cons_ne_nil _ _) }
  | cons tick ticks =>
      obtain ⟨now, all⟩ := tick
      obtain ⟨hhead, hrest⟩ := List.forall_mem_cons.mp hall
      obtain ⟨hdue, hcursor⟩ := @tick_first id e clock now all hhead hclock
      have hfrom := watch_exactFrom hrest hcursor ScheduleClock.tick_lastTick
        (fun _ _ hlater => hlater) (le_refl now) (by
          intro front other back hticks
          refine (Set.encard_le_encard ?_).trans (hscans (now :: front) other
            back (congrArg (now :: ·) hticks) (List.cons_ne_nil _ _))
          rintro time ⟨hoccurs, hlater, hfront, hbefore⟩
          exact ⟨hoccurs, List.forall_mem_cons.mpr ⟨hlater, hfront⟩, hbefore⟩)
      rw [watch, hdue]
      constructor
      · exact hfrom.slept
      · rintro first rest ⟨⟩ entry hentry at_ hfired
        rcases List.mem_cons.mp hentry with rfl | hentry
        · cases hfired
        · exact (hfrom.later entry hentry at_ hfired).2
      · exact hfrom.increasing
      · rintro first rest ⟨⟩ time hoccurs hlater ⟨entry, hentry, hle⟩
        rcases List.mem_cons.mp hentry with rfl | hentry
        · exact absurd hle (not_le.mpr hlater)
        obtain ⟨front, found, back, hseen, hfound, hothers⟩ :=
          hfrom.accounted time hoccurs hlater ⟨entry, hentry, hle⟩
        refine ⟨_ :: front, found, back, congrArg _ hseen, hfound, ?_⟩
        exact List.forall_mem_cons.mpr ⟨Set.notMem_empty time, hothers⟩

/-- What is promised of the verdicts on a schedule holds at every moment just
when every scan finds all that has passed. -/
theorem watch_exact_iff {ticks : List (Int × List Schedule)}
    (hclock : clock.cursors id = none)
    (hall : ∀ entry ∈ ticks, Lists id e entry.2) :
    (∀ front, front <+: ticks → Exact e.Occurs (watch id clock front)) ↔
      ScansSuffice e.Occurs (ticks.map (·.1)) := by
  constructor
  · intro hexact front now back hticks hfront
    obtain ⟨fronts, others, rfl, rfl, hothers⟩ := List.map_eq_append_iff.mp hticks
    obtain ⟨tick, backs, rfl, rfl, rfl⟩ := List.map_eq_cons_iff.mp hothers
    have hticks : fronts ++ [tick] <+: fronts ++ tick :: backs :=
      ⟨backs, List.append_assoc _ _ _⟩
    have htimes := watch_times id clock (fronts ++ [tick])
    rw [List.map_append, List.map_singleton] at htimes
    obtain ⟨init, last, hwatch, hinit, hlast⟩ :=
      List.map_eq_append_iff.mp htimes
    obtain ⟨last, rfl, hnow⟩ := List.map_eq_singleton_iff.mp hlast
    have hmem : last ∈ watch id clock (fronts ++ [tick]) := by
      rw [hwatch]
      exact List.mem_append_right init (List.mem_singleton.mpr rfl)
    have hupto : ∀ entry ∈ fronts ++ [tick], Lists id e entry.2 :=
      fun entry hentry => hall entry (hticks.subset hentry)
    refine (Set.encard_le_encard ?_).trans (watch_accounts hupto hmem).1
    rintro time ⟨hoccurs, hlater, hle⟩
    obtain ⟨first, rest, rfl⟩ : ∃ first rest, init = first :: rest := by
      cases init with
      | nil => exact absurd hinit.symm hfront
      | cons first rest => exact ⟨first, rest, rfl⟩
    have hfirst : first.1 < time :=
      hlater first.1 (hinit ▸ List.mem_map_of_mem List.mem_cons_self)
    -- the tick that accounts for it is no earlier one: those are all before it
    obtain ⟨before, found, after, hseen, hfound, -⟩ :=
      (hexact _ hticks).accounted first (rest ++ [last]) hwatch time hoccurs
        hfirst ⟨last, hmem, hnow ▸ hle⟩
    have hin : found ∈ watch id clock (fronts ++ [tick]) := by
      rw [hseen]
      exact List.mem_append_right before List.mem_cons_self
    have hreach := (watch_accounts hupto hin).2 time hfound
    rw [hwatch] at hin
    rcases List.mem_append.mp hin with hin | hin
    · have hearlier := hlater found.1 (hinit ▸ List.mem_map_of_mem hin)
      exact absurd hreach (not_le.mpr hearlier)
    · exact List.mem_singleton.mp hin ▸ hfound
  · intro hscans front hfront
    refine watch_exact hclock
      (fun entry hentry => hall entry (hfront.subset hentry)) ?_
    obtain ⟨more, rfl⟩ := hfront
    intro before now back hticks hbefore
    refine hscans before now (back ++ more.map (·.1)) ?_ hbefore
    rw [List.map_append, hticks, List.append_assoc, List.cons_append]

end Watching

section EveryMinute

theorem everyMinute_occurs (n : Int) : everyMinute.Occurs (n * MINUTE) := by
  have hmonths : ∀ month : Fin 13, 1 ≤ month.val →
      Schedule.contains everyMinute.month month = true := by decide
  have hhours : ∀ hour : Fin 24,
      Schedule.contains everyMinute.hour hour = true := by decide
  have hminutes : ∀ minute : Fin 60,
      Schedule.contains everyMinute.minute minute = true := by decide
  refine ⟨Int.mul_emod_left n MINUTE, ?_, ?_, ?_⟩
  · obtain ⟨hlow, hhigh⟩ := CronExpr.month_le (dayOf (n * MINUTE))
    refine CronExpr.matchesDate_of_dom (fun h => h)
      (hmonths ⟨_, Nat.lt_succ_of_le hhigh⟩ hlow) ?_
    exact CronExpr.contains_dom rfl (CronExpr.day_le _).1 (CronExpr.day_le _).2
  · exact hhours ⟨_, Nat.lt_succ_of_le (hourOf_le _)⟩
  · exact hminutes ⟨_, Nat.lt_succ_of_le (minuteOf_le _)⟩

theorem everyMinute_nextAfter (n : Int) :
    everyMinute.nextAfter (n * MINUTE) = some ((n + 1) * MINUTE) := by
  refine First.unique (CronExpr.nextAfter_finds everyMinute (n * MINUTE)) ?_
  refine ⟨⟨everyMinute_occurs (n + 1), ?_⟩, ?_⟩
  · simp only [MINUTE]
    omega
  · rintro time ⟨⟨haligned, -⟩, hlater⟩
    simp only [MINUTE] at *
    omega

/-- A scan that may find fewer minutes than have passed stops short. -/
theorem everyMinute_scan {now : Int} (count : Nat) (n : Int)
    (hnow : (n + count + 1) * MINUTE ≤ now) :
    (scan everyMinute.nextAfter now (count + 1) (n * MINUTE)).getLast? =
      some ((n + count + 1) * MINUTE) := by
  induction count generalizing n with
  | zero =>
      rw [Nat.cast_zero, Int.add_zero] at hnow ⊢
      rw [scan, everyMinute_nextAfter]
      simp only [hnow, if_true]
      rfl
  | succ count ih =>
      have hsame : n + (count + 1 : Nat) + 1 = n + 1 + count + 1 := by omega
      have hfirst : (n + 1) * MINUTE ≤ now := by
        simp only [MINUTE] at *
        omega
      rw [hsame] at hnow ⊢
      rw [scan, everyMinute_nextAfter]
      simp only [hfirst, if_true]
      rw [List.getLast?_cons, ih (n + 1) hnow]
      rfl

/-- The loop sleeps for fifty hours. -/
def sleptRun : List (Int × List Schedule) :=
  [(0, [everyMinuteSchedule]), (3000 * MINUTE, [everyMinuteSchedule]),
    (3001 * MINUTE, [everyMinuteSchedule])]

theorem sleptRun_lists :
    ∀ entry ∈ sleptRun, Lists everyMinuteSchedule.id everyMinute entry.2 := by
  intro entry hentry
  have hall : entry.2 = [everyMinuteSchedule] := by
    rcases hentry with _ | ⟨_, _ | ⟨_, _ | ⟨_, ⟨⟩⟩⟩⟩ <;> rfl
  rw [hall]
  exact ⟨List.nodup_singleton _, everyMinuteSchedule,
    List.mem_singleton.mpr rfl, rfl, rfl, rfl⟩

/-- A tick that finds more than it may scan comes as far as the scan. -/
theorem everyMinute_tick {clock : ScheduleClock} {now : Int} (n : Int)
    (hcursor : (clock.cursors everyMinuteSchedule.id).getD now = n * MINUTE)
    (hnow : (n + MISSED_SCAN_MAX) * MINUTE ≤ now) :
    dueOf everyMinuteSchedule.id (clock.tick now [everyMinuteSchedule]).1 =
        ScheduleClock.verdict (clock.stall now)
          (scan everyMinute.nextAfter now MISSED_SCAN_MAX (n * MINUTE)) ∧
      (scan everyMinute.nextAfter now MISSED_SCAN_MAX (n * MINUTE)).getLast? =
        some ((n + MISSED_SCAN_MAX) * MINUTE) ∧
      (clock.tick now [everyMinuteSchedule]).2.cursors everyMinuteSchedule.id =
        some ((n + MISSED_SCAN_MAX) * MINUTE) := by
  have hlists : Lists everyMinuteSchedule.id everyMinute
      [everyMinuteSchedule] :=
    sleptRun_lists (0, [everyMinuteSchedule]) List.mem_cons_self
  obtain ⟨hdue, hmoved⟩ := @dueOf_tick _ _ clock now _ hlists
  have hcount : n + MISSED_SCAN_MAX = n + (999 : Nat) + 1 := by
    rw [MISSED_SCAN_MAX]
    omega
  have hlast := everyMinute_scan 999 n (hcount ▸ hnow)
  rw [← hcount] at hlast
  rw [hcursor] at hdue hmoved
  refine ⟨hdue, hlast, ?_⟩
  rw [hmoved]
  exact congrArg (fun last => some (last.getD (n * MINUTE))) hlast

theorem sleptRun_exact_iff :
    (∀ front, front <+: sleptRun → Exact everyMinute.Occurs
        (watch everyMinuteSchedule.id .default front)) ↔
      ScansSuffice everyMinute.Occurs (sleptRun.map (·.1)) :=
  watch_exact_iff rfl sleptRun_lists

/-- A minute of the sleep is fired by the tick after the one that ends it. -/
theorem sleptRun_not_exact :
    CronExpr.parse "* * * * *" = .ok everyMinute ∧
      (∀ entry ∈ sleptRun,
        Lists everyMinuteSchedule.id everyMinute entry.2) ∧
      ¬ Exact everyMinute.Occurs
        (watch everyMinuteSchedule.id .default sleptRun) := by
  refine ⟨parse_everyMinute, sleptRun_lists, fun hexact => ?_⟩
  rw [sleptRun, watch, watch, watch, watch] at hexact
  have hawake := (@tick_first _ _ .default 0 _
    (sleptRun_lists _ List.mem_cons_self) rfl).2
  generalize (ScheduleClock.default.tick 0 [everyMinuteSchedule]).2 = awake
    at hexact hawake
  obtain ⟨-, -, hslept⟩ := @everyMinute_tick awake (3000 * MINUTE) 0
    (by rw [hawake]; rfl) (by decide)
  have hlastTick : (awake.tick (3000 * MINUTE) [everyMinuteSchedule]).2.lastTick =
      some (3000 * MINUTE) := ScheduleClock.tick_lastTick
  generalize (awake.tick (3000 * MINUTE) [everyMinuteSchedule]).2 = slept
    at hexact hslept hlastTick
  obtain ⟨hdue, hlast, -⟩ := @everyMinute_tick slept (3001 * MINUTE) 1000
    (by rw [hslept]; rfl) (by decide)
  have hfired := congrArg Due.fired hdue
  rw [ScheduleClock.verdict, hlast, ScheduleClock.stall,
    ScheduleClock.beginTick, hlastTick] at hfired
  exact hexact.slept [] 0 _ (3000 * MINUTE) _ _ rfl (by decide)
    (3001 * MINUTE, _) (List.mem_cons_of_mem _ List.mem_cons_self)
    (2000 * MINUTE) hfired (by decide) (by decide)

end EveryMinute

end Web

end XBackup
