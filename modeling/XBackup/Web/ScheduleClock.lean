/-
The loop that fires schedules: how far each schedule has been judged, and how
long the loop has slept.
-/
import XBackup.Web.Schedule

namespace XBackup

namespace Web

open Calendar Occurrences

def LATE_FIRE_LIMIT : Int := HOUR

/-- Until when each schedule has been judged, and when the last tick was. -/
structure ScheduleClock where
  cursors : ScheduleId → Option Int
  lastTick : Option Int

/-- The verdict on a schedule in a tick. -/
inductive Due where
  | fire (at_ : Int) (coalesced : Nat)
  | tooLate (at_ : Int) (coalesced : Nat)
  | notYet
deriving DecidableEq, Repr

namespace ScheduleClock

def default : ScheduleClock where
  cursors := fun _ => none
  lastTick := none

variable (clock : ScheduleClock)

/-- Starts a tick, and tells how long the loop has slept. -/
def beginTick (now : Int) : ScheduleClock × Int :=
  let stall :=
    match clock.lastTick with
    | some previous => now - previous
    | none => 0
  ({ clock with lastTick := some now }, stall)

/-- The loop of `evaluate`: the last of the occurrences that have passed, and
their number. -/
def scanPassed (e : CronExpr) (now : Int) :
    (rounds : Nat) → (probe : Int) → (latest : Option Int) → (passed : Nat) →
      Option Int × Nat
  | 0, _, latest, passed => (latest, passed)
  | rounds + 1, probe, latest, passed =>
      match e.nextAfter probe with
      | some next =>
          if next ≤ now then
            scanPassed e now rounds next (some next) (passed + 1)
          else (latest, passed)
      | none => (latest, passed)

def insertCursor (id : ScheduleId) (time : Int) : ScheduleClock :=
  { clock with cursors := Function.update clock.cursors id (some time) }

/-- Judges a schedule, and moves its cursor on. -/
def evaluate (schedule : Schedule) (now stall : Int) : Due × ScheduleClock :=
  let cursor := (clock.cursors schedule.id).getD now
  let clock := clock.insertCursor schedule.id cursor
  let (latest, passed) :=
    scanPassed schedule.expr now MISSED_SCAN_MAX cursor none 0
  match latest with
  | none => (.notYet, clock)
  | some at_ =>
      let clock := clock.insertCursor schedule.id at_
      let coalesced := passed - 1
      if LATE_FIRE_LIMIT < stall then (.tooLate at_ coalesced, clock)
      else (.fire at_ coalesced, clock)

def retainKnown (schedules : List Schedule) : ScheduleClock :=
  { clock with
    cursors := fun id =>
      if schedules.any (·.id = id) then clock.cursors id else none }

/-- The schedules of a tick one by one. -/
def evaluateAll (now stall : Int) : ScheduleClock → List Schedule →
    List (Schedule × Due) × ScheduleClock
  | clock, [] => ([], clock)
  | clock, schedule :: rest =>
      let (due, clock) := clock.evaluate schedule now stall
      let (others, clock) := evaluateAll now stall clock rest
      ((schedule, due) :: others, clock)

/-- One round of `scheduler_loop` over the schedules that the store lists. -/
def tick (now : Int) (all : List Schedule) :
    List (Schedule × Due) × ScheduleClock :=
  let (clock, stall) := clock.beginTick now
  let clock := clock.retainKnown all
  evaluateAll now stall clock (all.filter (·.enabled))

section Evaluating

variable {clock} {schedule other : Schedule} {now stall : Int}

theorem scanPassed_eq (e : CronExpr) (now : Int) (rounds : Nat) (probe : Int)
    (latest : Option Int) (passed : Nat) :
    scanPassed e now rounds probe latest passed =
      ((scan e.nextAfter now rounds probe).getLast?.or latest,
        passed + (scan e.nextAfter now rounds probe).length) := by
  induction rounds generalizing probe latest passed with
  | zero => rfl
  | succ rounds ih =>
      rw [scanPassed, scan]
      cases hnext : e.nextAfter probe with
      | none => rfl
      | some found =>
          by_cases hnow : found ≤ now
          · simp only [hnow, if_true]
            rw [ih, List.length_cons, List.getLast?_cons, Nat.add_assoc,
              Nat.add_comm 1]
            cases (scan e.nextAfter now rounds found).getLast? <;> rfl
          · simp only [hnow, if_false]
            rfl

/-- What `evaluate` scans for a schedule. -/
def passed (clock : ScheduleClock) (schedule : Schedule) (now : Int) :
    List Int :=
  scan schedule.expr.nextAfter now MISSED_SCAN_MAX
    ((clock.cursors schedule.id).getD now)

/-- The verdict is on the last time that the scan has found. -/
def verdict (stall : Int) (times : List Int) : Due :=
  match times.getLast? with
  | none => .notYet
  | some at_ =>
      if LATE_FIRE_LIMIT < stall then .tooLate at_ (times.length - 1)
      else .fire at_ (times.length - 1)

theorem evaluate_due : (clock.evaluate schedule now stall).1 =
    verdict stall (clock.passed schedule now) := by
  rw [evaluate, verdict, passed]
  simp only [scanPassed_eq, Option.or_none, Nat.zero_add]
  split
  next => rfl
  next => split <;> rfl

/-- The cursor stands at the last time found, or where it was. -/
theorem evaluate_cursor :
    (clock.evaluate schedule now stall).2.cursors schedule.id =
      some ((clock.passed schedule now).getLast?.getD
        ((clock.cursors schedule.id).getD now)) := by
  rw [evaluate, passed]
  simp only [scanPassed_eq, Option.or_none, Nat.zero_add]
  split
  next hnone =>
    rw [hnone]
    exact Function.update_self _ _ _
  next at_ hsome =>
    rw [hsome]
    split <;> exact Function.update_self _ _ _

theorem evaluate_other {id : ScheduleId} (hid : id ≠ schedule.id) :
    (clock.evaluate schedule now stall).2.cursors id = clock.cursors id := by
  rw [evaluate]
  simp only [scanPassed_eq]
  split
  next => exact Function.update_of_ne hid _ _
  next =>
    split <;> simp only [insertCursor, Function.update_of_ne hid]

theorem evaluate_lastTick :
    (clock.evaluate schedule now stall).2.lastTick = clock.lastTick := by
  rw [evaluate]
  simp only [scanPassed_eq]
  split
  next => rfl
  next => split <;> rfl

theorem passed_congr {others : ScheduleClock}
    (hcursor : others.cursors schedule.id = clock.cursors schedule.id) :
    others.passed schedule now = clock.passed schedule now := by
  rw [passed, passed, hcursor]

/-- A schedule is judged by its own cursor: no other schedule moves it. -/
theorem evaluateAll_fst {schedules : List Schedule}
    (hids : (schedules.map (·.id)).Nodup) :
    (evaluateAll now stall clock schedules).1 = schedules.map fun schedule =>
      (schedule, verdict stall (clock.passed schedule now)) := by
  induction schedules generalizing clock with
  | nil => rfl
  | cons schedule rest ih =>
      rw [List.map_cons, List.nodup_cons] at hids
      rw [evaluateAll, List.map_cons]
      simp only
      rw [ih hids.2, evaluate_due]
      congr 1
      apply List.map_congr_left
      intro other hother
      have hne : other.id ≠ schedule.id := by
        intro hsame
        exact hids.1 (hsame ▸ List.mem_map_of_mem hother)
      rw [passed_congr (evaluate_other hne)]

theorem evaluateAll_other {schedules : List Schedule} {id : ScheduleId}
    (hid : id ∉ schedules.map (·.id)) :
    (evaluateAll now stall clock schedules).2.cursors id = clock.cursors id := by
  induction schedules generalizing clock with
  | nil => rfl
  | cons schedule rest ih =>
      rw [List.map_cons, List.mem_cons, not_or] at hid
      rw [evaluateAll]
      simp only
      rw [ih hid.2, evaluate_other hid.1]

theorem evaluateAll_cursor {schedules : List Schedule}
    (hids : (schedules.map (·.id)).Nodup) (hmem : schedule ∈ schedules) :
    (evaluateAll now stall clock schedules).2.cursors schedule.id =
      some ((clock.passed schedule now).getLast?.getD
        ((clock.cursors schedule.id).getD now)) := by
  induction schedules generalizing clock with
  | nil => cases hmem
  | cons first rest ih =>
      rw [List.map_cons, List.nodup_cons] at hids
      rw [evaluateAll]
      simp only
      rcases List.mem_cons.mp hmem with rfl | hmem
      · rw [evaluateAll_other hids.1, evaluate_cursor]
      · have hne : schedule.id ≠ first.id := by
          intro hsame
          exact hids.1 (hsame ▸ List.mem_map_of_mem hmem)
        rw [ih hids.2 hmem, passed_congr (evaluate_other hne),
          evaluate_other hne]

theorem evaluateAll_lastTick {schedules : List Schedule} :
    (evaluateAll now stall clock schedules).2.lastTick = clock.lastTick := by
  induction schedules generalizing clock with
  | nil => rfl
  | cons schedule rest ih =>
      rw [evaluateAll]
      simp only
      rw [ih, evaluate_lastTick]

end Evaluating

section Ticking

variable {clock} {schedule : Schedule} {now : Int} {all : List Schedule}

/-- How long the loop has slept before a tick. -/
def stall (clock : ScheduleClock) (now : Int) : Int :=
  (clock.beginTick now).2

theorem retainKnown_cursor (hmem : schedule ∈ all) :
    ((clock.beginTick now).1.retainKnown all).cursors schedule.id =
      clock.cursors schedule.id := by
  have hany : all.any (·.id = schedule.id) = true :=
    List.any_eq_true.mpr ⟨schedule, hmem, decide_eq_true rfl⟩
  rw [retainKnown]
  simp only [hany, if_true]
  rfl

theorem enabled_ids (hids : (all.map (·.id)).Nodup) :
    ((all.filter (·.enabled)).map (·.id)).Nodup :=
  hids.sublist (List.filter_sublist.map _)

theorem tick_fst (hids : (all.map (·.id)).Nodup) :
    (clock.tick now all).1 = (all.filter (·.enabled)).map fun schedule =>
      (schedule, verdict (clock.stall now) (clock.passed schedule now)) := by
  rw [tick]
  simp only
  rw [evaluateAll_fst (enabled_ids hids)]
  apply List.map_congr_left
  intro schedule hschedule
  rw [passed_congr (retainKnown_cursor (List.mem_of_mem_filter hschedule))]
  rfl

theorem tick_cursor (hids : (all.map (·.id)).Nodup) (hmem : schedule ∈ all)
    (henabled : schedule.enabled = true) :
    (clock.tick now all).2.cursors schedule.id =
      some ((clock.passed schedule now).getLast?.getD
        ((clock.cursors schedule.id).getD now)) := by
  rw [tick]
  simp only
  rw [evaluateAll_cursor (enabled_ids hids)
      (List.mem_filter.mpr ⟨hmem, henabled⟩),
    passed_congr (retainKnown_cursor hmem), retainKnown_cursor hmem]

/-- The cursor of a schedule that is off stays where it was. -/
theorem tick_cursor_disabled (hids : (all.map (·.id)).Nodup)
    (hmem : schedule ∈ all) (hdisabled : schedule.enabled = false) :
    (clock.tick now all).2.cursors schedule.id = clock.cursors schedule.id := by
  have hout : schedule.id ∉ (all.filter (·.enabled)).map (·.id) := by
    intro hin
    obtain ⟨other, hother, hsame⟩ := List.mem_map.mp hin
    obtain ⟨hotherMem, henabled⟩ := List.mem_filter.mp hother
    rw [List.inj_on_of_nodup_map hids hotherMem hmem hsame, hdisabled] at henabled
    cases henabled
  rw [tick]
  simp only
  rw [evaluateAll_other hout, retainKnown_cursor hmem]

theorem tick_cursor_unknown {id : ScheduleId} (hid : id ∉ all.map (·.id)) :
    (clock.tick now all).2.cursors id = none := by
  have hout : id ∉ (all.filter (·.enabled)).map (·.id) := fun hin =>
    hid (List.map_subset _ (List.filter_subset_self _) hin)
  have hany : all.any (·.id = id) = false := by
    rw [List.any_eq_false]
    intro schedule hmem hsame
    exact hid (of_decide_eq_true hsame ▸ List.mem_map_of_mem hmem)
  rw [tick]
  simp only
  rw [evaluateAll_other hout, retainKnown]
  simp only [hany, Bool.false_eq_true, if_false]

theorem tick_lastTick : (clock.tick now all).2.lastTick = some now := by
  rw [tick]
  simp only
  rw [evaluateAll_lastTick]
  rfl

end Ticking

end ScheduleClock

end Web

end XBackup
