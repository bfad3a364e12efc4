/-
What is fired while the schedules are edited.
-/
import XBackup.Web.Firing

namespace XBackup

namespace Web

open Calendar Occurrences

/-- A tick of the loop, or an edit of the store. -/
inductive Event where
  | tick
  | create (id : ScheduleId) (draft : ScheduleDraft)
  | update (id : ScheduleId) (draft : ScheduleDraft)
  | delete (id : ScheduleId)
  | recordRun (id : ScheduleId) (firedAt : Int) (jobId : Option JobId)

/-- The store and the loop, and what the store has held from each event on, the
newest first. -/
structure World where
  schedules : List Schedule
  clock : ScheduleClock
  log : List (Int × List Schedule)

namespace World

/-- The server starts with what the store has loaded. -/
def start (now : Int) (schedules : List Schedule) : World where
  schedules := schedules
  clock := .default
  log := [(now, schedules)]

variable (w : World) (now : Int)

/-- What the store holds after an event: a rejected edit changes nothing. -/
def edited : Event → List Schedule
  | .tick => w.schedules
  | .create id draft =>
      (createIn w.schedules (draft.created id now)).toOption.getD w.schedules
  | .update id draft =>
      (updateIn w.schedules id draft).toOption.getD w.schedules
  | .delete id => (deleteIn w.schedules id).toOption.getD w.schedules
  | .recordRun id firedAt jobId =>
      (recordRunIn w.schedules id firedAt jobId).getD w.schedules

/-- An edit leaves the loop alone. -/
def ticked : Event → ScheduleClock
  | .tick => (w.clock.tick now w.schedules).2
  | _ => w.clock

def step (event : Event) : World where
  schedules := w.edited now event
  clock := w.ticked now event
  log := (now, w.edited now event) :: w.log

def run (events : List (Int × Event)) : World :=
  events.foldl (fun w event => w.step event.1 event.2) w

/-- A new schedule has an identifier that was never used. -/
def Fresh : Event → Prop
  | .create id _ => ∀ entry ∈ w.log, id ∉ entry.2.map (·.id)
  | _ => True

/-- What turns a schedule on, or changes the expression of one that is on, comes
before the first occurrence that the loop has not judged. -/
def Clear : Event → Prop
  | .update id draft => ∀ schedule ∈ w.schedules, schedule.id = id →
      ¬ (schedule.enabled = true ∧ schedule.expr = draft.expr) →
      draft.enabled = true → ∀ cursor, w.clock.cursors id = some cursor →
        ∀ time, draft.expr.Occurs time → cursor < time → now ≤ time
  | _ => True

end World

/-- A schedule of the list is on with this expression. -/
def On (id : ScheduleId) (e : CronExpr) (schedules : List Schedule) : Prop :=
  ∃ schedule ∈ schedules, schedule.id = id ∧ schedule.enabled = true ∧
    schedule.expr = e

/-- At this time the schedule was on with the expression, and it has been
since. -/
def OnSince (id : ScheduleId) (e : CronExpr) (time : Int) :
    (until_ : Int) → List (Int × List Schedule) → Prop
  | _, [] => False
  | until_, (since, schedules) :: log => On id e schedules ∧
      (since ≤ time ∧ time ≤ until_ ∨ OnSince id e time since log)

/-- While the schedule has been on, there was an event no later than this
time. -/
def OnBefore (id : ScheduleId) (e : CronExpr) (time : Int) :
    List (Int × List Schedule) → Prop
  | [] => False
  | (since, schedules) :: log =>
      On id e schedules ∧ (since ≤ time ∨ OnBefore id e time log)

/-- The last of these events that is no later is followed by one that is no
earlier. -/
theorem OnBefore.onSince {id : ScheduleId} {e : CronExpr} {time until_ : Int}
    {log : List (Int × List Schedule)} (hbefore : OnBefore id e time log)
    (huntil : time ≤ until_) : OnSince id e time until_ log := by
  induction log generalizing until_ with
  | nil => exact hbefore
  | cons entry log ih =>
      obtain ⟨since, schedules⟩ := entry
      obtain ⟨hon, hbefore⟩ := hbefore
      refine ⟨hon, ?_⟩
      by_cases hsince : since ≤ time
      · exact Or.inl ⟨hsince, huntil⟩
      · exact Or.inr (ih (hbefore.resolve_left hsince)
          (le_of_lt (not_le.mp hsince)))

section Histories

variable {w : World} {now : Int}

/-- What holds of the schedules and the loop after any events. -/
structure World.Judged (w : World) : Prop where
  ids : (w.schedules.map (·.id)).Nodup
  held : ∃ since, (since, w.schedules) ∈ w.log
  known : ∀ id cursor, w.clock.cursors id = some cursor →
    ∃ entry ∈ w.log, id ∈ entry.2.map (·.id)
  unjudged : ∀ schedule ∈ w.schedules, schedule.enabled = true →
    ∀ cursor, w.clock.cursors schedule.id = some cursor →
      ∀ time, schedule.expr.Occurs time → cursor < time →
        OnBefore schedule.id schedule.expr time w.log

theorem World.Judged.start {schedules : List Schedule}
    (hids : (schedules.map (·.id)).Nodup) : (start now schedules).Judged where
  ids := hids
  held := ⟨now, List.mem_singleton.mpr rfl⟩
  known := fun id cursor hcursor => by cases hcursor
  unjudged := fun schedule _ _ cursor hcursor => by cases hcursor

/-- An edit leaves each schedule on with its expression, or comes before what
the loop has not judged of it. -/
theorem World.Judged.edit (hw : w.Judged) {schedules : List Schedule}
    (hids : (schedules.map (·.id)).Nodup)
    (hedit : ∀ schedule ∈ schedules, schedule.enabled = true →
      On schedule.id schedule.expr w.schedules ∨
        ∀ cursor, w.clock.cursors schedule.id = some cursor →
          ∀ time, schedule.expr.Occurs time → cursor < time → now ≤ time) :
    Judged ⟨schedules, w.clock, (now, schedules) :: w.log⟩ where
  ids := hids
  held := ⟨now, List.mem_cons_self⟩
  known := by
    intro id cursor hcursor
    obtain ⟨entry, hentry, hid⟩ := hw.known id cursor hcursor
    exact ⟨entry, List.mem_cons_of_mem _ hentry, hid⟩
  unjudged := by
    intro schedule hmem henabled cursor hcursor time hoccurs hlater
    refine ⟨⟨schedule, hmem, rfl, henabled, rfl⟩, ?_⟩
    rcases hedit schedule hmem henabled with hon | hclear
    · obtain ⟨old, hold, hid, hon, hexpr⟩ := hon
      refine Or.inr ?_
      rw [← hid] at hcursor ⊢
      rw [← hexpr] at hoccurs ⊢
      exact hw.unjudged old hold hon cursor hcursor time hoccurs hlater
    · exact Or.inl (hclear cursor hcursor time hoccurs hlater)

theorem World.step_tick : w.step now .tick =
    ⟨w.schedules, (w.clock.tick now w.schedules).2,
      (now, w.schedules) :: w.log⟩ :=
  rfl

/-- A tick moves the cursors on, and sets new ones to its own time. -/
theorem World.Judged.tick (hw : w.Judged) : (w.step now .tick).Judged := by
  rw [step_tick]
  refine ⟨hw.ids, ⟨now, List.mem_cons_self⟩, ?_, ?_⟩
  · intro id cursor hcursor
    refine ⟨_, List.mem_cons_self, ?_⟩
    by_contra hid
    rw [ScheduleClock.tick_cursor_unknown hid] at hcursor
    cases hcursor
  · intro schedule hmem henabled cursor hcursor time hoccurs hlater
    refine ⟨⟨schedule, hmem, rfl, henabled, rfl⟩, ?_⟩
    rw [ScheduleClock.tick_cursor hw.ids hmem henabled] at hcursor
    cases hcursor
    have hbehind := (getD_scan (CronExpr.nextAfter_finds schedule.expr) now
      ((w.clock.cursors schedule.id).getD now) MISSED_SCAN_MAX).1.trans_lt hlater
    cases hold : w.clock.cursors schedule.id with
    | none =>
        rw [hold] at hbehind
        exact Or.inl (le_of_lt hbehind)
    | some old =>
        rw [hold] at hbehind
        exact Or.inr (hw.unjudged schedule hmem henabled old hold time hoccurs
          hbehind)

/-- What an edit must keep of the schedules that are on. -/
def World.Keeps (w : World) (now : Int) (schedules : List Schedule) : Prop :=
  (schedules.map (·.id)).Nodup ∧ ∀ schedule ∈ schedules,
    schedule.enabled = true → On schedule.id schedule.expr w.schedules ∨
      ∀ cursor, w.clock.cursors schedule.id = some cursor →
        ∀ time, schedule.expr.Occurs time → cursor < time → now ≤ time

theorem World.Judged.keeps_of_subset (hw : w.Judged)
    {schedules : List Schedule} (hsub : schedules.Sublist w.schedules) :
    w.Keeps now schedules := by
  refine ⟨hw.ids.sublist (hsub.map _), fun schedule hmem henabled => ?_⟩
  exact Or.inl ⟨schedule, hsub.subset hmem, rfl, henabled, rfl⟩

theorem World.Judged.keeps_create (hw : w.Judged) {id : ScheduleId}
    {draft : ScheduleDraft} (hfresh : w.Fresh (.create id draft)) :
    w.Keeps now (w.schedules ++ [draft.created id now]) := by
  constructor
  · rw [List.map_append, List.map_singleton]
    obtain ⟨since, hheld⟩ := hw.held
    refine hw.ids.append (List.nodup_singleton _) ?_
    exact List.disjoint_singleton.mpr (hfresh _ hheld)
  · intro schedule hmem henabled
    rcases List.mem_append.mp hmem with hmem | hmem
    · exact Or.inl ⟨schedule, hmem, rfl, henabled, rfl⟩
    · refine Or.inr fun cursor hcursor => ?_
      obtain ⟨entry, hentry, hid⟩ := hw.known _ cursor hcursor
      rw [List.mem_singleton.mp hmem] at hid
      exact absurd hid (hfresh entry hentry)

theorem World.Judged.keeps_set (hw : w.Judged) {index : Nat}
    {old schedule : Schedule} (hold : w.schedules[index]? = some old)
    (hid : schedule.id = old.id)
    (hon : schedule.enabled = true →
      (old.enabled = true ∧ old.expr = schedule.expr) ∨
        ∀ cursor, w.clock.cursors schedule.id = some cursor →
          ∀ time, schedule.expr.Occurs time → cursor < time → now ≤ time) :
    w.Keeps now (w.schedules.set index schedule) := by
  constructor
  · rw [ids_set hold hid]
    exact hw.ids
  · intro other hmem henabled
    rcases List.mem_or_eq_of_mem_set hmem with hmem | rfl
    · exact Or.inl ⟨other, hmem, rfl, henabled, rfl⟩
    · refine (hon henabled).imp_left ?_
      rintro ⟨holdOn, hexpr⟩
      exact ⟨old, List.mem_of_getElem? hold, hid.symm, holdOn, hexpr⟩

theorem World.Judged.keeps (hw : w.Judged) {event : Event}
    (hfresh : w.Fresh event) (hclear : w.Clear now event) :
    w.Keeps now (w.edited now event) := by
  have hunchanged : w.Keeps now w.schedules :=
    hw.keeps_of_subset (List.Sublist.refl _)
  cases event with
  | tick => exact hunchanged
  | create id draft =>
      rw [edited]
      cases hresult : createIn w.schedules (draft.created id now) with
      | error _ => exact hunchanged
      | ok result =>
          rw [createIn_ok hresult]
          exact hw.keeps_create hfresh
  | update id draft =>
      rw [edited]
      cases hresult : updateIn w.schedules id draft with
      | error _ => exact hunchanged
      | ok result =>
          obtain ⟨index, old, hold, rfl, rfl⟩ := updateIn_ok hresult
          refine hw.keeps_set hold rfl fun henabled => ?_
          by_cases hon : old.enabled = true ∧ old.expr = draft.expr
          · exact Or.inl hon
          · exact Or.inr (hclear old (List.mem_of_getElem? hold) rfl hon
              henabled)
  | delete id =>
      rw [edited]
      cases hresult : deleteIn w.schedules id with
      | error _ => exact hunchanged
      | ok result =>
          obtain ⟨index, rfl⟩ := deleteIn_ok hresult
          exact hw.keeps_of_subset (List.eraseIdx_sublist _ _)
  | recordRun id firedAt jobId =>
      rw [edited]
      cases hresult : recordRunIn w.schedules id firedAt jobId with
      | none => exact hunchanged
      | some result =>
          obtain ⟨index, old, hold, rfl, rfl⟩ := recordRunIn_some hresult
          exact hw.keeps_set hold rfl fun henabled => Or.inl ⟨henabled, rfl⟩

theorem World.Judged.step (hw : w.Judged) {event : Event}
    (hfresh : w.Fresh event) (hclear : w.Clear now event) :
    (w.step now event).Judged := by
  obtain ⟨hids, hkept⟩ := hw.keeps hfresh hclear
  cases event with
  | tick => exact hw.tick
  | create => exact hw.edit hids hkept
  | update => exact hw.edit hids hkept
  | delete => exact hw.edit hids hkept
  | recordRun => exact hw.edit hids hkept

theorem World.Judged.run (hw : w.Judged) {events : List (Int × Event)}
    (hfresh : ∀ front now event back, events = front ++ (now, event) :: back →
      (w.run front).Fresh event)
    (hclear : ∀ front now event back, events = front ++ (now, event) :: back →
      (w.run front).Clear now event) : (w.run events).Judged := by
  induction events generalizing w with
  | nil => exact hw
  | cons first events ih =>
      obtain ⟨now, event⟩ := first
      refine ih (hw.step (hfresh [] now event events rfl)
        (hclear [] now event events rfl)) ?_ ?_
      · intro front later other back hevents
        exact hfresh ((now, event) :: front) later other back
          (congrArg _ hevents)
      · intro front later other back hevents
        exact hclear ((now, event) :: front) later other back
          (congrArg _ hevents)

/-- What a tick fires was unjudged, and has passed. -/
theorem World.Judged.onSince (hw : w.Judged) {schedule : Schedule}
    {at_ : Int} {coalesced : Nat}
    (hfire : (schedule, Due.fire at_ coalesced) ∈
      (w.clock.tick now w.schedules).1) :
    schedule ∈ w.schedules ∧ schedule.expr.Occurs at_ ∧
      OnSince schedule.id schedule.expr at_ now w.log := by
  rw [ScheduleClock.tick_fst hw.ids] at hfire
  obtain ⟨other, hother, hsame⟩ := List.mem_map.mp hfire
  obtain ⟨rfl, hverdict⟩ := Prod.ext_iff.mp hsame
  obtain ⟨hmem, henabled⟩ := List.mem_filter.mp hother
  obtain ⟨hpassed, -⟩ := fired_verdict (congrArg Due.fired hverdict)
  obtain ⟨hoccurs, hlater, hnow⟩ :=
    mem_scan (CronExpr.nextAfter_finds other.expr) hpassed
  refine ⟨hmem, hoccurs, ?_⟩
  cases hcursor : w.clock.cursors other.id with
  | none =>
      rw [hcursor] at hlater
      exact absurd hnow (not_le.mpr hlater)
  | some cursor =>
      rw [hcursor] at hlater
      exact (hw.unjudged other hmem henabled cursor hcursor at_ hoccurs
        hlater).onSince hnow

section Toggled

def SECOND : Int := 1000000000

def everyMinuteDraft (enabled : Bool) : ScheduleDraft where
  profile := ⟨everyMinuteSchedule.profile, by decide⟩
  expr := everyMinute
  kind := everyMinuteSchedule.kind
  enabled := enabled
  parsed := ⟨"* * * * *", parse_everyMinute⟩

/-- A schedule is turned off, and on again. -/
def toggled (on : Int) : List (Int × Event) :=
  [(0, .tick),
    (10 * SECOND, .update everyMinuteSchedule.id (everyMinuteDraft false)),
    (on, .update everyMinuteSchedule.id (everyMinuteDraft true))]

def toggledWorld (on : Int) : World :=
  (World.start 0 [everyMinuteSchedule]).run (toggled on)

theorem toggledWorld_eq (on : Int) : toggledWorld on =
    { schedules := [everyMinuteSchedule]
      clock := (ScheduleClock.default.tick 0 [everyMinuteSchedule]).2
      log :=
        [(on, [everyMinuteSchedule]),
          (10 * SECOND, [{ everyMinuteSchedule with enabled := false }]),
          (0, [everyMinuteSchedule]), (0, [everyMinuteSchedule])] } := by
  rfl

theorem toggled_cursor : (ScheduleClock.default.tick 0
    [everyMinuteSchedule]).2.cursors everyMinuteSchedule.id = some 0 :=
  (tick_first (sleptRun_lists _ List.mem_cons_self) rfl).2

/-- The first minute is fired at after the schedule is back. -/
theorem mem_toggled_tick (on : Int) :
    (everyMinuteSchedule, Due.fire MINUTE 0) ∈
      ((toggledWorld on).clock.tick (100 * SECOND)
        (toggledWorld on).schedules).1 := by
  have hcursor := toggled_cursor
  have hlastTick : (ScheduleClock.default.tick 0
      [everyMinuteSchedule]).2.lastTick = some 0 := ScheduleClock.tick_lastTick
  rw [toggledWorld_eq]
  generalize (ScheduleClock.default.tick 0 [everyMinuteSchedule]).2 = clock
    at hcursor hlastTick ⊢
  have hids : ([everyMinuteSchedule].map (·.id)).Nodup :=
    List.nodup_singleton _
  have hpassed : clock.passed everyMinuteSchedule (100 * SECOND) =
      [MINUTE] := by
    rw [ScheduleClock.passed, hcursor]
    have hfirst : everyMinute.nextAfter 0 = some MINUTE :=
      everyMinute_nextAfter 0
    have hsecond : everyMinute.nextAfter MINUTE = some (2 * MINUTE) :=
      everyMinute_nextAfter 1
    have hpast : MINUTE ≤ 100 * SECOND ∧ ¬ 2 * MINUTE ≤ 100 * SECOND := by
      decide
    have hcount : MISSED_SCAN_MAX = 998 + 1 + 1 := rfl
    change scan everyMinute.nextAfter _ MISSED_SCAN_MAX 0 = _
    rw [hcount, scan, hfirst]
    simp only [hpast.1, if_true]
    rw [scan, hsecond]
    simp only [hpast.2, if_false]
  rw [ScheduleClock.tick_fst hids]
  refine List.mem_map.mpr ⟨everyMinuteSchedule, List.mem_singleton.mpr rfl, ?_⟩
  rw [hpassed, ScheduleClock.stall, ScheduleClock.beginTick, hlastTick]
  rfl

end Toggled

end Histories

end Web

end XBackup
