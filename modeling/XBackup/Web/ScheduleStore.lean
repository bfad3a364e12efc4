/-
The store of the schedules over its files, and what the bookkeeping of the loop
does to a damaged file.
-/
import XBackup.Web.ScheduleFile

namespace XBackup

namespace Web

/-- The file of the schedules, the one before it, and the copy of a damaged
body. -/
structure Files where
  main : Option (List UInt8)
  prev : Option (List UInt8)
  corrupt : Option (List UInt8)

/-- How a copy over a file ends: a failed one may leave anything. -/
inductive Copy where
  | done
  | failed (left : Option (List UInt8))

def Copy.left (content : List UInt8) : Copy → Option (List UInt8)
  | .done => some content
  | .failed left => left

def Copy.isDone : Copy → Bool
  | .done => true
  | .failed _ => false

structure ScheduleStore where
  snapshot : List Schedule
  report : LoadReport
  mainTrusted : Bool

/-- What a load meets: errors of the reads, and the end of the copy. -/
structure LoadEnv where
  mainError : Option String
  prevError : Option String
  corruptCopy : Copy

/-- What a write meets: the end of the copy, and an error before the rename. -/
structure WriteEnv where
  prevCopy : Copy
  error : Option String

def readFile (file : Option (List UInt8)) : Option String → FileRead
  | some reason => .failed reason
  | none =>
      match file with
      | some content => .bytes content
      | none => .notFound

namespace Files

variable (files : Files)

/-- The first step of `writeGeneration`. -/
def keepPrev (keep : Bool) (copy : Copy) : Files :=
  match files.main with
  | some content =>
      if keep then { files with prev := copy.left content } else files
  | none => files

/-- The rename of `writeAtomic`. -/
def replace (bytes : List UInt8) : Files :=
  { files with main := some bytes }

def writeGeneration (bytes : List UInt8) (keep : Bool) (env : WriteEnv) :
    Except String Unit × Files :=
  match env.error with
  | some reason => (.error reason, files.keepPrev keep env.prevCopy)
  | none => (.ok (), (files.keepPrev keep env.prevCopy).replace bytes)

/-- A body that cannot be parsed is copied. -/
def keepCorrupt (codec : Codec) (env : LoadEnv) : Files :=
  match readFile files.main env.mainError with
  | .bytes content =>
      match codec.parseFile content with
      | .fatal _ => { files with corrupt := env.corruptCopy.left content }
      | .ok _ _ => files
  | _ => files

end Files

namespace ScheduleStore

variable (codec : Codec)

def load (files : Files) (env : LoadEnv) : ScheduleStore × Files :=
  let (schedules, report) := codec.readWithRecovery
    (readFile files.main env.mainError) (readFile files.prev env.prevError)
    env.corruptCopy.isDone
  ({ snapshot := schedules
     report := report
     mainTrusted := !report.degraded }, files.keepCorrupt codec env)

variable (store : ScheduleStore) (files : Files)

/-- The disk comes first: the snapshot changes after the write. -/
def persist (next : List Schedule) (env : WriteEnv) :
    Except String Unit × ScheduleStore × Files :=
  match files.writeGeneration (codec.body next) store.mainTrusted env with
  | (.error reason, files) => (.error reason, store, files)
  | (.ok (), files) =>
      (.ok (), { store with snapshot := next, mainTrusted := true }, files)

def recordRun (id : ScheduleId) (firedAt : Int) (jobId : Option JobId)
    (env : WriteEnv) : Except String Unit × ScheduleStore × Files :=
  match recordRunIn store.snapshot id firedAt jobId with
  | none => (.ok (), store, files)
  | some next => store.persist codec files next env

end ScheduleStore

/-- What happens to the store while no operator saves. -/
inductive Bookkeeping where
  | recordRun (id : ScheduleId) (firedAt : Int) (jobId : Option JobId)
      (env : WriteEnv)
  | restart (env : LoadEnv)

namespace Bookkeeping

def step (codec : Codec) (state : ScheduleStore × Files) :
    Bookkeeping → ScheduleStore × Files
  | .recordRun id firedAt jobId env =>
      (state.1.recordRun codec state.2 id firedAt jobId env).2
  | .restart env => ScheduleStore.load codec state.2 env

def run (codec : Codec) (state : ScheduleStore × Files)
    (events : List Bookkeeping) : ScheduleStore × Files :=
  events.foldl (step codec) state

/-- It writes nothing: the schedule is not listed, or the write fails. -/
def Spares (store : ScheduleStore) : Bookkeeping → Prop
  | .recordRun id _ _ env =>
      (∀ schedule ∈ store.snapshot, schedule.id ≠ id) ∨ env.error ≠ none
  | .restart _ => True

end Bookkeeping

/-- A part of a body that one of the files has. -/
def Files.Keeps (files : Files) (chunk : List UInt8) : Prop :=
  ∃ content, (files.main = some content ∨ files.prev = some content ∨
    files.corrupt = some content) ∧ chunk <:+: content

/-- Every load reports the damage, and nothing of the body is lost. -/
def Loud (codec : Codec) (original : List UInt8) (files : Files) : Prop :=
  (∀ env, (ScheduleStore.load codec files env).1.report.degraded = true) ∧
    ∀ chunk, chunk <:+: original → files.Keeps chunk

section Damage

variable {codec : Codec} {files : Files} {store : ScheduleStore}
  {original : List UInt8} {events : List Bookkeeping}

/-- A body that cannot be parsed, or has an entry that cannot be read. -/
def Codec.Damaged (codec : Codec) (bytes : List UInt8) : Prop :=
  match codec.parseFile bytes with
  | .fatal _ => True
  | .ok _ unreadable => 0 < unreadable

theorem degraded_iff {env : LoadEnv} (hmain : files.main = some original)
    (henv : env.mainError = none) :
    (ScheduleStore.load codec files env).1.report.degraded = true ↔
      codec.Damaged original := by
  simp only [ScheduleStore.load, readFile, henv, hmain, Codec.readWithRecovery,
    Codec.Damaged]
  cases codec.parseFile original with
  | ok schedules unreadable =>
      simp [LoadReport.degraded, LoadReport.default]
  | fatal reason =>
      simp only
      refine iff_of_true ?_ trivial
      split
      · split <;> rfl
      · rfl

theorem degraded_of_error {env : LoadEnv} (henv : env.mainError ≠ none) :
    (ScheduleStore.load codec files env).1.report.degraded = true := by
  obtain ⟨reason, hreason⟩ := Option.ne_none_iff_exists'.mp henv
  simp only [ScheduleStore.load, readFile, hreason, Codec.readWithRecovery]
  rfl

theorem loud_of_main (hmain : files.main = some original)
    (hdamaged : codec.Damaged original) : Loud codec original files := by
  refine ⟨fun env => ?_, fun chunk hchunk => ?_⟩
  · by_cases henv : env.mainError = none
    · exact (degraded_iff hmain henv).mpr hdamaged
    · exact degraded_of_error henv
  · exact ⟨original, Or.inl hmain, hchunk⟩

theorem keepPrev_main (keep : Bool) (copy : Copy) :
    (files.keepPrev keep copy).main = files.main := by
  rw [Files.keepPrev]
  split
  · split <;> rfl
  · rfl

theorem load_main (env : LoadEnv) :
    (ScheduleStore.load codec files env).2.main = files.main := by
  rw [ScheduleStore.load]
  simp only [Files.keepCorrupt]
  split
  · split <;> rfl
  · rfl

theorem recordRunIn_eq_none {schedules : List Schedule} {id : ScheduleId}
    {firedAt : Int} {jobId : Option JobId} :
    recordRunIn schedules id firedAt jobId = none ↔
      ∀ schedule ∈ schedules, schedule.id ≠ id := by
  rw [recordRunIn]
  split
  next hindex =>
    refine iff_of_true rfl fun schedule hmem hsame => ?_
    have hnone := List.findIdx?_eq_none_iff.mp hindex schedule hmem
    exact absurd hsame (of_decide_eq_false hnone)
  next index hindex =>
    obtain ⟨hlt, hid, -⟩ := List.findIdx?_eq_some_iff_getElem.mp hindex
    rw [List.getElem?_eq_getElem hlt]
    refine iff_of_false (Option.some_ne_none _) fun hgone => ?_
    exact hgone _ (List.getElem_mem hlt) (of_decide_eq_true hid)

theorem recordRun_spares {id : ScheduleId} {firedAt : Int}
    {jobId : Option JobId} {env : WriteEnv}
    (hspares : (Bookkeeping.recordRun id firedAt jobId env).Spares store) :
    (store.recordRun codec files id firedAt jobId env).2.2.main =
      files.main := by
  rw [ScheduleStore.recordRun]
  cases hnext : recordRunIn store.snapshot id firedAt jobId with
  | none => rfl
  | some next =>
      rcases hspares with hgone | herror
      · rw [recordRunIn_eq_none.mpr hgone] at hnext
        cases hnext
      · obtain ⟨reason, hreason⟩ := Option.ne_none_iff_exists'.mp herror
        simp only [ScheduleStore.persist, Files.writeGeneration, hreason]
        exact keepPrev_main _ _

theorem recordRun_writes {id : ScheduleId} {firedAt : Int}
    {jobId : Option JobId} {env : WriteEnv}
    (hwrites : ¬ (Bookkeeping.recordRun id firedAt jobId env).Spares store) :
    ∃ next, recordRunIn store.snapshot id firedAt jobId = some next ∧
      (store.recordRun codec files id firedAt jobId env).2.2.main =
        some (codec.body next) := by
  rw [Bookkeeping.Spares, not_or, not_not] at hwrites
  obtain ⟨hlisted, herror⟩ := hwrites
  cases hnext : recordRunIn store.snapshot id firedAt jobId with
  | none => exact absurd (recordRunIn_eq_none.mp hnext) hlisted
  | some next =>
      refine ⟨next, rfl, ?_⟩
      rw [ScheduleStore.recordRun, hnext]
      simp only [ScheduleStore.persist, Files.writeGeneration, herror]
      rfl

theorem parseFile_checked {bytes : List UInt8} {schedules : List Schedule}
    {unreadable : Nat} (hparse : codec.parseFile bytes = .ok schedules unreadable) :
    ∀ schedule ∈ schedules, schedule.Checked := by
  rw [Codec.parseFile] at hparse
  split at hparse
  next => cases hparse
  next =>
    split at hparse
    next => cases hparse
    next schema values _ =>
      split at hparse
      next => cases hparse
      next =>
        obtain ⟨rfl, -⟩ := ParsedFile.ok.inj hparse
        intro schedule hmem
        rw [Codec.sortById, (List.mergeSort_perm _ _).mem_iff,
          List.mem_filterMap] at hmem
        obtain ⟨entry, hentry, hok⟩ := hmem
        obtain ⟨value, -, rfl⟩ := List.mem_map.mp hentry
        cases hread : codec.readEntry value with
        | error _ =>
            rw [hread] at hok
            cases hok
        | ok read =>
            rw [hread] at hok
            cases hok
            obtain ⟨stored, -, hstored⟩ := Fallible.bind_eq_ok.mp hread
            exact checked_of_intoDomain hstored

theorem load_checked (env : LoadEnv) :
    ∀ schedule ∈ (ScheduleStore.load codec files env).1.snapshot,
      schedule.Checked := by
  simp only [ScheduleStore.load, Codec.readWithRecovery]
  split
  next => exact fun schedule hmem => absurd hmem List.not_mem_nil
  next => exact fun schedule hmem => absurd hmem List.not_mem_nil
  next =>
    split
    next hparse => exact parseFile_checked hparse
    next =>
      split
      next =>
        split
        next hparse => exact parseFile_checked hparse
        next => exact fun schedule hmem => absurd hmem List.not_mem_nil
      next => exact fun schedule hmem => absurd hmem List.not_mem_nil

theorem recordRunIn_checked {schedules next : List Schedule} {id : ScheduleId}
    {firedAt : Int} {jobId : Option JobId}
    (hnext : recordRunIn schedules id firedAt jobId = some next)
    (hchecked : ∀ schedule ∈ schedules, schedule.Checked) :
    ∀ schedule ∈ next, schedule.Checked := by
  obtain ⟨index, entry, hentry, -, rfl⟩ := recordRunIn_some hnext
  intro schedule hmem
  rcases List.mem_or_eq_of_mem_set hmem with hmem | rfl
  · exact hchecked schedule hmem
  · exact hchecked entry (List.mem_of_getElem? hentry)

theorem run_checked {state : ScheduleStore × Files}
    (hchecked : ∀ schedule ∈ state.1.snapshot, schedule.Checked) :
    ∀ schedule ∈ (Bookkeeping.run codec state events).1.snapshot,
      schedule.Checked := by
  induction events generalizing state with
  | nil => exact hchecked
  | cons event events ih =>
      refine ih ?_
      cases event with
      | restart env => exact load_checked env
      | recordRun id firedAt jobId env =>
          simp only [Bookkeeping.step, ScheduleStore.recordRun]
          cases hnext : recordRunIn state.1.snapshot id firedAt jobId with
          | none => exact hchecked
          | some next =>
              simp only [ScheduleStore.persist, Files.writeGeneration]
              cases env.error with
              | some _ => exact hchecked
              | none => exact recordRunIn_checked hnext hchecked

theorem run_main {state : ScheduleStore × Files}
    (hspares : ∀ front event back, events = front ++ event :: back →
      event.Spares (Bookkeeping.run codec state front).1) :
    (Bookkeeping.run codec state events).2.main = state.2.main := by
  induction events generalizing state with
  | nil => rfl
  | cons event events ih =>
      have hstep : (Bookkeeping.step codec state event).2.main =
          state.2.main := by
        have hfirst := hspares [] event events rfl
        cases event with
        | restart env => exact load_main env
        | recordRun id firedAt jobId env => exact recordRun_spares hfirst
      refine (ih fun front other back hevents => ?_).trans hstep
      exact hspares (event :: front) other back (congrArg _ hevents)

/-- A body that the store has written is not damaged. -/
theorem not_damaged_body (hcodec : codec.Faithful) {schedules : List Schedule}
    (hchecked : ∀ schedule ∈ schedules, schedule.Checked) :
    ¬ codec.Damaged (codec.body schedules) := by
  rw [Codec.Damaged, parseFile_body hcodec hchecked]
  exact lt_irrefl 0

/-- What the bookkeeping has written is loaded without a word. -/
theorem not_loud_of_writes (hcodec : codec.Faithful)
    {state : ScheduleStore × Files} {event : Bookkeeping}
    (hchecked : ∀ schedule ∈ state.1.snapshot, schedule.Checked)
    (hwrites : ¬ event.Spares state.1) :
    ¬ Loud codec original (Bookkeeping.step codec state event).2 := by
  intro hloud
  cases event with
  | restart _ => exact hwrites trivial
  | recordRun id firedAt jobId write =>
      obtain ⟨next, hnext, hwritten⟩ := recordRun_writes hwrites
      exact not_damaged_body hcodec (recordRunIn_checked hnext hchecked)
        ((degraded_iff hwritten rfl).mp (hloud.1 ⟨none, none, .done⟩))

/-- The damage is loud at every moment just when the bookkeeping writes
nothing. -/
theorem loud_iff (hcodec : codec.Faithful) {env : LoadEnv}
    (hmain : files.main = some original) (henv : env.mainError = none)
    (hdegraded :
      (ScheduleStore.load codec files env).1.report.degraded = true) :
    (∀ front, front <+: events → Loud codec original
        (Bookkeeping.run codec (ScheduleStore.load codec files env) front).2) ↔
      ∀ front event back, events = front ++ event :: back → event.Spares
        (Bookkeeping.run codec (ScheduleStore.load codec files env) front).1 := by
  have hdamaged := (degraded_iff hmain henv).mp hdegraded
  constructor
  · rintro hloud front event back rfl
    by_contra hwrites
    have hafter := hloud (front ++ [event])
      ⟨back, List.append_assoc front [event] back⟩
    rw [Bookkeeping.run, List.foldl_append] at hafter
    exact not_loud_of_writes hcodec (run_checked (load_checked env)) hwrites
      hafter
  · rintro hspares front ⟨rest, rfl⟩
    refine loud_of_main ((run_main ?_).trans ((load_main env).trans hmain))
      hdamaged
    rintro before event back rfl
    exact hspares before event (back ++ rest) (by simp)

end Damage

section Emptied

/-- The file has been emptied, the one before it is intact. -/
def emptiedFiles : Files where
  main := some []
  prev := some (everyMinuteText "")
  corrupt := none

def quietEnv : LoadEnv where
  mainError := none
  prevError := none
  corruptCopy := .done

/-- The loop records a run of a schedule that the file before has. -/
def firstRun : List Bookkeeping :=
  [.recordRun everyMinuteSchedule.id Calendar.MINUTE none
    { prevCopy := .done, error := none }]

theorem emptied_degraded : (ScheduleStore.load exampleCodec emptiedFiles
    quietEnv).1.report.degraded = true := by
  refine (@degraded_iff _ emptiedFiles [] quietEnv rfl rfl).mpr ?_
  exact trivial

theorem emptied_snapshot : (ScheduleStore.load exampleCodec emptiedFiles
    quietEnv).1.snapshot = [everyMinuteSchedule] := by
  have hempty : ∃ reason, exampleCodec.parseFile [] = .fatal reason :=
    ⟨_, rfl⟩
  obtain ⟨reason, hempty⟩ := hempty
  simp only [ScheduleStore.load, emptiedFiles, quietEnv, readFile,
    Codec.readWithRecovery, hempty, parseFile_everyMinute]

theorem emptied_loud_iff :
    (∀ front, front <+: firstRun → Loud exampleCodec []
        (Bookkeeping.run exampleCodec
          (ScheduleStore.load exampleCodec emptiedFiles quietEnv) front).2) ↔
      ∀ front event back, firstRun = front ++ event :: back → event.Spares
        (Bookkeeping.run exampleCodec
          (ScheduleStore.load exampleCodec emptiedFiles quietEnv) front).1 :=
  loud_iff exampleCodec_faithful rfl rfl emptied_degraded

/-- The run recorded ends the alarm. -/
theorem emptied_not_loud :
    exampleCodec.Faithful ∧
      (ScheduleStore.load exampleCodec emptiedFiles
        quietEnv).1.report.degraded = true ∧
      ¬ ∀ front, front <+: firstRun → Loud exampleCodec []
        (Bookkeeping.run exampleCodec
          (ScheduleStore.load exampleCodec emptiedFiles quietEnv) front).2 := by
  refine ⟨exampleCodec_faithful, emptied_degraded, fun hloud => ?_⟩
  have hwrites : ¬ (Bookkeeping.recordRun everyMinuteSchedule.id Calendar.MINUTE
      none { prevCopy := .done, error := none }).Spares
        (ScheduleStore.load exampleCodec emptiedFiles quietEnv).1 := by
    rintro (hgone | herror)
    · rw [emptied_snapshot] at hgone
      exact hgone everyMinuteSchedule (List.mem_singleton.mpr rfl) rfl
    · exact herror rfl
  exact not_loud_of_writes exampleCodec_faithful (load_checked quietEnv) hwrites
    (hloud firstRun (List.prefix_refl firstRun))

end Emptied

end Web

end XBackup
