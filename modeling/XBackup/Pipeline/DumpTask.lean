/-
The task that writes the archive of a dump into a pipe, the handle that collects
its outcome, and the full backup that stores what the pipe delivers.
-/
import XBackup.Engine.WholeArchives
import XBackup.Pipeline.Incremental

namespace XBackup

open Transition

inductive DumpEngine where
  | native
  | postgres
  | mysql
deriving DecidableEq, Repr

/-- The whole archives of an engine, their End frame included. -/
def DumpEngine.IsArchive (lib : BsonLib) (bytes : List UInt8) :
    DumpEngine → Prop
  | .native => ∃ createdAt collections,
      Native.writeArchive lib createdAt collections = .ok bytes
  | .postgres => ∃ d, Postgres.writeDump lib d = .ok bytes
  | .mysql => ∃ d, Mysql.writeDump lib d = .ok bytes

inductive TaskPhase where
  | writing (rest : List UInt8)
  | returned (res : Except XBackupError Unit)
  | ended

/-- The task of `dump_stream`: what it has put into the pipe, the rows it has
counted, what `write_archive` has returned, the outcome cell, and whether it
ended while it held a lock that `finish` takes. -/
structure DumpTask where
  phase : TaskPhase
  written : List UInt8
  rows : List (String × Nat)
  returned : Option (Except XBackupError Unit)
  outcome : Option (Except XBackupError Unit)
  poisoned : Bool

inductive TaskStep where
  | write (bytes : Nat)
  | count (ns : String) (rows : Nat)
  | fail (err : XBackupError)
  | endArchive
  | store
  | die (poisoned : Bool)

namespace DumpTask

def start (archive : List UInt8) : DumpTask where
  phase := .writing archive
  written := []
  rows := []
  returned := none
  outcome := none
  poisoned := false

/-- A step of the task.  Whenever it panics or is aborted, its side of the pipe
is dropped and the outcome cell stays empty. -/
def step (task : DumpTask) : TaskStep → Option DumpTask
  | .write bytes =>
      match task.phase with
      | .writing rest => some { task with
          phase := .writing (rest.drop bytes)
          written := task.written ++ rest.take bytes }
      | _ => none
  | .count ns rows =>
      match task.phase with
      | .writing _ => some { task with rows := task.rows ++ [(ns, rows)] }
      | _ => none
  | .fail err =>
      match task.phase with
      | .writing _ => some { task with
          phase := .returned (.error err)
          returned := some (.error err) }
      | _ => none
  | .endArchive =>
      match task.phase with
      | .writing [] => some { task with
          phase := .returned (.ok ())
          returned := some (.ok ()) }
      | _ => none
  | .store =>
      match task.phase with
      | .returned res => some { task with
          phase := .ended
          outcome := some res }
      | _ => none
  | .die poisoned =>
      match task.phase with
      | .ended => none
      | _ => some { task with
          phase := .ended
          poisoned := poisoned }

end DumpTask

/-- How a call ends that waits for a task. -/
inductive CallEnd (α : Type) where
  | ok (value : α)
  | err (err : XBackupError)
  | panicked

/-- An empty outcome cell is taken for a good one. -/
def DumpTask.finish (task : DumpTask) : CallEnd (List (String × Nat)) :=
  match task.outcome.getD (.ok ()) with
  | .error err => .err err
  | .ok () => if task.poisoned then .panicked else .ok task.rows

/-- The stages of a backup and their reverse stack. -/
structure StageStack where
  apply : List UInt8 → List UInt8
  reverse : List UInt8 → Option (List UInt8)
  reverse_apply : ∀ bytes, reverse (apply bytes) = some bytes

/-- What a backup leaves at its destination. -/
structure StoredBackup where
  data : Option (List UInt8)
  manifest : Option BackupManifest

def StoredBackup.nothing : StoredBackup := ⟨none, none⟩

/-- What the server and the destination answer to a full backup. -/
structure BackupWorld where
  connected : Except XBackupError Unit
  serverMeta : Except XBackupError Topology
  oplogStart : Except XBackupError (Option OplogTimestamp)
  dumper : Except XBackupError Unit
  put : Except XBackupError Unit
  oplogEnd : Except XBackupError (Option OplogTimestamp)
  manifest : Except XBackupError Unit

/-- The upload takes what the pipe delivers until it is closed; a backup whose
dump failed is deleted. -/
def storeDumpStream (world : BackupWorld) (stages : StageStack)
    (task : DumpTask) : StoredBackup × CallEnd (List (String × Nat)) :=
  match world.put with
  | .error err => (.nothing, .err err)
  | .ok () =>
      match task.finish with
      | .err err => (.nothing, .err err)
      | .panicked => (⟨some (stages.apply task.written), none⟩, .panicked)
      | .ok rows => (⟨some (stages.apply task.written), none⟩, .ok rows)

def oplogRangeOf : Option OplogTimestamp → Option OplogTimestamp →
    Option OplogRange
  | some start, some end_ => some ⟨start, end_⟩
  | _, _ => none

/-- The oplog is asked only when its window is recorded. -/
def askOplog (recordOplog : Bool)
    (answer : Except XBackupError (Option OplogTimestamp)) :
    Except XBackupError (Option OplogTimestamp) :=
  if recordOplog then answer else .ok none

/-- Before the dump: the topology, whether the window of the oplog is recorded,
and where it starts. -/
def prepareBackup (selective : Bool) (world : BackupWorld) :
    Except XBackupError (Topology × Bool × Option OplogTimestamp) := do
  world.connected
  let topology ← world.serverMeta
  let recordOplog := decideOplog (topology = .replicaSet) selective
  let oplogStart ← askOplog recordOplog world.oplogStart
  world.dumper
  return (topology, recordOplog, oplogStart)

def runFullBackup (id createdAt : String) (selective : Bool)
    (world : BackupWorld) (stages : StageStack) (task : DumpTask) :
    StoredBackup × CallEnd (List (String × Nat)) :=
  match prepareBackup selective world with
  | .error err => (.nothing, .err err)
  | .ok (topology, recordOplog, oplogStart) =>
      match storeDumpStream world stages task with
      | (stored, .ok rows) =>
          match askOplog recordOplog world.oplogEnd, world.manifest with
          | .error err, _ => (stored, .err err)
          | .ok _, .error err => (.nothing, .err err)
          | .ok oplogEnd, .ok () =>
              let manifest := mongoFullManifest id createdAt .native topology
                selective (oplogRangeOf oplogStart oplogEnd) false
              ({ stored with manifest := some manifest }, .ok rows)
      | failed => failed

/-- Good news of a dump is true: `finish` returns it only when `write_archive`
did, with its End frame in the pipe, and a backup is recorded as complete only
when its data decodes to a whole archive. -/
structure Truthful (lib : BsonLib) (engine : DumpEngine) (task : DumpTask) :
    Prop where
  finish : ∀ rows, task.finish = .ok rows →
    task.returned = some (.ok ()) ∧ engine.IsArchive lib task.written
  complete : engine = .native →
    ∀ id createdAt selective world stages stored end_ m,
      runFullBackup id createdAt selective world stages task = (stored, end_) →
      stored.manifest = some m → m.status = .complete →
        ∃ data archive, stored.data = some data ∧
          stages.reverse data = some archive ∧
            DumpEngine.native.IsArchive lib archive

/-- The task does not end by a panic or an abort before `write_archive` has
returned Ok, unless it poisons a lock that `finish` takes. -/
def NotCutOff (task : DumpTask) (step : TaskStep) : Prop :=
  step = .die false → task.returned = some (.ok ())

section Task

variable {task next last : DumpTask} {label : TaskStep}
  {steps : List TaskStep} {archive : List UInt8}

/-- A task that has ended takes no further step. -/
theorem DumpTask.step_ended (hended : task.phase = .ended) :
    task.step label = none := by
  cases label <;> simp [DumpTask.step, hended]

/-- What a task holds of its archive, wherever it stands. -/
structure DumpTask.Sound (archive : List UInt8) (task : DumpTask) : Prop where
  writing : ∀ rest, task.phase = .writing rest →
    task.written ++ rest = archive ∧ task.returned = none
  returning : ∀ res, task.phase = .returned res → task.returned = some res
  waiting : task.phase ≠ .ended → task.outcome = none ∧ task.poisoned = false
  whole : task.returned = some (.ok ()) → task.written = archive
  outcome : ∀ res, task.outcome = some res → task.returned = some res

theorem DumpTask.start_sound (archive : List UInt8) :
    (DumpTask.start archive).Sound archive where
  writing := by
    rintro rest ⟨⟩
    exact ⟨rfl, rfl⟩
  returning := by
    rintro res ⟨⟩
  waiting := fun _ => ⟨rfl, rfl⟩
  whole := by
    rintro ⟨⟩
  outcome := by
    rintro res ⟨⟩

theorem DumpTask.Sound.step (hsound : task.Sound archive)
    (hstep : task.step label = some next) : next.Sound archive := by
  cases label with
  | write bytes =>
      simp only [DumpTask.step] at hstep
      split at hstep
      · next rest hphase =>
        cases hstep
        obtain ⟨hwritten, hreturned⟩ := hsound.writing rest hphase
        obtain ⟨houtcome, hpoisoned⟩ := hsound.waiting (by rw [hphase]; simp)
        refine ⟨?_, ?_, fun _ => ⟨houtcome, hpoisoned⟩, ?_, hsound.outcome⟩
        · rintro _ ⟨⟩
          refine ⟨?_, hreturned⟩
          rw [List.append_assoc, List.take_append_drop, hwritten]
        · rintro res ⟨⟩
        · intro hok
          cases hreturned.symm.trans hok
      · cases hstep
  | count ns rows =>
      simp only [DumpTask.step] at hstep
      split at hstep
      · cases hstep
        exact ⟨hsound.writing, hsound.returning, hsound.waiting, hsound.whole,
          hsound.outcome⟩
      · cases hstep
  | fail err =>
      simp only [DumpTask.step] at hstep
      split at hstep
      · next rest hphase =>
        cases hstep
        have hwaiting := hsound.waiting (by rw [hphase]; simp)
        refine ⟨?_, ?_, fun _ => hwaiting, ?_, ?_⟩
        · rintro rest ⟨⟩
        · rintro res ⟨⟩
          rfl
        · rintro ⟨⟩
        · intro res hres
          cases hwaiting.1.symm.trans hres
      · cases hstep
  | endArchive =>
      simp only [DumpTask.step] at hstep
      split at hstep
      · next hphase =>
        cases hstep
        have hwaiting := hsound.waiting (by rw [hphase]; simp)
        refine ⟨?_, ?_, fun _ => hwaiting, ?_, ?_⟩
        · rintro rest ⟨⟩
        · rintro res ⟨⟩
          rfl
        · intro _
          have hwritten := (hsound.writing [] hphase).1
          rwa [List.append_nil] at hwritten
        · intro res hres
          cases hwaiting.1.symm.trans hres
      · cases hstep
  | store =>
      simp only [DumpTask.step] at hstep
      split at hstep
      · next res hphase =>
        cases hstep
        have hreturned := hsound.returning res hphase
        refine ⟨?_, ?_, ?_, hsound.whole, ?_⟩
        · rintro rest ⟨⟩
        · rintro res ⟨⟩
        · intro hended
          exact absurd rfl hended
        · rintro _ ⟨⟩
          exact hreturned
      · cases hstep
  | die poisoned =>
      simp only [DumpTask.step] at hstep
      split at hstep
      · cases hstep
      · cases hstep
        refine ⟨?_, ?_, ?_, hsound.whole, hsound.outcome⟩
        · rintro rest ⟨⟩
        · rintro res ⟨⟩
        · intro hended
          exact absurd rfl hended

theorem DumpTask.run_sound
    (hrun : run DumpTask.step (.start archive) steps = some last) :
    last.Sound archive :=
  run_invariant (DumpTask.Sound archive)
    (fun _ _ _ hsound hstep => hsound.step hstep) (DumpTask.start_sound archive)
    hrun

/-- The task ended with an empty outcome cell, and what `write_archive` did is
not to be seen from it. -/
structure DumpTask.Silent (task : DumpTask) : Prop where
  outcome : task.outcome = none
  poisoned : task.poisoned = false
  returned : task.returned ≠ some (.ok ())

theorem DumpTask.finish_ok_iff (hsound : task.Sound archive) :
    (∀ rows, task.finish = .ok rows → task.returned = some (.ok ())) ↔
      ¬ task.Silent := by
  constructor
  · intro hfinish hsilent
    refine hsilent.returned (hfinish task.rows ?_)
    rw [DumpTask.finish, hsilent.outcome, hsilent.poisoned]
    rfl
  · intro hloud rows hfinish
    rw [DumpTask.finish] at hfinish
    cases houtcome : task.outcome with
    | some res =>
        rw [houtcome, Option.getD_some] at hfinish
        cases res with
        | error err => cases hfinish
        | ok value => exact hsound.outcome _ houtcome
    | none =>
        by_contra hreturned
        rw [houtcome, Option.getD_none] at hfinish
        cases hpoisoned : task.poisoned with
        | true => simp [hpoisoned] at hfinish
        | false => exact hloud ⟨houtcome, hpoisoned, hreturned⟩

/-- How a step ends a task, if it does. -/
theorem DumpTask.ended_cases (hphase : task.phase ≠ .ended)
    (hsound : task.Sound archive) (hstep : task.step label = some next)
    (hended : next.phase = .ended) :
    (label = .store ∧ next.outcome ≠ none) ∨
      ∃ poisoned, label = .die poisoned ∧ next.poisoned = poisoned ∧
        next.outcome = none ∧ next.returned = task.returned := by
  cases label with
  | write bytes =>
      simp only [DumpTask.step] at hstep
      split at hstep
      · cases hstep
        cases hended
      · cases hstep
  | count ns rows =>
      simp only [DumpTask.step] at hstep
      split at hstep
      · cases hstep
        exact absurd hended hphase
      · cases hstep
  | fail err =>
      simp only [DumpTask.step] at hstep
      split at hstep
      · cases hstep
        cases hended
      · cases hstep
  | endArchive =>
      simp only [DumpTask.step] at hstep
      split at hstep
      · cases hstep
        cases hended
      · cases hstep
  | store =>
      simp only [DumpTask.step] at hstep
      split at hstep
      · cases hstep
        exact Or.inl ⟨rfl, by simp⟩
      · cases hstep
  | die poisoned =>
      simp only [DumpTask.step] at hstep
      cases hstep
      exact Or.inr ⟨poisoned, rfl, rfl, (hsound.waiting hphase).1, rfl⟩

theorem DumpTask.step_notCutOff (hphase : next.phase ≠ .ended)
    (hstep : task.step label = some next) : NotCutOff task label := by
  rintro rfl
  simp only [DumpTask.step] at hstep
  split at hstep
  · cases hstep
  · cases hstep
    exact absurd rfl hphase

/-- A task ends silently exactly when it was cut off. -/
theorem DumpTask.stepsMeet_notCutOff (hsound : task.Sound archive)
    (hphase : task.phase ≠ .ended)
    (hrun : run DumpTask.step task steps = some last)
    (hended : last.phase = .ended) :
    StepsMeet DumpTask.step NotCutOff task steps ↔ ¬ last.Silent := by
  induction steps generalizing task with
  | nil =>
      cases hrun
      exact absurd hended hphase
  | cons label rest ih =>
      obtain ⟨next, hnext, hrest⟩ := run_cons_eq_some.mp hrun
      have hmeet : StepsMeet DumpTask.step NotCutOff task (label :: rest) ↔
          NotCutOff task label ∧ StepsMeet DumpTask.step NotCutOff next rest := by
        refine and_congr_right fun _ => ⟨fun hall => hall next hnext, ?_⟩
        intro hall other hother
        cases hnext.symm.trans hother
        exact hall
      rw [hmeet]
      by_cases hnextEnded : next.phase = .ended
      · cases rest with
        | cons other rest =>
            obtain ⟨_, hother, -⟩ := run_cons_eq_some.mp hrest
            rw [DumpTask.step_ended hnextEnded] at hother
            cases hother
        | nil =>
            cases hrest
            rcases DumpTask.ended_cases hphase hsound hnext hnextEnded with
              ⟨rfl, houtcome⟩ | ⟨poisoned, rfl, hpoisoned, houtcome, hreturned⟩
            · refine iff_of_true ⟨?_, trivial⟩ fun hsilent => houtcome hsilent.outcome
              rintro ⟨⟩
            · constructor
              · rintro ⟨hok, -⟩ hsilent
                apply hsilent.returned
                rw [hreturned]
                apply hok
                rw [← hpoisoned, hsilent.poisoned]
              · intro hloud
                refine ⟨?_, trivial⟩
                intro hdie
                by_contra hnot
                cases hdie
                exact hloud ⟨houtcome, hpoisoned, hreturned ▸ hnot⟩
      · rw [ih (hsound.step hnext) hnextEnded hrest]
        exact and_iff_right (DumpTask.step_notCutOff hnextEnded hnext)

end Task

section Backup

variable {id createdAt : String} {selective : Bool} {world : BackupWorld}
  {stages : StageStack} {task : DumpTask} {stored : StoredBackup}
  {end_ : CallEnd (List (String × Nat))}

theorem storeDumpStream_manifest : (storeDumpStream world stages task).1.manifest =
    none := by
  rw [storeDumpStream]
  split
  · rfl
  · split <;> rfl

theorem storeDumpStream_ok {rows : List (String × Nat)}
    (hstore : storeDumpStream world stages task = (stored, .ok rows)) :
    task.finish = .ok rows ∧ stored.data = some (stages.apply task.written) := by
  rw [storeDumpStream] at hstore
  split at hstore
  · cases hstore
  · split at hstore
    · cases hstore
    · cases hstore
    · next hfinish =>
      cases hstore
      exact ⟨hfinish, rfl⟩

/-- A manifest is written only of a dump that finished well, beside what its
task has put into the pipe. -/
theorem runFullBackup_manifest {m : BackupManifest}
    (hbackup : runFullBackup id createdAt selective world stages task =
      (stored, end_)) (hm : stored.manifest = some m) :
    ∃ rows, task.finish = .ok rows ∧
      stored.data = some (stages.apply task.written) := by
  rw [runFullBackup] at hbackup
  have hnone := @storeDumpStream_manifest world stages task
  split at hbackup
  · cases hbackup
    cases hm
  · split at hbackup
    · next before rows hstore =>
      rw [hstore] at hnone
      split at hbackup
      · cases hbackup
        cases hnone.symm.trans hm
      · cases hbackup
        cases hm
      · cases hbackup
        obtain ⟨hfinish, hdata⟩ := storeDumpStream_ok hstore
        exact ⟨rows, hfinish, hdata⟩
    · rw [hbackup] at hnone
      cases hnone.symm.trans hm

/-- However the task of a dump ends, good news of it is true exactly when it
was not cut off. -/
theorem dump_truthful_iff (lib : BsonLib) (engine : DumpEngine)
    (archive : List UInt8) (harchive : engine.IsArchive lib archive)
    (steps : List TaskStep) (task : DumpTask)
    (hrun : run DumpTask.step (.start archive) steps = some task)
    (hended : task.phase = .ended) :
    Truthful lib engine task ↔
      StepsMeet DumpTask.step NotCutOff (.start archive) steps := by
  have hsound := DumpTask.run_sound hrun
  rw [DumpTask.stepsMeet_notCutOff (DumpTask.start_sound archive) (by
    rintro ⟨⟩) hrun hended, ← DumpTask.finish_ok_iff hsound]
  constructor
  · intro htruthful rows hfinish
    exact (htruthful.finish rows hfinish).1
  · intro hfinish
    refine ⟨fun rows hok => ?_, ?_⟩
    · have hreturned := hfinish rows hok
      rw [hsound.whole hreturned]
      exact ⟨hreturned, harchive⟩
    · rintro rfl id createdAt selective world stages stored end_ m hbackup hm -
      obtain ⟨rows, hok, hdata⟩ := runFullBackup_manifest hbackup hm
      refine ⟨_, archive, hdata, ?_, harchive⟩
      rw [hsound.whole (hfinish rows hok), stages.reverse_apply]

end Backup

section Notes

/-- No whole archive is empty. -/
theorem DumpEngine.native_ne_nil {lib : BsonLib} :
    ¬ DumpEngine.native.IsArchive lib [] := by
  rintro ⟨createdAt, collections, hwrite⟩
  have hitems := Native.writeItems_of_archive hwrite
  obtain ⟨parts, -, hparts⟩ := Fallible.map_eq_ok.mp hitems
  simp at hparts

def plainStages : StageStack where
  apply := id
  reverse := some
  reverse_apply := fun _ => rfl

def quietWorld : BackupWorld where
  connected := .ok ()
  serverMeta := .ok .standalone
  oplogStart := .ok none
  dumper := .ok ()
  put := .ok ()
  oplogEnd := .ok none
  manifest := .ok ()

/-- A dump that writes its whole archive. -/
theorem dump_truthful_notes :
    ∃ archive task, DumpEngine.native.IsArchive cutLib archive ∧
      run DumpTask.step (.start archive)
        [.write archive.length, .count "app.notes" 1, .endArchive, .store] =
          some task ∧
      task.finish = .ok [("app.notes", 1)] ∧
        Truthful cutLib .native task := by
  obtain ⟨archive, hwritten⟩ :=
    exists_written (Native.storable_archive notesCollection_fits)
  have harchive : DumpEngine.native.IsArchive cutLib archive :=
    ⟨_, _, Native.writeArchive_eq hwritten⟩
  have hrun : run DumpTask.step (.start archive)
      [.write archive.length, .count "app.notes" 1, .endArchive, .store] =
        some
          { phase := .ended
            written := archive
            rows := [("app.notes", 1)]
            returned := some (.ok ())
            outcome := some (.ok ())
            poisoned := false } := by
    simp [run, DumpTask.step, DumpTask.start]
  refine ⟨archive, _, harchive, hrun, rfl, ?_⟩
  apply (dump_truthful_iff cutLib .native archive harchive _ _ hrun rfl).mpr
  apply stepsMeet_of_forall_mem
  intro label hlabel task hdie
  subst hdie
  simp at hlabel

/-- A task that panics before its first byte: the backup is recorded as
complete, and there is no archive in it. -/
theorem dump_cutOff :
    ∃ archive task, DumpEngine.native.IsArchive cutLib archive ∧
      run DumpTask.step (.start archive) [.die false] = some task ∧
      task.phase = .ended ∧ task.finish = .ok [] ∧ task.returned = none ∧
      runFullBackup "1" "2026-01-01T00:00:00Z" false quietWorld plainStages
          task =
        (⟨some [], some (mongoFullManifest "1" "2026-01-01T00:00:00Z" .native
          .standalone false none false)⟩, .ok []) ∧
      ¬ DumpEngine.native.IsArchive cutLib [] ∧
        ¬ Truthful cutLib .native task := by
  obtain ⟨archive, hwritten⟩ :=
    exists_written (Native.storable_archive notesCollection_fits)
  refine ⟨archive, _, ⟨_, _, Native.writeArchive_eq hwritten⟩, rfl, rfl, rfl,
    rfl, rfl, DumpEngine.native_ne_nil, ?_⟩
  intro htruthful
  cases (htruthful.finish [] rfl).1

end Notes

end XBackup
