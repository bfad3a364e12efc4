/-
The logical replication slot of a PostgreSQL profile and the increments in the
store.  Full and incremental runs are taken apart into the steps that can fail;
source commits come in between at any point.  A position of the write-ahead log
is the number of commits before it.
-/
import XBackup.Engine.DbKind
import XBackup.Foundation.History
import XBackup.Foundation.Transition
import XBackup.Manifest.Store

namespace XBackup

open History Transition

/-- The base of the next increment: the latest complete full backup. -/
def selectPgFullBase (storage : Storage) : Except XBackupError String :=
  latestWhere isPgFull (.usage
    ("there is no Complete full backup to serve as the base for the " ++
      "PostgreSQL incremental — run a full backup (--type full) once with " ++
      "features.incremental.pg_logical=true first.")) storage

def pgFullManifest (id createdAt : String) (selective : Bool) :
    BackupManifest where
  id := id
  createdAt := createdAt
  backupType := .full
  baseId := none
  topology := .standalone
  toolVersions := ⟨none, some PG_FORMAT_ID⟩
  selective := selective
  oplogRange := none
  oplogCount := none
  promotedFromGap := false
  mysqlBinlog := none
  status := .complete

def pgIncrementalManifest (id createdAt baseId : String) (changeCount : Nat) :
    BackupManifest where
  id := id
  createdAt := createdAt
  backupType := .incremental
  baseId := some baseId
  topology := .standalone
  toolVersions := ⟨none, some PG_INCR_FORMAT_ID⟩
  selective := false
  oplogRange := none
  oplogCount := some changeCount
  promotedFromGap := false
  mysqlBinlog := none
  status := .complete

/-- What a recorded increment holds, `start ≤ commit < upto`, and where the
source and the slot stood when it was recorded. -/
structure PgIncrement where
  base : String
  start : Nat
  upto : Nat
  commitsAt : Nat
  slotAt : Option Nat
deriving DecidableEq, Repr

/-- How far the current run has come. -/
inductive PgPhase where
  | idle
  | fullStarted
  | slotDropped
  | slotReady (selective : Bool)
  | fullDumped (selective : Bool) (snapshot : Nat)
  | fullUploaded (selective : Bool) (snapshot : Nat)
  | baseSelected (base : String)
  | captured (base : String) (start upto : Nat)
  | incrUploaded (base : String) (start upto : Nat)
  | incrRecorded (base : String) (upto : Nat)
deriving DecidableEq, Repr

structure PgState where
  commits : Nat
  slot : Option Nat
  catalog : Catalog
  /-- The commits inside a full backup, by its id. -/
  snapshots : String → Nat
  increments : List PgIncrement
  phase : PgPhase

inductive PgStep where
  | commit
  | beginFull (selective : Bool)
  | dropSlot
  | createSlot
  | dump
  | upload
  | recordFull (id createdAt : String)
  | beginIncremental
  | capture (upto : Nat)
  | uploadIncremental
  | recordIncremental (id createdAt : String)
  | advanceSlot
  | fail
deriving DecidableEq, Repr

def recordPgFull (st : PgState) (selective : Bool) (snapshot : Nat)
    (id createdAt : String) : Option PgState :=
  let m := pgFullManifest id createdAt selective
  if hfresh : st.catalog.Fresh m.id then
    some { st with
      catalog := st.catalog.record m hfresh
      snapshots := Function.update st.snapshots id snapshot
      phase := .idle }
  else none

def recordPgIncrement (st : PgState) (base : String) (start upto : Nat)
    (id createdAt : String) : Option PgState :=
  let m := pgIncrementalManifest id createdAt base (upto - start)
  if hfresh : st.catalog.Fresh m.id then
    some { st with
      catalog := st.catalog.record m hfresh
      increments := st.increments ++
        [⟨base, start, upto, st.commits, st.slot⟩]
      phase := .incrRecorded base upto }
  else none

/-- One step of the source or of the run in progress; `none` when the run is
not there.  An incremental run without a base or without a slot ends with
`fail`, as does any run whose next step errs. -/
def pgStep (st : PgState) : PgStep → Option PgState
  | .commit => some { st with commits := st.commits + 1 }
  | .beginFull selective =>
      match st.phase with
      | .idle => some { st with
          phase := if selective then .slotReady true else .fullStarted }
      | _ => none
  | .dropSlot =>
      match st.phase, st.slot with
      | .fullStarted, some _ =>
          some { st with slot := none, phase := .slotDropped }
      | _, _ => none
  | .createSlot =>
      match st.phase, st.slot with
      | .fullStarted, none =>
          some { st with slot := some st.commits, phase := .slotReady false }
      | .slotDropped, none =>
          some { st with slot := some st.commits, phase := .slotReady false }
      | _, _ => none
  | .dump =>
      match st.phase with
      | .slotReady selective =>
          some { st with phase := .fullDumped selective st.commits }
      | _ => none
  | .upload =>
      match st.phase with
      | .fullDumped selective snapshot =>
          some { st with phase := .fullUploaded selective snapshot }
      | _ => none
  | .recordFull id createdAt =>
      match st.phase with
      | .fullUploaded selective snapshot =>
          recordPgFull st selective snapshot id createdAt
      | _ => none
  | .beginIncremental =>
      match st.phase, selectPgFullBase st.catalog.toStorage with
      | .idle, .ok base => some { st with phase := .baseSelected base }
      | _, _ => none
  | .capture upto =>
      match st.phase, st.slot with
      | .baseSelected base, some start =>
          if start ≤ upto ∧ upto ≤ st.commits then
            some { st with phase := .captured base start upto }
          else none
      | _, _ => none
  | .uploadIncremental =>
      match st.phase with
      | .captured base start upto =>
          if start < upto then
            some { st with phase := .incrUploaded base start upto }
          else none
      | _ => none
  | .recordIncremental id createdAt =>
      match st.phase with
      -- an empty slice has no data to upload
      | .captured base start upto =>
          if start = upto then
            recordPgIncrement st base start upto id createdAt
          else none
      | .incrUploaded base start upto =>
          recordPgIncrement st base start upto id createdAt
      | _ => none
  | .advanceSlot =>
      match st.phase with
      | .incrRecorded _ upto =>
          some { st with slot := some upto, phase := .idle }
      | _ => none
  | .fail =>
      match st.phase with
      | .idle => none
      | _ => some { st with phase := .idle }

def PgState.initial (commits : Nat) : PgState where
  commits := commits
  slot := none
  catalog := .empty
  snapshots := fun _ => 0
  increments := []
  phase := .idle

/-- Every commit behind the snapshot of the base and before `position` is in
an increment of the base. -/
def Covered (st : PgState) (base : String) (position : Nat) : Prop :=
  ∀ commit, st.snapshots base ≤ commit → commit < position →
    ∃ incr ∈ st.increments, incr.base = base ∧ incr.start ≤ commit ∧
      commit < incr.upto

/-- What lies between the base of the next increment and the slot is covered. -/
def InSync (st : PgState) : Prop :=
  ∀ base position, selectPgFullBase st.catalog.toStorage = .ok base →
    st.slot = some position → Covered st base position

/-- A commit is in an earlier increment of the base, in this one, or retained
by the slot at the moment this one is recorded. -/
def Kept (earlier : List PgIncrement) (incr : PgIncrement) (commit : Nat) :
    Prop :=
  (∃ prev ∈ earlier, prev.base = incr.base ∧ prev.start ≤ commit ∧
      commit < prev.upto) ∨
    (incr.start ≤ commit ∧ commit < incr.upto) ∨
    ∃ position, incr.slotAt = some position ∧ position ≤ commit

/-- Whenever an increment was recorded, every commit behind the snapshot of its
base was kept. -/
def NothingLost (st : PgState) : Prop :=
  Each (fun earlier incr => ∀ commit, st.snapshots incr.base ≤ commit →
    commit < incr.commitsAt → Kept earlier incr commit) st.increments

/-- The run has made a new slot and not yet recorded its full backup. -/
def PgPhase.realigning : PgPhase → Bool
  | .slotReady false => true
  | .fullDumped false _ => true
  | .fullUploaded false _ => true
  | _ => false

/-- A full run that made a new slot only fails when there is no older base, or
when all that is between the older base and the new slot is in increments. -/
def FailsInSync (st : PgState) (step : PgStep) : Prop :=
  step = .fail → st.phase.realigning = true → InSync st

/-- What is known about the server at each point of a run. -/
def PhaseFacts (st : PgState) : Prop :=
  match st.phase with
  | .slotReady false => st.slot.isSome
  | .fullDumped false snapshot =>
      ∃ position, st.slot = some position ∧ position ≤ snapshot
  | .fullUploaded false snapshot =>
      ∃ position, st.slot = some position ∧ position ≤ snapshot
  | .baseSelected base => selectPgFullBase st.catalog.toStorage = .ok base
  | .captured base start upto =>
      selectPgFullBase st.catalog.toStorage = .ok base ∧
        st.slot = some start ∧ start ≤ upto ∧ upto ≤ st.commits
  | .incrUploaded base start upto =>
      selectPgFullBase st.catalog.toStorage = .ok base ∧
        st.slot = some start ∧ start ≤ upto ∧ upto ≤ st.commits
  | .incrRecorded base upto =>
      selectPgFullBase st.catalog.toStorage = .ok base ∧
        Covered st base upto ∧ upto ≤ st.commits
  | _ => True

/-- The invariant of a profile whose runs fail only in sync. -/
structure PgInv (st : PgState) : Prop where
  slot_le : ∀ position, st.slot = some position → position ≤ st.commits
  sync : st.phase.realigning = false → InSync st
  phase : PhaseFacts st
  bases : ∀ incr ∈ st.increments,
    ∃ m ∈ st.catalog.manifests, m.id = incr.base
  lost : NothingLost st

theorem pgInv_initial (commits : Nat) : PgInv (.initial commits) where
  slot_le := by simp [PgState.initial]
  sync := by
    intro _ base position _ hslot
    cases hslot
  phase := trivial
  bases := by simp [PgState.initial]
  lost := each_nil _

theorem selected_mem {st : PgState} {base : String}
    (hbase : selectPgFullBase st.catalog.toStorage = .ok base) :
    ∃ m ∈ st.catalog.manifests, m.id = base := by
  obtain ⟨m, hmem, -, hid, -⟩ := Catalog.latestWhere_toStorage_iff.mp hbase
  exact ⟨m, hmem, hid⟩

theorem fresh_ne_of_mem {st : PgState} {id base : String}
    (hfresh : st.catalog.Fresh id)
    (hbase : ∃ m ∈ st.catalog.manifests, m.id = base) : base ≠ id := by
  obtain ⟨m, hmem, rfl⟩ := hbase
  exact (hfresh.2 m hmem).ne

/-- The new full backup is the base from now on, and its snapshot lies behind
the slot; a selective one leaves the base as it was. -/
theorem PgInv.recordFull {st next : PgState} {selective : Bool}
    {snapshot : Nat} {id createdAt : String} (hinv : PgInv st)
    (hphase : st.phase = .fullUploaded selective snapshot)
    (hrecord : recordPgFull st selective snapshot id createdAt = some next) :
    PgInv next := by
  simp only [recordPgFull] at hrecord
  split at hrecord
  next hfresh =>
    cases hrecord
    have hold : ∀ base, (∃ m ∈ st.catalog.manifests, m.id = base) →
        Function.update st.snapshots id snapshot base = st.snapshots base :=
      fun base hbase => Function.update_of_ne (fresh_ne_of_mem hfresh hbase) _ _
    refine ⟨hinv.slot_le, ?_, trivial, ?_, ?_⟩
    · intro _ base position hbase hslot commit hlow hhigh
      cases selective with
      | true =>
          have hselected : selectPgFullBase st.catalog.toStorage = .ok base :=
            (Catalog.latestWhere_record_of_not_eligible hfresh rfl).mp hbase
          have hsnapshot := hold base (selected_mem hselected)
          simp only [hsnapshot] at hlow
          exact hinv.sync (by rw [hphase]; rfl) base position hselected hslot
            commit hlow hhigh
      | false =>
          have hselected : selectPgFullBase (st.catalog.record
              (pgFullManifest id createdAt false) hfresh).toStorage = .ok id :=
            Catalog.latestWhere_record_of_eligible hfresh (by rfl)
          have heq : base = id := by
            have hboth := hbase.symm.trans hselected
            exact Except.ok.inj hboth
          subst heq
          have hfacts := hinv.phase
          rw [PhaseFacts, hphase] at hfacts
          obtain ⟨point, hpoint, hle⟩ := hfacts
          simp only [Function.update_self] at hlow
          rw [hpoint] at hslot
          cases hslot
          omega
    · intro incr hincr
      obtain ⟨m, hmem, hid⟩ := hinv.bases incr hincr
      exact ⟨m, List.mem_append_left _ hmem, hid⟩
    · refine hinv.lost.imp ?_
      intro earlier incr hincr hkept commit hlow hhigh
      simp only [hold incr.base (hinv.bases incr hincr)] at hlow
      exact hkept commit hlow hhigh
  · cases hrecord

/-- The increment closes the gap between what was covered and `upto`. -/
theorem PgInv.recordIncrement {st next : PgState} {base : String}
    {start upto : Nat} {id createdAt : String} (hinv : PgInv st)
    (hphase : st.phase.realigning = false)
    (hbase : selectPgFullBase st.catalog.toStorage = .ok base)
    (hslot : st.slot = some start) (hle : upto ≤ st.commits)
    (hrecord : recordPgIncrement st base start upto id createdAt =
      some next) : PgInv next := by
  simp only [recordPgIncrement] at hrecord
  split at hrecord
  next hfresh =>
    cases hrecord
    have hsync := hinv.sync hphase base start hbase hslot
    have hkept : ∀ other, selectPgFullBase (st.catalog.record
        (pgIncrementalManifest id createdAt base (upto - start))
          hfresh).toStorage = .ok other ↔
        selectPgFullBase st.catalog.toStorage = .ok other := fun other =>
      Catalog.latestWhere_record_of_not_eligible hfresh rfl
    refine ⟨hinv.slot_le, ?_, ⟨(hkept base).mpr hbase, ?_, hle⟩, ?_, ?_⟩
    · intro _ other position hother hposition commit hlow hhigh
      obtain ⟨incr, hincr, hcovers⟩ := hinv.sync hphase other position
        ((hkept other).mp hother) hposition commit hlow hhigh
      exact ⟨incr, List.mem_append_left _ hincr, hcovers⟩
    · intro commit hlow hhigh
      rcases lt_or_ge commit start with hbefore | hwithin
      · obtain ⟨incr, hincr, hcovers⟩ := hsync commit hlow hbefore
        exact ⟨incr, List.mem_append_left _ hincr, hcovers⟩
      · exact ⟨⟨base, start, upto, st.commits, st.slot⟩, by simp, rfl,
          hwithin, hhigh⟩
    · intro incr hincr
      have hsome : ∃ m ∈ st.catalog.manifests, m.id = incr.base := by
        rcases List.mem_append.mp hincr with hmem | hnew
        · exact hinv.bases incr hmem
        · rw [List.mem_singleton.mp hnew]
          exact selected_mem hbase
      obtain ⟨m, hmem, hid⟩ := hsome
      exact ⟨m, List.mem_append_left _ hmem, hid⟩
    · refine each_append_singleton.mpr ⟨hinv.lost, ?_⟩
      intro commit hlow _
      rcases lt_or_ge commit start with hbefore | hwithin
      · exact Or.inl (hsync commit hlow hbefore)
      · exact Or.inr (Or.inr ⟨start, hslot, hwithin⟩)
  · cases hrecord

/-- One step keeps the invariant when runs fail only in sync. -/
theorem pgStep_inv {st next : PgState} {step : PgStep} (hinv : PgInv st)
    (hok : FailsInSync st step) (hstep : pgStep st step = some next) :
    PgInv next := by
  have hfacts := hinv.phase
  have hsync := hinv.sync
  cases step with
  | commit =>
      cases hstep
      refine ⟨?_, hinv.sync, ?_, hinv.bases, hinv.lost⟩
      · intro position hslot
        exact (hinv.slot_le position hslot).trans (Nat.le_succ _)
      · unfold PhaseFacts at hfacts ⊢
        split at hfacts <;> simp_all [Covered] <;> omega
  | beginFull selective =>
      simp only [pgStep] at hstep
      split at hstep
      next hphase =>
        cases hstep
        rw [hphase] at hsync
        refine ⟨hinv.slot_le, fun _ => hsync rfl, ?_, hinv.bases, hinv.lost⟩
        cases selective <;> trivial
      · cases hstep
  | dropSlot =>
      simp only [pgStep] at hstep
      split at hstep
      · cases hstep
        refine ⟨?_, ?_, trivial, hinv.bases, hinv.lost⟩
        · intro position hslot
          cases hslot
        · intro _ base position _ hslot
          cases hslot
      · cases hstep
  | createSlot =>
      simp only [pgStep] at hstep
      split at hstep
      all_goals
        cases hstep
        try
          refine ⟨?_, ?_, rfl, hinv.bases, hinv.lost⟩
          · intro position hslot
            cases hslot
            exact le_rfl
          · intro hphase
            cases hphase
  | dump =>
      simp only [pgStep] at hstep
      split at hstep
      next selective hphase =>
        cases hstep
        rw [hphase] at hsync
        rw [PhaseFacts, hphase] at hfacts
        refine ⟨hinv.slot_le, ?_, ?_, hinv.bases, hinv.lost⟩
        · cases selective with
          | true => exact fun _ => hsync rfl
          | false => exact fun hphase => by cases hphase
        · cases selective with
          | true => trivial
          | false =>
              obtain ⟨position, hslot⟩ := Option.isSome_iff_exists.mp hfacts
              exact ⟨position, hslot, hinv.slot_le position hslot⟩
      · cases hstep
  | upload =>
      simp only [pgStep] at hstep
      split at hstep
      next selective snapshot hphase =>
        cases hstep
        rw [hphase] at hsync
        rw [PhaseFacts, hphase] at hfacts
        refine ⟨hinv.slot_le, ?_, ?_, hinv.bases, hinv.lost⟩
        · cases selective with
          | true => exact fun _ => hsync rfl
          | false => exact fun hphase => by cases hphase
        · cases selective with
          | true => trivial
          | false => exact hfacts
      · cases hstep
  | recordFull id createdAt =>
      simp only [pgStep] at hstep
      split at hstep
      next selective snapshot hphase => exact hinv.recordFull hphase hstep
      · cases hstep
  | beginIncremental =>
      simp only [pgStep] at hstep
      split at hstep
      next base hphase hbase =>
        cases hstep
        rw [hphase] at hsync
        exact ⟨hinv.slot_le, fun _ => hsync rfl, hbase, hinv.bases, hinv.lost⟩
      · cases hstep
  | capture upto =>
      simp only [pgStep] at hstep
      split at hstep
      next base start hphase hslot =>
        split at hstep
        next hbounds =>
          cases hstep
          rw [hphase] at hsync
          rw [PhaseFacts, hphase] at hfacts
          exact ⟨hinv.slot_le, fun _ => hsync rfl,
            ⟨hfacts, hslot, hbounds⟩, hinv.bases, hinv.lost⟩
        · cases hstep
      · cases hstep
  | uploadIncremental =>
      simp only [pgStep] at hstep
      split at hstep
      next base start upto hphase =>
        split at hstep
        · cases hstep
          rw [hphase] at hsync
          rw [PhaseFacts, hphase] at hfacts
          exact ⟨hinv.slot_le, fun _ => hsync rfl, hfacts, hinv.bases,
            hinv.lost⟩
        · cases hstep
      · cases hstep
  | recordIncremental id createdAt =>
      simp only [pgStep] at hstep
      split at hstep
      next base start upto hphase =>
        rw [PhaseFacts, hphase] at hfacts
        split at hstep
        · exact hinv.recordIncrement (by rw [hphase]; rfl) hfacts.1 hfacts.2.1
            hfacts.2.2.2 hstep
        · cases hstep
      next base start upto hphase =>
        rw [PhaseFacts, hphase] at hfacts
        exact hinv.recordIncrement (by rw [hphase]; rfl) hfacts.1 hfacts.2.1
          hfacts.2.2.2 hstep
      · cases hstep
  | advanceSlot =>
      simp only [pgStep] at hstep
      split at hstep
      next base upto hphase =>
        cases hstep
        rw [PhaseFacts, hphase] at hfacts
        obtain ⟨hbase, hcovered, hle⟩ := hfacts
        refine ⟨?_, ?_, trivial, hinv.bases, hinv.lost⟩
        · intro position hslot
          cases hslot
          exact hle
        · intro _ other position hother hslot
          cases hslot
          cases hbase.symm.trans hother
          exact hcovered
      · cases hstep
  | fail =>
      simp only [pgStep] at hstep
      split at hstep
      · cases hstep
      next hphase =>
        cases hstep
        refine ⟨hinv.slot_le, ?_, trivial, hinv.bases, hinv.lost⟩
        intro _
        cases hrealigning : st.phase.realigning with
        | true => exact hok rfl hrealigning
        | false => exact hsync hrealigning

/-- The condition is exact: after a full run that fails out of sync the next
increment of the old base loses a change. -/
theorem lost_after_failedFull {st : PgState} (hinv : PgInv st)
    (hphase : st.phase.realigning = true) (hout : ¬ InSync st)
    {id createdAt : String} (hfresh : st.catalog.Fresh id) :
    ∃ position last, run pgStep st [.fail, .beginIncremental,
        .capture position, .recordIncremental id createdAt] = some last ∧
      ¬ NothingLost last := by
  simp only [InSync, Covered, not_forall] at hout
  obtain ⟨base, position, hbase, hslot, commit, hlow, hhigh, huncovered⟩ := hout
  have hle := hinv.slot_le position hslot
  have hfail : pgStep st .fail = some { st with phase := .idle } := by
    cases hst : st.phase <;> simp_all [pgStep, PgPhase.realigning]
  have hrecord : ∃ last, recordPgIncrement
      { st with phase := .captured base position position } base position
        position id createdAt = some last ∧
      last.increments = st.increments ++
        [⟨base, position, position, st.commits, st.slot⟩] ∧
      last.snapshots = st.snapshots := by
    simp only [recordPgIncrement]
    split
    · exact ⟨_, rfl, rfl, rfl⟩
    next hstale => exact absurd hfresh hstale
  obtain ⟨last, hlast, hincrements, hsnapshots⟩ := hrecord
  refine ⟨position, last, ?_, ?_⟩
  · refine run_cons_eq_some.mpr ⟨_, hfail, run_cons_eq_some.mpr
      ⟨{ st with phase := .baseSelected base }, ?_, run_cons_eq_some.mpr
        ⟨{ st with phase := .captured base position position }, ?_,
          run_cons_eq_some.mpr ⟨last, ?_, rfl⟩⟩⟩⟩
    · simp [pgStep, hbase]
    · simp [pgStep, hslot, hle]
    · simpa [pgStep] using hlast
  · intro hlost
    rw [NothingLost, hincrements, hsnapshots] at hlost
    rcases (each_append_singleton.mp hlost).2 commit hlow
        (hhigh.trans_le hle) with hprev | ⟨hstart, -⟩ | ⟨kept, hkept, hretained⟩
    · exact huncovered hprev
    · exact absurd hhigh (not_lt.mpr hstart)
    · rw [hslot] at hkept
      cases hkept
      exact absurd hhigh (not_lt.mpr hretained)

/-! One full backup, one commit, a second full run, one increment. -/
namespace SlotHistory

def firstFull : List PgStep :=
  [.beginFull false, .createSlot, .dump, .upload, .recordFull "f1" "t1"]

/-- The second full run is recorded. -/
def recorded : List PgStep :=
  firstFull ++ [.commit, .beginFull false, .dropSlot, .createSlot, .dump,
    .upload, .recordFull "f2" "t2", .commit, .beginIncremental, .capture 2,
    .uploadIncremental, .recordIncremental "i1" "t3", .advanceSlot]

/-- The second full run fails in its dump. -/
def failed : List PgStep :=
  firstFull ++ [.commit, .beginFull false, .dropSlot, .createSlot, .fail,
    .beginIncremental, .capture 1, .recordIncremental "i1" "t3"]

end SlotHistory

end XBackup
