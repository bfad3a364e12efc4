/-
Cancelling a job by its recorded number.  Looking and signalling are steps of
their own, and between any two of them processes end, are reaped, and leave
their numbers to others.
-/
import XBackup.Foundation.ProcessTable
import XBackup.Foundation.Transition

namespace XBackup

namespace Web

namespace Lifecycle

open ProcessTable Transition

/-- Milliseconds. -/
def START_TIME_TOLERANCE_MS : Nat := 2000

/-- What is kept of a job, with the time in nanoseconds. -/
structure JobIdentity where
  pid : Nat
  startedAt : Int
  profile : String

/-- The processes of the job and their descendants, and all others. -/
inductive Family where
  | job
  | other
deriving DecidableEq

/-- What the server sees of a process; only its children answer `waitid`. -/
structure ProcInfo where
  startedAt : Int
  args : List String
  ours : Bool

abbrev Table : Type := List (Process Family ProcInfo)

inductive Signal where
  | term
  | kill
deriving DecidableEq

def Signal.number : Signal → Nat
  | term => 15
  | kill => 9

inductive CancelOutcome where
  | alreadyExited
  | terminated
  | killedAfterGrace
  | refused (reason : String)
deriving DecidableEq

def CancelOutcome.terminatingSignal : CancelOutcome → Option Signal
  | terminated => some .term
  | killedAfterGrace => some .kill
  | alreadyExited => none
  | refused _ => none

/-- Ended but not reaped, of a child; nothing is known of others. -/
def waitidPeek (table : Table) (pid : Nat) : Option Bool :=
  (find table pid).bind fun p => if p.info.ours then some p.zombie else none

def pidAlive (table : Table) (pid : Nat) : Bool :=
  pid = 0 ∨ (find table pid).isSome

/-- What the answers of the system and the clock are. -/
inductive Answer where
  | plain
  | unreadable
  | notPermitted
  | failed (error : String)
  | elapsed

/-- No process of the group was signalled. -/
def Answer.refuses : Answer → Bool
  | notPermitted => true
  | failed _ => true
  | _ => false

def osProcessStartTime (table : Table) (pid : Nat) : Answer → Option Int
  | .unreadable => none
  | _ => (find table pid).map fun p => p.info.startedAt

/-- A process that has ended has no command line. -/
def osProcessCmdlineContains (table : Table) (pid : Nat) (needle : String) :
    Answer → Option Bool
  | .unreadable => none
  | _ =>
      (find table pid).bind fun p =>
        if p.zombie then none else some (decide (needle ∈ p.info.args))

section Texts

variable (shown : Int → String) (identity : JobIdentity)

/-- Why the start time of a process is not the recorded one. -/
def startProblem : Option Int → Option String
  | some actual =>
      let diffMs := ((actual - identity.startedAt).tdiv 1000000).natAbs
      if START_TIME_TOLERANCE_MS < diffMs then
        some ("pid " ++ toString identity.pid ++ "의 실제 시작 시각(" ++
          shown actual ++ ")이 기록된 시작 시각(" ++
          shown identity.startedAt ++ ")과 " ++ toString diffMs ++
          "ms 차이가 납니다 — pid 재사용으로 판단해 신호를 보내지 않습니다")
      else none
  | none => some ("pid " ++ toString identity.pid ++ "의 OS 시작 시각을 확인할 " ++
      "수 없습니다(플랫폼 미지원이거나 조회 실패) — 안전을 위해 신호를 보내지 " ++
      "않습니다")

def argsProblem : Option Bool → Option String
  | some true => none
  | some false => some ("pid " ++ toString identity.pid ++ "는 살아 있고 시작 " ++
      "시각도 일치하지만, 명령행에 프로파일 '" ++ identity.profile ++ "'이 " ++
      "없습니다 — 우연히 같은 pid·시각을 가진 다른 프로세스로 판단해 신호를 " ++
      "보내지 않습니다")
  | none => some ("pid " ++ toString identity.pid ++ "의 명령행을 확인할 수 없어 " ++
      "프로파일 '" ++ identity.profile ++ "' 일치를 검증하지 못했습니다 — " ++
      "안전을 위해 신호를 보내지 않습니다")

def interpretEperm (signal : Signal) : String :=
  "pid " ++ toString identity.pid ++ "(프로세스 그룹)에 시그널 " ++
    toString signal.number ++ "을 보낼 권한이 없습니다(EPERM)이고 대상이 아직 " ++
    "살아 있습니다 — 취소가 실제로 이뤄지지 않았습니다. 이 잡을 다른 사용자가 " ++
    "띄웠거나 (예: cron이 root로 실행) 샌드박스가 시그널을 막고 있을 수 있습니다"

def refusal (graceSecs : Nat) : Signal → String
  | .term => interpretEperm identity .term
  | .kill => "SIGTERM은 보냈지만 grace(" ++ toString graceSecs ++ "s) 안에 " ++
      "끝나지 않았고 SIGKILL 승격이 거부됐습니다 — " ++
      interpretEperm identity .kill

def sendFailure (signal : Signal) (error : String) : String :=
  "pid " ++ toString identity.pid ++ "(프로세스 그룹)에 시그널 " ++
    toString signal.number ++ "을 보내지 못했습니다: " ++ error

end Texts

/-- Where `pid_finished` is asked. -/
inductive Check where
  | identity
  | permission (signal : Signal)
  | exit (signal : Signal)

/-- Where a cancellation stands. -/
inductive Phase where
  | idle
  | peek (check : Check)
  | alive (check : Check)
  | readStart
  | readArgs
  | send (signal : Signal)
  | sleep (signal : Signal)
  | done (result : Except String CancelOutcome)

/-- The identity is taken for proved, and a signal is still to come. -/
def Phase.committed : Phase → Bool
  | peek (.exit .term) | alive (.exit .term) => true
  | peek (.permission .term) | alive (.permission .term) => true
  | send _ => true
  | sleep .term => true
  | _ => false

section Machine

variable (shown : Int → String) (graceSecs : Nat) (identity : JobIdentity)

/-- What follows the answer of `pid_finished`. -/
def resume (finished : Bool) : Check → Phase
  | .identity => if finished then .done (.ok .alreadyExited) else .readStart
  | .permission signal =>
      if finished then .peek (.exit signal)
      else .done (.ok (.refused (refusal identity graceSecs signal)))
  | .exit .term =>
      if finished then .done (.ok .terminated) else .sleep .term
  | .exit .kill =>
      if finished then .done (.ok .killedAfterGrace) else .sleep .kill

/-- What follows `kill`; a group that is gone counts as reached. -/
def afterSend (signal : Signal) : Answer → Phase
  | .notPermitted => .peek (.permission signal)
  | .failed error => .done (.error (sendFailure identity signal error))
  | _ => .peek (.exit signal)

/-- The wait is over, or `pid_finished` is asked again after a pause. -/
def afterSleep : Signal → Answer → Phase
  | .term, .elapsed => .send .kill
  | .kill, .elapsed => .done (.ok .killedAfterGrace)
  | signal, _ => .peek (.exit signal)

/-- The next phase of a cancellation. -/
def advance (table : Table) (answer : Answer) : Phase → Option Phase
  | .idle => none
  | .peek check =>
      some (match waitidPeek table identity.pid with
        | some finished => resume graceSecs identity finished check
        | none => .alive check)
  | .alive check =>
      some (resume graceSecs identity (!pidAlive table identity.pid) check)
  | .readStart =>
      some (match startProblem shown identity
          (osProcessStartTime table identity.pid answer) with
        | some reason => .done (.ok (.refused reason))
        | none => .readArgs)
  | .readArgs =>
      some (match argsProblem identity
          (osProcessCmdlineContains table identity.pid identity.profile
            answer) with
        | some reason => .done (.ok (.refused reason))
        | none => .send .term)
  | .send signal => some (afterSend identity signal answer)
  | .sleep signal => some (afterSleep signal answer)
  | .done _ => none

/-- The processes that a phase signals. -/
def delivers (table : Table) (answer : Answer) :
    Phase → List (Signal × Table)
  | .send signal =>
      if answer.refuses then [] else [(signal, members table identity.pid)]
  | _ => []

/-- The processes, the cancellations of the job under way, and the signals that
they have sent, each with those that were in the group. -/
structure World where
  table : Table
  threads : Nat → Phase
  signals : List (Signal × Table)

inductive Label where
  | kernel (event : Event ProcInfo)
  | restart
  | cancel (thread : Nat)
  | proceed (thread : Nat) (answer : Answer)

/-- The children of a server that ends are not those of the next one. -/
def adopt (p : Process Family ProcInfo) : Process Family ProcInfo :=
  { p with info := { p.info with ours := false } }

def step (st : World) : Label → Option World
  | .kernel event =>
      (ProcessTable.step st.table event).map fun table =>
        { st with table := table }
  | .restart =>
      some { st with table := st.table.map adopt, threads := fun _ => .idle }
  | .cancel thread =>
      some
        { st with
          threads := Function.update st.threads thread (.peek .identity) }
  | .proceed thread answer =>
      (advance shown graceSecs identity st.table answer
        (st.threads thread)).map fun next =>
          { st with
            threads := Function.update st.threads thread next
            signals := st.signals ++ delivers identity st.table answer
              (st.threads thread) }

/-- The job leads its group, and no other process uses its number. -/
def launch (job : ProcInfo) (others : Table) : World where
  table := ⟨identity.pid, identity.pid, .job, false, job⟩ :: others
  threads := fun _ => .idle
  signals := []

def Apart (others : Table) : Prop :=
  ∀ p ∈ others, p.family = .other ∧ ¬ p.Uses identity.pid

/-- No new group of others takes the number while a cancellation that has found
the job is still to signal, and one that leads such a group when the command
line is read does not name the profile. -/
def Undisturbed (st : World) : Label → Prop
  | .kernel event =>
      (∃ thread, (st.threads thread).committed = true) →
        takenBy st.table identity.pid event ≠ some .other
  | .restart => True
  | .cancel _ => True
  | .proceed thread _ =>
      st.threads thread = .readArgs → ∀ p,
        find st.table identity.pid = some p → p.group = identity.pid →
          p.zombie = false → identity.profile ∈ p.info.args →
            p.family = .job

instance (others : Table) : Decidable (Apart identity others) :=
  inferInstanceAs (Decidable (∀ p ∈ others, _ ∧ _))

end Machine

/-- What a run keeps. -/
structure Inv (identity : JobIdentity) (st : World) : Prop where
  settled : Settled st.table identity.pid
  held : ∀ thread, (st.threads thread).committed = true →
    ProcessTable.Holds st.table identity.pid .job
  signalled : ∀ sent ∈ st.signals, ∀ p ∈ sent.2, p.family = .job

section Runs

variable {shown : Int → String} {graceSecs : Nat} {identity : JobIdentity}
  {st next last : World} {label : Label} {labels : List Label} {table : Table}
  {answer : Answer} {phase after : Phase} {job : ProcInfo} {others : Table}

theorem family_ne_other {family : Family} (hne : family ≠ .other) :
    family = .job := by
  cases family with
  | job => rfl
  | other => exact absurd rfl hne

theorem resume_committed {finished : Bool} {check : Check}
    (hcommitted : (resume graceSecs identity finished check).committed =
      true) :
    (Phase.peek check).committed = true ∧
      (Phase.alive check).committed = true := by
  rcases check with _ | signal | signal
  · cases finished <;> cases hcommitted
  · cases signal <;> cases finished <;> first
      | exact ⟨rfl, rfl⟩
      | cases hcommitted
  · cases signal <;> cases finished <;> first
      | exact ⟨rfl, rfl⟩
      | cases hcommitted

/-- A cancellation is committed by the command line that it reads. -/
theorem advance_committed
    (hnext : advance shown graceSecs identity table answer phase = some after)
    (hcommitted : after.committed = true) :
    phase.committed = true ∨ phase = .readArgs ∧ ∃ p,
      find table identity.pid = some p ∧ p.zombie = false ∧
        identity.profile ∈ p.info.args := by
  cases phase with
  | idle => cases hnext
  | done result => cases hnext
  | send signal => exact Or.inl rfl
  | peek check =>
      cases hnext
      left
      split at hcommitted
      next => exact (resume_committed hcommitted).1
      next =>
        cases check with
        | identity => cases hcommitted
        | permission signal => cases signal <;> first | rfl | cases hcommitted
        | exit signal => cases signal <;> first | rfl | cases hcommitted
  | alive check =>
      cases hnext
      exact Or.inl (resume_committed hcommitted).2
  | readStart =>
      cases hnext
      split at hcommitted
      next => cases hcommitted
      next => cases hcommitted
  | sleep signal =>
      cases hnext
      cases signal with
      | term => exact Or.inl rfl
      | kill => cases answer <;> cases hcommitted
  | readArgs =>
      cases hnext
      right
      refine ⟨rfl, ?_⟩
      split at hcommitted
      next => cases hcommitted
      next hproblem =>
        have hcontains : osProcessCmdlineContains table identity.pid
            identity.profile answer = some true := by
          cases hread : osProcessCmdlineContains table identity.pid
              identity.profile answer with
          | none =>
              rw [hread] at hproblem
              cases hproblem
          | some contains =>
              cases contains with
              | true => rfl
              | false =>
                  rw [hread] at hproblem
                  cases hproblem
        have hfound : ((find table identity.pid).bind fun p =>
            if p.zombie then none
            else some (decide (identity.profile ∈ p.info.args))) =
              some true := by
          cases answer <;> first | exact hcontains | cases hcontains
        obtain ⟨p, hfind, hp⟩ := Option.bind_eq_some_iff.mp hfound
        refine ⟨p, hfind, ?_⟩
        split at hp
        next => cases hp
        next hrunning => exact ⟨by simpa using hrunning, by simpa using hp⟩

theorem delivers_eq {sent : Signal × Table}
    (hsent : sent ∈ delivers identity table answer phase) :
    phase.committed = true ∧ sent.2 = members table identity.pid := by
  cases phase with
  | send signal =>
      refine ⟨rfl, ?_⟩
      rw [delivers] at hsent
      split at hsent
      next => cases hsent
      next =>
        cases List.mem_singleton.mp hsent
        rfl
  | _ => cases hsent

theorem inv_launch (happart : Apart identity others) :
    Inv identity (launch identity job others) := by
  refine ⟨⟨?_, ?_⟩, fun _ hcommitted => (nomatch hcommitted),
    fun _ hsent => (nomatch hsent)⟩
  · intro p hp q hq hpuses hquses
    rcases List.mem_cons.mp hp with rfl | hp
    · rcases List.mem_cons.mp hq with rfl | hq
      · rfl
      · exact absurd hquses (happart q hq).2
    · exact absurd hpuses (happart p hp).2
  · intro p hp hnumber hgroup
    rcases List.mem_cons.mp hp with rfl | hp
    · exact absurd rfl hgroup
    · exact absurd (Or.inl hnumber) (happart p hp).2

theorem inv_step (hinv : Inv identity st)
    (hundisturbed : Undisturbed identity st label)
    (hstep : step shown graceSecs identity st label = some next) :
    Inv identity next := by
  cases label with
  | kernel event =>
      obtain ⟨table, htable, rfl⟩ := Option.map_eq_some_iff.mp hstep
      refine ⟨hinv.settled.step htable, ?_, hinv.signalled⟩
      intro thread hcommitted
      refine (hinv.held thread hcommitted).step ?_ htable
      intro taker htaken
      apply family_ne_other
      rintro rfl
      exact hundisturbed ⟨thread, hcommitted⟩ htaken
  | restart =>
      cases hstep
      have hfrom : ∀ p ∈ st.table.map adopt, ∃ q ∈ st.table,
          p.number = q.number ∧ p.group = q.group ∧ p.family = q.family := by
        intro p hp
        obtain ⟨q, hq, rfl⟩ := List.mem_map.mp hp
        exact ⟨q, hq, rfl, rfl, rfl⟩
      exact ⟨hinv.settled.of_forall_mem hfrom,
        fun _ hcommitted => (nomatch hcommitted), hinv.signalled⟩
  | cancel thread =>
      cases hstep
      refine ⟨hinv.settled, ?_, hinv.signalled⟩
      intro other hcommitted
      dsimp only at hcommitted
      by_cases hsame : other = thread
      · rw [hsame, Function.update_self] at hcommitted
        cases hcommitted
      · rw [Function.update_of_ne hsame] at hcommitted
        exact hinv.held other hcommitted
  | proceed thread answer =>
      obtain ⟨phase, hphase, rfl⟩ := Option.map_eq_some_iff.mp hstep
      refine ⟨hinv.settled, ?_, ?_⟩
      · intro other hcommitted
        dsimp only at hcommitted
        by_cases hsame : other = thread
        · rw [hsame, Function.update_self] at hcommitted
          rcases advance_committed hphase hcommitted with
            hbefore | ⟨hread, p, hfind, hrunning, hargs⟩
          · exact hinv.held thread hbefore
          · obtain ⟨hp, hnumber⟩ := mem_of_find hfind
            refine hinv.settled.holds hp hnumber fun hgroup => ?_
            exact hundisturbed hread p hfind hgroup hrunning hargs
        · rw [Function.update_of_ne hsame] at hcommitted
          exact hinv.held other hcommitted
      · intro sent hsent p hp
        rcases List.mem_append.mp hsent with hsent | hsent
        · exact hinv.signalled sent hsent p hp
        · obtain ⟨hcommitted, hmembers⟩ := delivers_eq hsent
          rw [hmembers] at hp
          obtain ⟨hp, hgroup⟩ := List.mem_filter.mp hp
          exact hinv.held thread hcommitted p hp (of_decide_eq_true hgroup)

/-- In an undisturbed run every signal goes to the job's processes alone. -/
theorem signalled_of_undisturbed (happart : Apart identity others)
    (hundisturbed : StepsMeet (step shown graceSecs identity)
      (Undisturbed identity) (launch identity job others) labels)
    (hrun : run (step shown graceSecs identity) (launch identity job others)
      labels = some last) :
    ∀ sent ∈ last.signals, ∀ p ∈ sent.2, p.family = .job :=
  (run_invariant_of_stepsMeet (Inv identity)
    (fun _ _ _ hinv hmeet hstep => inv_step hinv hmeet hstep)
    (inv_launch happart) hundisturbed hrun).signalled

/-- While a process of the job has its number or is in its group, nothing
disturbs. -/
theorem undisturbed_of_used (hinv : Inv identity st)
    (hused : ∃ p ∈ st.table, p.Uses identity.pid ∧ p.family = .job)
    (hstep : step shown graceSecs identity st label = some next) :
    Undisturbed identity st label := by
  obtain ⟨p, hp, huses, hfamily⟩ := hused
  cases label with
  | kernel event =>
      obtain ⟨table, htable, -⟩ := Option.map_eq_some_iff.mp hstep
      intro _ htaken
      rw [takenBy_of_used hp huses htable] at htaken
      cases htaken
  | restart => trivial
  | cancel thread => trivial
  | proceed thread answer =>
      intro _ q hfind _ _ _
      obtain ⟨hq, hnumber⟩ := mem_of_find hfind
      rw [← hfamily]
      exact hinv.settled.oneFamily q hq p hp (Or.inl hnumber) huses

/-- Nothing is signalled in the job's place as long as it is not reaped with
all of its group. -/
theorem signalled_of_used (happart : Apart identity others)
    (hused : StepsMeet (step shown graceSecs identity)
      (fun st _ => ∃ p ∈ st.table, p.Uses identity.pid ∧ p.family = .job)
      (launch identity job others) labels)
    (hrun : run (step shown graceSecs identity) (launch identity job others)
      labels = some last) :
    ∀ sent ∈ last.signals, ∀ p ∈ sent.2, p.family = .job := by
  refine (run_invariant_of_stepsMeet (Inv identity) ?_ (inv_launch happart)
    hused hrun).signalled
  intro st label next hinv hin hstep
  exact inv_step hinv (undisturbed_of_used hinv hin hstep) hstep

end Runs

section Reuse

def nightly : JobIdentity := ⟨42, 1000000000, "prod"⟩

def nightlyJob : ProcInfo := ⟨1000000000, ["x-backup", "prod"], true⟩

/-- A shell that starts other programs. -/
def shell : Table := [⟨7, 7, .other, false, ⟨0, ["sh"], false⟩⟩]

/-- A cancellation up to its first signal. -/
def untilTerm : List Label :=
  [.cancel 0, .proceed 0 .plain, .proceed 0 .plain, .proceed 0 .plain,
    .proceed 0 .plain]

/-- The job ends at the first signal. -/
theorem nightly_terminated :
    ∃ last, run (step toString 30 nightly) (launch nightly nightlyJob shell)
        (untilTerm ++ [.kernel (.exit 42), .proceed 0 .plain]) = some last ∧
      last.threads 0 = .done (.ok .terminated) ∧
      ∀ sent ∈ last.signals, ∀ p ∈ sent.2, p.family = .job := by
  refine ⟨_, rfl, rfl, ?_⟩
  refine @signalled_of_undisturbed toString 30 nightly _
    (untilTerm ++ [.kernel (.exit 42), .proceed 0 .plain]) nightlyJob shell
    (by decide) ?_ rfl
  refine ⟨trivial, fun _ hnext => ?_⟩
  cases hnext
  refine ⟨fun hphase => (nomatch hphase), fun _ hnext => ?_⟩
  cases hnext
  refine ⟨fun hphase => (nomatch hphase), fun _ hnext => ?_⟩
  cases hnext
  refine ⟨fun _ p hfind _ _ _ => ?_, fun _ hnext => ?_⟩
  · cases hfind
    rfl
  cases hnext
  refine ⟨fun hphase => (nomatch hphase), fun _ hnext => ?_⟩
  cases hnext
  refine ⟨fun _ htaken => (nomatch htaken), fun _ hnext => ?_⟩
  cases hnext
  exact ⟨fun hphase => (nomatch hphase), fun _ _ => trivial⟩

/-- A job that is reaped between two looks leaves its number to a program that
is killed for it. -/
theorem nightly_replaced :
    ¬ ∀ (shown : Int → String) (graceSecs : Nat) (identity : JobIdentity)
      (job : ProcInfo) (others : Table) (labels : List Label) (last : World),
      Apart identity others →
        run (step shown graceSecs identity) (launch identity job others)
            labels = some last →
          ∀ sent ∈ last.signals, ∀ p ∈ sent.2, p.family = .job := by
  intro hclaim
  have hkilled := hclaim toString 30 nightly nightlyJob shell
    (untilTerm ++ [.kernel (.exit 42), .kernel (.reap 42),
      .kernel (.fork 7 42 true ⟨5000000000, ["make"], false⟩),
      .proceed 0 .plain, .proceed 0 .plain, .proceed 0 .elapsed,
      .proceed 0 .plain]) _ (by decide) rfl
    (.kill, [⟨42, 42, .other, false, ⟨5000000000, ["make"], false⟩⟩])
    (List.mem_append_right _ List.mem_cons_self) _ List.mem_cons_self
  cases hkilled

end Reuse

end Lifecycle

end Web

end XBackup
