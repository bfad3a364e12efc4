/-
Calls on one store that run at the same time: the lock, the task that writes
the file, and futures that are dropped.
-/
import XBackup.Foundation.Transition
import XBackup.Web.ScheduleStore

namespace XBackup

namespace Web

open Transition

/-- A call of the store; `create` has made its identifier beforehand. -/
inductive Call where
  | create (id : ScheduleId) (draft : ScheduleDraft) (now : Int)
  | update (id : ScheduleId) (draft : ScheduleDraft)
  | delete (id : ScheduleId)
  | recordRun (id : ScheduleId) (firedAt : Int) (jobId : Option JobId)

namespace Call

variable (call : Call) (schedules : List Schedule)

/-- The list that a call asks to be written; none if there is nothing to
write. -/
def next : Except String (Option (List Schedule)) :=
  match call with
  | .create id draft now =>
      (createIn schedules (draft.created id now)).map some
  | .update id draft => (updateIn schedules id draft).map some
  | .delete id => (deleteIn schedules id).map some
  | .recordRun id firedAt jobId =>
      .ok (recordRunIn schedules id firedAt jobId)

def effect : List Schedule :=
  match call.next schedules with
  | .ok (some next) => next
  | _ => schedules

end Call

/-- How far the task of a write has come. -/
inductive Stage where
  | queued
  | copied
  | prepared
  | renamed
  | finished (result : Except String Unit)

/-- The list that a task writes, and whether it keeps the file before. -/
structure Write where
  next : List Schedule
  keep : Bool
  stage : Stage

/-- The body may still fail to be written. -/
def Write.isPending (write : Write) : Bool :=
  match write.stage with
  | .queued | .copied | .prepared => true
  | _ => false

/-- The new body is in place. -/
def Write.replaced (write : Write) : Bool :=
  match write.stage with
  | .renamed | .finished (.ok ()) => true
  | _ => false

def Write.isFinished (write : Write) : Bool :=
  match write.stage with
  | .finished _ => true
  | _ => false

/-- The files as they are seen, and the older bodies of the main file that may
be back after a crash: the directory has not been synced since. -/
structure Disk where
  files : Files
  unsynced : List (Option (List UInt8))

/-- The steps of `writeGeneration`: what is prepared is the temporary file,
written and synced. -/
inductive FsStep where
  | copy (end_ : Copy)
  | prepare
  | fail (reason : String)
  | rename
  | sync (done : Bool)

/-- Only the sync of the directory may fail without a word. -/
def FsStep.run (codec : Codec) (disk : Disk) (write : Write) :
    FsStep → Option (Disk × Write)
  | .copy end_ =>
      match write.stage with
      | .queued => some
          ({ disk with files := disk.files.keepPrev write.keep end_ },
            { write with stage := .copied })
      | _ => none
  | .prepare =>
      match write.stage with
      | .copied => some (disk, { write with stage := .prepared })
      | _ => none
  | .fail reason =>
      if write.isPending then
        some (disk, { write with stage := .finished (.error reason) })
      else none
  | .rename =>
      match write.stage with
      | .prepared => some
          ({ files := disk.files.replace (codec.body write.next)
             unsynced := disk.files.main :: disk.unsynced },
            { write with stage := .renamed })
      | _ => none
  | .sync done =>
      match write.stage with
      | .renamed => some
          ({ disk with unsynced := if done then [] else disk.unsynced },
            { write with stage := .finished (.ok ()) })
      | _ => none

/-- The store, its disk, the calls that wait for the lock, the call that holds
it and awaits its task, the tasks whose futures were dropped, and what the calls
have returned.  A call that holds the lock returns before the next one has it,
so `outcomes` is in the order of the lock. -/
structure StoreState where
  store : ScheduleStore
  disk : Disk
  waiting : List Call
  writer : Option (Call × Write)
  orphans : List Write
  outcomes : List (Call × Except String Unit)

inductive StoreLabel where
  | arrive (call : Call)
  | leave (index : Nat)
  | lock (index : Nat)
  | work (fs : FsStep)
  | orphan (index : Nat) (fs : FsStep)
  | resume
  | drop

namespace StoreState

/-- A call takes the lock: it fails, has nothing to write, or starts a task. -/
def locked (st : StoreState) (call : Call) : StoreState :=
  match call.next st.store.snapshot with
  | .error reason =>
      { st with outcomes := st.outcomes ++ [(call, .error reason)] }
  | .ok none => { st with outcomes := st.outcomes ++ [(call, .ok ())] }
  | .ok (some next) =>
      { st with
        writer := some (call,
          { next := next, keep := st.store.mainTrusted, stage := .queued }) }

/-- The future goes on after its task. -/
def resumed (st : StoreState) (call : Call) (write : Write) :
    Except String Unit → StoreState
  | .ok () =>
      { st with
        store := { st.store with snapshot := write.next, mainTrusted := true }
        writer := none
        outcomes := st.outcomes ++ [(call, .ok ())] }
  | .error reason =>
      { st with
        writer := none
        outcomes := st.outcomes ++ [(call, .error reason)] }

def step (codec : Codec) (st : StoreState) : StoreLabel → Option StoreState
  | .arrive call => some { st with waiting := st.waiting ++ [call] }
  | .leave index =>
      if index < st.waiting.length then
        some { st with waiting := st.waiting.eraseIdx index }
      else none
  | .lock index =>
      match st.writer, st.waiting[index]? with
      | none, some call => some
          ({ st with waiting := st.waiting.eraseIdx index }.locked call)
      | _, _ => none
  | .work fs =>
      match st.writer with
      | some (call, write) =>
          (fs.run codec st.disk write).map fun (disk, write) =>
            { st with disk := disk, writer := some (call, write) }
      | none => none
  | .orphan index fs =>
      match st.orphans[index]? with
      | some write =>
          (fs.run codec st.disk write).map fun (disk, write) =>
            { st with disk := disk, orphans := st.orphans.set index write }
      | none => none
  | .resume =>
      match st.writer with
      | some (call, write) =>
          match write.stage with
          | .finished result => some (st.resumed call write result)
          | _ => none
      | none => none
  | .drop =>
      match st.writer with
      | some (_, write) => some
          { st with writer := none, orphans := st.orphans ++ [write] }
      | none => none

/-- The store after a load, with no call yet. -/
def start (codec : Codec) (files : Files) (env : LoadEnv) : StoreState where
  store := (ScheduleStore.load codec files env).1
  disk :=
    { files := (ScheduleStore.load codec files env).2
      unsynced := [] }
  waiting := []
  writer := none
  orphans := []
  outcomes := []

/-- No call is running, and no task. -/
def Quiet (st : StoreState) : Prop :=
  st.waiting = [] ∧ st.writer = none ∧
    ∀ write ∈ st.orphans, write.isFinished = true

end StoreState

/-- What the calls that have succeeded make of a list. -/
def replay (initial : List Schedule)
    (outcomes : List (Call × Except String Unit)) : List Schedule :=
  outcomes.foldl (fun schedules outcome =>
    if outcome.2.isOk then outcome.1.effect schedules else schedules) initial

/-- The list that a load of this body returns: it is not degraded. -/
def Loads (codec : Codec) (main : Option (List UInt8))
    (schedules : List Schedule) : Prop :=
  ∀ files env, files.main = main → env.mainError = none →
    (ScheduleStore.load codec files env).1.snapshot = schedules ∧
      (ScheduleStore.load codec files env).1.report.degraded = false

/-- Memory and disk agree on what the calls that succeeded have made. -/
def StoreState.Agrees (codec : Codec) (initial : List Schedule)
    (st : StoreState) : Prop :=
  Loads codec st.disk.files.main st.store.snapshot ∧
    st.store.snapshot = replay initial st.outcomes

/-- What a crash leaves is the list before or after the call that writes. -/
def StoreState.CrashSafe (codec : Codec) (st : StoreState) : Prop :=
  ∀ main ∈ st.disk.files.main :: st.disk.unsynced,
    Loads codec main st.store.snapshot ∨
      ∃ call write, st.writer = some (call, write) ∧
        Loads codec main write.next

/-- No write replaces the file once its future is dropped, or before; and a new
identifier comes behind those of the list. -/
def Clean (st : StoreState) : StoreLabel → Prop
  | .lock index => ∀ id draft now result,
      st.waiting[index]? = some (.create id draft now) →
        createIn st.store.snapshot (draft.created id now) = .ok result →
          ∀ schedule ∈ st.store.snapshot, schedule.id ≤ id
  | .drop => ∀ call write, st.writer = some (call, write) →
      write.replaced = false
  | .orphan _ .rename => False
  | _ => True

/-- And every sync of the directory succeeds. -/
def Synced (st : StoreState) (label : StoreLabel) : Prop :=
  Clean st label ∧ label ≠ .work (.sync false)

section Lists

variable {codec : Codec} {schedules next : List Schedule} {call : Call}

/-- A list in the order of its identifiers, whose texts pass their checks. -/
structure Listed (schedules : List Schedule) : Prop where
  sorted : (schedules.map (·.id)).Pairwise (· ≤ ·)
  checked : ∀ schedule ∈ schedules, schedule.Checked

theorem sortById_eq_self (hsorted : (schedules.map (·.id)).Pairwise (· ≤ ·)) :
    Codec.sortById schedules = schedules := by
  refine List.mergeSort_of_pairwise ((List.pairwise_map.mp hsorted).imp ?_)
  exact fun hle => decide_eq_true hle

theorem sortById_sorted (schedules : List Schedule) :
    ((Codec.sortById schedules).map (·.id)).Pairwise (· ≤ ·) := by
  refine List.pairwise_map.mpr ((List.pairwise_mergeSort ?_ ?_ _).imp ?_)
  · intro a b c hab hbc
    exact decide_eq_true ((of_decide_eq_true hab).trans (of_decide_eq_true hbc))
  · intro a b
    rw [Bool.or_eq_true, decide_eq_true_eq, decide_eq_true_eq]
    exact le_total a.id b.id
  · exact fun hle => of_decide_eq_true hle

theorem parseFile_sorted {bytes : List UInt8} {unreadable : Nat}
    (hparse : codec.parseFile bytes = .ok schedules unreadable) :
    (schedules.map (·.id)).Pairwise (· ≤ ·) := by
  rw [Codec.parseFile] at hparse
  split at hparse
  next => cases hparse
  next =>
    split at hparse
    next => cases hparse
    next =>
      split at hparse
      next => cases hparse
      next =>
        obtain ⟨rfl, -⟩ := ParsedFile.ok.inj hparse
        exact sortById_sorted _

theorem loads_body (hcodec : codec.Faithful) (hlisted : Listed schedules) :
    Loads codec (some (codec.body schedules)) schedules := by
  intro files env hmain henv
  have hparse := parseFile_body hcodec hlisted.checked
  rw [sortById_eq_self hlisted.sorted] at hparse
  simp only [ScheduleStore.load, readFile, henv, hmain,
    Codec.readWithRecovery, hparse]
  exact ⟨trivial, rfl⟩

theorem Listed.sublist (hlisted : Listed schedules)
    (hsub : next.Sublist schedules) : Listed next where
  sorted := hlisted.sorted.sublist (hsub.map _)
  checked := fun schedule hmem => hlisted.checked schedule (hsub.subset hmem)

theorem Listed.set (hlisted : Listed schedules) {index : Nat}
    {old schedule : Schedule} (hold : schedules[index]? = some old)
    (hid : schedule.id = old.id) (hchecked : schedule.Checked) :
    Listed (schedules.set index schedule) where
  sorted := by
    rw [ids_set hold hid]
    exact hlisted.sorted
  checked := by
    intro other hmem
    rcases List.mem_or_eq_of_mem_set hmem with hmem | rfl
    · exact hlisted.checked other hmem
    · exact hchecked

theorem Listed.of_next (hlisted : Listed schedules)
    (hcreate : ∀ id draft now result, call = .create id draft now →
      createIn schedules (draft.created id now) = .ok result →
        ∀ schedule ∈ schedules, schedule.id ≤ id)
    (hnext : call.next schedules = .ok (some next)) : Listed next := by
  cases call with
  | create id draft now =>
      cases hresult : createIn schedules (draft.created id now) with
      | error _ =>
          rw [Call.next, hresult] at hnext
          cases hnext
      | ok result =>
          rw [Call.next, hresult] at hnext
          cases hnext
          have hbefore := hcreate id draft now _ rfl hresult
          rw [createIn_ok hresult]
          constructor
          · rw [List.map_append, List.pairwise_append]
            refine ⟨hlisted.sorted, List.pairwise_singleton _ _, ?_⟩
            rintro other hother created hcreated
            obtain ⟨schedule, hmem, rfl⟩ := List.mem_map.mp hother
            rw [List.mem_singleton.mp hcreated]
            exact hbefore schedule hmem
          · intro schedule hmem
            rcases List.mem_append.mp hmem with hmem | hmem
            · exact hlisted.checked schedule hmem
            · rw [List.mem_singleton.mp hmem]
              exact ⟨⟨draft.profile, rfl⟩, draft.parsed⟩
  | update id draft =>
      cases hresult : updateIn schedules id draft with
      | error _ =>
          rw [Call.next, hresult] at hnext
          cases hnext
      | ok result =>
          rw [Call.next, hresult] at hnext
          cases hnext
          obtain ⟨index, old, hold, rfl, rfl⟩ := updateIn_ok hresult
          exact hlisted.set hold rfl ⟨⟨draft.profile, rfl⟩, draft.parsed⟩
  | delete id =>
      cases hresult : deleteIn schedules id with
      | error _ =>
          rw [Call.next, hresult] at hnext
          cases hnext
      | ok result =>
          rw [Call.next, hresult] at hnext
          cases hnext
          obtain ⟨index, rfl⟩ := deleteIn_ok hresult
          exact hlisted.sublist (List.eraseIdx_sublist _ _)
  | recordRun id firedAt jobId =>
      obtain ⟨index, old, hold, rfl, rfl⟩ :=
        recordRunIn_some (Except.ok.inj hnext)
      exact hlisted.set hold rfl (hlisted.checked old (List.mem_of_getElem? hold))

end Lists

section Steps

variable {codec : Codec} {disk after : Disk} {write written : Write}
  {fs : FsStep}

theorem Write.not_replaced (hpending : write.isPending = true) :
    write.replaced = false := by
  rw [isPending] at hpending
  rw [replaced]
  split at hpending
  next hstage => rw [hstage]
  next hstage => rw [hstage]
  next hstage => rw [hstage]
  next => cases hpending

/-- What a step of a write can do. -/
theorem FsStep.run_cases (hrun : fs.run codec disk write = some (after, written)) :
    written.next = write.next ∧
      ((write.replaced = false ∧ written.replaced = false ∧
          after.files.main = disk.files.main ∧ after.unsynced = disk.unsynced) ∨
        (fs = .rename ∧ write.replaced = false ∧ written.stage = .renamed ∧
          after.files.main = some (codec.body write.next) ∧
          after.unsynced = disk.files.main :: disk.unsynced) ∨
        ∃ done, fs = .sync done ∧ write.stage = .renamed ∧
          written.stage = .finished (.ok ()) ∧
          after.files.main = disk.files.main ∧
          after.unsynced = if done then [] else disk.unsynced) := by
  cases fs with
  | copy end_ =>
      rw [FsStep.run] at hrun
      split at hrun
      next hstage =>
        cases hrun
        refine ⟨rfl, Or.inl ⟨?_, rfl, keepPrev_main _ _, rfl⟩⟩
        rw [Write.replaced, hstage]
      next => cases hrun
  | prepare =>
      rw [FsStep.run] at hrun
      split at hrun
      next hstage =>
        cases hrun
        refine ⟨rfl, Or.inl ⟨?_, rfl, rfl, rfl⟩⟩
        rw [Write.replaced, hstage]
      next => cases hrun
  | fail reason =>
      rw [FsStep.run] at hrun
      split at hrun
      next hpending =>
        cases hrun
        exact ⟨rfl, Or.inl ⟨write.not_replaced hpending, rfl, rfl, rfl⟩⟩
      next => cases hrun
  | rename =>
      rw [FsStep.run] at hrun
      split at hrun
      next hstage =>
        cases hrun
        refine ⟨rfl, Or.inr (Or.inl ⟨rfl, ?_, rfl, rfl, rfl⟩)⟩
        rw [Write.replaced, hstage]
      next => cases hrun
  | sync done =>
      rw [FsStep.run] at hrun
      split at hrun
      next hstage =>
        cases hrun
        exact ⟨rfl, Or.inr (Or.inr ⟨done, rfl, hstage, rfl, rfl, rfl⟩)⟩
      next => cases hrun

end Steps

namespace StoreState

/-- The list whose body the file has. -/
def held (st : StoreState) : List Schedule :=
  match st.writer with
  | some (_, write) =>
      if write.replaced then write.next else st.store.snapshot
  | none => st.store.snapshot

structure Sound (codec : Codec) (initial : List Schedule) (st : StoreState) :
    Prop where
  listed : Listed st.store.snapshot
  writer : ∀ call write, st.writer = some (call, write) →
    call.next st.store.snapshot = .ok (some write.next) ∧ Listed write.next
  orphans : ∀ write ∈ st.orphans, write.replaced = false
  disk : Loads codec st.disk.files.main st.held
  replayed : st.store.snapshot = replay initial st.outcomes

/-- What may come back after a crash is the list before a rename whose sync is
still to come. -/
def Durable (codec : Codec) (st : StoreState) : Prop :=
  ∀ main ∈ st.disk.unsynced, Loads codec main st.store.snapshot ∧
    ∃ call write, st.writer = some (call, write) ∧ write.stage = .renamed

end StoreState

section Runs

variable {codec : Codec} {initial : List Schedule} {st after : StoreState}
  {label : StoreLabel}

open StoreState

theorem replay_concat (initial : List Schedule)
    (outcomes : List (Call × Except String Unit)) (call : Call)
    (result : Except String Unit) :
    replay initial (outcomes ++ [(call, result)]) =
      if result.isOk then call.effect (replay initial outcomes)
      else replay initial outcomes := by
  rw [replay, List.foldl_append]
  rfl

theorem StoreState.Sound.locked (hst : Sound codec initial st) (hfree : st.writer = none)
    {call : Call}
    (hcreate : ∀ id draft now result, call = .create id draft now →
      createIn st.store.snapshot (draft.created id now) = .ok result →
        ∀ schedule ∈ st.store.snapshot, schedule.id ≤ id) :
    Sound codec initial (st.locked call) := by
  have hheld : st.held = st.store.snapshot := by
    rw [held, hfree]
  have hdisk := hst.disk
  rw [hheld] at hdisk
  rw [StoreState.locked]
  split
  next reason hnext =>
    refine ⟨hst.listed, hst.writer, hst.orphans, hst.disk, ?_⟩
    rw [replay_concat]
    exact hst.replayed
  next hnext =>
    refine ⟨hst.listed, hst.writer, hst.orphans, hst.disk, ?_⟩
    rw [replay_concat, ← hst.replayed, Call.effect, hnext]
    rfl
  next next hnext =>
    refine ⟨hst.listed, ?_, hst.orphans, hdisk, hst.replayed⟩
    rintro _ _ ⟨⟩
    exact ⟨hnext, hst.listed.of_next hcreate hnext⟩

theorem StoreState.Sound.resumed (hst : Sound codec initial st) {call : Call}
    {write : Write} {result : Except String Unit}
    (hwriter : st.writer = some (call, write))
    (hstage : write.stage = .finished result) :
    Sound codec initial (st.resumed call write result) := by
  obtain ⟨hnext, hlisted⟩ := hst.writer call write hwriter
  have hdisk := hst.disk
  rw [held, hwriter] at hdisk
  cases result with
  | error reason =>
      have hreplaced : write.replaced = false := by
        rw [Write.replaced, hstage]
      simp only [hreplaced, Bool.false_eq_true, if_false] at hdisk
      refine ⟨hst.listed, fun _ _ h => (nomatch h), hst.orphans, hdisk, ?_⟩
      rw [StoreState.resumed, replay_concat]
      exact hst.replayed
  | ok _ =>
      have hreplaced : write.replaced = true := by
        rw [Write.replaced, hstage]
      simp only [hreplaced, if_true] at hdisk
      refine ⟨hlisted, fun _ _ h => (nomatch h), hst.orphans, hdisk, ?_⟩
      rw [StoreState.resumed, replay_concat, ← hst.replayed, Call.effect, hnext]
      rfl

theorem StoreState.Sound.step (hcodec : codec.Faithful) (hst : Sound codec initial st)
    (hclean : Clean st label) (hstep : st.step codec label = some after) :
    Sound codec initial after := by
  cases label with
  | arrive call =>
      cases hstep
      exact ⟨hst.listed, hst.writer, hst.orphans, hst.disk, hst.replayed⟩
  | leave index =>
      rw [StoreState.step] at hstep
      split at hstep
      next =>
        cases hstep
        exact ⟨hst.listed, hst.writer, hst.orphans, hst.disk, hst.replayed⟩
      next => cases hstep
  | lock index =>
      rw [StoreState.step] at hstep
      split at hstep
      next call hfree hcall =>
        cases hstep
        have hwaiting : Sound codec initial
            { st with waiting := st.waiting.eraseIdx index } :=
          ⟨hst.listed, hst.writer, hst.orphans, hst.disk, hst.replayed⟩
        refine hwaiting.locked hfree ?_
        rintro id draft now result rfl hresult
        exact hclean id draft now result hcall hresult
      next => cases hstep
  | work fs =>
      rw [StoreState.step] at hstep
      split at hstep
      next call write hwriter =>
        obtain ⟨⟨disk, written⟩, hrun, rfl⟩ := Option.map_eq_some_iff.mp hstep
        obtain ⟨hnext, hlisted⟩ := hst.writer call write hwriter
        obtain ⟨hsame, hcases⟩ := FsStep.run_cases hrun
        have hdisk := hst.disk
        rw [held, hwriter] at hdisk
        refine ⟨hst.listed, ?_, hst.orphans, ?_, hst.replayed⟩
        · rintro _ _ ⟨⟩
          rw [hsame]
          exact ⟨hnext, hlisted⟩
        · rw [held]
          simp only [hsame]
          rcases hcases with ⟨hold, hnew, hmain, -⟩ |
            ⟨-, -, hstage, hmain, -⟩ | ⟨_, -, hold, hnew, hmain, -⟩
          · simp only [hold, hnew, hmain] at hdisk ⊢
            exact hdisk
          · have hnew : written.replaced = true := by
              rw [Write.replaced, hstage]
            simp only [hnew, if_true, hmain]
            exact loads_body hcodec hlisted
          · have hbefore : write.replaced = true := by
              rw [Write.replaced, hold]
            have hafter : written.replaced = true := by
              rw [Write.replaced, hnew]
            simp only [hbefore, hafter, hmain] at hdisk ⊢
            exact hdisk
      next => cases hstep
  | orphan index fs =>
      rw [StoreState.step] at hstep
      split at hstep
      next write hwrite =>
        obtain ⟨⟨disk, written⟩, hrun, rfl⟩ := Option.map_eq_some_iff.mp hstep
        have hold := hst.orphans write (List.mem_of_getElem? hwrite)
        obtain ⟨-, ⟨-, hnew, hmain, -⟩ | ⟨rfl, -⟩ | ⟨_, -, hstage, -⟩⟩ :=
          FsStep.run_cases hrun
        · refine ⟨hst.listed, hst.writer, ?_, ?_, hst.replayed⟩
          · intro other hmem
            rcases List.mem_or_eq_of_mem_set hmem with hmem | rfl
            · exact hst.orphans other hmem
            · exact hnew
          · have hdisk := hst.disk
            rw [← hmain] at hdisk
            exact hdisk
        · exact hclean.elim
        · rw [Write.replaced, hstage] at hold
          cases hold
      next => cases hstep
  | resume =>
      rw [StoreState.step] at hstep
      split at hstep
      next call write hwriter =>
        split at hstep
        next result hstage =>
          cases hstep
          exact hst.resumed hwriter hstage
        next => cases hstep
      next => cases hstep
  | drop =>
      rw [StoreState.step] at hstep
      split at hstep
      next call write hwriter =>
        cases hstep
        have hbefore := hclean call write hwriter
        have hdisk := hst.disk
        rw [held, hwriter] at hdisk
        simp only [hbefore, Bool.false_eq_true, if_false] at hdisk
        refine ⟨hst.listed, fun _ _ h => (nomatch h), ?_, hdisk, hst.replayed⟩
        intro other hmem
        rcases List.mem_append.mp hmem with hmem | hmem
        · exact hst.orphans other hmem
        · rw [List.mem_singleton.mp hmem]
          exact hbefore
      next => cases hstep

/-- Nothing can come back while no write awaits its sync. -/
theorem StoreState.Durable.nil (hst : st.Durable codec)
    (hstage : ∀ call write, st.writer = some (call, write) →
      write.stage ≠ .renamed) : st.disk.unsynced = [] := by
  refine List.eq_nil_iff_forall_not_mem.mpr fun main hmain => ?_
  obtain ⟨-, call, write, hwriter, hrenamed⟩ := hst main hmain
  exact hstage call write hwriter hrenamed

theorem StoreState.Durable.of_nil (hnil : st.disk.unsynced = []) :
    st.Durable codec := by
  intro main hmain
  rw [hnil] at hmain
  cases hmain

theorem StoreState.Durable.work (hsound : Sound codec initial st)
    (hst : st.Durable codec) {fs : FsStep} {call : Call} {write written : Write}
    {disk : Disk} (hwriter : st.writer = some (call, write))
    (hsynced : fs ≠ .sync false)
    (hrun : fs.run codec st.disk write = some (disk, written)) :
    Durable codec
      { st with disk := disk, writer := some (call, written) } := by
  obtain ⟨-, ⟨hold, -, -, hunsynced⟩ | ⟨-, hold, hstage, -, hunsynced⟩ |
    ⟨done, rfl, -, -, -, hunsynced⟩⟩ := FsStep.run_cases hrun
  · have hbefore : st.disk.unsynced = [] := by
      refine hst.nil ?_
      rintro _ _ hother hrenamed
      cases hwriter.symm.trans hother
      rw [Write.replaced, hrenamed] at hold
      cases hold
    exact Durable.of_nil (hunsynced.trans hbefore)
  · have hbefore : st.disk.unsynced = [] := by
      refine hst.nil ?_
      rintro _ _ hother hrenamed
      cases hwriter.symm.trans hother
      rw [Write.replaced, hrenamed] at hold
      cases hold
    have hdisk := hsound.disk
    rw [held, hwriter] at hdisk
    simp only [hold, Bool.false_eq_true, if_false] at hdisk
    intro main hmain
    rw [hunsynced, hbefore, List.mem_singleton] at hmain
    rw [hmain]
    exact ⟨hdisk, call, written, rfl, hstage⟩
  · cases done with
    | false => exact absurd rfl hsynced
    | true => exact Durable.of_nil hunsynced

theorem StoreState.Durable.step (hsound : Sound codec initial st)
    (hst : st.Durable codec) (hsynced : Synced st label)
    (hstep : st.step codec label = some after) : after.Durable codec := by
  obtain ⟨hclean, hsync⟩ := hsynced
  cases label with
  | arrive call =>
      cases hstep
      exact hst
  | leave index =>
      rw [StoreState.step] at hstep
      split at hstep
      next =>
        cases hstep
        exact hst
      next => cases hstep
  | lock index =>
      rw [StoreState.step] at hstep
      split at hstep
      next call hfree hcall =>
        cases hstep
        have hnil : st.disk.unsynced = [] := by
          refine hst.nil fun _ _ hwriter => ?_
          rw [hfree] at hwriter
          cases hwriter
        refine Durable.of_nil ?_
        rw [StoreState.locked]
        split <;> exact hnil
      next => cases hstep
  | work fs =>
      rw [StoreState.step] at hstep
      split at hstep
      next call write hwriter =>
        obtain ⟨⟨disk, written⟩, hrun, rfl⟩ := Option.map_eq_some_iff.mp hstep
        exact hst.work hsound hwriter (fun hfs => hsync (congrArg _ hfs)) hrun
      next => cases hstep
  | orphan index fs =>
      rw [StoreState.step] at hstep
      split at hstep
      next write hwrite =>
        obtain ⟨⟨disk, written⟩, hrun, rfl⟩ := Option.map_eq_some_iff.mp hstep
        have hold := hsound.orphans write (List.mem_of_getElem? hwrite)
        obtain ⟨-, ⟨-, -, -, hunsynced⟩ | ⟨rfl, -⟩ | ⟨_, -, hstage, -⟩⟩ :=
          FsStep.run_cases hrun
        · intro main hmain
          exact hst main (hunsynced ▸ hmain)
        · exact hclean.elim
        · rw [Write.replaced, hstage] at hold
          cases hold
      next => cases hstep
  | resume =>
      rw [StoreState.step] at hstep
      split at hstep
      next call write hwriter =>
        split at hstep
        next result hstage =>
          cases hstep
          refine Durable.of_nil ?_
          have hnil : st.disk.unsynced = [] := by
            refine hst.nil ?_
            rintro _ _ hother hrenamed
            cases hwriter.symm.trans hother
            rw [hstage] at hrenamed
            cases hrenamed
          cases result <;> exact hnil
        next => cases hstep
      next => cases hstep
  | drop =>
      rw [StoreState.step] at hstep
      split at hstep
      next call write hwriter =>
        cases hstep
        refine Durable.of_nil (hst.nil ?_)
        rintro _ _ hother hrenamed
        have hold := hclean _ _ hother
        rw [Write.replaced, hrenamed] at hold
        cases hold
      next => cases hstep

/-- A load that reports nothing has read the main file. -/
theorem loads_of_load {files : Files} {env : LoadEnv}
    (hload : (ScheduleStore.load codec files env).1.report.degraded = false) :
    Loads codec files.main (ScheduleStore.load codec files env).1.snapshot ∧
      Listed (ScheduleStore.load codec files env).1.snapshot := by
  have henv : env.mainError = none := by
    by_contra henv
    rw [degraded_of_error henv] at hload
    cases hload
  have hchecked := @load_checked codec files env
  cases hmain : files.main with
  | none =>
      have hnothing : (ScheduleStore.load codec files env).1.snapshot = [] := by
        simp only [ScheduleStore.load, readFile, henv, hmain,
          Codec.readWithRecovery]
      rw [hnothing]
      refine ⟨fun others other hother hread => ?_,
        List.Pairwise.nil, fun _ h => absurd h List.not_mem_nil⟩
      simp only [ScheduleStore.load, readFile, hread, hother,
        Codec.readWithRecovery]
      exact ⟨trivial, rfl⟩
  | some bytes =>
      have hdamaged := (@degraded_iff codec files bytes env hmain henv).not.mp
        (Bool.eq_false_iff.mp hload)
      rw [Codec.Damaged] at hdamaged
      split at hdamaged
      next => exact absurd trivial hdamaged
      next schedules unreadable hparse =>
        cases Nat.eq_zero_of_not_pos hdamaged
        have hloads : Loads codec (some bytes) schedules := by
          intro others other hother hread
          simp only [ScheduleStore.load, readFile, hread, hother,
            Codec.readWithRecovery, hparse]
          exact ⟨trivial, rfl⟩
        have hsnapshot := (hloads files env hmain henv).1
        rw [hsnapshot] at hchecked ⊢
        exact ⟨hloads, parseFile_sorted hparse, hchecked⟩

theorem StoreState.Sound.start {files : Files} {env : LoadEnv}
    (hload : (ScheduleStore.load codec files env).1.report.degraded = false) :
    Sound codec (ScheduleStore.load codec files env).1.snapshot
      (.start codec files env) := by
  obtain ⟨hloads, hlisted⟩ := loads_of_load hload
  refine ⟨hlisted, fun _ _ h => (nomatch h), fun _ h => (nomatch h), ?_, rfl⟩
  rw [← load_main env] at hloads
  exact hloads

/-- Memory and disk agree after every run whose dropped futures have replaced
nothing, and a crash finds the list before or after the call that writes. -/
theorem store_agrees (hcodec : codec.Faithful) {files : Files} {env : LoadEnv}
    (hload : (ScheduleStore.load codec files env).1.report.degraded = false) :
    (∀ labels st, run (StoreState.step codec) (.start codec files env) labels =
        some st →
      StepsMeet (StoreState.step codec) Clean (.start codec files env) labels →
      st.Quiet →
        st.Agrees codec (ScheduleStore.load codec files env).1.snapshot) ∧
    ∀ labels st, run (StoreState.step codec) (.start codec files env) labels =
        some st →
      StepsMeet (StoreState.step codec) Synced (.start codec files env) labels →
        st.CrashSafe codec := by
  have hstart := StoreState.Sound.start hload
  constructor
  · intro labels st hrun hclean hquiet
    have hsound := run_invariant_of_stepsMeet (Sound codec _)
      (fun st label next hst hok hstep => hst.step hcodec hok hstep) hstart
      hclean hrun
    have hdisk := hsound.disk
    rw [held, hquiet.2.1] at hdisk
    exact ⟨hdisk, hsound.replayed⟩
  · intro labels st hrun hsynced
    obtain ⟨hsound, hdurable⟩ := run_invariant_of_stepsMeet
      (fun st => Sound codec (ScheduleStore.load codec files env).1.snapshot st ∧
        st.Durable codec)
      (fun st label next hst hok hstep =>
        ⟨hst.1.step hcodec hok.1 hstep, hst.2.step hst.1 hok hstep⟩)
      ⟨hstart, Durable.of_nil rfl⟩ hsynced hrun
    intro main hmain
    rcases List.mem_cons.mp hmain with rfl | hmain
    · have hdisk := hsound.disk
      rw [held] at hdisk
      split at hdisk
      next call write hwriter =>
        split at hdisk
        next => exact Or.inr ⟨call, write, hwriter, hdisk⟩
        next => exact Or.inl hdisk
      next => exact Or.inl hdisk
    · exact Or.inl (hdurable main hmain).1

end Runs

section Dropped

open StoreState

/-- A call whose future is dropped once its task has finished. -/
def droppedLabels (call : Call) : List StoreLabel :=
  [.arrive call, .lock 0, .work (.copy .done), .work .prepare, .work .rename,
    .work (.sync true), .drop]

theorem dropped_run {codec : Codec} {st : StoreState} {call : Call}
    {next : List Schedule} (hwaiting : st.waiting = [])
    (hwriter : st.writer = none) (horphans : st.orphans = [])
    (hnext : call.next st.store.snapshot = .ok (some next)) :
    ∃ after, run (StoreState.step codec) st (droppedLabels call) = some after ∧
      after.Quiet ∧ after.store = st.store ∧
        after.disk.files.main = some (codec.body next) := by
  obtain ⟨store, disk, waiting, writer, orphans, outcomes⟩ := st
  cases hwaiting
  cases hwriter
  cases horphans
  have hlock : StoreState.step codec ⟨store, disk, [call], none, [], outcomes⟩
      (.lock 0) = some ⟨store, disk, [],
        some (call, ⟨next, store.mainTrusted, .queued⟩), [], outcomes⟩ := by
    have hlocked : locked ⟨store, disk, [], none, [], outcomes⟩ call =
        ⟨store, disk, [], some (call, ⟨next, store.mainTrusted, .queued⟩), [],
          outcomes⟩ := by
      rw [locked]
      simp only at hnext
      rw [hnext]
    exact congrArg some hlocked
  refine ⟨_, run_cons_of_step rfl (run_cons_of_step hlock rfl), ?_, rfl, rfl⟩
  refine ⟨rfl, rfl, fun write hmem => ?_⟩
  rw [List.mem_singleton.mp hmem]
  rfl

def savedFiles : Files where
  main := some (everyMinuteText "")
  prev := none
  corrupt := none

theorem saved_snapshot : (ScheduleStore.load exampleCodec savedFiles
    quietEnv).1.snapshot = [everyMinuteSchedule] := by
  simp only [ScheduleStore.load, savedFiles, quietEnv, readFile,
    Codec.readWithRecovery, parseFile_everyMinute]

theorem saved_loaded : (ScheduleStore.load exampleCodec savedFiles
    quietEnv).1.report.degraded = false := by
  simp only [ScheduleStore.load, savedFiles, quietEnv, readFile,
    Codec.readWithRecovery, parseFile_everyMinute]
  rfl

theorem saved_agrees :
    (∀ labels st, run (StoreState.step exampleCodec)
        (.start exampleCodec savedFiles quietEnv) labels = some st →
      StepsMeet (StoreState.step exampleCodec) Clean
        (.start exampleCodec savedFiles quietEnv) labels →
      st.Quiet → st.Agrees exampleCodec
        (ScheduleStore.load exampleCodec savedFiles quietEnv).1.snapshot) ∧
    ∀ labels st, run (StoreState.step exampleCodec)
        (.start exampleCodec savedFiles quietEnv) labels = some st →
      StepsMeet (StoreState.step exampleCodec) Synced
        (.start exampleCodec savedFiles quietEnv) labels →
      st.CrashSafe exampleCodec :=
  store_agrees exampleCodec_faithful saved_loaded

/-- The file has the run that was recorded, and memory has not. -/
theorem saved_diverges :
    exampleCodec.Faithful ∧
      (ScheduleStore.load exampleCodec savedFiles
        quietEnv).1.report.degraded = false ∧
      ∃ labels st, run (StoreState.step exampleCodec)
          (.start exampleCodec savedFiles quietEnv) labels = some st ∧
        st.Quiet ∧ ¬ st.Agrees exampleCodec
          (ScheduleStore.load exampleCodec savedFiles quietEnv).1.snapshot := by
  have hnext : (Call.recordRun everyMinuteSchedule.id Calendar.MINUTE none).next
      [everyMinuteSchedule] = .ok (some [{ everyMinuteSchedule with
        lastRunAt := some Calendar.MINUTE }]) := by
    rfl
  have hlisted : Listed [{ everyMinuteSchedule with
      lastRunAt := some Calendar.MINUTE }] := by
    refine ⟨List.pairwise_singleton _ _, fun schedule hmem => ?_⟩
    rw [List.mem_singleton.mp hmem]
    exact everyMinute_checked
  rw [← saved_snapshot] at hnext
  obtain ⟨st, hrun, hquiet, hstore, hmain⟩ := @dropped_run exampleCodec
    (.start exampleCodec savedFiles quietEnv) _ _ rfl rfl rfl hnext
  refine ⟨exampleCodec_faithful, saved_loaded, _, st, hrun, hquiet, ?_⟩
  rintro ⟨hloads, -⟩
  rw [hmain] at hloads
  have hdisk := (loads_body exampleCodec_faithful hlisted st.disk.files quietEnv
    hmain rfl).1
  rw [(hloads st.disk.files quietEnv hmain rfl).1, hstore] at hdisk
  have hsame := saved_snapshot.symm.trans hdisk
  cases List.singleton_inj.mp hsame

end Dropped

end Web

end XBackup
