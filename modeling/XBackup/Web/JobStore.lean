/-
The history of jobs: a log for each job and an index over all of them.  What a
call writes goes to the log first and to the index in a step of its own.
-/
import XBackup.Foundation.SortedMap
import XBackup.Foundation.Transition
import XBackup.Web.JobRecord
import XBackup.Web.ScheduleFile

namespace XBackup

namespace Web

namespace JobStore

open LineLog SortedMap Transition

def JOB_HISTORY_SCHEMA : Nat := 1
def FINISH_ATTEMPTS : Nat := 3

abbrev JobId : Type := Fin (2 ^ 128)

/-- The texts of ids. -/
structure IdText where
  parse : String → Option JobId
  text : JobId → String

def IdText.Faithful (ids : IdText) : Prop :=
  ∀ id, ids.parse (ids.text id) = some id

structure JobStart where
  command : String
  profile : Option String
  argsMasked : List String
  startedAt : String
  pid : Option Nat

structure JobSummary where
  id : JobId
  command : String
  profile : Option String
  argsMasked : List String
  startedAt : String
  pid : Option Nat
  finishedAt : Option String
  outcome : Option String
  exitCode : Option Int
deriving DecidableEq

namespace JobSummary

def isRunning (summary : JobSummary) : Bool :=
  summary.finishedAt.isNone

def fromStart (id : JobId) (record : StartRecord) : JobSummary where
  id := id
  command := record.command
  profile := record.profile
  argsMasked := record.argsMasked
  startedAt := record.startedAt
  pid := record.pid
  finishedAt := none
  outcome := none
  exitCode := none

def applyEnd (summary : JobSummary) (record : EndRecord) : JobSummary :=
  { summary with
    finishedAt := some record.finishedAt
    outcome := some record.outcome
    exitCode := record.exitCode }

/-- A start that comes again keeps the end that was there. -/
def keepEnd (summary : JobSummary) : Option JobSummary → JobSummary
  | none => summary
  | some previous =>
      { summary with
        finishedAt := previous.finishedAt
        outcome := previous.outcome
        exitCode := previous.exitCode }

end JobSummary

structure JobHistory where
  entries : List JobSummary
  unreadableLines : Nat
  indexPresent : Bool

structure RebuildReport where
  jobs : Nat
  records : Nat
  unreadableLines : Nat

/-- The directory of the store. -/
structure Files where
  index : Option (List UInt8)
  logs : Map JobId (List UInt8)

inductive Path where
  | index
  | log (id : JobId)
deriving DecidableEq

namespace Files

def read (files : Files) : Path → Option (List UInt8)
  | .index => files.index
  | .log id => files.logs.get id

def content (files : Files) (path : Path) : List UInt8 :=
  (files.read path).getD []

def put (files : Files) (bytes : List UInt8) : Path → Files
  | .index => { files with index := some bytes }
  | .log id => { files with logs := files.logs.insert id bytes }

end Files

/-- What comes of an append: the file is opened or not, so many bytes are
written, and the sync behind them succeeds or not. -/
structure Attempt where
  opened : Bool
  cut : Nat
  synced : Bool

section Reading

variable (ids : IdText) (format : Format UInt8 JobRecord)

def foldRecord (folded : Map JobId JobSummary × Nat) :
    JobRecord → Map JobId JobSummary × Nat
  | .start record =>
      match ids.parse record.id with
      | some id =>
          (folded.1.insert id ((JobSummary.fromStart id record).keepEnd
            (folded.1.get id)), folded.2)
      | none => (folded.1, folded.2 + 1)
  | .ended record =>
      match ids.parse record.id with
      | some id =>
          match folded.1.get id with
          | some summary =>
              (folded.1.insert id (summary.applyEnd record), folded.2)
          | none => (folded.1, folded.2 + 1)
      | none => (folded.1, folded.2 + 1)
  | .log _ => (folded.1, folded.2 + 1)

def foldIndex (present : Bool) (records : List JobRecord)
    (unreadable : Nat) : JobHistory :=
  let folded := records.foldl (foldRecord ids) (Map.empty, unreadable)
  { entries := (folded.1.entries.map Prod.snd).reverse
    unreadableLines := folded.2
    indexPresent := present }

def list (files : Files) : JobHistory :=
  foldIndex ids files.index.isSome (records format (files.content .index))
    (unreadableLines format (files.content .index))

def isLog : JobRecord → Bool
  | .log _ => true
  | _ => false

/-- The records of a log that the index is made of. -/
def indexable (content : List UInt8) : List JobRecord :=
  (records format content).filter fun record => !isLog record

def rebuildIndex (files : Files) : Files × RebuildReport :=
  let kept := files.logs.entries.flatMap fun log => indexable format log.2
  ({ files with
      index := some (kept.flatMap fun record =>
        format.line record ++ [format.newline]) },
    { jobs := files.logs.entries.length
      records := kept.length
      unreadableLines := (files.logs.entries.map fun log =>
        unreadableLines format log.2).sum })

def append (files : Files) (path : Path) (record : JobRecord)
    (attempt : Attempt) : Files × Bool :=
  let content := files.content path
  if attempt.opened then
    (files.put (appended format content record attempt.cut) path,
      decide ((entry format content record).length ≤ attempt.cut) &&
        attempt.synced)
  else (files, false)

end Reading

/-- Where a call of the store stands; `left` counts the attempts that a finish
still has, and `logged` says that its line is in the log. -/
inductive Call where
  | idle
  | start (id : JobId) (record : StartRecord) (logged : Bool)
  | appendLog (id : JobId) (record : LogRecord)
  | finish (id : JobId) (record : EndRecord) (outcome : JobOutcome)
      (left : Nat) (logged : Bool)
  | retry (id : JobId) (outcome : JobOutcome) (left : Nat)

namespace Call

/-- The append that a call makes next. -/
def target : Call → Option (Path × JobRecord)
  | idle => none
  | start id record false => some (.log id, .start record)
  | start _ record true => some (.index, .start record)
  | appendLog id record => some (.log id, .log record)
  | finish id record _ _ false => some (.log id, .ended record)
  | finish _ record _ _ true => some (.index, .ended record)
  | retry _ _ _ => none

def afterFailure (id : JobId) (outcome : JobOutcome) : Nat → Call
  | 0 => idle
  | left + 1 => retry id outcome left

/-- What follows an append that succeeds or not. -/
def next : Call → Bool → Call
  | start id record false, true => start id record true
  | finish id record outcome left false, true =>
      finish id record outcome left true
  | finish _ _ _ _ true, true => idle
  | finish id _ outcome left _, false => afterFailure id outcome left
  | _, _ => idle

/-- A job is known to others once its start has returned. -/
def gives (call : Call) (ok : Bool) : List JobId :=
  match call, call.next ok with
  | start id _ _, idle => [id]
  | _, _ => []

end Call

/-- The files, the calls under way, the ids that were issued, and those of them
that are known. -/
structure World where
  files : Files
  calls : Nat → Call
  issued : List JobId
  known : List JobId

def World.empty : World where
  files := ⟨none, Map.empty⟩
  calls := fun _ => .idle
  issued := []
  known := []

inductive Label where
  | start (thread : Nat) (id : JobId) (job : JobStart)
  | appendLog (thread : Nat) (id : JobId) (record : LogRecord)
  | finish (thread : Nat) (id : JobId) (outcome : JobOutcome) (now : String)
      (persistent : Bool)
  | retry (thread : Nat) (now : String)
  | write (thread : Nat) (attempt : Attempt)
  | crash

section Machine

variable (ids : IdText) (format : Format UInt8 JobRecord)

def startRecord (id : JobId) (job : JobStart) : StartRecord where
  schema := JOB_HISTORY_SCHEMA
  id := ids.text id
  command := job.command
  profile := job.profile
  argsMasked := job.argsMasked
  startedAt := job.startedAt
  pid := job.pid

def endRecord (id : JobId) (outcome : JobOutcome) (now : String) :
    EndRecord where
  schema := JOB_HISTORY_SCHEMA
  id := ids.text id
  finishedAt := now
  outcome := outcome.label
  exitCode := outcome.exitCode

def World.set (st : World) (thread : Nat) (call : Call) : World :=
  { st with calls := Function.update st.calls thread call }

/-- A call begins where none is under way. -/
def World.begin (st : World) (thread : Nat) (call : Call) : Option World :=
  match st.calls thread with
  | .idle => some (st.set thread call)
  | _ => none

def step (st : World) : Label → Option World
  | .start thread id job =>
      if id ∈ st.issued then none
      else
        ({ st with issued := id :: st.issued } : World).begin thread
          (.start id (startRecord ids id job) false)
  | .appendLog thread id record =>
      if id ∈ st.known then st.begin thread (.appendLog id record) else none
  | .finish thread id outcome now persistent =>
      if id ∈ st.known then
        st.begin thread (.finish id (endRecord ids id outcome now) outcome
          (if persistent then FINISH_ATTEMPTS - 1 else 0) false)
      else none
  | .retry thread now =>
      match st.calls thread with
      | .retry id outcome left =>
          some (st.set thread
            (.finish id (endRecord ids id outcome now) outcome left false))
      | _ => none
  | .write thread attempt =>
      (st.calls thread).target.map fun target =>
        let result := append format st.files target.1 target.2 attempt
        { st with
          files := result.1
          calls := Function.update st.calls thread
            ((st.calls thread).next result.2)
          known := (st.calls thread).gives result.2 ++ st.known }
  | .crash => some { st with calls := fun _ => .idle, known := st.issued }

end Machine

section Views

variable (ids : IdText) (format : Format UInt8 JobRecord)

/-- A line of the index that is about a job. -/
def isOf (id : JobId) : JobRecord → Bool
  | .start record => ids.parse record.id = some id
  | .ended record => ids.parse record.id = some id
  | .log _ => false

def logRecords (files : Files) (id : JobId) : List JobRecord :=
  indexable format (files.content (.log id))

def indexRecords (files : Files) (id : JobId) : List JobRecord :=
  (records format (files.content .index)).filter (isOf ids id)

def starts (records : List JobRecord) : List StartRecord :=
  records.filterMap fun record =>
    match record with
    | .start record => some record
    | _ => none

def ends (records : List JobRecord) : List EndRecord :=
  records.filterMap fun record =>
    match record with
    | .ended record => some record
    | _ => none

/-- The finishes of a job reach the index in the order in which they stand in
its log. -/
def InOrder (st : World) : Label → Prop
  | .write thread attempt => ∀ id record outcome left,
      st.calls thread = .finish id record outcome left true →
        attempt.opened = true →
          landed format (st.files.content .index) (.ended record)
              attempt.cut = true →
            (ends (indexRecords ids format st.files id) ++ [record]).Sublist
              (ends (logRecords format st.files id))
  | _ => True

/-- At most one start, and then finishes. -/
def shape (start : Option StartRecord) (ends : List EndRecord) :
    List JobRecord :=
  start.toList.map .start ++ ends.map .ended

/-- The index has of a log its start or not yet, and some of its finishes in
their order. -/
def Cached (logged indexed : List JobRecord) : Prop :=
  ∃ start indexedStart ends indexedEnds, logged = shape start ends ∧
    indexed = shape indexedStart indexedEnds ∧
      (indexedStart = none ∨ indexedStart = start) ∧ indexedEnds.Sublist ends

/-- What is so where a call stands. -/
def Held (st : World) : Call → Prop
  | .idle => True
  | .start id record logged =>
      id ∈ st.issued ∧ id ∉ st.known ∧ record.id = ids.text id ∧
        logRecords format st.files id =
          (if logged then [.start record] else []) ∧
        indexRecords ids format st.files id = []
  | .appendLog id _ => id ∈ st.known
  | .finish id record _ _ _ => id ∈ st.known ∧ record.id = ids.text id
  | .retry id _ _ => id ∈ st.known

structure Inv (st : World) : Prop where
  cached : ∀ id, Cached (logRecords format st.files id)
    (indexRecords ids format st.files id)
  tagged : ∀ id, ∀ record ∈ logRecords format st.files id,
    isOf ids id record = true
  fresh : ∀ id, id ∉ st.issued → logRecords format st.files id = [] ∧
    indexRecords ids format st.files id = []
  issued : st.known ⊆ st.issued
  held : ∀ thread, Held ids format st (st.calls thread)
  alone : ∀ thread other id record logged record' logged',
    st.calls thread = .start id record logged →
      st.calls other = .start id record' logged' → thread = other

end Views

section Appends

variable {ids : IdText} {format : Format UInt8 JobRecord} {files : Files}
  {path other : Path} {record : JobRecord} {attempt : Attempt}
  {bytes : List UInt8} {id j : JobId}

theorem content_put : (files.put bytes path).content other =
    if other = path then bytes else files.content other := by
  cases path with
  | index =>
      cases other with
      | index => rfl
      | log id => rfl
  | log id =>
      cases other with
      | index => rfl
      | log j =>
          rw [Files.content, Files.read, Files.put]
          dsimp only
          rw [Map.get_insert]
          by_cases hsame : j = id
          · simp [hsame]
          · simp [hsame, Files.content, Files.read]

/-- The whole record went into the file. -/
def wrote (format : Format UInt8 JobRecord) (files : Files) (path : Path)
    (record : JobRecord) (attempt : Attempt) : Bool :=
  attempt.opened && landed format (files.content path) record attempt.cut

theorem wrote_of_append
    (hok : (append format files path record attempt).2 = true) :
    wrote format files path record attempt = true := by
  rw [append] at hok
  split at hok
  next hopened =>
    rw [Bool.and_eq_true, decide_eq_true_eq, entry, List.length_append,
      List.length_append] at hok
    rw [wrote, hopened, landed, Bool.true_and, decide_eq_true_eq]
    omega
  next => cases hok

theorem records_append (hsound : format.Sound) :
    records format ((append format files path record attempt).1.content
        other) =
      records format (files.content other) ++
        if other = path ∧ wrote format files path record attempt = true then
          [record]
        else [] := by
  rw [append, wrote]
  cases attempt.opened with
  | false => simp
  | true =>
      rw [if_pos rfl, content_put]
      by_cases hsame : other = path
      · rw [if_pos hsame, records_appended hsound, hsame]
        simp
      · rw [if_neg hsame, if_neg fun hboth => hsame hboth.1, List.append_nil]

theorem logRecords_append (hsound : format.Sound) :
    logRecords format (append format files path record attempt).1 id =
      logRecords format files id ++
        if (path = .log id ∧ wrote format files path record attempt = true) ∧
            isLog record = false then [record] else [] := by
  rw [logRecords, indexable, records_append hsound, List.filter_append,
    logRecords, indexable]
  congr 1
  by_cases hwrote : Path.log id = path ∧
      wrote format files path record attempt = true
  · rw [if_pos hwrote, List.filter_singleton]
    cases isLog record <;> simp [hwrote.1.symm, hwrote.1 ▸ hwrote.2]
  · rw [if_neg hwrote, if_neg fun hboth =>
      hwrote ⟨hboth.1.1.symm, hboth.1.2⟩]
    rfl

theorem indexRecords_append (hsound : format.Sound) :
    indexRecords ids format (append format files path record attempt).1 id =
      indexRecords ids format files id ++
        if (path = .index ∧ wrote format files path record attempt = true) ∧
            isOf ids id record = true then [record] else [] := by
  rw [indexRecords, records_append hsound, List.filter_append, indexRecords]
  congr 1
  by_cases hwrote : Path.index = path ∧
      wrote format files path record attempt = true
  · rw [if_pos hwrote, List.filter_singleton]
    simp [hwrote.1.symm, hwrote.1 ▸ hwrote.2]
  · rw [if_neg hwrote, if_neg fun hboth =>
      hwrote ⟨hboth.1.1.symm, hboth.1.2⟩]
    rfl

theorem isOf_unique (hid : isOf ids id record = true)
    (hj : isOf ids j record = true) : j = id := by
  cases record with
  | log record => cases hid
  | start record =>
      rw [isOf, decide_eq_true_eq] at hid hj
      exact Option.some.inj (hj.symm.trans hid)
  | ended record =>
      rw [isOf, decide_eq_true_eq] at hid hj
      exact Option.some.inj (hj.symm.trans hid)

/-- A write about one job leaves what is kept of the others. -/
theorem append_other (hsound : format.Sound)
    (hof : isLog record = true ∨ isOf ids id record = true)
    (hpath : path = .log id ∨ path = .index) (hne : j ≠ id) :
    logRecords format (append format files path record attempt).1 j =
        logRecords format files j ∧
      indexRecords ids format (append format files path record attempt).1 j =
        indexRecords ids format files j := by
  rw [logRecords_append hsound, indexRecords_append hsound, if_neg, if_neg,
    List.append_nil, List.append_nil]
  · exact ⟨rfl, rfl⟩
  · rintro ⟨-, hj⟩
    rcases hof with hlog | hof
    · cases record with
      | log record => cases hj
      | start record => cases hlog
      | ended record => cases hlog
    · exact hne (isOf_unique hof hj)
  · rintro ⟨⟨hlog, -⟩, -⟩
    rcases hpath with rfl | rfl
    · cases hlog
      exact hne rfl
    · cases hlog

end Appends

section Shapes

variable {logged indexed : List JobRecord} {start : Option StartRecord}
  {finished : List EndRecord}

theorem starts_shape : starts (shape start finished) = start.toList := by
  rw [starts, shape, List.filterMap_append, List.filterMap_map,
    List.filterMap_map]
  cases start <;> simp

theorem ends_shape : ends (shape start finished) = finished := by
  rw [ends, shape, List.filterMap_append, List.filterMap_map,
    List.filterMap_map]
  simp

theorem shape_append (record : EndRecord) :
    shape start finished ++ [.ended record] =
      shape start (finished ++ [record]) := by
  simp [shape]

theorem cached_nil : Cached [] [] :=
  ⟨none, none, [], [], rfl, rfl, Or.inl rfl, List.Sublist.refl _⟩

theorem cached_start (record : StartRecord) (inLog inIndex : Bool)
    (horder : inIndex = true → inLog = true) :
    Cached (if inLog then [.start record] else [])
      (if inIndex then [.start record] else []) := by
  refine ⟨if inLog then some record else none,
    if inIndex then some record else none, [], [], ?_, ?_, ?_,
    List.Sublist.refl _⟩
  · cases inLog <;> rfl
  · cases inIndex <;> rfl
  · cases inIndex with
    | false => exact Or.inl rfl
    | true =>
        rw [horder rfl]
        exact Or.inr rfl

theorem Cached.finish_log (hcached : Cached logged indexed)
    (record : EndRecord) : Cached (logged ++ [.ended record]) indexed := by
  obtain ⟨start, indexedStart, finished, indexedEnds, rfl, rfl, hstart,
    hends⟩ := hcached
  exact ⟨start, indexedStart, finished ++ [record], indexedEnds,
    shape_append record, rfl, hstart, hends.trans
      (List.sublist_append_left finished [record])⟩

theorem Cached.finish_index (hcached : Cached logged indexed)
    {record : EndRecord}
    (horder : (ends indexed ++ [record]).Sublist (ends logged)) :
    Cached logged (indexed ++ [.ended record]) := by
  obtain ⟨start, indexedStart, finished, indexedEnds, rfl, rfl, hstart,
    -⟩ := hcached
  rw [ends_shape, ends_shape] at horder
  exact ⟨start, indexedStart, finished, indexedEnds ++ [record], rfl,
    shape_append record, hstart, horder⟩

end Shapes

section Runs

variable {ids : IdText} {format : Format UInt8 JobRecord} {st next last : World}
  {label : Label} {labels : List Label}

theorem inv_empty (hsound : format.Sound) : Inv ids format World.empty := by
  have hlog : ∀ id, logRecords format World.empty.files id = [] := by
    intro id
    have hcontent : World.empty.files.content (.log id) = [] := rfl
    rw [logRecords, indexable, hcontent, records_nil hsound]
    rfl
  have hindex : ∀ id, indexRecords ids format World.empty.files id = [] := by
    intro id
    have hcontent : World.empty.files.content .index = [] := rfl
    rw [indexRecords, hcontent, records_nil hsound]
    rfl
  refine ⟨fun id => ?_, fun id => ?_, fun id _ => ⟨hlog id, hindex id⟩,
    List.Subset.refl _, fun _ => trivial, fun _ _ _ _ _ _ _ h => nomatch h⟩
  · rw [hlog, hindex]
    exact cached_nil
  · rw [hlog]
    exact fun _ hmem => nomatch hmem

/-- A step of one call about one job, of which the other calls are no start. -/
theorem Inv.update (hinv : Inv ids format st) {thread : Nat} {call : Call}
    {files : Files} {given : List JobId} {id : JobId}
    (hothers : ∀ j, j ≠ id →
      logRecords format files j = logRecords format st.files j ∧
        indexRecords ids format files j =
          indexRecords ids format st.files j)
    (hissued : id ∈ st.issued)
    (halone : ∀ other, other ≠ thread → ∀ record logged,
      st.calls other ≠ .start id record logged)
    (hgiven : ∀ j ∈ given, j = id)
    (hcached : Cached (logRecords format files id)
      (indexRecords ids format files id))
    (htagged : ∀ record ∈ logRecords format files id,
      isOf ids id record = true)
    (hheld : Held ids format
      ⟨files, Function.update st.calls thread call, st.issued,
        given ++ st.known⟩ call)
    (hcall : ∀ j record logged, call = .start j record logged → j = id) :
    Inv ids format ⟨files, Function.update st.calls thread call, st.issued,
      given ++ st.known⟩ := by
  have hother : ∀ other j record logged, other ≠ thread →
      st.calls other = .start j record logged → j ≠ id := by
    rintro other j record logged hne hcalls rfl
    exact halone other hne record logged hcalls
  refine ⟨fun j => ?_, fun j => ?_, fun j hj => ?_, ?_, fun other => ?_, ?_⟩
  · by_cases hj : j = id
    · rw [hj]
      exact hcached
    · dsimp only
      rw [(hothers j hj).1, (hothers j hj).2]
      exact hinv.cached j
  · by_cases hj : j = id
    · rw [hj]
      exact htagged
    · dsimp only
      rw [(hothers j hj).1]
      exact hinv.tagged j
  · have hne : j ≠ id := by
      rintro rfl
      exact hj hissued
    dsimp only
    rw [(hothers j hne).1, (hothers j hne).2]
    exact hinv.fresh j hj
  · intro j hj
    rcases List.mem_append.mp hj with hj | hj
    · rw [hgiven j hj]
      exact hissued
    · exact hinv.issued hj
  · by_cases hsame : other = thread
    · dsimp only
      rw [hsame, Function.update_self]
      exact hheld
    · dsimp only
      rw [Function.update_of_ne hsame]
      have hbefore := hinv.held other
      cases hcalls : st.calls other with
      | idle => trivial
      | start j record logged =>
          rw [hcalls] at hbefore
          obtain ⟨hj, hunknown, hid, hlog, hindex⟩ := hbefore
          have hne := hother other j record logged hsame hcalls
          refine ⟨hj, ?_, hid, ?_, ?_⟩
          · rw [List.mem_append, not_or]
            exact ⟨fun hmem => hne (hgiven j hmem), hunknown⟩
          · dsimp only
            rw [(hothers j hne).1]
            exact hlog
          · dsimp only
            rw [(hothers j hne).2]
            exact hindex
      | appendLog j record =>
          rw [hcalls] at hbefore
          exact List.mem_append_right _ hbefore
      | finish j record outcome left logged =>
          rw [hcalls] at hbefore
          exact ⟨List.mem_append_right _ hbefore.1, hbefore.2⟩
      | retry j outcome left =>
          rw [hcalls] at hbefore
          exact List.mem_append_right _ hbefore
  · intro one other j record logged record' logged' hone hsecond
    dsimp only at hone hsecond
    by_cases honeThread : one = thread
    · by_cases hotherThread : other = thread
      · rw [honeThread, hotherThread]
      · rw [honeThread, Function.update_self] at hone
        rw [Function.update_of_ne hotherThread] at hsecond
        exact absurd (hcall j record logged hone)
          (hother other j record' logged' hotherThread hsecond)
    · rw [Function.update_of_ne honeThread] at hone
      by_cases hotherThread : other = thread
      · rw [hotherThread, Function.update_self] at hsecond
        exact absurd (hcall j record' logged' hsecond)
          (hother one j record logged honeThread hone)
      · rw [Function.update_of_ne hotherThread] at hsecond
        exact hinv.alone one other j record logged record' logged' hone
          hsecond

variable {thread : Nat} {attempt : Attempt} {id : JobId} {left : Nat}
  {outcome : JobOutcome}

theorem isOf_start (hids : ids.Faithful) {record : StartRecord}
    (hid : record.id = ids.text id) : isOf ids id (.start record) = true := by
  rw [isOf, hid, hids id]
  exact decide_eq_true rfl

theorem isOf_ended (hids : ids.Faithful) {record : EndRecord}
    (hid : record.id = ids.text id) : isOf ids id (.ended record) = true := by
  rw [isOf, hid, hids id]
  exact decide_eq_true rfl

theorem Inv.not_starting (hinv : Inv ids format st) (hknown : id ∈ st.known) :
    ∀ other record logged, st.calls other ≠ .start id record logged := by
  intro other record logged hcalls
  have hheld := hinv.held other
  rw [hcalls] at hheld
  exact hheld.2.1 hknown

theorem Inv.start_alone (hinv : Inv ids format st) {record : StartRecord}
    {logged : Bool} (hcall : st.calls thread = .start id record logged) :
    ∀ other, other ≠ thread → ∀ record logged,
      st.calls other ≠ .start id record logged := by
  intro other hne record' logged' hother
  exact hne (hinv.alone other thread id record' logged' record logged hother
    hcall)

theorem inv_startLog (hsound : format.Sound) (hids : ids.Faithful)
    (hinv : Inv ids format st) {record : StartRecord}
    (hcall : st.calls thread = .start id record false)
    (hstep : step ids format st (.write thread attempt) = some next) :
    Inv ids format next := by
  have hheld := hinv.held thread
  rw [hcall] at hheld
  obtain ⟨hissued, hunknown, hid, hlog, hindex⟩ := hheld
  have hof := isOf_start hids hid
  rw [step, hcall] at hstep
  cases hstep
  dsimp only
  have hlogged := @logRecords_append format st.files (.log id)
    (.start record) attempt id hsound
  have hindexed := @indexRecords_append ids format st.files (.log id)
    (.start record) attempt id hsound
  rw [hlog, if_neg Bool.false_ne_true, List.nil_append] at hlogged
  rw [hindex, if_neg fun h => (nomatch h.1.1), List.append_nil] at hindexed
  refine hinv.update
    (fun j hne => append_other hsound (Or.inr hof) (Or.inl rfl) hne) hissued
    (hinv.start_alone hcall) ?_ ?_ ?_ ?_ ?_
  · intro j hj
    cases hok : (append format st.files (.log id) (.start record)
        attempt).2 with
    | true =>
        rw [hok] at hj
        cases hj
    | false =>
        rw [hok] at hj
        exact List.mem_singleton.mp hj
  · rw [hlogged, hindexed]
    split
    next => exact cached_start record true false nofun
    next => exact cached_nil
  · rw [hlogged]
    intro written hwritten
    split at hwritten
    next =>
      rw [List.mem_singleton.mp hwritten]
      exact hof
    next => cases hwritten
  · cases hok : (append format st.files (.log id) (.start record)
        attempt).2 with
    | false => trivial
    | true =>
        refine ⟨hissued, hunknown, hid, ?_, hindexed⟩
        dsimp only
        rw [hlogged, if_pos ⟨⟨rfl, wrote_of_append hok⟩, rfl⟩, if_pos rfl]
  · intro j record' logged' hnext
    cases hok : (append format st.files (.log id) (.start record)
        attempt).2 with
    | false =>
        rw [hok] at hnext
        cases hnext
    | true =>
        rw [hok] at hnext
        cases hnext
        rfl

theorem inv_startIndex (hsound : format.Sound) (hids : ids.Faithful)
    (hinv : Inv ids format st) {record : StartRecord}
    (hcall : st.calls thread = .start id record true)
    (hstep : step ids format st (.write thread attempt) = some next) :
    Inv ids format next := by
  have hheld := hinv.held thread
  rw [hcall] at hheld
  obtain ⟨hissued, hunknown, hid, hlog, hindex⟩ := hheld
  have hof := isOf_start hids hid
  rw [step, hcall] at hstep
  cases hstep
  dsimp only
  have hlogged := @logRecords_append format st.files .index
    (.start record) attempt id hsound
  have hindexed := @indexRecords_append ids format st.files .index
    (.start record) attempt id hsound
  rw [hlog, if_pos rfl, if_neg fun h => (nomatch h.1.1),
    List.append_nil] at hlogged
  rw [hindex, List.nil_append] at hindexed
  have hnext : ∀ ok, (Call.start id record true).next ok = .idle := by
    intro ok
    cases ok <;> rfl
  rw [hnext]
  refine hinv.update
    (fun j hne => append_other hsound (Or.inr hof) (Or.inr rfl) hne) hissued
    (hinv.start_alone hcall) ?_ ?_ ?_ trivial (fun _ _ _ h => (nomatch h))
  · exact fun j hj => List.mem_singleton.mp hj
  · rw [hlogged, hindexed]
    split
    next => exact cached_start record true true fun _ => rfl
    next => exact cached_start record true false nofun
  · rw [hlogged]
    intro written hwritten
    rw [List.mem_singleton.mp hwritten]
    exact hof

theorem inv_appendLog (hsound : format.Sound) (hinv : Inv ids format st)
    {record : LogRecord} (hcall : st.calls thread = .appendLog id record)
    (hstep : step ids format st (.write thread attempt) = some next) :
    Inv ids format next := by
  have hknown := hinv.held thread
  rw [hcall] at hknown
  rw [step, hcall] at hstep
  cases hstep
  dsimp only
  have hlogged := @logRecords_append format st.files (.log id)
    (.log record) attempt id hsound
  have hindexed := @indexRecords_append ids format st.files (.log id)
    (.log record) attempt id hsound
  rw [if_neg fun h => (nomatch h.2), List.append_nil] at hlogged
  rw [if_neg fun h => (nomatch h.2), List.append_nil] at hindexed
  have hnext : ∀ ok, (Call.appendLog id record).next ok = .idle := by
    intro ok
    cases ok <;> rfl
  rw [hnext]
  refine hinv.update
    (fun j hne => append_other hsound (Or.inl rfl) (Or.inl rfl) hne)
    (hinv.issued hknown) (fun other _ => hinv.not_starting hknown other)
    (fun j hj => (nomatch hj)) ?_ ?_ trivial (fun _ _ _ h => (nomatch h))
  · rw [hlogged, hindexed]
    exact hinv.cached id
  · rw [hlogged]
    exact hinv.tagged id

/-- A finish goes on as a finish, or rests, or is over. -/
theorem held_finish {record : EndRecord} {logged ok : Bool} {after : World}
    (hknown : id ∈ after.known) (hid : record.id = ids.text id) :
    Held ids format after
        ((Call.finish id record outcome left logged).next ok) ∧
      ∀ j record' logged', (Call.finish id record outcome left logged).next
        ok ≠ .start j record' logged' := by
  cases ok with
  | false =>
      cases left with
      | zero => cases logged <;> exact ⟨trivial, fun _ _ _ h => (nomatch h)⟩
      | succ left =>
          cases logged <;> exact ⟨hknown, fun _ _ _ h => (nomatch h)⟩
  | true =>
      cases logged with
      | false => exact ⟨⟨hknown, hid⟩, fun _ _ _ h => (nomatch h)⟩
      | true => exact ⟨trivial, fun _ _ _ h => (nomatch h)⟩

theorem gives_finish {record : EndRecord} {logged ok : Bool} :
    (Call.finish id record outcome left logged).gives ok = [] := by
  cases logged <;> cases ok <;> cases left <;> rfl

theorem inv_finish (hsound : format.Sound) (hids : ids.Faithful)
    (hinv : Inv ids format st) {record : EndRecord} {logged : Bool}
    (hcall : st.calls thread = .finish id record outcome left logged)
    (horder : InOrder ids format st (.write thread attempt))
    (hstep : step ids format st (.write thread attempt) = some next) :
    Inv ids format next := by
  have hheld := hinv.held thread
  rw [hcall] at hheld
  obtain ⟨hknown, hid⟩ := hheld
  have hof := isOf_ended hids hid
  obtain ⟨path, htarget, hpath⟩ : ∃ path,
      (st.calls thread).target = some (path, .ended record) ∧
        (logged = false ∧ path = .log id ∨
          logged = true ∧ path = .index) := by
    rw [hcall]
    cases logged with
    | false => exact ⟨_, rfl, Or.inl ⟨rfl, rfl⟩⟩
    | true => exact ⟨_, rfl, Or.inr ⟨rfl, rfl⟩⟩
  rw [step, htarget] at hstep
  cases hstep
  dsimp only
  have hlogged := @logRecords_append format st.files path
    (.ended record) attempt id hsound
  have hindexed := @indexRecords_append ids format st.files path
    (.ended record) attempt id hsound
  rw [hcall, gives_finish]
  obtain ⟨hheld, hnoStart⟩ := @held_finish ids format id left outcome record
    logged (append format st.files path (.ended record) attempt).2
    ⟨(append format st.files path (.ended record) attempt).1,
      Function.update st.calls thread
        ((Call.finish id record outcome left logged).next
          (append format st.files path (.ended record) attempt).2),
      st.issued, [] ++ st.known⟩ hknown hid
  refine hinv.update (fun j hne => append_other hsound (Or.inr hof) ?_ hne)
    (hinv.issued hknown) (fun other _ => hinv.not_starting hknown other)
    (fun j hj => (nomatch hj)) ?_ ?_ hheld
    (fun j record' logged' h => absurd h (hnoStart j record' logged'))
  · exact hpath.imp And.right And.right
  · rcases hpath with ⟨rfl, rfl⟩ | ⟨rfl, rfl⟩
    · rw [if_neg fun h => (nomatch h.1.1), List.append_nil] at hindexed
      rw [hlogged, hindexed]
      split
      next => exact (hinv.cached id).finish_log record
      next =>
        rw [List.append_nil]
        exact hinv.cached id
    · rw [if_neg fun h => (nomatch h.1.1), List.append_nil] at hlogged
      rw [hlogged, hindexed]
      split
      next hwrote =>
        have hboth := hwrote.1.2
        rw [wrote, Bool.and_eq_true] at hboth
        exact (hinv.cached id).finish_index
          (horder id record outcome left hcall hboth.1 hboth.2)
      next =>
        rw [List.append_nil]
        exact hinv.cached id
  · rw [hlogged]
    intro written hwritten
    rcases List.mem_append.mp hwritten with hwritten | hwritten
    · exact hinv.tagged id written hwritten
    · split at hwritten
      next =>
        rw [List.mem_singleton.mp hwritten]
        exact hof
      next => cases hwritten

theorem inv_write (hsound : format.Sound) (hids : ids.Faithful)
    (hinv : Inv ids format st)
    (horder : InOrder ids format st (.write thread attempt))
    (hstep : step ids format st (.write thread attempt) = some next) :
    Inv ids format next := by
  cases hcall : st.calls thread with
  | idle =>
      rw [step, hcall] at hstep
      cases hstep
  | retry id outcome left =>
      rw [step, hcall] at hstep
      cases hstep
  | start id record logged =>
      cases logged with
      | false => exact inv_startLog hsound hids hinv hcall hstep
      | true => exact inv_startIndex hsound hids hinv hcall hstep
  | appendLog id record => exact inv_appendLog hsound hinv hcall hstep
  | finish id record outcome left logged =>
      exact inv_finish hsound hids hinv hcall horder hstep

/-- A call that is not a start begins or goes on without a write. -/
theorem Inv.set (hinv : Inv ids format st) {call : Call}
    (hheld : Held ids format st call)
    (hcall : ∀ id record logged, call ≠ .start id record logged) :
    Inv ids format (st.set thread call) := by
  refine ⟨hinv.cached, hinv.tagged, hinv.fresh, hinv.issued, ?_, ?_⟩
  · intro other
    rw [World.set]
    dsimp only
    by_cases hsame : other = thread
    · rw [hsame, Function.update_self]
      exact hheld
    · rw [Function.update_of_ne hsame]
      exact hinv.held other
  · intro one other id record logged record' logged' hone hsecond
    rw [World.set] at hone hsecond
    dsimp only at hone hsecond
    by_cases honeThread : one = thread
    · rw [honeThread, Function.update_self] at hone
      exact absurd hone (hcall id record logged)
    · by_cases hotherThread : other = thread
      · rw [hotherThread, Function.update_self] at hsecond
        exact absurd hsecond (hcall id record' logged')
      · rw [Function.update_of_ne honeThread] at hone
        rw [Function.update_of_ne hotherThread] at hsecond
        exact hinv.alone one other id record logged record' logged' hone
          hsecond

theorem begin_eq_some {call : Call}
    (hbegin : st.begin thread call = some next) :
    next = st.set thread call := by
  rw [World.begin] at hbegin
  split at hbegin
  next => exact (Option.some.inj hbegin).symm
  next => cases hbegin

/-- A job that starts has an id of its own. -/
theorem inv_start (hinv : Inv ids format st) {job : JobStart}
    (hstep : step ids format st (.start thread id job) = some next) :
    Inv ids format next := by
  rw [step] at hstep
  split at hstep
  next => cases hstep
  next hnew =>
    rw [begin_eq_some hstep, World.set]
    dsimp only
    have hother : ∀ other record logged,
        st.calls other ≠ .start id record logged := by
      intro other record logged hcalls
      have hheld := hinv.held other
      rw [hcalls] at hheld
      exact hnew hheld.1
    refine ⟨hinv.cached, hinv.tagged, ?_, ?_, ?_, ?_⟩
    · exact fun j hj => hinv.fresh j fun hmem =>
        hj (List.mem_cons_of_mem id hmem)
    · exact fun j hj => List.mem_cons_of_mem id (hinv.issued hj)
    · intro other
      dsimp only
      by_cases hsame : other = thread
      · rw [hsame, Function.update_self]
        obtain ⟨hlog, hindex⟩ := hinv.fresh id hnew
        exact ⟨List.mem_cons_self, fun hknown => hnew (hinv.issued hknown),
          rfl, hlog, hindex⟩
      · rw [Function.update_of_ne hsame]
        have hbefore := hinv.held other
        cases hcalls : st.calls other with
        | start j record logged =>
            rw [hcalls] at hbefore
            exact ⟨List.mem_cons_of_mem id hbefore.1, hbefore.2⟩
        | _ =>
            rw [hcalls] at hbefore
            exact hbefore
    · intro one other j record logged record' logged' hone hsecond
      dsimp only at hone hsecond
      by_cases honeThread : one = thread
      · by_cases hotherThread : other = thread
        · rw [honeThread, hotherThread]
        · rw [honeThread, Function.update_self] at hone
          rw [Function.update_of_ne hotherThread] at hsecond
          cases hone
          exact absurd hsecond (hother other record' logged')
      · rw [Function.update_of_ne honeThread] at hone
        by_cases hotherThread : other = thread
        · rw [hotherThread, Function.update_self] at hsecond
          cases hsecond
          exact absurd hone (hother one record logged)
        · rw [Function.update_of_ne hotherThread] at hsecond
          exact hinv.alone one other j record logged record' logged' hone
            hsecond

theorem inv_step (hsound : format.Sound) (hids : ids.Faithful)
    (hinv : Inv ids format st) (horder : InOrder ids format st label)
    (hstep : step ids format st label = some next) :
    Inv ids format next := by
  cases label with
  | start thread id job => exact inv_start hinv hstep
  | appendLog thread id record =>
      rw [step] at hstep
      split at hstep
      next hknown =>
        rw [begin_eq_some hstep]
        exact hinv.set hknown fun _ _ _ h => nomatch h
      next => cases hstep
  | finish thread id outcome now persistent =>
      rw [step] at hstep
      split at hstep
      next hknown =>
        rw [begin_eq_some hstep]
        exact hinv.set ⟨hknown, rfl⟩ fun _ _ _ h => nomatch h
      next => cases hstep
  | retry thread now =>
      rw [step] at hstep
      split at hstep
      next id outcome left hcall =>
        cases hstep
        have hknown := hinv.held thread
        rw [hcall] at hknown
        exact hinv.set ⟨hknown, rfl⟩ fun _ _ _ h => nomatch h
      next => cases hstep
  | write thread attempt => exact inv_write hsound hids hinv horder hstep
  | crash =>
      cases hstep
      exact ⟨hinv.cached, hinv.tagged, hinv.fresh, List.Subset.refl _,
        fun _ => trivial, fun _ _ _ _ _ _ _ h => nomatch h⟩

theorem inv_run (hsound : format.Sound) (hids : ids.Faithful)
    (hmeet : StepsMeet (step ids format) (InOrder ids format) World.empty
      labels)
    (hrun : run (step ids format) World.empty labels = some last) :
    Inv ids format last :=
  run_invariant_of_stepsMeet (Inv ids format)
    (fun _ _ _ hinv horder hstep => inv_step hsound hids hinv horder hstep)
    (inv_empty hsound) hmeet hrun

end Runs

section Folds

variable {ids : IdText} {format : Format UInt8 JobRecord} {files : Files}
  {id : JobId}

/-- What a record of a job does to its summary. -/
def foldJob (id : JobId) (previous : Option JobSummary) :
    JobRecord → Option JobSummary
  | .start record => some ((JobSummary.fromStart id record).keepEnd previous)
  | .ended record => previous.map fun summary => summary.applyEnd record
  | .log _ => previous

theorem get_foldRecord (folded : Map JobId JobSummary × Nat)
    (record : JobRecord) : (foldRecord ids folded record).1.get id =
      if isOf ids id record then foldJob id (folded.1.get id) record
      else folded.1.get id := by
  cases record with
  | log record => rfl
  | start record =>
      rw [foldRecord, isOf]
      cases hparse : ids.parse record.id with
      | none => rfl
      | some found =>
          dsimp only
          rw [Map.get_insert]
          by_cases hid : id = found
          · simp [hid, foldJob]
          · simp [hid, Ne.symm hid]
  | ended record =>
      rw [foldRecord, isOf]
      cases hparse : ids.parse record.id with
      | none => rfl
      | some found =>
          dsimp only
          cases hget : folded.1.get found with
          | none =>
              by_cases hid : found = id
              · simp [hid ▸ hget, foldJob]
              · simp [hid]
          | some summary =>
              dsimp only
              rw [Map.get_insert]
              by_cases hid : id = found
              · simp [hid, foldJob, hget]
              · simp [hid, Ne.symm hid]

/-- A job's summary comes from its own records alone. -/
theorem get_foldl (records : List JobRecord)
    (folded : Map JobId JobSummary × Nat) :
    (records.foldl (foldRecord ids) folded).1.get id =
      (records.filter (isOf ids id)).foldl (foldJob id)
        (folded.1.get id) := by
  induction records generalizing folded with
  | nil => rfl
  | cons record rest ih =>
      rw [List.foldl_cons, ih, get_foldRecord, List.filter_cons]
      split
      next => rw [List.foldl_cons]
      next => rfl

/-- A summary of a job is kept under its id. -/
theorem id_of_foldJob {records : List JobRecord} {summary : JobSummary}
    {previous : Option JobSummary}
    (hprevious : ∀ summary, previous = some summary → summary.id = id)
    (hfold : records.foldl (foldJob id) previous = some summary) :
    summary.id = id := by
  induction records generalizing previous with
  | nil => exact hprevious summary hfold
  | cons record rest ih =>
      refine ih ?_ hfold
      intro summary hsummary
      cases record with
      | log record => exact hprevious summary hsummary
      | start record =>
          cases hsummary
          cases previous <;> rfl
      | ended record =>
          obtain ⟨before, hbefore, rfl⟩ := Option.map_eq_some_iff.mp hsummary
          exact hprevious before hbefore

theorem mem_foldIndex {present : Bool} {records : List JobRecord}
    {unreadable : Nat} {summary : JobSummary} :
    summary ∈ (foldIndex ids present records unreadable).entries ↔
      (records.filter (isOf ids summary.id)).foldl (foldJob summary.id)
        none = some summary := by
  rw [foldIndex]
  dsimp only
  rw [List.mem_reverse, List.mem_map]
  constructor
  · rintro ⟨⟨key, found⟩, hmem, rfl⟩
    have hget := Map.get_eq_some_iff.mpr hmem
    rw [get_foldl] at hget
    have hid : found.id = key :=
      id_of_foldJob (fun _ hnone => by cases hnone) hget
    dsimp only
    rw [hid]
    exact hget
  · intro hfold
    refine ⟨(summary.id, summary), ?_, rfl⟩
    rw [← Map.get_eq_some_iff, get_foldl]
    exact hfold

theorem mem_list {summary : JobSummary} :
    summary ∈ (list ids format files).entries ↔
      (indexRecords ids format files summary.id).foldl (foldJob summary.id)
        none = some summary :=
  mem_foldIndex

theorem foldl_shape (start : Option StartRecord) (finished : List EndRecord) :
    (shape start finished).foldl (foldJob id) none =
      start.map fun record => finished.foldl JobSummary.applyEnd
        (JobSummary.fromStart id record) := by
  have hends : ∀ summary : Option JobSummary,
      (finished.map JobRecord.ended).foldl (foldJob id) summary =
        summary.map fun summary =>
          finished.foldl JobSummary.applyEnd summary := by
    induction finished with
    | nil =>
        intro summary
        cases summary <;> rfl
    | cons record rest ih =>
        intro summary
        rw [List.map_cons, List.foldl_cons, ih, foldJob, Option.map_map]
        rfl
  rw [shape, List.foldl_append, hends]
  cases start <;> rfl

/-- A rebuilt index has of each job what its log has. -/
theorem indexRecords_rebuilt (hsound : format.Sound)
    (htagged : ∀ id, ∀ record ∈ logRecords format files id,
      isOf ids id record = true) :
    indexRecords ids format (rebuildIndex format files).1 id =
      logRecords format files id := by
  have hcontent : records format
      ((rebuildIndex format files).1.content .index) =
        files.logs.entries.flatMap fun log => indexable format log.2 :=
    records_flatMap hsound _
  rw [indexRecords, hcontent, List.filter_flatMap]
  have hkeys : (files.logs.entries.map Prod.fst).Nodup :=
    files.logs.sorted.imp ne_of_lt
  have hlog : ∀ entry ∈ files.logs.entries,
      logRecords format files entry.1 = indexable format entry.2 := by
    intro entry hentry
    have hget : files.logs.get entry.1 = some entry.2 :=
      Map.get_eq_some_iff.mpr hentry
    rw [logRecords, Files.content, Files.read, hget]
    rfl
  rw [flatMap_eq_of_lookup id [] hkeys]
  · refine List.filter_eq_self.mpr ?_
    exact htagged id
  · intro entry hentry hne
    rw [List.filter_eq_nil_iff]
    intro record hrecord hof
    rw [← hlog entry hentry] at hrecord
    exact hne (isOf_unique hof (htagged entry.1 record hrecord))
  · have hnil := records_nil hsound
    rw [indexable, hnil]
    rfl

theorem applyEnd_foldl (finished : List EndRecord) (summary : JobSummary)
    (record : EndRecord) :
    (finished.foldl JobSummary.applyEnd summary).applyEnd record =
      summary.applyEnd record := by
  induction finished generalizing summary with
  | nil => rfl
  | cons first rest ih =>
      rw [List.foldl_cons, ih]
      rfl

/-- The last finish counts. -/
theorem foldl_applyEnd {finished : List EndRecord} (hsome : finished ≠ [])
    (earlier : List EndRecord) (summary : JobSummary) :
    finished.foldl JobSummary.applyEnd
        (earlier.foldl JobSummary.applyEnd summary) =
      finished.foldl JobSummary.applyEnd summary := by
  rw [← List.dropLast_append_getLast hsome, List.foldl_append,
    List.foldl_append, List.foldl_cons, List.foldl_cons, applyEnd_foldl,
    applyEnd_foldl, applyEnd_foldl]

theorem isRunning_foldl {finished : List EndRecord} (hsome : finished ≠ [])
    (summary : JobSummary) :
    (finished.foldl JobSummary.applyEnd summary).isRunning = false := by
  rw [← List.dropLast_append_getLast hsome, List.foldl_append]
  rfl

end Folds

section Cache

variable (ids : IdText) (format : Format UInt8 JobRecord)

/-- What the index says of a job before it is rebuilt and after.  The same, if
its start and all of its finishes are in the index; otherwise the finishes of
the log are added to what it said.  A finish that a view is made from ends the
job there. -/
structure FaithfulCache (files : Files) (id : JobId) : Prop where
  same : starts (indexRecords ids format files id) ≠ [] →
    (ends (logRecords format files id)).Subperm
        (ends (indexRecords ids format files id)) →
      ∀ summary, summary.id = id →
        (summary ∈ (list ids format files).entries ↔
          summary ∈ (list ids format
            (rebuildIndex format files).1).entries)
  added : ∀ old ∈ (list ids format files).entries, old.id = id →
    ∀ new, new.id = id →
      (new ∈ (list ids format (rebuildIndex format files).1).entries ↔
        new = (ends (logRecords format files id)).foldl
          JobSummary.applyEnd old)
  finished : ends (indexRecords ids format files id) ≠ [] →
    ∀ summary ∈ (list ids format files).entries, summary.id = id →
      summary.isRunning = false
  finishedRebuilt : ends (logRecords format files id) ≠ [] →
    ∀ summary ∈ (list ids format (rebuildIndex format files).1).entries,
      summary.id = id → summary.isRunning = false

variable {ids format} {st last : World} {labels : List Label}

theorem Inv.faithful (hsound : format.Sound) (hinv : Inv ids format st)
    (id : JobId) : FaithfulCache ids format st.files id := by
  obtain ⟨start, indexedStart, finished, indexedEnds, hlog, hindex, hstart,
    hends⟩ := hinv.cached id
  have hrebuilt := @indexRecords_rebuilt ids format st.files id hsound
    hinv.tagged
  have hbefore : ∀ summary, summary.id = id →
      (summary ∈ (list ids format st.files).entries ↔
        (indexedStart.map fun record => indexedEnds.foldl
          JobSummary.applyEnd (JobSummary.fromStart id record)) =
            some summary) := by
    intro summary hid
    rw [mem_list, hid, hindex, foldl_shape]
  have hafter : ∀ summary, summary.id = id →
      (summary ∈ (list ids format (rebuildIndex format
          st.files).1).entries ↔
        (start.map fun record => finished.foldl JobSummary.applyEnd
          (JobSummary.fromStart id record)) = some summary) := by
    intro summary hid
    rw [mem_list, hid, hrebuilt, hlog, foldl_shape]
  refine ⟨?_, ?_, ?_, ?_⟩
  · intro hstarted hall summary hid
    rw [hindex, starts_shape] at hstarted
    rw [hlog, hindex, ends_shape, ends_shape] at hall
    have hsame : indexedEnds = finished :=
      hends.eq_of_length_le hall.length_le
    have hsameStart : indexedStart = start := by
      rcases hstart with hnone | hsameStart
      · rw [hnone] at hstarted
        exact absurd rfl hstarted
      · exact hsameStart
    rw [hbefore summary hid, hafter summary hid, hsame, hsameStart]
  · intro old hold hid new hnew
    obtain ⟨record, hrecord, rfl⟩ :=
      Option.map_eq_some_iff.mp ((hbefore old hid).mp hold)
    have hsameStart : start = some record := by
      rcases hstart with hnone | hsameStart
      · rw [hnone] at hrecord
        cases hrecord
      · rw [← hsameStart, hrecord]
    rw [hafter new hnew, hlog, ends_shape, hsameStart, Option.map_some,
      Option.some.injEq, eq_comm]
    have hfold : finished.foldl JobSummary.applyEnd
        (indexedEnds.foldl JobSummary.applyEnd
          (JobSummary.fromStart id record)) =
        finished.foldl JobSummary.applyEnd
          (JobSummary.fromStart id record) := by
      by_cases hnone : finished = []
      · rw [hnone, List.sublist_nil] at hends
        rw [hnone, hends]
        rfl
      · exact foldl_applyEnd hnone indexedEnds _
    rw [hfold]
  · intro hsome summary hsummary hid
    rw [hindex, ends_shape] at hsome
    obtain ⟨record, -, rfl⟩ :=
      Option.map_eq_some_iff.mp ((hbefore summary hid).mp hsummary)
    exact isRunning_foldl hsome _
  · intro hsome summary hsummary hid
    rw [hlog, ends_shape] at hsome
    obtain ⟨record, -, rfl⟩ :=
      Option.map_eq_some_iff.mp ((hafter summary hid).mp hsummary)
    exact isRunning_foldl hsome _

/-- The index is a cache of the logs in every run in which the finishes of each
job reach it in the order in which they stand in the job's log. -/
theorem index_faithful (hsound : format.Sound) (hids : ids.Faithful)
    (horder : StepsMeet (step ids format) (InOrder ids format) World.empty
      labels)
    (hrun : run (step ids format) World.empty labels = some last)
    (id : JobId) : FaithfulCache ids format last.files id :=
  (inv_run hsound hids horder hrun).faithful hsound id

end Cache

section Nightly

noncomputable def uuids : IdText where
  parse := Function.partialInv uuidText
  text := uuidText

theorem uuids_faithful : uuids.Faithful :=
  Function.partialInv_left uuidText_injective

def nightlyStart : JobStart where
  command := "backup"
  profile := some "prod"
  argsMasked := ["backup", "--profile", "prod", "--json"]
  startedAt := "2026-07-25T13:00:00Z"
  pid := some 42

/-- A write of all bytes. -/
def whole : Attempt := ⟨true, 1000, true⟩

/-- A server that dies between the log and the index of a finish. -/
def lostFinish : List Label :=
  [.start 0 1 nightlyStart, .write 0 whole, .write 0 whole,
    .finish 1 1 .succeeded "2026-07-25T13:05:00Z" true, .write 1 whole,
    .crash]

/-- One that dies between the log and the index of a start. -/
def lostStart : List Label :=
  [.start 0 1 nightlyStart, .write 0 whole, .crash]

set_option maxRecDepth 10000 in
/-- A finish that the index lost is added. -/
theorem lostFinish_faithful :
    ∃ last, run (step uuids jobFormat) World.empty lostFinish = some last ∧
      FaithfulCache uuids jobFormat last.files 1 := by
  refine ⟨_, rfl, @index_faithful uuids jobFormat _ lostFinish jobFormat_sound
    uuids_faithful ?_ rfl 1⟩
  refine ⟨trivial, fun _ hnext => ?_⟩
  cases hnext
  refine ⟨fun _ _ _ _ hcall => (nomatch hcall), fun _ hnext => ?_⟩
  cases hnext
  refine ⟨fun _ _ _ _ hcall => (nomatch hcall), fun _ hnext => ?_⟩
  cases hnext
  refine ⟨trivial, fun _ hnext => ?_⟩
  cases hnext
  refine ⟨fun _ _ _ _ hcall => (nomatch hcall), fun _ hnext => ?_⟩
  cases hnext
  exact ⟨trivial, fun _ _ => trivial⟩

set_option maxRecDepth 10000 in
/-- A job whose start the index lost is there after it is rebuilt only. -/
theorem lostStart_rebuilt :
    ¬ ∀ (ids : IdText) (format : Format UInt8 JobRecord) (labels : List Label)
      (last : World), ids.Faithful → format.Sound →
        run (step ids format) World.empty labels = some last →
          ∀ id, (last.files.logs.get id).isSome = true →
            (ends (logRecords format last.files id)).Subperm
                (ends (indexRecords ids format last.files id)) →
              ∀ summary, summary.id = id →
                (summary ∈ (list ids format last.files).entries ↔
                  summary ∈ (list ids format
                    (rebuildIndex format last.files).1).entries) := by
  intro hclaim
  let record : StartRecord := startRecord uuids 1 nightlyStart
  let files : Files :=
    (append jobFormat World.empty.files (.log 1) (.start record) whole).1
  have hinv : Inv uuids jobFormat World.empty := inv_empty jobFormat_sound
  have hwhole : (append jobFormat World.empty.files (.log 1) (.start record)
      whole).2 = true := by
    decide +kernel
  have hlog : logRecords jobFormat files 1 = [.start record] := by
    rw [logRecords_append jobFormat_sound, (hinv.fresh 1 nofun).1,
      if_pos ⟨⟨rfl, wrote_of_append hwhole⟩, rfl⟩]
    rfl
  have hindex : indexRecords uuids jobFormat files 1 = [] := by
    rw [indexRecords_append jobFormat_sound, (hinv.fresh 1 nofun).2,
      if_neg fun h => (nomatch h.1.1)]
    rfl
  have htagged : ∀ id, ∀ written ∈ logRecords jobFormat files id,
      isOf uuids id written = true := by
    intro id written hwritten
    rw [logRecords_append jobFormat_sound, (hinv.fresh id nofun).1,
      List.nil_append] at hwritten
    split at hwritten
    next hpath =>
      cases hpath.1.1
      rw [List.mem_singleton.mp hwritten]
      exact isOf_start uuids_faithful rfl
    next => cases hwritten
  have hends : (ends (logRecords jobFormat files 1)).Subperm
      (ends (indexRecords uuids jobFormat files 1)) := by
    rw [hlog, hindex]
    exact List.Subperm.refl _
  have hsame := hclaim uuids jobFormat lostStart
    ⟨files, fun _ => .idle, [1], [1]⟩ uuids_faithful jobFormat_sound rfl 1
    rfl hends (JobSummary.fromStart 1 record) rfl
  have hafter : JobSummary.fromStart 1 record ∈
      (list uuids jobFormat (rebuildIndex jobFormat files).1).entries := by
    refine mem_list.mpr ?_
    have hrebuilt : indexRecords uuids jobFormat
        (rebuildIndex jobFormat files).1 1 = [.start record] := by
      rw [indexRecords_rebuilt jobFormat_sound htagged, hlog]
    exact hrebuilt ▸ rfl
  have hbefore := mem_list.mp (hsame.mpr hafter)
  have hnone : indexRecords uuids jobFormat files
      (JobSummary.fromStart 1 record).id = [] := hindex
  rw [hnone] at hbefore
  cases hbefore

end Nightly

end JobStore

end Web

end XBackup
