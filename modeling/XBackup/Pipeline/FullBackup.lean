/-
A native full backup of a replica set while clients go on writing.  The steps
of the backup and the client writes interleave freely; every collection is
read at its own moment.
-/
import XBackup.Manifest.Schema
import XBackup.Foundation.AscendingLog
import XBackup.Foundation.LastWrite
import XBackup.Foundation.Transition

namespace XBackup

open AscendingLog LastWrite Transition

/-- Only a full backup of a replica set records an oplog range. -/
def decideOplog (supportsOplog selective : Bool) : Bool :=
  supportsOplog && !selective

section NativeDump

variable {Coll Id Doc : Type}

/-- A client write with the timestamp of its oplog entry. -/
structure ClientWrite (Coll Id Doc : Type) where
  ts : OplogTimestamp
  change : Change (Coll × Id) Doc
deriving DecidableEq, Repr

inductive DumpStep (Coll Id Doc : Type) where
  | clientWrite (write : ClientWrite Coll Id Doc)
  | readOplogStart
  | readCollection (coll : Coll)
  | readOplogEnd
deriving DecidableEq, Repr

inductive DumpPhase (Coll : Type) where
  | start
  | dumping (pending : List Coll)
  | finished
deriving DecidableEq, Repr

/-- The server, and what the backup has read from it. -/
structure DumpState (Coll Id Doc : Type) where
  db : Store (Coll × Id) Doc
  oplog : List (ClientWrite Coll Id Doc)
  phase : DumpPhase Coll
  oplogStart : Option OplogTimestamp
  dumped : Store (Coll × Id) Doc
  oplogEnd : Option OplogTimestamp

def DumpState.latestOplogTs (st : DumpState Coll Id Doc) :
    Option OplogTimestamp :=
  st.oplog.getLast?.map ClientWrite.ts

def DumpState.oplogRange (st : DumpState Coll Id Doc) : Option OplogRange :=
  match st.oplogStart, st.oplogEnd with
  | some start, some end_ => some ⟨start, end_⟩
  | _, _ => none

variable [DecidableEq Coll] [DecidableEq Id]

/-- One step; `none` when the backup is not there yet, or when a write does
not come with a larger timestamp. -/
def dumpStep (recordOplog : Bool) (targets : List Coll)
    (st : DumpState Coll Id Doc) :
    DumpStep Coll Id Doc → Option (DumpState Coll Id Doc)
  | .clientWrite write =>
      if st.oplog.all fun entry => entry.ts < write.ts then
        some { st with
          db := LastWrite.apply st.db write.change
          oplog := st.oplog ++ [write] }
      else none
  | .readOplogStart =>
      match st.phase with
      | .start => some { st with
          phase := .dumping targets
          oplogStart := if recordOplog then st.latestOplogTs else none }
      | _ => none
  | .readCollection coll =>
      match st.phase with
      | .dumping (target :: pending) =>
          if target = coll then
            some { st with
              phase := .dumping pending
              dumped := fun key =>
                if key.1 = coll then st.db key else st.dumped key }
          else none
      | _ => none
  | .readOplogEnd =>
      match st.phase with
      | .dumping [] => some { st with
          phase := .finished
          oplogEnd := if recordOplog then st.latestOplogTs else none }
      | _ => none

/-- The dumped collections followed by every oplog entry behind the recorded
end, where the first increment starts. -/
def restoredState (st : DumpState Coll Id Doc) (range : OplogRange) :
    Store (Coll × Id) Doc :=
  replay st.dumped
    ((st.oplog.filter fun entry => range.endTs < entry.ts).map
      ClientWrite.change)

def writesOf (steps : List (DumpStep Coll Id Doc)) :
    List (ClientWrite Coll Id Doc) :=
  steps.flatMap fun step =>
    match step with
    | .clientWrite write => [write]
    | _ => []

def changesOf (steps : List (DumpStep Coll Id Doc)) :
    List (Change (Coll × Id) Doc) :=
  (writesOf steps).map ClientWrite.change

/-- What one enabled step does, guards included. -/
theorem dumpStep_cases {recordOplog : Bool} {targets : List Coll}
    {st next : DumpState Coll Id Doc} {step : DumpStep Coll Id Doc}
    (hstep : dumpStep recordOplog targets st step = some next) :
    (∃ write, step = .clientWrite write ∧
        (∀ entry ∈ st.oplog, entry.ts < write.ts) ∧
        next = { st with
          db := LastWrite.apply st.db write.change
          oplog := st.oplog ++ [write] }) ∨
      (step = .readOplogStart ∧ st.phase = .start ∧
        next = { st with
          phase := .dumping targets
          oplogStart := if recordOplog then st.latestOplogTs else none }) ∨
      (∃ coll pending, step = .readCollection coll ∧
        st.phase = .dumping (coll :: pending) ∧
        next = { st with
          phase := .dumping pending
          dumped := fun key =>
            if key.1 = coll then st.db key else st.dumped key }) ∨
      (step = .readOplogEnd ∧ st.phase = .dumping [] ∧
        next = { st with
          phase := .finished
          oplogEnd := if recordOplog then st.latestOplogTs else none }) := by
  cases step with
  | clientWrite write =>
      simp only [dumpStep] at hstep
      split at hstep
      next hts =>
        cases hstep
        exact Or.inl ⟨write, rfl, by simpa using hts, rfl⟩
      · cases hstep
  | readOplogStart =>
      simp only [dumpStep] at hstep
      split at hstep
      next hphase =>
        cases hstep
        exact Or.inr (Or.inl ⟨rfl, hphase, rfl⟩)
      · cases hstep
  | readCollection coll =>
      simp only [dumpStep] at hstep
      split at hstep
      next target pending hphase =>
        split at hstep
        next heq =>
          subst heq
          cases hstep
          exact Or.inr (Or.inr (Or.inl ⟨target, pending, rfl, hphase, rfl⟩))
        · cases hstep
      · cases hstep
  | readOplogEnd =>
      simp only [dumpStep] at hstep
      split at hstep
      next hphase =>
        cases hstep
        exact Or.inr (Or.inr (Or.inr ⟨rfl, hphase, rfl⟩))
      · cases hstep

section Run

variable {recordOplog : Bool} {targets : List Coll}
  {st last : DumpState Coll Id Doc} {steps : List (DumpStep Coll Id Doc)}

/-- The database at the end of a run holds every client write. -/
theorem run_db (hrun : run (dumpStep recordOplog targets) st steps = some last) :
    last.db = replay st.db (changesOf steps) := by
  have hfold := run_foldl DumpState.db
    (fun step : DumpStep Coll Id Doc => changesOf [step]) LastWrite.apply
    (by
      intro st step next hstep
      rcases dumpStep_cases hstep with ⟨write, rfl, -, rfl⟩ |
        ⟨rfl, -, rfl⟩ | ⟨coll, pending, rfl, -, rfl⟩ | ⟨rfl, -, rfl⟩ <;> rfl)
    hrun
  rw [hfold, replay]
  congr 1
  simp [changesOf, writesOf, List.map_flatMap]

theorem run_oplog
    (hrun : run (dumpStep recordOplog targets) st steps = some last) :
    last.oplog = st.oplog ++ writesOf steps := by
  have hfold := run_foldl DumpState.oplog
    (fun step : DumpStep Coll Id Doc => writesOf [step])
    (fun oplog write => oplog ++ [write])
    (by
      intro st step next hstep
      rcases dumpStep_cases hstep with ⟨write, rfl, -, rfl⟩ |
        ⟨rfl, -, rfl⟩ | ⟨coll, pending, rfl, -, rfl⟩ | ⟨rfl, -, rfl⟩ <;>
        simp [writesOf])
    hrun
  rw [hfold, List.foldl_append_eq_append, ← List.flatMap_def,
    List.flatMap_singleton']
  simp [writesOf]

theorem dumpStep_ascending {step : DumpStep Coll Id Doc}
    {next : DumpState Coll Id Doc} (hst : Ascending ClientWrite.ts st.oplog)
    (hstep : dumpStep recordOplog targets st step = some next) :
    Ascending ClientWrite.ts next.oplog := by
  rcases dumpStep_cases hstep with ⟨write, -, hlater, rfl⟩ |
    ⟨-, -, rfl⟩ | ⟨coll, pending, -, -, rfl⟩ | ⟨-, -, rfl⟩
  · refine List.pairwise_append.mpr ⟨hst, List.pairwise_singleton _ _, ?_⟩
    intro entry hentry other hother
    rw [List.mem_singleton.mp hother]
    exact hlater entry hentry
  · exact hst
  · exact hst
  · exact hst

theorem run_ascending (hst : Ascending ClientWrite.ts st.oplog)
    (hrun : run (dumpStep recordOplog targets) st steps = some last) :
    Ascending ClientWrite.ts last.oplog :=
  run_invariant (fun st => Ascending ClientWrite.ts st.oplog)
    (fun _ _ _ => dumpStep_ascending) hst hrun

/-- The collections still to be read do not repeat. -/
def DumpState.pendingNodup (st : DumpState Coll Id Doc) : Prop :=
  ∀ pending, st.phase = .dumping pending → pending.Nodup

theorem dumpStep_pendingNodup (htargets : targets.Nodup)
    {step : DumpStep Coll Id Doc} {next : DumpState Coll Id Doc}
    (hst : st.pendingNodup)
    (hstep : dumpStep recordOplog targets st step = some next) :
    next.pendingNodup := by
  rcases dumpStep_cases hstep with ⟨write, -, -, rfl⟩ |
    ⟨-, -, rfl⟩ | ⟨coll, pending, -, hphase, rfl⟩ | ⟨-, -, rfl⟩
  · exact hst
  · intro pending hpending
    cases hpending
    exact htargets
  · intro rest hrest
    cases hrest
    exact (List.nodup_cons.mp (hst _ hphase)).2
  · intro pending hpending
    cases hpending

/-- `coll` has been read, or the backup is over. -/
def DumpState.pastRead (st : DumpState Coll Id Doc) (coll : Coll) : Prop :=
  st.phase = .finished ∨ ∃ pending, st.phase = .dumping pending ∧
    coll ∉ pending

/-- Behind its read a collection stays as dumped. -/
theorem dumpStep_pastRead {coll : Coll} {snapshot : Id → Option Doc}
    {step : DumpStep Coll Id Doc} {next : DumpState Coll Id Doc}
    (hst : st.pastRead coll ∧ ∀ id, st.dumped (coll, id) = snapshot id)
    (hstep : dumpStep recordOplog targets st step = some next) :
    next.pastRead coll ∧ ∀ id, next.dumped (coll, id) = snapshot id := by
  obtain ⟨hpast, hdumped⟩ := hst
  rcases dumpStep_cases hstep with ⟨write, -, -, rfl⟩ |
    ⟨-, hphase, rfl⟩ | ⟨other, rest, -, hphase, rfl⟩ | ⟨-, -, rfl⟩
  · exact ⟨hpast, hdumped⟩
  · rcases hpast with hpast | ⟨pending, hpast, -⟩ <;>
      simp [hphase] at hpast
  · rcases hpast with hpast | ⟨pending, hpast, hnot⟩
    · simp [hphase] at hpast
    · rw [hphase] at hpast
      cases hpast
      simp only [List.mem_cons, not_or] at hnot
      refine ⟨Or.inr ⟨rest, rfl, hnot.2⟩, ?_⟩
      intro id
      simpa [hnot.1] using hdumped id
  · exact ⟨Or.inl rfl, hdumped⟩

/-- Once finished, the recorded end does not move. -/
theorem dumpStep_finished {end_ : Option OplogTimestamp}
    {step : DumpStep Coll Id Doc} {next : DumpState Coll Id Doc}
    (hst : st.phase = .finished ∧ st.oplogEnd = end_)
    (hstep : dumpStep recordOplog targets st step = some next) :
    next.phase = .finished ∧ next.oplogEnd = end_ := by
  obtain ⟨hfinished, hend⟩ := hst
  rcases dumpStep_cases hstep with ⟨write, -, -, rfl⟩ |
    ⟨-, hphase, rfl⟩ | ⟨other, rest, -, hphase, rfl⟩ | ⟨-, hphase, rfl⟩
  · exact ⟨hfinished, hend⟩
  · simp [hfinished] at hphase
  · simp [hfinished] at hphase
  · simp [hfinished] at hphase

/-- The backup has not come to `coll` yet. -/
def DumpState.beforeRead (st : DumpState Coll Id Doc) (coll : Coll) : Prop :=
  st.phase = .start ∨ ∃ pending, st.phase = .dumping pending ∧ coll ∈ pending

theorem exists_readOplogEnd (hst : st.phase ≠ .finished)
    (hlast : last.phase = .finished)
    (hrun : run (dumpStep recordOplog targets) st steps = some last) :
    ∃ between after, steps = between ++ .readOplogEnd :: after := by
  induction steps generalizing st with
  | nil =>
      cases hrun
      exact absurd hlast hst
  | cons step rest ih =>
      obtain ⟨next, hstep, hrest⟩ := run_cons_eq_some.mp hrun
      by_cases hnext : next.phase = .finished
      · rcases dumpStep_cases hstep with ⟨write, -, -, rfl⟩ |
          ⟨-, -, rfl⟩ | ⟨coll, pending, -, -, rfl⟩ | ⟨rfl, -, -⟩
        · exact absurd hnext hst
        · cases hnext
        · cases hnext
        · exact ⟨[], rest, rfl⟩
      · obtain ⟨between, after, rfl⟩ := ih hnext hrest
        exact ⟨step :: between, after, rfl⟩

/-- A finished backup has read every target before it read the end. -/
theorem exists_readCollection {coll : Coll} (hmem : coll ∈ targets)
    (hst : st.beforeRead coll) (hlast : last.phase = .finished)
    (hrun : run (dumpStep recordOplog targets) st steps = some last) :
    ∃ before between after, steps =
      before ++ .readCollection coll :: (between ++ .readOplogEnd :: after) := by
  induction steps generalizing st with
  | nil =>
      cases hrun
      rcases hst with hst | ⟨pending, hst, -⟩ <;> simp [hst] at hlast
  | cons step rest ih =>
      obtain ⟨next, hstep, hrest⟩ := run_cons_eq_some.mp hrun
      by_cases hnext : next.beforeRead coll
      · obtain ⟨before, between, after, rfl⟩ := ih hnext hrest
        exact ⟨step :: before, between, after, rfl⟩
      · rcases dumpStep_cases hstep with ⟨write, -, -, rfl⟩ |
          ⟨-, -, rfl⟩ | ⟨other, pending, rfl, hphase, rfl⟩ | ⟨-, hphase, rfl⟩
        · exact absurd hst hnext
        · exact absurd (Or.inr ⟨targets, rfl, hmem⟩) hnext
        · have hcoll : coll = other := by
            rcases hst with hst | ⟨stillPending, hst, hstill⟩
            · simp [hst] at hphase
            · rw [hphase] at hst
              cases hst
              rcases List.mem_cons.mp hstill with heq | hlater
              · exact heq
              · exact absurd (Or.inr ⟨pending, rfl, hlater⟩) hnext
          subst hcoll
          obtain ⟨between, after, rfl⟩ :=
            exists_readOplogEnd (by simp) hlast hrest
          exact ⟨[], between, after, rfl⟩
        · rcases hst with hst | ⟨pending, hst, hstill⟩
          · simp [hst] at hphase
          · rw [hphase] at hst
            cases hst
            exact absurd hstill List.not_mem_nil

/-- What is known about the end of a run that read `coll` behind `before` and
the end of the oplog behind `between`. -/
theorem run_read {coll : Coll}
    {before between after : List (DumpStep Coll Id Doc)}
    {range : OplogRange} (htargets : targets.Nodup)
    (hpending : st.pendingNodup) (hoplog : Ascending ClientWrite.ts st.oplog)
    (hrange : last.oplogRange = some range)
    (hrun : run (dumpStep recordOplog targets) st
      (before ++ .readCollection coll ::
        (between ++ .readOplogEnd :: after)) = some last) :
    (∀ id, last.dumped (coll, id) =
        replay st.db (changesOf before) (coll, id)) ∧
      last.oplog.filter (fun entry => range.endTs < entry.ts) =
        writesOf after := by
  obtain ⟨atRead, hbefore, hrest⟩ := run_append_eq_some.mp hrun
  obtain ⟨behindRead, hread, hrest⟩ := run_cons_eq_some.mp hrest
  obtain ⟨atEnd, hbetween, hrest⟩ := run_append_eq_some.mp hrest
  obtain ⟨behindEnd, hend, hafter⟩ := run_cons_eq_some.mp hrest
  have hnodup := run_invariant DumpState.pendingNodup
    (fun _ _ _ => dumpStep_pendingNodup htargets) hpending hbefore
  refine ⟨?_, ?_⟩
  · obtain ⟨write, hstep, -, -⟩ | ⟨hstep, -, -⟩ |
      ⟨other, pending, hstep, hphase, rfl⟩ | ⟨hstep, -, -⟩ :=
        dumpStep_cases hread <;> cases hstep
    have hpast := run_invariant
      (fun st => st.pastRead coll ∧
        ∀ id, st.dumped (coll, id) = atRead.db (coll, id))
      (fun _ _ _ => dumpStep_pastRead)
      ⟨Or.inr ⟨pending, rfl, (List.nodup_cons.mp (hnodup _ hphase)).1⟩,
        fun id => by simp⟩
      (run_append_eq_some.mpr ⟨atEnd, hbetween,
        run_cons_eq_some.mpr ⟨behindEnd, hend, hafter⟩⟩)
    intro id
    rw [hpast.2 id, run_db hbefore]
  · obtain ⟨write, hstep, -, -⟩ | ⟨hstep, -, -⟩ |
      ⟨other, pending, hstep, -, -⟩ | ⟨-, hphase, rfl⟩ :=
        dumpStep_cases hend <;> try cases hstep
    have hkept := run_invariant
      (fun st => st.phase = .finished ∧ st.oplogEnd =
        if recordOplog then atEnd.latestOplogTs else none)
      (fun _ _ _ => dumpStep_finished) ⟨rfl, rfl⟩ hafter
    have hlatest : atEnd.oplog.getLast?.map ClientWrite.ts =
        some range.endTs := by
      unfold DumpState.oplogRange at hrange
      split at hrange
      next start end_ _ hendTs =>
        cases hrange
        rw [hkept.2] at hendTs
        split at hendTs
        · exact hendTs
        · cases hendTs
      · cases hrange
    have hoplogEnd := run_oplog hafter
    have hascending := run_ascending hoplog hrun
    rw [hoplogEnd] at hascending ⊢
    exact hascending.filter_gt_last hlatest

end Run

/-- The start of a backup of a server with this database and oplog. -/
def DumpState.initial (db : Store (Coll × Id) Doc)
    (oplog : List (ClientWrite Coll Id Doc)) : DumpState Coll Id Doc where
  db := db
  oplog := oplog
  phase := .start
  oplogStart := none
  dumped := fun _ => none
  oplogEnd := none

/-- Every document is written again behind the recorded end, or untouched
between the read of its collection and that end, or left as it was read. -/
def NoLostWrite (db : Store (Coll × Id) Doc)
    (steps : List (DumpStep Coll Id Doc)) : Prop :=
  ∀ coll id before between after,
    steps = before ++ .readCollection coll ::
      (between ++ .readOplogEnd :: after) →
    (∃ change ∈ changesOf after, change.key = (coll, id)) ∨
      (∀ change ∈ changesOf between, change.key ≠ (coll, id)) ∨
      lastWrite (coll, id) (changesOf between) =
        some (replay db (changesOf before) (coll, id))

omit [DecidableEq Coll] [DecidableEq Id] in
theorem changesOf_readCollection (coll : Coll)
    (before between after : List (DumpStep Coll Id Doc)) :
    changesOf (before ++ .readCollection coll ::
        (between ++ .readOplogEnd :: after)) =
      changesOf before ++ (changesOf between ++ changesOf after) := by
  simp [changesOf, writesOf]

end NativeDump

/-! Two collections; a client writes to the first one behind its read. -/
namespace BusyServer

def before : List (ClientWrite Bool Nat String) :=
  [⟨⟨100, 1⟩, (false, 1), some "old"⟩]

def db : Store (Bool × Nat) String :=
  replay (fun _ => none) (before.map ClientWrite.change)

/-- The client write comes between two reads. -/
def steps (coll : Bool) : List (DumpStep Bool Nat String) :=
  [.readOplogStart, .readCollection false,
    .clientWrite ⟨⟨101, 1⟩, (coll, 1), some "new"⟩, .readCollection true,
    .readOplogEnd, .clientWrite ⟨⟨102, 1⟩, (false, 2), some "later"⟩]

def final (coll : Bool) : Option (DumpState Bool Nat String) :=
  run (dumpStep (decideOplog true false) [false, true])
    (.initial db before) (steps coll)

end BusyServer

end XBackup
