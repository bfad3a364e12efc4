/-
Who holds a lock: at most one process, as long as no lock is taken away from the
process that has taken it over in the meantime.
-/
import XBackup.Foundation.JsonText
import XBackup.Foundation.Transition
import XBackup.Lock.FileLock

namespace XBackup

namespace Lock

open Transition

/-- The lock file of a process in this phase is its own to remove. -/
def Phase.owns : Phase → Bool
  | .writing _ _ => true
  | .cleaning _ => true
  | .holding _ => true
  | _ => false

def Phase.holds : Phase → Bool
  | .holding _ => true
  | _ => false

variable {ι : Type} [DecidableEq ι]

/-- The process whose step removes what is at the path. -/
def Label.removes : Label ι → Option ι
  | .clean p true => some p
  | .remove p true => some p
  | .release p true => some p
  | _ => none

/-- At most one process holds the lock. -/
def Exclusive (st : State ι) : Prop :=
  ∀ p q, (st.phase p).holds = true → (st.phase q).holds = true → p = q

/-- No file is removed that another process created. -/
def Spares (st : State ι) (label : Label ι) : Prop :=
  ∀ p ∈ label.removes, ∀ file ∈ st.file, ∀ q, file.creator = some q → q = p

/-- A file that is taken away is still the one that a dead process left. -/
def Undisturbed (st : State ι) (label : Label ι) : Prop :=
  ∀ p, label = .remove p true → ∀ file ∈ st.file, file.creator = none

section Steps

variable (json : Json) (host : Host) (profile path : String) (pid : ι → UInt32)

/-- What a step does to the file, and to the phase of its process. -/
inductive Moves (st : State ι) : Label ι → State ι → Prop where
  | quiet (label : Label ι) (p : ι) (phase : Phase)
      (hlabel : label.removes = none)
      (howns : phase.owns = true → (st.phase p).owns = true)
      (hwriting : ∀ data n, phase ≠ .writing data n)
      (hremoving : phase = .removing → ∃ reason,
        classify host (readHolder json st.file) = .reclaim reason) :
      Moves st label (st.goes p phase)
  | created (label : Label ι) (p : ι) (data : LockData)
      (hlabel : label.removes = none) (hfile : st.file = none) (hpid : data.pid = pid p) :
      Moves st label
        (State.goes ⟨some ⟨some p, []⟩, st.phase⟩ p (.writing data 0))
  | wrote (label : Label ι) (p : ι) (data : LockData) (k n : Nat)
      (phase : Phase) (hlabel : label.removes = none)
      (hfrom : st.phase p = .writing data k)
      (hphase : phase = .holding data ∨ phase = .writing data n) :
      Moves st label
        ((st.written p ((json.toVecPretty data).take n)).goes p phase)
  | took (label : Label ι) (p : ι) (phase : Phase)
      (hlabel : label.removes = some p)
      (hfrom : (st.phase p).owns = true ∨
        label = .remove p true ∧ st.phase p = .removing)
      (howns : phase.owns = false) (hremoving : phase ≠ .removing) :
      Moves st label (State.goes ⟨none, st.phase⟩ p phase)

variable {json host profile path pid} {st next : State ι} {label : Label ι}

theorem moves_of_step
    (hstep : step json host profile path pid st label = some next) :
    Moves json host pid st label next := by
  cases label with
  | start p =>
      rw [step] at hstep
      split at hstep <;> cases hstep <;>
        exact .quiet _ p _ rfl nofun nofun nofun
  | create p startedAt =>
      rw [step] at hstep
      split at hstep
      next again hphase =>
        split at hstep
        next =>
          cases hstep
          cases again <;> exact .quiet _ p _ rfl nofun nofun nofun
        next hfile =>
          cases hstep
          exact .created _ p _ rfl hfile rfl
      next => cases hstep
  | createFails p e =>
      rw [step] at hstep
      split at hstep
      next =>
        cases hstep
        exact .quiet _ p _ rfl nofun nofun nofun
      next => cases hstep
  | write p n =>
      rw [step] at hstep
      split at hstep
      next data k hphase =>
        cases hstep
        refine .wrote _ p data k (k + n) _ rfl hphase ?_
        split
        next => exact Or.inl rfl
        next => exact Or.inr rfl
      next => cases hstep
  | writeFails p e =>
      rw [step] at hstep
      split at hstep
      next hphase =>
        cases hstep
        exact .quiet _ p _ rfl (fun _ => by rw [hphase]; rfl) nofun nofun
      next => cases hstep
  | clean p done =>
      rw [step] at hstep
      split at hstep
      next e hphase =>
        cases hstep
        cases done with
        | false => exact .quiet _ p _ rfl nofun nofun nofun
        | true =>
            exact .took _ p _ rfl (Or.inl (by rw [hphase]; rfl)) rfl nofun
      next => cases hstep
  | read p =>
      rw [step] at hstep
      split at hstep
      next =>
        dsimp only at hstep
        split at hstep
        next reason hclassify =>
          cases hstep
          exact .quiet _ p _ rfl nofun nofun fun _ => ⟨reason, hclassify⟩
        next =>
          cases hstep
          exact .quiet _ p _ rfl nofun nofun nofun
      next => cases hstep
  | remove p done =>
      rw [step] at hstep
      split at hstep
      next hphase =>
        cases hstep
        cases done with
        | false => exact .quiet _ p _ rfl nofun nofun nofun
        | true =>
            exact .took _ p _ rfl (Or.inr ⟨rfl, hphase⟩) rfl nofun
      next => cases hstep
  | reread p =>
      rw [step] at hstep
      split at hstep
      next =>
        cases hstep
        exact .quiet _ p _ rfl nofun nofun nofun
      next => cases hstep
  | release p done =>
      rw [step] at hstep
      split at hstep
      next data hphase =>
        cases hstep
        cases done with
        | false => exact .quiet _ p _ rfl nofun nofun nofun
        | true =>
            exact .took _ p _ rfl (Or.inl (by rw [hphase]; rfl)) rfl nofun
      next => cases hstep

section Phases

variable {p q : ι} {phase : Phase}

theorem goes_phase_self : (st.goes p phase).phase p = phase := by
  simp [State.goes]

theorem goes_phase_of_ne (hne : q ≠ p) :
    (st.goes p phase).phase q = st.phase q := by
  simp [State.goes, hne]

end Phases

/-- What is in the files of live processes is what they write, and no process
takes away its own. -/
structure Inv (json : Json) (pid : ι → UInt32) (st : State ι) : Prop where
  contents : ∀ file ∈ st.file, ∀ q, file.creator = some q →
    ∃ data, data.pid = pid q ∧ file.contents <+: json.toVecPretty data
  data : ∀ p data n, st.phase p = .writing data n → data.pid = pid p
  foreign : ∀ p, st.phase p = .removing → ∀ file ∈ st.file,
    file.creator ≠ some p

/-- A process that owns the lock file has created the one that is there. -/
def Owned (st : State ι) : Prop :=
  ∀ p, (st.phase p).owns = true → ∃ file ∈ st.file, file.creator = some p

omit [DecidableEq ι] in
/-- The file of a live process is not taken away by the one who reads it. -/
theorem not_reclaimed (hjson : json.Faithful)
    (halive : ∀ p, host.pidAlive (pid p) = true) (hinv : Inv json pid st)
    {file : LockFile ι} {q : ι} (hfile : st.file = some file)
    (hcreator : file.creator = some q) (reason : String) :
    classify host (readHolder json st.file) ≠ .reclaim reason := by
  obtain ⟨data, hpid, hcontents⟩ := hinv.contents file hfile q hcreator
  have hread : readHolder json st.file = json.fromStr file.contents := by
    rw [hfile]
    rfl
  rw [hread]
  by_cases hwhole : file.contents = json.toVecPretty data
  · have halive' : ¬ host.pidAlive data.pid = false := by
      rw [hpid, halive]
      exact Bool.noConfusion
    rw [hwhole, hjson.read, classify, if_neg halive']
    split
    next => exact nofun
    next =>
      split
      next => exact nofun
      next => exact nofun
  · rw [hjson.torn data _ hcontents hwhole]
    exact nofun

theorem inv_of_moves (hjson : json.Faithful)
    (halive : ∀ p, host.pidAlive (pid p) = true) (hinv : Inv json pid st)
    (hmoves : Moves json host pid st label next) : Inv json pid next := by
  cases hmoves with
  | quiet p phase hlabel howns hwriting hremoving =>
      refine ⟨hinv.contents, fun q data n hq => ?_, fun q hq file hfile => ?_⟩
      · by_cases hsame : q = p
        · rw [hsame, goes_phase_self] at hq
          exact absurd hq (hwriting data n)
        · rw [goes_phase_of_ne hsame] at hq
          exact hinv.data q data n hq
      · by_cases hsame : q = p
        · rw [hsame, goes_phase_self] at hq
          obtain ⟨reason, hreclaim⟩ := hremoving hq
          intro hcreator
          exact not_reclaimed hjson halive hinv hfile hcreator reason hreclaim
        · rw [goes_phase_of_ne hsame] at hq
          exact hinv.foreign q hq file hfile
  | created p data hlabel hfile hpid =>
      refine ⟨fun file hmem q hcreator => ?_, fun q other n hq => ?_,
        fun q hq file hmem => ?_⟩
      · cases hmem
        cases hcreator
        exact ⟨data, hpid, List.nil_prefix⟩
      · by_cases hsame : q = p
        · rw [hsame, goes_phase_self] at hq
          cases hq
          rw [hsame]
          exact hpid
        · rw [goes_phase_of_ne hsame] at hq
          exact hinv.data q other n hq
      · by_cases hsame : q = p
        · rw [hsame, goes_phase_self] at hq
          cases hq
        · cases hmem
          exact fun hcreator => hsame (Option.some.inj hcreator).symm
  | wrote p data k n phase hlabel hfrom hphase =>
      have hpid := hinv.data p data k hfrom
      refine ⟨fun file hmem q hcreator => ?_, fun q other m hq => ?_,
        fun q hq file hmem => ?_⟩
      · obtain ⟨old, hold, rfl⟩ := Option.map_eq_some_iff.mp hmem
        split at hcreator
        next hown =>
          rw [if_pos hown]
          cases hown.symm.trans hcreator
          exact ⟨data, hpid, List.take_prefix n _⟩
        next hown =>
          rw [if_neg hown]
          exact hinv.contents old hold q hcreator
      · by_cases hsame : q = p
        · rw [hsame, goes_phase_self] at hq
          rcases hphase with rfl | rfl
          · cases hq
          · cases hq
            rw [hsame]
            exact hpid
        · rw [goes_phase_of_ne hsame] at hq
          exact hinv.data q other m hq
      · by_cases hsame : q = p
        · rw [hsame, goes_phase_self] at hq
          rcases hphase with rfl | rfl <;> cases hq
        · rw [goes_phase_of_ne hsame] at hq
          obtain ⟨old, hold, rfl⟩ := Option.map_eq_some_iff.mp hmem
          have hforeign := hinv.foreign q hq old hold
          split
          next => exact hforeign
          next => exact hforeign
  | took p phase hlabel hfrom howns hremoving =>
      refine ⟨nofun, fun q other n hq => ?_, fun q hq file hmem => by cases hmem⟩
      by_cases hsame : q = p
      · rw [hsame, goes_phase_self] at hq
        rw [hq] at howns
        cases howns
      · rw [goes_phase_of_ne hsame] at hq
        exact hinv.data q other n hq

/-- One step: the processes that own the file keep it. -/
theorem owned_of_moves (howned : Owned st)
    (hundisturbed : Undisturbed st label)
    (hmoves : Moves json host pid st label next) : Owned next := by
  intro q hq
  cases hmoves with
  | quiet p phase hlabel howns hwriting hremoving =>
      by_cases hsame : q = p
      · rw [hsame, goes_phase_self] at hq
        rw [hsame]
        exact howned p (howns hq)
      · rw [goes_phase_of_ne hsame] at hq
        exact howned q hq
  | created p data hlabel hfile hpid =>
      by_cases hsame : q = p
      · exact ⟨_, rfl, congrArg some hsame.symm⟩
      · rw [goes_phase_of_ne hsame] at hq
        obtain ⟨file, hmem, -⟩ := howned q hq
        rw [hfile] at hmem
        cases hmem
  | wrote p data k n phase hlabel hfrom hphase =>
      have hold : (st.phase q).owns = true := by
        by_cases hsame : q = p
        · rw [hsame, hfrom]
          rfl
        · rw [goes_phase_of_ne hsame] at hq
          exact hq
      obtain ⟨file, hmem, hcreator⟩ := howned q hold
      refine ⟨_, Option.mem_map_of_mem _ hmem, ?_⟩
      split
      next => exact hcreator
      next => exact hcreator
  | took p phase hlabel hfrom howns hremoving =>
      by_cases hsame : q = p
      · rw [hsame, goes_phase_self, howns] at hq
        cases hq
      · rw [goes_phase_of_ne hsame] at hq
        obtain ⟨file, hmem, hcreator⟩ := howned q hq
        rcases hfrom with hp | ⟨hlabel, -⟩
        · obtain ⟨other, hother, hp⟩ := howned p hp
          cases (Option.some.inj (hmem.symm.trans hother))
          exact absurd (Option.some.inj (hcreator.symm.trans hp)) hsame
        · have hnone := hundisturbed p hlabel file hmem
          rw [hcreator] at hnone
          cases hnone

omit [DecidableEq ι] in
theorem exclusive_of_owned (howned : Owned st) : Exclusive st := by
  have hholds : ∀ p, (st.phase p).holds = true → (st.phase p).owns = true := by
    intro p hp
    cases hphase : st.phase p with
    | holding data => rfl
    | _ => rw [hphase] at hp; cases hp
  intro p q hp hq
  obtain ⟨file, hmem, hcreator⟩ := howned p (hholds p hp)
  obtain ⟨other, hother, hq⟩ := howned q (hholds q hq)
  cases Option.some.inj (hmem.symm.trans hother)
  exact Option.some.inj (hcreator.symm.trans hq)

/-- A step that removes a file removes one of its own process, or the one that
a dead process left. -/
theorem spares_of_owned (howned : Owned st)
    (hundisturbed : Undisturbed st label)
    (hmoves : Moves json host pid st label next) : Spares st label := by
  intro p hp file hfile q hcreator
  cases hmoves with
  | quiet other phase hlabel => rw [hlabel] at hp; cases hp
  | created other data hlabel => rw [hlabel] at hp; cases hp
  | wrote other data k n phase hlabel => rw [hlabel] at hp; cases hp
  | took other phase hlabel hfrom =>
      cases hlabel.symm.trans hp
      rcases hfrom with howns | ⟨hremove, -⟩
      · obtain ⟨own, hown, hself⟩ := howned p howns
        cases Option.some.inj (hfile.symm.trans hown)
        exact Option.some.inj (hcreator.symm.trans hself)
      · have hnone := hundisturbed p hremove file hfile
        rw [hcreator] at hnone
        cases hnone

theorem undisturbed_of_spares (hinv : Inv json pid st)
    (hspares : Spares st label)
    (hstep : step json host profile path pid st label = some next) :
    Undisturbed st label := by
  rintro p rfl file hfile
  rw [step] at hstep
  split at hstep
  next hphase =>
    cases hcreator : file.creator with
    | none => rfl
    | some q =>
        have hself := hspares p rfl file hfile q hcreator
        rw [hself] at hcreator
        exact absurd hcreator (hinv.foreign p hphase file hfile)
  next => cases hstep

/-- The state in which no process has begun. -/
def initial (file : Option (LockFile ι)) : State ι := ⟨file, fun _ => .idle⟩

/-- Along a run at most one process holds the lock, and no file of another
process is removed, just if every file that is taken away is still the one that
a dead process left. -/
theorem lock_excludes_iff (hjson : json.Faithful)
    (halive : ∀ p, host.pidAlive (pid p) = true)
    {file : Option (LockFile ι)} (hfile : ∀ found ∈ file, found.creator = none)
    {labels : List (Label ι)} {last : State ι}
    (hrun : run (step json host profile path pid) (initial file) labels =
      some last) :
    (StepsMeet (step json host profile path pid)
          (fun st label => Exclusive st ∧ Spares st label) (initial file)
          labels ∧
        Exclusive last) ↔
      StepsMeet (step json host profile path pid) Undisturbed (initial file)
        labels := by
  have hinit : Inv json pid (initial file) := by
    refine ⟨fun found hfound q hcreator => ?_, nofun, nofun⟩
    rw [hfile found hfound] at hcreator
    cases hcreator
  have hinv : ∀ st label next, Inv json pid st →
      step json host profile path pid st label = some next →
      Inv json pid next := fun st label next hst hstep =>
    inv_of_moves hjson halive hst (moves_of_step hstep)
  constructor
  · rintro ⟨hmeet, -⟩
    refine stepsMeet_imp (Inv json pid) (fun st label next hst _ hstep =>
      hinv st label next hst hstep) ?_ hinit hmeet hrun
    intro st label next hst hok hstep
    exact undisturbed_of_spares hst hok.2 hstep
  · intro hmeet
    have howned : ∀ st label next, Owned st → Undisturbed st label →
        step json host profile path pid st label = some next → Owned next :=
      fun st label next hst hok hstep =>
        owned_of_moves hst hok (moves_of_step hstep)
    have hnone : Owned (initial file) := by
      intro p hp
      cases hp
    constructor
    · refine stepsMeet_imp Owned howned ?_ hnone hmeet hrun
      intro st label next hst hok hstep
      exact ⟨exclusive_of_owned hst,
        spares_of_owned hst hok (moves_of_step hstep)⟩
    · exact exclusive_of_owned
        (run_invariant_of_stepsMeet Owned howned hnone hmeet hrun)

end Steps

section Notes

open Bytes JsonText

/-- The text of a lock file. -/
def lockText (data : LockData) : List UInt8 :=
  utf8 "\x7b\n  \"pid\": " ++ (number data.pid.toNat ++
    (utf8 "\n  \"started_at\": " ++ (quote data.startedAt ++
      (utf8 ",\n  \"profile\": " ++ (quote data.profile ++
        (utf8 ",\n  \"hostname\": " ++ (quote data.hostname ++
          utf8 "\n\x7d")))))))

theorem lockText_delimited : Delimited lockText := by
  intro left right rest others hsame
  simp only [lockText, List.append_assoc] at hsame
  obtain ⟨hpid, hsame⟩ :=
    number_delimited _ _ _ _ (List.append_cancel_left hsame)
  obtain ⟨hstarted, hsame⟩ :=
    quote_delimited _ _ _ _ (List.append_cancel_left hsame)
  obtain ⟨hprofile, hsame⟩ :=
    quote_delimited _ _ _ _ (List.append_cancel_left hsame)
  obtain ⟨hhostname, hsame⟩ :=
    quote_delimited _ _ _ _ (List.append_cancel_left hsame)
  refine ⟨?_, List.append_cancel_left hsame⟩
  cases left
  cases right
  cases UInt32.toNat_inj.mp hpid
  cases hstarted
  cases hprofile
  cases hhostname
  rfl

noncomputable def lockJson : Json := ⟨lockText, decode lockText⟩

theorem lockJson_faithful : lockJson.Faithful where
  read := decode_encode lockText_delimited
  torn _ _ := decode_torn lockText_delimited

/-- Two processes, 7 and 8, are alive. -/
def notesHost : Host where
  hostname := "db1"
  kill pid := pid = 7 || pid = 8
  lockAgeSecs _ := some 60

def notesPid (second : Bool) : UInt32 := if second then 8 else 7

def notesTime : String := "2026-01-01T00:00:00+00:00"

/-- The file of a process that is dead. -/
def deadFile : LockFile Bool :=
  ⟨none, lockText ⟨9, notesTime, "notes", "db1"⟩⟩

noncomputable abbrev notesStep : State Bool → Label Bool → Option (State Bool) :=
  step lockJson notesHost "notes" "/tmp/x-backup/notes.lock" notesPid

/-- Who reads the file of the dead process takes it away. -/
theorem read_deadFile {st : State Bool} {p : Bool} (hfile : st.file = deadFile)
    (hphase : st.phase p = .reading) :
    notesStep st (.read p) = some (st.goes p .removing) := by
  have hread : readHolder lockJson st.file =
      some ⟨9, notesTime, "notes", "db1"⟩ := by
    rw [hfile]
    exact lockJson_faithful.read _
  simp only [notesStep, step, hphase, hread]
  rfl

def takeOver : List (Label Bool) :=
  [.start false, .create false notesTime, .read false, .remove false true,
    .create false notesTime, .write false 1000, .release false true]

theorem write_all {st : State Bool} {p : Bool}
    (hphase : st.phase p =
      .writing (LockData.forCurrent notesHost "notes" notesPid p notesTime) 0) :
    notesStep st (.write p 1000) = some
      ((st.written p (lockText
          (LockData.forCurrent notesHost "notes" notesPid p notesTime))).goes p
        (.holding
          (LockData.forCurrent notesHost "notes" notesPid p notesTime))) := by
  have hlength : (lockText (LockData.forCurrent notesHost "notes" notesPid p
      notesTime)).length ≤ 0 + 1000 := by
    cases p <;> decide +kernel
  have htake : (lockText (LockData.forCurrent notesHost "notes" notesPid p
      notesTime)).take (0 + 1000) = lockText (LockData.forCurrent notesHost
        "notes" notesPid p notesTime) := List.take_of_length_le hlength
  simp only [notesStep, step, hphase]
  show some ((st.written p ((lockText _).take (0 + 1000))).goes p
    (if (lockText _).length ≤ 0 + 1000 then _ else _)) = _
  rw [htake, if_pos hlength]

theorem takeOver_run :
    ∃ last, run notesStep (initial (some deadFile)) takeOver = some last ∧
      StepsMeet notesStep Undisturbed (initial (some deadFile)) takeOver := by
  have hdead : ∀ file ∈ some deadFile, file.creator = none := by
    rintro file ⟨⟩
    rfl
  apply Exists.intro
  apply run_and_stepsMeet_cons rfl nofun
  apply run_and_stepsMeet_cons rfl nofun
  apply run_and_stepsMeet_cons (read_deadFile rfl rfl) nofun
  apply run_and_stepsMeet_cons rfl (fun _ _ => hdead)
  apply run_and_stepsMeet_cons rfl nofun
  apply run_and_stepsMeet_cons (write_all rfl) nofun
  apply run_and_stepsMeet_cons rfl nofun
  exact ⟨rfl, trivial⟩

theorem lock_excludes_notes :
    ∃ last, run notesStep (initial (some deadFile)) takeOver = some last ∧
      StepsMeet notesStep (fun st label => Exclusive st ∧ Spares st label)
        (initial (some deadFile)) takeOver ∧
      Exclusive last := by
  have halive : ∀ p, notesHost.pidAlive (notesPid p) = true := by decide
  have hdead : ∀ file ∈ some deadFile, file.creator = none := by
    rintro file ⟨⟩
    rfl
  obtain ⟨last, hrun, hundisturbed⟩ := takeOver_run
  exact ⟨last, hrun, (lock_excludes_iff lockJson_faithful halive hdead
    hrun).mpr hundisturbed⟩

/-- Both processes have read the file of the dead one before it is taken away,
and the second takes away the lock of the first. -/
def bothTakeOver : List (Label Bool) :=
  [.start false, .start true, .create false notesTime, .create true notesTime,
    .read false, .read true, .remove false true, .create false notesTime,
    .write false 1000, .remove true true, .create true notesTime,
    .write true 1000]

theorem lock_excludes_bothTakeOver :
    ∃ last, run notesStep (initial (some deadFile)) bothTakeOver = some last ∧
      ¬ Exclusive last := by
  have hrun : ∃ last,
      run notesStep (initial (some deadFile)) bothTakeOver = some last ∧
        (last.phase false).holds = true ∧ (last.phase true).holds = true := by
    apply Exists.intro
    apply And.intro
    · apply run_cons_of_step rfl
      apply run_cons_of_step rfl
      apply run_cons_of_step rfl
      apply run_cons_of_step rfl
      apply run_cons_of_step (read_deadFile rfl rfl)
      apply run_cons_of_step (read_deadFile rfl rfl)
      apply run_cons_of_step rfl
      apply run_cons_of_step rfl
      apply run_cons_of_step (write_all rfl)
      apply run_cons_of_step rfl
      apply run_cons_of_step rfl
      apply run_cons_of_step (write_all rfl)
      exact rfl
    · exact ⟨rfl, rfl⟩
  obtain ⟨last, hlast, hfirst, hsecond⟩ := hrun
  exact ⟨last, hlast, fun hexclusive =>
    Bool.noConfusion (hexclusive false true hfirst hsecond)⟩

end Notes

end Lock

end XBackup
