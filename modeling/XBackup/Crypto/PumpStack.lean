/-
What a consumer may trust at the top of a stack of pumps, whatever the order in
which the pumps and the consumer go on.
-/
import XBackup.Crypto.PumpReader

namespace XBackup

namespace Crypto

open Coroutines Transition

variable {σ : Type}

section States

def PumpReader.EndedOk (me : PumpReader σ) : Prop :=
  me.task = .ended (.returned (.ok ()))

def PumpReader.Failed (me : PumpReader σ) : Prop :=
  ∃ outcome, me.task = .ended outcome ∧ outcome ≠ .returned (.ok ())

/-- The handle has told of the failure, and is gone. -/
def PumpReader.FailureTaken (me : PumpReader σ) : Prop :=
  me.handle = false ∧ me.Failed

/-- Every pump of the stack has finished with `Ok`. -/
def Reader.AllOk : Reader σ → Prop
  | .source _ => True
  | .pump me input => me.EndedOk ∧ input.AllOk

def Reader.FailureTaken : Reader σ → Prop
  | .source _ => False
  | .pump me _ => me.FailureTaken

/-- The error that the task has ended with. -/
def PumpReader.failure (me : PumpReader σ) : Option IoError :=
  match me.task with
  | .ended (.returned (.error err)) => some err
  | .ended (.aborted joinErr) => some (.ofJoin joinErr)
  | _ => none

variable (next : σ → Act IoError σ) (overlooks : σ → IoError → Prop)

/-- The pump is about to read the failure of the pump below it, and overlooks
that. -/
def PumpReader.Overlooks (me : PumpReader σ) (input : Reader σ) : Prop :=
  ∃ pump size resume below rest err,
    me.task = .running pump ∧ next pump = .read size resume ∧
      input = .pump below rest ∧
      (size = 0 ∨ below.reader.buffer = []) ∧ below.handle = true ∧
      below.failure = some err ∧ overlooks pump err

def Reader.AtDepth (holds : PumpReader σ → Reader σ → Prop) :
    Nat → Reader σ → Prop
  | _, .source _ => False
  | 0, .pump me input => holds me input
  | depth + 1, .pump _ input => input.AtDepth holds depth

/-- The consumer does not read again after the failure, nor with an empty
buffer where bytes are left of a pump that has failed; and no pump overlooks
the failure of another. -/
def Stream.Meets (st : Stream σ) : Label → Prop
  | .poll size =>
      match st.reader with
      | .source _ => True
      | .pump me _ => ¬ me.FailureTaken ∧
          (size = 0 → me.reader.buffer ≠ [] → ¬ me.Failed)
  | .run depth =>
      ¬ st.reader.AtDepth (PumpReader.Overlooks next overlooks) depth
  | .abort _ _ => True
  | .drop => True

/-- The bytes that the consumer was given. -/
def given (seen : List (Nat × Answer IoError)) : List UInt8 :=
  seen.flatMap fun event =>
    match event.2 with
    | .ready bytes => bytes
    | .error _ => []

/-- A read with some room has given nothing. -/
def SeenEof (seen : List (Nat × Answer IoError)) : Prop :=
  ∃ size, 0 < size ∧ (size, .ready []) ∈ seen

def SeenError (seen : List (Nat × Answer IoError)) : Prop :=
  ∃ size err, (size, .error err) ∈ seen

/-- What the consumer has been given is what the outermost pump has written, in
order. It has seen the end of the file only behind all of that and with the
result of every pump, and an error only behind all of that from a pump that has
failed. -/
structure Stream.EndsTruly (st : Stream σ) (me : PumpReader σ)
    (input : Reader σ) : Prop where
  top : st.reader = .pump me input
  ordered : given st.seen <+: me.reader.written
  eof : SeenEof st.seen → given st.seen = me.reader.written ∧
    me.handle = false ∧ st.reader.AllOk
  error : SeenError st.seen → given st.seen = me.reader.written ∧ me.Failed

end States

section Polls

/-- What a poll of a pump's reader gives. -/
inductive PumpReader.Gives (me : PumpReader σ) (size : Nat) :
    Answer IoError → PumpReader σ → Prop where
  | bytes (bytes rest : List UInt8) (hsome : bytes ≠ [])
      (hbuffer : me.reader.buffer = bytes ++ rest) :
      Gives me size (.ready bytes)
        { me with reader := { me.reader with buffer := rest } }
  | again (hblank : size = 0 ∨ me.reader.buffer = [])
      (hhandle : me.handle = false) : Gives me size (.ready []) me
  | ok (hblank : size = 0 ∨ me.reader.buffer = []) (hok : me.EndedOk) :
      Gives me size (.ready []) { me with handle := false }
  | failed (err : IoError) (hblank : size = 0 ∨ me.reader.buffer = [])
      (hhandle : me.handle = true) (hfailure : me.failure = some err) :
      Gives me size (.error err) { me with handle := false }

variable {me me' : PumpReader σ} {size : Nat} {answer : Answer IoError}

theorem failed_of_failure {err : IoError} (hfailure : me.failure = some err) :
    me.Failed := by
  rw [PumpReader.failure] at hfailure
  split at hfailure
  next htask => exact ⟨_, htask, by simp⟩
  next htask => exact ⟨_, htask, by simp⟩
  next => cases hfailure

theorem gives_of_pollHandle (hblank : size = 0 ∨ me.reader.buffer = [])
    (hpoll : me.pollHandle = some (answer, me')) :
    me.Gives size answer me' := by
  rw [PumpReader.pollHandle] at hpoll
  split at hpoll
  next hhandle =>
    split at hpoll
    next htask =>
      cases hpoll
      exact .ok hblank htask
    next err htask =>
      cases hpoll
      exact .failed err hblank hhandle (by rw [PumpReader.failure, htask])
    next joinErr htask =>
      cases hpoll
      exact .failed _ hblank hhandle (by rw [PumpReader.failure, htask])
    next => cases hpoll
  next hhandle =>
    cases hpoll
    exact .again hblank (Bool.eq_false_iff.mpr hhandle)

theorem gives_of_pollRead (hpoll : me.pollRead size = some (answer, me')) :
    me.Gives size answer me' := by
  rw [PumpReader.pollRead, Duplex.pollRead] at hpoll
  by_cases hbuffer : me.reader.buffer = []
  · rw [if_neg (by simpa using hbuffer)] at hpoll
    split at hpoll
    next => cases hpoll
    next bytes reader hread =>
      split at hread
      next =>
        cases hread
        rw [if_neg (by simp)] at hpoll
        exact gives_of_pollHandle (.inr hbuffer) hpoll
      next => cases hread
  · rw [if_pos hbuffer] at hpoll
    dsimp only at hpoll
    split at hpoll
    next hsome =>
      cases hpoll
      exact .bytes _ _ hsome (List.take_append_drop size _).symm
    next hnone =>
      have hsize : size = 0 := by
        rcases List.take_eq_nil_iff.mp (not_not.mp hnone) with hsize | hnil
        · exact hsize
        · exact absurd hnil hbuffer
      have hsame : ({ me with reader := { me.reader with
          buffer := me.reader.buffer.drop size } } : PumpReader σ) = me := by
        rw [hsize, List.drop_zero]
      rw [hsame] at hpoll
      exact gives_of_pollHandle (.inl hsize) hpoll

theorem task_of_gives (hgives : me.Gives size answer me') :
    me'.task = me.task := by
  cases hgives <;> rfl

end Polls

section Works

/-- A task that has not ended goes on; its reader keeps the handle. -/
def PumpReader.Advances (me : PumpReader σ) (reader : Reader σ) : Prop :=
  (∀ outcome, me.task ≠ .ended outcome) ∧
    ∃ me' input' part, reader = .pump me' input' ∧ me'.handle = me.handle ∧
      me'.reader.buffer = me.reader.buffer ++ part ∧
      me'.reader.written = me.reader.written ++ part

variable {next : σ → Act IoError σ} {me : PumpReader σ}
  {input reader : Reader σ}

theorem advances_leave (outcome : Outcome)
    (hlive : ∀ outcome, me.task ≠ .ended outcome) :
    me.Advances (me.leave input outcome) :=
  ⟨hlive, _, _, [], rfl, rfl, (List.append_nil _).symm,
    (List.append_nil _).symm⟩

theorem advances_same {me' : PumpReader σ} {input' : Reader σ}
    (hlive : ∀ outcome, me.task ≠ .ended outcome)
    (hhandle : me'.handle = me.handle)
    (hbuffer : me'.reader.buffer = me.reader.buffer)
    (hwritten : me'.reader.written = me.reader.written) :
    me.Advances (.pump me' input') :=
  ⟨hlive, me', input', [], rfl, hhandle, by rw [hbuffer, List.append_nil],
    by rw [hwritten, List.append_nil]⟩

theorem advances_run (hrun : me.run next input = some reader) :
    me.Advances reader := by
  rw [PumpReader.run] at hrun
  split at hrun
  next pump htask =>
    have hlive : ∀ outcome, me.task ≠ .ended outcome := by
      intro outcome hended
      cases htask.symm.trans hended
    split at hrun
    next =>
      obtain ⟨⟨answer, input'⟩, -, heq⟩ := Option.map_eq_some_iff.mp hrun
      cases heq
      exact advances_same hlive rfl rfl rfl
    next =>
      cases hrun
      exact advances_same hlive rfl rfl rfl
    next =>
      cases hrun
      exact advances_same hlive rfl rfl rfl
    next =>
      cases hrun
      exact advances_leave _ hlive
  next rest broken pump htask =>
    have hlive : ∀ outcome, me.task ≠ .ended outcome := by
      intro outcome hended
      cases htask.symm.trans hended
    split at hrun
    next =>
      cases hrun
      exact advances_same hlive rfl rfl rfl
    next =>
      split at hrun
      next =>
        cases hrun
        exact advances_leave _ hlive
      next =>
        obtain ⟨⟨len, pipe⟩, hwrite, heq⟩ := Option.map_eq_some_iff.mp hrun
        cases heq
        rw [Duplex.pollWrite] at hwrite
        dsimp only at hwrite
        split at hwrite
        next => cases hwrite
        next =>
          cases hwrite
          exact ⟨hlive, _, _, _, rfl, rfl, rfl, rfl⟩
  next outcome htask =>
    cases hrun
    refine advances_same ?_ rfl rfl rfl
    intro other hended
    cases htask.symm.trans hended
  next => cases hrun

theorem advances_abort {joinErr : String}
    (habort : me.abort input joinErr = some reader) : me.Advances reader := by
  rw [PumpReader.abort] at habort
  split at habort
  next pump htask =>
    cases habort
    refine advances_leave _ ?_
    intro outcome hended
    cases htask.symm.trans hended
  next rest broken pump htask =>
    cases habort
    refine advances_leave _ ?_
    intro outcome hended
    cases htask.symm.trans hended
  next => cases habort

end Works

section Invariant

/-- Reading nothing more, the task ends with `Ok`. -/
def Spawned.WillEndWell (next : σ → Act IoError σ) : Spawned σ → Prop
  | .running pump => EndsWell next pump
  | .writing _ _ pump => EndsWell next pump
  | .leaving outcome => outcome = .returned (.ok ())
  | .ended outcome => outcome = .returned (.ok ())

def Spawned.MayEndWell (next : σ → Act IoError σ) : Spawned σ → Prop
  | .running pump => Coroutines.MayEndWell next pump
  | .writing _ _ pump => Coroutines.MayEndWell next pump
  | .leaving outcome => outcome = .returned (.ok ())
  | .ended outcome => outcome = .returned (.ok ())

/-- What holds between a pump and its input: the handle goes with the result, a
pump that needs no more input has come to the true end of it, and one whose
input has failed can only fail. -/
structure PumpReader.Sound (next : σ → Act IoError σ) (me : PumpReader σ)
    (input : Reader σ) : Prop where
  taken : me.handle = false → ∃ outcome, me.task = .ended outcome
  settled : me.task.WillEndWell next → input.AllOk
  heeded : input.FailureTaken → ¬ me.task.MayEndWell next

def Reader.Inv (next : σ → Act IoError σ) : Reader σ → Prop
  | .source _ => True
  | .pump me input => me.Sound next input ∧ input.Inv next

variable {next : σ → Act IoError σ} {overlooks : σ → IoError → Prop}
  {me me' : PumpReader σ} {input input' reader reader' : Reader σ}

theorem allOk_release : reader.release.AllOk ↔ reader.AllOk := by
  cases reader <;> rfl

theorem failureTaken_release :
    reader.release.FailureTaken ↔ reader.FailureTaken := by
  cases reader <;> rfl

theorem PumpReader.Sound.of_same (hsound : me.Sound next input)
    (htask : me'.task = me.task)
    (htaken : me'.handle = false → ∃ outcome, me.task = .ended outcome) :
    me'.Sound next input where
  taken := by rw [htask]; exact htaken
  settled := by rw [htask]; exact hsound.settled
  heeded := by rw [htask]; exact hsound.heeded

theorem inv_release (hinv : reader.Inv next) : reader.release.Inv next := by
  cases reader with
  | source answers => trivial
  | pump me input => exact ⟨hinv.1.of_same rfl hinv.1.taken, hinv.2⟩

/-- A task that goes on without a read. -/
theorem PumpReader.Sound.goes (hsound : me.Sound next input)
    (hlive : ∀ outcome, me.task ≠ .ended outcome)
    (hhandle : me'.handle = me.handle)
    (hwill : me'.task.WillEndWell next → me.task.WillEndWell next)
    (hmay : me'.task.MayEndWell next → me.task.MayEndWell next)
    (hall : input.AllOk → input'.AllOk)
    (hfailure : input'.FailureTaken → input.FailureTaken) :
    me'.Sound next input' where
  taken hgone := by
    obtain ⟨outcome, hended⟩ := hsound.taken (hhandle ▸ hgone)
    exact absurd hended (hlive outcome)
  settled hnow := hall (hsound.settled (hwill hnow))
  heeded htaken hnow := hsound.heeded (hfailure htaken) (hmay hnow)

theorem PumpReader.Sound.leave (hsound : me.Sound next input)
    (hinv : input.Inv next) {outcome : Outcome}
    (hlive : ∀ outcome, me.task ≠ .ended outcome)
    (hwill : outcome = .returned (.ok ()) → me.task.WillEndWell next)
    (hmay : outcome = .returned (.ok ()) → me.task.MayEndWell next) :
    (me.leave input outcome).Inv next :=
  ⟨hsound.goes hlive rfl hwill hmay allOk_release.mpr failureTaken_release.mp,
    inv_release hinv⟩

end Invariant

section Reading

variable {next : σ → Act IoError σ} {overlooks : σ → IoError → Prop}
  {me me' : PumpReader σ} {input reader reader' : Reader σ} {size : Nat}
  {answer : Answer IoError}

theorem pollRead_pump (hpoll : (Reader.pump me input).pollRead size =
      some (answer, reader)) :
    ∃ me', reader = .pump me' input ∧ me.Gives size answer me' := by
  rw [Reader.pollRead] at hpoll
  obtain ⟨⟨other, me'⟩, hread, heq⟩ := Option.map_eq_some_iff.mp hpoll
  cases heq
  exact ⟨me', rfl, gives_of_pollRead hread⟩

theorem pollRead_source {answers : List (Answer IoError)}
    (hpoll : (Reader.source answers : Reader σ).pollRead size =
      some (answer, reader)) : ∃ rest, reader = .source rest := by
  match answers with
  | [] => cases hpoll; exact ⟨_, rfl⟩
  | .error err :: answers => cases hpoll; exact ⟨_, rfl⟩
  | .ready bytes :: answers =>
      rw [Reader.pollRead] at hpoll
      split at hpoll <;> cases hpoll <;> exact ⟨_, rfl⟩

theorem PumpReader.Gives.taken (hgives : me.Gives size answer me')
    (hkept : me.handle = false → ∃ outcome, me.task = .ended outcome)
    (hgone : me'.handle = false) : ∃ outcome, me.task = .ended outcome := by
  cases hgives with
  | bytes bytes rest hsome hbuffer => exact hkept hgone
  | again hblank hhandle => exact hkept hhandle
  | ok hblank hok => exact ⟨_, hok⟩
  | failed err hblank hhandle hfailure =>
      obtain ⟨outcome, htask, -⟩ := failed_of_failure hfailure
      exact ⟨outcome, htask⟩

theorem inv_pollRead (hinv : reader.Inv next)
    (hpoll : reader.pollRead size = some (answer, reader')) :
    reader'.Inv next := by
  cases reader with
  | source answers =>
      obtain ⟨rest, rfl⟩ := pollRead_source hpoll
      trivial
  | pump me input =>
      obtain ⟨me', rfl, hgives⟩ := pollRead_pump hpoll
      exact ⟨hinv.1.of_same (task_of_gives hgives)
        (hgives.taken hinv.1.taken), hinv.2⟩

theorem allOk_pollRead (hall : reader.AllOk)
    (hpoll : reader.pollRead size = some (answer, reader')) :
    reader'.AllOk := by
  cases reader with
  | source answers =>
      obtain ⟨rest, rfl⟩ := pollRead_source hpoll
      trivial
  | pump me input =>
      obtain ⟨me', rfl, hgives⟩ := pollRead_pump hpoll
      exact ⟨(task_of_gives hgives).trans hall.1, hall.2⟩

/-- A failure that is taken was taken before, or is the answer. -/
theorem failureTaken_pollRead (htaken : reader'.FailureTaken)
    (hpoll : reader.pollRead size = some (answer, reader')) :
    reader.FailureTaken ∨ ∃ err, answer = .error err := by
  cases reader with
  | source answers =>
      obtain ⟨rest, rfl⟩ := pollRead_source hpoll
      exact htaken.elim
  | pump me input =>
      obtain ⟨me', rfl, hgives⟩ := pollRead_pump hpoll
      obtain ⟨hgone, hfailed⟩ := htaken
      cases hgives with
      | bytes bytes rest hsome hbuffer => exact .inl ⟨hgone, hfailed⟩
      | again hblank hhandle => exact .inl ⟨hgone, hfailed⟩
      | ok hblank hok =>
          obtain ⟨outcome, htask, hother⟩ := hfailed
          cases hok.symm.trans htask
          exact absurd rfl hother
      | failed err hblank hhandle hfailure => exact .inr ⟨err, rfl⟩

theorem PumpReader.Sound.allOk (hsound : me.Sound next input)
    (hok : me.EndedOk) : (Reader.pump me input).AllOk := by
  refine ⟨hok, hsound.settled ?_⟩
  rw [PumpReader.EndedOk] at hok
  rw [hok]
  rfl

/-- The end of a reader whose failure was not taken is the end of every pump. -/
theorem allOk_of_eof (hinv : reader.Inv next)
    (hfresh : ¬ reader.FailureTaken)
    (hpoll : reader.pollRead size = some (.ready [], reader')) :
    reader.AllOk := by
  cases reader with
  | source answers => trivial
  | pump me input =>
      obtain ⟨me', rfl, hgives⟩ := pollRead_pump hpoll
      generalize hanswer : Answer.ready [] = answer at hgives
      cases hgives with
      | bytes bytes rest hsome hbuffer =>
          cases hanswer
          exact absurd rfl hsome
      | again hblank hhandle =>
          obtain ⟨outcome, htask⟩ := hinv.1.taken hhandle
          apply hinv.1.allOk
          by_contra hother
          refine hfresh ⟨hhandle, outcome, htask, ?_⟩
          rintro rfl
          exact hother htask
      | ok hblank hok => exact hinv.1.allOk hok
      | failed err hblank hhandle hfailure => cases hanswer

end Reading

section Steps

variable {next : σ → Act IoError σ} {overlooks : σ → IoError → Prop}
  {me : PumpReader σ} {input reader reader' : Reader σ} {depth : Nat}

/-- A pump that reads keeps to the rule: it may end well only from the true end
of its input. -/
theorem sound_read (hheeds : Heeds next overlooks)
    (hinv : (Reader.pump me input).Inv next)
    (hmeet : ¬ me.Overlooks next overlooks input)
    {pump : σ} {size : Nat} {resume : Answer IoError → σ}
    {answer : Answer IoError} (htask : me.task = .running pump)
    (hnext : next pump = .read size resume)
    (hpoll : input.pollRead size = some (answer, reader)) :
    ({ me with task := .running (resume answer) } : PumpReader σ).Sound next
      reader := by
  obtain ⟨hsound, hinput⟩ := hinv
  have hoverlooked : ∀ err, answer = .error err →
      MayEndWell next (resume answer) → ∃ answers, input = .source answers := by
    rintro err rfl hmay
    cases input with
    | source answers => exact ⟨answers, rfl⟩
    | pump below rest =>
        obtain ⟨below', -, hgives⟩ := pollRead_pump hpoll
        cases hgives with
        | failed err hblank hhandle hfailure =>
            exact absurd ⟨pump, size, resume, below, rest, err, htask, hnext,
              rfl, hblank, hhandle, hfailure, hheeds.fails hnext hmay⟩ hmeet
  have hfresh : MayEndWell next (resume answer) → ¬ input.FailureTaken := by
    intro hmay htaken
    apply hsound.heeded htaken
    rw [htask]
    exact .read answer hnext trivial hmay
  refine ⟨?_, ?_, ?_⟩
  · intro hgone
    obtain ⟨outcome, hended⟩ := hsound.taken hgone
    cases htask.symm.trans hended
  · intro hends
    have hends : EndsWell next (resume answer) := hends
    refine allOk_pollRead ?_ hpoll
    cases answer with
    | ready bytes =>
        cases hheeds.ends hnext hends
        exact allOk_of_eof hinput (hfresh (EndsWell.mayEndWell hends)) hpoll
    | error err =>
        obtain ⟨answers, rfl⟩ :=
          hoverlooked err rfl (EndsWell.mayEndWell hends)
        trivial
  · intro htaken hmay
    have hmay : MayEndWell next (resume answer) := hmay
    rcases failureTaken_pollRead htaken hpoll with hbefore | ⟨err, heq⟩
    · exact hfresh hmay hbefore
    · obtain ⟨answers, rfl⟩ := hoverlooked err heq hmay
      obtain ⟨rest, rfl⟩ := pollRead_source hpoll
      exact htaken

theorem inv_run (hheeds : Heeds next overlooks)
    (hinv : (Reader.pump me input).Inv next)
    (hmeet : ¬ me.Overlooks next overlooks input)
    (hrun : me.run next input = some reader) : reader.Inv next := by
  obtain ⟨hlive, -⟩ := advances_run hrun
  obtain ⟨hsound, hinput⟩ := hinv
  rw [PumpReader.run] at hrun
  split at hrun
  next pump htask =>
    split at hrun
    next size resume hnext =>
      obtain ⟨⟨answer, rest⟩, hpoll, heq⟩ := Option.map_eq_some_iff.mp hrun
      cases heq
      exact ⟨sound_read hheeds ⟨hsound, hinput⟩ hmeet htask hnext hpoll,
        inv_pollRead hinput hpoll⟩
    next bytes broken rest hnext =>
      cases hrun
      refine ⟨hsound.goes hlive rfl ?_ ?_ id id, hinput⟩
      · rw [htask]
        exact (endsOn_write_iff hnext).mpr
      · rw [htask]
        exact (endsOn_write_iff hnext).mpr
    next rest hnext =>
      cases hrun
      refine ⟨hsound.goes hlive rfl ?_ ?_ id id, hinput⟩
      · rw [htask]
        exact (endsOn_shutdown_iff hnext).mpr
      · rw [htask]
        exact (endsOn_shutdown_iff hnext).mpr
    next result hnext =>
      cases hrun
      refine hsound.leave hinput hlive ?_ ?_
      · intro hok
        cases hok
        rw [htask]
        exact .finish hnext
      · intro hok
        cases hok
        rw [htask]
        exact .finish hnext
  next rest broken pump htask =>
    split at hrun
    next =>
      cases hrun
      refine ⟨hsound.goes hlive rfl ?_ ?_ id id, hinput⟩
      · rw [htask]
        exact id
      · rw [htask]
        exact id
    next =>
      split at hrun
      next =>
        cases hrun
        exact hsound.leave hinput hlive nofun nofun
      next =>
        obtain ⟨⟨len, pipe⟩, hwrite, heq⟩ := Option.map_eq_some_iff.mp hrun
        cases heq
        refine ⟨hsound.goes hlive rfl ?_ ?_ id id, hinput⟩
        · rw [htask]
          exact id
        · rw [htask]
          exact id
  next outcome htask =>
    cases hrun
    refine ⟨⟨fun _ => ⟨outcome, ?_⟩, ?_, ?_⟩, hinput⟩
    · rfl
    · have hsettled := hsound.settled
      rw [htask] at hsettled
      exact hsettled
    · have hheeded := hsound.heeded
      rw [htask] at hheeded
      exact hheeded
  next => cases hrun

theorem inv_abort {joinErr : String} (hinv : (Reader.pump me input).Inv next)
    (habort : me.abort input joinErr = some reader) : reader.Inv next := by
  obtain ⟨hlive, -⟩ := advances_abort habort
  obtain ⟨hsound, hinput⟩ := hinv
  rw [PumpReader.abort] at habort
  split at habort
  next =>
    cases habort
    exact hsound.leave hinput hlive nofun nofun
  next =>
    cases habort
    exact hsound.leave hinput hlive nofun nofun
  next => cases habort

variable {change : PumpReader σ → Reader σ → Option (Reader σ)}

/-- Where every pump has finished, none goes on. -/
theorem atDepth_of_allOk
    (hchange : ∀ me input reader, change me input = some reader →
      me.Advances reader)
    (hall : reader.AllOk) : reader.atDepth change depth = none := by
  induction reader generalizing depth with
  | source answers => cases depth <;> rfl
  | pump me input ih =>
      cases depth with
      | zero =>
          cases hnew : change me input with
          | none => exact hnew
          | some reader => exact absurd hall.1 ((hchange _ _ _ hnew).1 _)
      | succ depth =>
          rw [Reader.atDepth, ih hall.2]
          rfl

/-- A failure that was taken stays where it is. -/
theorem failureTaken_atDepth
    (hchange : ∀ me input reader, change me input = some reader →
      me.Advances reader)
    (hinv : reader.Inv next) (hnew : reader.atDepth change depth = some reader')
    (htaken : reader'.FailureTaken) : reader.FailureTaken := by
  cases reader with
  | source answers => cases depth <;> cases hnew
  | pump me input =>
      cases depth with
      | zero =>
          obtain ⟨hlive, me', input', part, rfl, hhandle, -, -⟩ :=
            hchange _ _ _ hnew
          obtain ⟨hgone, -⟩ := htaken
          obtain ⟨outcome, hended⟩ := hinv.1.taken (hhandle ▸ hgone)
          exact absurd hended (hlive outcome)
      | succ depth =>
          obtain ⟨input', -, rfl⟩ := Option.map_eq_some_iff.mp hnew
          exact htaken

theorem not_atDepth_false :
    ¬ reader.AtDepth (fun (_ : PumpReader σ) _ => False) depth := by
  induction reader generalizing depth with
  | source answers => cases depth <;> exact id
  | pump me input ih =>
      cases depth with
      | zero => exact id
      | succ depth => exact ih

/-- What a change keeps where it is made, it keeps at every depth. -/
theorem inv_atDepth (bad : PumpReader σ → Reader σ → Prop)
    (hchange : ∀ me input reader, change me input = some reader →
      me.Advances reader)
    (hkeep : ∀ me input reader, (Reader.pump me input).Inv next →
      ¬ bad me input → change me input = some reader → reader.Inv next)
    (hinv : reader.Inv next) (hmeet : ¬ reader.AtDepth bad depth)
    (hnew : reader.atDepth change depth = some reader') :
    reader'.Inv next := by
  induction reader generalizing depth reader' with
  | source answers => cases depth <;> cases hnew
  | pump me input ih =>
      cases depth with
      | zero => exact hkeep me input reader' hinv hmeet hnew
      | succ depth =>
          obtain ⟨input', hinput, rfl⟩ := Option.map_eq_some_iff.mp hnew
          refine ⟨⟨hinv.1.taken, ?_, ?_⟩, ih hinv.2 hmeet hinput⟩
          · intro hwill
            rw [atDepth_of_allOk hchange (hinv.1.settled hwill)] at hinput
            cases hinput
          · intro htaken
            exact hinv.1.heeded
              (failureTaken_atDepth hchange hinv.2 hinput htaken)

end Steps

section Runs

variable {next : σ → Act IoError σ} {overlooks : σ → IoError → Prop}
  {st st' : Stream σ} {label : Label}

/-- What holds of the stack and of what the consumer has seen of it. -/
structure Stream.Inv (next : σ → Act IoError σ) (st : Stream σ)
    (me : PumpReader σ) (input : Reader σ) : Prop where
  top : st.reader = .pump me input
  sound : (Reader.pump me input).Inv next
  kept : given st.seen ++ me.reader.buffer = me.reader.written
  eof : SeenEof st.seen → me.reader.buffer = [] ∧ me.handle = false ∧ me.EndedOk
  error : SeenError st.seen → me.reader.buffer = [] ∧ me.FailureTaken

theorem given_append (seen : List (Nat × Answer IoError)) (size : Nat)
    (answer : Answer IoError) :
    given (seen ++ [(size, answer)]) = given seen ++ given [(size, answer)] :=
  List.flatMap_append

theorem seenEof_append {seen : List (Nat × Answer IoError)} {size : Nat}
    {answer : Answer IoError} (heof : SeenEof (seen ++ [(size, answer)])) :
    SeenEof seen ∨ 0 < size ∧ answer = .ready [] := by
  obtain ⟨other, hother, hmem⟩ := heof
  rcases List.mem_append.mp hmem with hmem | hmem
  · exact .inl ⟨other, hother, hmem⟩
  · cases List.mem_singleton.mp hmem
    exact .inr ⟨hother, rfl⟩

theorem seenError_append {seen : List (Nat × Answer IoError)} {size : Nat}
    {answer : Answer IoError} (herror : SeenError (seen ++ [(size, answer)])) :
    SeenError seen ∨ ∃ err, answer = .error err := by
  obtain ⟨other, err, hmem⟩ := herror
  rcases List.mem_append.mp hmem with hmem | hmem
  · exact .inl ⟨other, err, hmem⟩
  · cases List.mem_singleton.mp hmem
    exact .inr ⟨err, rfl⟩

theorem not_seenEof_nil : ¬ SeenEof [] := by
  rintro ⟨size, -, hmem⟩
  cases hmem

theorem not_seenError_nil : ¬ SeenError [] := by
  rintro ⟨size, err, hmem⟩
  cases hmem

theorem inv_poll {size : Nat} {me : PumpReader σ} {input : Reader σ}
    (hinv : st.Inv next me input) (hmeet : st.Meets next overlooks (.poll size))
    (hstep : step next st (.poll size) = some st') :
    ∃ me', st'.Inv next me' input := by
  obtain ⟨reader, seen⟩ := st
  obtain ⟨rfl, hsound, hkept, heof, herror⟩ := hinv
  obtain ⟨hfresh, hempty⟩ := hmeet
  obtain ⟨⟨answer, reader'⟩, hpoll, rfl⟩ := Option.map_eq_some_iff.mp hstep
  have hsound' := inv_pollRead hsound hpoll
  obtain ⟨me', rfl, hgives⟩ := pollRead_pump hpoll
  refine ⟨me', rfl, hsound', ?_, ?_, ?_⟩
  · cases hgives with
    | bytes bytes rest hsome hbuffer =>
        rw [given_append, List.append_assoc, ← hkept, hbuffer]
        simp [given]
    | again hblank hhandle =>
        rw [given_append]
        simpa [given] using hkept
    | ok hblank hok =>
        rw [given_append]
        simpa [given] using hkept
    | failed err hblank hhandle hfailure =>
        rw [given_append]
        simpa [given] using hkept
  · intro hseen
    have hcases := seenEof_append hseen
    cases hgives with
    | bytes bytes rest hsome hbuffer =>
        rcases hcases with hseen | ⟨-, heq⟩
        · have hnil := (heof hseen).1
          rw [hbuffer] at hnil
          exact absurd (List.append_eq_nil_iff.mp hnil).1 hsome
        · cases heq
          exact absurd rfl hsome
    | again hblank hhandle =>
        rcases hcases with hseen | ⟨hsize, -⟩
        · exact heof hseen
        · refine ⟨hblank.resolve_left hsize.ne', hhandle, ?_⟩
          obtain ⟨outcome, htask⟩ := hsound.1.taken hhandle
          by_contra hother
          refine hfresh ⟨hhandle, outcome, htask, ?_⟩
          rintro rfl
          exact hother htask
    | ok hblank hok =>
        rcases hcases with hseen | ⟨hsize, -⟩
        · exact ⟨(heof hseen).1, rfl, hok⟩
        · exact ⟨hblank.resolve_left hsize.ne', rfl, hok⟩
    | failed err hblank hhandle hfailure =>
        rcases hcases with hseen | ⟨-, heq⟩
        · obtain ⟨outcome, htask, hother⟩ := failed_of_failure hfailure
          cases (heof hseen).2.2.symm.trans htask
          exact absurd rfl hother
        · cases heq
  · intro hseen
    have hbefore : ¬ SeenError seen := fun hseen => hfresh (herror hseen).2
    obtain ⟨err, rfl⟩ := (seenError_append hseen).resolve_left hbefore
    cases hgives with
    | failed err hblank hhandle hfailure =>
        have hfailed := failed_of_failure hfailure
        refine ⟨?_, rfl, hfailed⟩
        rcases hblank with hsize | hnil
        · by_contra hbuffer
          exact hempty hsize hbuffer hfailed
        · exact hnil

/-- A change below the consumer, which keeps the invariant of the stack. -/
theorem inv_atDepth_stream {depth : Nat}
    {change : PumpReader σ → Reader σ → Option (Reader σ)}
    {me : PumpReader σ} {input reader : Reader σ}
    (hchange : ∀ me input reader, change me input = some reader →
      me.Advances reader)
    (hinv : st.Inv next me input)
    (hnew : st.reader.atDepth change depth = some reader)
    (hsound : reader.Inv next) :
    ∃ me' input', ({ st with reader := reader } : Stream σ).Inv next me'
      input' := by
  obtain ⟨reader₀, seen⟩ := st
  obtain ⟨rfl, -, hkept, heof, herror⟩ := hinv
  cases depth with
  | zero =>
      obtain ⟨hlive, me', input', part, rfl, hhandle, hbuffer, hwritten⟩ :=
        hchange _ _ _ hnew
      refine ⟨me', input', rfl, hsound, ?_, ?_, ?_⟩
      · rw [hbuffer, hwritten, ← hkept, List.append_assoc]
      · intro hseen
        exact absurd (heof hseen).2.2 (hlive _)
      · intro hseen
        obtain ⟨-, -, outcome, htask, -⟩ := herror hseen
        exact absurd htask (hlive outcome)
  | succ depth =>
      obtain ⟨input', -, rfl⟩ := Option.map_eq_some_iff.mp hnew
      exact ⟨me, input', rfl, hsound, hkept, heof, herror⟩

theorem inv_step (hheeds : Heeds next overlooks)
    (hinv : ∃ me input, st.Inv next me input)
    (hmeet : st.Meets next overlooks label)
    (hstep : step next st label = some st') :
    ∃ me input, st'.Inv next me input := by
  obtain ⟨me, input, hinv⟩ := hinv
  have hsound : st.reader.Inv next := by
    rw [hinv.top]
    exact hinv.sound
  cases label with
  | poll size =>
      obtain ⟨me', hinv'⟩ := inv_poll hinv hmeet hstep
      exact ⟨me', input, hinv'⟩
  | run depth =>
      obtain ⟨reader, hnew, rfl⟩ := Option.map_eq_some_iff.mp hstep
      refine inv_atDepth_stream (fun _ _ _ => advances_run) hinv hnew ?_
      exact inv_atDepth _ (fun _ _ _ => advances_run)
        (fun _ _ _ hinv hgood => inv_run hheeds hinv hgood) hsound hmeet hnew
  | abort depth joinErr =>
      obtain ⟨reader, hnew, rfl⟩ := Option.map_eq_some_iff.mp hstep
      refine inv_atDepth_stream (fun _ _ _ => advances_abort) hinv hnew ?_
      exact inv_atDepth (fun _ _ => False) (fun _ _ _ => advances_abort)
        (fun _ _ _ hinv _ => inv_abort hinv) hsound not_atDepth_false hnew
  | drop =>
      cases hstep
      obtain ⟨reader, seen⟩ := st
      obtain ⟨rfl, -, hkept, heof, herror⟩ := hinv
      exact ⟨_, input, rfl, inv_release hsound, hkept, heof, herror⟩

theorem endsTruly_of_inv {me : PumpReader σ} {input : Reader σ}
    (hinv : st.Inv next me input) : st.EndsTruly me input := by
  obtain ⟨htop, hsound, hkept, heof, herror⟩ := hinv
  refine ⟨htop, ⟨_, hkept⟩, ?_, ?_⟩
  · intro hseen
    obtain ⟨hbuffer, hhandle, hok⟩ := heof hseen
    rw [hbuffer, List.append_nil] at hkept
    rw [htop]
    exact ⟨hkept, hhandle, hsound.1.allOk hok⟩
  · intro hseen
    obtain ⟨hbuffer, -, hfailed⟩ := herror hseen
    rw [hbuffer, List.append_nil] at hkept
    exact ⟨hkept, hfailed⟩

/-- A pump over a stack whose failure was not taken, before anything is read. -/
theorem inv_pumpReader (bufBytes : Nat) {pump : σ} {input : Reader σ}
    (hpump : ¬ EndsWell next pump) (hinput : input.Inv next)
    (hfresh : ¬ input.FailureTaken) :
    (pumpReader bufBytes pump input).Inv next ∧
      ¬ (pumpReader bufBytes pump input).FailureTaken := by
  refine ⟨⟨⟨nofun, ?_, ?_⟩, hinput⟩, nofun⟩
  · intro hends
    exact absurd hends hpump
  · intro htaken
    exact absurd htaken hfresh

/-- In every run from a stack on which nothing was read, whose steps meet the
conditions, the stream ends truly. -/
theorem endsTruly_of_run (hheeds : Heeds next overlooks) {bufBytes : Nat}
    {pump : σ} {input : Reader σ} {labels : List Label}
    (hsound : (pumpReader bufBytes pump input).Inv next)
    (hmeet : StepsMeet (step next) (Stream.Meets next overlooks)
      ⟨pumpReader bufBytes pump input, []⟩ labels)
    (hrun : run (step next) ⟨pumpReader bufBytes pump input, []⟩ labels =
      some st) : ∃ me input, st.EndsTruly me input := by
  have hinit : ∃ me below,
      Stream.Inv next ⟨pumpReader bufBytes pump input, []⟩ me below := by
    refine ⟨_, input, rfl, hsound, rfl, ?_, ?_⟩
    · intro hseen
      exact absurd hseen not_seenEof_nil
    · intro hseen
      exact absurd hseen not_seenError_nil
  have hinv := run_invariant_of_stepsMeet
    (fun st => ∃ me input, Stream.Inv next st me input)
    (fun st label st' hinv hgood hstep => inv_step hheeds hinv hgood hstep)
    hinit hmeet hrun
  obtain ⟨me, input, hinv⟩ := hinv
  exact ⟨me, input, endsTruly_of_inv hinv⟩

end Runs

end Crypto

end XBackup
