/-
Which pumps heed the failure of their input: all of them but for one error,
which the decrypting pump takes for the end between two frames.
-/
import XBackup.Crypto.Pumps
import XBackup.Crypto.PumpStack

namespace XBackup

namespace Crypto

open Bytes Coroutines Transition

/-- What the age library is relied on for: a decrypting reader begins with a
read, ends its plaintext at the end of its input, and fails where its input
fails, except that it may ask again after an interruption. -/
structure Age.Reliable (age : Age) : Prop where
  reads : ∀ identity, ¬ EndsWell age.next (age.decryptor identity)
  heeds : Heeds age.next fun _ err => err.kind = .interrupted

variable {age : Age} (aead : Aead)

/-- The length of a frame is being read behind a frame that opens as the last
one, and the error is of the kind that stands for the end of the input; or an
age pump is interrupted. -/
def Pump.Overlooks : Pump age → IoError → Prop
  | .readLength stream (some (some frame)) _ _, err =>
      err.kind = .unexpectedEof ∧ (stream.decryptLast aead frame).isSome
  | .ageRead _, err => err.kind = .interrupted
  | _, _ => False

section Ends

variable {aead} {kind : Answer IoError → Prop} {bytes : List UInt8}
  {broken err : IoError} {rest : Pump age}

theorem endsOn_emit_iff :
    EndsOn (Pump.next aead) kind (.emit bytes broken rest) ↔
      EndsOn (Pump.next aead) kind rest := by
  have hnext : Pump.next aead (.emit bytes broken rest) =
      .write bytes broken rest := rfl
  exact endsOn_write_iff hnext

theorem not_endsOn_failed :
    ¬ EndsOn (Pump.next aead) kind (.failed err : Pump age) := by
  have hnext : Pump.next aead (.failed err : Pump age) =
      .finish (.error err) := rfl
  rw [endsOn_finish_iff hnext]
  nofun

theorem not_endsWell_of_reads {pump : Pump age}
    (hreads : ∃ size resume, Pump.next aead pump = .read size resume) :
    ¬ EndsWell (Pump.next aead) pump := by
  obtain ⟨size, resume, hnext⟩ := hreads
  exact not_endsWell_of_read hnext

theorem not_endsWell_writeFrame {frame : List UInt8}
    (hrest : ¬ EndsWell (Pump.next aead) rest) :
    ¬ EndsWell (Pump.next aead) (.writeFrame frame rest) := by
  rw [Pump.writeFrame]
  split
  next => exact not_endsOn_failed
  next =>
    rw [EndsWell, endsOn_emit_iff]
    exact hrest

theorem not_endsWell_ageEmit {α : Type}
    {written : List UInt8 × Except String α} {goOn : α → Pump age}
    (hgoOn : ∀ value, ¬ EndsWell (Pump.next aead) (goOn value)) :
    ¬ EndsWell (Pump.next aead) (.ageEmit written goOn) := by
  rw [Pump.ageEmit, EndsWell, endsOn_emit_iff]
  split
  next => exact not_endsOn_failed
  next => exact hgoOn _

/-- A chunk that is not empty is not the end. -/
theorem not_endsWell_gotChunk {stream : EncryptorBE32}
    {current : Option (List UInt8)} {chunk : List UInt8} (hchunk : chunk ≠ []) :
    ¬ EndsWell (Pump.next aead)
      (.gotChunk aead stream current chunk : Pump age) := by
  rw [Pump.gotChunk.eq_def]
  split
  next => exact not_endsWell_of_reads ⟨_, _, rfl⟩
  next =>
    rw [if_neg hchunk]
    split
    next => exact not_endsOn_failed
    next => exact not_endsWell_writeFrame (not_endsWell_of_reads ⟨_, _, rfl⟩)

variable {stream : DecryptorBE32} {current : Option (Option (List UInt8))}

theorem not_endsWell_gotFrame {frame : List UInt8} :
    ¬ EndsWell (Pump.next aead)
      (.gotFrame aead stream current (some frame) : Pump age) := by
  rw [Pump.gotFrame.eq_def]
  split
  next => exact not_endsWell_of_reads ⟨_, _, rfl⟩
  next => exact not_endsOn_failed
  next =>
    dsimp only
    split
    next => exact not_endsOn_failed
    next =>
      rw [EndsWell, endsOn_emit_iff]
      exact not_endsWell_of_reads ⟨_, _, rfl⟩

theorem not_endsWell_gotLength {lenBuf : List UInt8} :
    ¬ EndsWell (Pump.next aead)
      (.gotLength stream current lenBuf : Pump age) := by
  rw [Pump.gotLength]
  split
  next => exact not_endsWell_of_reads ⟨_, _, rfl⟩
  next => exact not_endsOn_failed

/-- Every poll of `read_exact` leads to one of its three places. -/
theorem readExact_ind {α : Type} (holds : α → Prop) {wanted : Nat}
    {filled : List UInt8}
    {more : (data : List UInt8) → data.length < wanted → α}
    {full : List UInt8 → α} {failed : IoError → α} {answer : Answer IoError}
    (hmore : ∀ data short, holds (more data short))
    (hfull : ∀ data, holds (full data))
    (hfailed : answer = .ready [] ∨ (∃ err, answer = .error err) →
      ∀ err, holds (failed err)) :
    holds (readExact wanted filled more full failed answer) := by
  cases answer with
  | error err => exact hfailed (.inr ⟨err, rfl⟩) err
  | ready bytes =>
      rw [readExact]
      split
      next hnil => exact hfailed (.inl (by rw [hnil])) _
      next =>
        split
        next short => exact hmore _ short
        next => exact hfull _

/-- The end of a decrypting age pump is that of the reader of age. -/
theorem endsOn_ageRead {reader : age.Reader}
    (hends : EndsOn (Pump.next aead) kind (.ageRead reader)) :
    EndsOn age.next kind reader := by
  generalize hpump : Pump.ageRead reader = pump at hends
  induction hends generalizing reader with
  | finish hnext =>
      subst hpump
      rw [Pump.next] at hnext
      split at hnext <;> cases hnext
  | write hnext _ ih =>
      subst hpump
      rw [Pump.next] at hnext
      split at hnext
      next => cases hnext
      next hage =>
        cases hnext
        exact .write hage (ih rfl)
      next => cases hnext
      next => cases hnext
      next => cases hnext
  | shutdown hnext _ ih =>
      subst hpump
      rw [Pump.next] at hnext
      split at hnext
      next => cases hnext
      next => cases hnext
      next hage =>
        cases hnext
        exact .shutdown hage (ih rfl)
      next hage => exact .finish hage
      next => cases hnext
  | read answer hnext hanswer _ ih =>
      subst hpump
      rw [Pump.next] at hnext
      split at hnext
      next hage =>
        cases hnext
        exact .read answer hage hanswer (ih rfl)
      next => cases hnext
      next => cases hnext
      next => cases hnext
      next => cases hnext

end Ends

section Laws

variable {aead}

/-- A pump that has failed, or has found that there is no first frame. -/
def Pump.Headless : Pump age → Prop
  | .failed _ => True
  | .readLength _ (some none) _ _ => True
  | .readBody _ (some none) _ _ _ => True
  | _ => False

theorem headless_gotLength {stream : DecryptorBE32} {lenBuf : List UInt8} :
    (.gotLength stream (some none) lenBuf : Pump age).Headless := by
  rw [Pump.gotLength]
  split <;> trivial

theorem not_endsOn_headless {kind : Answer IoError → Prop} {pump : Pump age}
    (hpump : pump.Headless) : ¬ EndsOn (Pump.next aead) kind pump := by
  refine not_endsOn_of_invariant Pump.Headless ?_ ?_ ?_ ?_ hpump
  · intro pump hpump hnext
    cases pump <;> first | exact hpump | cases hnext
  · intro pump bytes broken rest hpump hnext
    cases pump <;> first | exact hpump.elim | cases hnext
  · intro pump rest hpump hnext
    cases pump <;> first | exact hpump.elim | cases hnext
  · intro pump size resume hpump hnext answer _
    match pump, hpump with
    | .failed err, _ => cases hnext
    | .readLength stream (some none) filled short, _ =>
        cases hnext
        refine readExact_ind Pump.Headless (fun _ _ => trivial)
          (fun _ => headless_gotLength) ?_
        intro _ err
        split <;> trivial
    | .readBody stream (some none) len filled short, _ =>
        cases hnext
        exact readExact_ind Pump.Headless (fun _ _ => trivial)
          (fun _ => trivial) (fun _ _ => trivial)

/-- Where a pump is given something, it will read again before it ends well. -/
theorem not_endsWell_of_ready (hage : age.Reliable) {pump : Pump age}
    {size : Nat} {resume : Answer IoError → Pump age} {bytes : List UInt8}
    (hnext : Pump.next aead pump = .read size resume) (hsome : bytes ≠ []) :
    ¬ EndsWell (Pump.next aead) (resume (.ready bytes)) := by
  have hfailed : (Answer.ready bytes : Answer IoError) = .ready [] ∨
      (∃ err, (Answer.ready bytes : Answer IoError) = .error err) → False := by
    rintro (heq | ⟨err, heq⟩)
    · cases heq
      exact hsome rfl
    · cases heq
  cases pump with
  | emit bytes broken rest => cases hnext
  | shutdown => cases hnext
  | done => cases hnext
  | failed err => cases hnext
  | readChunk stream current filled short =>
      cases hnext
      dsimp only
      rw [if_neg hsome]
      split
      next => exact not_endsWell_of_reads ⟨_, _, rfl⟩
      next =>
        apply not_endsWell_gotChunk
        intro hnil
        exact hsome (List.append_eq_nil_iff.mp hnil).2
  | readMagic key filled short =>
      cases hnext
      refine readExact_ind (¬ EndsWell (Pump.next aead) ·) ?_ ?_ ?_
      · intro data short
        exact not_endsWell_of_reads ⟨_, _, rfl⟩
      · intro magic
        split
        next => exact not_endsOn_failed
        next => exact not_endsWell_of_reads ⟨_, _, rfl⟩
      · intro hend
        exact (hfailed hend).elim
  | readNoncePrefix key filled short =>
      cases hnext
      refine readExact_ind (¬ EndsWell (Pump.next aead) ·) ?_ ?_ ?_
      · intro data short
        exact not_endsWell_of_reads ⟨_, _, rfl⟩
      · intro noncePrefix
        exact not_endsWell_of_reads ⟨_, _, rfl⟩
      · intro hend
        exact (hfailed hend).elim
  | readLength stream current filled short =>
      cases hnext
      refine readExact_ind (¬ EndsWell (Pump.next aead) ·) ?_ ?_ ?_
      · intro data short
        exact not_endsWell_of_reads ⟨_, _, rfl⟩
      · intro lenBuf
        exact not_endsWell_gotLength
      · intro hend
        exact (hfailed hend).elim
  | readBody stream current len filled short =>
      cases hnext
      refine readExact_ind (¬ EndsWell (Pump.next aead) ·) ?_ ?_ ?_
      · intro data short
        exact not_endsWell_of_reads ⟨_, _, rfl⟩
      · intro frame
        exact not_endsWell_gotFrame
      · intro hend
        exact (hfailed hend).elim
  | ageWrite writer =>
      cases hnext
      dsimp only
      rw [if_neg hsome]
      apply not_endsWell_ageEmit
      intro writer
      exact not_endsWell_of_reads ⟨_, _, rfl⟩
  | ageRead reader =>
      rw [Pump.next] at hnext
      split at hnext
      next hread =>
        cases hnext
        intro hends
        exact hsome (hage.heeds.ends hread (endsOn_ageRead hends))
      next => cases hnext
      next => cases hnext
      next => cases hnext
      next => cases hnext

/-- A pump whose input has failed fails, unless it overlooks that. -/
theorem overlooks_of_mayEndWell (hage : age.Reliable) {pump : Pump age}
    {size : Nat} {resume : Answer IoError → Pump age} {err : IoError}
    (hnext : Pump.next aead pump = .read size resume)
    (hends : MayEndWell (Pump.next aead) (resume (.error err))) :
    pump.Overlooks aead err := by
  cases pump with
  | emit bytes broken rest => cases hnext
  | shutdown => cases hnext
  | done => cases hnext
  | failed err => cases hnext
  | readChunk stream current filled short =>
      cases hnext
      exact absurd hends not_endsOn_failed
  | readMagic key filled short =>
      cases hnext
      exact absurd hends not_endsOn_failed
  | readNoncePrefix key filled short =>
      cases hnext
      exact absurd hends not_endsOn_failed
  | readLength stream current filled short =>
      cases hnext
      rw [readExact] at hends
      split at hends
      next hkind =>
        match current, short with
        | none, short => exact absurd hends (not_endsOn_headless trivial)
        | some none, short => exact absurd hends (not_endsOn_headless trivial)
        | some (some frame), short =>
            refine ⟨hkind, ?_⟩
            cases hplain : stream.decryptLast aead frame with
            | none =>
                rw [Pump.gotFrame, hplain] at hends
                exact absurd hends not_endsOn_failed
            | some plain => rfl
      next => exact absurd hends not_endsOn_failed
  | readBody stream current len filled short =>
      cases hnext
      exact absurd hends not_endsOn_failed
  | ageWrite writer =>
      cases hnext
      exact absurd hends not_endsOn_failed
  | ageRead reader =>
      rw [Pump.next] at hnext
      split at hnext
      next hread =>
        cases hnext
        exact hage.heeds.fails hread (endsOn_ageRead hends)
      next => cases hnext
      next => cases hnext
      next => cases hnext
      next => cases hnext

theorem heeds_pump (hage : age.Reliable) :
    Heeds (Pump.next aead : Pump age → _) (Pump.Overlooks aead) where
  ends hnext hends := by
    by_contra hsome
    exact not_endsWell_of_ready hage hnext hsome hends
  fails hnext hends := overlooks_of_mayEndWell hage hnext hends

/-- No pump ends well before it has read. -/
theorem not_endsWell_pump (hage : age.Reliable) (stage : Stage age) :
    ¬ EndsWell (Pump.next aead) stage.pump := by
  cases stage with
  | ageEncrypt recipient =>
      apply not_endsWell_ageEmit
      intro writer
      exact not_endsWell_of_reads ⟨_, _, rfl⟩
  | ageDecrypt identity =>
      intro hends
      exact hage.reads identity (endsOn_ageRead hends)
  | aesGcmEncrypt key noncePrefix =>
      rw [Stage.pump, EndsWell, endsOn_emit_iff, endsOn_emit_iff]
      exact not_endsWell_of_reads ⟨_, _, rfl⟩
  | aesGcmDecrypt key => exact not_endsWell_of_reads ⟨_, _, rfl⟩

theorem inv_applyStages (hage : age.Reliable) (stages : List (Stage age))
    {source : Reader (Pump age)} (hsource : source.Inv (Pump.next aead))
    (hfresh : ¬ source.FailureTaken) :
    (applyStages stages source).Inv (Pump.next aead) ∧
      ¬ (applyStages stages source).FailureTaken := by
  induction stages generalizing source with
  | nil => exact ⟨hsource, hfresh⟩
  | cons stage stages ih =>
      obtain ⟨hinv, hgone⟩ := inv_pumpReader stage.bufBytes
        (not_endsWell_pump hage stage) hsource hfresh
      exact ih hinv hgone

end Laws

section Streams

/-- The stages over a source, before anything is read. -/
def opened (stages : List (Stage age)) (answers : List (Answer IoError)) :
    Stream (Pump age) :=
  ⟨applyStages stages (.source answers), []⟩

/-- In every run whose steps meet the conditions, the consumer is given what the
outermost pump has written, then the end of the file only with the result of
every pump, and an error only from a pump that has failed. -/
theorem endsTruly_of_stepsMeet (hage : age.Reliable) {stages : List (Stage age)}
    (hstages : stages ≠ []) {answers : List (Answer IoError)}
    {labels : List Label} {st : Stream (Pump age)}
    (hmeet : StepsMeet (step (Pump.next aead))
      (Stream.Meets (Pump.next aead) (Pump.Overlooks aead))
      (opened stages answers) labels)
    (hrun : run (step (Pump.next aead)) (opened stages answers) labels =
      some st) : ∃ me input, st.EndsTruly me input := by
  obtain ⟨front, stage, rfl⟩ :=
    (List.eq_nil_or_concat stages).resolve_left hstages
  have hsource : (Reader.source answers : Reader (Pump age)).Inv
      (Pump.next aead) := trivial
  obtain ⟨hinput, hfresh⟩ := inv_applyStages hage front hsource id
  obtain ⟨hsound, -⟩ := inv_pumpReader stage.bufBytes
    (not_endsWell_pump hage stage) hinput hfresh
  have hopened : opened (front ++ [stage]) answers =
      ⟨pumpReader stage.bufBytes stage.pump
        (applyStages front (.source answers)), []⟩ := by
    rw [opened, applyStages, List.foldl_append]
    rfl
  rw [List.concat_eq_append, hopened] at hmeet hrun
  exact endsTruly_of_run (heeds_pump hage) hsound hmeet hrun

end Streams

section Runs

variable {next : Pump age → Act IoError (Pump age)}
  {overlooks : Pump age → IoError → Prop} {me : PumpReader (Pump age)}
  {input : Reader (Pump age)}

/-- An age library whose identities open nothing: the reader looks for a header
until its input ends. -/
def headerlessAge : Age where
  Recipient := Empty
  Identity := Unit
  Writer := Empty
  Reader := Option IoError
  wrapOutput := nofun
  write := nofun
  close := nofun
  decryptor _ := none
  next
    | none => .read 8192 fun
        | .error err => some err
        | .ready bytes =>
            if bytes = [] then some (.other "Header is invalid") else none
    | some err => .finish (.error err)

theorem reliable_headerlessAge : headerlessAge.Reliable := by
  have hnever : ∀ kind reader, ¬ EndsOn headerlessAge.next kind reader := by
    intro kind reader
    refine not_endsOn_of_invariant (fun _ => True) ?_ ?_ ?_ ?_ trivial
    · intro reader _ hnext
      cases reader <;> cases hnext
    · intros
      trivial
    · intros
      trivial
    · intros
      trivial
  exact ⟨fun identity => hnever _ _, fun _ hends => absurd hends (hnever _ _),
    fun _ hends => absurd hends (hnever _ _)⟩

/-- A cipher that marks the place of a frame, and whether it is the last. -/
def placeTag (position : Nat) (last : Bool) : List UInt8 :=
  (if last then 1 else 0) :: bigEndian 15 position

def placeCipher : Aead where
  encrypt _ _ position last payload := payload ++ placeTag position last
  decrypt _ _ position last frame :=
    let payload := frame.take (frame.length - TAG_LEN)
    if frame = payload ++ placeTag position last then some payload else none
  length_encrypt := by
    intro _ _ position last payload
    rw [List.length_append, placeTag, List.length_cons, length_bigEndian]
    rfl

theorem not_overlooks_source {answers : List (Answer IoError)} :
    ¬ me.Overlooks next overlooks (.source answers) := by
  rintro ⟨pump, size, resume, below, rest, err, -, -, hinput, -⟩
  cases hinput

theorem not_overlooks_of_next
    (hnext : ∀ pump size resume, me.task = .running pump →
      next pump ≠ .read size resume) :
    ¬ me.Overlooks next overlooks input := by
  rintro ⟨pump, size, resume, below, rest, err, htask, hread, -⟩
  exact hnext pump size resume htask hread

def emptyStages : List (Stage headerlessAge) :=
  [.aesGcmDecrypt [], .ageDecrypt ()]

def emptyLabels : List Label :=
  [.run 1, .run 1, .run 1, .run 0, .run 0, .run 0, .poll 4096]

/-- An empty source under two decrypting stages. -/
theorem endsTruly_emptySource :
    ∃ st, run (step (Pump.next placeCipher))
        (opened emptyStages []) emptyLabels = some st ∧
      SeenError st.seen ∧ ∃ me input, st.EndsTruly me input := by
  obtain ⟨st, hst⟩ : ∃ st, run (step (Pump.next placeCipher))
      (opened emptyStages []) emptyLabels = some st := ⟨_, rfl⟩
  have hseen := congrArg (Option.map Stream.seen) hst
  refine ⟨st, hst, ?_, endsTruly_of_stepsMeet placeCipher
    reliable_headerlessAge (List.cons_ne_nil _ _) ?_ hst⟩
  · have hthere : (some [(4096, Answer.error (IoError.other "early eof"))] :
        Option (List (Nat × Answer IoError))) = some st.seen := hseen
    rw [← Option.some.inj hthere]
    exact ⟨4096, _, List.mem_singleton.mpr rfl⟩
  · refine ⟨not_overlooks_source, fun _ hstep => ?_⟩
    cases hstep
    refine ⟨not_overlooks_source, fun _ hstep => ?_⟩
    cases hstep
    refine ⟨not_overlooks_source, fun _ hstep => ?_⟩
    cases hstep
    refine ⟨?_, fun _ hstep => ?_⟩
    · rintro ⟨pump, size, resume, below, rest, err, htask, -, hinput, -, -,
        hfailure, hoverlooked⟩
      cases htask
      cases hinput
      cases hfailure
      cases hoverlooked
    cases hstep
    refine ⟨not_overlooks_of_next ?_, fun _ hstep => ?_⟩
    · intro pump size resume htask hnext
      cases htask
      cases hnext
    cases hstep
    refine ⟨not_overlooks_of_next ?_, fun _ hstep => ?_⟩
    · intro pump size resume htask
      cases htask
    cases hstep
    refine ⟨⟨?_, ?_⟩, fun _ _ => trivial⟩
    · rintro ⟨hhandle, -⟩
      cases hhandle
    · intro hzero
      cases hzero

def cutStages : List (Stage headerlessAge) :=
  [.aesGcmDecrypt [], .aesGcmDecrypt []]

/-- A stream of one last frame. -/
def outerBytes : List UInt8 :=
  MAGIC ++ List.replicate 7 0 ++ encodeFrame ([42] ++ placeTag 0 true)

/-- The stream in a frame, another frame behind it, and the length of a third
one that is missing. -/
def innerBytes : List UInt8 :=
  MAGIC ++ List.replicate 7 0 ++ encodeFrame (outerBytes ++ placeTag 0 false) ++
    encodeFrame ([43] ++ placeTag 1 false) ++ bigEndian 4 17

/-- The inner pump goes on until it has failed, the outer one until it has
finished, and the consumer reads twice. -/
def cutLabels : List Label :=
  List.replicate 13 (.run 1) ++ List.replicate 11 (.run 0) ++
    [.poll 4096, .poll 4096]

def Reader.failures {σ : Type} : Reader σ → List (Option IoError)
  | .source _ => []
  | .pump me input => me.failure :: input.failures

theorem failures_of_allOk {σ : Type} {reader : Reader σ} (hall : reader.AllOk) :
    ∀ failure ∈ reader.failures, failure = none := by
  induction reader with
  | source answers => nofun
  | pump me input ih =>
      intro failure hmem
      rcases List.mem_cons.mp hmem with rfl | hmem
      · have hok : me.task = .ended (.returned (.ok ())) := hall.1
        rw [PumpReader.failure, hok]
      · exact ih hall.2 failure hmem

/-- The inner of two decrypting pumps fails in the body of a frame, and the
consumer sees the end of the file. -/
theorem eof_of_failed_pump :
    ∃ st, run (step (Pump.next placeCipher))
        (opened cutStages [.ready innerBytes]) cutLabels = some st ∧
      st.seen = [(4096, .ready [42]), (4096, .ready [])] ∧
      st.reader.failures = [none, some ⟨.unexpectedEof, "early eof"⟩] ∧
      ¬ ∃ me input, st.EndsTruly me input := by
  obtain ⟨st, hst⟩ : ∃ st, run (step (Pump.next placeCipher))
      (opened cutStages [.ready innerBytes]) cutLabels = some st := ⟨_, rfl⟩
  have hseen := congrArg (Option.map Stream.seen) hst
  have hfailures := congrArg (Option.map fun st => st.reader.failures) hst
  have hseen : some [(4096, Answer.ready [42]), (4096, Answer.ready [])] =
    some st.seen := hseen
  have hfailures : some [none, some ⟨.unexpectedEof, "early eof"⟩] =
    some st.reader.failures := hfailures
  have hseen := (Option.some.inj hseen).symm
  have hfailures := (Option.some.inj hfailures).symm
  refine ⟨st, hst, hseen, hfailures, ?_⟩
  rintro ⟨me, input, htruly⟩
  have heof : SeenEof st.seen := by
    rw [hseen]
    exact ⟨4096, by decide, by simp⟩
  have hall := failures_of_allOk (htruly.eof heof).2.2
  rw [hfailures] at hall
  have hnone := hall _ (List.mem_cons_of_mem _ (List.mem_singleton.mpr rfl))
  cases hnone

end Runs

end Crypto

end XBackup
