/-
Readers over pipes: the task behind a pipe pumps what it makes of its input, and
the reader asks for the task's result before it reports the end of the file.
-/
import XBackup.Foundation.Coroutines
import XBackup.Foundation.Transition

namespace XBackup

namespace Crypto

open Coroutines Transition

inductive ErrorKind where
  | unexpectedEof
  | brokenPipe
  | interrupted
  | other
  /-- A kind that no pump makes or looks for. -/
  | named (name : String)
deriving DecidableEq

structure IoError where
  kind : ErrorKind
  message : String
deriving DecidableEq

def IoError.other (message : String) : IoError := ⟨.other, message⟩

def brokenPipe : IoError := ⟨.brokenPipe, "broken pipe"⟩

/-- A pipe: what was written to it and not read yet. It is closed when one of
its ends is dropped or its writer is shut down. -/
structure Duplex where
  maxBufSize : Nat
  buffer : List UInt8
  isClosed : Bool
  /-- All that was written until now. -/
  written : List UInt8

def duplex (maxBufSize : Nat) : Duplex := ⟨maxBufSize, [], false, []⟩

def Duplex.close (pipe : Duplex) : Duplex := { pipe with isClosed := true }

/-- None if the read has to wait. -/
def Duplex.pollRead (pipe : Duplex) (size : Nat) :
    Option (List UInt8 × Duplex) :=
  if pipe.buffer ≠ [] then
    some (pipe.buffer.take size, { pipe with buffer := pipe.buffer.drop size })
  else if pipe.isClosed then some ([], pipe)
  else none

/-- How much of the bytes an open pipe takes; none if the write has to wait. -/
def Duplex.pollWrite (pipe : Duplex) (bytes : List UInt8) :
    Option (Nat × Duplex) :=
  let available := pipe.maxBufSize - pipe.buffer.length
  if available = 0 then none
  else
    let len := min bytes.length available
    some (len, { pipe with
      buffer := pipe.buffer ++ bytes.take len
      written := pipe.written ++ bytes.take len })

/-- How a task has ended: with what its pump returned, or without a result. -/
inductive Outcome where
  | returned (result : Except IoError Unit)
  | aborted (joinErr : String)

/-- A task that was spawned for a pump whose states are of `σ`. -/
inductive Spawned (σ : Type) where
  | running (pump : σ)
  /-- Some bytes of a write are left. -/
  | writing (rest : List UInt8) (broken : IoError) (pump : σ)
  /-- What the pump has held is dropped, and the handle does not know it yet. -/
  | leaving (outcome : Outcome)
  | ended (outcome : Outcome)

/-- The reader of a pump; `handle` says whether the handle of its task is still
there. -/
structure PumpReader (σ : Type) where
  reader : Duplex
  task : Spawned σ
  handle : Bool

variable {σ : Type}

/-- The error of a task that has ended with none of its results. -/
def IoError.ofJoin (joinErr : String) : IoError :=
  .other ("암복호 펌프 태스크 비정상 종료: " ++ joinErr)

/-- What the handle tells where the pipe has given nothing. -/
def PumpReader.pollHandle (me : PumpReader σ) :
    Option (Answer IoError × PumpReader σ) :=
  if me.handle then
    match me.task with
    | .ended (.returned (.ok ())) =>
        some (.ready [], { me with handle := false })
    | .ended (.returned (.error err)) =>
        some (.error err, { me with handle := false })
    | .ended (.aborted joinErr) =>
        some (.error (.ofJoin joinErr), { me with handle := false })
    | _ => none
  else some (.ready [], me)

def PumpReader.pollRead (me : PumpReader σ) (size : Nat) :
    Option (Answer IoError × PumpReader σ) :=
  match me.reader.pollRead size with
  | none => none
  | some (bytes, reader) =>
      if bytes ≠ [] then some (.ready bytes, { me with reader := reader })
      else pollHandle { me with reader := reader }

/-- A stack of readers: a source with the answers it will give, or the reader of
a pump with the input of the pump. -/
inductive Reader (σ : Type) where
  | source (answers : List (Answer IoError))
  | pump (me : PumpReader σ) (input : Reader σ)

def pumpReader (bufBytes : Nat) (pump : σ) (input : Reader σ) : Reader σ :=
  .pump ⟨duplex bufBytes, .running pump, true⟩ input

/-- The source gives no more than was asked for, and at last the end. -/
def Reader.pollRead : Reader σ → Nat → Option (Answer IoError × Reader σ)
  | .source [], _ => some (.ready [], .source [])
  | .source (.error err :: answers), _ => some (.error err, .source answers)
  | .source (.ready bytes :: answers), size =>
      if bytes.length ≤ size then some (.ready bytes, .source answers)
      else some (.ready (bytes.take size),
        .source (.ready (bytes.drop size) :: answers))
  | .pump me input, size =>
      (me.pollRead size).map fun (answer, me) => (answer, .pump me input)

/-- The reader is dropped; the task of its pump goes on without it. -/
def Reader.release : Reader σ → Reader σ
  | .source answers => .source answers
  | .pump me input => .pump { me with reader := me.reader.close } input

/-- The pump is over, and drops its sink and its input. -/
def PumpReader.leave (me : PumpReader σ) (input : Reader σ)
    (outcome : Outcome) : Reader σ :=
  .pump { me with task := .leaving outcome, reader := me.reader.close }
    input.release

variable (next : σ → Act IoError σ)

/-- The task goes on to the next point where another may come between. -/
def PumpReader.run (me : PumpReader σ) (input : Reader σ) :
    Option (Reader σ) :=
  match me.task with
  | .running pump =>
      match next pump with
      | .read size resume =>
          (input.pollRead size).map fun (answer, input) =>
            .pump { me with task := .running (resume answer) } input
      | .write bytes broken rest =>
          some (.pump { me with task := .writing bytes broken rest } input)
      | .shutdown rest =>
          some (.pump { me with
            task := .running rest
            reader := me.reader.close } input)
      | .finish result => some (me.leave input (.returned result))
  | .writing rest broken pump =>
      if rest = [] then
        some (.pump { me with task := .running pump } input)
      else if me.reader.isClosed then
        some (me.leave input (.returned (.error broken)))
      else
        (me.reader.pollWrite rest).map fun (len, reader) =>
          .pump { me with
            task := .writing (rest.drop len) broken pump
            reader := reader } input
  | .leaving outcome => some (.pump { me with task := .ended outcome } input)
  | .ended _ => none

/-- The task panics or is cancelled. -/
def PumpReader.abort (me : PumpReader σ) (input : Reader σ)
    (joinErr : String) : Option (Reader σ) :=
  match me.task with
  | .running _ => some (me.leave input (.aborted joinErr))
  | .writing _ _ _ => some (me.leave input (.aborted joinErr))
  | _ => none

/-- The change is made to the pump at a depth of the stack. -/
def Reader.atDepth
    (change : PumpReader σ → Reader σ → Option (Reader σ)) :
    Nat → Reader σ → Option (Reader σ)
  | _, .source _ => none
  | 0, .pump me input => change me input
  | depth + 1, .pump me input => (input.atDepth change depth).map (.pump me)

/-- The stack, and what the consumer has asked for and been answered. -/
structure Stream (σ : Type) where
  reader : Reader σ
  seen : List (Nat × Answer IoError)

inductive Label where
  /-- The consumer polls with a buffer of a size. -/
  | poll (size : Nat)
  /-- The task of the pump at a depth goes on. -/
  | run (depth : Nat)
  | abort (depth : Nat) (joinErr : String)
  /-- The consumer drops the reader. -/
  | drop

def step (st : Stream σ) : Label → Option (Stream σ)
  | .poll size => (st.reader.pollRead size).map fun (answer, reader) =>
      ⟨reader, st.seen ++ [(size, answer)]⟩
  | .run depth => (st.reader.atDepth (PumpReader.run next) depth).map
      fun reader => { st with reader := reader }
  | .abort depth joinErr =>
      (st.reader.atDepth (fun me input => me.abort input joinErr) depth).map
        fun reader => { st with reader := reader }
  | .drop => some { st with reader := st.reader.release }

end Crypto

end XBackup
