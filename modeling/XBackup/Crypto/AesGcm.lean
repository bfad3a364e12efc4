/-
AES-256-GCM in a stream of chunks: the plaintext is sealed chunk by chunk, and
the last frame says that it is the last.
-/
import XBackup.Foundation.Bytes
import XBackup.Foundation.SplitReads

namespace XBackup

namespace Crypto

open Bytes SplitReads

def MAGIC : List UInt8 := utf8 "XBAESG01"

def NONCE_PREFIX_LEN : Nat := 7

def CHUNK_SIZE : Nat := 64 * 1024

def TAG_LEN : Nat := 16

/-- The counter of STREAM-BE32, which stops one before the end. -/
def COUNTER_MAX : Nat := 2 ^ 32 - 1

/-- The cipher under a key: what it makes of a chunk at a place of a stream,
which is longer by the tag, and what it finds in a frame there. -/
structure Aead where
  encrypt : (key noncePrefix : List UInt8) → (position : Nat) → (last : Bool) →
    (payload : List UInt8) → List UInt8
  decrypt : (key noncePrefix : List UInt8) → (position : Nat) → (last : Bool) →
    (frame : List UInt8) → Option (List UInt8)
  length_encrypt : ∀ key noncePrefix position last payload,
    (encrypt key noncePrefix position last payload).length =
      payload.length + TAG_LEN

/-- A frame that an encryptor has produced. -/
structure Sealed where
  key : List UInt8
  noncePrefix : List UInt8
  position : Nat
  last : Bool
  payload : List UInt8
  frame : List UInt8
deriving DecidableEq, Repr

/-- The cipher opens what was produced under the key, at the place it was
produced for, and nothing else. -/
def Aead.Ideal (aead : Aead) (key : List UInt8) (produced : List Sealed) :
    Prop :=
  ∀ noncePrefix position last frame payload,
    aead.decrypt key noncePrefix position last frame = some payload ↔
      ⟨key, noncePrefix, position, last, payload, frame⟩ ∈ produced

inductive Fault where
  | encryptNext
  | frameTooLong
  | magicMismatch
  | noFrame
  | frameLength (len : Nat)
  | decryptNext
  | decryptLast
  | unexpectedEof
deriving DecidableEq, Repr

/-- What a pump has written to its sink, and how it ended. -/
structure Pumped (α : Type) where
  written : List UInt8
  result : Except Fault α

def Pumped.behind {α : Type} (bytes : List UInt8) (pumped : Pumped α) :
    Pumped α :=
  { pumped with written := bytes ++ pumped.written }

/-- Fills up to `CHUNK_SIZE` bytes; fewer at the end of the input. -/
def readExactChunk (input : Source) : List UInt8 × Source :=
  input.fill CHUNK_SIZE

def encodeFrame (frame : List UInt8) : List UInt8 :=
  bigEndian 4 frame.length ++ frame

def writeFrame (frame : List UInt8) : Except Fault (List UInt8) :=
  if frame.length < 2 ^ 32 then .ok (encodeFrame frame)
  else .error .frameTooLong

/-- The frame at the start of the input; none at its end, which is also found
where fewer bytes are left than a length has. -/
def readFrame (input : Source) : Except Fault (Option (List UInt8 × Source)) :=
  match input.readExact 4 with
  | none => .ok none
  | some (head, input) =>
      let len := ofBigEndian head
      if TAG_LEN ≤ len ∧ len ≤ CHUNK_SIZE + TAG_LEN then
        match input.readExact len with
        | none => .error .unexpectedEof
        | some (frame, input) => .ok (some (frame, input))
      else .error (.frameLength len)

/-- A stream that seals; `produced` is what it has sealed until now. -/
structure EncryptorBE32 where
  key : List UInt8
  noncePrefix : List UInt8
  position : Nat
  produced : List Sealed

/-- A stream that opens what was sealed. -/
structure DecryptorBE32 where
  key : List UInt8
  noncePrefix : List UInt8
  position : Nat

variable (aead : Aead)

def EncryptorBE32.sealWith (stream : EncryptorBE32) (last : Bool)
    (payload : List UInt8) : Sealed where
  key := stream.key
  noncePrefix := stream.noncePrefix
  position := stream.position
  last := last
  payload := payload
  frame := aead.encrypt stream.key stream.noncePrefix stream.position last payload

def EncryptorBE32.encryptNext (stream : EncryptorBE32)
    (payload : List UInt8) : Option (List UInt8 × EncryptorBE32) :=
  if stream.position = COUNTER_MAX then none
  else
    let made := stream.sealWith aead false payload
    some (made.frame, { stream with
      position := stream.position + 1
      produced := stream.produced ++ [made] })

def EncryptorBE32.encryptLast (stream : EncryptorBE32)
    (payload : List UInt8) : List UInt8 × List Sealed :=
  let made := stream.sealWith aead true payload
  (made.frame, stream.produced ++ [made])

def DecryptorBE32.decryptNext (stream : DecryptorBE32)
    (frame : List UInt8) : Option (List UInt8 × DecryptorBE32) :=
  if stream.position = COUNTER_MAX then none
  else
    (aead.decrypt stream.key stream.noncePrefix stream.position false frame).map
      fun plain => (plain, { stream with position := stream.position + 1 })

def DecryptorBE32.decryptLast (stream : DecryptorBE32)
    (frame : List UInt8) : Option (List UInt8) :=
  aead.decrypt stream.key stream.noncePrefix stream.position true frame

theorem readExactChunk_shrinks {input : Source}
    (hnext : (readExactChunk input).1 ≠ []) :
    (readExactChunk input).2.bytes.length < input.bytes.length := by
  have hsize : 0 < CHUNK_SIZE := by decide
  rw [readExactChunk, fill_bytes] at hnext
  have hsome : input.bytes ≠ [] := by
    intro hnil
    exact hnext (by rw [hnil, List.take_nil])
  have hlength := List.length_pos_iff.mpr hsome
  rw [readExactChunk, fill_rest, List.length_drop]
  omega

/-- The loop of `pumpEncrypt`: a chunk is the last one if no other follows. -/
def encryptLoop (stream : EncryptorBE32) (current : List UInt8)
    (input : Source) : Pumped (List Sealed) :=
  let next := (readExactChunk input).1
  let rest := (readExactChunk input).2
  if next = [] then
    let (frame, produced) := stream.encryptLast aead current
    match writeFrame frame with
    | .error err => ⟨[], .error err⟩
    | .ok bytes => ⟨bytes, .ok produced⟩
  else
    match stream.encryptNext aead current with
    | none => ⟨[], .error .encryptNext⟩
    | some (frame, stream) =>
        match writeFrame frame with
        | .error err => ⟨[], .error err⟩
        | .ok bytes => (encryptLoop stream next rest).behind bytes
termination_by input.bytes.length
decreasing_by
  exact readExactChunk_shrinks ‹_›

def pumpEncrypt (key noncePrefix : List UInt8) (input : Source) :
    Pumped (List Sealed) :=
  let current := (readExactChunk input).1
  let rest := (readExactChunk input).2
  (encryptLoop aead ⟨key, noncePrefix, 0, []⟩ current rest).behind
    (MAGIC ++ noncePrefix)

theorem readFrame_shrinks {input rest : Source} {frame : List UInt8}
    (hread : readFrame input = .ok (some (frame, rest))) :
    rest.bytes.length < input.bytes.length := by
  rw [readFrame] at hread
  split at hread
  next => cases hread
  next head more hhead =>
    obtain ⟨hbytes, hfour⟩ := readExact_eq_some hhead
    simp only at hread
    split at hread
    next =>
      split at hread
      next => cases hread
      next body tail hbody =>
        cases hread
        have hmore := (readExact_eq_some hbody).1
        rw [hbytes, hmore, List.length_append, List.length_append]
        omega
    next => cases hread

/-- The loop of `pumpDecrypt`: a frame is the last one if no other follows. -/
def decryptLoop (stream : DecryptorBE32) (frame : List UInt8)
    (input : Source) : Pumped Unit :=
  match _hread : readFrame input with
  | .error err => ⟨[], .error err⟩
  | .ok none =>
      match stream.decryptLast aead frame with
      | none => ⟨[], .error .decryptLast⟩
      | some plain => ⟨plain, .ok ()⟩
  | .ok (some (next, rest)) =>
      match stream.decryptNext aead frame with
      | none => ⟨[], .error .decryptNext⟩
      | some (plain, stream) => (decryptLoop stream next rest).behind plain
termination_by input.bytes.length
decreasing_by exact readFrame_shrinks _hread

section Loop

variable {aead} {stream : DecryptorBE32} {frame next : List UInt8}
  {input rest : Source} {err : Fault}

theorem decryptLoop_of_error (hread : readFrame input = .error err) :
    decryptLoop aead stream frame input = ⟨[], .error err⟩ := by
  rw [decryptLoop]
  split
  next hfound =>
    rw [hread] at hfound
    cases hfound
    rfl
  next hfound => rw [hread] at hfound; cases hfound
  next hfound => rw [hread] at hfound; cases hfound

theorem decryptLoop_of_end (hread : readFrame input = .ok none) :
    decryptLoop aead stream frame input =
      match stream.decryptLast aead frame with
      | none => ⟨[], .error .decryptLast⟩
      | some plain => ⟨plain, .ok ()⟩ := by
  rw [decryptLoop]
  split
  next hfound => rw [hread] at hfound; cases hfound
  next => rfl
  next hfound => rw [hread] at hfound; cases hfound

theorem decryptLoop_of_frame (hread : readFrame input = .ok (some (next, rest))) :
    decryptLoop aead stream frame input =
      match stream.decryptNext aead frame with
      | none => ⟨[], .error .decryptNext⟩
      | some (plain, stream) =>
          (decryptLoop aead stream next rest).behind plain := by
  rw [decryptLoop]
  split
  next hfound => rw [hread] at hfound; cases hfound
  next hfound => rw [hread] at hfound; cases hfound
  next hfound =>
    rw [hread] at hfound
    cases hfound
    rfl

end Loop

def pumpDecrypt (key : List UInt8) (input : Source) : Pumped Unit :=
  match input.readExact 8 with
  | none => ⟨[], .error .unexpectedEof⟩
  | some (magic, input) =>
      if magic ≠ MAGIC then ⟨[], .error .magicMismatch⟩
      else
        match input.readExact NONCE_PREFIX_LEN with
        | none => ⟨[], .error .unexpectedEof⟩
        | some (noncePrefix, input) =>
            match readFrame input with
            | .error err => ⟨[], .error err⟩
            | .ok none =>
                -- the code reads once more before it finds that there is none
                ⟨[], .error .noFrame⟩
            | .ok (some (frame, input)) =>
                decryptLoop aead ⟨key, noncePrefix, 0⟩ frame input

end Crypto

end XBackup
