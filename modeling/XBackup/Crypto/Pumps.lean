/-
The pumps of the encrypting and decrypting stages, from one wait for the input
or the sink to the next.
-/
import XBackup.Crypto.AesGcm
import XBackup.Crypto.PumpReader

namespace XBackup

namespace Crypto

open Bytes Coroutines

/-- What the pumps use of the age library. A decrypting reader reads its input,
and what it writes is the plaintext. -/
structure Age where
  Recipient : Type
  Identity : Type
  Writer : Type
  Reader : Type
  /-- What is written first, and the writer or the reason why there is none. -/
  wrapOutput : Recipient → List UInt8 × Except String Writer
  write : Writer → List UInt8 → List UInt8 × Except String Writer
  close : Writer → List UInt8 × Except String Unit
  decryptor : Identity → Reader
  next : Reader → Act IoError Reader

def Fault.ioError : Fault → IoError
  | .encryptNext => .other "AES-GCM encrypt_next 실패: aead::Error"
  | .frameTooLong => .other "프레임 길이 초과(u32)"
  | .magicMismatch => .other "AES-GCM 매직 불일치(포맷·키 오류)"
  | .noFrame => .other "AES-GCM 프레임 없음(잘린 입력)"
  | .frameLength len => .other ("AES-GCM 프레임 길이 비정상: " ++ toString len)
  | .decryptNext => .other "AES-GCM decrypt_next 실패(변조/키 오류)"
  | .decryptLast => .other "AES-GCM decrypt_last 실패(변조/키 오류)"
  | .unexpectedEof => ⟨.unexpectedEof, "early eof"⟩

/-- Where a pump stands. A read of a fixed number of bytes has some of them, and
misses at least one. -/
inductive Pump (age : Age) where
  /-- `write_all`, and what comes behind it. -/
  | emit (bytes : List UInt8) (broken : IoError) (rest : Pump age)
  | shutdown
  | done
  | failed (err : IoError)
  /-- The first chunk is read where there is no current one. -/
  | readChunk (stream : EncryptorBE32) (current : Option (List UInt8))
      (filled : List UInt8) (short : filled.length < CHUNK_SIZE)
  | readMagic (key filled : List UInt8) (short : filled.length < 8)
  | readNoncePrefix (key filled : List UInt8)
      (short : filled.length < NONCE_PREFIX_LEN)
  /-- The first frame is read where nothing is current; a frame that is current
  may be found to be none. -/
  | readLength (stream : DecryptorBE32) (current : Option (Option (List UInt8)))
      (filled : List UInt8) (short : filled.length < 4)
  | readBody (stream : DecryptorBE32) (current : Option (Option (List UInt8)))
      (len : Nat) (filled : List UInt8) (short : filled.length < len)
  | ageWrite (writer : age.Writer)
  | ageRead (reader : age.Reader)

/-- A poll of `read_exact`, which wants some bytes and has the first of them. -/
def readExact {α : Type} (wanted : Nat) (filled : List UInt8)
    (more : (data : List UInt8) → data.length < wanted → α)
    (full : List UInt8 → α) (failed : IoError → α) : Answer IoError → α
  | .error err => failed err
  | .ready bytes =>
      if bytes = [] then failed Fault.unexpectedEof.ioError
      else if short : (filled ++ bytes).length < wanted then
        more (filled ++ bytes) short
      else full (filled ++ bytes)

section AesGcm

variable {age : Age} (aead : Aead)

def Pump.writeFrame (frame : List UInt8) (rest : Pump age) : Pump age :=
  match Crypto.writeFrame frame with
  | .error fault => .failed fault.ioError
  | .ok bytes => .emit bytes brokenPipe rest

/-- A chunk has been read: the one before it is sealed, and is the last one if
this one is empty. -/
def Pump.gotChunk (stream : EncryptorBE32) (current : Option (List UInt8))
    (chunk : List UInt8) : Pump age :=
  match current with
  | none => .readChunk stream (some chunk) [] (by decide)
  | some current =>
      if chunk = [] then
        .writeFrame (stream.encryptLast aead current).1 .shutdown
      else
        match stream.encryptNext aead current with
        | none => .failed Fault.encryptNext.ioError
        | some (frame, stream) =>
            .writeFrame frame (.readChunk stream (some chunk) [] (by decide))

/-- A frame has been read, or none: the one before it is opened. -/
def Pump.gotFrame (stream : DecryptorBE32)
    (current : Option (Option (List UInt8))) (frame : Option (List UInt8)) :
    Pump age :=
  match current with
  | none => .readLength stream (some frame) [] (by decide)
  | some none => .failed Fault.noFrame.ioError
  | some (some current) =>
      match frame with
      | none =>
          match stream.decryptLast aead current with
          | none => .failed Fault.decryptLast.ioError
          | some plain => .emit plain brokenPipe .shutdown
      | some frame =>
          match stream.decryptNext aead current with
          | none => .failed Fault.decryptNext.ioError
          | some (plain, stream) =>
              .emit plain brokenPipe
                (.readLength stream (some (some frame)) [] (by decide))

/-- A length has been read. -/
def Pump.gotLength (stream : DecryptorBE32)
    (current : Option (Option (List UInt8))) (lenBuf : List UInt8) : Pump age :=
  let len := ofBigEndian lenBuf
  if hlen : TAG_LEN ≤ len ∧ len ≤ CHUNK_SIZE + TAG_LEN then
    .readBody stream current len []
      (Nat.lt_of_lt_of_le (by decide : 0 < TAG_LEN) hlen.1)
  else .failed (Fault.frameLength len).ioError

end AesGcm

section Age

variable {age : Age}

/-- The chunk in which the age pumps read. -/
def PUMP_CHUNK : Nat := 64 * 1024

/-- Bytes that age has written, and what it makes of its sink's refusal. -/
def Pump.ageEmit {α : Type} (written : List UInt8 × Except String α)
    (rest : α → Pump age) : Pump age :=
  .emit written.1 (.other brokenPipe.message)
    (match written.2 with
      | .error message => .failed (.other message)
      | .ok value => rest value)

end Age

variable {age : Age} (aead : Aead)

def Pump.next : Pump age → Act IoError (Pump age)
  | .emit bytes broken rest => .write bytes broken rest
  | .shutdown => .shutdown .done
  | .done => .finish (.ok ())
  | .failed err => .finish (.error err)
  | .readChunk stream current filled _ =>
      .read (CHUNK_SIZE - filled.length) fun
        | .error err => .failed err
        | .ready bytes =>
            if bytes = [] then .gotChunk aead stream current filled
            else if short : (filled ++ bytes).length < CHUNK_SIZE then
              .readChunk stream current (filled ++ bytes) short
            else .gotChunk aead stream current (filled ++ bytes)
  | .readMagic key filled _ =>
      .read (8 - filled.length) (readExact 8 filled (.readMagic key)
        (fun magic =>
          if magic ≠ MAGIC then .failed Fault.magicMismatch.ioError
          else .readNoncePrefix key [] (by decide))
        .failed)
  | .readNoncePrefix key filled _ =>
      .read (NONCE_PREFIX_LEN - filled.length)
        (readExact NONCE_PREFIX_LEN filled (.readNoncePrefix key)
          (fun noncePrefix =>
            .readLength ⟨key, noncePrefix, 0⟩ none [] (by decide))
          .failed)
  | .readLength stream current filled _ =>
      .read (4 - filled.length) (readExact 4 filled (.readLength stream current)
        (.gotLength stream current)
        (fun err =>
          -- meant for the end of the input between two frames
          if err.kind = .unexpectedEof then .gotFrame aead stream current none
          else .failed err))
  | .readBody stream current len filled _ =>
      .read (len - filled.length)
        (readExact len filled (.readBody stream current len)
          (fun frame => .gotFrame aead stream current (some frame)) .failed)
  | .ageWrite writer =>
      .read PUMP_CHUNK fun
        | .error err => .failed err
        | .ready bytes =>
            if bytes = [] then
              .ageEmit (age.close writer) fun _ => .shutdown
            else .ageEmit (age.write writer bytes) .ageWrite
  | .ageRead reader =>
      match age.next reader with
      | .read size resume => .read size fun answer => .ageRead (resume answer)
      | .write bytes _ rest => .write bytes brokenPipe (.ageRead rest)
      | .shutdown rest => .shutdown (.ageRead rest)
      | .finish (.ok ()) => .shutdown .done
      | .finish (.error err) => .finish (.error (.other err.message))

def AES_GCM_DUPLEX_BUF_BYTES : Nat := CHUNK_SIZE + 64

def AGE_DUPLEX_BUF_BYTES : Nat := 64 * 1024

/-- The stages that are built on `pumpReader`; the nonce prefix of an encryption
is what was drawn for it. -/
inductive Stage (age : Age) where
  | ageEncrypt (recipient : age.Recipient)
  | ageDecrypt (identity : age.Identity)
  | aesGcmEncrypt (key noncePrefix : List UInt8)
  | aesGcmDecrypt (key : List UInt8)

def Stage.pump : Stage age → Pump age
  | .ageEncrypt recipient => .ageEmit (age.wrapOutput recipient) .ageWrite
  | .ageDecrypt identity => .ageRead (age.decryptor identity)
  | .aesGcmEncrypt key noncePrefix =>
      .emit MAGIC brokenPipe (.emit noncePrefix brokenPipe
        (.readChunk ⟨key, noncePrefix, 0, []⟩ none [] (by decide)))
  | .aesGcmDecrypt key => .readMagic key [] (by decide)

def Stage.bufBytes : Stage age → Nat
  | .ageEncrypt _ => AGE_DUPLEX_BUF_BYTES
  | .ageDecrypt _ => AGE_DUPLEX_BUF_BYTES
  | .aesGcmEncrypt _ _ => AES_GCM_DUPLEX_BUF_BYTES
  | .aesGcmDecrypt _ => AES_GCM_DUPLEX_BUF_BYTES

def Stage.wrap (stage : Stage age) (input : Reader (Pump age)) :
    Reader (Pump age) :=
  pumpReader stage.bufBytes stage.pump input

/-- `StageStack::apply`: the later a stage was pushed, the later it applies. -/
def applyStages (stages : List (Stage age)) (source : Reader (Pump age)) :
    Reader (Pump age) :=
  stages.foldl (fun reader stage => stage.wrap reader) source

end Crypto

end XBackup
