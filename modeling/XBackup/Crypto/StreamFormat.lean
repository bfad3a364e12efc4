/-
What the stream of sealed chunks gives back: the plaintext for what was written,
and an error for nearly everything else.
-/
import XBackup.Crypto.AesGcm

namespace XBackup

namespace Crypto

open Bytes SplitReads

/-- The chunks of a plaintext: full ones and a last one, which is empty only
when there is nothing else. -/
def chunksFrom (current rest : List UInt8) : List (List UInt8) :=
  if rest = [] then [current]
  else current :: chunksFrom (rest.take CHUNK_SIZE) (rest.drop CHUNK_SIZE)
termination_by rest.length
decreasing_by
  have hlength := List.length_pos_iff.mpr ‹_›
  have hsize : 0 < CHUNK_SIZE := by decide
  rw [List.length_drop]
  omega

def chunksOf (plain : List UInt8) : List (List UInt8) :=
  chunksFrom (plain.take CHUNK_SIZE) (plain.drop CHUNK_SIZE)

theorem flatten_chunksFrom (current rest : List UInt8) :
    (chunksFrom current rest).flatten = current ++ rest := by
  induction current, rest using chunksFrom.induct with
  | case1 current => rw [chunksFrom, if_pos rfl]; rfl
  | case2 current rest hrest ih =>
      rw [chunksFrom, if_neg hrest, List.flatten_cons, ih,
        List.take_append_drop]

theorem flatten_chunksOf (plain : List UInt8) :
    (chunksOf plain).flatten = plain := by
  rw [chunksOf, flatten_chunksFrom, List.take_append_drop]

theorem length_le_of_mem_chunksFrom {current rest chunk : List UInt8}
    (hcurrent : current.length ≤ CHUNK_SIZE)
    (hchunk : chunk ∈ chunksFrom current rest) :
    chunk.length ≤ CHUNK_SIZE := by
  induction current, rest using chunksFrom.induct with
  | case1 current =>
      rw [chunksFrom, if_pos rfl] at hchunk
      rwa [List.mem_singleton.mp hchunk]
  | case2 current rest hrest ih =>
      rw [chunksFrom, if_neg hrest] at hchunk
      rcases List.mem_cons.mp hchunk with rfl | hchunk
      · exact hcurrent
      · exact ih (List.length_take_le _ _) hchunk

section Frames

variable (aead : Aead) (key noncePrefix : List UInt8)

/-- What is sealed for a chunk at a place. -/
def sealedAt (position : Nat) (last : Bool) (payload : List UInt8) : Sealed where
  key := key
  noncePrefix := noncePrefix
  position := position
  last := last
  payload := payload
  frame := aead.encrypt key noncePrefix position last payload

/-- What is sealed for the chunks that are left at a place. -/
def sealedFrom : Nat → List (List UInt8) → List Sealed
  | _, [] => []
  | position, payload :: rest =>
      sealedAt aead key noncePrefix position rest.isEmpty payload ::
        sealedFrom (position + 1) rest

def encodeFrames (produced : List Sealed) : List UInt8 :=
  produced.flatMap fun made => encodeFrame made.frame

/-- The stream of a plaintext. -/
def streamOf (plain : List UInt8) : List UInt8 :=
  MAGIC ++ noncePrefix ++
    encodeFrames (sealedFrom aead key noncePrefix 0 (chunksOf plain))

variable {aead key noncePrefix} {position start : Nat} {last : Bool}
  {payload frame : List UInt8} {chunks : List (List UInt8)}

theorem mem_sealedFrom {made : Sealed} :
    made ∈ sealedFrom aead key noncePrefix start chunks ↔
      ∃ index payload, chunks[index]? = some payload ∧
        made = sealedAt aead key noncePrefix (start + index)
          (index + 1 == chunks.length) payload := by
  induction chunks generalizing start with
  | nil => simp [sealedFrom]
  | cons first rest ih =>
      have hlast : rest.isEmpty = (0 + 1 == (first :: rest).length) := by
        cases rest <;> rfl
      have hlater : ∀ index, (index + 1 == rest.length) =
          (index + 1 + 1 == (first :: rest).length) := by
        intro index
        rw [List.length_cons, Bool.eq_iff_iff, beq_iff_eq, beq_iff_eq]
        omega
      have hplace : ∀ index, start + 1 + index = start + (index + 1) := by
        intro index
        omega
      rw [sealedFrom, List.mem_cons, ih, hlast]
      constructor
      · rintro (rfl | ⟨index, payload, hpayload, rfl⟩)
        · exact ⟨0, first, rfl, rfl⟩
        · refine ⟨index + 1, payload, hpayload, ?_⟩
          rw [hlater, hplace]
      · rintro ⟨_ | index, payload, hpayload, rfl⟩
        · cases hpayload
          exact Or.inl rfl
        · refine Or.inr ⟨index, payload, hpayload, ?_⟩
          rw [hlater, hplace]

end Frames

section Encrypting

variable {aead : Aead} {key noncePrefix : List UInt8}

theorem writeFrame_encrypt {position : Nat} {last : Bool}
    {payload : List UInt8} (hpayload : payload.length ≤ CHUNK_SIZE) :
    writeFrame (aead.encrypt key noncePrefix position last payload) =
      .ok (encodeFrame (aead.encrypt key noncePrefix position last payload)) := by
  have hsize : CHUNK_SIZE + TAG_LEN < 2 ^ 32 := by decide
  rw [writeFrame, aead.length_encrypt, if_pos (by omega)]

theorem encryptLoop_eq {position : Nat} {produced : List Sealed}
    {current rest : List UInt8} {input : Source} (hinput : input.bytes = rest)
    (hcurrent : current.length ≤ CHUNK_SIZE)
    (hcount : position + (chunksFrom current rest).length ≤ COUNTER_MAX + 1) :
    encryptLoop aead ⟨key, noncePrefix, position, produced⟩ current input =
      ⟨encodeFrames (sealedFrom aead key noncePrefix position
          (chunksFrom current rest)),
        .ok (produced ++ sealedFrom aead key noncePrefix position
          (chunksFrom current rest))⟩ := by
  induction current, rest using chunksFrom.induct
    generalizing position produced input with
  | case1 current =>
      have hnext : (readExactChunk input).1 = [] := by
        rw [readExactChunk, fill_bytes, hinput, List.take_nil]
      rw [encryptLoop, chunksFrom, if_pos rfl]
      simp only [hnext, if_true, EncryptorBE32.encryptLast,
        EncryptorBE32.sealWith, writeFrame_encrypt hcurrent]
      rw [encodeFrames, sealedFrom, sealedFrom, List.flatMap_singleton]
      rfl
  | case2 current rest hrest ih =>
      have hnext : (readExactChunk input).1 = rest.take CHUNK_SIZE := by
        rw [readExactChunk, fill_bytes, hinput]
      have hsome : rest.take CHUNK_SIZE ≠ [] := by
        intro hnil
        rcases List.take_eq_nil_iff.mp hnil with hsize | hnil
        · exact absurd hsize (by decide)
        · exact hrest hnil
      have hbytes : (readExactChunk input).2.bytes = rest.drop CHUNK_SIZE := by
        rw [readExactChunk, fill_rest, hinput]
      rw [chunksFrom, if_neg hrest, List.length_cons] at hcount
      have hmore : 0 < (chunksFrom (rest.take CHUNK_SIZE)
          (rest.drop CHUNK_SIZE)).length := by
        rw [chunksFrom]
        split <;> exact Nat.succ_pos _
      have hempty : (chunksFrom (rest.take CHUNK_SIZE)
          (rest.drop CHUNK_SIZE)).isEmpty = false :=
        List.isEmpty_eq_false_iff.mpr (List.length_pos_iff.mp hmore)
      have hposition : position ≠ COUNTER_MAX := by omega
      rw [encryptLoop, chunksFrom, if_neg hrest]
      simp only [hnext, hsome, if_false, EncryptorBE32.encryptNext, hposition,
        EncryptorBE32.sealWith, writeFrame_encrypt hcurrent]
      rw [ih hbytes (List.length_take_le _ _) (by omega), Pumped.behind,
        sealedFrom, hempty, List.append_assoc]
      rfl

/-- Whatever the pieces of the input are, its stream is written. -/
theorem pumpEncrypt_eq {input : Source}
    (hcount : (chunksOf input.bytes).length < 2 ^ 32) :
    pumpEncrypt aead key noncePrefix input =
      ⟨streamOf aead key noncePrefix input.bytes,
        .ok (sealedFrom aead key noncePrefix 0 (chunksOf input.bytes))⟩ := by
  have hlimit : COUNTER_MAX + 1 = 2 ^ 32 := by decide
  have hcurrent : (readExactChunk input).1 = input.bytes.take CHUNK_SIZE :=
    fill_bytes CHUNK_SIZE input
  have hrest : (readExactChunk input).2.bytes = input.bytes.drop CHUNK_SIZE :=
    fill_rest CHUNK_SIZE input
  rw [pumpEncrypt, hcurrent, encryptLoop_eq hrest (List.length_take_le _ _)]
  · rfl
  · rw [Nat.zero_add, hlimit]
    exact Nat.le_of_lt hcount

end Encrypting

section Reading

variable {input rest : Source} {frame tail : List UInt8}

theorem readFrame_eq_none :
    readFrame input = .ok none ↔ input.bytes.length < 4 := by
  rw [← readExact_eq_none, readFrame]
  split
  next hhead => simp only [hhead]
  next head more hhead =>
    simp only [hhead]
    split
    next => split <;> simp
    next => simp

theorem readFrame_append (hbytes : input.bytes = encodeFrame frame ++ tail)
    (hlow : TAG_LEN ≤ frame.length)
    (hhigh : frame.length ≤ CHUNK_SIZE + TAG_LEN) :
    ∃ rest, readFrame input = .ok (some (frame, rest)) ∧ rest.bytes = tail := by
  have hsize : CHUNK_SIZE + TAG_LEN < 256 ^ 4 := by decide
  rw [encodeFrame, List.append_assoc] at hbytes
  obtain ⟨more, hhead, hmore⟩ :=
    readExact_append hbytes (length_bigEndian 4 frame.length)
  obtain ⟨rest, hframe, hrest⟩ := readExact_append hmore rfl
  have hlen : ofBigEndian (bigEndian 4 frame.length) = frame.length := by
    rw [ofBigEndian_bigEndian, Nat.mod_eq_of_lt (by omega)]
  refine ⟨rest, ?_, hrest⟩
  rw [readFrame, hhead]
  simp only [hlen]
  rw [if_pos ⟨hlow, hhigh⟩, hframe]

theorem readFrame_eq_some (hread : readFrame input = .ok (some (frame, rest))) :
    input.bytes = encodeFrame frame ++ rest.bytes := by
  rw [readFrame] at hread
  split at hread
  next => cases hread
  next head more hhead =>
    obtain ⟨hbytes, hfour⟩ := readExact_eq_some hhead
    simp only at hread
    split at hread
    next =>
      split at hread
      next => cases hread
      next body last hbody =>
        cases hread
        obtain ⟨hmore, hlength⟩ := readExact_eq_some hbody
        rw [hbytes, hmore, encodeFrame, hlength, ← hfour,
          bigEndian_ofBigEndian, List.append_assoc]
    next => cases hread

end Reading

theorem drop_of_getElem? {α : Type*} {items : List α} {index : Nat} {item : α}
    (hitem : items[index]? = some item) :
    items.drop index = item :: items.drop (index + 1) := by
  obtain ⟨hlt, rfl⟩ := List.getElem?_eq_some_iff.mp hitem
  exact List.drop_eq_getElem_cons hlt

section Decrypting

variable {aead : Aead} {key noncePrefix nonce : List UInt8}
  {chunks : List (List UInt8)}

/-- The cipher opens the frames of these chunks, each at its place. -/
def Opens (aead : Aead) (key noncePrefix : List UInt8)
    (chunks : List (List UInt8)) : Prop :=
  aead.Ideal key (sealedFrom aead key noncePrefix 0 chunks)

theorem decrypt_eq_some (hopens : Opens aead key noncePrefix chunks)
    {position : Nat} {last : Bool} {frame payload : List UInt8} :
    aead.decrypt key nonce position last frame = some payload ↔
      nonce = noncePrefix ∧ chunks[position]? = some payload ∧
        last = (position + 1 == chunks.length) ∧
        frame = aead.encrypt key noncePrefix position last payload := by
  rw [hopens, mem_sealedFrom]
  constructor
  · rintro ⟨index, found, hfound, hmade⟩
    rw [Nat.zero_add] at hmade
    cases hmade
    exact ⟨rfl, hfound, rfl, rfl⟩
  · rintro ⟨rfl, hpayload, rfl, rfl⟩
    exact ⟨position, payload, hpayload, by rw [Nat.zero_add]; rfl⟩

theorem decrypt_encrypt (hopens : Opens aead key noncePrefix chunks)
    {position : Nat} {payload : List UInt8} {later : List (List UInt8)}
    (hchunks : chunks.drop position = payload :: later) :
    aead.decrypt key noncePrefix position later.isEmpty
        (aead.encrypt key noncePrefix position later.isEmpty payload) =
      some payload := by
  have hlength := congrArg List.length hchunks
  rw [List.length_drop, List.length_cons] at hlength
  refine (decrypt_eq_some hopens).mpr ⟨rfl, ?_, ?_, rfl⟩
  · rw [← List.head?_drop, hchunks]
    rfl
  · rw [Bool.eq_iff_iff, List.isEmpty_iff_length_eq_zero, beq_iff_eq]
    omega

/-- What is read of a stream that holds the frames from a place on, and behind
them less than a length. -/
theorem decryptLoop_frames (hopens : Opens aead key noncePrefix chunks)
    (hsizes : ∀ chunk ∈ chunks, chunk.length ≤ CHUNK_SIZE)
    (hcount : chunks.length ≤ COUNTER_MAX) {payload extra : List UInt8}
    (hextra : extra.length < 4) {later : List (List UInt8)} {position : Nat}
    {input : Source} (hchunks : chunks.drop position = payload :: later)
    (hinput : input.bytes = encodeFrames
      (sealedFrom aead key noncePrefix (position + 1) later) ++ extra) :
    decryptLoop aead ⟨key, noncePrefix, position⟩
        (aead.encrypt key noncePrefix position later.isEmpty payload) input =
      ⟨(payload :: later).flatten, .ok ()⟩ := by
  have hdecrypt := decrypt_encrypt hopens hchunks
  induction later generalizing payload position input with
  | nil =>
      have hend : readFrame input = .ok none := by
        rw [readFrame_eq_none, hinput]
        exact hextra
      rw [decryptLoop_of_end hend, DecryptorBE32.decryptLast]
      simp only [List.isEmpty_nil] at hdecrypt ⊢
      rw [hdecrypt, List.flatten_singleton]
  | cons next later ih =>
      have hnext : chunks.drop (position + 1) = next :: later := by
        rw [← List.drop_drop, hchunks]
        rfl
      have hsize : next.length ≤ CHUNK_SIZE := by
        apply hsizes
        apply List.mem_of_mem_drop
        rw [hnext]
        exact List.mem_cons_self
      have hlength := congrArg List.length hchunks
      rw [List.length_drop, List.length_cons, List.length_cons] at hlength
      have hposition : position ≠ COUNTER_MAX := by omega
      rw [encodeFrames, sealedFrom, List.flatMap_cons, List.append_assoc]
        at hinput
      obtain ⟨rest, hread, hrest⟩ := readFrame_append hinput
        (by rw [sealedAt, aead.length_encrypt]; omega)
        (by rw [sealedAt, aead.length_encrypt]; omega)
      rw [decryptLoop_of_frame hread, DecryptorBE32.decryptNext,
        if_neg hposition]
      simp only [List.isEmpty_cons] at hdecrypt ⊢
      simp only [hdecrypt, Option.map_some]
      rw [show (sealedAt aead key noncePrefix (position + 1) later.isEmpty
          next).frame = aead.encrypt key noncePrefix (position + 1)
            later.isEmpty next from rfl,
        ih hnext hrest (decrypt_encrypt hopens hnext)]
      rfl

/-- What the loop accepts is the rest of the stream and less than a length; and
it never writes what does not stand there. -/
theorem decryptLoop_cases (hopens : Opens aead key noncePrefix chunks)
    (stream : DecryptorBE32) (hkey : stream.key = key) (frame : List UInt8)
    (input : Source) :
    (decryptLoop aead stream frame input).written <+:
        (chunks.drop stream.position).flatten ∧
      ((∃ err, (decryptLoop aead stream frame input).result = .error err) ∨
        stream.noncePrefix = noncePrefix ∧
          ∃ extra : List UInt8, extra.length < 4 ∧
            encodeFrame frame ++ input.bytes = encodeFrames
              (sealedFrom aead key noncePrefix stream.position
                (chunks.drop stream.position)) ++ extra) := by
  induction hlength : input.bytes.length using Nat.strong_induction_on
    generalizing stream frame input with
  | _ length ih =>
      cases hread : readFrame input with
      | error err =>
          rw [decryptLoop_of_error hread]
          exact ⟨List.nil_prefix, Or.inl ⟨err, rfl⟩⟩
      | ok found =>
          rcases found with _ | ⟨next, rest⟩
          · rw [decryptLoop_of_end hread, DecryptorBE32.decryptLast, hkey]
            cases hplain : aead.decrypt key stream.noncePrefix stream.position
                true frame with
            | none => exact ⟨List.nil_prefix, Or.inl ⟨_, rfl⟩⟩
            | some plain =>
                obtain ⟨hnonce, hpayload, hlast, rfl⟩ :=
                  (decrypt_eq_some hopens).mp hplain
                have hend : chunks.drop (stream.position + 1) = [] := by
                  apply List.drop_of_length_le
                  rw [← beq_iff_eq.mp hlast.symm]
                rw [drop_of_getElem? hpayload, hend]
                refine ⟨?_, Or.inr ⟨hnonce, input.bytes,
                  readFrame_eq_none.mp hread, ?_⟩⟩
                · rw [List.flatten_singleton]
                · rw [encodeFrames, sealedFrom, sealedFrom,
                    List.flatMap_singleton]
                  rfl
          · have hbytes := readFrame_eq_some hread
            rw [decryptLoop_of_frame hread, DecryptorBE32.decryptNext, hkey]
            split
            next => exact ⟨List.nil_prefix, Or.inl ⟨_, rfl⟩⟩
            next plain opened hopened =>
              split at hopened
              next => cases hopened
              next =>
                obtain ⟨found, hplain, hfound⟩ := Option.map_eq_some_iff.mp hopened
                cases hfound
                obtain ⟨hnonce, hpayload, hlast, rfl⟩ :=
                  (decrypt_eq_some hopens).mp hplain
                have hmore : (chunks.drop (stream.position + 1)).isEmpty =
                    false := by
                  rw [List.isEmpty_eq_false_iff, ← List.length_pos_iff,
                    List.length_drop]
                  have hne := (beq_eq_false_iff_ne.mp hlast.symm)
                  have hlt := (List.getElem?_eq_some_iff.mp hpayload).1
                  omega
                obtain ⟨hwritten, hresult⟩ := ih rest.bytes.length
                  (hlength ▸ readFrame_shrinks hread)
                  ⟨key, stream.noncePrefix, stream.position + 1⟩ rfl next rest
                  rfl
                rw [drop_of_getElem? hpayload, List.flatten_cons]
                refine ⟨(List.prefix_append_right_inj plain).mpr hwritten, ?_⟩
                rcases hresult with herr | ⟨-, extra, hextra, hrest⟩
                · exact Or.inl herr
                · refine Or.inr ⟨hnonce, extra, hextra, ?_⟩
                  rw [hbytes, hrest, encodeFrames, encodeFrames, sealedFrom,
                    List.flatMap_cons, hmore, List.append_assoc]
                  rfl

end Decrypting

/-- A stream that is read gives its plaintext, and everything else an error and
no more than the start of the plaintext. -/
def ReadsExactly (aead : Aead) (key plain stream : List UInt8)
    (input : Source) : Prop :=
  (input.bytes = stream → pumpDecrypt aead key input = ⟨plain, .ok ()⟩) ∧
    (input.bytes ≠ stream →
      (∃ err, (pumpDecrypt aead key input).result = .error err) ∧
        (pumpDecrypt aead key input).written <+: plain)

/-- The stream with one to three bytes behind it. -/
def Lengthened (stream : List UInt8) (input : Source) : Prop :=
  ∃ extra : List UInt8, extra ≠ [] ∧ extra.length < 4 ∧
    input.bytes = stream ++ extra

section Streams

variable {aead : Aead} {key noncePrefix plain : List UInt8}

theorem chunksOf_eq_cons (plain : List UInt8) : ∃ payload later,
    chunksOf plain = payload :: later := by
  rw [chunksOf, chunksFrom]
  split
  next => exact ⟨_, _, rfl⟩
  next => exact ⟨_, _, rfl⟩

theorem length_le_of_mem_chunksOf {chunk : List UInt8}
    (hchunk : chunk ∈ chunksOf plain) : chunk.length ≤ CHUNK_SIZE :=
  length_le_of_mem_chunksFrom (List.length_take_le _ _) hchunk

theorem pumpDecrypt_stream
    (hopens : Opens aead key noncePrefix (chunksOf plain))
    (hnonce : noncePrefix.length = NONCE_PREFIX_LEN)
    (hcount : (chunksOf plain).length < 2 ^ 32) {input : Source}
    {extra : List UInt8} (hextra : extra.length < 4)
    (hinput : input.bytes = streamOf aead key noncePrefix plain ++ extra) :
    pumpDecrypt aead key input = ⟨plain, .ok ()⟩ := by
  have hlimit : COUNTER_MAX + 1 = 2 ^ 32 := by decide
  obtain ⟨payload, later, hchunks⟩ := chunksOf_eq_cons plain
  have hfirst : payload.length ≤ CHUNK_SIZE :=
    length_le_of_mem_chunksOf (hchunks ▸ List.mem_cons_self)
  rw [streamOf, List.append_assoc, List.append_assoc, hchunks, encodeFrames,
    sealedFrom, List.flatMap_cons, List.append_assoc] at hinput
  obtain ⟨first, hmagic, hfirstBytes⟩ :=
    readExact_append hinput (by decide +kernel : MAGIC.length = 8)
  obtain ⟨second, hprefixRead, hsecondBytes⟩ :=
    readExact_append hfirstBytes hnonce
  obtain ⟨rest, hframe, hrest⟩ := readFrame_append hsecondBytes
    (by rw [sealedAt, aead.length_encrypt]; omega)
    (by rw [sealedAt, aead.length_encrypt]; omega)
  rw [pumpDecrypt, hmagic]
  simp only [ne_eq, not_true_eq_false, if_false, hprefixRead, hframe]
  rw [← flatten_chunksOf plain, hchunks]
  exact decryptLoop_frames hopens (fun _ => length_le_of_mem_chunksOf)
    (by omega) hextra (by rw [hchunks]; rfl) hrest

theorem pumpDecrypt_cases
    (hopens : Opens aead key noncePrefix (chunksOf plain)) (input : Source) :
    (pumpDecrypt aead key input).written <+: plain ∧
      ((∃ err, (pumpDecrypt aead key input).result = .error err) ∨
        ∃ extra : List UInt8, extra.length < 4 ∧
          input.bytes = streamOf aead key noncePrefix plain ++ extra) := by
  rw [pumpDecrypt]
  split
  next => exact ⟨List.nil_prefix, Or.inl ⟨_, rfl⟩⟩
  next magic first hmagic =>
    split
    next => exact ⟨List.nil_prefix, Or.inl ⟨_, rfl⟩⟩
    next hsame =>
      split
      next => exact ⟨List.nil_prefix, Or.inl ⟨_, rfl⟩⟩
      next nonce second hnonce =>
        split
        next => exact ⟨List.nil_prefix, Or.inl ⟨_, rfl⟩⟩
        next => exact ⟨List.nil_prefix, Or.inl ⟨_, rfl⟩⟩
        next frame rest hframe =>
          obtain ⟨hwritten, hresult⟩ :=
            decryptLoop_cases hopens ⟨key, nonce, 0⟩ rfl frame rest
          rw [List.drop_zero, flatten_chunksOf] at hwritten
          refine ⟨hwritten, hresult.imp_right ?_⟩
          rintro ⟨rfl, extra, hextra, hrest⟩
          refine ⟨extra, hextra, ?_⟩
          rw [List.drop_zero] at hrest
          rw [(readExact_eq_some hmagic).1, (readExact_eq_some hnonce).1,
            readFrame_eq_some hframe, hrest, not_not.mp hsame, streamOf,
            List.append_assoc, List.append_assoc]

/-- A stream is read back however its bytes come, and nothing else is taken for
it: what a change of the stream leaves is found, unless it left the stream with
one to three bytes behind it. -/
theorem readsExactly_iff_not_lengthened {input : Source}
    (hnonce : noncePrefix.length = NONCE_PREFIX_LEN)
    (hcount : (chunksOf input.bytes).length < 2 ^ 32)
    (hideal : ∀ produced,
      (pumpEncrypt aead key noncePrefix input).result = .ok produced →
        aead.Ideal key produced) :
    ∃ stream produced,
      pumpEncrypt aead key noncePrefix input = ⟨stream, .ok produced⟩ ∧
        ∀ changed : Source,
          ReadsExactly aead key input.bytes stream changed ↔
            ¬ Lengthened stream changed := by
  have hpumped := @pumpEncrypt_eq aead key noncePrefix input hcount
  have hopens : Opens aead key noncePrefix (chunksOf input.bytes) :=
    hideal _ (by rw [hpumped])
  refine ⟨_, _, hpumped, fun changed => ?_⟩
  constructor
  · rintro ⟨-, hother⟩ ⟨extra, hsome, hextra, hbytes⟩
    have hne : changed.bytes ≠ streamOf aead key noncePrefix input.bytes := by
      intro hsame
      rw [hsame] at hbytes
      exact hsome (List.self_eq_append_right.mp hbytes)
    obtain ⟨⟨err, herr⟩, -⟩ := hother hne
    rw [pumpDecrypt_stream hopens hnonce hcount hextra hbytes] at herr
    cases herr
  · intro hlengthened
    obtain ⟨hwritten, hresult⟩ := pumpDecrypt_cases hopens changed
    constructor
    · intro hsame
      have hnone : ([] : List UInt8).length < 4 := by decide
      apply pumpDecrypt_stream hopens hnonce hcount hnone
      rw [hsame, List.append_nil]
    · intro hne
      refine ⟨hresult.resolve_right ?_, hwritten⟩
      rintro ⟨extra, hextra, hbytes⟩
      refine hlengthened ⟨extra, ?_, hextra, hbytes⟩
      rintro rfl
      exact hne (by rw [hbytes, List.append_nil])

end Streams

section Notes

def notesKey : List UInt8 := List.replicate 32 7

def notesPrefix : List UInt8 := [1, 2, 3, 4, 5, 6, 7]

def notesTag (noncePrefix : List UInt8) (position : Nat) (last : Bool) :
    List UInt8 :=
  (noncePrefix ++ bigEndian 4 position ++ [last.toUInt8] ++
    List.replicate TAG_LEN 0).take TAG_LEN

/-- A cipher that has sealed one note, and opens it. -/
def notesCipher : Aead where
  encrypt _ noncePrefix position last payload :=
    payload ++ notesTag noncePrefix position last
  decrypt key noncePrefix position last frame :=
    if key = notesKey ∧ noncePrefix = notesPrefix ∧ position = 0 ∧
        last = true ∧ frame = [9, 9, 9] ++ notesTag notesPrefix 0 true then
      some [9, 9, 9]
    else none
  length_encrypt := by
    intro _ noncePrefix position last payload
    rw [List.length_append, notesTag, List.length_take, List.length_append,
      List.length_replicate]
    omega

/-- The note, in two pieces. -/
def notesInput : Source where
  pieces := [[9], [9, 9]]
  nonempty := by decide

theorem chunksOf_notes : chunksOf notesInput.bytes = [[9, 9, 9]] := by
  rw [chunksOf, chunksFrom, if_pos (by decide)]
  rfl

theorem opens_notes :
    Opens notesCipher notesKey notesPrefix (chunksOf notesInput.bytes) := by
  intro noncePrefix position last frame payload
  rw [chunksOf_notes, sealedFrom, sealedFrom, List.mem_singleton]
  simp only [notesCipher, sealedAt, Option.ite_none_right_eq_some]
  constructor
  · rintro ⟨⟨-, rfl, rfl, rfl, rfl⟩, hpayload⟩
    cases hpayload
    rfl
  · intro hmade
    cases hmade
    exact ⟨⟨trivial, rfl, rfl, rfl, rfl⟩, rfl⟩

theorem readsExactly_notes :
    ∃ stream produced,
      pumpEncrypt notesCipher notesKey notesPrefix notesInput =
          ⟨stream, .ok produced⟩ ∧
        ∀ changed : Source,
          ReadsExactly notesCipher notesKey notesInput.bytes stream changed ↔
            ¬ Lengthened stream changed := by
  have hcount : (chunksOf notesInput.bytes).length < 2 ^ 32 := by
    rw [chunksOf_notes]
    decide
  refine readsExactly_iff_not_lengthened rfl hcount ?_
  intro produced hproduced
  rw [pumpEncrypt_eq hcount] at hproduced
  cases hproduced
  exact opens_notes

/-- The stream of the note with a byte behind it is taken for the stream. -/
theorem lengthened_notes :
    ∃ stream produced,
      pumpEncrypt notesCipher notesKey notesPrefix notesInput =
          ⟨stream, .ok produced⟩ ∧
        notesCipher.Ideal notesKey produced ∧
          ¬ ReadsExactly notesCipher notesKey notesInput.bytes stream
            (Source.whole (stream ++ [0])) := by
  have hcount : (chunksOf notesInput.bytes).length < 2 ^ 32 := by
    rw [chunksOf_notes]
    decide
  refine ⟨_, _, pumpEncrypt_eq hcount, opens_notes, ?_⟩
  rintro ⟨-, hother⟩
  obtain ⟨⟨err, herr⟩, -⟩ := hother (by simp)
  rw [pumpDecrypt_stream opens_notes rfl hcount (by decide : [0].length < 4)
    (bytes_whole _)] at herr
  cases herr

end Notes

end Crypto

end XBackup
