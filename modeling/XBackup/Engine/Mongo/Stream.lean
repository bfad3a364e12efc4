/-
The oplog stream as bytes: one BSON document behind the other, and nothing that
tells the end.
-/
import XBackup.Engine.Archive
import XBackup.Engine.Mongo.Apply

namespace XBackup

open Framing Streams

def MAX_ENTRY_BYTES : Nat := 32 * 1024 * 1024

section Reading

variable (lib : BsonLib)

/-- The next document with its size; none at the end of the stream. -/
def readBsonDoc (input : List UInt8) :
    Except XBackupError (Option ((Document × Nat) × List UInt8)) :=
  match readDocument MAX_ENTRY_BYTES input with
  -- the stream ends before the four bytes of the length do
  | .error (.noLength _) => .ok none
  | .error (.badLength _ length) => .error (.failure
      ("oplog 엔트리 길이 비정상: " ++ toString length ++
        "바이트 — 슬라이스 손상 의심(verify --deep 권장)"))
  | .error _ => .error (.failure ("oplog 엔트리 본문 읽기 실패: " ++ EARLY_EOF))
  | .ok (body, rest) =>
      match lib.fromReader body with
      | .error e => .error (.failure ("oplog 엔트리 파싱 실패: " ++ e))
      | .ok doc => .ok (some ((doc, body.length), rest))

def entryReader : Reader (Document × Nat) XBackupError where
  step := readBsonDoc lib
  shrinks := by
    intro input item rest hread
    rw [readBsonDoc] at hread
    cases hdocument : readDocument MAX_ENTRY_BYTES input with
    | error fault =>
        rw [hdocument] at hread
        cases fault <;> cases hread
    | ok taken =>
        obtain ⟨body, more⟩ := taken
        simp only [hdocument] at hread
        cases hparse : lib.fromReader body with
        | error e =>
            simp only [hparse] at hread
            cases hread
        | ok doc =>
            simp only [hparse] at hread
            cases hread
            exact readDocument_length hdocument

variable (debug : BsonDebug) (limit : Option OplogTimestamp)

/-- The entry loop over a stream that ends, or breaks off with an error. -/
def applyEntries (err : Option XBackupError) (st : ApplyState) :
    List (Document × Nat) → Except XBackupError ApplyState
  | [] =>
      match err with
      | some err => .error err
      | none => .ok st
  | (entry, entryBytes) :: rest =>
      match limit with
      | none =>
          applyEntries err (st.act entryBytes (classifyEntry debug entry)) rest
      | some lim =>
          match entryTs debug entry with
          | .error err => .error err
          | .ok ts =>
              if lim ≤ ts then .ok st
              else
                applyEntries err
                  (st.act entryBytes (classifyEntry debug entry)) rest

/-- `apply_stream` on the bytes of a stream. -/
def applyBytes (input : List UInt8) : Except XBackupError ApplyState :=
  let read := (entryReader lib).all input
  (applyEntries debug limit read.2 .initial read.1).map ApplyState.finish

/-- A document of an oplog as it is written: its first four bytes count all of
it. -/
structure Counted (chunk : List UInt8) : Prop where
  least : 5 ≤ chunk.length
  most : chunk.length < 2 ^ 32
  counted : chunk.take 4 = littleEndian 4 chunk.length

variable {lib debug limit} {chunk cut tail : List UInt8}

/-- A written document is read whole, or there is an error. -/
theorem readBsonDoc_append (hchunk : Counted chunk) :
    (∃ err, ∀ tail, readBsonDoc lib (chunk ++ tail) = .error err) ∨
      ∃ doc, lib.fromReader chunk = .ok doc ∧
        chunk.length ≤ MAX_ENTRY_BYTES ∧ ∀ tail,
          readBsonDoc lib (chunk ++ tail) =
            .ok (some ((doc, chunk.length), tail)) := by
  have hread : ∀ tail, readDocument MAX_ENTRY_BYTES (chunk ++ tail) = _ :=
    fun tail => readDocument_append hchunk.least hchunk.most hchunk.counted
  by_cases hmax : chunk.length ≤ MAX_ENTRY_BYTES
  · cases hparse : lib.fromReader chunk with
    | error e =>
        refine Or.inl ⟨.failure ("oplog 엔트리 파싱 실패: " ++ e), fun tail => ?_⟩
        rw [readBsonDoc, hread, if_pos hmax]
        simp only [hparse]
    | ok doc =>
        refine Or.inr ⟨doc, rfl, hmax, fun tail => ?_⟩
        rw [readBsonDoc, hread, if_pos hmax]
        simp only [hparse]
  · refine Or.inl ⟨.failure ("oplog 엔트리 길이 비정상: " ++
      toString chunk.length ++ "바이트 — 슬라이스 손상 의심(verify --deep 권장)"),
      fun tail => ?_⟩
    rw [readBsonDoc, hread, if_neg hmax]

/-- A document that is cut behind its length is an error. -/
theorem readBsonDoc_cut (hchunk : Counted chunk) (hbefore : cut <+: chunk)
    (hcut : cut ≠ chunk) (hfour : 4 ≤ cut.length) :
    ∃ err, readBsonDoc lib cut = .error err := by
  obtain ⟨fault, hlong, hfault⟩ :=
    @readDocument_cut_body cut MAX_ENTRY_BYTES _ hchunk.most hchunk.counted
      hbefore hcut hfour
  rw [readBsonDoc, hfault]
  cases fault with
  | noLength shape => exact absurd rfl (hlong shape)
  | badLength shape length => exact ⟨_, rfl⟩
  | corruptTag tag => exact ⟨_, rfl⟩
  | noBody shape => exact ⟨_, rfl⟩

theorem applyEntries_none (st : ApplyState) (stream : List (Document × Nat)) :
    applyEntries debug limit none st stream =
      applyLoop debug limit st stream := by
  induction stream generalizing st with
  | nil => rfl
  | cons first rest ih =>
      cases limit with
      | none => exact ih _
      | some lim =>
          simp only [applyEntries, applyLoop]
          cases entryTs debug first.1 with
          | error err => rfl
          | ok ts => simp only [ih]

/-- Whole documents within the bound are replayed as the entries they hold. -/
theorem applyBytes_flatten {stream : List (Document × Nat)}
    {chunks : List (List UInt8)}
    (hchunks : List.Forall₂ (fun entry chunk => Counted chunk ∧
      chunk.length ≤ MAX_ENTRY_BYTES ∧ entry.2 = chunk.length ∧
      lib.fromReader chunk = .ok entry.1) stream chunks) :
    applyBytes lib debug limit chunks.flatten =
      applyStream debug limit stream := by
  have hread : List.Forall₂ (fun entry chunk => ∀ tail,
      (entryReader lib).step (chunk ++ tail) = .ok (some (entry, tail)))
      stream chunks := by
    refine hchunks.imp fun entry chunk hchunk tail => ?_
    obtain ⟨hcounted, hmax, hsize, hparse⟩ := hchunk
    have hdocument : readDocument MAX_ENTRY_BYTES (chunk ++ tail) = _ :=
      readDocument_append hcounted.least hcounted.most hcounted.counted
    have hstep : readBsonDoc lib (chunk ++ tail) =
        .ok (some ((entry.1, chunk.length), tail)) := by
      rw [readBsonDoc, hdocument, if_pos hmax]
      simp only [hparse]
    rw [← hsize] at hstep
    exact hstep
  have hend : (entryReader lib).all [] = ([], none) := all_of_end rfl
  have hall := @all_flatten _ _ _ [] _ _ hread
  rw [hend, List.append_nil, List.append_nil] at hall
  rw [applyBytes, hall, applyEntries_none, applyStream]

/-- No document of these is at the limit or behind it. -/
def BelowLimit (lib : BsonLib) (debug : BsonDebug)
    (limit : Option OplogTimestamp) (chunks : List (List UInt8)) : Prop :=
  ∀ chunk ∈ chunks, ∀ doc, lib.fromReader chunk = .ok doc →
    ∀ lim ∈ limit, ∀ ts, entryTs debug doc = .ok ts → ts < lim

/-- A stream that is cut within a document, behind its length, is not replayed to
an end, unless the limit stops the replay before. -/
theorem applyBytes_cut {front : List (List UInt8)}
    (hfront : ∀ chunk ∈ front, Counted chunk) (hchunk : Counted chunk)
    (hbefore : cut <+: chunk) (hcut : cut ≠ chunk) (hfour : 4 ≤ cut.length)
    (hbelow : BelowLimit lib debug limit front) :
    ∃ err, applyBytes lib debug limit (front.flatten ++ cut) = .error err := by
  suffices hloop : ∀ st : ApplyState, ∃ err,
      applyEntries debug limit
        ((entryReader lib).all (front.flatten ++ cut)).2 st
        ((entryReader lib).all (front.flatten ++ cut)).1 = .error err by
    obtain ⟨err, herr⟩ := hloop .initial
    exact ⟨err, by rw [applyBytes, herr]; rfl⟩
  induction front with
  | nil =>
      intro st
      obtain ⟨err, herr⟩ := @readBsonDoc_cut lib _ _ hchunk hbefore hcut hfour
      have hstep : (entryReader lib).step ([].flatten ++ cut) = .error err := herr
      rw [all_of_error hstep]
      exact ⟨err, rfl⟩
  | cons first front ih =>
      obtain ⟨hfirst, hrest⟩ := List.forall_mem_cons.mp hfront
      obtain ⟨hfirstBelow, hrestBelow⟩ := List.forall_mem_cons.mp hbelow
      intro st
      rw [List.flatten_cons, List.append_assoc]
      rcases @readBsonDoc_append lib _ hfirst with
        ⟨err, herr⟩ | ⟨doc, hparse, -, hread⟩
      · have hstep : (entryReader lib).step
            (first ++ (front.flatten ++ cut)) = .error err := herr _
        rw [all_of_error hstep]
        exact ⟨err, rfl⟩
      · have hstep : (entryReader lib).step
            (first ++ (front.flatten ++ cut)) =
              .ok (some ((doc, first.length), front.flatten ++ cut)) := hread _
        rw [all_of_item hstep]
        cases limit with
        | none => exact ih hrest hrestBelow _
        | some lim =>
            rw [applyEntries]
            cases hts : entryTs debug doc with
            | error err => exact ⟨err, rfl⟩
            | ok ts =>
                dsimp only
                rw [if_neg (not_le.mpr (hfirstBelow doc hparse lim rfl ts hts))]
                exact ih hrest hrestBelow _

end Reading

end XBackup
