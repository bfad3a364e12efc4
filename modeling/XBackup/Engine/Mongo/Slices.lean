/-
Where the capture side cuts the oplog, and what the replay side makes of the
slices: the bound of a capture against multi-entry transactions, and replaying
slice by slice against replaying the uncut oplog.
-/
import XBackup.Engine.Mongo.Oplog

namespace XBackup

open AscendingLog

/-- The session key of an entry the replay side buffers because of the
`partialTxn` flag inside `o`. -/
def nonFinalPiece (debug : BsonDebug) (entry : Document) : Option String :=
  match classifyEntry debug entry with
  | .txnBuffer key _ =>
      let o := (Document.getDocument entry "o").getD []
      if Document.getBool o "partialTxn" = some true then some key else none
  | _ => none

/-- The session key of any piece of a transaction. -/
def pieceKey (debug : BsonDebug) (entry : Document) : Option String :=
  match classifyEntry debug entry with
  | .txnBuffer key _ => some key
  | .txnBufferThenCommit key _ => some key
  | _ => none

/-- Pieces are contiguous and the last one is there: every non-final piece has
another piece of its transaction right behind it. -/
def PiecesClosed (debug : BsonDebug) (oplog : List OplogEntry) : Prop :=
  ∀ before entry after key, oplog = before ++ entry :: after →
    nonFinalPiece debug entry.doc = some key →
      ∃ next rest, after = next :: rest ∧ pieceKey debug next.doc = some key

/-- The pieces of one transaction: non-final ones and the piece that closes
them. -/
structure TxnPieces (debug : BsonDebug) (key : String)
    (parts : List OplogEntry) (closing : OplogEntry) : Prop where
  parts_nonFinal : ∀ part ∈ parts, nonFinalPiece debug part.doc = some key
  closing_piece : pieceKey debug closing.doc = some key
  closing_final : nonFinalPiece debug closing.doc = none

/-- `ts` is the timestamp of an entry that is not a non-final piece. -/
def WholeBoundary (debug : BsonDebug) (oplog : List OplogEntry)
    (ts : OplogTimestamp) : Prop :=
  ∃ entry ∈ oplog, entry.ts = ts ∧ nonFinalPiece debug entry.doc = none

/-- The bound is no non-final piece, and the slice behind any whole boundary
contains all pieces of a transaction or none. -/
def CutsNoTransaction (debug : BsonDebug) (oplog : List OplogEntry)
    (upper : OplogTimestamp) : Prop :=
  (∀ entry ∈ oplog, entry.ts = upper → nonFinalPiece debug entry.doc = none) ∧
    ∀ last, WholeBoundary debug oplog last →
      ∀ before parts closing after key,
        oplog = before ++ (parts ++ closing :: after) →
        TxnPieces debug key parts closing →
          let slice := captureStream last upper (oplog.map OplogEntry.doc)
          (∀ piece ∈ parts ++ [closing], piece.doc ∈ slice) ∨
            ∀ piece ∈ parts ++ [closing], piece.doc ∉ slice

/-- Reading on from the latest entry, a non-final piece of the replay side
that is reached through flagged entries carries the flag of the capture side
as well. -/
def FlagsAgree (debug : BsonDebug) (fromLatest : List OplogEntry) : Prop :=
  ∀ pre entry post, fromLatest = pre ++ entry :: post →
    (∀ other ∈ pre, isPartialTxn other.doc = true) →
    (nonFinalPiece debug entry.doc).isSome →
      isPartialTxn entry.doc = true

/-- The walk ends at a non-final piece exactly when the flags disagree. -/
theorem walkStop_final_iff {debug : BsonDebug}
    {before fromLatest : List OplogEntry} {stop : OplogEntry}
    (hclosed : PiecesClosed debug (before ++ fromLatest))
    (hstop : walkStop fromLatest = some stop) :
    nonFinalPiece debug stop.doc = none ↔ FlagsAgree debug fromLatest := by
  constructor
  · intro hfinal pre entry post hsplit hpre hpiece
    by_contra hflag
    have hentry : walkStop (pre ++ entry :: post) = some entry :=
      walkStop_of_flagged hpre (Bool.not_eq_true _ ▸ hflag)
    rw [← hsplit, hstop, Option.some.injEq] at hentry
    subst hentry
    simp [hfinal] at hpiece
  · intro hagree
    obtain ⟨pre, post, hsplit, hpre, hpost⟩ := walkStop_spec hstop
    cases hpiece : nonFinalPiece debug stop.doc with
    | none => rfl
    | some key =>
        have hflag := hagree pre stop post hsplit hpre (by simp [hpiece])
        obtain ⟨next, rest, hnext, -⟩ := hclosed (before ++ pre) stop post key
          (by rw [hsplit, List.append_assoc]) hpiece
        simp [hpost hflag] at hnext

/-- A whole boundary does not lie between two pieces of a transaction. -/
theorem WholeBoundary.le_or_gt {debug : BsonDebug}
    {before parts after : List OplogEntry} {closing : OplogEntry}
    {key : String} {ts : OplogTimestamp}
    (hoplog : Ascending OplogEntry.ts
      (before ++ (parts ++ closing :: after)))
    (hpieces : TxnPieces debug key parts closing)
    (hboundary : WholeBoundary debug (before ++ (parts ++ closing :: after))
      ts) :
    (∀ piece ∈ parts ++ [closing], piece.ts ≤ ts) ∨
      ∀ piece ∈ parts ++ [closing], ts < piece.ts := by
  obtain ⟨entry, hentry, rfl, hfinal⟩ := hboundary
  apply hoplog.segment_le_or_gt hentry
  intro hpart
  simp [hpieces.parts_nonFinal entry hpart] at hfinal

theorem mem_captureStream {oplog : List OplogEntry} {entry : OplogEntry}
    {last upper : OplogTimestamp} (hentry : entry ∈ oplog) :
    entry.doc ∈ captureStream last upper (oplog.map OplogEntry.doc) ↔
      last < entry.ts ∧ entry.ts ≤ upper := by
  have hmem : entry.doc ∈ oplog.map OplogEntry.doc := List.mem_map_of_mem hentry
  simp [captureStream, tsOf, entry.ts_eq, hmem]

/-- A slice between two whole boundaries cuts no transaction. -/
theorem slice_whole {debug : BsonDebug}
    {before parts after : List OplogEntry} {closing : OplogEntry}
    {key : String} {last upper : OplogTimestamp}
    (hoplog : Ascending OplogEntry.ts
      (before ++ (parts ++ closing :: after)))
    (hpieces : TxnPieces debug key parts closing)
    (hlast : WholeBoundary debug (before ++ (parts ++ closing :: after)) last)
    (hupper : WholeBoundary debug (before ++ (parts ++ closing :: after))
      upper) :
    let slice := captureStream last upper
      ((before ++ (parts ++ closing :: after)).map OplogEntry.doc)
    (∀ piece ∈ parts ++ [closing], piece.doc ∈ slice) ∨
      ∀ piece ∈ parts ++ [closing], piece.doc ∉ slice := by
  intro slice
  have hslice : ∀ piece ∈ parts ++ [closing],
      (piece.doc ∈ slice ↔ last < piece.ts ∧ piece.ts ≤ upper) := by
    intro piece hpiece
    apply mem_captureStream
    simp only [List.mem_append, List.mem_cons] at hpiece ⊢
    tauto
  rcases hlast.le_or_gt hoplog hpieces with hbelow | habove
  · right
    intro piece hpiece hmem
    exact (((hslice piece hpiece).mp hmem).1.trans_le
      (hbelow piece hpiece)).false
  · rcases hupper.le_or_gt hoplog hpieces with hwithin | hbehind
    · left
      intro piece hpiece
      exact (hslice piece hpiece).mpr
        ⟨habove piece hpiece, hwithin piece hpiece⟩
    · right
      intro piece hpiece hmem
      exact (((hslice piece hpiece).mp hmem).2.trans_lt
        (hbehind piece hpiece)).false

/-- The bound of a capture cuts no transaction exactly when capture and replay
agree on the non-final pieces the walk meets. -/
theorem captureBound_cutsNoTransaction_iff (debug : BsonDebug)
    {before after : List OplogEntry} {latest : OplogEntry}
    {upper : OplogTimestamp}
    (hoplog : Ascending OplogEntry.ts (before ++ latest :: after))
    (hclosed : PiecesClosed debug (before ++ latest :: after))
    (hupper : resolveUpperBound ((before ++ [latest]).map OplogEntry.doc)
      ((before ++ latest :: after).map OplogEntry.doc) = some upper) :
    CutsNoTransaction debug (before ++ latest :: after) upper ↔
      FlagsAgree debug (latest :: after) := by
  rw [resolveUpperBound_eq hoplog, Option.map_eq_some_iff] at hupper
  obtain ⟨stop, hstop, rfl⟩ := hupper
  have hmem : stop ∈ before ++ latest :: after := by
    obtain ⟨pre, post, hsplit, -, -⟩ := walkStop_spec hstop
    rw [hsplit]
    simp
  rw [← walkStop_final_iff hclosed hstop]
  constructor
  · intro hcuts
    exact hcuts.1 stop hmem rfl
  · intro hfinal
    refine ⟨?_, ?_⟩
    · intro entry hentry heq
      rw [hoplog.eq_of_pos_eq hentry hmem heq]
      exact hfinal
    · intro last hlast pre parts closing post key hsplit hpieces
      have hboundary : WholeBoundary debug (before ++ latest :: after)
          stop.ts := ⟨stop, hmem, rfl, hfinal⟩
      rw [hsplit] at hoplog hlast hboundary ⊢
      exact slice_whole hoplog hpieces hlast hboundary

/-! A transaction of two entries as the server writes it: the flag of the
first piece is inside `o`. -/
namespace SplitTxn

def debug : BsonDebug :=
  ⟨fun _ => "Document(\x7b\"id\": String(\"s\")\x7d)", fun _ => "None"⟩

def sessionEntry (t i : UInt32) (o : Document) : OplogEntry :=
  ⟨[("ts", .scalar (.timestamp ⟨t, i⟩)), ("op", .scalar (.string "c")),
    ("ns", .scalar (.string "admin.$cmd")),
    ("lsid", .document [("id", .scalar (.string "s"))]),
    ("txnNumber", .scalar (.int64 7)), ("o", .document o)], 160, ⟨t, i⟩, rfl⟩

def insertOp (id : Int32) : Bson :=
  .document [("op", .scalar (.string "i")), ("ns", .scalar (.string "shop.o")),
    ("o", .document [("_id", .scalar (.int32 id))])]

def firstPiece : OplogEntry :=
  sessionEntry 100 1 [("applyOps", .array [insertOp 1]),
    ("partialTxn", .scalar (.boolean true))]

def lastPiece : OplogEntry :=
  sessionEntry 100 2 [("applyOps", .array [insertOp 2]),
    ("count", .scalar (.int64 2))]

def oplog : List OplogEntry := [firstPiece, lastPiece]

theorem nonFinalPiece_firstPiece :
    (nonFinalPiece debug firstPiece.doc).isSome = true := by decide

theorem oplog_closed : PiecesClosed debug oplog := by
  intro before entry after key hsplit hpiece
  rcases before with _ | ⟨head, _ | ⟨next, rest⟩⟩
  · cases hsplit
    exact ⟨lastPiece, [], rfl, hpiece⟩
  · cases hsplit
    have hnone : nonFinalPiece debug lastPiece.doc = none := rfl
    simp [hnone] at hpiece
  · simp [oplog] at hsplit

end SplitTxn

open SplitTxn in
theorem captureBound_cutsNoTransaction_splitTxn :
    CutsNoTransaction debug ([] ++ firstPiece :: [lastPiece]) firstPiece.ts ↔
      FlagsAgree debug (firstPiece :: [lastPiece]) :=
  captureBound_cutsNoTransaction_iff debug (by decide) oplog_closed (by rfl)

open SplitTxn in
/-- The first piece is the latest entry when the capture starts; the bound
stays on it although the last piece has been written. -/
theorem captureBound_cuts_splitTxn :
    Ascending OplogEntry.ts oplog ∧ PiecesClosed debug oplog ∧
      resolveUpperBound [firstPiece.doc] (oplog.map OplogEntry.doc) =
        some firstPiece.ts ∧
      ¬ CutsNoTransaction debug oplog firstPiece.ts := by
  refine ⟨by decide, oplog_closed, by rfl, ?_⟩
  intro hcuts
  have hfinal := hcuts.1 firstPiece (by simp [oplog]) rfl
  have hpiece := nonFinalPiece_firstPiece
  rw [hfinal] at hpiece
  exact absurd hpiece (by decide)

/-- The operations sent when every slice gets its own `apply_stream`, as
`replay_slices` does without a limit. -/
def sentBySlices (debug : BsonDebug) (slices : List (List (Document × Nat))) :
    Except XBackupError (List Document) := do
  let runs ← slices.mapM (applyStream debug none)
  return runs.flatMap ApplyState.sentOps

/-- The operations one `apply_stream` over the concatenation sends. -/
def sentUncut (debug : BsonDebug) (slices : List (List (Document × Nat))) :
    Except XBackupError (List Document) := do
  let run ← applyStream debug none slices.flatten
  return run.sentOps

def sliceEvents (debug : BsonDebug) (slice : List (Document × Nat)) :
    List (KeyedBuffer.Event String Document) :=
  slice.map fun entry => entryEvent debug entry.1

theorem mapM_applyStream (debug : BsonDebug)
    (slices : List (List (Document × Nat))) :
    ∃ runs, slices.mapM (applyStream debug none) = .ok runs ∧
      runs.flatMap ApplyState.sentOps =
        (slices.map (sliceEvents debug)).flatMap
          (KeyedBuffer.emitted KeyedBuffer.empty) := by
  induction slices with
  | nil => exact ⟨[], rfl, rfl⟩
  | cons slice rest ih =>
      obtain ⟨run, hrun, hsent⟩ := applyStream_none debug slice
      obtain ⟨runs, hruns, hrest⟩ := ih
      refine ⟨run :: runs, ?_, ?_⟩
      · rw [List.mapM_cons, hrun, hruns]
        rfl
      · rw [List.flatMap_cons, hsent, hrest]
        rfl

theorem sentBySlices_eq (debug : BsonDebug)
    (slices : List (List (Document × Nat))) :
    sentBySlices debug slices = .ok ((slices.map (sliceEvents debug)).flatMap
      (KeyedBuffer.emitted KeyedBuffer.empty)) := by
  obtain ⟨runs, hruns, hsent⟩ := mapM_applyStream debug slices
  rw [sentBySlices, hruns, ← hsent]
  rfl

theorem sentUncut_eq (debug : BsonDebug)
    (slices : List (List (Document × Nat))) :
    sentUncut debug slices = .ok (KeyedBuffer.emitted KeyedBuffer.empty
      (slices.map (sliceEvents debug)).flatten) := by
  obtain ⟨run, hrun, hsent⟩ := applyStream_none debug slices.flatten
  rw [sentUncut, hrun]
  change Except.ok run.sentOps = _
  rw [hsent, List.map_flatten]
  rfl

/-- No slice leaves operations of a session open whose next commit or abort,
in the slices behind it, is a commit. -/
def NoOpenCommit (debug : BsonDebug) :
    List (List (Document × Nat)) → Prop
  | [] => True
  | slice :: rest =>
      (∀ key, KeyedBuffer.leavesOpen key (sliceEvents debug slice) = true →
        ¬ KeyedBuffer.releasesNext key (sliceEvents debug rest.flatten) =
          true) ∧
      NoOpenCommit debug rest

theorem noOpenCommit_iff_seamless (debug : BsonDebug)
    (slices : List (List (Document × Nat))) :
    NoOpenCommit debug slices ↔
      KeyedBuffer.Seamless (slices.map (sliceEvents debug)) := by
  induction slices with
  | nil => exact Iff.rfl
  | cons slice rest ih =>
      have hflatten : sliceEvents debug rest.flatten =
          (rest.map (sliceEvents debug)).flatten := List.map_flatten
      rw [NoOpenCommit, List.map_cons, KeyedBuffer.Seamless, ih, hflatten]

/-- Replaying slice by slice is replaying the uncut oplog exactly when no cut
separates a buffered transaction from its commit. -/
theorem sentBySlices_eq_sentUncut_iff (debug : BsonDebug)
    (slices : List (List (Document × Nat))) :
    sentBySlices debug slices = sentUncut debug slices ↔
      NoOpenCommit debug slices := by
  rw [sentBySlices_eq, sentUncut_eq, Except.ok.injEq,
    KeyedBuffer.flatMap_emitted_eq_iff, noOpenCommit_iff_seamless]

/-! A prepared transaction: the prepare is captured, its commit comes later. -/
namespace PreparedTxn

def prepare : OplogEntry :=
  SplitTxn.sessionEntry 100 1 [("applyOps", .array [SplitTxn.insertOp 1]),
    ("prepare", .scalar (.boolean true))]

def commit : OplogEntry :=
  SplitTxn.sessionEntry 105 1 [("commitTransaction", .scalar (.int32 1)),
    ("commitTimestamp", .scalar (.timestamp ⟨104, 1⟩))]

def slices : List (List (Document × Nat)) :=
  [[prepare.inStream], [commit.inStream]]

/-- The number of operations a replay sends. -/
def count (sent : Except XBackupError (List Document)) : Option Nat :=
  sent.toOption.map List.length

end PreparedTxn

open PreparedTxn in
/-- Two captures, one before and one after the commit, cut the oplog between
prepare and commit; the slices send nothing, the uncut oplog the insert. -/
theorem sentBySlices_loses_preparedTxn :
    resolveUpperBound [prepare.doc] [prepare.doc] = some prepare.ts ∧
      captureStream ⟨99, 0⟩ prepare.ts [prepare.doc] = [prepare.doc] ∧
      resolveUpperBound [prepare.doc, commit.doc]
        [prepare.doc, commit.doc] = some commit.ts ∧
      captureStream prepare.ts commit.ts [prepare.doc, commit.doc] =
        [commit.doc] ∧
      sentBySlices SplitTxn.debug slices ≠ sentUncut SplitTxn.debug slices := by
  refine ⟨rfl, rfl, rfl, rfl, ?_⟩
  intro heq
  have hcount := congrArg count heq
  exact absurd hcount (by decide)

end XBackup
