/-
Native oplog replay.  `applyStream` walks the decoded entries of one slice,
buffers the pieces of transactions and sends batches of operations as
`applyOps` commands.  A command the server refuses ends the run; the model
follows a run whose commands are accepted.
-/
import XBackup.Engine.Mongo.Bson
import XBackup.Foundation.KeyedBuffer

namespace XBackup

def MAX_BATCH_OPS : Nat := 1000

def MAX_BATCH_BYTES : Nat := 12 * 1024 * 1024

/-- The debug rendering of the BSON library: of a document, and of the field
an error message reports. -/
structure BsonDebug where
  document : Document → String
  found : Option Bson → String

structure ApplyStats where
  applied : Nat
  skipped : Nat
deriving DecidableEq, Repr

inductive EntryAction where
  | skip
  | apply (op : Document)
  | txnBuffer (key : String) (ops : List Document)
  | txnBufferThenCommit (key : String) (ops : List Document)
  | txnCommit (key : String)
  | txnAbort (key : String)

/-- Server bookkeeping, not user data. -/
def shouldSkipNs (ns : String) : Bool :=
  let db := String.ofList (ns.toList.takeWhile fun c => c ≠ '.')
  db = "local" ∨ db = "config" ∨ ns = "admin.system.version"

def STRIP : List String :=
  ["ui", "lsid", "txnNumber", "stmtId", "prevOpTime", "preImageOpTime",
    "postImageOpTime", "needsRetryImage"]

/-- The inner entries of an `applyOps` command lose their `ui` only. -/
def stripNestedUi : Bson → Bson
  | .document o => .document (Document.modify o "applyOps" fun ops =>
      match ops with
      | .array items => .array (items.map fun item =>
          match item with
          | .document d => .document (Document.remove d "ui")
          | other => other)
      | other => other)
  | other => other

def sanitizeEntry (entry : Document) : Document :=
  Document.modify (STRIP.foldl Document.remove entry) "o" stripNestedUi

def innerTxnOps (o : Document) : List Document :=
  match Document.getArray o "applyOps" with
  | none => []
  | some items => items.filterMap fun item =>
      match item with
      | .document d => some (sanitizeEntry d)
      | _ => none

/-- The buffer key of a transaction, present only with a session. -/
def txnKey (debug : BsonDebug) (entry : Document) : Option String := do
  let lsid ← Document.getDocument entry "lsid"
  let txn ← Document.getI64 entry "txnNumber"
  return debug.document lsid ++ "#" ++ toString txn

/-- The unprepared last piece of a transaction commits it. -/
def isFinalPiece (o : Document) : Bool :=
  !(Document.getBool o "partialTxn").getD false &&
    !(Document.getBool o "prepare").getD false

/-- The transaction entries of one session; other commands are left alone. -/
def classifyTxn (key : String) (o : Document) : Option EntryAction :=
  if Document.containsKey o "commitTransaction" then some (.txnCommit key)
  else if Document.containsKey o "abortTransaction" then some (.txnAbort key)
  else if Document.containsKey o "applyOps" then
    if isFinalPiece o then some (.txnBufferThenCommit key (innerTxnOps o))
    else some (.txnBuffer key (innerTxnOps o))
  else none

def classifyEntry (debug : BsonDebug) (entry : Document) : EntryAction :=
  let op := (Document.getStr entry "op").getD ""
  if op = "n" then .skip
  else if shouldSkipNs ((Document.getStr entry "ns").getD "") then .skip
  else
    let txn :=
      if op = "c" then do
        let key ← txnKey debug entry
        classifyTxn key ((Document.getDocument entry "o").getD [])
      else none
    txn.getD (.apply (sanitizeEntry entry))

/-- The operations a piece of a transaction holds are those in its command. -/
theorem inner_of_classifyEntry {debug : BsonDebug} {entry : Document}
    {key : String} {ops : List Document}
    (hpiece : classifyEntry debug entry = .txnBuffer key ops ∨
      classifyEntry debug entry = .txnBufferThenCommit key ops) :
    ops = innerTxnOps ((Document.getDocument entry "o").getD []) := by
  rw [classifyEntry] at hpiece
  cases htxn : txnKey debug entry with
  | none => grind [classifyTxn]
  | some txn => grind [classifyTxn]

/-- An entry that is applied is sanitised as a whole. -/
theorem apply_of_classifyEntry {debug : BsonDebug} {entry op : Document}
    (happly : classifyEntry debug entry = .apply op) :
    op = sanitizeEntry entry := by
  rw [classifyEntry] at happly
  cases htxn : txnKey debug entry with
  | none => grind [classifyTxn]
  | some txn => grind [classifyTxn]

def entryTs (debug : BsonDebug) (entry : Document) :
    Except XBackupError OplogTimestamp :=
  match Document.getTimestamp entry "ts" with
  | some ts => .ok ts
  | none => .error (.failure ("oplog 엔트리에 ts(Timestamp)가 없습니다(발견: " ++
      debug.found (Document.get entry "ts") ++ ") — 슬라이스 손상 의심"))

/-- The locals of `apply_stream`, with the commands sent so far. -/
structure ApplyState where
  batch : List Document
  batchBytes : Nat
  txns : AList fun _ : String => List Document
  stats : ApplyStats
  commands : List (List Document)

namespace ApplyState

def initial : ApplyState := ⟨[], 0, ∅, ⟨0, 0⟩, []⟩

def applyOps (st : ApplyState) (ops : List Document) : ApplyState :=
  if ops.isEmpty then st
  else { st with
    commands := st.commands ++ [ops]
    stats := { st.stats with applied := st.stats.applied + ops.length } }

def flush (st : ApplyState) : ApplyState :=
  { st.applyOps st.batch with batch := [], batchBytes := 0 }

/-- `slice::chunks`, with the chunk under construction. -/
def chunksFrom (size : Nat) (current : List Document) :
    List Document → List (List Document)
  | [] => if current.isEmpty then [] else [current]
  | op :: rest =>
      if current.length = size then current :: chunksFrom size [op] rest
      else chunksFrom size (current ++ [op]) rest

def sendChunks (st : ApplyState) (ops : List Document) : ApplyState :=
  (chunksFrom MAX_BATCH_OPS [] ops).foldl applyOps st

def bufferTxn (st : ApplyState) (key : String) (ops : List Document) :
    ApplyState :=
  { st with txns := st.txns.insert key ((st.txns.lookup key).getD [] ++ ops) }

/-- Take the buffer of `key` and send it behind the pending batch. -/
def commitTxn (st : ApplyState) (key : String) : ApplyState :=
  let ops := (st.txns.lookup key).getD []
  sendChunks (flush { st with txns := st.txns.erase key }) ops

def abortTxn (st : ApplyState) (key : String) : ApplyState :=
  match st.txns.lookup key with
  | none => st
  | some dropped => { st with
      txns := st.txns.erase key
      stats := { st.stats with skipped := st.stats.skipped + dropped.length } }

def applyCrud (st : ApplyState) (op : Document) (entryBytes : Nat) :
    ApplyState :=
  let st :=
    if MAX_BATCH_OPS ≤ st.batch.length ∨
        MAX_BATCH_BYTES < st.batchBytes + entryBytes then st.flush else st
  { st with
    batch := st.batch ++ [op]
    batchBytes := st.batchBytes + entryBytes }

/-- The body of the entry loop behind the limit check. -/
def act (st : ApplyState) (entryBytes : Nat) : EntryAction → ApplyState
  | .skip =>
      { st with stats := { st.stats with skipped := st.stats.skipped + 1 } }
  | .apply op =>
      if Document.getStr op "op" = some "c" then st.flush.applyOps [op]
      else st.applyCrud op entryBytes
  | .txnBuffer key ops => st.bufferTxn key ops
  | .txnBufferThenCommit key ops => (st.bufferTxn key ops).commitTxn key
  | .txnCommit key => st.commitTxn key
  | .txnAbort key => st.abortTxn key

/-- The end of the stream: the last batch is sent, open transactions are
thrown away. -/
def finish (st : ApplyState) : ApplyState :=
  let st := st.flush
  { st with
    txns := ∅
    stats := { st.stats with
      skipped := st.stats.skipped +
        (st.txns.entries.map fun pending => pending.2.length).sum } }

end ApplyState

/-- The entry loop: every entry comes with its size in the stream. -/
def applyLoop (debug : BsonDebug) (limit : Option OplogTimestamp)
    (st : ApplyState) : List (Document × Nat) → Except XBackupError ApplyState
  | [] => .ok st
  | (entry, entryBytes) :: rest =>
      match limit with
      | none =>
          applyLoop debug limit (st.act entryBytes (classifyEntry debug entry))
            rest
      | some lim =>
          match entryTs debug entry with
          | .error err => .error err
          | .ok ts =>
              if lim ≤ ts then .ok st
              else
                applyLoop debug limit
                  (st.act entryBytes (classifyEntry debug entry)) rest

def applyStream (debug : BsonDebug) (limit : Option OplogTimestamp)
    (stream : List (Document × Nat)) : Except XBackupError ApplyState :=
  (applyLoop debug limit .initial stream).map ApplyState.finish

namespace EntryAction

/-- An action as an event on the transaction buffers. -/
def event : EntryAction → KeyedBuffer.Event String Document
  | .skip => .pass []
  | .apply op => .pass [op]
  | .txnBuffer key ops => .hold key ops
  | .txnBufferThenCommit key ops => .release key ops
  | .txnCommit key => .release key []
  | .txnAbort key => .drop key

end EntryAction

def entryEvent (debug : BsonDebug) (entry : Document) :
    KeyedBuffer.Event String Document :=
  (classifyEntry debug entry).event

namespace ApplyState

/-- The operations sent to the server, in order. -/
def sentOps (st : ApplyState) : List Document :=
  st.commands.flatten

def held (st : ApplyState) : KeyedBuffer.Held String Document :=
  fun key => (st.txns.lookup key).getD []

theorem held_congr {left right : ApplyState} (htxns : left.txns = right.txns) :
    left.held = right.held := by
  funext key
  simp only [held, htxns]

/-- Sent operations and those waiting in the batch. -/
def outputOps (st : ApplyState) : List Document :=
  st.sentOps ++ st.batch

@[simp] theorem sentOps_applyOps (st : ApplyState) (ops : List Document) :
    (st.applyOps ops).sentOps = st.sentOps ++ ops := by
  by_cases hempty : ops.isEmpty
  · simp [applyOps, List.isEmpty_iff.mp hempty]
  · simp [applyOps, hempty, sentOps]

@[simp] theorem batch_applyOps (st : ApplyState) (ops : List Document) :
    (st.applyOps ops).batch = st.batch := by
  unfold applyOps
  split <;> rfl

@[simp] theorem txns_applyOps (st : ApplyState) (ops : List Document) :
    (st.applyOps ops).txns = st.txns := by
  unfold applyOps
  split <;> rfl

@[simp] theorem sentOps_flush (st : ApplyState) :
    st.flush.sentOps = st.sentOps ++ st.batch :=
  sentOps_applyOps st st.batch

@[simp] theorem batch_flush (st : ApplyState) : st.flush.batch = [] := rfl

@[simp] theorem txns_flush (st : ApplyState) : st.flush.txns = st.txns :=
  txns_applyOps st st.batch

theorem outputOps_flush (st : ApplyState) :
    st.flush.outputOps = st.outputOps := by
  simp [outputOps]

/-- Chunking loses no operation and keeps their order. -/
theorem chunksFrom_flatten (size : Nat) (current ops : List Document) :
    (chunksFrom size current ops).flatten = current ++ ops := by
  induction ops generalizing current with
  | nil =>
      by_cases hempty : current.isEmpty
      · simp [chunksFrom, List.isEmpty_iff.mp hempty]
      · simp [chunksFrom, hempty]
  | cons op rest ih =>
      rw [chunksFrom]
      split
      · simp [ih]
      · simp [ih]

theorem foldl_applyOps (st : ApplyState) (chunks : List (List Document)) :
    (chunks.foldl applyOps st).sentOps = st.sentOps ++ chunks.flatten ∧
      (chunks.foldl applyOps st).batch = st.batch ∧
      (chunks.foldl applyOps st).txns = st.txns := by
  induction chunks generalizing st with
  | nil => simp
  | cons chunk rest ih =>
      obtain ⟨hsent, hbatch, htxns⟩ := ih (st.applyOps chunk)
      refine ⟨?_, ?_, ?_⟩
      · simp [hsent]
      · simp [hbatch]
      · simp [htxns]

theorem outputOps_commitTxn (st : ApplyState) (key : String) :
    (st.commitTxn key).outputOps = st.outputOps ++ st.held key := by
  obtain ⟨hsent, hbatch, -⟩ := foldl_applyOps
    (flush { st with txns := st.txns.erase key })
    (chunksFrom MAX_BATCH_OPS [] ((st.txns.lookup key).getD []))
  have hflush : (flush { st with txns := st.txns.erase key }).sentOps =
      st.sentOps ++ st.batch := sentOps_flush _
  rw [outputOps, commitTxn, sendChunks, hsent, hbatch, chunksFrom_flatten,
    hflush]
  simp [outputOps, held]

theorem held_erase (st : ApplyState) (key : String) :
    held { st with txns := st.txns.erase key } =
      Function.update st.held key [] := by
  funext other
  by_cases heq : other = key
  · subst heq
    simp [held]
  · simp [held, heq, AList.lookup_erase_ne heq]

theorem held_commitTxn (st : ApplyState) (key : String) :
    (st.commitTxn key).held = Function.update st.held key [] := by
  obtain ⟨-, -, htxns⟩ := foldl_applyOps
    (flush { st with txns := st.txns.erase key })
    (chunksFrom MAX_BATCH_OPS [] ((st.txns.lookup key).getD []))
  rw [← held_erase]
  funext other
  simp only [held, commitTxn, sendChunks, htxns, txns_flush]

theorem held_bufferTxn (st : ApplyState) (key : String)
    (ops : List Document) :
    (st.bufferTxn key ops).held =
      Function.update st.held key (st.held key ++ ops) := by
  funext other
  by_cases heq : other = key
  · subst heq
    simp [held, bufferTxn]
  · simp [held, bufferTxn, heq, AList.lookup_insert_ne heq]

theorem held_abortTxn (st : ApplyState) (key : String) :
    (st.abortTxn key).held = Function.update st.held key [] := by
  cases hlookup : st.txns.lookup key with
  | none =>
      have hnone : st.held key = [] := by simp [held, hlookup]
      rw [abortTxn, hlookup, ← hnone, Function.update_eq_self]
  | some dropped =>
      rw [← held_erase, abortTxn, hlookup]
      rfl

theorem outputOps_abortTxn (st : ApplyState) (key : String) :
    (st.abortTxn key).outputOps = st.outputOps := by
  unfold abortTxn
  split <;> rfl

theorem outputOps_applyCrud (st : ApplyState) (op : Document)
    (entryBytes : Nat) :
    (st.applyCrud op entryBytes).outputOps = st.outputOps ++ [op] ∧
      (st.applyCrud op entryBytes).held = st.held := by
  unfold applyCrud
  split
  · refine ⟨?_, held_congr (txns_flush st)⟩
    change st.flush.sentOps ++ (st.flush.batch ++ [op]) =
      st.sentOps ++ st.batch ++ [op]
    simp
  · refine ⟨?_, held_congr rfl⟩
    simp [outputOps, sentOps]

/-- What one entry does to the buffers and to the output. -/
theorem act_spec (st : ApplyState) (entryBytes : Nat) (action : EntryAction) :
    (st.act entryBytes action).outputOps =
        st.outputOps ++ action.event.emit st.held ∧
      (st.act entryBytes action).held = action.event.apply st.held := by
  cases action with
  | skip =>
      refine ⟨?_, held_congr rfl⟩
      simp [act, outputOps, sentOps, EntryAction.event,
        KeyedBuffer.Event.emit]
  | apply op =>
      by_cases hcommand : Document.getStr op "op" = some "c"
      · refine ⟨?_, held_congr ?_⟩
        · simp [act, hcommand, outputOps, EntryAction.event,
            KeyedBuffer.Event.emit]
        · simp [act, hcommand]
      · simp only [act, hcommand, if_false]
        exact outputOps_applyCrud st op entryBytes
  | txnBuffer key ops =>
      refine ⟨?_, held_bufferTxn st key ops⟩
      simp [act, bufferTxn, outputOps, sentOps, EntryAction.event,
        KeyedBuffer.Event.emit]
  | txnBufferThenCommit key ops =>
      refine ⟨?_, ?_⟩
      · rw [act, outputOps_commitTxn, held_bufferTxn]
        simp [bufferTxn, outputOps, sentOps, EntryAction.event,
          KeyedBuffer.Event.emit]
      · rw [act, held_commitTxn, held_bufferTxn, Function.update_idem]
        rfl
  | txnCommit key =>
      refine ⟨?_, held_commitTxn st key⟩
      rw [act, outputOps_commitTxn]
      simp [EntryAction.event, KeyedBuffer.Event.emit]
  | txnAbort key =>
      refine ⟨?_, held_abortTxn st key⟩
      rw [act, outputOps_abortTxn]
      simp [EntryAction.event, KeyedBuffer.Event.emit]

@[simp] theorem sentOps_finish (st : ApplyState) :
    st.finish.sentOps = st.outputOps :=
  sentOps_flush st

end ApplyState

/-- Without a limit the loop runs over the whole stream. -/
theorem applyLoop_none (debug : BsonDebug) (st : ApplyState)
    (stream : List (Document × Nat)) :
    ∃ st', applyLoop debug none st stream = .ok st' ∧
      st'.outputOps = st.outputOps ++
        KeyedBuffer.emitted st.held
          (stream.map fun entry => entryEvent debug entry.1) := by
  induction stream generalizing st with
  | nil => exact ⟨st, rfl, by simp⟩
  | cons entry rest ih =>
      obtain ⟨doc, entryBytes⟩ := entry
      obtain ⟨hops, hheld⟩ :=
        ApplyState.act_spec st entryBytes (classifyEntry debug doc)
      obtain ⟨st', hloop, hout⟩ :=
        ih (st.act entryBytes (classifyEntry debug doc))
      refine ⟨st', hloop, ?_⟩
      rw [hout, hops, hheld, List.map_cons, KeyedBuffer.emitted_cons,
        List.append_assoc]
      rfl

/-- An unlimited run sends what the buffer semantics lets through. -/
theorem applyStream_none (debug : BsonDebug)
    (stream : List (Document × Nat)) :
    ∃ st, applyStream debug none stream = .ok st ∧
      st.sentOps = KeyedBuffer.emitted KeyedBuffer.empty
        (stream.map fun entry => entryEvent debug entry.1) := by
  obtain ⟨st, hloop, hout⟩ := applyLoop_none debug .initial stream
  refine ⟨st.finish, by rw [applyStream, hloop]; rfl, ?_⟩
  rw [ApplyState.sentOps_finish, hout]
  rfl

/-- The entries an `apply_stream` run reaches before its limit. -/
def entriesBelow (limit : Option OplogTimestamp)
    (stream : List (Document × Nat)) : List (Document × Nat) :=
  match limit with
  | none => stream
  | some lim => stream.takeWhile fun entry =>
      (Document.getTimestamp entry.1 "ts").any fun ts => ts < lim

/-- A limited run is the unlimited run over the entries below the limit. -/
theorem applyStream_limit (debug : BsonDebug) (limit : Option OplogTimestamp)
    (stream : List (Document × Nat))
    (hts : ∀ entry ∈ stream, (Document.getTimestamp entry.1 "ts").isSome) :
    applyStream debug limit stream =
      applyStream debug none (entriesBelow limit stream) := by
  cases limit with
  | none => rfl
  | some lim =>
      have hloop : ∀ st, applyLoop debug (some lim) st stream =
          applyLoop debug none st (entriesBelow (some lim) stream) := by
        induction stream with
        | nil => exact fun _ => rfl
        | cons entry rest ih =>
            intro st
            obtain ⟨doc, entryBytes⟩ := entry
            obtain ⟨ts, hdoc⟩ := Option.isSome_iff_exists.mp
              (hts (doc, entryBytes) (by simp))
            have hrest := ih fun other hother =>
              hts other (List.mem_cons_of_mem _ hother)
            simp only [applyLoop, entryTs, hdoc]
            by_cases hle : lim ≤ ts
            · simp [hle, entriesBelow, hdoc, applyLoop]
            · have hlt : ts < lim := not_le.mp hle
              simp only [hle, if_false, hrest, entriesBelow,
                List.takeWhile_cons, hdoc, Option.any_some, hlt, decide_true,
                if_true, applyLoop]
      rw [applyStream, applyStream, hloop]

/-- An oplog entry as captured: the document, its size in the stream and the
timestamp it carries. -/
structure OplogEntry where
  doc : Document
  bytes : Nat
  ts : OplogTimestamp
  ts_eq : Document.getTimestamp doc "ts" = some ts

def OplogEntry.inStream (entry : OplogEntry) : Document × Nat :=
  (entry.doc, entry.bytes)

end XBackup
