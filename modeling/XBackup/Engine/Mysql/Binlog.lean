/-
A binlog as the transactions it holds, and what a capture makes of a dump of
it: the transactions behind a boundary, up to another boundary.
-/
import XBackup.Engine.Mysql.Capture
import XBackup.Foundation.Fallible
import XBackup.Foundation.Sections

namespace XBackup

namespace Mysql

open Fallible Sections

/-- A rows event with its table map and the full images of its rows. -/
structure TableRows (Image ColumnType : Type) where
  header : EventHeader
  op : Op
  tableMap : TableMap ColumnType
  rows : List (Option Image × Option Image)

/-- A transaction as far as it is written. -/
structure Unfinished (Image ColumnType : Type) where
  gtid : Option (EventHeader × UInt64)
  rows : List (TableRows Image ColumnType)

structure Transaction (Image ColumnType : Type) extends
    Unfinished Image ColumnType where
  commit : EventHeader

structure BinlogFile (Image ColumnType : Type) where
  name : String
  transactions : List (Transaction Image ColumnType)

/-- The files in their order; the last one may end inside of a transaction. -/
structure Binlog (Image ColumnType : Type) where
  files : List (BinlogFile Image ColumnType)
  opened : Unfinished Image ColumnType

/-- A transaction with the file it is in. -/
abbrev Located (Image ColumnType : Type) :=
  String × Transaction Image ColumnType

def Op.kind : Op → RowsEventKind
  | .insert => .writeRows
  | .update => .updateRows
  | .delete => .deleteRows

def position {Image ColumnType : Type} (item : Decoded Image ColumnType) :
    Nat :=
  item.1.logPos.toNat

section Binlog

variable {Image ColumnType : Type}

def TableRows.event (r : TableRows Image ColumnType) :
    Decoded Image ColumnType :=
  (r.header, .rows ⟨r.op.kind, some r.tableMap, r.rows.map .ok⟩)

def Unfinished.events (tx : Unfinished Image ColumnType) :
    List (Decoded Image ColumnType) :=
  (tx.gtid.map fun (header, timestamp) => (header, .gtid timestamp)).toList ++
    tx.rows.map TableRows.event

def Transaction.events (tx : Transaction Image ColumnType) :
    List (Decoded Image ColumnType) :=
  tx.toUnfinished.events ++ [(tx.commit, .xid)]

def BinlogFile.events (file : BinlogFile Image ColumnType) :
    List (Decoded Image ColumnType) :=
  file.transactions.flatMap Transaction.events

def BinlogFile.log (file : BinlogFile Image ColumnType) :
    List (Located Image ColumnType) :=
  file.transactions.map fun tx => (file.name, tx)

/-- The committed transactions in their order. -/
def Binlog.log (binlog : Binlog Image ColumnType) :
    List (Located Image ColumnType) :=
  binlog.files.flatMap BinlogFile.log

/-- File names do not repeat, and the positions in a file ascend behind its
magic number. -/
structure Binlog.WellFormed (binlog : Binlog Image ColumnType) : Prop where
  names : (binlog.files.map BinlogFile.name).Nodup
  ascending : ∀ file ∈ binlog.files,
    (4 :: file.events.map position).Pairwise (· < ·)

/-- Coordinates between two transactions of a binlog: those of `passed` are
written before them, those of `rest` behind. -/
def Binlog.Boundary (binlog : Binlog Image ColumnType) (file : String)
    (pos : Nat) (passed rest : List (Located Image ColumnType)) : Prop :=
  ∃ front before after back,
    binlog.files = front ++ ⟨file, before ++ after⟩ :: back ∧
    passed = front.flatMap BinlogFile.log ++ before.map (fun tx => (file, tx)) ∧
    rest = after.map (fun tx => (file, tx)) ++ back.flatMap BinlogFile.log ∧
    (∀ item ∈ before.flatMap Transaction.events, position item ≤ max pos 4) ∧
    ∀ item ∈ after.flatMap Transaction.events, max pos 4 < position item

/-- The events behind coordinates, by file. -/
def eventsBehind (file : String) (pos : Nat) :
    List (BinlogFile Image ColumnType) →
      List (String × List (Decoded Image ColumnType))
  | [] => []
  | first :: rest =>
      if first.name = file then
        (first.name,
            first.events.filter fun item => max pos 4 < position item) ::
          rest.map fun next => (next.name, next.events)
      else eventsBehind file pos rest

/-- What a server sends of files: of each the rotations to it and its events. -/
def Serves : List (String × List (Decoded Image ColumnType)) →
    List (Decoded Image ColumnType) → Prop
  | [], sent => sent = []
  | (name, events) :: rest, sent =>
      ∃ rotations sentBehind, sent = rotations ++ events ++ sentBehind ∧
        rotations ≠ [] ∧ (∀ item ∈ rotations, item.2 = .rotate name) ∧
        Serves rest sentBehind

/-- A dump of a binlog from coordinates on, without a failure, among other
events that the loop does not look into. -/
def Binlog.Dumps (binlog : Binlog Image ColumnType) (file : String) (pos : Nat)
    (stream : List (Except String (Event Image ColumnType))) : Prop :=
  (∀ item ∈ stream, ∃ header data, item = .ok ⟨header, .ok data⟩) ∧
    ∃ sent, Serves (eventsBehind file pos binlog.files) sent ∧
      stream.filterMap decoded = sent ++ binlog.opened.events

/-- The full images of a transaction's rows are rendered as `render` says. -/
def Unfinished.Renders (env : CaptureEnv Image ColumnType)
    (render : List (Option ColumnType) → Image → List String)
    (tx : Unfinished Image ColumnType) : Prop :=
  ∀ r ∈ tx.rows, ∀ row ∈ r.rows, ∀ image, row.1 = some image ∨
      row.2 = some image →
    env.renderRow r.tableMap.columnTypes image =
      .ok (render r.tableMap.columnTypes image)

def Binlog.Renders (env : CaptureEnv Image ColumnType)
    (render : List (Option ColumnType) → Image → List String)
    (binlog : Binlog Image ColumnType) : Prop :=
  binlog.opened.Renders env render ∧
    ∀ item ∈ binlog.log, item.2.toUnfinished.Renders env render

section Changes

variable (sourceDb : String)
  (render : List (Option ColumnType) → Image → List String)

/-- The changes of rows in the source database, or in any if it has no name. -/
def TableRows.changes (micros : Int64) (r : TableRows Image ColumnType) :
    List Change :=
  if sourceDb ≠ "" ∧ r.tableMap.databaseName ≠ sourceDb then []
  else
    let image := fun image : Option Image =>
      image.elim [] (render r.tableMap.columnTypes)
    r.rows.map fun (before, after) =>
      ⟨r.op, r.tableMap.databaseName, r.tableMap.tableName, image before,
        image after, micros⟩

def Unfinished.commitTime (tx : Unfinished Image ColumnType) : Int64 :=
  tx.gtid.elim 0 fun (_, timestamp) => timestamp.toInt64

def Unfinished.changes (tx : Unfinished Image ColumnType) : List Change :=
  tx.rows.flatMap fun r =>
    r.changes sourceDb render (commitMicros tx.commitTime r.header)

end Changes

end Binlog

section Items

variable {Image ColumnType : Type} (env : CaptureEnv Image ColumnType)
  (limit : Nat)

/-- The loop over what it looks into. -/
def captureItems (st : CaptureState) :
    List (Decoded Image ColumnType) → Except XBackupError CaptureState
  | [] => .ok st
  | (header, data) :: rest =>
      match captureEvent env limit st header data with
      | .error err => .error err
      | .ok next =>
          if next.morePending then .ok next else captureItems next rest

variable {env limit} {st next : CaptureState}
  {items rest : List (Decoded Image ColumnType)}

theorem captureLoop_eq_captureItems
    {stream : List (Except String (Event Image ColumnType))}
    (hpending : st.morePending = false)
    (hstream : ∀ item ∈ stream, ∃ header data,
      item = .ok ⟨header, .ok data⟩) :
    captureLoop env limit st stream =
      captureItems env limit st (stream.filterMap decoded) := by
  induction stream generalizing st with
  | nil => rfl
  | cons item stream ih =>
      obtain ⟨⟨header, data, rfl⟩, hrest⟩ := List.forall_mem_cons.mp hstream
      cases data with
      | none => exact ih hpending hrest
      | some data =>
          by_cases hignored : data = .other
          · subst hignored
            simp only [captureLoop, captureEvent, hpending]
            exact ih hpending hrest
          rw [List.filterMap_cons_some (decoded_ok hignored), captureLoop,
            captureItems]
          cases hevent : captureEvent env limit st header data with
          | error err => simp only [hevent]
          | ok next =>
              simp only [hevent]
              by_cases hmore : next.morePending = true
              · rw [if_pos hmore, if_pos hmore]
              · rw [if_neg hmore, if_neg hmore]
                exact ih (by simpa using hmore) hrest

theorem captureItems_cons {header : EventHeader}
    {data : EventData Image ColumnType}
    (hevent : captureEvent env limit st header data = .ok next)
    (hpending : next.morePending = false) :
    captureItems env limit st ((header, data) :: rest) =
      captureItems env limit next rest := by
  rw [captureItems, hevent]
  simp only [hpending]
  rfl

/-- A capture that was not stopped goes on. -/
theorem captureItems_append
    (hitems : captureItems env limit st items = .ok next)
    (hpending : next.morePending = false) :
    captureItems env limit st (items ++ rest) =
      captureItems env limit next rest := by
  induction items generalizing st with
  | nil =>
      cases hitems
      rfl
  | cons item items ih =>
      obtain ⟨header, data⟩ := item
      rw [captureItems] at hitems
      rw [List.cons_append, captureItems]
      split at hitems
      next => cases hitems
      next middle _ =>
        split at hitems
        next hmore =>
          cases hitems
          exact absurd hmore (by simp [hpending])
        next hmore =>
          rw [if_neg hmore]
          exact ih hitems

/-- A capture that was stopped reads nothing more. -/
theorem captureItems_append_stopped (hstart : st.morePending = false)
    (hitems : captureItems env limit st items = .ok next)
    (hpending : next.morePending = true) :
    captureItems env limit st (items ++ rest) = .ok next := by
  induction items generalizing st with
  | nil =>
      cases hitems
      exact absurd hpending (by simp [hstart])
  | cons item items ih =>
      obtain ⟨header, data⟩ := item
      rw [captureItems] at hitems
      rw [List.cons_append, captureItems]
      split at hitems
      next => cases hitems
      next middle _ =>
        split at hitems
        next hmore =>
          rw [if_pos hmore]
          exact hitems
        next hmore =>
          rw [if_neg hmore]
          exact ih (by simpa using hmore) hitems

end Items

section Capture

variable {Image ColumnType : Type} {env : CaptureEnv Image ColumnType}
  {limit : Nat} {render : List (Option ColumnType) → Image → List String}
  {st next : CaptureState}

theorem renderBinlogRow_eq {types : List (Option ColumnType)}
    {image : Option Image}
    (hrenders : ∀ value, image = some value →
      env.renderRow types value = .ok (render types value)) :
    renderBinlogRow env types image = .ok (image.elim [] (render types)) := by
  cases image with
  | none => rfl
  | some value => exact hrenders value rfl

theorem rowsChanges_event {micros : Int64} {r : TableRows Image ColumnType}
    (hrenders : ∀ row ∈ r.rows, ∀ image, row.1 = some image ∨
        row.2 = some image →
      env.renderRow r.tableMap.columnTypes image =
        .ok (render r.tableMap.columnTypes image)) :
    rowsChanges env micros ⟨r.op.kind, some r.tableMap, r.rows.map .ok⟩ =
      .ok (r.changes env.sourceDb render micros) := by
  have hop : r.op.kind.op = some r.op := by
    cases r.op <;> rfl
  rw [rowsChanges, hop, TableRows.changes]
  simp only
  split
  next => rfl
  next =>
    apply mapM_map_eq_ok
    intro row hrow
    obtain ⟨before, after⟩ := row
    have hbefore := renderBinlogRow_eq fun image himage =>
      hrenders _ hrow image (Or.inl himage)
    have hafter := renderBinlogRow_eq fun image himage =>
      hrenders _ hrow image (Or.inr himage)
    simp only [rowChange, hbefore, hafter]
    rfl

theorem captureItems_rows (limit : Nat)
    {rows : List (TableRows Image ColumnType)}
    (hpending : st.morePending = false)
    (hrenders : ∀ r ∈ rows, ∀ row ∈ r.rows, ∀ image, row.1 = some image ∨
        row.2 = some image →
      env.renderRow r.tableMap.columnTypes image =
        .ok (render r.tableMap.columnTypes image)) :
    captureItems env limit st (rows.map TableRows.event) =
      .ok { st with
        txBuf := st.txBuf ++ rows.flatMap fun r =>
          r.changes env.sourceDb render
            (commitMicros st.curCommitMicros r.header) } := by
  induction rows generalizing st with
  | nil => simp [captureItems]
  | cons r rows ih =>
      obtain ⟨hr, hrows⟩ := List.forall_mem_cons.mp hrenders
      have hevent : captureEvent env limit st r.header
          (.rows ⟨r.op.kind, some r.tableMap, r.rows.map .ok⟩) =
            .ok { st with
              txBuf := st.txBuf ++ r.changes env.sourceDb render
                (commitMicros st.curCommitMicros r.header) } := by
        rw [captureEvent, rowsChanges_event hr]
        rfl
      rw [List.map_cons, TableRows.event, captureItems_cons hevent hpending,
        ih (by exact hpending) hrows]
      simp

theorem captureItems_unfinished (limit : Nat)
    {tx : Unfinished Image ColumnType}
    (hpending : st.morePending = false) (hmicros : st.curCommitMicros = 0)
    (hrenders : tx.Renders env render) :
    captureItems env limit st tx.events =
      .ok { st with
        curCommitMicros := tx.commitTime
        txBuf := st.txBuf ++ tx.changes env.sourceDb render } := by
  obtain ⟨gtid, rows⟩ := tx
  cases gtid with
  | none =>
      have hrows := captureItems_rows limit hpending hrenders
      rw [hmicros] at hrows
      simpa [Unfinished.events, Unfinished.changes, Unfinished.commitTime,
        ← hmicros] using hrows
  | some gtid =>
      obtain ⟨header, timestamp⟩ := gtid
      have hevent : captureEvent env limit st header (.gtid timestamp) =
          .ok { st with curCommitMicros := timestamp.toInt64 } := rfl
      have hpending' : ({ st with curCommitMicros := timestamp.toInt64 } :
        CaptureState).morePending = false := hpending
      exact (captureItems_cons hevent hpending').trans
        (captureItems_rows limit hpending' hrenders)

/-- The state behind a transaction that began between two others. -/
def CaptureState.behind (limit : Nat) (st : CaptureState)
    (changes : List Change) (logPos : Nat) : CaptureState where
  curFile := st.curFile
  boundaryFile := st.curFile
  boundaryPos := logPos
  txBuf := []
  curCommitMicros := 0
  flushed := st.flushed ++ [changes]
  count := st.count + changes.length
  morePending := limit ≤ st.count + changes.length

theorem captureItems_transaction (limit : Nat)
    {tx : Transaction Image ColumnType}
    (hpending : st.morePending = false) (hbuf : st.txBuf = [])
    (hmicros : st.curCommitMicros = 0)
    (hrenders : tx.toUnfinished.Renders env render) :
    captureItems env limit st tx.events =
      .ok (st.behind limit (tx.changes env.sourceDb render)
        tx.commit.logPos.toNat) := by
  have hrows := captureItems_unfinished limit hpending hmicros
    hrenders
  rw [hbuf, List.nil_append] at hrows
  rw [Transaction.events, captureItems_append hrows (by exact hpending)]
  simp only [captureItems, captureEvent]
  split <;> rfl

theorem captureItems_rotations (env : CaptureEnv Image ColumnType)
    (limit : Nat) {name : String}
    {rotations : List (Decoded Image ColumnType)}
    (hpending : st.morePending = false) (hrotations : rotations ≠ [])
    (hnames : ∀ item ∈ rotations, item.2 = .rotate name) :
    captureItems env limit st rotations =
      .ok { st with curFile := name } := by
  induction rotations generalizing st with
  | nil => exact absurd rfl hrotations
  | cons item rotations ih =>
      obtain ⟨header, data⟩ := item
      obtain ⟨rfl, hrest⟩ := List.forall_mem_cons.mp hnames
      have hevent : captureEvent env limit st header
          (.rotate name : EventData Image ColumnType) =
            .ok { st with curFile := name } := rfl
      have hpending' : ({ st with curFile := name } :
        CaptureState).morePending = false := hpending
      rw [captureItems_cons hevent hpending']
      cases rotations with
      | nil => rfl
      | cons next rotations => exact ih hpending' (by simp) hrest

/-- The coordinates behind the last of some transactions. -/
def endOf (start : String × Nat) :
    List (Located Image ColumnType) → String × Nat
  | [] => start
  | (file, tx) :: rest => endOf (file, tx.commit.logPos.toNat) rest

theorem endOf_append (start : String × Nat)
    (front rest : List (Located Image ColumnType)) :
    endOf start (front ++ rest) = endOf (endOf start front) rest := by
  induction front generalizing start with
  | nil => rfl
  | cons item front ih => exact ih _

theorem endOf_concat (start : String × Nat)
    (front : List (Located Image ColumnType)) (file : String)
    (tx : Transaction Image ColumnType) :
    endOf start (front ++ [(file, tx)]) = (file, tx.commit.logPos.toNat) := by
  rw [endOf_append, endOf, endOf]

/-- Between two transactions a capture has taken some, from `st` on. -/
structure Took (env : CaptureEnv Image ColumnType)
    (render : List (Option ColumnType) → Image → List String)
    (st : CaptureState) (taken : List (Located Image ColumnType))
    (last : CaptureState) : Prop where
  flushed : last.flushed = st.flushed ++
    taken.map fun item => item.2.changes env.sourceDb render
  boundary : (last.boundaryFile, last.boundaryPos) =
    endOf (st.boundaryFile, st.boundaryPos) taken
  txBuf : last.txBuf = []
  curCommitMicros : last.curCommitMicros = 0

theorem Took.trans {taken more : List (Located Image ColumnType)}
    {last : CaptureState} (hfirst : Took env render st taken next)
    (hmore : Took env render next more last) :
    Took env render st (taken ++ more) last where
  flushed := by
    rw [hmore.flushed, hfirst.flushed, List.map_append, List.append_assoc]
  boundary := by
    rw [hmore.boundary, hfirst.boundary, endOf_append]
  txBuf := hmore.txBuf
  curCommitMicros := hmore.curCommitMicros

theorem captureItems_file (limit : Nat) (name : String)
    {txs : List (Transaction Image ColumnType)}
    (hpending : st.morePending = false) (hbuf : st.txBuf = [])
    (hmicros : st.curCommitMicros = 0) (hfile : st.curFile = name)
    (hrenders : ∀ tx ∈ txs, tx.toUnfinished.Renders env render) :
    ∃ taken left last, txs = taken ++ left ∧
      captureItems env limit st (txs.flatMap Transaction.events) = .ok last ∧
      Took env render st (taken.map fun tx => (name, tx)) last ∧
      (last.morePending = false → left = []) := by
  induction txs generalizing st with
  | nil =>
      exact ⟨[], [], st, rfl, rfl, ⟨by simp, rfl, hbuf, hmicros⟩,
        fun _ => rfl⟩
  | cons tx txs ih =>
      obtain ⟨htx, htxs⟩ := List.forall_mem_cons.mp hrenders
      have hitems := captureItems_transaction limit hpending hbuf
        hmicros htx
      generalize hnext : st.behind limit (tx.changes env.sourceDb render)
        tx.commit.logPos.toNat = next at hitems
      have htook : Took env render st [(name, tx)] next := by
        subst hnext
        exact ⟨rfl, by rw [CaptureState.behind, hfile]; rfl, rfl, rfl⟩
      rw [List.flatMap_cons]
      by_cases hmore : next.morePending = true
      · exact ⟨[tx], txs, next, rfl,
          captureItems_append_stopped hpending hitems hmore, htook,
          fun hdone => absurd hmore (by simp [hdone])⟩
      · have hgoes : next.morePending = false := by simpa using hmore
        rw [captureItems_append hitems hgoes]
        obtain ⟨taken, left, last, rfl, hlast, hrest, hleft⟩ :=
          ih hgoes htook.txBuf htook.curCommitMicros
            (by rw [← hnext]; exact hfile) htxs
        exact ⟨tx :: taken, left, last, rfl, hlast, htook.trans hrest, hleft⟩

theorem captureItems_files (limit : Nat)
    {files : List (BinlogFile Image ColumnType)}
    {sent : List (Decoded Image ColumnType)}
    (hpending : st.morePending = false) (hbuf : st.txBuf = [])
    (hmicros : st.curCommitMicros = 0)
    (hserves : Serves (files.map fun file => (file.name, file.events)) sent)
    (hrenders : ∀ item ∈ files.flatMap BinlogFile.log,
      item.2.toUnfinished.Renders env render) :
    ∃ taken left last, files.flatMap BinlogFile.log = taken ++ left ∧
      captureItems env limit st sent = .ok last ∧
      Took env render st taken last ∧
      (last.morePending = false → left = []) := by
  induction files generalizing st sent with
  | nil =>
      cases hserves
      exact ⟨[], [], st, rfl, rfl, ⟨by simp, rfl, hbuf, hmicros⟩,
        fun _ => rfl⟩
  | cons file files ih =>
      obtain ⟨rotations, sentBehind, rfl, hrotations, hnames, hbehind⟩ :=
        hserves
      rw [List.flatMap_cons, List.forall_mem_append] at hrenders
      have hitems := captureItems_rotations env limit hpending hrotations
        hnames
      generalize hst : ({ st with curFile := file.name } : CaptureState) =
        moved at hitems
      have hmoved : moved.morePending = false := by rw [← hst]; exact hpending
      rw [List.flatMap_cons, List.append_assoc,
        captureItems_append hitems hmoved]
      obtain ⟨taken, left, next, hsplit, hitems, htook, hleft⟩ :=
        captureItems_file limit file.name hmoved (by rw [← hst]; exact hbuf)
          (by rw [← hst]; exact hmicros) (by rw [← hst]) fun tx htx =>
            hrenders.1 (file.name, tx) (List.mem_map_of_mem htx)
      have hlog : file.log = taken.map (fun tx => (file.name, tx)) ++
          left.map fun tx => (file.name, tx) := by
        rw [BinlogFile.log, hsplit, List.map_append]
      have hstart : Took env render st (taken.map fun tx => (file.name, tx))
          next := by
        subst hst
        exact ⟨htook.flushed, htook.boundary, htook.txBuf,
          htook.curCommitMicros⟩
      rw [hlog, List.append_assoc, BinlogFile.events]
      by_cases hmore : next.morePending = true
      · exact ⟨_, _, next, rfl,
          captureItems_append_stopped hmoved hitems hmore, hstart,
          fun hdone => absurd hmore (by simp [hdone])⟩
      · have hgoes : next.morePending = false := by simpa using hmore
        rw [captureItems_append hitems hgoes]
        obtain ⟨more, rest, last, hrest, hlast, htook', hend⟩ :=
          ih hgoes hstart.txBuf hstart.curCommitMicros hbehind hrenders.2
        rw [hleft hgoes, hrest]
        exact ⟨_, rest, last, by simp, hlast, hstart.trans htook', hend⟩

end Capture

section Boundary

variable {Image ColumnType : Type} {binlog : Binlog Image ColumnType}
  {file : String} {passed rest : List (Located Image ColumnType)}

theorem eventsBehind_of_boundary (hwf : binlog.WellFormed) {pos : Nat}
    (hboundary : binlog.Boundary file pos passed rest) :
    ∃ files : List (BinlogFile Image ColumnType),
      eventsBehind file pos binlog.files =
        files.map (fun next => (next.name, next.events)) ∧
      files.flatMap BinlogFile.log = rest := by
  obtain ⟨front, before, after, back, hfiles, -, rfl, hbefore, hafter⟩ :=
    hboundary
  have hnames := hwf.names
  rw [hfiles] at hnames ⊢
  refine ⟨⟨file, after⟩ :: back, ?_, rfl⟩
  clear hfiles
  induction front with
  | nil =>
      have hevents : (BinlogFile.mk file (before ++ after)).events.filter
          (fun item => max pos 4 < position item) =
            (BinlogFile.mk file after).events := by
        rw [BinlogFile.events, List.flatMap_append, List.filter_append,
          List.filter_eq_nil_iff.mpr, List.filter_eq_self.mpr]
        · rfl
        · exact fun item hitem => decide_eq_true (hafter item hitem)
        · intro item hitem
          rw [decide_eq_true_iff, Nat.not_lt]
          exact hbefore item hitem
      rw [List.nil_append, eventsBehind, if_pos rfl, hevents]
      rfl
  | cons first front ih =>
      rw [List.cons_append, List.map_cons, List.nodup_cons] at hnames
      have hother : first.name ≠ file := by
        rintro rfl
        exact hnames.1 (by simp)
      rw [List.cons_append, eventsBehind, if_neg hother]
      exact ih hnames.2

/-- A committed transaction ends at a boundary. -/
theorem boundary_of_log (hwf : binlog.WellFormed)
    {tx : Transaction Image ColumnType}
    (hlog : binlog.log = passed ++ (file, tx) :: rest) :
    binlog.Boundary file tx.commit.logPos.toNat (passed ++ [(file, tx)])
      rest := by
  obtain ⟨front, found, before, after, back, hfiles, hfound, rfl, rfl⟩ :=
    flatMap_eq_append_cons hlog
  obtain ⟨name, txs⟩ := found
  obtain ⟨txsBefore, txsBehind, rfl, rfl, hrest⟩ :=
    List.map_eq_append_iff.mp hfound
  obtain ⟨tx', txsAfter, rfl, hitem, rfl⟩ := List.map_eq_cons_iff.mp hrest
  cases hitem
  have hascending := hwf.ascending ⟨name, txsBefore ++ tx :: txsAfter⟩
    (by simp [hfiles])
  have hevents : (BinlogFile.mk name (txsBefore ++ tx :: txsAfter)).events =
      txsBefore.flatMap Transaction.events ++ tx.toUnfinished.events ++
        (tx.commit, .xid) :: txsAfter.flatMap Transaction.events := by
    simp [BinlogFile.events, Transaction.events]
  rw [hevents, List.map_append, ← List.cons_append, List.map_cons,
    List.pairwise_append] at hascending
  obtain ⟨-, hcommit, hacross⟩ := hascending
  have hbehind := (List.pairwise_cons.mp hcommit).1
  have hmagic : 4 < tx.commit.logPos.toNat :=
    hacross 4 List.mem_cons_self _ List.mem_cons_self
  have hmax : max tx.commit.logPos.toNat 4 = tx.commit.logPos.toNat :=
    Nat.max_eq_left hmagic.le
  refine ⟨front, txsBefore ++ [tx], txsAfter, back, by simp [hfiles], by simp,
    rfl, ?_, ?_⟩
  · intro item hitem
    rw [hmax]
    rw [List.flatMap_append, List.flatMap_singleton, Transaction.events,
      ← List.append_assoc, List.mem_append, List.mem_singleton] at hitem
    rcases hitem with hearlier | rfl
    · exact (hacross (position item)
        (List.mem_cons_of_mem 4 (List.mem_map_of_mem hearlier)) _
        List.mem_cons_self).le
    · exact Nat.le_refl _
  · intro item hitem
    rw [hmax]
    exact hbehind (position item) (List.mem_map_of_mem hitem)

theorem log_of_boundary {pos : Nat}
    (hboundary : binlog.Boundary file pos passed rest) :
    binlog.log = passed ++ rest := by
  obtain ⟨front, before, after, back, hfiles, rfl, rfl, -, -⟩ := hboundary
  simp [Binlog.log, hfiles, BinlogFile.log]

/-- A capture of a dump from a boundary on succeeds.  It takes the first
transactions behind the boundary, all of them if it is not stopped, and ends
behind the last one. -/
theorem captureRun_dump {env : CaptureEnv Image ColumnType}
    {render : List (Option ColumnType) → Image → List String}
    {start : MysqlBinlogCoords}
    {stream : List (Except String (Event Image ColumnType))}
    (hwf : binlog.WellFormed)
    (hboundary : binlog.Boundary start.file start.position passed rest)
    (hdumps : binlog.Dumps start.file start.position stream)
    (hrenders : binlog.Renders env render) :
    ∃ last taken left, captureRun env start stream = .ok last ∧
      rest = taken ++ left ∧
      last.flushed =
        taken.map (fun item => item.2.changes env.sourceDb render) ∧
      (last.boundaryFile, last.boundaryPos) =
        endOf (start.file, start.position) taken ∧
      (last.morePending = false → left = []) := by
  obtain ⟨hreadable, sent, hserves, hstream⟩ := hdumps
  obtain ⟨files, hbehind, hlog⟩ := eventsBehind_of_boundary hwf hboundary
  rw [hbehind] at hserves
  have hrest : ∀ item ∈ files.flatMap BinlogFile.log,
      item.2.toUnfinished.Renders env render := by
    intro item hitem
    apply hrenders.2 item
    rw [log_of_boundary hboundary, ← hlog]
    exact List.mem_append_right _ hitem
  have hidle : (CaptureState.start start).morePending = false := rfl
  obtain ⟨taken, left, last, hsplit, hitems, htook, hleft⟩ :=
    captureItems_files MAX_CHANGES_PER_CAPTURE hidle rfl rfl hserves hrest
  rw [captureRun, captureLoop_eq_captureItems rfl hreadable, hstream]
  have hflushed := htook.flushed
  have hends := htook.boundary
  by_cases hmore : last.morePending = true
  · exact ⟨last, taken, left,
      captureItems_append_stopped rfl hitems hmore, hlog ▸ hsplit, hflushed,
      hends, hleft⟩
  · have hgoes : last.morePending = false := by simpa using hmore
    rw [captureItems_append hitems hgoes,
      captureItems_unfinished _ hgoes htook.curCommitMicros hrenders.1]
    exact ⟨_, taken, left, rfl, hlog ▸ hsplit, hflushed, hends,
      fun _ => hleft hgoes⟩

end Boundary

end Mysql

end XBackup
