/-
The order a replay has to keep, entry by entry, and that the batches of
`applyStream` keep it.
-/
import XBackup.Engine.Mongo.Apply

namespace XBackup

/-- The entries before the first one at the limit or behind it. -/
def beforeLimit (limit : Option OplogTimestamp) (stream : List OplogEntry) :
    List OplogEntry :=
  match limit with
  | none => stream
  | some lim => stream.takeWhile fun entry => entry.ts < lim

section Reference

variable (debug : BsonDebug)

/-- The inner operations that wait for the end of a transaction, in the order of
its pieces; the entries are given the last first. -/
def waitingOps (key : String) : List OplogEntry → List Document
  | [] => []
  | entry :: earlier =>
      match classifyEntry debug entry.doc with
      | .txnBuffer other ops =>
          if other = key then waitingOps key earlier ++ ops
          else waitingOps key earlier
      | .txnBufferThenCommit other _ =>
          if other = key then [] else waitingOps key earlier
      | .txnCommit other => if other = key then [] else waitingOps key earlier
      | .txnAbort other => if other = key then [] else waitingOps key earlier
      | .skip => waitingOps key earlier
      | .apply _ => waitingOps key earlier

/-- What one entry stands for at its own position. -/
def opsAt (earlier : List OplogEntry) (entry : OplogEntry) : List Document :=
  match classifyEntry debug entry.doc with
  | .skip => []
  | .apply op => [op]
  | .txnBuffer _ _ => []
  | .txnBufferThenCommit key ops => waitingOps debug key earlier ++ ops
  | .txnCommit key => waitingOps debug key earlier
  | .txnAbort _ => []

def referenceOps (earlier : List OplogEntry) :
    List OplogEntry → List Document
  | [] => []
  | entry :: rest =>
      opsAt debug earlier entry ++ referenceOps (entry :: earlier) rest

/-- What an entry adds to be accounted for: itself, or the operations inside. -/
def EntryAction.size : EntryAction → Nat
  | .skip => 1
  | .apply _ => 1
  | .txnBuffer _ ops => ops.length
  | .txnBufferThenCommit _ ops => ops.length
  | .txnCommit _ => 0
  | .txnAbort _ => 0

def entrySize (entry : OplogEntry) : Nat :=
  (classifyEntry debug entry.doc).size

end Reference

section Sums

variable {α : Type}

/-- A sum over the entries of a list with keys, and over those of the others. -/
theorem sum_kerase (size : α → Nat) (key : String)
    (entries : List (Sigma fun _ : String => α)) :
    (entries.map fun entry => size entry.2).sum =
      ((entries.kerase key).map fun entry => size entry.2).sum +
        ((entries.dlookup key).map size).getD 0 := by
  induction entries with
  | nil => rfl
  | cons entry rest ih =>
      by_cases heq : key = entry.1
      · obtain ⟨other, value⟩ := entry
        cases heq
        rw [List.kerase_cons_eq rfl, List.dlookup_cons_eq, List.map_cons,
          List.sum_cons, Nat.add_comm]
        rfl
      · rw [List.kerase_cons_ne heq, List.dlookup_cons_ne _ _ heq, List.map_cons,
          List.map_cons, List.sum_cons, List.sum_cons, ih, Nat.add_assoc]

end Sums

namespace ApplyState

/-- The operations in the buffers. -/
def openOps (st : ApplyState) : Nat :=
  (st.txns.entries.map fun pending => pending.2.length).sum

theorem openOps_congr {left right : ApplyState}
    (htxns : left.txns = right.txns) : left.openOps = right.openOps := by
  rw [openOps, openOps, htxns]

theorem openOps_erase (st : ApplyState) (key : String) :
    st.openOps = openOps { st with txns := st.txns.erase key } +
      (st.held key).length := by
  have hsum := sum_kerase List.length key st.txns.entries
  rw [openOps, hsum, held]
  congr 1
  cases hlookup : st.txns.lookup key with
  | none =>
      rw [AList.lookup] at hlookup
      rw [hlookup]
      rfl
  | some ops =>
      rw [AList.lookup] at hlookup
      rw [hlookup]
      rfl

theorem openOps_bufferTxn (st : ApplyState) (key : String)
    (ops : List Document) :
    (st.bufferTxn key ops).openOps = st.openOps + ops.length := by
  rw [openOps_erase st key, bufferTxn, openOps, AList.entries_insert,
    List.map_cons, List.sum_cons, List.length_append]
  change _ + (openOps { st with txns := st.txns.erase key }) = _
  rw [held]
  omega

/-- Applied operations are counted as they are sent. -/
def Counted (st : ApplyState) : Prop :=
  st.stats.applied = st.sentOps.length

theorem Counted.applyOps {st : ApplyState} (hcounted : st.Counted)
    (ops : List Document) :
    (st.applyOps ops).Counted ∧
      (st.applyOps ops).stats.skipped = st.stats.skipped := by
  refine ⟨?_, ?_⟩
  · rw [Counted, sentOps_applyOps, List.length_append, ← hcounted,
      ApplyState.applyOps]
    split
    next hempty => rw [List.isEmpty_iff.mp hempty]; rfl
    next => rfl
  · rw [ApplyState.applyOps]
    split <;> rfl

theorem Counted.foldl_applyOps {st : ApplyState} (hcounted : st.Counted)
    (chunks : List (List Document)) :
    (chunks.foldl ApplyState.applyOps st).Counted ∧
      (chunks.foldl ApplyState.applyOps st).stats.skipped =
        st.stats.skipped := by
  induction chunks generalizing st with
  | nil => exact ⟨hcounted, rfl⟩
  | cons chunk rest ih =>
      obtain ⟨hnext, hskipped⟩ := hcounted.applyOps chunk
      obtain ⟨hlast, hsame⟩ := ih hnext
      exact ⟨hlast, hsame.trans hskipped⟩

theorem Counted.flush {st : ApplyState} (hcounted : st.Counted) :
    st.flush.Counted ∧ st.flush.stats.skipped = st.stats.skipped :=
  hcounted.applyOps st.batch

theorem Counted.commitTxn {st : ApplyState} (hcounted : st.Counted)
    (key : String) :
    (st.commitTxn key).Counted ∧
      (st.commitTxn key).stats.skipped = st.stats.skipped := by
  have herased : Counted { st with txns := st.txns.erase key } := hcounted
  obtain ⟨hflush, hskipped⟩ := herased.flush
  obtain ⟨hlast, hsame⟩ := hflush.foldl_applyOps
    (chunksFrom MAX_BATCH_OPS [] ((st.txns.lookup key).getD []))
  exact ⟨hlast, hsame.trans hskipped⟩

theorem Counted.applyCrud {st : ApplyState} (hcounted : st.Counted)
    (op : Document) (entryBytes : Nat) :
    (st.applyCrud op entryBytes).Counted ∧
      (st.applyCrud op entryBytes).stats.skipped = st.stats.skipped ∧
      (st.applyCrud op entryBytes).txns = st.txns := by
  rw [ApplyState.applyCrud]
  split
  next => exact ⟨hcounted.flush.1, hcounted.flush.2, txns_flush st⟩
  next => exact ⟨hcounted, rfl, rfl⟩

theorem openOps_commitTxn (st : ApplyState) (key : String) :
    (st.commitTxn key).openOps + (st.held key).length = st.openOps := by
  obtain ⟨-, -, htxns⟩ := foldl_applyOps
    (flush { st with txns := st.txns.erase key })
    (chunksFrom MAX_BATCH_OPS [] ((st.txns.lookup key).getD []))
  rw [openOps_erase st key]
  congr 1
  exact openOps_congr (htxns.trans (txns_flush _))

theorem openOps_abortTxn (st : ApplyState) (key : String) :
    (st.abortTxn key).openOps + (st.abortTxn key).stats.skipped =
      st.openOps + st.stats.skipped := by
  rw [abortTxn]
  cases hlookup : st.txns.lookup key with
  | none => rfl
  | some dropped =>
      have herase := openOps_erase st key
      rw [held, hlookup, Option.getD_some] at herase
      change openOps { st with txns := st.txns.erase key } +
        (st.stats.skipped + dropped.length) = _
      omega

/-- What is accounted for: skipped, in a buffer, sent or in the batch. -/
def accounted (st : ApplyState) : Nat :=
  st.stats.skipped + st.openOps + st.outputOps.length

/-- Every entry is accounted for as it is taken. -/
theorem Counted.act {st : ApplyState} (hcounted : st.Counted) (entryBytes : Nat)
    (action : EntryAction) :
    (st.act entryBytes action).Counted ∧
      (st.act entryBytes action).accounted = st.accounted + action.size := by
  have hout := congrArg List.length (act_spec st entryBytes action).1
  rw [List.length_append] at hout
  rw [accounted, accounted, hout]
  cases action with
  | skip =>
      refine ⟨hcounted, ?_⟩
      change st.stats.skipped + 1 + st.openOps + (st.outputOps.length + 0) =
        st.stats.skipped + st.openOps + st.outputOps.length + 1
      omega
  | apply op =>
      rw [ApplyState.act]
      split
      next =>
        obtain ⟨hlast, hskipped⟩ := hcounted.flush.1.applyOps [op]
        have htxns : (st.flush.applyOps [op]).txns = st.txns :=
          (txns_applyOps _ _).trans (txns_flush st)
        refine ⟨hlast, ?_⟩
        rw [hskipped, hcounted.flush.2, openOps_congr htxns]
        rfl
      next =>
        obtain ⟨hlast, hskipped, htxns⟩ := hcounted.applyCrud op entryBytes
        refine ⟨hlast, ?_⟩
        rw [hskipped, openOps_congr htxns]
        rfl
  | txnBuffer key ops =>
      refine ⟨hcounted, ?_⟩
      have hopen := openOps_bufferTxn st key ops
      change st.stats.skipped + (st.bufferTxn key ops).openOps +
        (st.outputOps.length + 0) = _ + ops.length
      omega
  | txnBufferThenCommit key ops =>
      have hbuffered : (st.bufferTxn key ops).Counted := hcounted
      obtain ⟨hlast, hskipped⟩ := hbuffered.commitTxn key
      have hopen := openOps_commitTxn (st.bufferTxn key ops) key
      have hheld := congrFun (held_bufferTxn st key ops) key
      rw [Function.update_self] at hheld
      rw [openOps_bufferTxn, hheld, List.length_append] at hopen
      refine ⟨hlast, ?_⟩
      change ((st.bufferTxn key ops).commitTxn key).stats.skipped +
        ((st.bufferTxn key ops).commitTxn key).openOps +
          (st.outputOps.length + (st.held key ++ ops).length) =
            _ + ops.length
      rw [hskipped, List.length_append]
      change st.stats.skipped + _ + _ = _
      omega
  | txnCommit key =>
      obtain ⟨hlast, hskipped⟩ := hcounted.commitTxn key
      have hopen := openOps_commitTxn st key
      refine ⟨hlast, ?_⟩
      change (st.commitTxn key).stats.skipped + (st.commitTxn key).openOps +
        (st.outputOps.length + (st.held key ++ []).length) = _ + 0
      rw [hskipped, List.append_nil]
      omega
  | txnAbort key =>
      have hopen := openOps_abortTxn st key
      refine ⟨?_, ?_⟩
      · change (st.abortTxn key).Counted
        rw [ApplyState.abortTxn]
        split
        next => exact hcounted
        next => exact hcounted
      · change (st.abortTxn key).stats.skipped + (st.abortTxn key).openOps +
          (st.outputOps.length + 0) = _ + 0
        omega

theorem Counted.finish {st : ApplyState} (hcounted : st.Counted) :
    st.finish.stats.applied = st.finish.sentOps.length ∧
      st.finish.stats.applied + st.finish.stats.skipped = st.accounted := by
  have hlast : st.finish.Counted := hcounted.flush.1
  have hskipped : st.finish.stats.skipped = st.stats.skipped + st.openOps := by
    change st.flush.stats.skipped + st.flush.openOps = _
    rw [hcounted.flush.2, openOps_congr (txns_flush st)]
  refine ⟨hlast, ?_⟩
  rw [hlast, hskipped, sentOps_finish, accounted]
  omega

end ApplyState

section Loop

variable {debug : BsonDebug}

/-- The buffers hold what waits, as an entry is taken. -/
theorem waitingOps_act {st : ApplyState} {earlier : List OplogEntry}
    (hheld : ∀ key, st.held key = waitingOps debug key earlier)
    (entry : OplogEntry) (entryBytes : Nat) (key : String) :
    (st.act entryBytes (classifyEntry debug entry.doc)).held key =
      waitingOps debug key (entry :: earlier) := by
  rw [(ApplyState.act_spec st entryBytes _).2, waitingOps]
  have hupdate : ∀ other ops, Function.update st.held other ops key =
      if other = key then ops else waitingOps debug key earlier := by
    intro other ops
    rw [Function.update_apply, hheld key]
    simp only [@eq_comm _ key other]
  cases classifyEntry debug entry.doc with
  | skip => exact hheld key
  | apply op => exact hheld key
  | txnBuffer other ops =>
      refine (hupdate other (st.held other ++ ops)).trans ?_
      by_cases hother : other = key
      · rw [if_pos hother]
        simp only [hother, if_true, hheld key]
      · rw [if_neg hother]
        simp only [hother, if_false]
  | txnBufferThenCommit other ops => exact hupdate other []
  | txnCommit other => exact hupdate other []
  | txnAbort other => exact hupdate other []

theorem opsAt_act {st : ApplyState} {earlier : List OplogEntry}
    (hheld : ∀ key, st.held key = waitingOps debug key earlier)
    (entry : OplogEntry) :
    (classifyEntry debug entry.doc).event.emit st.held =
      opsAt debug earlier entry := by
  rw [opsAt]
  cases classifyEntry debug entry.doc with
  | skip => rfl
  | apply op => rfl
  | txnBuffer key ops => rfl
  | txnBufferThenCommit key ops => exact congrArg (· ++ ops) (hheld key)
  | txnCommit key => exact (List.append_nil _).trans (hheld key)
  | txnAbort key => rfl

/-- The loop follows the reference from wherever it stands. -/
theorem applyLoop_reference (limit : Option OplogTimestamp)
    (stream : List OplogEntry) (st : ApplyState) (earlier : List OplogEntry)
    (hheld : ∀ key, st.held key = waitingOps debug key earlier)
    (hcounted : st.Counted) :
    ∃ last, applyLoop debug limit st (stream.map OplogEntry.inStream) =
        .ok last ∧
      last.outputOps = st.outputOps ++
        referenceOps debug earlier (beforeLimit limit stream) ∧
      last.Counted ∧
      last.accounted = st.accounted +
        ((beforeLimit limit stream).map (entrySize debug)).sum := by
  induction stream generalizing st earlier with
  | nil =>
      refine ⟨st, rfl, ?_, hcounted, ?_⟩
      · cases limit <;> exact (List.append_nil _).symm
      · cases limit <;> rfl
  | cons entry rest ih =>
      obtain ⟨hnext, hsize⟩ :=
        hcounted.act entry.bytes (classifyEntry debug entry.doc)
      have hops := (ApplyState.act_spec st entry.bytes
        (classifyEntry debug entry.doc)).1
      rw [opsAt_act hheld] at hops
      obtain ⟨last, hloop, hout, hlast, hsum⟩ :=
        ih _ (entry :: earlier) (waitingOps_act hheld entry entry.bytes) hnext
      have htaken : ∀ taken : List OplogEntry,
          last.outputOps = (st.act entry.bytes
              (classifyEntry debug entry.doc)).outputOps ++
            referenceOps debug (entry :: earlier) taken →
          last.accounted = (st.act entry.bytes
              (classifyEntry debug entry.doc)).accounted +
            (taken.map (entrySize debug)).sum →
          last.outputOps = st.outputOps ++
              referenceOps debug earlier (entry :: taken) ∧
            last.accounted = st.accounted +
              ((entry :: taken).map (entrySize debug)).sum := by
        intro taken hout hsum
        refine ⟨?_, ?_⟩
        · rw [hout, hops, referenceOps, List.append_assoc]
        · rw [hsum, hsize, List.map_cons, List.sum_cons, entrySize,
            Nat.add_assoc]
      cases limit with
      | none =>
          obtain ⟨hreference, haccounted⟩ := htaken rest hout hsum
          exact ⟨last, hloop, hreference, hlast, haccounted⟩
      | some lim =>
          by_cases hle : lim ≤ entry.ts
          · have hstop : beforeLimit (some lim) (entry :: rest) = [] := by
              rw [beforeLimit, List.takeWhile_cons_of_neg]
              simpa using hle
            rw [hstop]
            refine ⟨st, ?_, (List.append_nil _).symm, hcounted, rfl⟩
            simp only [List.map_cons, OplogEntry.inStream, applyLoop, entryTs,
              entry.ts_eq, if_pos hle]
          · have hmore : beforeLimit (some lim) (entry :: rest) =
                entry :: beforeLimit (some lim) rest := by
              rw [beforeLimit, List.takeWhile_cons_of_pos]
              · rfl
              · simpa using hle
            obtain ⟨hreference, haccounted⟩ := htaken _ hout hsum
            rw [hmore]
            refine ⟨last, ?_, hreference, hlast, haccounted⟩
            rw [← hloop]
            simp only [List.map_cons, OplogEntry.inStream, applyLoop, entryTs,
              entry.ts_eq, if_neg hle]

end Loop

end XBackup
