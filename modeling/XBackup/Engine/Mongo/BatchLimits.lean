/-
How large the commands of a replay are.  The batch of single entries is bounded
by count and by size; the operations of a transaction are cut by count alone.
-/
import XBackup.Engine.Encoding
import XBackup.Engine.Mongo.Stream
import XBackup.Foundation.Chunks
import XBackup.Foundation.History

namespace XBackup

/-- The bytes a document takes in the stream. -/
def Document.size (doc : Document) : Nat :=
  (BsonBytes.encode doc).length

/-- The inner entries of an `applyOps` command, each with its size as it was
captured. -/
def sizedTxnOps (o : Document) : List (Document × Nat) :=
  match Document.getArray o "applyOps" with
  | none => []
  | some items => items.filterMap fun item =>
      match item with
      | .document d => some (sanitizeEntry d, Document.size d)
      | _ => none

/-- An entry as an event on the transaction buffers; every operation comes with
its size in the stream. -/
def sizedEvent (debug : BsonDebug) (entry : Document × Nat) :
    KeyedBuffer.Event String (Document × Nat) :=
  let inner := sizedTxnOps ((Document.getDocument entry.1 "o").getD [])
  match classifyEntry debug entry.1 with
  | .skip => .pass []
  | .apply op => .pass [(op, entry.2)]
  | .txnBuffer key _ => .hold key inner
  | .txnBufferThenCommit key _ => .release key inner
  | .txnCommit key => .release key []
  | .txnAbort key => .drop key

/-- What the buffers hold behind `entries`. -/
def sizedHeld (debug : BsonDebug) (entries : List (Document × Nat)) :
    KeyedBuffer.Held String (Document × Nat) :=
  KeyedBuffer.heldAfter KeyedBuffer.empty (entries.map (sizedEvent debug))

def sizedOps (debug : BsonDebug) (entries : List (Document × Nat)) :
    List (Document × Nat) :=
  KeyedBuffer.emitted KeyedBuffer.empty (entries.map (sizedEvent debug))

/-- The bound on the size, which a single operation may exceed. -/
def WithinBytes (ops : List (Document × Nat)) : Prop :=
  ops.length = 1 ∨ (ops.map Prod.snd).sum ≤ MAX_BATCH_BYTES

def WithinLimits (call : List (Document × Nat)) : Prop :=
  call.length ≤ MAX_BATCH_OPS ∧ WithinBytes call

/-- Where an entry commits a transaction: every thousand of its operations, from
its first on, keep the bound on the size. -/
def CommitFits (held : KeyedBuffer.Held String (Document × Nat)) :
    KeyedBuffer.Event String (Document × Nat) → Prop
  | .pass _ => True
  | .hold _ _ => True
  | .release key items => ∀ k, WithinBytes
      (((held key ++ items).drop (MAX_BATCH_OPS * k)).take MAX_BATCH_OPS)
  | .drop _ => True

section Run

variable (debug : BsonDebug) (limit : Option OplogTimestamp)
  (err : Option XBackupError)

/-- The entry loop, with the state in which an error ends it. -/
def applyRun (st : ApplyState) :
    List (Document × Nat) → ApplyState × Option XBackupError
  | [] => (st, err)
  | (entry, entryBytes) :: rest =>
      match limit with
      | none => applyRun (st.act entryBytes (classifyEntry debug entry)) rest
      | some lim =>
          match entryTs debug entry with
          | .error e => (st, some e)
          | .ok ts =>
              if lim ≤ ts then (st, none)
              else
                applyRun (st.act entryBytes (classifyEntry debug entry)) rest

/-- The calls of a run; behind an error nothing more is sent. -/
def applyCalls (stream : List (Document × Nat)) : List (List Document) :=
  match applyRun debug limit err .initial stream with
  | (st, none) => st.finish.commands
  | (st, some _) => st.commands

/-- The calls, each operation with its size in the stream. -/
def sizedCalls (stream : List (Document × Nat)) :
    List (List (Document × Nat)) :=
  ((applyCalls debug limit err stream).map List.length).splitLengths
    (sizedOps debug (entriesBelow limit stream))

/-- The state behind `entries`. -/
def stateAfter (entries : List (Document × Nat)) : ApplyState :=
  entries.foldl (fun st entry =>
    st.act entry.2 (classifyEntry debug entry.1)) .initial

variable {debug limit err}

theorem applyRun_result (st : ApplyState) (stream : List (Document × Nat)) :
    applyEntries debug limit err st stream =
      match applyRun debug limit err st stream with
      | (last, none) => .ok last
      | (_, some e) => .error e := by
  induction stream generalizing st with
  | nil => cases err <;> rfl
  | cons entry rest ih =>
      obtain ⟨entry, entryBytes⟩ := entry
      cases limit with
      | none => exact ih _
      | some lim =>
          rw [applyEntries, applyRun]
          cases entryTs debug entry with
          | error e => rfl
          | ok ts =>
              dsimp only
              split
              next => rfl
              next => exact ih _

/-- A replay that comes to its end has made the calls of the run over the
entries it reads. -/
theorem applyCalls_of_applyBytes {lib : BsonLib} {input : List UInt8}
    {st : ApplyState} (hreplay : applyBytes lib debug limit input = .ok st) :
    applyCalls debug limit ((entryReader lib).all input).2
      ((entryReader lib).all input).1 = st.commands := by
  rw [applyBytes, applyRun_result] at hreplay
  rw [applyCalls]
  rcases hrun : applyRun debug limit ((entryReader lib).all input).2 .initial
    ((entryReader lib).all input).1 with ⟨last, _ | e⟩
  · rw [hrun] at hreplay
    cases hreplay
    rfl
  · rw [hrun] at hreplay
    cases hreplay

/-- The state at the end is the one behind the entries below the limit. -/
theorem applyRun_state (st : ApplyState) (stream : List (Document × Nat)) :
    (applyRun debug limit err st stream).1 =
      (entriesBelow limit stream).foldl (fun st entry =>
        st.act entry.2 (classifyEntry debug entry.1)) st := by
  induction stream generalizing st with
  | nil => cases limit <;> rfl
  | cons entry rest ih =>
      obtain ⟨entry, entryBytes⟩ := entry
      cases limit with
      | none => exact ih _
      | some lim =>
          rw [applyRun, entriesBelow, entryTs]
          cases hts : Document.getTimestamp entry "ts" with
          | none =>
              rw [List.takeWhile_cons_of_neg (by simp [hts])]
              rfl
          | some ts =>
              dsimp only
              by_cases hle : lim ≤ ts
              · rw [if_pos hle, List.takeWhile_cons_of_neg (by simpa [hts])]
                rfl
              · rw [if_neg hle, List.takeWhile_cons_of_pos
                  (by simpa [hts] using hle)]
                exact ih _

end Run

/-- The sized operations are those that are sent. -/
theorem map_sizedTxnOps (o : Document) :
    (sizedTxnOps o).map Prod.fst = innerTxnOps o := by
  rw [sizedTxnOps, innerTxnOps]
  cases Document.getArray o "applyOps" with
  | none => rfl
  | some items =>
      rw [List.map_filterMap]
      refine List.filterMap_congr fun item _ => ?_
      cases item <;> rfl

namespace ApplyState

theorem commands_applyOps (st : ApplyState) (ops : List Document) :
    (st.applyOps ops).commands =
      st.commands ++ if ops = [] then [] else [ops] := by
  by_cases hempty : ops = []
  · rw [if_pos hempty, hempty, List.append_nil]
    rfl
  · rw [if_neg hempty, applyOps, if_neg (by simpa using hempty)]

theorem commands_foldl_applyOps (st : ApplyState)
    {chunks : List (List Document)} (hchunks : ∀ chunk ∈ chunks, chunk ≠ []) :
    (chunks.foldl applyOps st).commands = st.commands ++ chunks := by
  induction chunks generalizing st with
  | nil => exact (List.append_nil _).symm
  | cons chunk rest ih =>
      obtain ⟨hchunk, hrest⟩ := List.forall_mem_cons.mp hchunks
      rw [List.foldl_cons, ih _ hrest, commands_applyOps, if_neg hchunk,
        List.append_assoc, List.singleton_append]

theorem chunksFrom_eq_pieces (size : Nat) (current ops : List Document) :
    chunksFrom size current ops = Chunks.pieces size current ops := by
  induction ops generalizing current with
  | nil => rfl
  | cons op rest ih => rw [chunksFrom, Chunks.pieces, ih, ih]

/-- A state with the sizes of the operations that wait in it. -/
structure Sized (st : ApplyState) (batch : List (Document × Nat))
    (held : KeyedBuffer.Held String (Document × Nat)) : Prop where
  batch_eq : batch.map Prod.fst = st.batch
  bytes_eq : (batch.map Prod.snd).sum = st.batchBytes
  fits : WithinLimits batch
  held_eq : ∀ key, (held key).map Prod.fst = st.held key

/-- Calls that are made between two states, with their sizes. -/
def Calls (st last : ApplyState) (calls : List (List (Document × Nat))) :
    Prop :=
  last.commands = st.commands ++ calls.map (List.map Prod.fst)

theorem Calls.trans {first second third : ApplyState}
    {calls later : List (List (Document × Nat))}
    (hcalls : Calls first second calls) (hlater : Calls second third later) :
    Calls first third (calls ++ later) := by
  rw [Calls] at hcalls hlater ⊢
  rw [hlater, hcalls, List.map_append, List.append_assoc]

theorem withinLimits_nil : WithinLimits [] :=
  ⟨Nat.zero_le _, Or.inr (Nat.zero_le _)⟩

theorem withinLimits_singleton (op : Document × Nat) : WithinLimits [op] :=
  ⟨(by decide : 1 ≤ MAX_BATCH_OPS), Or.inl rfl⟩

namespace Sized

variable {st : ApplyState} {batch : List (Document × Nat)}
  {held : KeyedBuffer.Held String (Document × Nat)}

theorem applyOps (hsized : Sized st batch held) (ops : List Document) :
    Sized (st.applyOps ops) batch held := by
  refine ⟨?_, ?_, hsized.fits, fun key => ?_⟩
  · rw [batch_applyOps, hsized.batch_eq]
  · rw [hsized.bytes_eq, ApplyState.applyOps]
    split <;> rfl
  · rw [hsized.held_eq, held_congr (txns_applyOps st ops)]

theorem foldl_applyOps (hsized : Sized st batch held)
    (chunks : List (List Document)) :
    Sized (chunks.foldl ApplyState.applyOps st) batch held := by
  induction chunks generalizing st with
  | nil => exact hsized
  | cons chunk rest ih => exact ih (hsized.applyOps chunk)

/-- A flush sends the batch, which is within the limits. -/
theorem flush (hsized : Sized st batch held) :
    Sized st.flush [] held ∧ ∃ calls, Calls st st.flush calls ∧
      calls.flatten = batch ∧ ∀ call ∈ calls, WithinLimits call := by
  refine ⟨⟨rfl, rfl, withinLimits_nil, fun key => ?_⟩, ?_⟩
  · rw [hsized.held_eq, held_congr (txns_flush st)]
  · have hcommands : st.flush.commands = _ := commands_applyOps st st.batch
    by_cases hempty : batch = []
    · refine ⟨[], ?_, hempty.symm, fun call hcall => by cases hcall⟩
      rw [Calls, hcommands, ← hsized.batch_eq, hempty]
      rfl
    · refine ⟨[batch], ?_, List.flatten_singleton, ?_⟩
      · rw [Calls, hcommands, ← hsized.batch_eq,
          if_neg (by simpa using hempty)]
        rfl
      · intro call hcall
        rw [List.mem_singleton.mp hcall]
        exact hsized.fits

/-- A single operation waits for the next call, behind those before it or behind
a flush. -/
theorem applyCrud (hsized : Sized st batch held) (op : Document)
    (entryBytes : Nat) :
    ∃ calls waiting, Sized (st.applyCrud op entryBytes) waiting held ∧
      Calls st (st.applyCrud op entryBytes) calls ∧
      calls.flatten ++ waiting = batch ++ [(op, entryBytes)] ∧
      ∀ call ∈ calls, WithinLimits call := by
  have hlength : batch.length = st.batch.length := by
    rw [← hsized.batch_eq, List.length_map]
  have hheld := (outputOps_applyCrud st op entryBytes).2
  rw [ApplyState.applyCrud] at hheld ⊢
  by_cases hfull : MAX_BATCH_OPS ≤ st.batch.length ∨
      MAX_BATCH_BYTES < st.batchBytes + entryBytes
  · obtain ⟨hflushed, calls, hcalls, hflatten, hwithin⟩ := hsized.flush
    rw [if_pos hfull] at hheld ⊢
    refine ⟨calls, [(op, entryBytes)],
      ⟨rfl, Nat.add_comm entryBytes 0, withinLimits_singleton _, ?_⟩, hcalls,
      by rw [hflatten], hwithin⟩
    intro key
    rw [hheld, hsized.held_eq]
  · rw [if_neg hfull] at hheld ⊢
    obtain ⟨hops, hbytes⟩ := not_or.mp hfull
    have hsum : ((batch ++ [(op, entryBytes)]).map Prod.snd).sum =
        st.batchBytes + entryBytes := by
      simp [hsized.bytes_eq]
    refine ⟨[], batch ++ [(op, entryBytes)], ⟨?_, hsum, ⟨?_, ?_⟩, ?_⟩,
      (List.append_nil _).symm, rfl, fun call hcall => by cases hcall⟩
    · simp [hsized.batch_eq]
    · rw [List.length_append, List.length_singleton]
      omega
    · exact Or.inr (hsum.trans_le (not_lt.mp hbytes))
    · intro key
      rw [hheld, hsized.held_eq]

/-- The operations of a transaction are sent behind the batch, a thousand to a
call: the calls are within the limits exactly if each thousand is small
enough. -/
theorem commitTxn (hsized : Sized st batch held) (key : String) :
    Sized (st.commitTxn key) [] (Function.update held key []) ∧
      ∃ calls, Calls st (st.commitTxn key) calls ∧
        calls.flatten = batch ++ held key ∧
        ((∀ call ∈ calls, WithinLimits call) ↔
          ∀ k, WithinBytes
            (((held key).drop (MAX_BATCH_OPS * k)).take MAX_BATCH_OPS)) := by
  have hsize : 0 < MAX_BATCH_OPS := by decide
  have herased : Sized { st with txns := st.txns.erase key } batch
      (Function.update held key []) := by
    refine ⟨hsized.batch_eq, hsized.bytes_eq, hsized.fits, fun other => ?_⟩
    rw [held_erase]
    by_cases hother : other = key
    · rw [hother, Function.update_self, Function.update_self]
      rfl
    · rw [Function.update_of_ne hother, Function.update_of_ne hother,
        hsized.held_eq]
  obtain ⟨hflushed, calls, hcalls, hflatten, hwithin⟩ := herased.flush
  have hchunks : chunksFrom MAX_BATCH_OPS [] ((st.txns.lookup key).getD []) =
      (Chunks.pieces MAX_BATCH_OPS [] (held key)).map (List.map Prod.fst) := by
    rw [chunksFrom_eq_pieces, ← Chunks.pieces_map, hsized.held_eq]
    rfl
  have hsent : Calls (ApplyState.flush { st with txns := st.txns.erase key })
      (st.commitTxn key) (Chunks.pieces MAX_BATCH_OPS [] (held key)) := by
    rw [Calls, ApplyState.commitTxn, sendChunks, hchunks]
    refine commands_foldl_applyOps _ fun chunk hchunk => ?_
    rw [← hchunks, chunksFrom_eq_pieces] at hchunk
    exact Chunks.ne_nil_of_mem_pieces hsize hchunk
  refine ⟨?_, calls ++ Chunks.pieces MAX_BATCH_OPS [] (held key),
    Calls.trans hcalls hsent, ?_, ?_⟩
  · exact hflushed.foldl_applyOps _
  · rw [List.flatten_append, hflatten, Chunks.flatten_pieces, List.nil_append]
  · rw [List.forall_mem_append,
      Chunks.forall_pieces_iff hsize withinLimits_nil]
    constructor
    · rintro ⟨-, hpieces⟩ k
      exact (hpieces k).2
    · intro hbytes
      exact ⟨hwithin, fun k => ⟨List.length_take_le _ _, hbytes k⟩⟩

/-- A piece of a transaction is held back. -/
theorem bufferTxn (hsized : Sized st batch held) (key : String)
    {items : List (Document × Nat)} {ops : List Document}
    (hops : items.map Prod.fst = ops) :
    Sized (st.bufferTxn key ops) batch
      (Function.update held key (held key ++ items)) := by
  refine ⟨hsized.batch_eq, hsized.bytes_eq, hsized.fits, fun other => ?_⟩
  rw [held_bufferTxn]
  by_cases hother : other = key
  · rw [hother, Function.update_self, Function.update_self, List.map_append,
      hsized.held_eq, hops]
  · rw [Function.update_of_ne hother, Function.update_of_ne hother,
      hsized.held_eq]

theorem abortTxn (hsized : Sized st batch held) (key : String) :
    Sized (st.abortTxn key) batch (Function.update held key []) := by
  have hsame : (st.abortTxn key).batch = st.batch ∧
      (st.abortTxn key).batchBytes = st.batchBytes := by
    rw [ApplyState.abortTxn]
    split <;> exact ⟨rfl, rfl⟩
  refine ⟨?_, ?_, hsized.fits, fun other => ?_⟩
  · rw [hsame.1, hsized.batch_eq]
  · rw [hsame.2, hsized.bytes_eq]
  · rw [held_abortTxn]
    by_cases hother : other = key
    · rw [hother, Function.update_self, Function.update_self]
      rfl
    · rw [Function.update_of_ne hother, Function.update_of_ne hother,
        hsized.held_eq]

/-- One entry: what it sends is within the limits, unless it commits a
transaction that is not small enough. -/
theorem act (hsized : Sized st batch held) (debug : BsonDebug)
    (entry : Document × Nat) :
    ∃ calls waiting,
      Sized (st.act entry.2 (classifyEntry debug entry.1)) waiting
        ((sizedEvent debug entry).apply held) ∧
      Calls st (st.act entry.2 (classifyEntry debug entry.1)) calls ∧
      calls.flatten ++ waiting = batch ++ (sizedEvent debug entry).emit held ∧
      ((∀ call ∈ calls, WithinLimits call) ↔
        CommitFits held (sizedEvent debug entry)) := by
  have hquiet : ∀ call ∈ ([] : List (List (Document × Nat))),
      WithinLimits call := fun call hcall => by cases hcall
  have hinner := map_sizedTxnOps ((Document.getDocument entry.1 "o").getD [])
  rw [sizedEvent]
  cases hclass : classifyEntry debug entry.1 with
  | skip =>
      exact ⟨[], batch,
        ⟨hsized.batch_eq, hsized.bytes_eq, hsized.fits, hsized.held_eq⟩,
        (List.append_nil _).symm, (List.append_nil _).symm,
        iff_of_true hquiet trivial⟩
  | apply op =>
      by_cases hcommand : Document.getStr op "op" = some "c"
      · obtain ⟨hflushed, calls, hcalls, hflatten, hwithin⟩ := hsized.flush
        have hsent : Calls st.flush (st.flush.applyOps [op])
            [[(op, entry.2)]] := commands_applyOps st.flush [op]
        rw [ApplyState.act, if_pos hcommand]
        refine ⟨calls ++ [[(op, entry.2)]], [], hflushed.applyOps [op],
          hcalls.trans hsent, ?_, iff_of_true ?_ trivial⟩
        · rw [List.append_nil, List.flatten_append, hflatten]
          rfl
        · rw [List.forall_mem_append]
          refine ⟨hwithin, fun call hcall => ?_⟩
          rw [List.mem_singleton.mp hcall]
          exact withinLimits_singleton _
      · obtain ⟨calls, waiting, hnext, hcalls, hflatten, hwithin⟩ :=
          hsized.applyCrud op entry.2
        rw [ApplyState.act, if_neg hcommand]
        exact ⟨calls, waiting, hnext, hcalls, hflatten,
          iff_of_true hwithin trivial⟩
  | txnBuffer key ops =>
      have hops := inner_of_classifyEntry (Or.inl hclass)
      exact ⟨[], batch, hsized.bufferTxn key (hinner.trans hops.symm),
        (List.append_nil _).symm, (List.append_nil _).symm,
        iff_of_true hquiet trivial⟩
  | txnBufferThenCommit key ops =>
      have hops := inner_of_classifyEntry (Or.inr hclass)
      have hbuffered := hsized.bufferTxn key (hinner.trans hops.symm)
      obtain ⟨hnext, calls, hcalls, hflatten, hwithin⟩ :=
        hbuffered.commitTxn key
      rw [Function.update_idem] at hnext
      rw [Function.update_self] at hflatten hwithin
      exact ⟨calls, [], hnext, hcalls, (List.append_nil _).trans hflatten,
        hwithin⟩
  | txnCommit key =>
      obtain ⟨hnext, calls, hcalls, hflatten, hwithin⟩ := hsized.commitTxn key
      refine ⟨calls, [], hnext, hcalls, ?_, ?_⟩
      · rw [List.append_nil, hflatten, KeyedBuffer.Event.emit, List.append_nil]
      · rw [hwithin, CommitFits, List.append_nil]
  | txnAbort key =>
      refine ⟨[], batch, hsized.abortTxn key, ?_, (List.append_nil _).symm,
        iff_of_true hquiet trivial⟩
      rw [Calls, List.map_nil, List.append_nil, ApplyState.act,
        ApplyState.abortTxn]
      split <;> rfl

end Sized

end ApplyState

section Run

variable {debug : BsonDebug} {limit : Option OplogTimestamp}
  {err : Option XBackupError}

open ApplyState

/-- Behind any entries, the calls made are within the limits exactly if every
commit among the entries fits. -/
theorem sized_stateAfter (entries : List (Document × Nat)) :
    ∃ (calls : List (List (Document × Nat))) (waiting : List (Document × Nat)),
      Sized (stateAfter debug entries) waiting (sizedHeld debug entries) ∧
      (stateAfter debug entries).commands = calls.map (List.map Prod.fst) ∧
      calls.flatten ++ waiting = sizedOps debug entries ∧
      ((∀ call ∈ calls, WithinLimits call) ↔
        History.Each (fun earlier entry =>
          CommitFits (sizedHeld debug earlier) (sizedEvent debug entry))
          entries) := by
  induction entries using List.reverseRecOn with
  | nil =>
      exact ⟨[], [], ⟨rfl, rfl, withinLimits_nil, fun _ => rfl⟩, rfl, rfl,
        iff_of_true (fun call hcall => by cases hcall) (History.each_nil _)⟩
  | append_singleton entries entry ih =>
      obtain ⟨calls, waiting, hsized, hcommands, hflatten, hwithin⟩ := ih
      obtain ⟨more, last, hnext, hcalls, hmore, hfits⟩ := hsized.act debug entry
      have hstate : stateAfter debug (entries ++ [entry]) =
          (stateAfter debug entries).act entry.2
            (classifyEntry debug entry.1) := by
        rw [stateAfter, List.foldl_append]
        rfl
      have hheld : sizedHeld debug (entries ++ [entry]) =
          (sizedEvent debug entry).apply (sizedHeld debug entries) := by
        rw [sizedHeld, List.map_append, KeyedBuffer.heldAfter,
          List.foldl_append]
        rfl
      refine ⟨calls ++ more, last, ?_, ?_, ?_, ?_⟩
      · rw [hstate, hheld]
        exact hnext
      · rw [hstate, hcalls, hcommands, List.map_append]
      · rw [List.flatten_append, List.append_assoc, hmore, ← List.append_assoc,
          hflatten, sizedOps, sizedOps, List.map_append,
          KeyedBuffer.emitted_append]
        congr 1
        exact (List.append_nil _).symm
      · rw [List.forall_mem_append, hwithin, hfits,
          History.each_append_singleton]

/-- The calls of a run are those behind its entries, and at its end one with
what still waits. -/
theorem sized_applyCalls (stream : List (Document × Nat)) :
    ∃ calls : List (List (Document × Nat)),
      applyCalls debug limit err stream = calls.map (List.map Prod.fst) ∧
      calls.flatten <+: sizedOps debug (entriesBelow limit stream) ∧
      ((∀ call ∈ calls, WithinLimits call) ↔
        History.Each (fun earlier entry =>
          CommitFits (sizedHeld debug earlier) (sizedEvent debug entry))
          (entriesBelow limit stream)) := by
  obtain ⟨calls, waiting, hsized, hcommands, hflatten, hwithin⟩ :=
    @sized_stateAfter debug (entriesBelow limit stream)
  have hstate : (applyRun debug limit err .initial stream).1 =
      stateAfter debug (entriesBelow limit stream) := applyRun_state _ _
  rw [applyCalls]
  rcases hrun : applyRun debug limit err .initial stream with ⟨st, _ | e⟩
  · obtain rfl : st = stateAfter debug (entriesBelow limit stream) := by
      rw [← hstate, hrun]
    obtain ⟨-, last, hlast, hlastFlatten, hlastWithin⟩ := hsized.flush
    refine ⟨calls ++ last, ?_, ?_, ?_⟩
    · rw [List.map_append, ← hcommands]
      exact hlast
    · rw [List.flatten_append, hlastFlatten, hflatten]
    · rw [List.forall_mem_append, hwithin]
      exact and_iff_left hlastWithin
  · obtain rfl : st = stateAfter debug (entriesBelow limit stream) := by
      rw [← hstate, hrun]
    exact ⟨calls, hcommands, ⟨waiting, hflatten⟩, hwithin⟩

/-- Every call of a run is within the limits exactly if every transaction it
commits is small enough in each thousand of its operations. -/
theorem calls_withinLimits_iff (debug : BsonDebug)
    (limit : Option OplogTimestamp) (err : Option XBackupError)
    (stream : List (Document × Nat)) :
    (sizedCalls debug limit err stream).map (List.map Prod.fst) =
        applyCalls debug limit err stream ∧
      ((∀ call ∈ sizedCalls debug limit err stream, WithinLimits call) ↔
        History.Each (fun earlier entry =>
          CommitFits (sizedHeld debug earlier) (sizedEvent debug entry))
          (entriesBelow limit stream)) := by
  obtain ⟨calls, hcalls, hbefore, hwithin⟩ :=
    @sized_applyCalls debug limit err stream
  have hsized : sizedCalls debug limit err stream = calls := by
    have hlengths : (calls.map (List.map Prod.fst)).map List.length =
        calls.map List.length := by
      rw [List.map_map]
      exact List.map_congr_left fun call _ => List.length_map _
    rw [sizedCalls, hcalls, hlengths, Chunks.splitLengths_of_prefix hbefore]
  rw [hsized]
  exact ⟨hcalls.symm, hwithin⟩

end Run

/-! A transaction of two large notes: its entry is below 16 MiB, and each note
is below the bound of a command. -/
namespace LargeTxn

open BsonBytes

def debug : BsonDebug :=
  ⟨fun _ => "Document(\x7b\"id\": String(\"s\")\x7d)", fun _ => "None"⟩

def note (body : String) (id : Int32) : Document :=
  [("op", .scalar (.string "i")), ("ns", .scalar (.string "shop.notes")),
    ("o", .document [("_id", .scalar (.int32 id)),
      ("body", .scalar (.string body))])]

def entry (body : String) : Document :=
  [("ts", .scalar (.timestamp ⟨100, 1⟩)), ("op", .scalar (.string "c")),
    ("ns", .scalar (.string "admin.$cmd")),
    ("lsid", .document [("id", .scalar (.string "s"))]),
    ("txnNumber", .scalar (.int64 7)),
    ("o", .document [("applyOps",
      .array [.document (note body 1), .document (note body 2)])])]

theorem size_note (body : String) (id : Int32) :
    Document.size (note body id) =
      Document.size (note "" id) + (Bytes.utf8 body).length := by
  have hempty : (Bytes.utf8 "").length = 0 := rfl
  simp only [Document.size, encode, length_enclose, note, encodeFields,
    encodeField, encodeValue, encodeScalar, List.length_append,
    List.length_cons, List.length_nil, length_encodeText, cstring]
  omega

theorem size_entry (body : String) :
    Document.size (entry body) =
      Document.size (entry "") + 2 * (Bytes.utf8 body).length := by
  have hempty : (Bytes.utf8 "").length = 0 := rfl
  simp only [Document.size, encode, length_enclose, entry, note, encodeFields,
    encodeField, encodeValue, encodeItems, encodeScalar, List.length_append,
    List.length_cons, List.length_nil, length_encodeText, cstring]
  omega

theorem shouldSkipNs_entry : shouldSkipNs "admin.$cmd" = false := by
  decide +kernel

def key : String := debug.document [] ++ "#" ++ toString (7 : Int64)

theorem classifyEntry_entry (body : String) :
    classifyEntry debug (entry body) =
      .txnBufferThenCommit key [note body 1, note body 2] := by
  have hop : Document.getStr (entry body) "op" = some "c" := rfl
  have hns : Document.getStr (entry body) "ns" = some "admin.$cmd" := rfl
  have hkey : txnKey debug (entry body) = some key := rfl
  have htxn :
      classifyTxn key ((Document.getDocument (entry body) "o").getD []) = some
        (.txnBufferThenCommit key [note body 1, note body 2]) := rfl
  have hcommand : "c" ≠ "n" := by decide
  rw [classifyEntry, hop, hns, hkey]
  simp only [Option.getD_some, if_neg hcommand, shouldSkipNs_entry, if_true,
    Option.bind_eq_bind, Option.bind_some, htxn]
  rfl

theorem commands_commit (ops : List Document) :
    ((ApplyState.initial.bufferTxn key ops).commitTxn key).finish.commands =
      Chunks.pieces MAX_BATCH_OPS [] ops := by
  have hheld :
      ((ApplyState.initial.bufferTxn key ops).txns.lookup key).getD [] =
        ops := by
    rw [ApplyState.bufferTxn, AList.lookup_insert]
    rfl
  obtain ⟨-, hbatch, -⟩ := ApplyState.foldl_applyOps
    (ApplyState.flush { ApplyState.initial.bufferTxn key ops with
      txns := (ApplyState.initial.bufferTxn key ops).txns.erase key })
    (Chunks.pieces MAX_BATCH_OPS [] ops)
  have hcommands : ∀ st : ApplyState, st.batch = [] →
      st.finish.commands = st.commands := by
    intro st hempty
    refine (ApplyState.commands_applyOps st st.batch).trans ?_
    rw [if_pos hempty, List.append_nil]
  rw [ApplyState.commitTxn, ApplyState.sendChunks, hheld,
    ApplyState.chunksFrom_eq_pieces, hcommands _ hbatch,
    ApplyState.commands_foldl_applyOps _ fun chunk hchunk =>
      Chunks.ne_nil_of_mem_pieces (by decide) hchunk]
  rfl

theorem applyCalls_entry (body : String) (size : Nat) :
    applyCalls debug none none [(entry body, size)] =
      [[note body 1, note body 2]] := by
  have hrun : applyRun debug none none .initial [(entry body, size)] =
      ((ApplyState.initial.bufferTxn key [note body 1, note body 2]).commitTxn
        key, none) := by
    rw [applyRun, classifyEntry_entry]
    rfl
  rw [applyCalls, hrun]
  exact commands_commit _

theorem sizedCalls_entry (body : String) (size : Nat) :
    sizedCalls debug none none [(entry body, size)] =
      [[(note body 1, Document.size (note body 1)),
        (note body 2, Document.size (note body 2))]] := by
  have hevent : sizedEvent debug (entry body, size) =
      .release key [(note body 1, Document.size (note body 1)),
        (note body 2, Document.size (note body 2))] := by
    rw [sizedEvent, classifyEntry_entry]
    rfl
  have hops : sizedOps debug (entriesBelow none [(entry body, size)]) =
      [(note body 1, Document.size (note body 1)),
        (note body 2, Document.size (note body 2))] := by
    rw [entriesBelow, sizedOps, List.map_cons, hevent]
    rfl
  rw [sizedCalls, applyCalls_entry, hops]
  rfl

def largeBody : String :=
  String.ofList (List.replicate (7 * 1024 * 1024) 'n')

theorem length_largeBody : (Bytes.utf8 largeBody).length = 7 * 1024 * 1024 :=
  length_utf8_replicate _ (by decide)

end LargeTxn

open LargeTxn in
/-- Both notes are sent in one call, which is over the bound. -/
theorem largeTxn_exceeds :
    Document.size (entry largeBody) ≤ 16 * 1024 * 1024 ∧
      applyCalls debug none none
          [(entry largeBody, Document.size (entry largeBody))] =
        [[note largeBody 1, note largeBody 2]] ∧
      ¬ ∀ call ∈ sizedCalls debug none none
          [(entry largeBody, Document.size (entry largeBody))],
        WithinLimits call := by
  have hentry : Document.size (entry "") ≤ 1024 := by decide +kernel
  refine ⟨?_, applyCalls_entry _ _, fun hwithin => ?_⟩
  · rw [size_entry, length_largeBody]
    exact (Nat.add_le_add_right hentry _).trans (by norm_num)
  · rw [sizedCalls_entry] at hwithin
    rcases (hwithin _ List.mem_cons_self).2 with hone | hbytes
    · cases hone
    · simp only [List.map_cons, List.map_nil, List.sum_cons, List.sum_nil,
        size_note largeBody, length_largeBody] at hbytes
      rw [MAX_BATCH_BYTES] at hbytes
      omega

end XBackup
