/-
What a destination holds of the replica set it is backed up from, and what a
recovery to a point in time makes of it, after any history of the two.
-/
import XBackup.Pipeline.ReplicaSet

namespace XBackup

open AscendingLog LastWrite Transition

variable {Coll Id Doc : Type} [DecidableEq Coll] [DecidableEq Id]

/-- A slice and the oplog its cursor was opened on. -/
structure SliceKept (written entries : List OplogEntry) (opened : CappedOplog)
    (m : BackupManifest) (range : OplogRange) : Prop where
  stored : entries =
    window OplogEntry.ts range.startTs range.endTs opened.visible
  settled : window OplogEntry.ts range.startTs range.endTs written =
    window OplogEntry.ts range.startTs range.endTs opened.written
  reached : range.startTs = range.endTs ∨
    ∃ entry ∈ written, entry.ts = range.endTs
  empty : m.oplogCount = some 0 → entries = []

/-- A dump whose collections are as they were when they were read, and that
ended with the last entry of its window. -/
structure DumpKept (documents : Documents Coll Id Doc)
    (written : List OplogEntry) (dump : Dump Coll Id Doc) (range : OplogRange) :
    Prop where
  reads : ∀ coll, dump.reads coll ≤ dump.ended
  docs : ∀ coll id, dump.docs (coll, id) =
    documents.after (written.take (dump.reads coll)) (coll, id)
  ended : dump.ended ≤ written.length
  last : (written.take dump.ended).getLast?.map OplogEntry.ts =
    some range.endTs

namespace ReplicaSet

/-- What belongs to a backup that is recorded. -/
structure Kept (documents : Documents Coll Id Doc)
    (st : ReplicaSet Coll Id Doc) (m : BackupManifest) : Prop where
  slice : m.backupType = .incremental → ∀ range, m.oplogRange = some range →
    SliceKept st.oplog.written (st.slices m.id) (st.openings m.id) m range
  dump : m.backupType = .full → ∀ range, m.oplogRange = some range →
    DumpKept documents st.oplog.written (st.dumps m.id) range

/-- What is known while a run is under way. -/
def WorkKept (documents : Documents Coll Id Doc) (st : ReplicaSet Coll Id Doc) :
    Prop :=
  match st.work with
  | .idle => True
  | .looking looks =>
      (looks.map CappedOplog.written).Pairwise (· <+: ·) ∧
        ∀ look ∈ looks, look.written <+: st.oplog.written
  | .dumping selective promoted _ pending dump =>
      (∀ server, promoted = some server →
        runIncrementalBackup st.catalog.toStorage server =
          .ok .promotedToFull) ∧
      (selective = false → ∀ coll, coll ∉ pending →
        dump.reads coll ≤ st.oplog.written.length ∧
        ∀ id, dump.docs (coll, id) =
          documents.after (st.oplog.written.take (dump.reads coll)) (coll, id))

structure Inv (documents : Documents Coll Id Doc)
    (st : ReplicaSet Coll Id Doc) : Prop where
  ascending : Ascending OplogEntry.ts st.oplog.written
  history : HistoryInv st.catalog.manifests
  kept : ∀ m ∈ st.catalog.manifests, st.Kept documents m
  work : st.WorkKept documents

variable {documents : Documents Coll Id Doc} {parse : String → Option I64}
  {collections : List Coll} {st next : ReplicaSet Coll Id Doc}

section Steps

/-- What is kept of a backup does not depend on anything else. -/
theorem Kept.congr {m : BackupManifest} (hkept : st.Kept documents m)
    (hoplog : next.oplog = st.oplog) (hslices : next.slices m.id = st.slices m.id)
    (hopenings : next.openings m.id = st.openings m.id)
    (hdumps : next.dumps m.id = st.dumps m.id) : next.Kept documents m := by
  constructor
  · rw [hoplog, hslices, hopenings]
    exact hkept.slice
  · rw [hoplog, hdumps]
    exact hkept.dump

/-- As long as the process works on, the destination stays as it is. -/
theorem Inv.working (hinv : st.Inv documents) {work : Work Coll Id Doc}
    (hwork : WorkKept documents { st with work := work }) :
    Inv documents { st with work := work } where
  ascending := hinv.ascending
  history := hinv.history
  kept m hm := (hinv.kept m hm).congr rfl rfl rfl rfl
  work := hwork

omit [DecidableEq Coll] [DecidableEq Id] in
theorem SliceKept.write {written entries : List OplogEntry}
    {opened : CappedOplog} {m : BackupManifest} {range : OplogRange}
    (hkept : SliceKept written entries opened m range) {entry : OplogEntry}
    (hnew : ∀ old ∈ written, old.ts < entry.ts) :
    SliceKept (written ++ [entry]) entries opened m range where
  stored := hkept.stored
  settled := by
    have hoff : ¬ (range.startTs < entry.ts ∧ entry.ts ≤ range.endTs) := by
      rintro ⟨hlow, hhigh⟩
      rcases hkept.reached with hempty | ⟨old, hold, hend⟩
      · exact absurd (hempty ▸ hlow) hhigh.not_gt
      · exact absurd (hend ▸ hnew old hold) hhigh.not_gt
    rw [← hkept.settled, window, List.filter_append, List.filter_singleton,
      decide_eq_false hoff, cond_false, List.append_nil]
    rfl
  reached := hkept.reached.imp_right fun ⟨old, hold, hend⟩ =>
    ⟨old, List.mem_append_left _ hold, hend⟩
  empty := hkept.empty

theorem DumpKept.write {written : List OplogEntry} {dump : Dump Coll Id Doc}
    {range : OplogRange} (hkept : DumpKept documents written dump range)
    (entry : OplogEntry) :
    DumpKept documents (written ++ [entry]) dump range where
  reads := hkept.reads
  docs coll id := by
    rw [List.take_append_of_le_length
      ((hkept.reads coll).trans hkept.ended)]
    exact hkept.docs coll id
  ended := by
    rw [List.length_append]
    exact hkept.ended.trans (Nat.le_add_right _ _)
  last := by
    rw [List.take_append_of_le_length hkept.ended]
    exact hkept.last

theorem Inv.write (hinv : st.Inv documents) {entry : OplogEntry}
    (hnew : ∀ old ∈ st.oplog.written, old.ts < entry.ts) :
    Inv documents { st with
      oplog := ⟨st.oplog.written ++ [entry], st.oplog.dropped⟩ } where
  ascending := by
    apply List.pairwise_append.mpr
    refine ⟨hinv.ascending, List.pairwise_singleton _ _, ?_⟩
    intro old hold other hother
    rw [List.mem_singleton.mp hother]
    exact hnew old hold
  history := hinv.history
  kept m hm :=
    { slice := fun htype range hrange =>
        SliceKept.write ((hinv.kept m hm).slice htype range hrange) hnew
      dump := fun htype range hrange =>
        DumpKept.write ((hinv.kept m hm).dump htype range hrange) entry }
  work := by
    have hwork := hinv.work
    unfold WorkKept at hwork ⊢
    cases hcase : st.work with
    | idle => trivial
    | looking looks =>
        rw [hcase] at hwork
        exact ⟨hwork.1, fun look hlook =>
          (hwork.2 look hlook).trans (List.prefix_append _ _)⟩
    | dumping selective promoted start pending dump =>
        rw [hcase] at hwork
        refine ⟨hwork.1, fun hwhole coll hread => ?_⟩
        obtain ⟨hle, hdocs⟩ := hwork.2 hwhole coll hread
        refine ⟨?_, fun id => ?_⟩
        · rw [List.length_append]
          exact hle.trans (Nat.le_add_right _ _)
        · rw [List.take_append_of_le_length hle]
          exact hdocs id

theorem Inv.look (hinv : st.Inv documents)
    (hstep : st.step documents parse collections .look = some next) :
    next.Inv documents := by
  rw [step] at hstep
  have hwork := hinv.work
  unfold WorkKept at hwork
  split at hstep
  next =>
    cases hstep
    apply hinv.working
    exact ⟨List.pairwise_singleton _ _, fun look hlook => by
      rw [List.mem_singleton.mp hlook]⟩
  next looks hlooks =>
    cases hstep
    rw [hlooks] at hwork
    apply hinv.working
    constructor
    · rw [List.map_append, List.pairwise_append]
      refine ⟨hwork.1, List.pairwise_singleton _ _, ?_⟩
      intro old hold new hnew
      obtain ⟨look, hlook, rfl⟩ := List.mem_map.mp hold
      rw [List.mem_singleton.mp hnew]
      exact hwork.2 look hlook
    · intro look hlook
      rcases List.mem_append.mp hlook with hold | hnew
      · exact hwork.2 look hold
      · rw [List.mem_singleton.mp hnew]
  next => cases hstep

/-- A run that leaves off leaves the destination as it is. -/
theorem Inv.stop (hinv : st.Inv documents) :
    Inv documents { st with work := .idle } :=
  hinv.working trivial

theorem Inv.startDump (hinv : st.Inv documents) {selective : Bool}
    {promoted : Option OplogServer} {targets : List Coll}
    (htargets : selective = false → ∀ coll, coll ∈ targets)
    (hpromoted : ∀ server, promoted = some server →
      runIncrementalBackup st.catalog.toStorage server =
        .ok .promotedToFull) :
    Inv documents { st with work := st.dumpFrom selective promoted targets } :=
  hinv.working ⟨hpromoted,
    fun hwhole coll hread => absurd (htargets hwhole coll) hread⟩

theorem Inv.readCollection (hinv : st.Inv documents)
    (hstep : st.step documents parse collections .readCollection = some next) :
    next.Inv documents := by
  rw [step] at hstep
  have hwork := hinv.work
  unfold WorkKept at hwork
  split at hstep
  next selective promoted start coll pending dump hcase =>
    cases hstep
    rw [hcase] at hwork
    apply hinv.working
    refine ⟨hwork.1, fun hwhole other hread => ?_⟩
    by_cases hsame : other = coll
    · subst hsame
      refine ⟨?_, fun id => ?_⟩
      · simp only [readInto, Function.update_self]
        exact le_refl _
      · simp only [readInto, Function.update_self, if_true, List.take_length]
    · have hold := hwork.2 hwhole other (by simp [hsame, hread])
      simpa only [readInto, Function.update_of_ne hsame, if_neg hsame] using hold
  next => cases hstep

/-- A new backup next to the ones that are there. -/
theorem kept_of_record (hinv : st.Inv documents) {m : BackupManifest}
    (hfresh : ∀ old ∈ st.catalog.manifests, old.id < m.id)
    (hnext : next.catalog.manifests = st.catalog.manifests ++ [m])
    (hsame : next.oplog = st.oplog)
    (helse : ∀ id ≠ m.id, next.slices id = st.slices id ∧
      next.openings id = st.openings id ∧ next.dumps id = st.dumps id)
    (hnew : next.Kept documents m) :
    ∀ other ∈ next.catalog.manifests, next.Kept documents other := by
  intro other hother
  rw [hnext] at hother
  rcases List.mem_append.mp hother with hold | hlast
  · obtain ⟨hslices, hopenings, hdumps⟩ := helse other.id
      (hfresh other hold).ne
    exact (hinv.kept other hold).congr hsame hslices hopenings hdumps
  · rw [List.mem_singleton.mp hlast]
    exact hnew

theorem mongoRun_captured {catalog : Catalog} {id createdAt : String}
    {server : OplogServer} {base : BaseSelection} {range : OplogRange}
    {count : Nat}
    (hrun : runIncrementalBackup catalog.toStorage server =
      .ok (.captured base range count)) :
    mongoRun parse catalog (.incremental id createdAt server .native none false) =
      catalog.tryRecord (mongoIncrementalManifest id createdAt base.fullBaseId
        range count) := by
  rw [mongoRun, hrun]

theorem window_self (ts : OplogTimestamp) (entries : List OplogEntry) :
    window OplogEntry.ts ts ts entries = [] := by
  apply List.filter_eq_nil_iff.mpr
  intro entry _
  simp

/-- A recorded slice is empty, or ends at the bound and counts what the cursor
gave. -/
theorem runIncrementalBackup_slice {storage : Storage} {server : OplogServer}
    {base : BaseSelection} {range : OplogRange} {count : Nat}
    (hrun : runIncrementalBackup storage server =
      .ok (.captured base range count)) :
    (range.startTs = range.endTs ∧ count = 0) ∨
      (selectBase storage = .ok base ∧ range.startTs = base.lastBackupTs ∧
        resolveUpperBound server.atLatest server.atBoundary =
          some range.endTs ∧
        server.capture = .captured count) := by
  unfold runIncrementalBackup at hrun
  split at hrun
  next =>
    split at hrun
    · cases hrun
    next chosen hchosen =>
      split at hrun
      · cases hrun
      · cases hrun
      · simp only [emptySlice] at hrun
        split at hrun
        · cases hrun
          exact Or.inl ⟨rfl, rfl⟩
        next hbehind =>
          split at hrun
          · cases hrun
          · cases hrun
          next captured hcapture =>
            split at hrun
            · cases hrun
              exact Or.inl ⟨rfl, rfl⟩
            · cases hrun
              refine Or.inr ⟨hchosen, rfl, ?_, hcapture⟩
              cases hupper : resolveUpperBound server.atLatest
                server.atBoundary with
              | none => simp [hupper] at hbehind
              | some upper => rfl
  next => cases hrun

/-- The count is that of the entries in the range. -/
theorem captured_cases {storage : Storage}
    {check latest boundary opened : CappedOplog} {cursor : CursorEnd}
    {base : BaseSelection} {range : OplogRange} {count : Nat}
    (hrun : runIncrementalBackup storage
      (metServer storage check latest boundary opened cursor) =
        .ok (.captured base range count)) :
    (range.startTs = range.endTs ∧ count = 0) ∨
      (resolveUpperBound latest.docs boundary.docs = some range.endTs ∧
        count = (window OplogEntry.ts range.startTs range.endTs
          opened.visible).length) := by
  apply (runIncrementalBackup_slice hrun).imp_right
  rintro ⟨hbase, hstart, hupper, hcapture⟩
  have hbound : resolveUpperBound latest.docs boundary.docs =
      some range.endTs := hupper
  refine ⟨hbound, ?_⟩
  cases cursor with
  | lateGap => cases hcapture
  | other err => cases hcapture
  | finished =>
      rw [← CaptureResult.captured.inj hcapture, sliceDocs, hbase]
      simp only [hbound, Option.getD_some]
      rw [CappedOplog.docs, captureStream_docs, List.length_map, hstart]

/-- What is written behind the last look at an entry does not fall into a slice
that ends with it. -/
theorem settled_of_mem {written seen : List OplogEntry}
    (hascending : Ascending OplogEntry.ts written) (hseen : seen <+: written)
    {entry : OplogEntry} (hentry : entry ∈ seen) (start : OplogTimestamp) :
    window OplogEntry.ts start entry.ts written =
      window OplogEntry.ts start entry.ts seen := by
  obtain ⟨rest, rfl⟩ := hseen
  obtain ⟨-, -, hcross⟩ := List.pairwise_append.mp hascending
  have hrest : window OplogEntry.ts start entry.ts rest = [] := by
    apply List.filter_eq_nil_iff.mpr
    intro later hlater
    simpa using fun _ => hcross entry hentry later hlater
  rw [window, List.filter_append, ← window, ← window, hrest, List.append_nil]

/-- The slice of a run whose looks are of one server. -/
theorem sliceKept_of_captured (id createdAt : String) {storage : Storage}
    {written : List OplogEntry} {check latest boundary opened : CappedOplog}
    {cursor : CursorEnd} {base : BaseSelection} {range : OplogRange}
    {count : Nat}
    (hrun : runIncrementalBackup storage
      (metServer storage check latest boundary opened cursor) =
        .ok (.captured base range count))
    (hascending : Ascending OplogEntry.ts written)
    (hlatest : latest.written <+: opened.written)
    (hboundary : boundary.written <+: opened.written)
    (hopened : opened.written <+: written) :
    SliceKept written
      (window OplogEntry.ts range.startTs range.endTs opened.visible) opened
      (mongoIncrementalManifest id createdAt base.fullBaseId range count)
      range := by
  rcases captured_cases hrun with ⟨hempty, hcount⟩ | ⟨hupper, hcount⟩
  · refine ⟨rfl, ?_, Or.inl hempty, fun _ => ?_⟩
    · rw [hempty, window_self, window_self]
    · rw [hempty, window_self]
  · have hseen : ∃ entry ∈ opened.written, entry.ts = range.endTs := by
      obtain ⟨entry, hentry, hts⟩ := resolveUpperBound_mem hupper
      refine ⟨entry, ?_, hts⟩
      rcases List.mem_append.mp hentry with hmem | hmem
      · exact hlatest.subset (List.mem_of_mem_drop hmem)
      · exact hboundary.subset (List.mem_of_mem_drop hmem)
    obtain ⟨entry, hentry, hts⟩ := hseen
    refine ⟨rfl, ?_, Or.inr ⟨entry, hopened.subset hentry, hts⟩, fun hzero => ?_⟩
    · rw [← hts]
      exact settled_of_mem hascending hopened hentry range.startTs
    · apply List.length_eq_zero_iff.mp
      rw [← hcount]
      exact Option.some.inj hzero

theorem Inv.endSlice (hinv : st.Inv documents)
    (hcollections : ∀ coll, coll ∈ collections) {id createdAt : String}
    {cursor : CursorEnd}
    (hstep : st.step documents parse collections
      (.endSlice id createdAt cursor) = some next) :
    next.Inv documents := by
  rw [step] at hstep
  have hwork := hinv.work
  unfold WorkKept at hwork
  split at hstep
  next check latest boundary opened hcase =>
    rw [hcase] at hwork
    obtain ⟨hlooks, hnow⟩ := hwork
    unfold ReplicaSet.endSlice at hstep
    split at hstep
    next =>
      cases hstep
      exact hinv.stop
    next hpromoted =>
      cases hstep
      apply hinv.startDump fun _ => hcollections
      rintro server ⟨⟩
      exact hpromoted
    next base range count hcaptured =>
      obtain ⟨catalog, hrecord, rfl⟩ := Option.map_eq_some_iff.mp hstep
      have hhistory := mongoRun_inv hinv.history hrecord
      rw [mongoRun_captured hcaptured] at hrecord
      obtain ⟨hnext, hfresh⟩ := Catalog.tryRecord_eq_some hrecord
      simp only [List.map_cons, List.map_nil, List.pairwise_cons] at hlooks
      have hkept := sliceKept_of_captured id createdAt hcaptured hinv.ascending
        (hlooks.2.1 opened.written (by simp))
        (hlooks.2.2.1 opened.written (by simp)) (hnow opened (by simp))
      refine ⟨hinv.ascending, hhistory, ?_, trivial⟩
      refine kept_of_record hinv hfresh hnext rfl ?_ ?_
      · intro other hother
        exact ⟨Function.update_of_ne hother .., Function.update_of_ne hother ..,
          rfl⟩
      · constructor
        · rintro - other ⟨⟩
          simpa only [mongoIncrementalManifest, Function.update_self] using hkept
        · intro htype
          cases htype
  next => cases hstep

omit [DecidableEq Coll] [DecidableEq Id] in
/-- A window is that of a whole dump, and ends with the latest entry. -/
theorem windowNow_eq_some {selective : Bool} {start : Option OplogTimestamp}
    {range : OplogRange}
    (hwindow : st.windowNow selective start = some range) :
    selective = false ∧
      latestOplogTs st.oplog.docs = some range.endTs := by
  unfold windowNow at hwindow
  split at hwindow
  next first end_ hend =>
    cases hwindow
    cases selective with
    | true => simp [decideOplog] at hend
    | false => exact ⟨rfl, by simpa [decideOplog] using hend⟩
  next => cases hwindow

omit [DecidableEq Coll] [DecidableEq Id] in
/-- The manifest of a dump is that of a full backup with its window. -/
theorem mongoRun_dump {catalog next : Catalog} {id createdAt : String}
    {selective marked : Bool} {window : Option OplogRange}
    {status : BackupStatus} {promoted : Option OplogServer}
    (hpromoted : ∀ server, promoted = some server →
      runIncrementalBackup catalog.toStorage server = .ok .promotedToFull)
    (hrun : mongoRun parse catalog (dumpRun id createdAt selective window status
      marked promoted) = some next) :
    ∃ m, catalog.tryRecord m = some next ∧ m.id = id ∧
      m.backupType = .full ∧ ∀ range, m.oplogRange = some range →
        window = some range := by
  cases promoted with
  | none =>
      refine ⟨_, hrun, rfl, rfl, fun range hrange => ?_⟩
      simp only [mongoFullManifest] at hrange
      split at hrange
      · exact hrange
      · cases hrange
  | some server =>
      simp only [dumpRun, mongoRun, hpromoted server rfl] at hrun
      refine ⟨_, hrun, rfl, rfl, fun range hrange => ?_⟩
      simp only [mongoFullManifest] at hrange
      split at hrange
      · exact hrange
      · cases hrange

theorem Inv.endDump (hinv : st.Inv documents) {id createdAt : String}
    {status : BackupStatus} {marked : Bool}
    (hstep : st.step documents parse collections
      (.endDump id createdAt status marked) = some next) :
    next.Inv documents := by
  rw [step] at hstep
  have hwork := hinv.work
  unfold WorkKept at hwork
  split at hstep
  next selective promoted start dump hcase =>
    rw [hcase] at hwork
    obtain ⟨hpromoted, hread⟩ := hwork
    obtain ⟨catalog, hrecord, rfl⟩ := Option.map_eq_some_iff.mp hstep
    have hhistory := mongoRun_inv hinv.history hrecord
    obtain ⟨m, hm, rfl, hfull, hwindow⟩ := mongoRun_dump hpromoted hrecord
    obtain ⟨hnext, hfresh⟩ := Catalog.tryRecord_eq_some hm
    refine ⟨hinv.ascending, hhistory, ?_, trivial⟩
    refine kept_of_record hinv hfresh hnext rfl ?_ ?_
    · intro other hother
      exact ⟨rfl, rfl, Function.update_of_ne hother ..⟩
    · constructor
      · intro htype
        rw [hfull] at htype
        cases htype
      · intro _ range hrange
        obtain ⟨hwhole, hlatest⟩ := windowNow_eq_some (hwindow range hrange)
        have hreads := fun coll => hread hwhole coll List.not_mem_nil
        simp only [Function.update_self]
        refine ⟨fun coll => (hreads coll).1, fun coll => (hreads coll).2,
          le_refl _, ?_⟩
        rw [List.take_length]
        rw [CappedOplog.docs, latestOplogTs_map, CappedOplog.visible,
          List.getLast?_drop] at hlatest
        split at hlatest
        · cases hlatest
        · exact hlatest
  next => cases hstep

theorem Inv.prune (hinv : st.Inv documents) {policy : RetentionPolicy}
    {nowSecs : ℤ} {includeForceOnly : Bool} {deleted : Nat}
    (hstep : st.step documents parse collections
      (.prune policy nowSecs includeForceOnly deleted) = some next) :
    next.Inv documents := by
  rw [step] at hstep
  split at hstep
  next hidle =>
    obtain ⟨catalog, hrecord, rfl⟩ := Option.map_eq_some_iff.mp hstep
    have hhistory := mongoRun_inv hinv.history hrecord
    cases hrecord
    refine ⟨hinv.ascending, hhistory, fun m hm => ?_, ?_⟩
    · exact (hinv.kept m (List.mem_of_mem_filter hm)).congr rfl rfl rfl rfl
    · unfold WorkKept
      simp only [hidle]
  next => cases hstep

theorem step_inv (hcollections : ∀ coll, coll ∈ collections)
    {label : Happening Coll} (hinv : st.Inv documents)
    (hstep : st.step documents parse collections label = some next) :
    next.Inv documents := by
  cases label with
  | write entry =>
      rw [step] at hstep
      split at hstep
      next hnew =>
        cases hstep
        exact hinv.write (by simpa using hnew)
      next => cases hstep
  | drop =>
      cases hstep
      exact ⟨hinv.ascending, hinv.history,
        fun m hm => ⟨(hinv.kept m hm).slice, (hinv.kept m hm).dump⟩, hinv.work⟩
  | look => exact hinv.look hstep
  | endSlice id createdAt cursor => exact hinv.endSlice hcollections hstep
  | startDump selected =>
      rw [step] at hstep
      split at hstep
      next =>
        cases hstep
        apply hinv.startDump
        · intro hwhole coll
          cases selected with
          | none => exact hcollections coll
          | some targets => cases hwhole
        · rintro server ⟨⟩
      next => cases hstep
  | readCollection => exact hinv.readCollection hstep
  | endDump id createdAt status marked => exact hinv.endDump hstep
  | stop =>
      cases hstep
      exact hinv.stop
  | prune policy nowSecs includeForceOnly deleted => exact hinv.prune hstep

theorem initial_inv {oplog : CappedOplog}
    (hoplog : Ascending OplogEntry.ts oplog.written) :
    Inv documents (initial oplog) where
  ascending := hoplog
  history := ⟨fun _ hm => absurd hm List.not_mem_nil,
    fun _ hm => absurd hm List.not_mem_nil⟩
  kept _ hm := absurd hm List.not_mem_nil
  work := trivial

end Steps

section Recovery

/-- When the cursor of the slice was opened, the server had dropped nothing of
what lies between its bounds. -/
def Timely (st : ReplicaSet Coll Id Doc) (m : BackupManifest) : Prop :=
  ∀ range, m.oplogRange = some range → ∀ entry ∈ (st.openings m.id).lost,
    range.startTs < entry.ts → range.endTs < entry.ts

/-- The entries that are due: up to the target second and to the end of the
chain. -/
def due (targetUnix : Int) (chainEnd : OplogTimestamp)
    (written : List OplogEntry) : List OplogEntry :=
  written.filter fun entry =>
    (entry.ts.t.toNat : Int) ≤ targetUnix ∧ entry.ts ≤ chainEnd

/-- The documents of the dump, behind what is applied to them. -/
def recovered (documents : Documents Coll Id Doc) (dump : Dump Coll Id Doc)
    (applied : List OplogEntry) : Store (Coll × Id) Doc :=
  replay dump.docs (applied.flatMap documents.changes)

/-- What was written between the read of a collection and the end of the
dump. -/
def missedBy (documents : Documents Coll Id Doc) (written : List OplogEntry)
    (dump : Dump Coll Id Doc) (coll : Coll) : List (Change (Coll × Id) Doc) :=
  ((written.take dump.ended).drop (dump.reads coll)).flatMap documents.changes

/-- What the dump missed of a document is written over by what is applied, or
there is nothing of it, or it left the document as it had been read. -/
def NothingLost (documents : Documents Coll Id Doc) (written : List OplogEntry)
    (dump : Dump Coll Id Doc) (applied : List OplogEntry) : Prop :=
  ∀ coll id,
    (∃ change ∈ applied.flatMap documents.changes, change.key = (coll, id)) ∨
      (∀ change ∈ missedBy documents written dump coll,
        change.key ≠ (coll, id)) ∨
      lastWrite (coll, id) (missedBy documents written dump coll) =
        some (dump.docs (coll, id))

omit [DecidableEq Coll] [DecidableEq Id] in
theorem window_visible_iff (oplog : CappedOplog) (start end_ : OplogTimestamp) :
    window OplogEntry.ts start end_ oplog.visible =
        window OplogEntry.ts start end_ oplog.written ↔
      ∀ entry ∈ oplog.lost, start < entry.ts → end_ < entry.ts := by
  have hsplit : window OplogEntry.ts start end_ oplog.written =
      window OplogEntry.ts start end_ oplog.lost ++
        window OplogEntry.ts start end_ oplog.visible := by
    rw [window, window, window, ← List.filter_append, CappedOplog.lost,
      CappedOplog.visible, List.take_append_drop]
  rw [hsplit, List.self_eq_append_left, window, List.filter_eq_nil_iff]
  simp

variable {oplog : CappedOplog} {labels : List (Happening Coll)}
  {last : ReplicaSet Coll Id Doc}

section Reached

variable (hoplog : Ascending OplogEntry.ts oplog.written)
  (hcollections : ∀ coll, coll ∈ collections)
  (hrun : run (step documents parse collections) (initial oplog) labels =
    some last)

include hoplog hcollections hrun

theorem inv_of_run : last.Inv documents :=
  run_invariant (Inv documents)
    (fun _ _ _ hst hstep => step_inv hcollections hst hstep)
    (initial_inv hoplog) hrun

/-- In every history a slice holds all that was written between its bounds just
if nothing of it had been dropped when its cursor was opened; that the gap check
of the run went well does not matter. -/
theorem slice_whole_iff :
    ∀ m ∈ last.catalog.manifests, m.backupType = .incremental →
      ∀ range, m.oplogRange = some range →
        (last.slices m.id = window OplogEntry.ts range.startTs range.endTs
            last.oplog.written ↔
          ∀ entry ∈ (last.openings m.id).lost,
            range.startTs < entry.ts → range.endTs < entry.ts) := by
  intro m hm htype range hrange
  have hkept := ((inv_of_run hoplog hcollections hrun).kept m hm).slice htype
    range hrange
  rw [hkept.stored, hkept.settled, window_visible_iff]

omit hoplog hcollections hrun in
/-- The end of a chain of recorded slices. -/
theorem chainEnd_eq_lastEnd (start : OplogTimestamp)
    {increments : List BackupManifest}
    (hranged : ∀ incr ∈ increments, incr.oplogRange.isSome) :
    chainEnd start (increments.map ChainNode.fromManifest) =
      Tiling.lastEnd start (increments.filterMap slice) := by
  induction increments generalizing start with
  | nil => rfl
  | cons incr rest ih =>
      obtain ⟨range, hrange⟩ := Option.isSome_iff_exists.mp
        (hranged incr List.mem_cons_self)
      have hrest := ih range.endTs fun other hother =>
        hranged other (List.mem_cons_of_mem incr hother)
      rw [List.filterMap_cons_some (slice_eq hrange), Tiling.lastEnd, ← hrest,
        List.map_cons, chainEnd]
      simp [ChainNode.endTs, ChainNode.fromManifest, hrange]

/-- The chain of the selected base, as the destination holds it. -/
theorem chainHolds_of_continuous {nodes : List ChainNode}
    (hnodes : nodes.Perm (last.catalog.manifests.map ChainNode.fromManifest))
    {base : BackupManifest} (hbase : base ∈ last.catalog.manifests)
    {range : OplogRange} (hrange : base.oplogRange = some range)
    (hcontinuous : ContinuousChain (.fromManifest base) range.endTs
      (incrementalsOf nodes base.id)) :
    ChainHolds last.catalog.manifests base range ∧
      incrementalsOf nodes base.id =
        (incrementsOf last.catalog.manifests base.id).map
          ChainNode.fromManifest := by
  have heligible : isChainBase base = true := by
    apply isChainBase_iff.mpr
    refine ⟨hcontinuous.full, ?_, hcontinuous.nonSelective⟩
    have hwhole := hcontinuous.complete _ List.mem_cons_self
    cases hstatus : base.status with
    | complete => rfl
    | incomplete =>
        simp [ChainNode.isIncomplete, ChainNode.fromManifest, hstatus] at hwhole
  have hholds := (inv_of_run hoplog hcollections hrun).history.chains base hbase
    heligible range hrange
  exact ⟨hholds, incrementalsOf_eq last.catalog.ascending hholds hnodes⟩

omit hoplog hcollections hrun in
theorem mem_replayPlan {targetUnix : Int} {slices : List ChainNode}
    {entry : String × Option OplogTimestamp}
    (hentry : entry ∈ replayPlan targetUnix slices) :
    ∃ slice ∈ slices, slice.id = entry.1 := by
  induction slices with
  | nil => cases hentry
  | cons slice rest ih =>
      have hhere : ∀ limit, entry = (slice.id, limit) →
          ∃ other ∈ slice :: rest, other.id = entry.1 := by
        rintro limit rfl
        exact ⟨slice, List.mem_cons_self, rfl⟩
      have hlater : entry ∈ replayPlan targetUnix rest →
          ∃ other ∈ slice :: rest, other.id = entry.1 := by
        intro hmem
        obtain ⟨other, hother, hid⟩ := ih hmem
        exact ⟨other, List.mem_cons_of_mem slice hother, hid⟩
      rw [replayPlan] at hentry
      split at hentry
      · exact hlater hentry
      · split at hentry
        · rcases List.mem_append.mp hentry with hhead | htail
          · split at hhead
            · cases hhead
            · exact hhere _ (List.mem_singleton.mp hhead)
          · exact hlater htail
        · split at hentry
          · split at hentry
            · cases hentry
            · exact hhere _ (List.mem_singleton.mp hentry)
          · cases hentry

omit hoplog hcollections hrun in
/-- What a replay applies comes from the slices of the chain. -/
theorem mem_applied {base : ChainNode} {slices : List ChainNode}
    {contents : String → List OplogEntry} {targetUnix : Int}
    (hids : (slices.map ChainNode.id).Nodup) {entry : OplogEntry}
    (hentry : entry ∈ (appliedEntries contents
      (mapTargetToEnd base slices targetUnix)).flatten) :
    ∃ slice ∈ slices, entry ∈ contents slice.id := by
  rw [appliedEntries_eq_plan contents hids, List.mem_flatten] at hentry
  obtain ⟨entries, hentries, hmem⟩ := hentry
  obtain ⟨planned, hplanned, rfl⟩ := List.mem_map.mp hentries
  obtain ⟨slice, hslice, hid⟩ := mem_replayPlan hplanned
  refine ⟨slice, hslice, hid ▸ ?_⟩
  unfold reachedEntries at hmem
  split at hmem
  · exact hmem
  · exact (List.takeWhile_sublist _).subset hmem

omit hoplog hcollections hrun in
/-- What is due is what the dump saw and what the chain gives. -/
theorem due_eq {written applied : List OplogEntry} {ended : Nat}
    {targetUnix : Int} {baseEnd chainEnd : OplogTimestamp}
    (hascending : Ascending OplogEntry.ts written)
    (hlast : (written.take ended).getLast?.map OplogEntry.ts = some baseEnd)
    (htarget : (baseEnd.t.toNat : Int) ≤ targetUnix)
    (hchain : baseEnd ≤ chainEnd)
    (hexact : ExactReplay written targetUnix baseEnd chainEnd applied)
    (hwithin : ∀ entry ∈ applied, entry.ts ≤ chainEnd) :
    due targetUnix chainEnd written = written.take ended ++ applied := by
  have htaken : Ascending OplogEntry.ts (written.take ended) :=
    hascending.sublist (List.take_sublist _ _)
  have hbelow := fun entry (hentry : entry ∈ written.take ended) =>
    htaken.le_last hlast hentry
  have hdue : Ascending OplogEntry.ts (due targetUnix chainEnd written) :=
    hascending.sublist List.filter_sublist
  apply hdue.ext (htaken.append hexact.ascending hbelow
    fun entry hentry => (hexact.sound entry hentry).2.1)
  intro entry
  rw [ReplicaSet.due, List.mem_filter, List.mem_append, decide_eq_true_iff]
  constructor
  · rintro ⟨hwritten, hsecond, hle⟩
    rcases le_or_gt entry.ts baseEnd with hearly | hlate
    · left
      rw [← List.take_append_drop ended written] at hwritten hascending
      refine (List.mem_append.mp hwritten).resolve_right fun hdrop => ?_
      rw [← hascending.filter_gt_last hlast] at hdrop
      simp [hearly.not_gt] at hdrop
    · exact Or.inr (hexact.complete entry hwritten hlate hle hsecond)
  · rintro (hdumped | happlied)
    · have hle := hbelow entry hdumped
      have hsecond := OplogTimestamp.t_le_of_le hle
      exact ⟨List.mem_of_mem_take hdumped, by omega, hle.trans hchain⟩
    · obtain ⟨hwritten, -, hsecond⟩ := hexact.sound entry happlied
      exact ⟨hwritten, hsecond, hwithin entry happlied⟩

omit hoplog hcollections hrun in
theorem after_eq {written applied : List OplogEntry} {dump : Dump Coll Id Doc}
    {range : OplogRange} (hdump : DumpKept documents written dump range)
    (coll : Coll) :
    documents.after (written.take dump.ended ++ applied) =
      replay (documents.after (written.take (dump.reads coll)))
        (missedBy documents written dump coll ++
          applied.flatMap documents.changes) := by
  have hsplit : written.take dump.ended = written.take (dump.reads coll) ++
      (written.take dump.ended).drop (dump.reads coll) := by
    rw [← min_eq_left (hdump.reads coll), ← List.take_take,
      min_eq_left (hdump.reads coll), List.take_append_drop]
  rw [Documents.after, Documents.after, missedBy, ← replay_append,
    ← List.append_assoc, ← List.flatMap_append, ← hsplit, List.flatMap_append]

omit hoplog hcollections hrun in
/-- The dump and what is applied give the documents of their time, unless
something was lost in between. -/
theorem recovered_eq_iff {written applied : List OplogEntry}
    {dump : Dump Coll Id Doc} {range : OplogRange}
    (hdump : DumpKept documents written dump range) :
    recovered documents dump applied =
        documents.after (written.take dump.ended ++ applied) ↔
      NothingLost documents written dump applied := by
  rw [funext_iff, Prod.forall]
  apply forall_congr' fun coll => forall_congr' fun id => ?_
  rw [after_eq hdump coll, recovered, hdump.docs coll id]
  exact replay_suffix_apply_eq_iff _ _ _ _ (coll, id) (hdump.docs coll id)

end Reached

end Recovery

section Notes

/-- One document, which every entry sets to its second. -/
def noteDocuments : Documents Unit Unit Nat where
  founded := fun _ => none
  changes entry := [⟨((), ()), some entry.ts.t.toNat⟩]

def noteOplog : CappedOplog := ⟨[PitrExample.entryAt 10 1], 0⟩

/-- A full backup, two writes, and an incremental run between whose gap check
and whose cursor the server drops the first of them. -/
def lateHistory : List (Happening Unit) :=
  [.startDump none, .readCollection, .endDump "b1" "10" .complete false,
    .write (PitrExample.entryAt 12 1), .write (PitrExample.entryAt 12 3),
    .look, .look, .look, .drop, .drop, .look, .endSlice "b2" "20" .finished]

/-- The same without the drops, and with writes behind the slice. -/
def timelyHistory : List (Happening Unit) :=
  [.startDump none, .readCollection, .endDump "b1" "10" .complete false,
    .write (PitrExample.entryAt 12 1), .look, .look, .look,
    .write (PitrExample.entryAt 12 3), .look, .endSlice "b2" "20" .finished,
    .drop]

theorem noteOplog_ascending :
    Ascending OplogEntry.ts noteOplog.written :=
  List.pairwise_singleton _ _

def noteCollections : List Unit := [()]

theorem mem_noteCollections (coll : Unit) : coll ∈ noteCollections :=
  List.mem_singleton.mpr rfl

def noteBase : BackupManifest :=
  mongoFullManifest "b1" "10" .native .replicaSet false
    (some ⟨⟨10, 1⟩, ⟨10, 1⟩⟩) false

def noteSlice (end_ : OplogTimestamp) : BackupManifest :=
  mongoIncrementalManifest "b2" "20" "b1" ⟨⟨10, 1⟩, end_⟩ 1

theorem run_late : ∃ last,
    run (step noteDocuments (fun _ => none) noteCollections)
      (initial noteOplog) lateHistory = some last ∧
    last.catalog.manifests = [noteBase, noteSlice ⟨12, 3⟩] ∧
    (last.openings "b2").lost =
      [PitrExample.entryAt 10 1, PitrExample.entryAt 12 1] :=
  ⟨_, rfl, rfl, rfl⟩

theorem run_timely : ∃ last,
    run (step noteDocuments (fun _ => none) noteCollections)
      (initial noteOplog) timelyHistory = some last ∧
    last.catalog.manifests = [noteBase, noteSlice ⟨12, 1⟩] ∧
    (last.openings "b2").lost = [] ∧
    last.oplog.written = noteOplog.written ++
      [PitrExample.entryAt 12 1, PitrExample.entryAt 12 3] ∧
    (last.dumps "b1").ended = 1 ∧ (last.dumps "b1").reads = fun _ => 1 :=
  ⟨_, rfl, rfl, rfl, rfl, rfl, funext fun _ => rfl⟩

/-- The slice goes on record as a complete one without the first write. -/
theorem slice_loses_droppedEntry : ∃ last,
    run (step noteDocuments (fun _ => none) noteCollections)
      (initial noteOplog) lateHistory = some last ∧
    ∃ m ∈ last.catalog.manifests, m.status = .complete ∧
      m.oplogRange = some ⟨⟨10, 1⟩, ⟨12, 3⟩⟩ ∧
      last.slices m.id ≠ window OplogEntry.ts ⟨10, 1⟩ ⟨12, 3⟩
        last.oplog.written := by
  obtain ⟨last, hrun, hmanifests, hlost⟩ := run_late
  have hm : noteSlice ⟨12, 3⟩ ∈ last.catalog.manifests := by
    rw [hmanifests]
    exact List.mem_cons_of_mem _ List.mem_cons_self
  refine ⟨last, hrun, _, hm, rfl, rfl, ?_⟩
  intro hwhole
  have hkept := (slice_whole_iff noteOplog_ascending mem_noteCollections hrun _
    hm rfl _ rfl).mp hwhole (PitrExample.entryAt 12 1)
  have hdropped : PitrExample.entryAt 12 1 ∈ (last.openings "b2").lost := by
    rw [hlost]
    exact List.mem_cons_of_mem _ List.mem_cons_self
  exact absurd (hkept hdropped (by decide)) (by decide)

end Notes

end ReplicaSet

end XBackup
