/-
A replica set that is backed up while its clients write and its oplog loses its
oldest entries: every query of a run meets the server at a time of its own.
-/
import XBackup.Pipeline.MongoHistory
import XBackup.Pipeline.Pitr

namespace XBackup

open AscendingLog LastWrite Transition

/-- All that was ever written, and how many of the oldest entries the server
has dropped. -/
structure CappedOplog where
  written : List OplogEntry
  dropped : Nat

namespace CappedOplog

def visible (oplog : CappedOplog) : List OplogEntry :=
  oplog.written.drop oplog.dropped

def docs (oplog : CappedOplog) : List Document :=
  oplog.visible.map OplogEntry.doc

/-- What the server had dropped already. -/
def lost (oplog : CappedOplog) : List OplogEntry :=
  oplog.written.take oplog.dropped

end CappedOplog

variable {Coll Id Doc : Type}

/-- The documents at the beginning, and what each entry does to them. -/
structure Documents (Coll Id Doc : Type) where
  founded : Store (Coll × Id) Doc
  changes : OplogEntry → List (Change (Coll × Id) Doc)

/-- A dump, with the numbers of entries that had been written when each
collection was read and when the dump ended. -/
structure Dump (Coll Id Doc : Type) where
  docs : Store (Coll × Id) Doc
  reads : Coll → Nat
  ended : Nat

/-- What the backup process is doing.  An incremental run looks at the oplog
four times: for the gap check, for the latest entry, behind it, and when it
opens the cursor of the slice.  A dump may be the one an incremental run was
promoted to. -/
inductive Work (Coll Id Doc : Type) where
  | idle
  | looking (looks : List CappedOplog)
  | dumping (selective : Bool) (promoted : Option OplogServer)
      (start : Option OplogTimestamp) (pending : List Coll)
      (dump : Dump Coll Id Doc)

/-- How the cursor of a slice ends: when all is read, or with an error. -/
inductive CursorEnd where
  | finished
  | lateGap
  | other (err : XBackupError)

/-- The server and the destination.  For each slice the oplog is kept on which
its cursor was opened. -/
structure ReplicaSet (Coll Id Doc : Type) where
  oplog : CappedOplog
  work : Work Coll Id Doc
  catalog : Catalog
  slices : String → List OplogEntry
  openings : String → CappedOplog
  dumps : String → Dump Coll Id Doc

inductive Happening (Coll : Type) where
  | write (entry : OplogEntry)
  | drop
  | look
  | endSlice (id createdAt : String) (cursor : CursorEnd)
  | startDump (selected : Option (List Coll))
  | readCollection
  | endDump (id createdAt : String) (status : BackupStatus) (marked : Bool)
  | stop
  | prune (policy : RetentionPolicy) (nowSecs : ℤ) (includeForceOnly : Bool)
      (deleted : Nat)

variable [DecidableEq Coll] [DecidableEq Id]

/-- The documents behind these entries. -/
def Documents.after (documents : Documents Coll Id Doc)
    (entries : List OplogEntry) : Store (Coll × Id) Doc :=
  replay documents.founded (entries.flatMap documents.changes)

/-- What the cursor gives of the slice behind the selected base. -/
def sliceDocs (storage : Storage) (latest boundary opened : CappedOplog) :
    List Document :=
  match selectBase storage with
  | .error _ => []
  | .ok base =>
      captureStream base.lastBackupTs
        ((resolveUpperBound latest.docs boundary.docs).getD base.lastBackupTs)
        opened.docs

/-- The server as the incremental run met it. -/
def metServer (storage : Storage) (check latest boundary opened : CappedOplog)
    (cursor : CursorEnd) : OplogServer where
  supportsOplog := true
  atGapCheck := check.docs
  atLatest := latest.docs
  atBoundary := boundary.docs
  capture :=
    match cursor with
    | .finished =>
        .captured (sliceDocs storage latest boundary opened).length
    | .lateGap => .lateGap
    | .other err => .other err

namespace ReplicaSet

/-- The dump starts with the latest timestamp, where it records a window. -/
def dumpFrom (st : ReplicaSet Coll Id Doc) (selective : Bool)
    (promoted : Option OplogServer) (targets : List Coll) : Work Coll Id Doc :=
  .dumping selective promoted
    (if decideOplog true selective then latestOplogTs st.oplog.docs else none)
    targets ⟨fun _ => none, fun _ => 0, 0⟩

/-- The collection as it is now. -/
def readInto (documents : Documents Coll Id Doc) (st : ReplicaSet Coll Id Doc)
    (coll : Coll) (dump : Dump Coll Id Doc) : Dump Coll Id Doc :=
  { dump with
    docs := fun key =>
      if key.1 = coll then documents.after st.oplog.written key
      else dump.docs key
    reads := Function.update dump.reads coll st.oplog.written.length }

/-- The window of a dump that ends now. -/
def windowNow (st : ReplicaSet Coll Id Doc) (selective : Bool)
    (start : Option OplogTimestamp) : Option OplogRange :=
  match start, (if decideOplog true selective then
    latestOplogTs st.oplog.docs else none) with
  | some start, some end_ => some ⟨start, end_⟩
  | _, _ => none

/-- The full run or the promoted incremental one, whose dump has ended. -/
def dumpRun (id createdAt : String) (selective : Bool)
    (window : Option OplogRange) (status : BackupStatus) (marked : Bool) :
    Option OplogServer → MongoRun
  | none => .full id createdAt .native .replicaSet selective window status
  | some server => .incremental id createdAt server .native window marked

/-- The backups of the destination as a run leaves them. -/
def recorded (parse : String → Option I64) (st : ReplicaSet Coll Id Doc)
    (run : MongoRun) (keep : Catalog → ReplicaSet Coll Id Doc) :
    Option (ReplicaSet Coll Id Doc) :=
  (mongoRun parse st.catalog run).map keep

/-- What the incremental run makes of what it saw. -/
def endSlice (parse : String → Option I64) (collections : List Coll)
    (st : ReplicaSet Coll Id Doc) (id createdAt : String) (server : OplogServer)
    (opened : CappedOplog) : Option (ReplicaSet Coll Id Doc) :=
  match runIncrementalBackup st.catalog.toStorage server with
  | .error _ => some { st with work := .idle }
  | .ok .promotedToFull =>
      some { st with work := st.dumpFrom false (some server) collections }
  | .ok (.captured _ range _) =>
      st.recorded parse (.incremental id createdAt server .native none false)
        fun catalog =>
          { st with
            work := .idle
            catalog := catalog
            slices := Function.update st.slices id
              (window OplogEntry.ts range.startTs range.endTs opened.visible)
            openings := Function.update st.openings id opened }

/-- One step of the clients, of the server or of the backup process, which the
lock of the profile keeps from doing two things at once. -/
def step (documents : Documents Coll Id Doc) (parse : String → Option I64)
    (collections : List Coll) (st : ReplicaSet Coll Id Doc) :
    Happening Coll → Option (ReplicaSet Coll Id Doc)
  | .write entry =>
      if st.oplog.written.all fun old => old.ts < entry.ts then
        some { st with
          oplog := ⟨st.oplog.written ++ [entry], st.oplog.dropped⟩ }
      else none
  | .drop =>
      some { st with oplog := ⟨st.oplog.written, st.oplog.dropped + 1⟩ }
  | .look =>
      match st.work with
      | .idle => some { st with work := .looking [st.oplog] }
      | .looking looks =>
          some { st with work := .looking (looks ++ [st.oplog]) }
      | .dumping .. => none
  | .endSlice id createdAt cursor =>
      match st.work with
      | .looking [check, latest, boundary, opened] =>
          st.endSlice parse collections id createdAt
            (metServer st.catalog.toStorage check latest boundary opened cursor)
            opened
      | _ => none
  | .startDump selected =>
      match st.work with
      | .idle =>
          some { st with
            work := st.dumpFrom selected.isSome none
              (selected.getD collections) }
      | _ => none
  | .readCollection =>
      match st.work with
      | .dumping selective promoted start (coll :: pending) dump =>
          some { st with
            work := .dumping selective promoted start pending
              (st.readInto documents coll dump) }
      | _ => none
  | .endDump id createdAt status marked =>
      match st.work with
      | .dumping selective promoted start [] dump =>
          st.recorded parse
            (dumpRun id createdAt selective (st.windowNow selective start) status
              marked promoted)
            fun catalog =>
              { st with
                work := .idle
                catalog := catalog
                dumps := Function.update st.dumps id
                  { dump with ended := st.oplog.written.length } }
      | _ => none
  | .stop => some { st with work := .idle }
  | .prune policy nowSecs includeForceOnly deleted =>
      match st.work with
      | .idle =>
          st.recorded parse (.prune policy nowSecs includeForceOnly deleted)
            fun catalog => { st with catalog := catalog }
      | _ => none

/-- A server before its first backup. -/
def initial (oplog : CappedOplog) : ReplicaSet Coll Id Doc where
  oplog := oplog
  work := .idle
  catalog := .empty
  slices := fun _ => []
  openings := fun _ => ⟨[], 0⟩
  dumps := fun _ => ⟨fun _ => none, fun _ => 0, 0⟩

end ReplicaSet

section Bounds

theorem latestOplogTs_map (entries : List OplogEntry) :
    latestOplogTs (entries.map OplogEntry.doc) =
      entries.getLast?.map OplogEntry.ts := by
  rw [latestOplogTs, List.getLast?_map]
  cases entries.getLast? with
  | none => rfl
  | some entry => exact entry.ts_eq

theorem mem_of_latestOplogTs {entries : List OplogEntry} {ts : OplogTimestamp}
    (hlatest : latestOplogTs (entries.map OplogEntry.doc) = some ts) :
    ∃ entry ∈ entries, entry.ts = ts := by
  rw [latestOplogTs_map] at hlatest
  obtain ⟨entry, hentry, hts⟩ := Option.map_eq_some_iff.mp hlatest
  exact ⟨entry, List.mem_of_getLast? hentry, hts⟩

theorem walkBoundary_mem (result : OplogTimestamp)
    (seq : List (OplogTimestamp × Bool)) :
    walkBoundary result seq = result ∨
      ∃ seen ∈ seq, seen.1 = walkBoundary result seq := by
  induction seq generalizing result with
  | nil => exact Or.inl rfl
  | cons seen rest ih =>
      obtain ⟨ts, flagged⟩ := seen
      cases flagged with
      | false => exact Or.inr ⟨_, List.mem_cons_self, rfl⟩
      | true =>
          rcases ih ts with hsame | ⟨other, hother, hts⟩
          · exact Or.inr ⟨_, List.mem_cons_self, hsame.symm⟩
          · exact Or.inr ⟨other, List.mem_cons_of_mem _ hother, hts⟩

theorem boundarySeq_mem {seq found : List (OplogTimestamp × Bool)}
    {raws : List Document} (hfound : boundarySeq seq raws = some found) :
    ∀ seen ∈ found, seen ∈ seq ∨ ∃ raw ∈ raws, tsOf raw = some seen.1 := by
  induction raws generalizing seq with
  | nil =>
      cases hfound
      exact fun seen hseen => Or.inl hseen
  | cons raw rest ih =>
      intro seen hseen
      rw [boundarySeq] at hfound
      split at hfound
      · cases hfound
      have hlater : ∀ next, (∀ old ∈ next, old ∈ seq ∨
            ∃ other ∈ raw :: rest, tsOf other = some old.1) →
          boundarySeq next rest = some found →
          seen ∈ seq ∨ ∃ other ∈ raw :: rest, tsOf other = some seen.1 := by
        intro next hnext hrest
        rcases ih hrest seen hseen with hold | ⟨other, hother, hts⟩
        · exact hnext seen hold
        · exact Or.inr ⟨other, List.mem_cons_of_mem raw hother, hts⟩
      cases hts : tsOf raw with
      | none =>
          have hold : ∀ old ∈ seq, old ∈ seq ∨
              ∃ other ∈ raw :: rest, tsOf other = some old.1 :=
            fun old => Or.inl
          simp only [hts] at hfound
          split at hfound
          · exact hlater seq hold hfound
          · cases hfound
            exact hold seen hseen
      | some ts =>
          have hnew : ∀ old ∈ seq ++ [(ts, isPartialTxn raw)], old ∈ seq ∨
              ∃ other ∈ raw :: rest, tsOf other = some old.1 := by
            intro old hmem
            rcases List.mem_append.mp hmem with hold | hlast
            · exact Or.inl hold
            · rw [List.mem_singleton.mp hlast]
              exact Or.inr ⟨raw, List.mem_cons_self, hts⟩
          simp only [hts] at hfound
          split at hfound
          · exact hlater _ hnew hfound
          · cases hfound
            exact hnew seen hseen

/-- The bound of a slice is the timestamp of an entry that was seen. -/
theorem resolveUpperBound_mem {seen later : List OplogEntry}
    {upper : OplogTimestamp}
    (hupper : resolveUpperBound (seen.map OplogEntry.doc)
      (later.map OplogEntry.doc) = some upper) :
    ∃ entry ∈ seen ++ later, entry.ts = upper := by
  obtain ⟨latest, hlatest, hextended⟩ := Option.map_eq_some_iff.mp hupper
  obtain ⟨entry, hentry, rfl⟩ := mem_of_latestOplogTs hlatest
  have hown : entry.ts = upper → ∃ entry ∈ seen ++ later, entry.ts = upper :=
    fun hsame => ⟨entry, List.mem_append_left later hentry, hsame⟩
  rw [extendUpperPastPartialTxn] at hextended
  split at hextended
  next => exact hown hextended
  next seq hseq =>
    unfold extendBoundary at hextended
    split at hextended
    next => exact hown hextended
    next => exact hown hextended
    next ts rest =>
      rcases walkBoundary_mem entry.ts ((ts, true) :: rest) with
        hsame | ⟨found, hfound, hts⟩
      · exact hown (hsame.symm.trans hextended)
      · obtain hnil | ⟨raw, hraw, hrawTs⟩ := boundarySeq_mem hseq found hfound
        · cases hnil
        obtain ⟨other, hother, rfl⟩ :=
          List.mem_map.mp (List.mem_of_mem_filter hraw)
        rw [tsOf, other.ts_eq, hts, hextended] at hrawTs
        exact ⟨other, List.mem_append_right seen hother,
          Option.some.inj hrawTs⟩

theorem captureStream_docs (last upper : OplogTimestamp)
    (entries : List OplogEntry) :
    captureStream last upper (entries.map OplogEntry.doc) =
      (window OplogEntry.ts last upper entries).map OplogEntry.doc := by
  rw [captureStream, List.filter_map, window]
  congr 2
  funext entry
  simp [tsOf, entry.ts_eq]

end Bounds

end XBackup
