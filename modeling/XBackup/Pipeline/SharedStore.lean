/-
One destination shared by the engines: the history of full and incremental
runs of Mongo, files, MySQL and PostgreSQL over one catalog, with the position
every recorded backup starts from and ends at.
-/
import XBackup.Foundation.History
import XBackup.Foundation.Transition
import XBackup.Manifest.Chain
import XBackup.Pipeline.DriverPitr
import XBackup.Pipeline.FileChain
import XBackup.Pipeline.Incremental
import XBackup.Pipeline.PgChain

namespace XBackup

open History Transition

/-- Positions of the engines: an oplog timestamp or a file generation, binlog
coordinates, a position of the write-ahead log. -/
inductive ChainPosition where
  | oplog (ts : OplogTimestamp)
  | binlog (coords : MysqlBinlogCoords)
  | wal (position : Nat)
deriving DecidableEq, Repr

/-- A recorded backup.  The manifests of PostgreSQL state no position, and
those of MySQL only the end; the run that recorded them knew both. -/
structure ChainEntry where
  manifest : BackupManifest
  start : Option ChainPosition
  finish : Option ChainPosition
deriving DecidableEq, Repr

def ChainEntry.ofOplogRange (m : BackupManifest) : ChainEntry where
  manifest := m
  start := m.oplogRange.map fun range => .oplog range.startTs
  finish := m.oplogRange.map fun range => .oplog range.endTs

/-- The replication slot, and the full backup of the run that created it. -/
structure PgSlot where
  position : Nat
  madeFor : Option String
deriving DecidableEq, Repr

structure SharedStore where
  catalog : Catalog
  entries : List ChainEntry
  listed : catalog.manifests = entries.map ChainEntry.manifest
  slot : Option PgSlot

namespace SharedStore

def empty : SharedStore := ⟨.empty, [], rfl, none⟩

def record (st : SharedStore) (entry : ChainEntry) : Option SharedStore :=
  if hfresh : st.catalog.Fresh entry.manifest.id then
    some
      { catalog := st.catalog.record entry.manifest hfresh
        entries := st.entries ++ [entry]
        listed := by simp [Catalog.record, st.listed]
        slot := st.slot }
  else none

end SharedStore

def mysqlFullManifest (id createdAt : String) (selective : Bool)
    (coords : Option MysqlBinlogCoords) (promotedFromGap : Bool) :
    BackupManifest where
  id := id
  createdAt := createdAt
  backupType := .full
  baseId := none
  topology := .standalone
  toolVersions := ⟨none, some MYSQL_FORMAT_ID⟩
  selective := selective
  oplogRange := none
  oplogCount := none
  promotedFromGap := promotedFromGap
  mysqlBinlog := coords
  status := .complete

def mysqlIncrementalManifest (id createdAt baseId : String)
    (changeCount : Nat) (endCoords : MysqlBinlogCoords) : BackupManifest where
  id := id
  createdAt := createdAt
  backupType := .incremental
  baseId := some baseId
  topology := .standalone
  toolVersions := ⟨none, some MYSQL_INCR_FORMAT_ID⟩
  selective := false
  oplogRange := none
  oplogCount := some changeCount
  promotedFromGap := false
  mysqlBinlog := some endCoords
  status := .complete

/-- A run with what it met: the server, the tree, and what it was started
with.  A run that fails leaves the catalog as it was. -/
inductive BackupRun where
  | mongoFull (id createdAt : String) (engine : Engine) (topology : Topology)
      (selective : Bool) (window : Option OplogRange)
  | mongoIncremental (id createdAt : String) (server : OplogServer)
      (engine : Engine) (window : Option OplogRange)
  | fileFull (id createdAt : String)
  | fileIncremental (id createdAt : String) (headIndexReadable : Bool)
      (changeCount : Nat)
  | mysqlFull (id createdAt : String) (selective : Bool)
      (coords : Option MysqlBinlogCoords)
  | mysqlIncremental (id createdAt : String)
      (binlogAvailable : MysqlBinlogCoords → Bool) (changeCount : Nat)
      (endCoords : MysqlBinlogCoords) (fullCoords : Option MysqlBinlogCoords)
  | pgFull (id createdAt : String) (selective enableIncremental : Bool)
      (slotAt : Nat)
  | pgFullFails (slotAt : Nat)
  | pgIncremental (id createdAt : String) (upto changeCount : Nat)
      (advanced : Bool)

/-- The state behind a run; `none` when its id is not a new one. -/
def backupRun (st : SharedStore) : BackupRun → Option SharedStore
  | .mongoFull id createdAt engine topology selective window =>
      st.record (.ofOplogRange
        (mongoFullManifest id createdAt engine topology selective window false))
  | .mongoIncremental id createdAt server engine window =>
      match runIncrementalBackup st.catalog.toStorage server with
      | .error _ => some st
      | .ok .promotedToFull =>
          st.record (.ofOplogRange (mongoFullManifest id createdAt engine
            .replicaSet false window true))
      | .ok (.captured base range oplogCount) =>
          st.record (.ofOplogRange (mongoIncrementalManifest id createdAt
            base.fullBaseId range oplogCount))
  | .fileFull id createdAt =>
      st.record (.ofOplogRange (fileFullManifest id createdAt false))
  | .fileIncremental id createdAt headIndexReadable changeCount =>
      match collectFileChain st.catalog.toStorage with
      | none => some st
      | some chain =>
          if headIndexReadable then
            st.record (.ofOplogRange
              (fileIncrementalManifest id createdAt chain changeCount))
          else st.record (.ofOplogRange (fileFullManifest id createdAt true))
  | .mysqlFull id createdAt selective coords =>
      st.record ⟨mysqlFullManifest id createdAt selective coords false, none,
        coords.map .binlog⟩
  | .mysqlIncremental id createdAt binlogAvailable changeCount endCoords
      fullCoords =>
      match latestMysqlFull st.catalog.toStorage with
      | .error _ => some st
      | .ok baseId =>
          match chainStartCoords st.catalog.toStorage baseId with
          | .error _ => some st
          | .ok start =>
              if binlogAvailable start then
                st.record ⟨mysqlIncrementalManifest id createdAt baseId
                  changeCount endCoords, some (.binlog start),
                  some (.binlog endCoords)⟩
              else
                st.record ⟨mysqlFullManifest id createdAt false fullCoords true,
                  none, fullCoords.map .binlog⟩
  | .pgFull id createdAt selective enableIncremental slotAt =>
      let m := pgFullManifest id createdAt selective
      if enableIncremental && !selective then
        (st.record ⟨m, none, some (.wal slotAt)⟩).map fun next =>
          { next with slot := some ⟨slotAt, some id⟩ }
      else st.record ⟨m, none, none⟩
  -- the slot was created again, the dump or its upload failed
  | .pgFullFails slotAt => some { st with slot := some ⟨slotAt, none⟩ }
  | .pgIncremental id createdAt upto changeCount advanced =>
      match selectPgFullBase st.catalog.toStorage, st.slot with
      | .ok baseId, some slot =>
          (st.record ⟨pgIncrementalManifest id createdAt baseId changeCount,
            some (.wal slot.position), some (.wal upto)⟩).map fun next =>
              if advanced then
                { next with slot := some { slot with position := upto } }
              else next
      | _, _ => some st

/-- A backup of the chain of `base`. -/
def InChain (base tip : ChainEntry) : Prop :=
  tip = base ∨
    tip.manifest.backupType = .incremental ∧
      tip.manifest.baseId = some base.manifest.id ∧
      tip.manifest.dbKind = base.manifest.dbKind

/-- An increment names an earlier full backup of its engine and starts where a
backup of that chain ends. -/
def Continues (earlier : List ChainEntry) (entry : ChainEntry) : Prop :=
  entry.manifest.backupType = .incremental →
    ∃ base ∈ earlier, base.manifest.backupType = .full ∧
      entry.manifest.baseId = some base.manifest.id ∧
      entry.manifest.dbKind = base.manifest.dbKind ∧
      ∃ tip ∈ earlier, InChain base tip ∧
        ∃ position, entry.start = some position ∧ tip.finish = some position

def NeverMixed (st : SharedStore) : Prop :=
  Each Continues st.entries

/-- What a run records. -/
inductive Recorded : ChainEntry → Prop where
  | mongoFull (id createdAt : String) (engine : Engine) (topology : Topology)
      (selective : Bool) (window : Option OplogRange) (promoted : Bool) :
      Recorded (.ofOplogRange (mongoFullManifest id createdAt engine topology
        selective window promoted))
  | mongoIncremental (id createdAt baseId : String) (range : OplogRange)
      (oplogCount : Nat) :
      Recorded (.ofOplogRange
        (mongoIncrementalManifest id createdAt baseId range oplogCount))
  | fileFull (id createdAt : String) (promoted : Bool) :
      Recorded (.ofOplogRange (fileFullManifest id createdAt promoted))
  | fileIncremental (id createdAt : String) (chain : FileChain)
      (changeCount : Nat) :
      Recorded (.ofOplogRange
        (fileIncrementalManifest id createdAt chain changeCount))
  | mysqlFull (id createdAt : String) (selective : Bool)
      (coords : Option MysqlBinlogCoords) (promoted : Bool) :
      Recorded ⟨mysqlFullManifest id createdAt selective coords promoted, none,
        coords.map .binlog⟩
  | mysqlIncremental (id createdAt baseId : String) (changeCount : Nat)
      (start : ChainPosition) (endCoords : MysqlBinlogCoords) :
      Recorded ⟨mysqlIncrementalManifest id createdAt baseId changeCount
        endCoords, some start, some (.binlog endCoords)⟩
  | pgFull (id createdAt : String) (selective : Bool)
      (finish : Option ChainPosition) :
      Recorded ⟨pgFullManifest id createdAt selective, none, finish⟩
  | pgIncremental (id createdAt baseId : String) (changeCount : Nat)
      (start finish : ChainPosition) :
      Recorded ⟨pgIncrementalManifest id createdAt baseId changeCount,
        some start, some finish⟩

theorem ChainEntry.finish_ofOplogRange {m : BackupManifest} {range : OplogRange}
    (hrange : m.oplogRange = some range) :
    (ChainEntry.ofOplogRange m).finish = some (.oplog range.endTs) := by
  simp [ChainEntry.ofOplogRange, hrange]

namespace Recorded

/-- A window states where its backup ends. -/
theorem finish_of_oplogRange {entry : ChainEntry} {range : OplogRange}
    (hentry : Recorded entry) (hrange : entry.manifest.oplogRange = some range) :
    entry.finish = some (.oplog range.endTs) := by
  cases hentry with
  | mongoFull => exact ChainEntry.finish_ofOplogRange hrange
  | mongoIncremental => exact ChainEntry.finish_ofOplogRange hrange
  | fileFull => exact ChainEntry.finish_ofOplogRange hrange
  | fileIncremental => exact ChainEntry.finish_ofOplogRange hrange
  | mysqlFull => cases hrange
  | mysqlIncremental => cases hrange
  | pgFull => cases hrange
  | pgIncremental => cases hrange

/-- Binlog coordinates do too. -/
theorem finish_of_mysqlBinlog {entry : ChainEntry} {coords : MysqlBinlogCoords}
    (hentry : Recorded entry)
    (hcoords : entry.manifest.mysqlBinlog = some coords) :
    entry.finish = some (.binlog coords) := by
  cases hentry with
  | mysqlFull => exact Option.map_eq_some_iff.mpr ⟨coords, hcoords, rfl⟩
  | mysqlIncremental =>
      cases hcoords
      rfl
  | mongoFull => cases hcoords
  | mongoIncremental => cases hcoords
  | fileFull => cases hcoords
  | fileIncremental => cases hcoords
  | pgFull => cases hcoords
  | pgIncremental => cases hcoords

/-- The generation is the whole of the position of a file backup. -/
theorem range_of_file {entry : ChainEntry} (hentry : Recorded entry)
    (hkind : entry.manifest.dbKind = .file) :
    ∃ range, entry.manifest.oplogRange = some range ∧ range.endTs.i = 0 ∧
      (entry.manifest.backupType = .full →
        range.endTs = FILE_CHAIN_START) := by
  cases hentry with
  | fileFull id createdAt promoted =>
      exact ⟨_, rfl, rfl, fun _ => rfl⟩
  | fileIncremental id createdAt chain changeCount =>
      refine ⟨_, rfl, ?_, fun hfull => by cases hfull⟩
      split
      · rfl
      · rfl
  | mongoFull id createdAt engine => cases engine <;> cases hkind
  | mongoIncremental => cases hkind
  | mysqlFull => cases hkind
  | mysqlIncremental => cases hkind
  | pgFull => cases hkind
  | pgIncremental => cases hkind

end Recorded

/-- The invariant of the histories that keep the engines apart: a slot made for
a recorded full backup stands where a backup of its chain ends. -/
structure SharedInv (st : SharedStore) : Prop where
  unmixed : NeverMixed st
  recorded : ∀ entry ∈ st.entries, Recorded entry
  slot : ∀ slot owner, st.slot = some slot → slot.madeFor = some owner →
    ∃ base ∈ st.entries, base.manifest.id = owner ∧
      base.manifest.backupType = .full ∧
      ∃ tip ∈ st.entries, InChain base tip ∧
        tip.finish = some (.wal slot.position)

theorem sharedInv_empty : SharedInv .empty where
  unmixed := each_nil _
  recorded := by simp [SharedStore.empty]
  slot := by simp [SharedStore.empty]

namespace SharedStore

theorem exists_entry {st : SharedStore} {m : BackupManifest}
    (hm : m ∈ st.catalog.manifests) :
    ∃ entry ∈ st.entries, entry.manifest = m := by
  rw [st.listed] at hm
  exact List.mem_map.mp hm

theorem manifest_mem {st : SharedStore} {entry : ChainEntry}
    (hentry : entry ∈ st.entries) :
    entry.manifest ∈ st.catalog.manifests := by
  rw [st.listed]
  exact List.mem_map_of_mem hentry

/-- Two entries of one id carry the same manifest. -/
theorem manifest_eq_of_id_eq {st : SharedStore} {left right : BackupManifest}
    (hleft : left ∈ st.catalog.manifests)
    (hright : right ∈ st.catalog.manifests) (hid : left.id = right.id) :
    left = right :=
  st.catalog.ascending.eq_of_pos_eq hleft hright hid

theorem record_eq_some {st next : SharedStore} {entry : ChainEntry}
    (hrecord : st.record entry = some next) :
    next.entries = st.entries ++ [entry] ∧ next.slot = st.slot := by
  rw [record] at hrecord
  split at hrecord
  · cases hrecord
    exact ⟨rfl, rfl⟩
  · cases hrecord

end SharedStore

/-- Recording a backup that continues its chain keeps the invariant. -/
theorem SharedInv.record {st next : SharedStore} {entry : ChainEntry}
    (hinv : SharedInv st) (hentry : Recorded entry)
    (hcontinues : Continues st.entries entry)
    (hrecord : st.record entry = some next) : SharedInv next := by
  obtain ⟨hentries, hslot⟩ := SharedStore.record_eq_some hrecord
  refine ⟨?_, ?_, ?_⟩
  · rw [NeverMixed, hentries, each_append_singleton]
    exact ⟨hinv.unmixed, hcontinues⟩
  · rw [hentries]
    intro other hother
    rcases List.mem_append.mp hother with hold | hnew
    · exact hinv.recorded other hold
    · rw [List.mem_singleton.mp hnew]
      exact hentry
  · rw [hentries, hslot]
    intro slot owner hsome howner
    obtain ⟨base, hbase, hid, hfull, tip, htip, hchain, hfinish⟩ :=
      hinv.slot slot owner hsome howner
    exact ⟨base, List.mem_append_left _ hbase, hid, hfull, tip,
      List.mem_append_left _ htip, hchain, hfinish⟩

/-- Full backups continue nothing. -/
theorem SharedInv.recordFull {st next : SharedStore} {entry : ChainEntry}
    (hinv : SharedInv st) (hentry : Recorded entry)
    (hfull : entry.manifest.backupType = .full)
    (hrecord : st.record entry = some next) : SharedInv next := by
  refine hinv.record hentry ?_ hrecord
  intro hincremental
  rw [hfull] at hincremental
  cases hincremental

/-- In an unmixed store the chain of any backup starts at a full backup of its
engine. -/
theorem SharedInv.chain_base {st : SharedStore} (hinv : SharedInv st)
    {tip : ChainEntry} (htip : tip ∈ st.entries) :
    ∃ base ∈ st.entries, base.manifest.backupType = .full ∧
      base.manifest.dbKind = tip.manifest.dbKind ∧ InChain base tip := by
  cases htype : tip.manifest.backupType with
  | full =>
      exact ⟨tip, htip, htype, rfl, Or.inl rfl⟩
  | incremental =>
      obtain ⟨earlier, hearlier, hgood⟩ := hinv.unmixed.of_mem htip
      obtain ⟨base, hbase, hfull, hid, hkind, -⟩ := hgood htype
      exact ⟨base, hearlier hbase, hfull, hkind.symm,
        Or.inr ⟨htype, hid, hkind⟩⟩

/-- The runs that keep engines apart: a Mongo increment that could continue the
end of another engine's backup finds a later Mongo backup to continue, and a
PostgreSQL increment reads a slot made by the run that recorded its base. -/
def KeepsApart (st : SharedStore) : BackupRun → Prop
  | .mongoIncremental _ _ server _ _ =>
      ∀ other ∈ st.catalog.manifests, other.dbKind ≠ .mongo →
        ∀ selection, baseSelection st.catalog.toStorage other = some selection →
          (∃ m ∈ st.catalog.manifests, m.dbKind = .mongo ∧
            (baseSelection st.catalog.toStorage m).isSome ∧ other.id < m.id) ∨
          ¬ server.Continuable selection.lastBackupTs
  | .pgIncremental _ _ _ _ _ =>
      ∀ slot, st.slot = some slot →
        ∀ base ∈ st.catalog.manifests, isPgFull base = true →
          (∀ other ∈ st.catalog.manifests, isPgFull other = true →
            other.id ≤ base.id) → slot.madeFor = some base.id
  | _ => True

theorem SharedInv.mongoIncremental {st next : SharedStore}
    {id createdAt : String} {server : OplogServer} {engine : Engine}
    {window : Option OplogRange} (hinv : SharedInv st)
    (hok : KeepsApart st (.mongoIncremental id createdAt server engine window))
    (hrun : backupRun st
      (.mongoIncremental id createdAt server engine window) = some next) :
    SharedInv next := by
  simp only [backupRun] at hrun
  split at hrun
  next =>
    cases hrun
    exact hinv
  next =>
    exact hinv.recordFull (.mongoFull _ _ _ _ _ _ _) rfl hrun
  next base range oplogCount hcaptured =>
    obtain ⟨hselect, hstart, -, hcontinuable⟩ :=
      runIncrementalBackup_captured hcaptured
    obtain ⟨tip, htip, hoffer, hmax⟩ := selectBase_toStorage_iff.mp hselect
    have hkind : tip.dbKind = .mongo := by
      by_contra hother
      rcases hok tip htip hother base hoffer with
        ⟨later, hlater, -, hsome, hlt⟩ | hstopped
      · exact absurd (hmax later hlater hsome) (not_le.mpr hlt)
      · exact hstopped hcontinuable
    obtain ⟨-, ⟨tipRange, htipRange, hlast⟩, hbaseId⟩ :=
      baseSelection_eq_some hoffer
    obtain ⟨tipEntry, htipEntry, rfl⟩ := SharedStore.exists_entry htip
    obtain ⟨full, hfull, hfullType, hfullKind, hchain⟩ :=
      hinv.chain_base htipEntry
    have hid : base.fullBaseId = full.manifest.id := by
      rcases hchain with rfl | ⟨htipType, htipBase, -⟩
      · rcases hbaseId with ⟨-, hid⟩ | ⟨htipType, -⟩
        · exact hid
        · rw [hfullType] at htipType
          cases htipType
      · rcases hbaseId with ⟨hother, -⟩ | ⟨-, hid⟩
        · rw [htipType] at hother
          cases hother
        · rw [htipBase] at hid
          exact (Option.some.inj hid).symm
    refine hinv.record (.mongoIncremental _ _ _ _ _) ?_ hrun
    intro _
    refine ⟨full, hfull, hfullType, congrArg some hid,
      (hfullKind.trans hkind).symm, tipEntry, htipEntry, hchain,
      .oplog range.startTs, rfl, ?_⟩
    rw [(hinv.recorded tipEntry htipEntry).finish_of_oplogRange htipRange,
      hstart, hlast]

theorem SharedInv.fileIncremental {st next : SharedStore}
    {id createdAt : String} {headIndexReadable : Bool} {changeCount : Nat}
    (hinv : SharedInv st)
    (hrun : backupRun st
      (.fileIncremental id createdAt headIndexReadable changeCount) =
        some next) :
    SharedInv next := by
  simp only [backupRun] at hrun
  split at hrun
  next =>
    cases hrun
    exact hinv
  next chain hchain =>
    split at hrun
    next =>
      obtain ⟨full, hfull, hfileFull, hbaseId, hhead⟩ :=
        collectFileChain_toStorage hchain
      obtain ⟨base, hbase, rfl⟩ := SharedStore.exists_entry hfull
      have hfullType : base.manifest.backupType = .full ∧
          base.manifest.dbKind = .file := by
        simp only [isFileFull, decide_eq_true_eq] at hfileFull
        exact ⟨hfileFull.1, by
          rw [BackupManifest.dbKind, hfileFull.2.2]
          decide⟩
      have htip : ∃ tip ∈ st.entries, InChain base tip ∧
          tip.finish = some (.oplog ⟨chain.headGen, 0⟩) := by
        rcases hhead with ⟨-, hgen⟩ | ⟨head, hhead, hincrement, -, range, hrange, hgen⟩
        · obtain ⟨range, hrange, -, hstart⟩ :=
            (hinv.recorded base hbase).range_of_file hfullType.2
          refine ⟨base, hbase, Or.inl rfl, ?_⟩
          rw [(hinv.recorded base hbase).finish_of_oplogRange hrange,
            hstart hfullType.1, hgen]
          rfl
        · obtain ⟨tip, htip, rfl⟩ := SharedStore.exists_entry hhead
          obtain ⟨htype, htipBase, hkind⟩ := isIncrementOf_spec hincrement
          have htipKind : tip.manifest.dbKind = .file := by
            rw [hkind]
            decide
          obtain ⟨range', hrange', hzero, -⟩ :=
            (hinv.recorded tip htip).range_of_file htipKind
          have hsame : range' = range := by
            rw [hrange] at hrange'
            exact (Option.some.inj hrange').symm
          subst hsame
          refine ⟨tip, htip,
            Or.inr ⟨htype, htipBase, htipKind.trans hfullType.2.symm⟩, ?_⟩
          rw [(hinv.recorded tip htip).finish_of_oplogRange hrange, hgen,
            ← hzero]
      refine hinv.record (.fileIncremental _ _ _ _) ?_ hrun
      intro _
      obtain ⟨tip, htipMem, hinChain, hfinish⟩ := htip
      exact ⟨base, hbase, hfullType.1, congrArg some hbaseId,
        hfullType.2.symm, tip, htipMem, hinChain, _, rfl, hfinish⟩
    next => exact hinv.recordFull (.fileFull _ _ _) rfl hrun

theorem SharedInv.mysqlIncremental {st next : SharedStore}
    {id createdAt : String} {binlogAvailable : MysqlBinlogCoords → Bool}
    {changeCount : Nat} {endCoords : MysqlBinlogCoords}
    {fullCoords : Option MysqlBinlogCoords} (hinv : SharedInv st)
    (hrun : backupRun st (.mysqlIncremental id createdAt binlogAvailable
      changeCount endCoords fullCoords) = some next) :
    SharedInv next := by
  simp only [backupRun] at hrun
  split at hrun
  next =>
    cases hrun
    exact hinv
  next baseId hlatest =>
    split at hrun
    next =>
      cases hrun
      exact hinv
    next start hstart =>
      split at hrun
      next =>
        obtain ⟨full, hfull, hmysqlFull, hid, -⟩ :=
          Catalog.latestWhere_toStorage_iff.mp hlatest
        obtain ⟨htype, hkind⟩ := isFullOf_spec hmysqlFull
        obtain ⟨base, hbase, rfl⟩ := SharedStore.exists_entry hfull
        obtain ⟨tipManifest, htip, hcoords, hchain⟩ :=
          chainStartCoords_toStorage hstart
        have htipEntry : ∃ tip ∈ st.entries, InChain base tip ∧
            tip.manifest = tipManifest := by
          rcases hchain with hsame | hincrement
          · exact ⟨base, hbase, Or.inl rfl, SharedStore.manifest_eq_of_id_eq
              hfull htip (hid.trans hsame.symm)⟩
          · obtain ⟨tip, htipMem, rfl⟩ := SharedStore.exists_entry htip
            obtain ⟨htipType, htipBase, htipKind⟩ :=
              isIncrementOf_spec hincrement
            refine ⟨tip, htipMem, Or.inr ⟨htipType, ?_, ?_⟩, rfl⟩
            · rw [htipBase, hid]
            · rw [htipKind, hkind]
              decide
        obtain ⟨tip, htipMem, hinChain, rfl⟩ := htipEntry
        refine hinv.record (.mysqlIncremental _ _ _ _ _ _) ?_ hrun
        intro _
        exact ⟨base, hbase, htype, congrArg some hid.symm, hkind.symm, tip,
          htipMem, hinChain, _, rfl,
          (hinv.recorded tip htipMem).finish_of_mysqlBinlog hcoords⟩
      next => exact hinv.recordFull (.mysqlFull _ _ _ _ _) rfl hrun

/-- The new slot stands where the full backup it was made for ends. -/
theorem SharedInv.pgFull {st next : SharedStore} {id createdAt : String}
    {selective enableIncremental : Bool} {slotAt : Nat} (hinv : SharedInv st)
    (hrun : backupRun st
      (.pgFull id createdAt selective enableIncremental slotAt) = some next) :
    SharedInv next := by
  simp only [backupRun] at hrun
  split at hrun
  next =>
    obtain ⟨recorded, hrecord, rfl⟩ := Option.map_eq_some_iff.mp hrun
    have hrecorded := hinv.recordFull (.pgFull _ _ _ _) rfl hrecord
    refine ⟨hrecorded.unmixed, hrecorded.recorded, ?_⟩
    intro slot owner hslot howner
    cases hslot
    cases howner
    have hnew : (⟨pgFullManifest id createdAt selective, none,
        some (.wal slotAt)⟩ : ChainEntry) ∈ recorded.entries := by
      rw [(SharedStore.record_eq_some hrecord).1]
      simp
    exact ⟨_, hnew, rfl, rfl, _, hnew, Or.inl rfl, rfl⟩
  next => exact hinv.recordFull (.pgFull _ _ _ _) rfl hrun

theorem SharedInv.pgIncremental {st next : SharedStore}
    {id createdAt : String} {upto changeCount : Nat} {advanced : Bool}
    (hinv : SharedInv st)
    (hok : KeepsApart st (.pgIncremental id createdAt upto changeCount advanced))
    (hrun : backupRun st
      (.pgIncremental id createdAt upto changeCount advanced) = some next) :
    SharedInv next := by
  simp only [backupRun] at hrun
  split at hrun
  next baseId slot hselect hslot =>
    obtain ⟨recorded, hrecord, hnext⟩ := Option.map_eq_some_iff.mp hrun
    obtain ⟨full, hfull, hpgFull, rfl, hmax⟩ :=
      Catalog.latestWhere_toStorage_iff.mp hselect
    have howner := hok slot hslot full hfull hpgFull hmax
    obtain ⟨base, hbase, hid, htype, tip, htip, hchain, hfinish⟩ :=
      hinv.slot slot full.id hslot howner
    have hsame : base.manifest = full :=
      SharedStore.manifest_eq_of_id_eq (SharedStore.manifest_mem hbase) hfull hid
    have hkind : base.manifest.dbKind = .postgres := by
      rw [hsame, (isFullOf_spec hpgFull).2]
      decide
    have hrecorded : SharedInv recorded := by
      refine hinv.record (.pgIncremental _ _ _ _ _ _) ?_ hrecord
      intro _
      exact ⟨base, hbase, htype, congrArg some hid.symm, hkind.symm, tip, htip,
        hchain, _, rfl, hfinish⟩
    have hentries := (SharedStore.record_eq_some hrecord).1
    cases advanced with
    | false =>
        cases hnext
        exact hrecorded
    | true =>
        cases hnext
        refine ⟨hrecorded.unmixed, hrecorded.recorded, ?_⟩
        intro moved owner hmoved hmadeFor
        cases hmoved
        have hownerId : owner = full.id :=
          Option.some.inj (hmadeFor.symm.trans howner)
        refine ⟨base, ?_, hid.trans hownerId.symm, htype,
          ⟨pgIncrementalManifest id createdAt full.id changeCount,
            some (.wal slot.position), some (.wal upto)⟩, ?_,
          Or.inr ⟨rfl, congrArg some hid.symm, hkind.symm⟩, rfl⟩
        · simp [hentries, hbase]
        · simp [hentries]
  next =>
    cases hrun
    exact hinv

/-- One run keeps the engines apart. -/
theorem backupRun_inv {st next : SharedStore} {label : BackupRun}
    (hinv : SharedInv st) (hok : KeepsApart st label)
    (hrun : backupRun st label = some next) : SharedInv next := by
  cases label with
  | mongoFull => exact hinv.recordFull (.mongoFull _ _ _ _ _ _ _) rfl hrun
  | mongoIncremental => exact hinv.mongoIncremental hok hrun
  | fileFull => exact hinv.recordFull (.fileFull _ _ _) rfl hrun
  | fileIncremental => exact hinv.fileIncremental hrun
  | mysqlFull => exact hinv.recordFull (.mysqlFull _ _ _ _ _) rfl hrun
  | mysqlIncremental => exact hinv.mysqlIncremental hrun
  | pgFull => exact hinv.pgFull hrun
  | pgFullFails slotAt =>
      cases hrun
      refine ⟨hinv.unmixed, hinv.recorded, ?_⟩
      intro slot owner hslot howner
      cases hslot
      cases howner
  | pgIncremental => exact hinv.pgIncremental hok hrun

/-- In every history whose runs keep the engines apart, every increment
continues a chain of its own engine. -/
theorem sharedStore_neverMixed {labels : List BackupRun} {last : SharedStore}
    (hapart : StepsMeet backupRun KeepsApart .empty labels)
    (hrun : run backupRun .empty labels = some last) : NeverMixed last :=
  (run_invariant_of_stepsMeet SharedInv
    (fun _ _ _ hinv hok hstep => backupRun_inv hinv hok hstep)
    sharedInv_empty hapart hrun).unmixed

/-- The nodes Mongo recovery works on: other engines' backups are left out. -/
def collectChainNodes (storage : Storage) : List ChainNode :=
  (collectManifestIds storage).filterMap fun id =>
    match storage.read id with
    | .ok m => if m.dbKind = .mongo then some (.fromManifest m) else none
    | .error _ => none

theorem mem_collectChainNodes {st : SharedStore} {node : ChainNode} :
    node ∈ collectChainNodes st.catalog.toStorage ↔
      ∃ m ∈ st.catalog.manifests, m.dbKind = .mongo ∧ .fromManifest m = node := by
  rw [collectChainNodes, List.mem_filterMap]
  constructor
  · rintro ⟨id, -, hnode⟩
    split at hnode
    next m hread =>
      split at hnode
      next hkind =>
        cases hnode
        exact ⟨m, (Catalog.read_toStorage.mp hread).1, hkind, rfl⟩
      next => cases hnode
    next => cases hnode
  · rintro ⟨m, hm, hkind, rfl⟩
    refine ⟨m.id, mem_collectManifestIds.mpr
      ⟨List.mem_map_of_mem hm, st.catalog.named m hm⟩, ?_⟩
    rw [Catalog.read_toStorage.mpr ⟨hm, rfl⟩]
    exact if_pos hkind

/-- In an unmixed store the base of a node Mongo recovery works on is one of
them. -/
theorem collectChainNodes_closed {st : SharedStore} (hst : NeverMixed st)
    {node : ChainNode} (hnode : node ∈ collectChainNodes st.catalog.toStorage)
    (htype : node.backupType = .incremental) :
    ∃ base ∈ collectChainNodes st.catalog.toStorage,
      base.backupType = .full ∧ node.baseId = some base.id := by
  obtain ⟨m, hm, hkind, rfl⟩ := mem_collectChainNodes.mp hnode
  obtain ⟨entry, hentry, rfl⟩ := SharedStore.exists_entry hm
  obtain ⟨earlier, hearlier, hcontinues⟩ := hst.of_mem hentry
  obtain ⟨base, hbase, hfull, hid, hsame, -⟩ := hcontinues htype
  refine ⟨.fromManifest base.manifest, mem_collectChainNodes.mpr
    ⟨base.manifest, SharedStore.manifest_mem (hearlier hbase),
      hsame.symm.trans hkind, rfl⟩, hfull, hid⟩

/-- A Mongo backup between those of a file tree. -/
def apartHistory : List BackupRun :=
  [.fileFull "b1" "10",
    .mongoFull "b2" "20" .native .replicaSet false
      (some ⟨⟨100, 1⟩, ⟨100, 1⟩⟩),
    .mongoIncremental "b3" "30" (oplogServer ⟨90, 1⟩ ⟨110, 1⟩) .native none,
    .fileIncremental "b4" "40" true 1]

theorem apartHistory_keepsApart :
    StepsMeet backupRun KeepsApart .empty apartHistory := by
  refine ⟨trivial, fun first hfirst => ⟨trivial, fun second hsecond =>
    ⟨?_, fun _ _ => ⟨trivial, fun _ _ => trivial⟩⟩⟩⟩
  have hentries : second.entries =
      [.ofOplogRange (fileFullManifest "b1" "10" false),
        .ofOplogRange (mongoFullManifest "b2" "20" .native .replicaSet false
          (some ⟨⟨100, 1⟩, ⟨100, 1⟩⟩) false)] := by
    rw [(SharedStore.record_eq_some hsecond).1,
      (SharedStore.record_eq_some hfirst).1]
    rfl
  have hlisted := second.listed
  rw [hentries] at hlisted
  intro other hother hkind selection _
  refine Or.inl ⟨mongoFullManifest "b2" "20" .native .replicaSet false
    (some ⟨⟨100, 1⟩, ⟨100, 1⟩⟩) false, by simp [hlisted, ChainEntry.ofOplogRange],
    rfl, rfl, ?_⟩
  simp only [hlisted, List.map_cons, List.map_nil, List.mem_cons,
    List.not_mem_nil, or_false] at hother
  rcases hother with rfl | rfl
  · decide
  · exact absurd rfl hkind

theorem sharedStore_neverMixed_apartHistory :
    ∃ last, run backupRun .empty apartHistory = some last ∧ NeverMixed last := by
  have hruns : (run backupRun .empty apartHistory).isSome = true := by decide
  obtain ⟨last, hlast⟩ := Option.isSome_iff_exists.mp hruns
  exact ⟨last, hlast, sharedStore_neverMixed apartHistory_keepsApart hlast⟩

/-- The end of a file backup, generation 2, is taken for a point of the oplog
that has not been overwritten yet. -/
def mixedHistory : List BackupRun :=
  [.fileFull "b1" "10",
    .fileIncremental "b2" "20" true 1,
    .mongoIncremental "b3" "30" (oplogServer ⟨1, 1⟩ ⟨5, 1⟩) .native none]

theorem run_mixedHistory :
    (run backupRun .empty mixedHistory).map SharedStore.entries =
      some [.ofOplogRange (fileFullManifest "b1" "10" false),
        .ofOplogRange (fileIncrementalManifest "b2" "20" ⟨"b1", "b1", 1⟩ 1),
        .ofOplogRange (mongoIncrementalManifest "b3" "30" "b1"
          ⟨⟨2, 0⟩, ⟨5, 1⟩⟩ 1)] := by
  decide

theorem sharedStore_mixesEngines :
    ∃ last, run backupRun .empty mixedHistory = some last ∧
      ¬ NeverMixed last := by
  obtain ⟨last, hlast, hentries⟩ := Option.map_eq_some_iff.mp run_mixedHistory
  refine ⟨last, hlast, ?_⟩
  intro hunmixed
  rw [NeverMixed, hentries] at hunmixed
  obtain ⟨base, hbase, hfull, -, hkind, -⟩ := hunmixed
    [.ofOplogRange (fileFullManifest "b1" "10" false),
      .ofOplogRange (fileIncrementalManifest "b2" "20" ⟨"b1", "b1", 1⟩ 1)]
    (.ofOplogRange (mongoIncrementalManifest "b3" "30" "b1"
      ⟨⟨2, 0⟩, ⟨5, 1⟩⟩ 1)) [] rfl rfl
  simp only [List.mem_cons, List.not_mem_nil, or_false] at hbase
  rcases hbase with rfl | rfl
  · exact absurd hkind (by decide)
  · exact absurd hkind (by decide)

/-- A full run recreates the slot and fails: the next increment of the older
base starts where no backup ends. -/
def orphanedHistory : List BackupRun :=
  [.pgFull "b1" "10" false true 5, .pgFullFails 9,
    .pgIncremental "b2" "20" 12 1 true]

theorem run_orphanedHistory :
    (run backupRun .empty orphanedHistory).map SharedStore.entries =
      some [⟨pgFullManifest "b1" "10" false, none, some (.wal 5)⟩,
        ⟨pgIncrementalManifest "b2" "20" "b1" 1, some (.wal 9),
          some (.wal 12)⟩] := by
  decide

theorem pgIncrement_startsElsewhere :
    ∃ last, run backupRun .empty orphanedHistory = some last ∧
      ¬ NeverMixed last := by
  obtain ⟨last, hlast, hentries⟩ :=
    Option.map_eq_some_iff.mp run_orphanedHistory
  refine ⟨last, hlast, ?_⟩
  intro hunmixed
  rw [NeverMixed, hentries] at hunmixed
  obtain ⟨base, -, -, -, -, tip, htip, -, position, hstart, hfinish⟩ :=
    hunmixed [⟨pgFullManifest "b1" "10" false, none, some (.wal 5)⟩]
      ⟨pgIncrementalManifest "b2" "20" "b1" 1, some (.wal 9),
        some (.wal 12)⟩ [] rfl rfl
  rw [List.mem_singleton.mp htip] at hfinish
  cases hstart
  cases hfinish

end XBackup
