/-
A PostgreSQL archive as it is written: what stands before the tables, the tables
with their copied rows, and what stands behind them.
-/
import XBackup.Engine.Postgres.Restore

namespace XBackup

open Framing

namespace Postgres

structure SequenceDump where
  name : String
  schema : String
  createSql : String
  lastValue : Int64
  isCalled : Bool

structure TableDump where
  ns : String
  quoted : String
  schema : String
  createSql : String
  constraints : List String
  indexes : List String
  copyCols : List String
  identityCols : List String
  chunks : List (List UInt8)

structure Dump where
  createdAt : String
  pgVersion : String
  pre : List String
  sequences : List SequenceDump
  tables : List TableDump
  post : List String

def str (text : String) : Bson :=
  .scalar (.string text)

def Dump.header (d : Dump) : Document :=
  [("format", str PG_FORMAT_ID), ("created_at", str d.createdAt),
    ("pg_version", str d.pgVersion)]

def sqlDoc (sql : String) : Document :=
  [("sql", str sql)]

def SequenceDump.info (s : SequenceDump) : Document :=
  [("name", str s.name), ("schema", str s.schema),
    ("create_sql", str s.createSql),
    ("last_value", .scalar (.int64 s.lastValue)),
    ("is_called", .scalar (.boolean s.isCalled))]

def TableDump.info (t : TableDump) : Document :=
  [("ns", str t.ns), ("quoted", str t.quoted), ("schema", str t.schema),
    ("create_sql", str t.createSql),
    ("constraints", .array (t.constraints.map str)),
    ("indexes", .array (t.indexes.map str)),
    ("copy_cols", .array (t.copyCols.map str)),
    ("identity_cols", .array (t.identityCols.map str))]

/-- A table with its data; a chunk that is empty is left out. -/
def TableDump.frames (t : TableDump) : List ArchiveFrame :=
  .table t.info ::
    ((t.chunks.filter (· ≠ [])).map ArchiveFrame.data ++ [.tableEnd])

def Dump.frames (d : Dump) : List ArchiveFrame :=
  .header d.header ::
    (d.pre.map (fun sql => .pre (sqlDoc sql)) ++
      d.sequences.map (fun s => .sequence s.info) ++
      d.tables.flatMap TableDump.frames ++
      d.post.map fun sql => .post (sqlDoc sql))

def ArchiveFrame.item : ArchiveFrame → Item
  | .header doc => ⟨TAG_HEADER, .document doc⟩
  | .pre doc => ⟨TAG_PRE, .document doc⟩
  | .post doc => ⟨TAG_POST, .document doc⟩
  | .sequence doc => ⟨TAG_SEQUENCE, .document doc⟩
  | .table doc => ⟨TAG_TABLE, .document doc⟩
  | .data bytes => ⟨TAG_DATA, .data bytes⟩
  | .tableEnd => ⟨TAG_TABLE_END, .bare⟩
  | .end_ => ⟨TAG_END, .bare⟩

def writeDump (lib : BsonLib) (d : Dump) : Except XBackupError (List UInt8) :=
  match writeItems lib TAG_END (d.frames.map ArchiveFrame.item) with
  | .ok bytes => .ok bytes
  | .error e => .error (.failure
      ("failed to serialize a PostgreSQL archive frame: " ++ e))

theorem ofItem_item {frame : ArchiveFrame} (hframe : frame ≠ .end_) :
    ArchiveFrame.ofItem frame.item = .ok frame := by
  cases frame with
  | end_ => exact absurd rfl hframe
  | _ => rfl

section Archive

variable {lib : BsonLib} {d : Dump} {bytes part : List UInt8}

/-- The documents of the archive fit, and no chunk takes 4 GiB. -/
structure Dump.Fits (lib : BsonLib) (d : Dump) : Prop where
  header : ∃ bytes, lib.Fits d.header bytes
  pre : ∀ sql ∈ d.pre, ∃ bytes, lib.Fits (sqlDoc sql) bytes
  sequences : ∀ s ∈ d.sequences, ∃ bytes, lib.Fits s.info bytes
  tables : ∀ t ∈ d.tables, (∃ bytes, lib.Fits t.info bytes) ∧
    ∀ chunk ∈ t.chunks, chunk.length < 2 ^ 32
  post : ∀ sql ∈ d.post, ∃ bytes, lib.Fits (sqlDoc sql) bytes

/-- A frame of the archive can be stored. -/
def ArchiveFrame.Stored (lib : BsonLib) (frame : ArchiveFrame) : Prop :=
  frame ≠ .end_ ∧ frame.item.payload.Fits lib

theorem stored_of_fits (hfits : d.Fits lib) :
    ∀ frame ∈ d.frames, frame.Stored lib := by
  rw [Dump.frames, List.forall_mem_cons]
  refine ⟨⟨nofun, hfits.header⟩, ?_⟩
  intro frame hframe
  rw [List.mem_append, List.mem_append, List.mem_append] at hframe
  rcases hframe with ((hframe | hframe) | hframe) | hframe
  · obtain ⟨sql, hsql, rfl⟩ := List.mem_map.mp hframe
    exact ⟨nofun, hfits.pre sql hsql⟩
  · obtain ⟨s, hs, rfl⟩ := List.mem_map.mp hframe
    exact ⟨nofun, hfits.sequences s hs⟩
  · obtain ⟨t, ht, hframe⟩ := List.mem_flatMap.mp hframe
    obtain ⟨hinfo, hchunks⟩ := hfits.tables t ht
    rw [TableDump.frames, List.mem_cons, List.mem_append,
      List.mem_singleton] at hframe
    rcases hframe with rfl | hframe | rfl
    · exact ⟨nofun, hinfo⟩
    · obtain ⟨chunk, hchunk, rfl⟩ := List.mem_map.mp hframe
      obtain ⟨hmem, hsome⟩ := List.mem_filter.mp hchunk
      exact ⟨nofun, of_decide_eq_true hsome, hchunks chunk hmem⟩
    · exact ⟨nofun, trivial⟩
  · obtain ⟨sql, hsql, rfl⟩ := List.mem_map.mp hframe
    exact ⟨nofun, hfits.post sql hsql⟩

theorem item_tag {frame : ArchiveFrame} (hframe : frame ≠ .end_) :
    frame.item.tag ≠ archiveFraming.endTag ∧
      archiveFraming.shape frame.item.tag = some frame.item.payload.shape := by
  cases frame with
  | header doc => exact ⟨show TAG_HEADER ≠ TAG_END by decide, rfl⟩
  | pre doc => exact ⟨show TAG_PRE ≠ TAG_END by decide, rfl⟩
  | post doc => exact ⟨show TAG_POST ≠ TAG_END by decide, rfl⟩
  | sequence doc => exact ⟨show TAG_SEQUENCE ≠ TAG_END by decide, rfl⟩
  | table doc => exact ⟨show TAG_TABLE ≠ TAG_END by decide, rfl⟩
  | data bytes => exact ⟨show TAG_DATA ≠ TAG_END by decide, rfl⟩
  | tableEnd => exact ⟨show TAG_TABLE_END ≠ TAG_END by decide, rfl⟩
  | end_ => exact absurd rfl hframe

theorem writeDump_eq
    (hitems : writeItems lib TAG_END (d.frames.map ArchiveFrame.item) =
      .ok bytes) : writeDump lib d = .ok bytes := by
  rw [writeDump, hitems]

theorem writeItems_of_dump (hwrite : writeDump lib d = .ok bytes) :
    writeItems lib TAG_END (d.frames.map ArchiveFrame.item) = .ok bytes := by
  rw [writeDump] at hwrite
  cases hitems : writeItems lib TAG_END (d.frames.map ArchiveFrame.item) with
  | error e => rw [hitems] at hwrite; cases hwrite
  | ok written => rw [hitems] at hwrite; cases hwrite; rfl

theorem storable_dump (hfits : d.Fits lib) :
    Storable lib archiveFraming (d.frames.map ArchiveFrame.item) := by
  apply storable_of_fits
  rw [List.forall_mem_map]
  intro frame hframe
  obtain ⟨hend, hpayload⟩ := stored_of_fits hfits frame hframe
  obtain ⟨htag, hshape⟩ := item_tag hend
  exact ⟨htag, hshape, hpayload⟩

/-- A cut archive is cut within a frame, or just the frames before the cut are
read of it. -/
theorem readArchive_cut (hfits : d.Fits lib)
    (hwrite : writeDump lib d = .ok bytes) (hbefore : part <+: bytes)
    (hcut : part ≠ bytes) :
    (readArchive lib part).2 ≠ none ∨
      ∃ n, writeItems lib TAG_END
          ((d.frames.take n).map ArchiveFrame.item) =
            .ok (part ++ [TAG_END]) ∧
        readArchive lib part = (d.frames.take n, none) := by
  have hdecode : ∀ frame ∈ d.frames,
      ArchiveFrame.ofItem frame.item = .ok frame :=
    fun frame hframe => ofItem_item (stored_of_fits hfits frame hframe).1
  exact readDecoded_cut (storable_dump hfits) hdecode
    (writeItems_of_dump hwrite) hbefore hcut

end Archive

end Postgres

end XBackup
