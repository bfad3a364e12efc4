/-
A MySQL archive as it is written: the tables with their rows as tuples, and the
views, triggers and routines behind them.
-/
import XBackup.Engine.Mysql.Restore

namespace XBackup

open Bytes Framing

namespace Mysql

structure TableDump where
  ns : String
  quoted : String
  createSql : String
  insertCols : List String
  rows : List String

structure HeaderFrame where
  createdAt : String
  mysqlVersion : String
  databaseCharset : String
  databaseCollation : String
  binlogFile : String
  binlogPos : Int64
  gtidExecuted : String

structure Dump where
  header : HeaderFrame
  tables : List TableDump
  post : List PostObj

def str (text : String) : Bson :=
  .scalar (.string text)

def optStr : Option String → Bson
  | some text => str text
  | none => .scalar .null

def HeaderFrame.info (h : HeaderFrame) : Document :=
  [("format", str MYSQL_FORMAT_ID), ("created_at", str h.createdAt),
    ("mysql_version", str h.mysqlVersion),
    ("database_charset", str h.databaseCharset),
    ("database_collation", str h.databaseCollation),
    ("binlog_file", str h.binlogFile),
    ("binlog_pos", .scalar (.int64 h.binlogPos)),
    ("gtid_executed", str h.gtidExecuted)]

def PostObj.info (obj : PostObj) : Document :=
  [("kind", str obj.kind), ("name", str obj.name), ("sql", str obj.sql),
    ("sql_mode", optStr obj.sqlMode),
    ("character_set_client", optStr obj.characterSetClient),
    ("collation_connection", optStr obj.collationConnection),
    ("time_zone", optStr obj.timeZone)]

def TableDump.info (t : TableDump) : Document :=
  [("ns", str t.ns), ("quoted", str t.quoted),
    ("create_sql", str t.createSql),
    ("insert_cols", .array (t.insertCols.map str))]

/-- A table with its rows; a tuple that is empty is left out. -/
def TableDump.frames (t : TableDump) : List ArchiveFrame :=
  .table t.info ::
    (((t.rows.map utf8).filter (· ≠ [])).map ArchiveFrame.data ++ [.tableEnd])

def Dump.frames (d : Dump) : List ArchiveFrame :=
  .header d.header.info ::
    (d.tables.flatMap TableDump.frames ++
      d.post.map fun obj => .post obj.info)

def ArchiveFrame.item : ArchiveFrame → Item
  | .header doc => ⟨TAG_HEADER, .document doc⟩
  | .pre doc => ⟨TAG_PRE, .document doc⟩
  | .post doc => ⟨TAG_POST, .document doc⟩
  | .table doc => ⟨TAG_TABLE, .document doc⟩
  | .data bytes => ⟨TAG_DATA, .data bytes⟩
  | .tableEnd => ⟨TAG_TABLE_END, .bare⟩
  | .end_ => ⟨TAG_END, .bare⟩

def MAX_FRAME_BYTES : Nat := 256 * 1024 * 1024

def rowTooLong (bytes : Nat) : String :=
  "the row tuple exceeds the frame limit (" ++
    toString (MAX_FRAME_BYTES / (1024 * 1024)) ++ " MiB): " ++
    toString bytes ++ " bytes — huge BLOB rows are not supported yet"

/-- A row that could not be read back is refused. -/
def writeDump (lib : BsonLib) (d : Dump) : Except XBackupError (List UInt8) :=
  let tuples := d.tables.flatMap fun t => t.rows.map utf8
  match tuples.find? fun tuple => MAX_FRAME_BYTES < tuple.length with
  | some tuple => .error (.failure (rowTooLong tuple.length))
  | none =>
      match writeItems lib TAG_END (d.frames.map ArchiveFrame.item) with
      | .ok bytes => .ok bytes
      | .error e => .error (.failure
          ("failed to serialize a MySQL archive frame: " ++ e))

theorem ofItem_item {frame : ArchiveFrame} (hframe : frame ≠ .end_) :
    ArchiveFrame.ofItem frame.item = .ok frame := by
  cases frame with
  | end_ => exact absurd rfl hframe
  | _ => rfl

theorem item_tag {frame : ArchiveFrame} (hframe : frame ≠ .end_) :
    frame.item.tag ≠ archiveFraming.endTag ∧
      archiveFraming.shape frame.item.tag = some frame.item.payload.shape := by
  cases frame with
  | header doc => exact ⟨show TAG_HEADER ≠ TAG_END by decide, rfl⟩
  | pre doc => exact ⟨show TAG_PRE ≠ TAG_END by decide, rfl⟩
  | post doc => exact ⟨show TAG_POST ≠ TAG_END by decide, rfl⟩
  | table doc => exact ⟨show TAG_TABLE ≠ TAG_END by decide, rfl⟩
  | data bytes => exact ⟨show TAG_DATA ≠ TAG_END by decide, rfl⟩
  | tableEnd => exact ⟨show TAG_TABLE_END ≠ TAG_END by decide, rfl⟩
  | end_ => exact absurd rfl hframe

section Archive

variable {lib : BsonLib} {d : Dump} {bytes part : List UInt8}

/-- The documents of the archive fit. -/
structure Dump.Fits (lib : BsonLib) (d : Dump) : Prop where
  header : ∃ bytes, lib.Fits d.header.info bytes
  tables : ∀ t ∈ d.tables, ∃ bytes, lib.Fits t.info bytes
  post : ∀ obj ∈ d.post, ∃ bytes, lib.Fits obj.info bytes

/-- A frame of the archive can be stored. -/
def ArchiveFrame.Stored (lib : BsonLib) (frame : ArchiveFrame) : Prop :=
  frame ≠ .end_ ∧ frame.item.payload.Fits lib

theorem stored_of_fits (hfits : d.Fits lib)
    (hrows : ∀ t ∈ d.tables, ∀ row ∈ t.rows,
      (utf8 row).length ≤ MAX_FRAME_BYTES) :
    ∀ frame ∈ d.frames, frame.Stored lib := by
  rw [Dump.frames, List.forall_mem_cons]
  refine ⟨⟨nofun, hfits.header⟩, ?_⟩
  intro frame hframe
  rcases List.mem_append.mp hframe with hframe | hframe
  · obtain ⟨t, ht, hframe⟩ := List.mem_flatMap.mp hframe
    rw [TableDump.frames, List.mem_cons, List.mem_append,
      List.mem_singleton] at hframe
    rcases hframe with rfl | hframe | rfl
    · exact ⟨nofun, hfits.tables t ht⟩
    · obtain ⟨tuple, htuple, rfl⟩ := List.mem_map.mp hframe
      obtain ⟨hmem, hsome⟩ := List.mem_filter.mp htuple
      obtain ⟨row, hrow, rfl⟩ := List.mem_map.mp hmem
      have hlt : MAX_FRAME_BYTES < 2 ^ 32 := by decide
      exact ⟨nofun, of_decide_eq_true hsome, (hrows t ht row hrow).trans_lt hlt⟩
    · exact ⟨nofun, trivial⟩
  · obtain ⟨obj, hobj, rfl⟩ := List.mem_map.mp hframe
    exact ⟨nofun, hfits.post obj hobj⟩

theorem writeDump_eq
    (hrows : ∀ t ∈ d.tables, ∀ row ∈ t.rows,
      (utf8 row).length ≤ MAX_FRAME_BYTES)
    (hitems : writeItems lib TAG_END (d.frames.map ArchiveFrame.item) =
      .ok bytes) : writeDump lib d = .ok bytes := by
  have hnone : (d.tables.flatMap fun t => t.rows.map utf8).find?
      (fun tuple => MAX_FRAME_BYTES < tuple.length) = none := by
    rw [List.find?_eq_none]
    intro tuple htuple
    obtain ⟨t, ht, htuple⟩ := List.mem_flatMap.mp htuple
    obtain ⟨row, hrow, rfl⟩ := List.mem_map.mp htuple
    simpa using hrows t ht row hrow
  simp only [writeDump, hnone, hitems]

/-- What is written is the items of a dump of which no row is over the
bound. -/
theorem writeItems_of_dump (hwrite : writeDump lib d = .ok bytes) :
    writeItems lib TAG_END (d.frames.map ArchiveFrame.item) = .ok bytes ∧
      ∀ t ∈ d.tables, ∀ row ∈ t.rows,
        (utf8 row).length ≤ MAX_FRAME_BYTES := by
  rw [writeDump] at hwrite
  split at hwrite
  next => cases hwrite
  next hnone =>
    have hrows : ∀ t ∈ d.tables, ∀ row ∈ t.rows,
        (utf8 row).length ≤ MAX_FRAME_BYTES := by
      intro t ht row hrow
      have hmem : utf8 row ∈ d.tables.flatMap fun t => t.rows.map utf8 :=
        List.mem_flatMap.mpr ⟨t, ht, List.mem_map_of_mem hrow⟩
      simpa using List.find?_eq_none.mp hnone _ hmem
    split at hwrite
    next hitems =>
      cases hwrite
      exact ⟨hitems, hrows⟩
    next => cases hwrite

theorem storable_dump (hfits : d.Fits lib)
    (hrows : ∀ t ∈ d.tables, ∀ row ∈ t.rows,
      (utf8 row).length ≤ MAX_FRAME_BYTES) :
    Storable lib archiveFraming (d.frames.map ArchiveFrame.item) := by
  apply storable_of_fits
  rw [List.forall_mem_map]
  intro frame hframe
  obtain ⟨hend, hpayload⟩ := stored_of_fits hfits hrows frame hframe
  obtain ⟨htag, hshape⟩ := item_tag hend
  exact ⟨htag, hshape, hpayload⟩

/-- A cut archive is cut within a frame, or just the frames before the cut are
read of it. -/
theorem readArchive_cut (hfits : d.Fits lib)
    (hwrite : writeDump lib d = .ok bytes) (hbefore : part <+: bytes)
    (hcut : part ≠ bytes) :
    (readArchive lib part).2 ≠ none ∨
      ∃ n, writeItems lib TAG_END
          ((d.frames.take n).map ArchiveFrame.item) =
            .ok (part ++ [TAG_END]) ∧
        readArchive lib part = (d.frames.take n, none) := by
  obtain ⟨hwritten, hrows⟩ := writeItems_of_dump hwrite
  have hdecode : ∀ frame ∈ d.frames,
      ArchiveFrame.ofItem frame.item = .ok frame :=
    fun frame hframe => ofItem_item (stored_of_fits hfits hrows frame hframe).1
  exact readDecoded_cut (storable_dump hfits hrows) hdecode hwritten hbefore
    hcut

end Archive

end Mysql

end XBackup
