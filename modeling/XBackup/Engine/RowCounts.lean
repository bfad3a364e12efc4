/-
The rows of the tables of a backup: as its dump records them, and as they are
counted in its archive when they were not recorded.
-/
import XBackup.Engine.Mysql.Copy
import XBackup.Engine.WholeArchives
import XBackup.Foundation.Tally

namespace XBackup

open Framing SortedMap Tally

/-- What the readers that count the rows of an archive differ in. -/
structure CountReader (F : Type) where
  name : String
  format : String
  outside : String
  header : F → Option Document
  mark : F → Mark String
  /-- What is read at the end. -/
  ending : F

/-- The frames of an archive up to its end, counted table by table. -/
def CountReader.countFrames {F : Type} (reader : CountReader F)
    (shown : F → String) (read : List F × Option XBackupError) :
    Except XBackupError (Map String Nat) :=
  let headerMissing := fun found : F =>
    XBackupError.failure (reader.name ++
      " archive header missing (first frame: " ++ shown found ++ ")")
  match read with
  | ([], some err) => .error err
  | ([], none) => .error (headerMissing reader.ending)
  | (first :: rest, err) =>
      match reader.header first with
      | none => .error (headerMissing first)
      | some doc =>
          let fmt := (doc.getStr "format").getD ""
          if fmt ≠ reader.format then
            .error (.failure (reader.name ++ " archive format mismatch: '" ++
              fmt ++ "' (expected '" ++ reader.format ++ "')"))
          else
            tally (.failure reader.outside) err .empty none
              (rest.map reader.mark)

namespace Native

def Frame.mark : Frame → Mark String
  | .collection info => .opens ((info.getStr "ns").getD "")
  | .document _ => .items 1
  | .end_ => .stops
  | .header _ => .other

def Frame.headerDoc : Frame → Option Document
  | .header doc => some doc
  | _ => none

def countReader : CountReader Frame where
  name := "native"
  format := NATIVE_FORMAT_ID
  outside := "native archive document frame appeared before any collection frame"
  header := Frame.headerDoc
  mark := Frame.mark
  ending := .end_

def countArchiveDocs (lib : BsonLib) (shown : Frame → String)
    (input : List UInt8) : Except XBackupError (Map String Nat) :=
  countReader.countFrames shown (readFrames lib input)

/-- What the dump records of each collection. -/
def CollectionDump.part (c : CollectionDump) : String × List Nat :=
  (c.ns, c.docs.map fun _ => 1)

def recordedDocs (collections : List CollectionDump) : Map String Nat :=
  recorded (collections.map CollectionDump.part)

end Native

namespace Postgres

/-- The lines of a chunk of copied rows. -/
def copyTextRows (chunk : List UInt8) : Nat :=
  chunk.count 0x0A

def ArchiveFrame.mark : ArchiveFrame → Mark String
  | .table doc => .opens ((doc.getStr "ns").getD "")
  | .data chunk => .items (copyTextRows chunk)
  | .tableEnd => .closes
  | .end_ => .stops
  | .header _ | .pre _ | .post _ | .sequence _ => .other

def ArchiveFrame.headerDoc : ArchiveFrame → Option Document
  | .header doc => some doc
  | _ => none

def countReader : CountReader ArchiveFrame where
  name := "PostgreSQL"
  format := PG_FORMAT_ID
  outside := "PostgreSQL archive data frame appeared before any table frame"
  header := ArchiveFrame.headerDoc
  mark := ArchiveFrame.mark
  ending := .end_

def countArchiveRows (lib : BsonLib) (shown : ArchiveFrame → String)
    (input : List UInt8) : Except XBackupError (Map String Nat) :=
  countReader.countFrames shown (readArchive lib input)

def TableDump.part (t : TableDump) : String × List Nat :=
  (t.ns, t.chunks.map copyTextRows)

/-- What the dump records: nothing of a partitioned table. -/
def recordedRows (tables : List Postgres.Table) : Map String Nat :=
  recorded ((tables.filter fun t => ¬ t.partitioned).map
    fun t => (dumped t).part)

end Postgres

namespace Mysql

/-- The name of a table without that of its database. -/
def tableName (ns : String) : String :=
  match splitOnce '.' ns with
  | some (_, table) => table
  | none => ns

def ArchiveFrame.mark : ArchiveFrame → Mark String
  | .table doc => .opens (tableName ((doc.getStr "ns").getD ""))
  | .data _ => .items 1
  | .tableEnd => .closes
  | .end_ => .stops
  | .header _ | .pre _ | .post _ => .other

def ArchiveFrame.headerDoc : ArchiveFrame → Option Document
  | .header doc => some doc
  | _ => none

def countReader : CountReader ArchiveFrame where
  name := "MySQL"
  format := MYSQL_FORMAT_ID
  outside := "MySQL archive row frame appeared before any table frame"
  header := ArchiveFrame.headerDoc
  mark := ArchiveFrame.mark
  ending := .end_

def countArchiveRows (lib : BsonLib) (shown : ArchiveFrame → String)
    (input : List UInt8) : Except XBackupError (Map String Nat) :=
  countReader.countFrames shown (readArchive lib input)

/-- What the dump records, under the name of the table alone. -/
def recordedRows (tables : List Mysql.Table) : Map String Nat :=
  recorded (tables.map fun t => (t.name, t.carried.map fun _ => 1))

end Mysql

section Counting

variable {lib : BsonLib} {f : Format} {w : Wording} {F : Type}
  {decode : Item → Except XBackupError F} {item : F → Item}
  {values : List F} {bytes : List UInt8} {reader : CountReader F}
  {shown : F → String} {counts : Map String Nat}

/-- A loop that ends without an error has met no payload over the bound. -/
theorem bounded_of_readDecoded (hitems : Storable lib f (values.map item))
    (hwrite : writeItems lib f.endTag (values.map item) = .ok bytes)
    (hread : (readDecoded lib f w decode bytes).2 = none) :
    ∀ value ∈ values, (item value).payload.Bounded lib f.maxBytes := by
  choose! frameOf hframeOf using hitems
  have hstores := stores_map hframeOf
  have hbytes : bytes = encodeAll f ((values.map item).map frameOf) ++
      [f.endTag] :=
    Except.ok.inj (hwrite.symm.trans (writeItems_eq hstores))
  have hends : Ends f [f.endTag] := Or.inr ⟨[], rfl⟩
  obtain ⟨-, hnone⟩ := @readItems_encodeAll _ _ w _ _ _ hends hstores
  rw [← hbytes] at hnone
  have hbound := hnone (by_contra fun hsome => decodeAll_some hsome hread)
  intro value hvalue
  have hentry : item value ∈ values.map item := List.mem_map_of_mem hvalue
  exact (bounded_of_stores (hframeOf _ hentry)).mpr
    (hbound _ (List.mem_map_of_mem hentry))

/-- An archive that cannot be read to its end is not counted. -/
theorem ended_of_countFrames {read : List F × Option XBackupError}
    (hmarks : ∀ frame ∈ read.1, reader.mark frame ≠ .stops)
    (hcount : reader.countFrames shown read = .ok counts) : read.2 = none := by
  obtain ⟨frames, err⟩ := read
  cases err with
  | none => rfl
  | some err =>
      cases frames with
      | nil => cases hcount
      | cons first rest =>
          simp only [CountReader.countFrames] at hcount
          have hrest : .stops ∉ rest.map reader.mark := by
            intro hmem
            obtain ⟨frame, hframe, hmark⟩ := List.mem_map.mp hmem
            exact hmarks frame (List.mem_cons_of_mem first hframe) hmark
          obtain ⟨failed, hfailed⟩ := @tally_failed _ _ _
            (XBackupError.failure reader.outside) .empty none _ err hrest
          split at hcount
          · cases hcount
          · split at hcount
            · cases hcount
            · rw [hfailed] at hcount
              cases hcount

/-- Behind the right header the marks are counted. -/
theorem countFrames_header {first : F} {doc : Document} {rest : List F}
    (hheader : reader.header first = some doc)
    (hformat : (doc.getStr "format").getD "" = reader.format) :
    reader.countFrames shown (first :: rest, none) =
      tally (.failure reader.outside) none .empty none
        (rest.map reader.mark) := by
  simp only [CountReader.countFrames, hheader]
  rw [if_neg (not_not.mpr hformat)]

end Counting

namespace Native

section Whole

variable {lib : BsonLib} {createdAt : String}
  {collections : List CollectionDump} {shown : Frame → String}
  {bytes : List UInt8} {counts : Map String Nat}

theorem part_sum (c : CollectionDump) : c.part.2.sum = c.docs.length := by
  rw [CollectionDump.part, List.map_const', List.sum_replicate, smul_eq_mul,
    mul_one]

theorem marks_frames (collections : List CollectionDump) :
    (collections.flatMap CollectionDump.frames).map Frame.mark =
      (collections.map CollectionDump.part).flatMap
        (marks (if false then [.closes] else [])) := by
  rw [List.map_flatMap, List.flatMap_map]
  refine congrArg (fun f => collections.flatMap f) (funext fun c => ?_)
  simp [CollectionDump.frames, CollectionDump.part, CollectionDump.info, marks,
    Frame.mark, Document.getStr, Document.get, Function.comp_def]

theorem countFrames_archive :
    countReader.countFrames shown (archiveFrames createdAt collections, none) =
      .ok (tallied (collections.map CollectionDump.part)) := by
  have hcount := tally_sections (XBackupError.failure countReader.outside) false
    (collections.map CollectionDump.part) (List.forall_mem_nil _)
    (List.forall_mem_nil _)
  rw [List.nil_append, List.append_nil] at hcount
  rw [archiveFrames, countFrames_header rfl rfl, ← hcount, ← marks_frames]
  rfl

theorem mark_readFrames : ∀ frame ∈ (readFrames lib bytes).1,
    countReader.mark frame ≠ .stops := by
  apply decodeAll_forall
  rintro ⟨tag, payload⟩ frame hframe
  cases payload with
  | bare => cases hframe
  | data bytes => cases hframe
  | document doc =>
      rw [Frame.ofItem] at hframe
      dsimp only at hframe
      intro hmark
      split at hframe
      · cases hframe
        cases hmark
      · split at hframe
        · cases hframe
          cases hmark
        · cases hframe
          cases hmark

/-- The archive is counted just if it can be read. -/
theorem countArchiveDocs_iff (hfits : Fits lib createdAt collections)
    (hwrite : writeArchive lib createdAt collections = .ok bytes) :
    countArchiveDocs lib shown bytes = .ok counts ↔
      (∀ frame ∈ archiveFrames createdAt collections, frame.Bounded lib) ∧
        tallied (collections.map CollectionDump.part) = counts := by
  constructor
  · intro hcount
    have hbounded := bounded_of_readDecoded (storable_archive hfits)
      (writeItems_of_archive hwrite)
      (ended_of_countFrames mark_readFrames hcount)
    rw [countArchiveDocs, (readFrames_iff hfits hwrite).mpr hbounded,
      countFrames_archive] at hcount
    exact ⟨hbounded, Except.ok.inj hcount⟩
  · rintro ⟨hbounded, rfl⟩
    rw [countArchiveDocs, (readFrames_iff hfits hwrite).mpr hbounded,
      countFrames_archive]

end Whole

end Native

namespace Postgres

section Whole

variable {lib : BsonLib} {d : Dump} {shown : ArchiveFrame → String}
  {bytes : List UInt8} {counts : Map String Nat}

theorem copyTextRows_flatten (chunks : List (List UInt8)) :
    (chunks.map copyTextRows).sum = copyTextRows chunks.flatten := by
  rw [copyTextRows, List.count_flatten]
  rfl

/-- A chunk that is empty is left out, and has no row. -/
theorem sum_filter_chunks (chunks : List (List UInt8)) :
    ((chunks.filter (· ≠ [])).map copyTextRows).sum =
      (chunks.map copyTextRows).sum := by
  induction chunks with
  | nil => rfl
  | cons chunk rest ih =>
      by_cases hempty : chunk = []
      · rw [List.filter_cons_of_neg (by simp [hempty]), ih, hempty,
          List.map_cons, List.sum_cons]
        exact (Nat.zero_add _).symm
      · rw [List.filter_cons_of_pos (by simp [hempty]), List.map_cons,
          List.map_cons, List.sum_cons, List.sum_cons, ih]

/-- A table as its frames have it. -/
def TableDump.framed (t : TableDump) : String × List Nat :=
  (t.ns, (t.chunks.filter (· ≠ [])).map copyTextRows)

theorem marks_tables (tables : List TableDump) :
    (tables.flatMap TableDump.frames).map ArchiveFrame.mark =
      (tables.map TableDump.framed).flatMap
        (marks (if true then [.closes] else [])) := by
  rw [List.map_flatMap, List.flatMap_map]
  refine congrArg (fun f => tables.flatMap f) (funext fun t => ?_)
  simp [TableDump.frames, TableDump.framed, TableDump.info, marks,
    ArchiveFrame.mark, Document.getStr, Document.get, str, Function.comp_def]

theorem tallied_framed (tables : List TableDump) :
    tallied (tables.map TableDump.framed) =
      tallied (tables.map TableDump.part) := by
  rw [tallied, tallied, List.foldl_map, List.foldl_map]
  refine congrArg (fun f => tables.foldl f _) (funext fun counts =>
    funext fun t => ?_)
  rw [counted, counted, TableDump.framed, TableDump.part, sum_filter_chunks]

theorem countFrames_dump :
    countReader.countFrames shown (d.frames, none) =
      .ok (tallied (d.tables.map TableDump.part)) := by
  have hfront : ∀ mark ∈ (d.pre.map (fun sql => ArchiveFrame.pre (sqlDoc sql)) ++
      d.sequences.map fun s => ArchiveFrame.sequence s.info).map
        ArchiveFrame.mark, mark = .other := by
    simp only [List.map_append, List.forall_mem_append, List.forall_mem_map]
    exact ⟨fun _ _ => rfl, fun _ _ => rfl⟩
  have hrest : ∀ mark ∈ (d.post.map fun sql =>
      ArchiveFrame.post (sqlDoc sql)).map ArchiveFrame.mark,
      mark = .other := by
    simp only [List.forall_mem_map]
    exact fun _ _ => rfl
  rw [← tallied_framed, ← tally_sections
      (XBackupError.failure countReader.outside) true _ hfront hrest,
    ← marks_tables, Dump.frames, countFrames_header rfl rfl]
  simp only [List.map_append, List.append_assoc]
  rfl

theorem mark_readArchive : ∀ frame ∈ (readArchive lib bytes).1,
    countReader.mark frame ≠ .stops := by
  apply decodeAll_forall
  rintro ⟨tag, payload⟩ frame hframe hmark
  cases frame with
  | end_ =>
      cases payload with
      | bare => cases hframe
      | data bytes => cases hframe
      | document doc =>
          simp only [ArchiveFrame.ofItem] at hframe
          split_ifs at hframe <;> cases hframe
  | header doc => cases hmark
  | pre doc => cases hmark
  | post doc => cases hmark
  | sequence doc => cases hmark
  | table doc => cases hmark
  | data chunk => cases hmark
  | tableEnd => cases hmark

/-- The archive is counted just if it can be read. -/
theorem countArchiveRows_iff (hfits : d.Fits lib)
    (hwrite : writeDump lib d = .ok bytes) :
    countArchiveRows lib shown bytes = .ok counts ↔
      (∀ frame ∈ d.frames, frame.Bounded lib) ∧
        tallied (d.tables.map TableDump.part) = counts := by
  constructor
  · intro hcount
    have hbounded := bounded_of_readDecoded (storable_dump hfits)
      (writeItems_of_dump hwrite)
      (ended_of_countFrames mark_readArchive hcount)
    rw [countArchiveRows, (readArchive_iff hfits hwrite).mpr hbounded,
      countFrames_dump] at hcount
    exact ⟨hbounded, Except.ok.inj hcount⟩
  · rintro ⟨hbounded, rfl⟩
    rw [countArchiveRows, (readArchive_iff hfits hwrite).mpr hbounded,
      countFrames_dump]

end Whole

end Postgres

namespace Mysql

section Whole

variable {lib : BsonLib} {source : Source} {tableFilter : Option String}
  {shown : ArchiveFrame → String} {bytes : List UInt8}
  {counts : Map String Nat}

/-- A table as its frames have it. -/
def framed (db : String) (t : Mysql.Table) : String × List Nat :=
  (tableName (db ++ "." ++ t.name), t.carried.map fun _ => 1)

theorem marks_tables (db : String) (tables : List Mysql.Table) :
    ((tables.map (dumped db)).flatMap TableDump.frames).map ArchiveFrame.mark =
      (tables.map (framed db)).flatMap
        (marks (if true then [.closes] else [])) := by
  rw [List.flatMap_map, List.map_flatMap, List.flatMap_map]
  refine congrArg (fun f => tables.flatMap f) (funext fun t => ?_)
  rw [frames_dumped]
  simp [framed, TableDump.info, dumped, marks, ArchiveFrame.mark,
    Document.getStr, Document.get, str, Function.comp_def]

theorem countFrames_dump :
    countReader.countFrames shown ((source.dump tableFilter).frames, none) =
      .ok (tallied ((listTables source.tables tableFilter).map
        (framed source.db))) := by
  have hrest : ∀ mark ∈ ((source.dump tableFilter).post.map fun obj =>
      ArchiveFrame.post obj.info).map ArchiveFrame.mark, mark = .other := by
    simp only [List.forall_mem_map]
    exact fun _ _ => rfl
  have hcount := tally_sections (XBackupError.failure countReader.outside) true
    ((listTables source.tables tableFilter).map (framed source.db))
    (List.forall_mem_nil _) hrest
  rw [List.nil_append, ← marks_tables] at hcount
  rw [← hcount, Dump.frames, countFrames_header rfl rfl, List.map_append]
  rfl

theorem mark_readArchive : ∀ frame ∈ (readArchive lib bytes).1,
    countReader.mark frame ≠ .stops := by
  apply decodeAll_forall
  rintro ⟨tag, payload⟩ frame hframe hmark
  cases frame with
  | end_ =>
      cases payload with
      | bare => cases hframe
      | data bytes => cases hframe
      | document doc =>
          simp only [ArchiveFrame.ofItem] at hframe
          split_ifs at hframe <;> cases hframe
  | header doc => cases hmark
  | pre doc => cases hmark
  | post doc => cases hmark
  | table doc => cases hmark
  | data chunk => cases hmark
  | tableEnd => cases hmark

/-- The archive is counted just if it can be read. -/
theorem countArchiveRows_iff (hfits : (source.dump tableFilter).Fits lib)
    (hwrite : writeDump lib (source.dump tableFilter) = .ok bytes) :
    countArchiveRows lib shown bytes = .ok counts ↔
      (∀ frame ∈ (source.dump tableFilter).frames, frame.Bounded lib) ∧
        tallied ((listTables source.tables tableFilter).map
          (framed source.db)) = counts := by
  obtain ⟨hwritten, hrows⟩ := writeItems_of_dump hwrite
  constructor
  · intro hcount
    have hbounded := bounded_of_readDecoded (storable_dump hfits hrows) hwritten
      (ended_of_countFrames mark_readArchive hcount)
    rw [countArchiveRows, (readArchive_iff hfits hwrite).mpr hbounded,
      countFrames_dump] at hcount
    exact ⟨hbounded, Except.ok.inj hcount⟩
  · rintro ⟨hbounded, rfl⟩
    rw [countArchiveRows, (readArchive_iff hfits hwrite).mpr hbounded,
      countFrames_dump]

theorem span_append_of_notMem {front rest : List Char} (hfront : '.' ∉ front) :
    (front ++ '.' :: rest).span (· ≠ '.') = (front, '.' :: rest) := by
  have hpass : ∀ c ∈ front, decide (c ≠ '.') = true :=
    fun c hc => decide_eq_true fun heq => hfront (heq ▸ hc)
  rw [List.span_eq_takeWhile_dropWhile, List.takeWhile_append_of_pos hpass,
    List.dropWhile_append_of_pos hpass, List.takeWhile_cons_of_neg (by simp),
    List.dropWhile_cons_of_neg (by simp), List.append_nil]

/-- The name of a table is what stands behind the first dot: the rest of the
name of the database comes with it where that has a dot. -/
theorem tableName_qualified {db : String} {front rest : List Char}
    (hfront : '.' ∉ front) (hdb : db.toList ++ ['.'] = front ++ '.' :: rest)
    (name : String) :
    tableName (db ++ "." ++ name) = String.ofList (rest ++ name.toList) := by
  have hchars : (db ++ "." ++ name).toList =
      front ++ '.' :: (rest ++ name.toList) := by
    rw [String.toList_append, String.toList_append,
      show ".".toList = ['.'] from rfl, hdb, List.append_assoc]
    rfl
  rw [tableName, splitOnce, hchars, span_append_of_notMem hfront]

theorem tableName_dotless {db : String} (hdb : '.' ∉ db.toList) (name : String) :
    tableName (db ++ "." ++ name) = name := by
  rw [tableName_qualified hdb rfl, List.nil_append, String.ofList_toList]

theorem tableName_dotted {db : String} (hdb : '.' ∈ db.toList) :
    ∃ rest, rest ≠ [] ∧ ∀ name,
      tableName (db ++ "." ++ name) = String.ofList (rest ++ name.toList) := by
  obtain ⟨front, behind, hsplit, hfront⟩ := List.eq_append_cons_of_mem hdb
  refine ⟨behind ++ ['.'], by simp, tableName_qualified hfront ?_⟩
  rw [hsplit, List.append_assoc]
  rfl

def nameLength (t : Mysql.Table) : Nat :=
  t.name.length

/-- The counts of the archive are those that were recorded just if the name of
the database has no dot, or there is no table. -/
theorem tallied_eq_recordedRows_iff {tables : List Mysql.Table} {db : String}
    (hnames : (tables.map Table.name).Nodup) :
    tallied (tables.map (framed db)) = recordedRows tables ↔
      '.' ∉ db.toList ∨ tables = [] := by
  constructor
  · intro hsame
    by_contra hnot
    rw [not_or, not_not] at hnot
    obtain ⟨hdot, hsome⟩ := hnot
    obtain ⟨rest, hrest, hnamed⟩ := tableName_dotted hdot
    -- the longest name is read as one that is longer still
    obtain ⟨longest, hlongest⟩ := Option.ne_none_iff_exists'.mp
      (mt List.argmax_eq_none.mp hsome : List.argmax nameLength tables ≠ none)
    have hmem := List.argmax_mem hlongest
    have hread : String.ofList (rest ++ longest.name.toList) ∈
        tables.map Table.name := by
      have hrecorded := List.mem_map_of_mem (f := Prod.fst)
        (List.mem_map_of_mem (f := framed db) hmem)
      rw [← isSome_tallied, hsame, recordedRows, isSome_recorded,
        List.map_map] at hrecorded
      rw [← hnamed]
      exact hrecorded
    obtain ⟨t, ht, hname⟩ := List.mem_map.mp hread
    have hle : nameLength t ≤ nameLength longest :=
      List.le_of_mem_argmax ht hlongest
    have hlt : 0 < rest.length := List.length_pos_of_ne_nil hrest
    rw [nameLength, nameLength, hname, String.length_ofList,
      List.length_append, String.length_toList] at hle
    omega
  · rintro (hdotless | rfl)
    · have hparts : tables.map (framed db) =
          tables.map fun t => (t.name, t.carried.map fun _ => 1) :=
        List.map_congr_left fun t _ => by
          rw [framed, tableName_dotless hdotless]
      rw [hparts]
      exact tallied_eq_recorded (by rwa [List.map_map])
    · rfl

end Whole

end Mysql

end XBackup
