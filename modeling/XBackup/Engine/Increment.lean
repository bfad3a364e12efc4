/-
The archives of PostgreSQL and MySQL increments as bytes: how they are written,
and what is read of them.
-/
import XBackup.Engine.Encoding
import XBackup.Engine.Mysql.Apply
import XBackup.Engine.Postgres.Apply

namespace XBackup

open Framing

def TAG_CHANGE : UInt8 := 0x43

/-- The two engines frame their changes alike, but for the bound of the reader
on a document. -/
def incrFraming (maxBytes : Nat) : Format where
  shape tag :=
    if tag = TAG_HEADER ∨ tag = TAG_CHANGE then some .document else none
  endTag := TAG_END
  maxBytes := maxBytes

def incrWording : Wording where
  fault
    | .corruptTag tag => "corrupt incremental frame tag: 0x" ++ hexByte tag
    | .noLength _ => "failed to read the incremental length: " ++ EARLY_EOF
    | .badLength _ length =>
        "invalid incremental frame length: " ++ toString length
    | .noBody _ => "failed to read the incremental body: " ++ EARLY_EOF
  parse e := "failed to parse the incremental frame: " ++ e

def incrHeader (formatId createdAt : String) : Document :=
  [("format", .scalar (.string formatId)),
    ("created_at", .scalar (.string createdAt))]

/-- The items of an increment. -/
def incrItems (header : Document) (changes : List Document) : List Item :=
  ⟨TAG_HEADER, .document header⟩ ::
    changes.map fun doc => ⟨TAG_CHANGE, .document doc⟩

/-- A header, the documents of the changes, and the end. -/
def writeIncrement (lib : BsonLib) (header : Document)
    (changes : List Document) : Except String (List UInt8) :=
  writeItems lib TAG_END (incrItems header changes)

section Spec

variable {lib : BsonLib} {header : Document} {changes : List Document}

/-- Every document takes at most so many bytes. -/
def Bounded (lib : BsonLib) (maxBytes : Nat) (docs : List Document) : Prop :=
  ∀ doc ∈ docs, ∀ bytes, lib.toWriter doc = .ok bytes →
    bytes.length ≤ maxBytes

/-- Documents that fit are stored, each as a frame. -/
theorem stores_incrItems (maxBytes : Nat)
    (hfits : ∀ doc ∈ header :: changes, ∃ bytes, lib.Fits doc bytes) :
    ∃ stored,
      List.Forall₂ (Stores lib (incrFraming maxBytes)) (incrItems header changes)
        stored ∧
      ((∀ frame ∈ stored, frame.body.length ≤ maxBytes) ↔
        Bounded lib maxBytes (header :: changes)) := by
  choose! bytesOf hbytes using hfits
  obtain ⟨hheader, hchanges⟩ := List.forall_mem_cons.mp hbytes
  have hheaderTag : TAG_HEADER ≠ TAG_END := by decide
  have hchangeTag : TAG_CHANGE ≠ TAG_END := by decide
  refine ⟨⟨TAG_HEADER, bytesOf header⟩ ::
    changes.map fun doc => ⟨TAG_CHANGE, bytesOf doc⟩, ?_, ?_⟩
  · refine .cons (.document _ _ _ hheaderTag rfl hheader) ?_
    rw [List.forall₂_map_left_iff, List.forall₂_map_right_iff,
      List.forall₂_same]
    exact fun doc hdoc => .document _ _ _ hchangeTag rfl (hchanges doc hdoc)
  · rw [Bounded, List.forall_mem_cons, List.forall_mem_cons,
      List.forall_mem_map]
    have hsize : ∀ {doc}, lib.Fits doc (bytesOf doc) →
        ((bytesOf doc).length ≤ maxBytes ↔
          ∀ bytes, lib.toWriter doc = .ok bytes → bytes.length ≤ maxBytes) := by
      intro doc hfits
      simp [hfits.written]
    exact and_congr (hsize hheader)
      (forall₂_congr fun doc hdoc => hsize (hchanges doc hdoc))

theorem storable_incrItems (maxBytes : Nat)
    (hfits : ∀ doc ∈ header :: changes, ∃ bytes, lib.Fits doc bytes) :
    Storable lib (incrFraming maxBytes) (incrItems header changes) := by
  obtain ⟨stored, hstores, -⟩ := stores_incrItems maxBytes hfits
  intro item hitem
  obtain ⟨i, hi, rfl⟩ := List.mem_iff_getElem.mp hitem
  exact ⟨_, hstores.get hi (hstores.length_eq ▸ hi)⟩

/-- What is written is read back, just if no document is over the bound. -/
theorem decode_writeIncrement {α : Type} {values : List α}
    {decode : Item → Except XBackupError α} (maxBytes : Nat)
    (hfits : ∀ doc ∈ header :: changes, ∃ bytes, lib.Fits doc bytes)
    (hdecode : List.Forall₂ (fun item value => decode item = .ok value)
      (incrItems header changes) values) :
    ∃ bytes, writeIncrement lib header changes = .ok bytes ∧
      (readDecoded lib (incrFraming maxBytes) incrWording decode bytes =
          (values, none) ↔
        Bounded lib maxBytes (header :: changes)) := by
  obtain ⟨stored, hstores, hbounded⟩ := stores_incrItems maxBytes hfits
  have hwrite : writeIncrement lib header changes =
      .ok (encodeAll (incrFraming maxBytes) stored ++ [TAG_END]) :=
    writeItems_eq hstores
  have hends : Ends (incrFraming maxBytes) [TAG_END] := Or.inr ⟨[], rfl⟩
  obtain ⟨hall, hnone⟩ :=
    @readItems_encodeAll _ _ incrWording _ _ _ hends hstores
  refine ⟨_, hwrite, ?_⟩
  rw [← hbounded]
  constructor
  · intro hread
    apply hnone
    by_contra hsome
    exact decodeAll_some hsome (congrArg Prod.snd hread)
  · intro hle
    rw [readDecoded, hall hle]
    exact decodeAll_of_ok hdecode

end Spec

namespace Postgres

open Mysql (asStr)

def incrFraming : Format := XBackup.incrFraming (64 * 1024 * 1024)

inductive IncrFrame where
  | header (doc : Document)
  | change (change : Change)
  | end_

def IncrFrame.describe : IncrFrame → String
  | .header _ => "Header"
  | .change _ => "Change"
  | .end_ => "End"

def Op.tag : Op → String
  | .insert => "I"
  | .update => "U"
  | .delete => "D"

def changeToDoc (c : Change) : Document :=
  let vals := fun values : List (Option String) =>
    Bson.array (values.map fun value =>
      match value with
      | some s => .scalar (.string s)
      | none => .scalar .null)
  let bools := fun flags : List Bool =>
    Bson.array (flags.map fun flag => .scalar (.boolean flag))
  [("op", .scalar (.string c.op.tag)),
    ("schema", .scalar (.string c.schema)),
    ("table", .scalar (.string c.table)),
    ("cols", .array (c.colnames.map fun name => .scalar (.string name))),
    ("keys", bools c.keycols),
    ("new", vals c.newVals),
    ("unchanged", bools c.newUnchanged),
    ("key", vals c.keyVals),
    ("ts", .scalar (.int64 c.commitUnixMicros))]

def asBool : Bson → Option Bool
  | .scalar (.boolean value) => some value
  | _ => none

def docToChange (doc : Document) : Except XBackupError Change :=
  let strs := fun key : String =>
    ((doc.getArray key).getD []).filterMap asStr
  let optVals := fun key : String => ((doc.getArray key).getD []).map asStr
  let newVals := optVals "new"
  -- an archive from before the mask has none
  let newUnchanged :=
    match doc.getArray "unchanged" with
    | some flags => flags.map fun flag => (asBool flag).getD false
    | none => List.replicate newVals.length false
  let change := fun op : Op =>
    { op := op
      schema := (doc.getStr "schema").getD ""
      table := (doc.getStr "table").getD ""
      colnames := strs "cols"
      keycols := ((doc.getArray "keys").getD []).map fun flag =>
        (asBool flag).getD false
      newVals := newVals
      newUnchanged := newUnchanged
      keyVals := optVals "key"
      commitUnixMicros := (doc.getI64 "ts").getD 0 : Change }
  match (doc.getStr "op").getD "" with
  | "I" => .ok (change .insert)
  | "U" => .ok (change .update)
  | "D" => .ok (change .delete)
  | other => .error (.failure ("corrupt incremental op: '" ++ other ++ "'"))

theorem docToChange_changeToDoc (c : Change) :
    docToChange (changeToDoc c) = .ok c := by
  have hnames : ∀ names : List String,
      (names.map fun name => Bson.scalar (.string name)).filterMap asStr =
        names := by
    intro names
    rw [List.filterMap_map]
    exact List.filterMap_some
  have hvals : ∀ values : List (Option String),
      (values.map fun value =>
        match value with
        | some s => Bson.scalar (.string s)
        | none => .scalar .null).map asStr = values := by
    intro values
    rw [List.map_map]
    refine (List.map_congr_left fun value _ => ?_).trans (List.map_id values)
    cases value <;> rfl
  have hflags : ∀ flags : List Bool,
      (flags.map fun flag => Bson.scalar (.boolean flag)).map (fun flag =>
        (asBool flag).getD false) = flags := by
    intro flags
    rw [List.map_map]
    exact List.map_id flags
  obtain ⟨op, schema, table, colnames, keycols, newVals, newUnchanged, keyVals,
    commitUnixMicros⟩ := c
  cases op <;>
    simp only [docToChange, changeToDoc, Op.tag, Document.getStr,
      Document.getArray, Document.getI64, Document.get, List.lookup,
      String.reduceBEq, Option.getD_some, hnames, hvals, hflags]

/-- What a capture writes; an error of the library is one of the capture. -/
def writeArchive (lib : BsonLib) (createdAt : String) (changes : List Change) :
    Except XBackupError (List UInt8) :=
  match writeIncrement lib (incrHeader PG_INCR_FORMAT_ID createdAt)
      (changes.map changeToDoc) with
  | .ok bytes => .ok bytes
  | .error e => .error (.failure
      ("failed to serialize the incremental frame: " ++ e))

/-- A frame with its document; no other frame stands before the end. -/
def IncrFrame.ofItem (item : Item) : Except XBackupError IncrFrame :=
  match item.payload with
  | .document doc =>
      if item.tag = TAG_HEADER then .ok (.header doc)
      else (docToChange doc).map .change
  | _ => .error (.failure (incrWording.fault (.corruptTag item.tag)))

/-- What `read_frame` gives up to the end, and the error that stops it. -/
def readFrames (lib : BsonLib) (input : List UInt8) :
    List IncrFrame × Option XBackupError :=
  readDecoded lib incrFraming incrWording IncrFrame.ofItem input

def documents (createdAt : String) (changes : List Change) : List Document :=
  incrHeader PG_INCR_FORMAT_ID createdAt :: changes.map changeToDoc

def archived (createdAt : String) (changes : List Change) : List IncrFrame :=
  .header (incrHeader PG_INCR_FORMAT_ID createdAt) :: changes.map .change

theorem ofItem_incrItems (createdAt : String) (changes : List Change) :
    List.Forall₂ (fun item frame => IncrFrame.ofItem item = .ok frame)
      (incrItems (incrHeader PG_INCR_FORMAT_ID createdAt)
        (changes.map changeToDoc))
      (archived createdAt changes) := by
  refine .cons rfl ?_
  rw [List.map_map, List.forall₂_map_left_iff, List.forall₂_map_right_iff,
    List.forall₂_same]
  intro c _
  simp only [Function.comp_apply, IncrFrame.ofItem]
  rw [if_neg (by decide), docToChange_changeToDoc]
  rfl

/-- An increment is read back as it was written, just if no document of it is
over the bound. -/
theorem readFrames_writeArchive {lib : BsonLib} {createdAt : String}
    {changes : List Change}
    (hfits : ∀ doc ∈ documents createdAt changes, ∃ bytes,
      lib.Fits doc bytes) :
    ∃ bytes, writeArchive lib createdAt changes = .ok bytes ∧
      (readFrames lib bytes = (archived createdAt changes, none) ↔
        Bounded lib (64 * 1024 * 1024) (documents createdAt changes)) := by
  obtain ⟨bytes, hwrite, hread⟩ := decode_writeIncrement (64 * 1024 * 1024)
    hfits (ofItem_incrItems createdAt changes)
  exact ⟨bytes, by rw [writeArchive, hwrite], hread⟩

end Postgres

namespace Mysql

def incrFraming : Format := XBackup.incrFraming (256 * 1024 * 1024)

/-- What a capture writes; at an error of the library it panics. -/
def writeArchive (lib : BsonLib) (createdAt : String) (changes : List Change) :
    Option (List UInt8) :=
  (writeIncrement lib (incrHeader MYSQL_INCR_FORMAT_ID createdAt)
    (changes.map changeToDoc)).toOption

def Frame.ofItem (item : Item) : Frame :=
  match item.payload with
  | .document doc => if item.tag = TAG_HEADER then .header doc else .change doc
  | _ => .end_

/-- What `read_frame` gives up to the end, and the error that stops it. -/
def readFrames (lib : BsonLib) (input : List UInt8) :
    List IncrFrame × Option XBackupError :=
  readDecoded lib incrFraming incrWording
    (fun item => (Frame.ofItem item).read) input

def documents (createdAt : String) (changes : List Change) : List Document :=
  incrHeader MYSQL_INCR_FORMAT_ID createdAt :: changes.map changeToDoc

def archived (createdAt : String) (changes : List Change) : List IncrFrame :=
  .header (incrHeader MYSQL_INCR_FORMAT_ID createdAt) :: changes.map .change

theorem ofItem_incrItems (createdAt : String) (changes : List Change) :
    List.Forall₂ (fun item frame => (Frame.ofItem item).read = .ok frame)
      (incrItems (incrHeader MYSQL_INCR_FORMAT_ID createdAt)
        (changes.map changeToDoc))
      (archived createdAt changes) := by
  refine .cons rfl ?_
  rw [List.map_map, List.forall₂_map_left_iff, List.forall₂_map_right_iff,
    List.forall₂_same]
  intro change _
  simp only [Function.comp_apply, Frame.ofItem]
  rw [if_neg (by decide), Frame.read, docToChange_changeToDoc]
  rfl

/-- An increment is read back as it was written, just if no document of it is
over the bound. -/
theorem readFrames_writeArchive {lib : BsonLib} {createdAt : String}
    {changes : List Change}
    (hfits : ∀ doc ∈ documents createdAt changes, ∃ bytes,
      lib.Fits doc bytes) :
    ∃ bytes, writeArchive lib createdAt changes = some bytes ∧
      (readFrames lib bytes = (archived createdAt changes, none) ↔
        Bounded lib (256 * 1024 * 1024) (documents createdAt changes)) := by
  obtain ⟨bytes, hwrite, hread⟩ := decode_writeIncrement (256 * 1024 * 1024)
    hfits (ofItem_incrItems createdAt changes)
  exact ⟨bytes, by rw [writeArchive, hwrite]; rfl, hread⟩

end Mysql

/-- An increment of either engine is read back as it was written, just if no
document of it is over the bound of the reader. -/
theorem increments_read_back {lib : BsonLib} {createdAt : String}
    {pg : List Postgres.Change} {mysql : List Mysql.Change}
    (hpg : ∀ doc ∈ Postgres.documents createdAt pg, ∃ bytes,
      lib.Fits doc bytes)
    (hmysql : ∀ doc ∈ Mysql.documents createdAt mysql, ∃ bytes,
      lib.Fits doc bytes) :
    (∃ bytes, Postgres.writeArchive lib createdAt pg = .ok bytes ∧
      (Postgres.readFrames lib bytes =
          (Postgres.archived createdAt pg, none) ↔
        Bounded lib (64 * 1024 * 1024) (Postgres.documents createdAt pg))) ∧
      ∃ bytes, Mysql.writeArchive lib createdAt mysql = some bytes ∧
        (Mysql.readFrames lib bytes =
            (Mysql.archived createdAt mysql, none) ↔
          Bounded lib (256 * 1024 * 1024)
            (Mysql.documents createdAt mysql)) :=
  ⟨Postgres.readFrames_writeArchive hpg, Mysql.readFrames_writeArchive hmysql⟩

section Notes

open BsonBytes Bytes

def notesCreatedAt : String := "2026-01-01T00:00:00Z"

/-- A new row with a text of so many letters. -/
def pgNote (n : Nat) : Postgres.Change where
  op := .insert
  schema := "public"
  table := "notes"
  colnames := ["id", "body"]
  keycols := [true, false]
  newVals := [some "1", some (String.ofList (List.replicate n 'a'))]
  newUnchanged := [false, false]
  keyVals := []
  commitUnixMicros := 0

def mysqlNote : Mysql.Change where
  op := .insert
  db := "app"
  table := "notes"
  before := []
  after := ["1", "'aa'"]
  commitUnixMicros := 0

theorem length_pgNote (n : Nat) :
    (encode (Postgres.changeToDoc (pgNote n))).length = 176 + n := by
  have hbody := fun n => @length_utf8_replicate n 'a' (by decide)
  have hgrow : (encode (Postgres.changeToDoc (pgNote n))).length =
      (encode (Postgres.changeToDoc (pgNote 0))).length + n := by
    simp only [encode, length_enclose, Postgres.changeToDoc, pgNote,
      encodeFields, encodeField, encodeValue, encodeItems, encodeScalar,
      List.length_append, List.length_cons, List.length_nil, List.map,
      length_encodeText, hbody, cstring]
    omega
  have hempty : (encode (Postgres.changeToDoc (pgNote 0))).length = 176 := by
    decide +kernel
  rw [hgrow, hempty]

def notesLib : BsonLib :=
  BsonLib.of (Postgres.documents notesCreatedAt [pgNote 2] ++
    Mysql.documents notesCreatedAt [mysqlNote])

theorem notesLib_fits :
    ∀ doc ∈ Postgres.documents notesCreatedAt [pgNote 2] ++
      Mysql.documents notesCreatedAt [mysqlNote],
      notesLib.Fits doc (encode doc) ∧ (encode doc).length < 2 ^ 10 := by
  have hdistinct : ((Postgres.documents notesCreatedAt [pgNote 2] ++
      Mysql.documents notesCreatedAt [mysqlNote]).map encode).Nodup := by
    decide +kernel
  have hsmall : ∀ doc ∈ Postgres.documents notesCreatedAt [pgNote 2] ++
      Mysql.documents notesCreatedAt [mysqlNote],
      (encode doc).length < 2 ^ 10 := by
    simp only [Postgres.documents, Mysql.documents, List.map, List.cons_append,
      List.nil_append, List.forall_mem_cons]
    decide +kernel
  have hfits := BsonLib.of_fits hdistinct fun doc hdoc =>
    (hsmall doc hdoc).trans (by decide)
  exact fun doc hdoc => ⟨hfits doc hdoc, hsmall doc hdoc⟩

theorem pgNotes_fit : ∀ doc ∈ Postgres.documents notesCreatedAt [pgNote 2],
    ∃ bytes, notesLib.Fits doc bytes :=
  fun doc hdoc => ⟨_, (notesLib_fits doc (List.mem_append_left _ hdoc)).1⟩

theorem mysqlNotes_fit : ∀ doc ∈ Mysql.documents notesCreatedAt [mysqlNote],
    ∃ bytes, notesLib.Fits doc bytes :=
  fun doc hdoc => ⟨_, (notesLib_fits doc (List.mem_append_right _ hdoc)).1⟩

theorem notes_bounded {docs : List Document} {maxBytes : Nat}
    (hmax : 2 ^ 10 ≤ maxBytes)
    (hdocs : ∀ doc ∈ docs, doc ∈ Postgres.documents notesCreatedAt [pgNote 2] ++
      Mysql.documents notesCreatedAt [mysqlNote]) :
    Bounded notesLib maxBytes docs := by
  intro doc hdoc bytes hbytes
  obtain ⟨hfits, hsmall⟩ := notesLib_fits doc (hdocs doc hdoc)
  rw [hfits.written] at hbytes
  cases hbytes
  exact hsmall.le.trans hmax

theorem increments_read_back_notes :
    (∃ bytes, Postgres.writeArchive notesLib notesCreatedAt [pgNote 2] =
        .ok bytes ∧
      Postgres.readFrames notesLib bytes =
        (Postgres.archived notesCreatedAt [pgNote 2], none)) ∧
      ∃ bytes, Mysql.writeArchive notesLib notesCreatedAt [mysqlNote] =
          some bytes ∧
        Mysql.readFrames notesLib bytes =
          (Mysql.archived notesCreatedAt [mysqlNote], none) := by
  obtain ⟨⟨pgBytes, hpgWrite, hpgRead⟩, mysqlBytes, hmysqlWrite, hmysqlRead⟩ :=
    increments_read_back pgNotes_fit mysqlNotes_fit
  exact ⟨⟨pgBytes, hpgWrite, hpgRead.mpr (notes_bounded (by decide)
      fun doc hdoc => List.mem_append_left _ hdoc)⟩,
    mysqlBytes, hmysqlWrite, hmysqlRead.mpr (notes_bounded (by decide)
      fun doc hdoc => List.mem_append_right _ hdoc)⟩

/-- A row with a text of 64 MiB is written into an increment which is not read
back. -/
theorem increments_read_back_wideNote :
    ∃ lib : BsonLib, ∃ changes : List Postgres.Change,
      (∀ doc ∈ Postgres.documents notesCreatedAt changes, ∃ bytes,
        lib.Fits doc bytes) ∧
      ∃ bytes, Postgres.writeArchive lib notesCreatedAt changes = .ok bytes ∧
        Postgres.readFrames lib bytes ≠
          (Postgres.archived notesCreatedAt changes, none) := by
  have hheader : (encode (incrHeader PG_INCR_FORMAT_ID notesCreatedAt)).length =
      68 := by
    decide +kernel
  have hwide := length_pgNote (64 * 1024 * 1024)
  have hdistinct : ((Postgres.documents notesCreatedAt
      [pgNote (64 * 1024 * 1024)]).map encode).Nodup := by
    simp only [Postgres.documents, List.map]
    rw [List.nodup_cons, List.mem_singleton]
    refine ⟨fun hsame => ?_, List.nodup_singleton _⟩
    rw [← hsame, hheader] at hwide
    omega
  have hmost : ∀ doc ∈ Postgres.documents notesCreatedAt
      [pgNote (64 * 1024 * 1024)], (encode doc).length < 2 ^ 31 := by
    simp only [Postgres.documents, List.map]
    rw [List.forall_mem_cons, List.forall_mem_singleton, hheader, hwide]
    omega
  have hfits := BsonLib.of_fits hdistinct hmost
  have hall : ∀ doc ∈ Postgres.documents notesCreatedAt
      [pgNote (64 * 1024 * 1024)], ∃ bytes, (BsonLib.of _).Fits doc bytes :=
    fun doc hdoc => ⟨_, hfits doc hdoc⟩
  obtain ⟨bytes, hwrite, hread⟩ := Postgres.readFrames_writeArchive hall
  refine ⟨_, _, hall, bytes, hwrite, fun hsame => ?_⟩
  have hmem : Postgres.changeToDoc (pgNote (64 * 1024 * 1024)) ∈
      Postgres.documents notesCreatedAt [pgNote (64 * 1024 * 1024)] :=
    List.mem_cons_of_mem _ (List.mem_singleton.mpr rfl)
  have hle := hread.mp hsame _ hmem _ (hfits _ hmem).written
  rw [hwide] at hle
  omega

end Notes

end XBackup
