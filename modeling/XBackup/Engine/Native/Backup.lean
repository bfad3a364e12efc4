/-
A native MongoDB archive as it is written: every collection with its options and
indexes, and its documents behind it.
-/
import XBackup.Engine.Native.Restore

namespace XBackup

open Framing

namespace Native

structure CollectionDump where
  ns : String
  options : Document
  indexes : List Document
  docs : List Document

def headerDoc (createdAt : String) : Document :=
  [("format", .scalar (.string NATIVE_FORMAT_ID)),
    ("created_at", .scalar (.string createdAt))]

def CollectionDump.info (c : CollectionDump) : Document :=
  [("ns", .scalar (.string c.ns)),
    ("options", .document c.options),
    ("indexes", .array (c.indexes.map .document))]

def CollectionDump.frames (c : CollectionDump) : List Frame :=
  .collection c.info :: c.docs.map .document

def archiveFrames (createdAt : String) (collections : List CollectionDump) :
    List Frame :=
  .header (headerDoc createdAt) :: collections.flatMap CollectionDump.frames

def Frame.item : Frame → Item
  | .header doc => ⟨TAG_HEADER, .document doc⟩
  | .collection doc => ⟨TAG_COLLECTION, .document doc⟩
  | .document doc => ⟨TAG_DOCUMENT, .document doc⟩
  | .end_ => ⟨TAG_END, .bare⟩

def writeArchive (lib : BsonLib) (createdAt : String)
    (collections : List CollectionDump) : Except XBackupError (List UInt8) :=
  match writeItems lib TAG_END
      ((archiveFrames createdAt collections).map Frame.item) with
  | .ok bytes => .ok bytes
  | .error e => .error (.failure
      ("failed to serialize an archive frame: " ++ e))

theorem ofItem_item {frame : Frame} (hframe : frame ≠ .end_) :
    Frame.ofItem frame.item = .ok frame := by
  cases frame with
  | header doc => rfl
  | collection doc => rfl
  | document doc => rfl
  | end_ => exact absurd rfl hframe

section Archive

variable {lib : BsonLib} {createdAt : String}
  {collections : List CollectionDump} {bytes part : List UInt8}

theorem end_notMem_archiveFrames :
    .end_ ∉ archiveFrames createdAt collections := by
  simp [archiveFrames, CollectionDump.frames]

/-- Every document of the archive fits. -/
def Fits (lib : BsonLib) (createdAt : String)
    (collections : List CollectionDump) : Prop :=
  (∃ bytes, lib.Fits (headerDoc createdAt) bytes) ∧
    ∀ c ∈ collections, (∃ bytes, lib.Fits c.info bytes) ∧
      ∀ doc ∈ c.docs, ∃ bytes, lib.Fits doc bytes

theorem storable_archive (hfits : Fits lib createdAt collections) :
    Storable lib framing
      ((archiveFrames createdAt collections).map Frame.item) := by
  have hheader : TAG_HEADER ≠ TAG_END := by decide
  have hcollection : TAG_COLLECTION ≠ TAG_END := by decide
  have hdocument : TAG_DOCUMENT ≠ TAG_END := by decide
  apply storable_of_fits
  rw [List.forall_mem_map, archiveFrames, List.forall_mem_cons]
  refine ⟨⟨hheader, rfl, hfits.1⟩, ?_⟩
  intro frame hframe
  obtain ⟨c, hc, hframe⟩ := List.mem_flatMap.mp hframe
  obtain ⟨hinfo, hdocs⟩ := hfits.2 c hc
  rcases List.mem_cons.mp hframe with rfl | hframe
  · exact ⟨hcollection, rfl, hinfo⟩
  · obtain ⟨doc, hdoc, rfl⟩ := List.mem_map.mp hframe
    exact ⟨hdocument, rfl, hdocs doc hdoc⟩

theorem ofItem_of_archive : ∀ frame ∈ archiveFrames createdAt collections,
    Frame.ofItem frame.item = .ok frame := by
  intro frame hframe
  exact ofItem_item fun hend => end_notMem_archiveFrames (hend ▸ hframe)

theorem writeArchive_eq
    (hitems : writeItems lib TAG_END
      ((archiveFrames createdAt collections).map Frame.item) = .ok bytes) :
    writeArchive lib createdAt collections = .ok bytes := by
  rw [writeArchive, hitems]

theorem writeItems_of_archive
    (hwrite : writeArchive lib createdAt collections = .ok bytes) :
    writeItems lib TAG_END
      ((archiveFrames createdAt collections).map Frame.item) = .ok bytes := by
  rw [writeArchive] at hwrite
  cases hitems : writeItems lib TAG_END
      ((archiveFrames createdAt collections).map Frame.item) with
  | error e => rw [hitems] at hwrite; cases hwrite
  | ok written => rw [hitems] at hwrite; cases hwrite; rfl

/-- A cut archive is cut within a frame, or just the frames before the cut are
read of it. -/
theorem readFrames_cut (hfits : Fits lib createdAt collections)
    (hwrite : writeArchive lib createdAt collections = .ok bytes)
    (hbefore : part <+: bytes) (hcut : part ≠ bytes) :
    (readFrames lib part).2 ≠ none ∨
      ∃ n, writeItems lib TAG_END
          (((archiveFrames createdAt collections).take n).map Frame.item) =
            .ok (part ++ [TAG_END]) ∧
        readFrames lib part =
          ((archiveFrames createdAt collections).take n, none) :=
  readDecoded_cut (storable_archive hfits) ofItem_of_archive
    (writeItems_of_archive hwrite) hbefore hcut

end Archive

end Native

end XBackup
