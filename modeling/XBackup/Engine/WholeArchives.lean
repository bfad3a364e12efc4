/-
Archives that are read whole: they are read back as they were written just if
every frame is within the bound of the reader.
-/
import XBackup.Engine.CutArchives

namespace XBackup

open Framing

/-- The payload of a frame takes at most 32 MiB. -/
def Native.Frame.Bounded (lib : BsonLib) (frame : Native.Frame) : Prop :=
  frame.item.payload.Bounded lib Native.framing.maxBytes

/-- The payload of a frame takes at most 256 MiB. -/
def Postgres.ArchiveFrame.Bounded (lib : BsonLib)
    (frame : Postgres.ArchiveFrame) : Prop :=
  frame.item.payload.Bounded lib Postgres.archiveFraming.maxBytes

def Mysql.ArchiveFrame.Bounded (lib : BsonLib) (frame : Mysql.ArchiveFrame) :
    Prop :=
  frame.item.payload.Bounded lib Mysql.archiveFraming.maxBytes

section Whole

variable {lib : BsonLib} {bytes : List UInt8}

theorem Native.readFrames_iff {createdAt : String}
    {collections : List CollectionDump}
    (hfits : Fits lib createdAt collections)
    (hwrite : writeArchive lib createdAt collections = .ok bytes) :
    readFrames lib bytes = (archiveFrames createdAt collections, none) ↔
      ∀ frame ∈ archiveFrames createdAt collections, frame.Bounded lib :=
  readDecoded_iff (storable_archive hfits) ofItem_of_archive
    (writeItems_of_archive hwrite)

theorem Postgres.readArchive_iff {d : Dump} (hfits : d.Fits lib)
    (hwrite : writeDump lib d = .ok bytes) :
    readArchive lib bytes = (d.frames, none) ↔
      ∀ frame ∈ d.frames, frame.Bounded lib := by
  have hdecode : ∀ frame ∈ d.frames,
      ArchiveFrame.ofItem frame.item = .ok frame :=
    fun frame hframe => ofItem_item (stored_of_fits hfits frame hframe).1
  exact readDecoded_iff (storable_dump hfits) hdecode
    (writeItems_of_dump hwrite)

theorem Mysql.readArchive_iff {d : Dump} (hfits : d.Fits lib)
    (hwrite : writeDump lib d = .ok bytes) :
    readArchive lib bytes = (d.frames, none) ↔
      ∀ frame ∈ d.frames, frame.Bounded lib := by
  obtain ⟨hwritten, hrows⟩ := writeItems_of_dump hwrite
  have hdecode : ∀ frame ∈ d.frames,
      ArchiveFrame.ofItem frame.item = .ok frame :=
    fun frame hframe => ofItem_item (stored_of_fits hfits hrows frame hframe).1
  exact readDecoded_iff (storable_dump hfits hrows) hdecode hwritten

end Whole

section Notes

open BsonBytes

theorem cutDoc_bounded {maxBytes : Nat} (hmax : 2 ^ 10 ≤ maxBytes)
    {doc : Document} (hdoc : doc ∈ cutDocs) :
    (Payload.document doc).Bounded cutLib maxBytes := by
  intro bytes hbytes
  obtain ⟨hfits, hsmall⟩ := cutLib_fits doc hdoc
  cases hfits.written.symm.trans hbytes
  exact (hsmall.trans_le hmax).le

/-- The table with rows that are copied out as one chunk. -/
def pgChunkDump (chunk : List UInt8) : Postgres.Dump :=
  { pgNotesDump with
    tables := pgNotesDump.tables.map fun t => { t with chunks := [chunk] } }

section Chunk

variable {chunk : List UInt8}

theorem pgChunkDump_fits (hlt : chunk.length < 2 ^ 32) :
    (pgChunkDump chunk).Fits cutLib where
  header := pgNotesDump_fits.header
  pre := nofun
  sequences := nofun
  tables t ht := by
    obtain ⟨note, hnote, rfl⟩ := List.mem_map.mp ht
    refine ⟨(pgNotesDump_fits.tables note hnote).1, ?_⟩
    rw [List.forall_mem_singleton]
    exact hlt
  post := nofun

theorem data_mem_pgChunkDump (hsome : chunk ≠ []) :
    .data chunk ∈ (pgChunkDump chunk).frames := by
  simp [Postgres.Dump.frames, Postgres.TableDump.frames, pgChunkDump,
    pgNotesDump, hsome]

/-- A chunk of more than 256 MiB is written, and not read back. -/
theorem wideChunk_lost (hlt : chunk.length < 2 ^ 32)
    (hwide : 256 * 1024 * 1024 < chunk.length) :
    ∃ bytes, Postgres.writeDump cutLib (pgChunkDump chunk) = .ok bytes ∧
      Postgres.readArchive cutLib bytes ≠
        ((pgChunkDump chunk).frames, none) := by
  have hfits := pgChunkDump_fits hlt
  have hsome : chunk ≠ [] := List.ne_nil_of_length_pos (by omega)
  obtain ⟨bytes, hitems⟩ := exists_written (Postgres.storable_dump hfits)
  have hwrite := Postgres.writeDump_eq hitems
  refine ⟨bytes, hwrite, fun hread => ?_⟩
  have hdata : chunk.length ≤ 256 * 1024 * 1024 :=
    (Postgres.readArchive_iff hfits hwrite).mp hread _
      (data_mem_pgChunkDump hsome)
  omega

end Chunk

end Notes

end XBackup
