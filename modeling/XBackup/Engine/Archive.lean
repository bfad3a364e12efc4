/-
The frames of archives and increments with their documents, which the BSON
library writes and reads.
-/
import XBackup.Engine.Mongo.Bson
import XBackup.Foundation.Framing

namespace XBackup

open Framing Streams

/-- The BSON library: a document as bytes, and back. -/
structure BsonLib where
  toWriter : Document → Except String (List UInt8)
  fromReader : List UInt8 → Except String Document

/-- A document fits into its bytes: they begin with how many they are, which is
a signed number of 32 bits, and are read back as it. -/
structure BsonLib.Fits (lib : BsonLib) (doc : Document) (bytes : List UInt8) :
    Prop where
  written : lib.toWriter doc = .ok bytes
  read : lib.fromReader bytes = .ok doc
  least : 5 ≤ bytes.length
  most : bytes.length < 2 ^ 31
  counted : bytes.take 4 = littleEndian 4 bytes.length

/-- What the errors of a reader say. -/
structure Wording where
  fault : Fault → String
  parse : String → String

inductive Payload where
  | bare
  | document (doc : Document)
  | data (bytes : List UInt8)

/-- A frame with its document. -/
structure Item where
  tag : UInt8
  payload : Payload

/-- The tags that all archives and increments begin and end with. -/
def TAG_HEADER : UInt8 := 0x48

def TAG_END : UInt8 := 0x45

/-- What `read_exact` says at the end of a stream. -/
def EARLY_EOF : String := "early eof"

/-- `{:02x}`. -/
def hexByte (byte : UInt8) : String :=
  String.ofList [Nat.digitChar (byte.toNat / 16), Nat.digitChar (byte.toNat % 16)]

section Reading

variable (lib : BsonLib) (f : Format) (w : Wording)

def readItem (frame : Frame) : Except XBackupError Item :=
  match f.shape frame.tag with
  | some .document =>
      match lib.fromReader frame.body with
      | .ok doc => .ok ⟨frame.tag, .document doc⟩
      | .error e => .error (.failure (w.parse e))
  | some .data => .ok ⟨frame.tag, .data frame.body⟩
  | _ => .ok ⟨frame.tag, .bare⟩

/-- The items of the frames, and the error that ends them. -/
def readAll (fault : Option Fault) :
    List Frame → List Item × Option XBackupError
  | [] => ([], fault.map fun fault => .failure (w.fault fault))
  | frame :: rest =>
      match readItem lib f w frame with
      | .error err => ([], some err)
      | .ok item =>
          let (items, err) := readAll fault rest
          (item :: items, err)

/-- What a loop over a stream reads up to its end, or up to an error. -/
def readItems (input : List UInt8) : List Item × Option XBackupError :=
  readAll lib f w (frames f input).2 (frames f input).1

/-- The bytes of an item: its tag, and its document or its data behind a
length. -/
def Item.bytes (item : Item) : Except String (List UInt8) :=
  match item.payload with
  | .bare => .ok [item.tag]
  | .document doc => (lib.toWriter doc).map fun bytes => item.tag :: bytes
  | .data bytes =>
      .ok (item.tag :: (littleEndian 4 bytes.length ++ bytes))

/-- An archive: its items one behind the other, and the end tag. -/
def writeItems (endTag : UInt8) (items : List Item) :
    Except String (List UInt8) := do
  let written ← items.mapM (Item.bytes lib)
  return written.flatten ++ [endTag]

/-- A frame as the writer makes it of an item. -/
inductive Stores : Item → Frame → Prop where
  | bare (tag : UInt8) (htag : tag ≠ f.endTag)
      (hshape : f.shape tag = some .bare) : Stores ⟨tag, .bare⟩ ⟨tag, []⟩
  | document (tag : UInt8) (doc : Document) (bytes : List UInt8)
      (htag : tag ≠ f.endTag) (hshape : f.shape tag = some .document)
      (hfits : lib.Fits doc bytes) :
      Stores ⟨tag, .document doc⟩ ⟨tag, bytes⟩
  | data (tag : UInt8) (bytes : List UInt8) (htag : tag ≠ f.endTag)
      (hshape : f.shape tag = some .data) (hsome : bytes ≠ [])
      (hlt : bytes.length < 2 ^ 32) : Stores ⟨tag, .data bytes⟩ ⟨tag, bytes⟩

variable {lib f w} {item : Item} {frame : Frame} {items : List Item}
  {stored : List Frame} {bytes part tail : List UInt8}

theorem written_of_stores (hstores : Stores lib f item frame) :
    Written f frame := by
  cases hstores with
  | bare tag htag hshape =>
      refine ⟨htag, by simp, ?_⟩
      rw [hshape]
  | document tag doc bytes htag hshape hfits =>
      refine ⟨htag, hfits.most.trans (by decide), ?_⟩
      rw [hshape]
      exact ⟨hfits.least, hfits.counted⟩
  | data tag bytes htag hshape hsome hlt =>
      refine ⟨htag, hlt, ?_⟩
      rw [hshape]
      exact hsome

theorem written_of_all (hstores : List.Forall₂ (Stores lib f) items stored) :
    ∀ frame ∈ stored, Written f frame := by
  induction hstores with
  | nil => nofun
  | cons hitem _ ih =>
      exact List.forall_mem_cons.mpr ⟨written_of_stores hitem, ih⟩

theorem readItem_of_stores (hstores : Stores lib f item frame) :
    readItem lib f w frame = .ok item := by
  cases hstores with
  | bare tag htag hshape => rw [readItem, hshape]
  | document tag doc bytes htag hshape hfits =>
      rw [readItem, hshape]
      simp only [hfits.read]
  | data tag bytes htag hshape hsome hlt => rw [readItem, hshape]

theorem bytes_of_stores (hstores : Stores lib f item frame) :
    item.bytes lib = .ok (frame.encode f) := by
  cases hstores with
  | bare tag htag hshape =>
      simp only [Item.bytes, Frame.encode, hshape]
  | document tag doc bytes htag hshape hfits =>
      simp only [Item.bytes, Frame.encode, hshape, hfits.written]
      rfl
  | data tag bytes htag hshape hsome hlt =>
      simp only [Item.bytes, Frame.encode, hshape]

theorem stores_rightUnique : Relator.RightUnique (Stores lib f) := by
  intro item left right hleft hright
  cases hleft with
  | bare tag htag hshape => cases hright; rfl
  | document tag doc bytes htag hshape hfits =>
      cases hright with
      | document _ _ other _ _ hother =>
          have hsame : Except.ok bytes = Except.ok other :=
            hfits.written.symm.trans hother.written
          rw [Except.ok.inj hsame]
  | data tag bytes htag hshape hsome hlt => cases hright; rfl

/-- Items that can be stored are written, each as a frame. -/
theorem writeItems_eq (hstores : List.Forall₂ (Stores lib f) items stored) :
    writeItems lib f.endTag items = .ok (encodeAll f stored ++ [f.endTag]) := by
  have hwritten : items.mapM (Item.bytes lib) =
      .ok (stored.map (Frame.encode f)) := by
    induction hstores with
    | nil => rfl
    | cons hitem _ ih =>
        rw [List.mapM_cons, bytes_of_stores hitem, ih]
        rfl
  rw [writeItems, hwritten]
  rfl

/-- The items of stored frames are read back. -/
theorem readAll_of_stores {fault : Option Fault}
    (hstores : List.Forall₂ (Stores lib f) items stored) :
    readAll lib f w fault stored =
      (items, fault.map fun fault => .failure (w.fault fault)) := by
  induction hstores with
  | nil => rfl
  | cons hitem _ ih =>
      rw [readAll, readItem_of_stores hitem]
      simp only [ih]

theorem readAll_some (fault : Fault) (stored : List Frame) :
    (readAll lib f w (some fault) stored).2 ≠ none := by
  induction stored with
  | nil => exact Option.some_ne_none _
  | cons frame stored ih =>
      rw [readAll]
      split
      next => exact Option.some_ne_none _
      next => exact ih

theorem readItems_nil : readItems lib f w [] = ([], none) := by
  rw [readItems, frames_of_ends (Or.inl rfl)]
  rfl

/-- The items of a stream are read back up to its end, just if none is over the
bound. -/
theorem readItems_encodeAll (hends : Ends f tail)
    (hstores : List.Forall₂ (Stores lib f) items stored) :
    ((∀ frame ∈ stored, frame.body.length ≤ f.maxBytes) →
        readItems lib f w (encodeAll f stored ++ tail) = (items, none)) ∧
      ((readItems lib f w (encodeAll f stored ++ tail)).2 = none →
        ∀ frame ∈ stored, frame.body.length ≤ f.maxBytes) := by
  rw [readItems]
  rcases frames_encodeAll (written_of_all hstores) with
    ⟨hall, hsame⟩ | ⟨front, frame, fault, hfront, hover, hsame⟩
  · rw [hsame, frames_of_ends hends, List.append_nil]
    exact ⟨fun _ => readAll_of_stores hstores, fun _ => hall⟩
  · rw [hsame]
    have hmem : frame ∈ stored := hfront.mem (by simp)
    exact ⟨fun hall => absurd (hall frame hmem) (Nat.not_le_of_lt hover),
      fun hnone => absurd hnone (readAll_some _ _)⟩

/-- Items that can be stored. -/
def Storable (lib : BsonLib) (f : Format) (items : List Item) : Prop :=
  ∀ item ∈ items, ∃ frame, Stores lib f item frame

/-- A payload that can be stored: a document that fits, or some data of less than
4 GiB. -/
def Payload.Fits (lib : BsonLib) : Payload → Prop
  | .bare => True
  | .document doc => ∃ bytes, lib.Fits doc bytes
  | .data bytes => bytes ≠ [] ∧ bytes.length < 2 ^ 32

def Payload.shape : Payload → Shape
  | .bare => .bare
  | .document _ => .document
  | .data _ => .data

theorem storable_of_fits
    (hitems : ∀ item ∈ items, item.tag ≠ f.endTag ∧
      f.shape item.tag = some item.payload.shape ∧ item.payload.Fits lib) :
    Storable lib f items := by
  rintro ⟨tag, payload⟩ hitem
  obtain ⟨htag, hshape, hfits⟩ := hitems _ hitem
  cases payload with
  | bare => exact ⟨_, .bare tag htag hshape⟩
  | document doc =>
      obtain ⟨bytes, hbytes⟩ := hfits
      exact ⟨_, .document tag doc bytes htag hshape hbytes⟩
  | data bytes => exact ⟨_, .data tag bytes htag hshape hfits.1 hfits.2⟩

theorem exists_stored (hitems : Storable lib f items) :
    ∃ stored, List.Forall₂ (Stores lib f) items stored := by
  induction items with
  | nil => exact ⟨[], .nil⟩
  | cons item items ih =>
      obtain ⟨⟨frame, hframe⟩, hrest⟩ := List.forall_mem_cons.mp hitems
      obtain ⟨stored, hstored⟩ := ih hrest
      exact ⟨frame :: stored, .cons hframe hstored⟩

theorem stores_map {frameOf : Item → Frame}
    (hframeOf : ∀ item ∈ items, Stores lib f item (frameOf item)) :
    List.Forall₂ (Stores lib f) items (items.map frameOf) := by
  rw [List.forall₂_map_right_iff, List.forall₂_same]
  exact hframeOf

theorem exists_written (hitems : Storable lib f items) :
    ∃ bytes, writeItems lib f.endTag items = .ok bytes := by
  obtain ⟨stored, hstores⟩ := exists_stored hitems
  exact ⟨_, writeItems_eq hstores⟩

/-- The first frames of an archive are an archive of the first items, which
lacks just its end. -/
theorem writeItems_take (hstores : List.Forall₂ (Stores lib f) items stored)
    (n : Nat) :
    writeItems lib f.endTag (items.take n) =
        .ok (encodeAll f (stored.take n) ++ [f.endTag]) ∧
      readItems lib f w (encodeAll f (stored.take n)) =
        readItems lib f w (encodeAll f (stored.take n) ++ [f.endTag]) := by
  have htake := List.forall₂_take n hstores
  have hends : Ends f [f.endTag] := Or.inr ⟨[], rfl⟩
  have hframes := frames_append_of_ends (written_of_all htake) hends
  refine ⟨writeItems_eq htake, ?_⟩
  rw [readItems, readItems, hframes]

/-- A cut archive is cut within a frame, or lacks just the end of the archive of
the items before the cut. -/
theorem readItems_cut (hitems : Storable lib f items)
    (hwrite : writeItems lib f.endTag items = .ok bytes) (hbefore : part <+: bytes)
    (hcut : part ≠ bytes) :
    (readItems lib f w part).2 ≠ none ∨
      ∃ n, writeItems lib f.endTag (items.take n) = .ok (part ++ [f.endTag]) ∧
        readItems lib f w part = readItems lib f w (part ++ [f.endTag]) := by
  obtain ⟨stored, hstores⟩ := exists_stored hitems
  rw [writeItems_eq hstores] at hwrite
  cases hwrite
  have hwritten := written_of_all hstores
  rcases prefix_flatMap hbefore with ⟨front, hfront, rfl⟩ |
    ⟨front, frame, cut, hfront, rfl, htorn⟩ | ⟨more, hmore, hsome, rfl⟩
  · refine Or.inr ⟨front.length, ?_⟩
    rw [List.prefix_iff_eq_take.mp hfront, List.length_take,
      Nat.min_eq_left hfront.length_le]
    exact writeItems_take hstores front.length
  · refine Or.inl ?_
    have hmem : frame ∈ stored := hfront.subset (by simp)
    have hbefore : ∀ frame ∈ front, Written f frame :=
      fun frame hframe => hwritten frame (hfront.subset (by simp [hframe]))
    obtain ⟨read, fault, -, hframes⟩ :=
      frames_torn hbefore (hwritten frame hmem) htorn
    rw [readItems, ← encodeAll, hframes]
    exact readAll_some _ _
  · have hend : more = [f.endTag] := by
      rcases List.prefix_cons_iff.mp hmore with rfl | ⟨rest, rfl, hrest⟩
      · exact absurd rfl hsome
      · rw [List.prefix_nil.mp hrest]
    subst hend
    exact absurd rfl hcut

/-- Before and behind every frame but the end an archive can be cut unnoticed. -/
theorem exists_unnoticed_cut (hitems : Storable lib f items)
    (hwrite : writeItems lib f.endTag items = .ok bytes) (n : Nat) :
    ∃ part, part <+: bytes ∧ part ≠ bytes ∧
      writeItems lib f.endTag (items.take n) = .ok (part ++ [f.endTag]) ∧
      readItems lib f w part = readItems lib f w (part ++ [f.endTag]) := by
  obtain ⟨stored, hstores⟩ := exists_stored hitems
  rw [writeItems_eq hstores] at hwrite
  cases hwrite
  have hfront : encodeAll f (stored.take n) <+: encodeAll f stored := by
    obtain ⟨rest, hrest⟩ := List.take_prefix n stored
    refine ⟨encodeAll f rest, ?_⟩
    rw [encodeAll, encodeAll, ← List.flatMap_append, hrest]
    rfl
  refine ⟨_, hfront.trans (List.prefix_append _ _), fun hsame => ?_,
    writeItems_take hstores n⟩
  have hlength := hfront.length_le
  rw [hsame, List.length_append, List.length_singleton] at hlength
  omega

end Reading

section Decoding

variable {α : Type} (decode : Item → Except XBackupError α)

/-- The items of a stream decoded one by one. -/
def decodeAll (err : Option XBackupError) :
    List Item → List α × Option XBackupError
  | [] => ([], err)
  | item :: rest =>
      match decode item with
      | .error err => ([], some err)
      | .ok value =>
          let (values, err) := decodeAll err rest
          (value :: values, err)

variable {decode} {items : List Item} {values : List α}

theorem decodeAll_of_ok {err : Option XBackupError}
    (hdecode : List.Forall₂ (fun item value => decode item = .ok value) items
      values) : decodeAll decode err items = (values, err) := by
  induction hdecode with
  | nil => rfl
  | cons hitem _ ih =>
      rw [decodeAll, hitem]
      simp only [ih]

theorem decodeAll_some {err : Option XBackupError} (herr : err ≠ none) :
    (decodeAll decode err items).2 ≠ none := by
  induction items with
  | nil => exact herr
  | cons item items ih =>
      rw [decodeAll]
      split
      next => exact Option.some_ne_none _
      next => exact ih

theorem decodeAll_forall {p : α → Prop} {err : Option XBackupError}
    (hdecode : ∀ item value, decode item = .ok value → p value) :
    ∀ value ∈ (decodeAll decode err items).1, p value := by
  induction items with
  | nil => nofun
  | cons item items ih =>
      rw [decodeAll]
      cases hitem : decode item with
      | error err => nofun
      | ok value => exact List.forall_mem_cons.mpr ⟨hdecode item value hitem, ih⟩

/-- What a loop over a stream reads and decodes, up to its end or up to an
error. -/
def readDecoded (lib : BsonLib) (f : Format) (w : Wording)
    (decode : Item → Except XBackupError α) (input : List UInt8) :
    List α × Option XBackupError :=
  let read := readItems lib f w input
  decodeAll decode read.2 read.1

section Cuts

variable {lib : BsonLib} {f : Format} {w : Wording} {item : α → Item}
  {bytes part : List UInt8}

/-- A cut archive is cut within a frame, or just the items before the cut are
read of it. -/
theorem readDecoded_cut (hitems : Storable lib f (values.map item))
    (hdecode : ∀ value ∈ values, decode (item value) = .ok value)
    (hwrite : writeItems lib f.endTag (values.map item) = .ok bytes)
    (hbefore : part <+: bytes) (hcut : part ≠ bytes) :
    (readDecoded lib f w decode part).2 ≠ none ∨
      ∃ n, writeItems lib f.endTag ((values.take n).map item) =
          .ok (part ++ [f.endTag]) ∧
        readDecoded lib f w decode part = (values.take n, none) := by
  rcases @readItems_cut _ _ w _ _ _ hitems hwrite hbefore hcut with
    hsome | ⟨n, hwhole, hsame⟩
  · exact Or.inl (decodeAll_some hsome)
  · rw [← List.map_take] at hwhole
    have htake : Storable lib f ((values.take n).map item) := by
      rw [List.map_take]
      exact fun item hitem => hitems item (List.mem_of_mem_take hitem)
    obtain ⟨stored, hstores⟩ := exists_stored htake
    have hbytes : part ++ [f.endTag] = encodeAll f stored ++ [f.endTag] :=
      Except.ok.inj (hwhole.symm.trans (writeItems_eq hstores))
    have hends : Ends f [f.endTag] := Or.inr ⟨[], rfl⟩
    obtain ⟨hall, hnone⟩ := @readItems_encodeAll _ _ w _ _ _ hends hstores
    rw [← hbytes, ← hsame] at hall hnone
    by_cases hread : (readItems lib f w part).2 = none
    · refine Or.inr ⟨n, hwhole, ?_⟩
      rw [readDecoded, hall (hnone hread)]
      refine decodeAll_of_ok ?_
      rw [List.forall₂_map_left_iff, List.forall₂_same]
      exact fun value hvalue => hdecode value (List.mem_of_mem_take hvalue)
    · exact Or.inl (decodeAll_some hread)

/-- The items are stored within the bound of the reader. -/
def Within (lib : BsonLib) (f : Format) (items : List Item) : Prop :=
  ∀ item ∈ items, ∃ frame, Stores lib f item frame ∧
    frame.body.length ≤ f.maxBytes

theorem storable_of_within {items : List Item} (hitems : Within lib f items) :
    Storable lib f items :=
  fun item hitem => (hitems item hitem).imp fun _ hframe => hframe.1

theorem within_take {n : Nat} (hitems : Within lib f (values.map item)) :
    Within lib f ((values.take n).map item) := by
  rw [List.map_take]
  exact fun item hitem => hitems item (List.mem_of_mem_take hitem)

/-- A whole archive within the bound is read back as it was written. -/
theorem readDecoded_whole (hitems : Within lib f (values.map item))
    (hdecode : ∀ value ∈ values, decode (item value) = .ok value)
    (hwrite : writeItems lib f.endTag (values.map item) = .ok bytes) :
    readDecoded lib f w decode bytes = (values, none) := by
  choose! frameOf hframeOf using hitems
  have hstores := stores_map fun entry hentry => (hframeOf entry hentry).1
  rw [writeItems_eq hstores] at hwrite
  cases hwrite
  have hends : Ends f [f.endTag] := Or.inr ⟨[], rfl⟩
  have hbound : ∀ frame ∈ (values.map item).map frameOf,
      frame.body.length ≤ f.maxBytes := by
    rw [List.forall_mem_map]
    exact fun item hitem => (hframeOf item hitem).2
  obtain ⟨hall, -⟩ := @readItems_encodeAll _ _ w _ _ _ hends hstores
  rw [readDecoded, hall hbound]
  refine decodeAll_of_ok ?_
  rw [List.forall₂_map_left_iff, List.forall₂_same]
  exact hdecode

/-- The payload takes at most so many bytes. -/
def Payload.Bounded (lib : BsonLib) (maxBytes : Nat) : Payload → Prop
  | .bare => True
  | .document doc => ∀ bytes, lib.toWriter doc = .ok bytes →
      bytes.length ≤ maxBytes
  | .data bytes => bytes.length ≤ maxBytes

theorem bounded_of_stores {entry : Item} {frame : Frame} {maxBytes : Nat}
    (hstores : Stores lib f entry frame) :
    entry.payload.Bounded lib maxBytes ↔ frame.body.length ≤ maxBytes := by
  cases hstores with
  | bare tag htag hshape => exact ⟨fun _ => Nat.zero_le _, fun _ => trivial⟩
  | document tag doc bytes htag hshape hfits =>
      constructor
      · exact fun hbounded => hbounded bytes hfits.written
      · intro hlength written hwritten
        cases hfits.written.symm.trans hwritten
        exact hlength
  | data tag bytes htag hshape hsome hlt => exact Iff.rfl

/-- A whole archive is read back as it was written just if every payload is
within the bound of the reader. -/
theorem readDecoded_iff (hitems : Storable lib f (values.map item))
    (hdecode : ∀ value ∈ values, decode (item value) = .ok value)
    (hwrite : writeItems lib f.endTag (values.map item) = .ok bytes) :
    readDecoded lib f w decode bytes = (values, none) ↔
      ∀ value ∈ values, (item value).payload.Bounded lib f.maxBytes := by
  constructor
  · intro hread
    choose! frameOf hframeOf using hitems
    have hstores := stores_map hframeOf
    have hbytes : bytes = encodeAll f ((values.map item).map frameOf) ++
        [f.endTag] :=
      Except.ok.inj (hwrite.symm.trans (writeItems_eq hstores))
    have hends : Ends f [f.endTag] := Or.inr ⟨[], rfl⟩
    obtain ⟨-, hnone⟩ := @readItems_encodeAll _ _ w _ _ _ hends hstores
    rw [← hbytes] at hnone
    have hbound : ∀ frame ∈ (values.map item).map frameOf,
        frame.body.length ≤ f.maxBytes := by
      refine hnone (by_contra fun hsome => ?_)
      exact decodeAll_some hsome (congrArg Prod.snd hread)
    intro value hvalue
    have hentry : item value ∈ values.map item := List.mem_map_of_mem hvalue
    exact (bounded_of_stores (hframeOf _ hentry)).mpr
      (hbound _ (List.mem_map_of_mem hentry))
  · intro hbounded
    refine readDecoded_whole (fun entry hentry => ?_) hdecode hwrite
    obtain ⟨frame, hstore⟩ := hitems entry hentry
    obtain ⟨value, hvalue, rfl⟩ := List.mem_map.mp hentry
    exact ⟨frame, hstore, (bounded_of_stores hstore).mp (hbounded value hvalue)⟩

/-- Of an archive within the bound that is cut behind a frame, the frames before
the cut are read. -/
theorem exists_read_cut (hitems : Within lib f (values.map item))
    (hdecode : ∀ value ∈ values, decode (item value) = .ok value)
    (hwrite : writeItems lib f.endTag (values.map item) = .ok bytes) (n : Nat) :
    ∃ part, part <+: bytes ∧ part ≠ bytes ∧
      writeItems lib f.endTag ((values.take n).map item) =
        .ok (part ++ [f.endTag]) ∧
      readDecoded lib f w decode part = (values.take n, none) := by
  obtain ⟨part, hbefore, hcut, hwhole, hsame⟩ :=
    @exists_unnoticed_cut _ _ w _ _ (storable_of_within hitems) hwrite n
  rw [← List.map_take] at hwhole
  refine ⟨part, hbefore, hcut, hwhole, ?_⟩
  rw [readDecoded, hsame]
  exact readDecoded_whole (within_take hitems)
    (fun value hvalue => hdecode value (List.mem_of_mem_take hvalue)) hwhole

end Cuts

end Decoding

end XBackup
