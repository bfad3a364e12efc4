/-
The bytes of a BSON document: its length, its fields one behind the other, and a
zero byte.
-/
import XBackup.Engine.Archive

namespace XBackup

open Bytes Framing

namespace BsonBytes

/-- Bytes between the number they take in all and a zero byte. -/
def enclose (bytes : List UInt8) : List UInt8 :=
  littleEndian 4 (bytes.length + 5) ++ bytes ++ [0]

def cstring (text : String) : List UInt8 :=
  utf8 text ++ [0]

def encodeText (text : String) : List UInt8 :=
  littleEndian 4 ((utf8 text).length + 1) ++ utf8 text ++ [0]

def rawTag : RawKind → UInt8
  | .undefined => 0x06
  | .regularExpression => 0x0B
  | .dbPointer => 0x0C
  | .javaScriptCode => 0x0D
  | .symbol => 0x0E
  | .javaScriptCodeWithScope => 0x0F
  | .decimal128 => 0x13
  | .maxKey => 0x7F
  | .minKey => 0xFF

/-- The type of a value and its bytes. -/
def encodeScalar : BsonScalar → UInt8 × List UInt8
  | .double bits => (0x01, littleEndian 8 bits.toNat)
  | .string value => (0x02, encodeText value)
  | .binary subtype bytes =>
      (0x05, littleEndian 4 bytes.length ++ subtype :: bytes)
  | .objectId bytes => (0x07, bytes)
  | .boolean value => (0x08, [if value then 1 else 0])
  | .dateTime millis => (0x09, littleEndian 8 millis.toUInt64.toNat)
  | .null => (0x0A, [])
  | .int32 value => (0x10, littleEndian 4 value.toUInt32.toNat)
  | .timestamp value => (0x11, littleEndian 4 value.i.toNat ++
      littleEndian 4 value.t.toNat)
  | .int64 value => (0x12, littleEndian 8 value.toUInt64.toNat)
  | .raw kind bytes => (rawTag kind, bytes)

mutual

def encodeValue : Bson → UInt8 × List UInt8
  | .scalar value => encodeScalar value
  | .array items => (0x04, enclose (encodeItems 0 items))
  | .document fields => (0x03, enclose (encodeFields fields))

/-- An array is a document whose names are the places. -/
def encodeItems : Nat → List Bson → List UInt8
  | _, [] => []
  | i, value :: rest =>
      let (tag, bytes) := encodeValue value
      tag :: (cstring (toString i) ++ bytes) ++ encodeItems (i + 1) rest

def encodeField : String × Bson → List UInt8
  | (name, value) =>
      let (tag, bytes) := encodeValue value
      tag :: (cstring name ++ bytes)

def encodeFields : List (String × Bson) → List UInt8
  | [] => []
  | field :: rest => encodeField field ++ encodeFields rest

end

def encode (doc : Document) : List UInt8 :=
  enclose (encodeFields doc)

theorem length_enclose (bytes : List UInt8) :
    (enclose bytes).length = bytes.length + 5 := by
  rw [enclose, List.length_append, List.length_append, length_littleEndian]
  exact Nat.add_right_comm 4 bytes.length 1 |>.trans (Nat.add_comm _ _)

theorem take_enclose (bytes : List UInt8) :
    (enclose bytes).take 4 = littleEndian 4 (enclose bytes).length := by
  rw [length_enclose, enclose, List.append_assoc,
    List.take_left' (length_littleEndian 4 _)]

theorem length_encodeText (text : String) :
    (encodeText text).length = (utf8 text).length + 5 := by
  rw [encodeText, List.length_append, List.length_append, length_littleEndian]
  exact Nat.add_right_comm 4 _ 1 |>.trans (Nat.add_comm _ _)

/-- A text of characters that take a byte each. -/
theorem length_utf8_replicate (n : Nat) {c : Char} (hc : c.utf8Size = 1) :
    (utf8 (String.ofList (List.replicate n c))).length = n := by
  simp [utf8, hc]

end BsonBytes

/-- A library that knows just these documents: it writes a document of less than
2 GiB, and reads the bytes of one of them. -/
def BsonLib.of (docs : List Document) : BsonLib where
  toWriter doc :=
    if (BsonBytes.encode doc).length < 2 ^ 31 then .ok (BsonBytes.encode doc)
    else .error "document too large"
  fromReader bytes :=
    match docs.find? fun doc => BsonBytes.encode doc = bytes with
    | some doc => .ok doc
    | none => .error "unknown document"

/-- Documents of different bytes fit into them. -/
theorem BsonLib.of_fits {docs : List Document}
    (hdistinct : (docs.map BsonBytes.encode).Nodup)
    (hmost : ∀ doc ∈ docs, (BsonBytes.encode doc).length < 2 ^ 31) :
    ∀ doc ∈ docs, (BsonLib.of docs).Fits doc (BsonBytes.encode doc) := by
  intro doc hdoc
  refine ⟨if_pos (hmost doc hdoc), ?_, ?_, hmost doc hdoc,
    BsonBytes.take_enclose _⟩
  · have hfound : docs.find? (fun other =>
        BsonBytes.encode other = BsonBytes.encode doc) = some doc := by
      cases hfind : docs.find? (fun other =>
          BsonBytes.encode other = BsonBytes.encode doc) with
      | none => simpa using List.find?_eq_none.mp hfind doc hdoc
      | some other =>
          have hsame := List.find?_some hfind
          rw [decide_eq_true_eq] at hsame
          rw [List.inj_on_of_nodup_map hdistinct
            (List.mem_of_find?_eq_some hfind) hdoc hsame]
    rw [BsonLib.of]
    simp only [hfound]
  · rw [BsonBytes.encode, BsonBytes.length_enclose]
    omega

end XBackup
