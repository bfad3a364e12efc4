/-
BSON documents as the oplog code reads them: ordered fields, accessors that
answer only for the asked type, and the two edits of the replay side.
-/
import XBackup.Manifest.Schema

namespace XBackup

/-- The BSON kinds no modelled function looks into. -/
inductive RawKind where
  | regularExpression
  | javaScriptCode
  | javaScriptCodeWithScope
  | symbol
  | decimal128
  | undefined
  | maxKey
  | minKey
  | dbPointer
deriving DecidableEq, Repr

inductive BsonScalar where
  | double (bits : UInt64)
  | string (value : String)
  | boolean (value : Bool)
  | null
  | int32 (value : Int32)
  | int64 (value : Int64)
  | timestamp (value : OplogTimestamp)
  | binary (subtype : UInt8) (bytes : List UInt8)
  | objectId (bytes : List UInt8)
  | dateTime (millis : Int64)
  | raw (kind : RawKind) (bytes : List UInt8)
deriving DecidableEq, Repr

inductive Bson where
  | scalar (value : BsonScalar)
  | array (items : List Bson)
  | document (fields : List (String × Bson))

/-- The fields of a document in their order; keys do not repeat. -/
abbrev Document := List (String × Bson)

namespace Document

def get (doc : Document) (key : String) : Option Bson :=
  doc.lookup key

def containsKey (doc : Document) (key : String) : Bool :=
  (get doc key).isSome

def getStr (doc : Document) (key : String) : Option String :=
  match get doc key with
  | some (.scalar (.string value)) => some value
  | _ => none

def getBool (doc : Document) (key : String) : Option Bool :=
  match get doc key with
  | some (.scalar (.boolean value)) => some value
  | _ => none

def getI64 (doc : Document) (key : String) : Option Int64 :=
  match get doc key with
  | some (.scalar (.int64 value)) => some value
  | _ => none

def getTimestamp (doc : Document) (key : String) : Option OplogTimestamp :=
  match get doc key with
  | some (.scalar (.timestamp value)) => some value
  | _ => none

def getDocument (doc : Document) (key : String) : Option Document :=
  match get doc key with
  | some (.document fields) => some fields
  | _ => none

def getArray (doc : Document) (key : String) : Option (List Bson) :=
  match get doc key with
  | some (.array items) => some items
  | _ => none

def remove (doc : Document) (key : String) : Document :=
  doc.filter fun field => field.1 ≠ key

/-- Edit the value of `key` in place. -/
def modify (doc : Document) (key : String) (edit : Bson → Bson) : Document :=
  doc.map fun field =>
    if field.1 = key then (field.1, edit field.2) else field

/-- Set the value of `key`, in its place or at the end. -/
def insert (doc : Document) (key : String) (value : Bson) : Document :=
  if containsKey doc key then modify doc key fun _ => value
  else doc ++ [(key, value)]

end Document

end XBackup
