/-
The values of columns as literals of SQL: those of a dump by the category of
their column, and those of a binlog's rows by what they are.
-/
import XBackup.Foundation.SqlLiterals
import XBackup.Foundation.Utf8
import XBackup.Schedule.Fields

namespace XBackup

namespace Mysql

open Bytes

/-- The types of columns in the events of a binlog. -/
inductive ColumnType where
  | decimal
  | tiny
  | short
  | long
  | float
  | double
  | null
  | timestamp
  | longLong
  | int24
  | date
  | time
  | dateTime
  | year
  | newDate
  | varChar
  | bit
  | timestamp2
  | dateTime2
  | time2
  | typedArray
  | vector
  | unknown
  | json
  | newDecimal
  | enum
  | set
  | tinyBlob
  | mediumBlob
  | longBlob
  | blob
  | varString
  | string
  | geometry
deriving DecidableEq, Repr

/-- A value as the driver hands it over; a floating-point number comes with the
text that the language prints for it. -/
inductive Value where
  | null
  | bytes (b : List UInt8)
  | int (i : Int64)
  | uint (u : UInt64)
  | float (shown : String)
  | double (shown : String)
  | date (y : UInt16) (mo d h mi s : UInt8) (us : UInt32)
  | time (neg : Bool) (days : UInt32) (h mi s : UInt8) (us : UInt32)
deriving DecidableEq, Repr

inductive ColCategory where
  | numeric
  | binary
  | json
  | text
deriving DecidableEq, Repr

/-- The names of the types are in small letters, without length and sign. -/
def ColCategory.fromDataType (dataType : String) : ColCategory :=
  let name := String.ofList
    ((Schedule.trim dataType.toList).map Char.toLower)
  if name ∈ ["tinyint", "smallint", "mediumint", "int", "integer", "bigint",
      "decimal", "dec", "numeric", "fixed", "float", "double", "real",
      "double precision", "year", "bool", "boolean"] then .numeric
  else if name ∈ ["binary", "varbinary", "tinyblob", "blob", "mediumblob",
      "longblob", "bit", "geometry", "point", "linestring", "polygon",
      "multipoint", "multilinestring", "multipolygon", "geometrycollection",
      "geomcollection"] then .binary
  else if name = "json" then .json
  else .text

/-- A number with zeros before it. -/
def padded (width n : Nat) : String :=
  String.ofList (List.replicate (width - (toString n).length) '0') ++
    toString n

def escapeByte (c : UInt8) : List UInt8 :=
  if c = 0x27 then [0x5C, 0x27]
  else if c = 0x5C then [0x5C, 0x5C]
  else if c = 0x00 then [0x5C, 0x30]
  else if c = 0x0A then [0x5C, 0x6E]
  else if c = 0x0D then [0x5C, 0x72]
  else if c = 0x1A then [0x5C, 0x5A]
  else [c]

def escapeStr (b : List UInt8) : String :=
  fromUtf8Lossy (b.flatMap escapeByte)

def hexEncode (b : List UInt8) : String :=
  String.ofList (SqlLiterals.hexChars b)

def renderBytes (b : List UInt8) : ColCategory → String
  | .numeric => fromUtf8Lossy b
  | .binary => if b.isEmpty then "''" else "0x" ++ hexEncode b
  | .json => "CAST('" ++ escapeStr b ++ "' AS JSON)"
  | .text => "'" ++ escapeStr b ++ "'"

def renderDatetime (y : UInt16) (mo d h mi s : UInt8) (us : UInt32) : String :=
  let text := padded 4 y.toNat ++ "-" ++ padded 2 mo.toNat ++ "-" ++
    padded 2 d.toNat ++ " " ++ padded 2 h.toNat ++ ":" ++ padded 2 mi.toNat ++
      ":" ++ padded 2 s.toNat
  if 0 < us then "'" ++ (text ++ "." ++ padded 6 us.toNat) ++ "'"
  else "'" ++ text ++ "'"

def renderTime (neg : Bool) (days : UInt32) (h mi s : UInt8) (us : UInt32) :
    String :=
  let sign := if neg then "-" else ""
  let hours := days * 24 + h.toUInt32
  let text := sign ++ padded 2 hours.toNat ++ ":" ++ padded 2 mi.toNat ++
    ":" ++ padded 2 s.toNat
  if 0 < us then "'" ++ (text ++ "." ++ padded 6 us.toNat) ++ "'"
  else "'" ++ text ++ "'"

def renderValue (v : Value) (cat : ColCategory) : String :=
  match v with
  | .null => "NULL"
  | .bytes b => renderBytes b cat
  | .int i => toString i
  | .uint u => toString u
  | .float shown => shown
  | .double shown => shown
  | .date y mo d h mi s us => renderDatetime y mo d h mi s us
  | .time neg days h mi s us => renderTime neg days h mi s us

def renderValueAuto (v : Value) : String :=
  match v with
  | .null => "NULL"
  | .bytes b =>
      if (Bytes.fromUtf8 b).isSome then "'" ++ escapeStr b ++ "'"
      else if b.isEmpty then "''"
      else "0x" ++ hexEncode b
  | .int i => toString i
  | .uint u => toString u
  | .float shown => shown
  | .double shown => shown
  | .date y mo d h mi s us => renderDatetime y mo d h mi s us
  | .time neg days h mi s us => renderTime neg days h mi s us

/-- The members of a SET as bits, the first byte the lowest. -/
def setMask (b : List UInt8) : Nat :=
  (b.take 8).zipIdx.foldl (fun n (byte, i) => n ||| (byte.toNat <<< (8 * i))) 0

def renderBinlogValue (v : Value) (colType : Option ColumnType) : String :=
  match v, colType with
  | .bytes b, some .bit => if b.isEmpty then "0" else "0x" ++ hexEncode b
  | .bytes b, some .set => toString (setMask b)
  | .bytes b, some .timestamp2 => renderTimestamp b
  | .bytes b, some .timestamp => renderTimestamp b
  | v, _ => renderValueAuto v
where
  /-- Seconds since the epoch; a zero stands for no time. -/
  renderTimestamp (b : List UInt8) : String :=
    let s := fromUtf8Lossy b
    if s = "0" then "'0000-00-00 00:00:00'" else "FROM_UNIXTIME(" ++ s ++ ")"

/-- The values of a row in parentheses. -/
def renderRow (row : List Value) (plan : List ColCategory) : String :=
  "(" ++ String.intercalate "," (plan.zipIdx.map fun (cat, i) =>
    renderValue (row[i]?.getD .null) cat) ++ ")"

end Mysql

end XBackup
