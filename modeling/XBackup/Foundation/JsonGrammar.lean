/-
The grammar of JSON texts, the values that they denote, and how deep these are
nested.
-/
import XBackup.Foundation.Bytes

namespace JsonGrammar

/-- A value; the texts of numbers and strings are kept as they are written. -/
inductive Json where
  | null
  | boolean (b : Bool)
  | number (text : List Char)
  | string (text : List Char)
  | array (items : List Json)
  | object (members : List (List Char × Json))

namespace Json

mutual

/-- How many arrays and objects stand in one another. -/
def depth : Json → Nat
  | array items => depthOfItems items + 1
  | object members => depthOfMembers members + 1
  | _ => 0

def depthOfItems : List Json → Nat
  | [] => 0
  | item :: rest => max (depth item) (depthOfItems rest)

def depthOfMembers : List (List Char × Json) → Nat
  | [] => 0
  | (_, value) :: rest => max (depth value) (depthOfMembers rest)

end

end Json

/-- White space. -/
def Blank (text : List Char) : Prop :=
  ∀ c ∈ text, c ∈ [' ', '\t', '\n', '\r']

theorem Blank.nil : Blank [] :=
  List.forall_mem_nil _

def Digits (text : List Char) : Prop :=
  text ≠ [] ∧ ∀ c ∈ text, c ∈ ['0', '1', '2', '3', '4', '5', '6', '7', '8', '9']

/-- A zero alone, or digits that do not begin with one. -/
def IsInt (text : List Char) : Prop :=
  text = ['0'] ∨ Digits text ∧ text.head? ≠ some '0'

def IsFraction (text : List Char) : Prop :=
  text = [] ∨ ∃ digits, Digits digits ∧ text = '.' :: digits

def IsExponent (text : List Char) : Prop :=
  text = [] ∨ ∃ e ∈ ['e', 'E'], ∃ sign ∈ [[], ['+'], ['-']], ∃ digits,
    Digits digits ∧ text = e :: (sign ++ digits)

def IsNumber (text : List Char) : Prop :=
  ∃ sign ∈ [[], ['-']], ∃ int frac exp, IsInt int ∧ IsFraction frac ∧
    IsExponent exp ∧ text = sign ++ int ++ frac ++ exp

def hexDigits : List Char :=
  ['0', '1', '2', '3', '4', '5', '6', '7', '8', '9', 'a', 'b', 'c', 'd', 'e',
    'f', 'A', 'B', 'C', 'D', 'E', 'F']

/-- A character between the quotes of a string, as it is written. -/
inductive IsStringPart : List Char → Prop
  | plain {c : Char} (hquote : c ≠ '"') (hbackslash : c ≠ '\\')
      (hcontrol : 32 ≤ c.toNat) : IsStringPart [c]
  | escaped {c : Char} (hc : c ∈ ['"', '\\', '/', 'b', 'f', 'n', 'r', 't']) :
      IsStringPart ['\\', c]
  | unicode {a b c d : Char} (ha : a ∈ hexDigits) (hb : b ∈ hexDigits)
      (hc : c ∈ hexDigits) (hd : d ∈ hexDigits) :
      IsStringPart ['\\', 'u', a, b, c, d]

def IsString (text : List Char) : Prop :=
  ∃ parts : List (List Char), (∀ part ∈ parts, IsStringPart part) ∧
    text = '"' :: (parts.flatten ++ ['"'])

mutual

/-- The value that a text without white space around it denotes. -/
inductive Value : List Char → Json → Prop
  | null : Value "null".toList .null
  | true : Value "true".toList (.boolean true)
  | false : Value "false".toList (.boolean false)
  | number {text : List Char} (htext : IsNumber text) : Value text (.number text)
  | string {text : List Char} (htext : IsString text) : Value text (.string text)
  | emptyArray {blank : List Char} (hblank : Blank blank) :
      Value ('[' :: (blank ++ [']'])) (.array [])
  | array {text : List Char} {items : List Json} (hitems : Items text items) :
      Value ('[' :: (text ++ [']'])) (.array items)
  | emptyObject {blank : List Char} (hblank : Blank blank) :
      Value ('{' :: (blank ++ ['}'])) (.object [])
  | object {text : List Char} {members : List (List Char × Json)}
      (hmembers : Members text members) :
      Value ('{' :: (text ++ ['}'])) (.object members)

/-- The items of an array, with commas between them. -/
inductive Items : List Char → List Json → Prop
  | last {text : List Char} {value : Json} (hvalue : Denotes text value) :
      Items text [value]
  | next {text rest : List Char} {value : Json} {values : List Json}
      (hvalue : Denotes text value) (hrest : Items rest values) :
      Items (text ++ ',' :: rest) (value :: values)

/-- The members of an object, with commas between them. -/
inductive Members : List Char → List (List Char × Json) → Prop
  | last {before key after text : List Char} {value : Json}
      (hbefore : Blank before) (hkey : IsString key) (hafter : Blank after)
      (hvalue : Denotes text value) :
      Members (before ++ key ++ after ++ ':' :: text) [(key, value)]
  | next {before key after text rest : List Char} {value : Json}
      {members : List (List Char × Json)} (hbefore : Blank before)
      (hkey : IsString key) (hafter : Blank after) (hvalue : Denotes text value)
      (hrest : Members rest members) :
      Members (before ++ key ++ after ++ ':' :: (text ++ ',' :: rest))
        ((key, value) :: members)

/-- The value that a text denotes, with white space around it. -/
inductive Denotes : List Char → Json → Prop
  | intro {before text after : List Char} {value : Json} (hbefore : Blank before)
      (hvalue : Value text value) (hafter : Blank after) :
      Denotes (before ++ text ++ after) value

end

/-- A parser that reads values of at most this depth. -/
structure DepthLimited (limit : Nat) (parse : String → Option Json) : Prop where
  valid : ∀ text value, parse text = some value → Denotes text.toList value
  limited : ∀ text value, parse text = some value → value.depth ≤ limit

end JsonGrammar
