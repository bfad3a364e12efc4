/-
Documents of TOML with one pair on a line: how they are written, and the tables
they stand for.
-/
import XBackup.Foundation.SortedMap

namespace TomlText

universe u

open SortedMap

inductive Scalar where
  | string (s : String)
  | integer (n : Int)
  | boolean (b : Bool)

abbrev Pair := String × Scalar

/-- A character that no string has as it is. -/
def Control (c : Char) : Prop :=
  c.toNat < 0x20 ∧ c ≠ '\t' ∨ c.toNat = 0x7F

def shortEscapes : List (Char × Char) :=
  [('b', '\x08'), ('t', '\t'), ('n', '\n'), ('f', '\x0C'), ('r', '\r'),
    ('"', '"'), ('\\', '\\')]

def hexDigits : List Char := "0123456789ABCDEF".toList

/-- The number that hexadecimal digits stand for. -/
def hexValue (digits : List Char) : Option Nat :=
  digits.foldlM (fun n c => (hexDigits.idxOf? c).map (16 * n + ·)) 0

/-- How a character can be written in a string. -/
inductive CharText : Char → List Char → Prop where
  | plain {c : Char} (hquote : c ≠ '"') (hslash : c ≠ '\\')
      (hcontrol : ¬ Control c) : CharText c [c]
  | short {c letter : Char} (hshort : (letter, c) ∈ shortEscapes) :
      CharText c ['\\', letter]
  | unicode {c : Char} {digits : List Char} (hlength : digits.length = 4)
      (hvalue : hexValue digits = some c.toNat) :
      CharText c ('\\' :: 'u' :: digits)

inductive StringText : List Char → List Char → Prop where
  | nil : StringText [] []
  | cons {c : Char} {s written text : List Char} (hc : CharText c written)
      (hs : StringText s text) : StringText (c :: s) (written ++ text)

inductive ScalarText : Scalar → List Char → Prop where
  | string {s : String} {text : List Char} (hs : StringText s.toList text) :
      ScalarText (.string s) ('"' :: (text ++ ['"']))
  | integer {n : Int} (hlow : -2 ^ 63 ≤ n) (hhigh : n < 2 ^ 63) :
      ScalarText (.integer n) (toString n).toList
  | boolean (b : Bool) : ScalarText (.boolean b) (toString b).toList

def isBare (c : Char) : Bool :=
  c.isAlphanum || c == '_' || c == '-'

/-- A key that stands without quotation marks. -/
def BareKey (key : String) : Prop :=
  key ≠ "" ∧ key.toList.all isBare = true

instance : DecidablePred BareKey := fun _ =>
  inferInstanceAs (Decidable (_ ∧ _))

/-- Lines of pairs, with blank ones between them. -/
inductive PairsText : List Pair → List Char → Prop where
  | nil : PairsText [] []
  | blank {pairs : List Pair} {text : List Char} (h : PairsText pairs text) :
      PairsText pairs ('\n' :: text)
  | cons {key : String} {v : Scalar} {written : List Char} {pairs : List Pair}
      {text : List Char} (hkey : BareKey key) (hv : ScalarText v written)
      (h : PairsText pairs text) :
      PairsText ((key, v) :: pairs)
        (key.toList ++ " = ".toList ++ written ++ '\n' :: text)

/-- A table with a header, and the tables of an array behind it. -/
structure Block where
  path : List String
  pairs : List Pair
  arrayKey : String
  elements : List (List Pair)

structure Document where
  pairs : List Pair
  blocks : List Block

def dotted (path : List String) : List Char :=
  List.intercalate ['.'] (path.map String.toList)

inductive ElementsText (path : List String) :
    List (List Pair) → List Char → Prop where
  | nil : ElementsText path [] []
  | blank {elements : List (List Pair)} {text : List Char}
      (h : ElementsText path elements text) :
      ElementsText path elements ('\n' :: text)
  | cons {pairs : List Pair} {body : List Char} {elements : List (List Pair)}
      {text : List Char} (hpairs : PairsText pairs body)
      (h : ElementsText path elements text) :
      ElementsText path (pairs :: elements)
        ("[[".toList ++ dotted path ++ "]]\n".toList ++ body ++ text)

inductive BlocksText : List Block → List Char → Prop where
  | nil : BlocksText [] []
  | blank {blocks : List Block} {text : List Char}
      (h : BlocksText blocks text) : BlocksText blocks ('\n' :: text)
  | cons {block : Block} {body items : List Char} {blocks : List Block}
      {text : List Char} (hpath : block.path ≠ [])
      (hbare : ∀ key ∈ block.path ++ [block.arrayKey], BareKey key)
      (hpairs : PairsText block.pairs body)
      (helements : ElementsText (block.path ++ [block.arrayKey]) block.elements
        items)
      (h : BlocksText blocks text) :
      BlocksText (block :: blocks)
        ("[".toList ++ dotted block.path ++ "]\n".toList ++ body ++ items ++
          text)

/-- The text of a document. -/
def Document.Text (doc : Document) (text : List Char) : Prop :=
  ∃ body rest, PairsText doc.pairs body ∧ BlocksText doc.blocks rest ∧
    text = body ++ rest

/-- The values that a document is read into. -/
structure Values (V : Type u) where
  scalar : Scalar → V
  array : List V → V
  table : Map String V → V
  asTable : V → Option (Map String V)

section Denote

variable {V : Type u} (values : Values V)

def entriesOf (pairs : List Pair) : List (String × V) :=
  pairs.map fun pair => (pair.1, values.scalar pair.2)

def Block.entries (block : Block) : List (String × V) :=
  entriesOf values block.pairs ++
    if block.elements.isEmpty then []
    else [(block.arrayKey, values.array (block.elements.map fun pairs =>
      values.table (Map.ofEntries (entriesOf values pairs))))]

def Block.value (block : Block) : V :=
  values.table (Map.ofEntries (block.entries values))

/-- A table under a path at which there is nothing yet. -/
def insertAt (v : V) : List String → Map String V → Option (Map String V)
  | [], _ => none
  | [key], t => if (t.get key).isNone then some (t.insert key v) else none
  | key :: next :: rest, t =>
      let held := match t.get key with
        | none => some Map.empty
        | some inner => values.asTable inner
      (held.bind (insertAt v (next :: rest))).map fun sub =>
        t.insert key (values.table sub)

/-- The table that a document stands for. -/
def Document.denote (doc : Document) : Option (Map String V) :=
  doc.blocks.foldlM
    (fun t block => insertAt values (block.value values) block.path t)
    (Map.ofEntries (entriesOf values doc.pairs))

end Denote

/-- The keys of a table with a header. -/
def Block.keys (block : Block) : List String :=
  block.pairs.map Prod.fst ++
    if block.elements.isEmpty then [] else [block.arrayKey]

/-- No key is given twice. -/
structure Document.Distinct (doc : Document) : Prop where
  pairs : (doc.pairs.map Prod.fst).Nodup
  blocks : ∀ block ∈ doc.blocks, block.keys.Nodup
  elements : ∀ block ∈ doc.blocks, ∀ pairs ∈ block.elements,
    (pairs.map Prod.fst).Nodup

theorem fst_entriesOf {V : Type u} (values : Values V) (pairs : List Pair) :
    (entriesOf values pairs).map Prod.fst = pairs.map Prod.fst := by
  rw [entriesOf, List.map_map]
  rfl

theorem Block.fst_entries {V : Type u} (values : Values V) (block : Block) :
    (block.entries values).map Prod.fst = block.keys := by
  rw [entries, keys, List.map_append, fst_entriesOf]
  cases block.elements <;> rfl

/-- A reader of documents. -/
def Reads {V : Type u} {ε : Type} (values : Values V)
    (read : String → Except ε V) : Prop :=
  ∀ (doc : Document) text t, doc.Text text.toList → doc.Distinct →
    doc.denote values = some t → read text = .ok (values.table t)

section Texts

theorem PairsText.append {first second : List Pair} {text more : List Char}
    (h : PairsText first text) (hmore : PairsText second more) :
    PairsText (first ++ second) (text ++ more) := by
  induction h with
  | nil => exact hmore
  | blank _ ih => exact .blank ih
  | cons hkey hv _ ih =>
      rw [List.append_assoc _ _ more, List.cons_append]
      exact .cons hkey hv ih

theorem PairsText.one {key : String} {v : Scalar} {written : List Char}
    (hkey : BareKey key) (hv : ScalarText v written) :
    PairsText [(key, v)] (key.toList ++ " = ".toList ++ written ++ ['\n']) :=
  .cons hkey hv .nil

end Texts

end TomlText
