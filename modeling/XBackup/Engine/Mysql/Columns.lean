/-
What a column stores of the literals that a dump and a binlog render for it, in
a session with `NAMES utf8mb4` and the time zone +00:00.
-/
import XBackup.Engine.Mysql.Literals
import XBackup.Foundation.Framing

namespace XBackup

namespace Mysql

open Bytes SqlLiterals EscapedText Framing

section Kinds

/-- The bytes that a character set writes for a character. -/
structure Charset where
  encode : Char → List UInt8

/-- Numbers that the server shows by names, and reads back. -/
structure Named where
  shown : Nat → List Char
  read : List Char → Option Nat
  Member : Nat → Prop
  read_shown : ∀ n, Member n → read (shown n) = some n

/-- The instants of a TIMESTAMP, in microseconds; 0 is the one that is none. -/
structure Instants extends Named where
  member_zero : Member 0
  shown_zero : shown 0 = ZERO_TIME

inductive ColumnKind where
  | text (charset : Charset)
  | binary
  | bit (width : Nat)
  | set (width : Nat) (members : Named)
  | enum (members : Named)
  | timestamp (instants : Instants)
  | json
  | number
  | clock

/-- What a column holds in a row: bytes, a number that has a name, or what is
told apart by how it is shown, such as a decimal or a document. -/
inductive Cell where
  | null
  | bytes (b : List UInt8)
  | index (n : Nat)
  | shown (chars : List Char)
deriving DecidableEq, Repr

/-- Microseconds of a decimal number of seconds. -/
def unixMicros (digits : List Char) : Nat :=
  let fraction := (digits.dropWhile Char.isDigit).tail
  Nat.ofDigitChars 10 (digits.takeWhile Char.isDigit) 0 * 10 ^ 6 +
    Nat.ofDigitChars 10 (fraction ++ List.replicate (6 - fraction.length) '0') 0

/-- What a column stores of a literal: characters in its character set, and
bytes as they are. -/
def store (kind : ColumnKind) (literal : SqlLiterals.Literal) : Option Cell :=
  match kind, literal with
  | _, .null => some .null
  | .text charset, .text chars => some (.bytes (chars.flatMap charset.encode))
  | .text _, .hex b => some (.bytes b)
  | .binary, .text chars => some (.bytes (encodeChars chars))
  | .binary, .hex b => some (.bytes b)
  | .bit width, .hex b => some (.bytes (bigEndian width (ofBigEndian b)))
  | .bit width, .number digits =>
      some (.bytes (bigEndian width (Nat.ofDigitChars 10 digits 0)))
  | .set width _, .number digits =>
      some (.bytes (littleEndian width (Nat.ofDigitChars 10 digits 0)))
  | .set width members, .text chars =>
      (members.read chars).map fun mask => .bytes (littleEndian width mask)
  | .enum _, .number digits => some (.index (Nat.ofDigitChars 10 digits 0))
  | .enum members, .text chars => (members.read chars).map .index
  | .timestamp _, .fromUnixTime digits => some (.index (unixMicros digits))
  | .timestamp instants, .text chars => (instants.read chars).map .index
  | .json, .text chars => some (.shown chars)
  | .json, .json chars => some (.shown chars)
  | .number, .number digits => some (.shown digits)
  | .number, .text chars =>
      if isNumeral chars then some (.shown chars) else none
  | .clock, .text chars => some (.shown chars)
  | _, _ => none

/-- The text is one literal, and the column stores the cell for it. -/
def Denotes (kind : ColumnKind) (text : String) (cell : Cell) : Prop :=
  ∃ literal, scan text.toList = some (literal, []) ∧
    store kind literal = some cell

theorem denotes_iff_store {kind : ColumnKind} {text : String} {cell : Cell}
    {literal : SqlLiterals.Literal} (hlit : Says text.toList literal) :
    Denotes kind text cell ↔ store kind literal = some cell := by
  constructor
  · rintro ⟨other, hscan, hstore⟩
    rw [hlit.alone] at hscan
    cases hscan
    exact hstore
  · exact fun hstore => ⟨literal, hlit.alone, hstore⟩

end Kinds

section Captured

/-- The seconds since the epoch as a binlog's reader tells them. -/
def secondsText (micros : Nat) : List Char :=
  let seconds := Nat.toDigits 10 (micros / 10 ^ 6)
  if micros % 10 ^ 6 = 0 then seconds
  else seconds ++ '.' :: (padded 6 (micros % 10 ^ 6)).toList

/-- The values that the events of a binlog carry for the cells of a column, with
the type that they tell of it. -/
inductive Captures : ColumnKind → Cell → Option ColumnType → Value → Prop
  | null {kind type} : Captures kind .null type .null
  | text {charset b type} (htype : ¬ Corrected type) :
      Captures (.text charset) (.bytes b) type (.bytes b)
  | binary {b type} (htype : ¬ Corrected type) :
      Captures .binary (.bytes b) type (.bytes b)
  | bit {b} : Captures (.bit b.length) (.bytes b) (some .bit) (.bytes b)
  | set {b members} (hmask : b.length ≤ 8) :
      Captures (.set b.length members) (.bytes b) (some .set) (.bytes b)
  | enum {members type} {i : Int64} {n : Nat} (hmember : i.toInt = n) :
      Captures (.enum members) (.index n) type (.int i)
  | timestamp {instants micros type}
      (htype : type = some .timestamp ∨ type = some .timestamp2) :
      Captures (.timestamp instants) (.index micros) type
        (.bytes (encodeChars (secondsText micros)))
  | json {chars type} (htype : ¬ Corrected type) :
      Captures .json (.shown chars) type (.bytes (encodeChars chars))
  | decimal {chars type} (htype : ¬ Corrected type)
      (hnumeral : isNumeral chars = true) :
      Captures .number (.shown chars) type (.bytes (encodeChars chars))
  | int {i type} : Captures .number (.shown (toString i).toList) type (.int i)
  | uint {u type} : Captures .number (.shown (toString u).toList) type (.uint u)
  | float {shown type} (hnumeral : isNumeral shown.toList = true) :
      Captures .number (.shown shown.toList) type (.float shown)
  | double {shown type} (hnumeral : isNumeral shown.toList = true) :
      Captures .number (.shown shown.toList) type (.double shown)
  | date {y mo d h mi s us type} :
      Captures .clock (.shown (datetimeText y mo d h mi s us).toList) type
        (.date y mo d h mi s us)
  | time {neg days h mi s us type} :
      Captures .clock (.shown (timeText neg days h mi s us).toList) type
        (.time neg days h mi s us)

/-- The values that a query delivers in UTF-8 for the cells of a column, with
the category of its type. -/
inductive Delivers : ColumnKind → Cell → ColCategory → Value → Prop
  | null {kind cat} : Delivers kind .null cat .null
  | text {charset chars} :
      Delivers (.text charset) (.bytes (chars.flatMap charset.encode)) .text
        (.bytes (encodeChars chars))
  | binary {b} : Delivers .binary (.bytes b) .binary (.bytes b)
  | bit {b} (hb : b ≠ []) :
      Delivers (.bit b.length) (.bytes b) .binary (.bytes b)
  | set {width members mask} (hmember : members.Member mask) :
      Delivers (.set width members) (.bytes (littleEndian width mask)) .text
        (.bytes (encodeChars (members.shown mask)))
  | enum {members n} (hmember : members.Member n) :
      Delivers (.enum members) (.index n) .text
        (.bytes (encodeChars (members.shown n)))
  | timestamp {instants micros} (hmember : instants.Member micros) :
      Delivers (.timestamp instants) (.index micros) .text
        (.bytes (encodeChars (instants.shown micros)))
  | json {chars} :
      Delivers .json (.shown chars) .json (.bytes (encodeChars chars))
  | number {chars} (hnumeral : isNumeral chars = true) :
      Delivers .number (.shown chars) .numeric (.bytes (encodeChars chars))
  | clock {chars} :
      Delivers .clock (.shown chars) .text (.bytes (encodeChars chars))

/-- Where the bytes of a text are UTF-8, the column writes the same ones for
their characters. -/
def Keeps : ColumnKind → Cell → Prop
  | .text charset, .bytes b =>
      ∀ chars, encodeChars chars = b → chars.flatMap charset.encode = b
  | _, _ => True

end Captured

section Delivered

variable {kind : ColumnKind} {cell : Cell} {cat : ColCategory} {v : Value}

theorem Delivers.delivered (hdelivers : Delivers kind cell cat v) :
    Delivered v cat ∧ v.Exact cat := by
  have htext : ∀ chars : List Char,
      (Value.bytes (encodeChars chars)).Exact cat := by
    intro chars b hb _
    cases hb
    exact isText_encodeChars chars
  have hother : ∀ b, cat ≠ .numeric → Delivered (.bytes b) cat :=
    fun b hcat => ⟨.inr ⟨b, rfl⟩, trivial, fun _ _ heq => absurd heq hcat⟩
  cases hdelivers with
  | null =>
      exact ⟨⟨.inl rfl, trivial, fun b hb => by cases hb⟩,
        fun b hb => by cases hb⟩
  | number hnumeral =>
      refine ⟨⟨.inr ⟨_, rfl⟩, trivial, fun b hb _ => ?_⟩, htext _⟩
      cases hb
      rw [lossy_text]
      exact hnumeral
  | binary | bit =>
      exact ⟨hother _ (by decide), fun b _ hbinary => absurd rfl hbinary⟩
  | text | set | enum | timestamp | json | clock =>
      exact ⟨hother _ (by decide), htext _⟩

/-- A dump's literal is stored as the cell that it was rendered of. -/
theorem Delivers.denotes (hdelivers : Delivers kind cell cat v) :
    Denotes kind (renderValue v cat) cell := by
  rw [denotes_iff_store (says_renderValue hdelivers.delivered.1.2)]
  have hlit : ∀ chars : List Char,
      valueLiteral (.bytes (encodeChars chars)) .text = .text chars ∧
        valueLiteral (.bytes (encodeChars chars)) .json = .json chars ∧
        valueLiteral (.bytes (encodeChars chars)) .numeric = .number chars := by
    intro chars
    simp only [valueLiteral, bytesLiteral, lossy_text, and_self]
  cases hdelivers with
  | null => cases kind <;> rfl
  | text =>
      rw [(hlit _).1]
      rfl
  | @binary b =>
      rw [valueLiteral, bytesLiteral]
      split
      next hb => rw [List.isEmpty_iff.mp hb]; rfl
      next => rfl
  | @bit b hb =>
      rw [valueLiteral, bytesLiteral,
        if_neg (mt List.isEmpty_iff.mp hb), store, bigEndian_ofBigEndian]
  | set hmember =>
      rw [(hlit _).1, store, Named.read_shown _ _ hmember]
      rfl
  | enum hmember =>
      rw [(hlit _).1, store, Named.read_shown _ _ hmember]
      rfl
  | timestamp hmember =>
      rw [(hlit _).1, store, Named.read_shown _ _ hmember]
      rfl
  | json =>
      rw [(hlit _).2.1]
      rfl
  | number =>
      rw [(hlit _).2.2]
      rfl
  | clock =>
      rw [(hlit _).1]
      rfl

end Delivered

section Seconds

theorem digits_toDigits (n : Nat) :
    ∀ c ∈ Nat.toDigits 10 n, c.isDigit = true :=
  fun _ hc => Nat.isDigit_of_mem_toDigits (by decide) (by decide) hc

/-- The six digits of a fraction. -/
theorem padded_fraction {n : Nat} (hn : n < 10 ^ 6) :
    (padded 6 n).toList.length = 6 ∧
      (∀ c ∈ (padded 6 n).toList, c.isDigit = true) ∧
      Nat.ofDigitChars 10 (padded 6 n).toList 0 = n := by
  have hlength : (toString n).length ≤ 6 := by
    rw [← String.length_toList, toList_toString]
    exact (Nat.length_toDigits_le_iff (by decide) (by decide)).mpr hn
  have htext : (padded 6 n).toList =
      List.replicate (6 - (toString n).length) '0' ++ Nat.toDigits 10 n := by
    rw [padded, String.toList_append, String.toList_ofList, toList_toString]
  have hdigits : (Nat.toDigits 10 n).length = (toString n).length := by
    rw [← String.length_toList, toList_toString]
  rw [htext]
  refine ⟨?_, fun c hc => ?_, ?_⟩
  · rw [List.length_append, List.length_replicate, hdigits]
    omega
  · rcases List.mem_append.mp hc with hzero | hdigit
    · rw [(List.mem_replicate.mp hzero).2]
      decide
    · exact digits_toDigits n c hdigit
  · rw [Nat.ofDigitChars_append, Nat.ofDigitChars_replicate_zero, Nat.mul_zero,
      Nat.ofDigitChars_ten_toDigits]

theorem isNumeral_secondsText (micros : Nat) :
    isNumeral (secondsText micros) = true := by
  obtain ⟨hlength, hfraction, -⟩ :=
    padded_fraction (Nat.mod_lt micros (by decide : 0 < 10 ^ 6))
  have hdigits := digits_toDigits (micros / 10 ^ 6)
  rw [secondsText]
  split
  next => exact (isNumeral_digits Nat.toDigits_ne_nil hdigits).1
  next =>
    refine isNumeral_fraction Nat.toDigits_ne_nil hdigits ?_ hfraction
    intro hnil
    rw [hnil] at hlength
    cases hlength

theorem unixMicros_secondsText (micros : Nat) :
    unixMicros (secondsText micros) = micros := by
  obtain ⟨hlength, -, hfraction⟩ :=
    padded_fraction (Nat.mod_lt micros (by decide : 0 < 10 ^ 6))
  have hdigits := digits_toDigits (micros / 10 ^ 6)
  have hparts := Nat.div_add_mod' micros (10 ^ 6)
  rw [secondsText]
  split
  next hwhole =>
    obtain ⟨htake, hdrop⟩ := @takeWhile_front Char.isDigit
      (Nat.toDigits 10 (micros / 10 ^ 6)) [] hdigits fun c hc => by cases hc
    rw [List.append_nil] at htake hdrop
    simp only [unixMicros, htake, hdrop, List.tail_nil, List.length_nil,
      List.nil_append, Nat.ofDigitChars_ten_toDigits,
      Nat.ofDigitChars_replicate_zero, Nat.mul_zero]
    rw [hwhole] at hparts
    exact hparts
  next =>
    have hpoint : ∀ c ∈ ('.' :: (padded 6 (micros % 10 ^ 6)).toList).head?,
        c.isDigit = false := by
      intro c hc
      cases hc
      decide
    obtain ⟨htake, hdrop⟩ := takeWhile_front hdigits hpoint
    simp only [unixMicros, htake, hdrop, List.tail_cons, hlength, Nat.sub_self,
      List.replicate_zero, List.append_nil, hfraction,
      Nat.ofDigitChars_ten_toDigits]
    exact hparts

theorem secondsText_eq_zero_iff (micros : Nat) :
    secondsText micros = ['0'] ↔ micros = 0 := by
  constructor
  · intro htext
    have hmicros := unixMicros_secondsText micros
    rw [htext] at hmicros
    exact hmicros.symm
  · rintro rfl
    rfl

end Seconds

section Mask

theorem or_shift {n byte i : Nat} (hn : n < 2 ^ (8 * i)) :
    n ||| byte <<< (8 * i) = n + 2 ^ (8 * i) * byte := by
  rw [Nat.or_comm, ← Nat.shiftLeft_add_eq_or_of_lt hn, Nat.shiftLeft_eq]
  ring

theorem ofLittleEndian_cons (byte : UInt8) (b : List UInt8) :
    ofLittleEndian (byte :: b) = byte.toNat + 256 * ofLittleEndian b := by
  rw [ofLittleEndian, ofLittleEndian, List.reverse_cons, ofBigEndian,
    List.foldl_append]
  change ofBigEndian b.reverse * 256 + byte.toNat = _
  ring

/-- The bits of every byte stand over those before it. -/
theorem foldl_mask (b : List UInt8) {i n : Nat} (hn : n < 2 ^ (8 * i)) :
    (b.zipIdx i).foldl (fun n (byte, i) => n ||| byte.toNat <<< (8 * i)) n =
      n + 2 ^ (8 * i) * ofLittleEndian b := by
  induction b generalizing i n with
  | nil => rfl
  | cons byte b ih =>
      have hbyte := byte.toNat_lt
      have hpow : 2 ^ (8 * (i + 1)) = 2 ^ (8 * i) * 256 := by
        rw [Nat.mul_succ, Nat.pow_add]
      have hnext : n + 2 ^ (8 * i) * byte.toNat < 2 ^ (8 * (i + 1)) := by
        rw [hpow]
        nlinarith
      rw [List.zipIdx_cons, List.foldl_cons]
      change (b.zipIdx (i + 1)).foldl _ (n ||| byte.toNat <<< (8 * i)) = _
      rw [or_shift hn, ih hnext, ofLittleEndian_cons, hpow]
      ring

theorem setMask_eq {b : List UInt8} (hb : b.length ≤ 8) :
    setMask b = ofLittleEndian b := by
  have hmask := @foldl_mask b 0 0 (by decide)
  rw [setMask, List.take_of_length_le hb, hmask]
  omega

theorem littleEndian_ofLittleEndian (b : List UInt8) :
    littleEndian b.length (ofLittleEndian b) = b := by
  rw [littleEndian, ofLittleEndian, ← List.length_reverse,
    bigEndian_ofBigEndian, List.reverse_reverse]

end Mask

section Captured

variable {kind : ColumnKind} {cell : Cell} {type : Option ColumnType}
  {v : Value}

theorem Captures.timed (hcaptures : Captures kind cell type v) :
    v.Timed type := by
  have hplain : ∀ b, ¬ Corrected type → (Value.bytes b).Timed type := by
    refine fun b htype => ⟨trivial, fun _ _ htime => absurd ?_ htype⟩
    rcases htime with hold | hnew
    · exact .inr (.inr (.inr hold))
    · exact .inr (.inr (.inl hnew))
  cases hcaptures with
  | text htype | binary htype | json htype => exact hplain _ htype
  | decimal htype => exact hplain _ htype
  | bit | set =>
      refine ⟨trivial, fun b _ htime => ?_⟩
      rcases htime with hold | hnew
      · cases hold
      · cases hnew
  | timestamp =>
      refine ⟨trivial, fun b hb _ => ?_⟩
      cases hb
      rw [lossy_text]
      exact isNumeral_secondsText _
  | float hnumeral | double hnumeral =>
      exact ⟨hnumeral, fun b hb => by cases hb⟩
  | null | enum | int | uint | date | time =>
      exact ⟨trivial, fun b hb => by cases hb⟩

/-- The bytes of a text that is not rendered in hexadecimal come back if and
only if its characters are written as them. -/
theorem store_text_iff {charset : Charset} {b : List UInt8} :
    store (.text charset) (autoLiteral (.bytes b)) = some (.bytes b) ↔
      Keeps (.text charset) (.bytes b) := by
  rw [autoLiteral]
  split
  next hvalid =>
    obtain ⟨text, htext⟩ := Option.isSome_iff_exists.mp hvalid
    have hb : encodeChars text.toList = b := fromUtf8_eq_some_iff.mp htext
    subst hb
    rw [lossy_text, store]
    constructor
    · intro hstore chars hchars
      have hsame : chars = text.toList := by
        rw [← lossy_text chars, hchars, lossy_text]
      rw [hsame]
      exact Cell.bytes.inj (Option.some.inj hstore)
    · exact fun hkeeps => congrArg (some ∘ Cell.bytes) (hkeeps _ rfl)
  next hvalid =>
    have hkeeps : Keeps (.text charset) (.bytes b) := by
      intro chars hchars
      have htext := fromUtf8_eq_some_iff.mpr
        ((utf8_ofList chars).trans hchars)
      rw [htext] at hvalid
      exact absurd rfl hvalid
    refine iff_of_true ?_ hkeeps
    split
    next hb => rw [List.isEmpty_iff.mp hb]; rfl
    next => rfl

theorem store_auto {chars : List Char} :
    autoLiteral (.bytes (encodeChars chars)) = .text chars := by
  have hvalid : (Bytes.fromUtf8 (encodeChars chars)).isSome = true := by
    rw [fromUtf8_eq_some_iff.mpr (utf8_ofList chars)]
    rfl
  rw [autoLiteral, if_pos hvalid, lossy_text]

theorem store_binary (b : List UInt8) :
    store .binary (autoLiteral (.bytes b)) = some (.bytes b) := by
  rw [autoLiteral]
  split
  next hvalid =>
    obtain ⟨text, htext⟩ := Option.isSome_iff_exists.mp hvalid
    have hb : encodeChars text.toList = b := fromUtf8_eq_some_iff.mp htext
    rw [store, ← hb, lossy_text]
  next =>
    split
    next hb => rw [List.isEmpty_iff.mp hb]; rfl
    next => rfl

theorem store_timestamp (instants : Instants) (micros : Nat) :
    store (.timestamp instants)
      (timestampLiteral (encodeChars (secondsText micros))) =
        some (.index micros) := by
  rw [timestampLiteral, lossy_text]
  split
  next hzero =>
    obtain rfl := (secondsText_eq_zero_iff micros).mp hzero
    rw [store, ← instants.shown_zero,
      instants.read_shown 0 instants.member_zero]
    rfl
  next => rw [store, unixMicros_secondsText]

theorem ofDigitChars_int {i : Int64} {n : Nat} (hmember : i.toInt = n) :
    Nat.ofDigitChars 10 (toString i).toList 0 = n := by
  have htext : toString i = toString n := by
    change toString i.toInt = toString n
    rw [hmember]
    rfl
  rw [htext, toList_toString, Nat.ofDigitChars_ten_toDigits]

/-- A binlog's literal is stored as the cell that it was rendered of, if and
only if a column of texts keeps it. -/
theorem Captures.denotes_iff (hcaptures : Captures kind cell type v) :
    Denotes kind (renderBinlogValue v type) cell ↔ Keeps kind cell := by
  rw [denotes_iff_store (says_renderBinlogValue hcaptures.timed)]
  have hauto : ∀ b, ¬ Corrected type →
      binlogLiteral (.bytes b) type = autoLiteral (.bytes b) :=
    fun b htype => binlogLiteral_auto fun _ _ => htype
  have hother : (∀ b, v ≠ .bytes b) →
      binlogLiteral v type = otherLiteral v := by
    intro hbytes
    rw [binlogLiteral_auto fun b hb => absurd hb (hbytes b)]
    exact (@renderValue_other v .text hbytes).2.2
  cases hcaptures with
  | text htype =>
      rw [hauto _ htype]
      exact store_text_iff
  | binary htype =>
      rw [hauto _ htype]
      exact iff_of_true (store_binary _) trivial
  | @bit b =>
      refine iff_of_true ?_ trivial
      rw [binlogLiteral]
      split
      next hb => rw [List.isEmpty_iff.mp hb]; rfl
      next => rw [store, bigEndian_ofBigEndian]
  | set hmask =>
      refine iff_of_true ?_ trivial
      rw [binlogLiteral, store, Nat.ofDigitChars_ten_toDigits,
        setMask_eq hmask, littleEndian_ofLittleEndian]
  | timestamp htype =>
      refine iff_of_true ?_ trivial
      rcases htype with rfl | rfl
      · exact store_timestamp _ _
      · exact store_timestamp _ _
  | json htype =>
      refine iff_of_true ?_ trivial
      rw [hauto _ htype, store_auto]
      rfl
  | decimal htype hnumeral =>
      refine iff_of_true ?_ trivial
      rw [hauto _ htype, store_auto, store, if_pos hnumeral]
  | enum hmember =>
      refine iff_of_true ?_ trivial
      rw [hother fun b hb => by cases hb]
      rw [otherLiteral, store, ofDigitChars_int hmember]
  | null =>
      rw [hother fun b hb => by cases hb]
      cases kind <;> exact iff_of_true rfl trivial
  | int | uint | float | double | date | time =>
      rw [hother fun b hb => by cases hb]
      exact iff_of_true rfl trivial

end Captured

section Charsets

variable {charset : Charset} {b : List UInt8}

def utf8mb4 : Charset where
  encode := String.utf8EncodeChar

theorem keeps_utf8mb4 (b : List UInt8) :
    Keeps (.text utf8mb4) (.bytes b) :=
  fun _ hchars => hchars

theorem utf8Size_pos_sum (chars : List Char) :
    chars.length ≤ (encodeChars chars).length := by
  induction chars with
  | nil => exact Nat.le_refl _
  | cons c chars ih =>
      have hc := c.utf8Size_pos
      rw [encodeChars_cons, List.length_append, String.length_utf8EncodeChar,
        List.length_cons]
      omega

theorem ascii_of_length {chars : List Char}
    (hlength : (encodeChars chars).length = chars.length) :
    ∀ byte ∈ encodeChars chars, byte.toNat < 128 := by
  induction chars with
  | nil => exact fun byte hbyte => by cases hbyte
  | cons c chars ih =>
      have hmore := utf8Size_pos_sum chars
      have hsize := String.length_utf8EncodeChar c
      have hpos := c.utf8Size_pos
      rw [encodeChars_cons] at hlength ⊢
      rw [List.length_append, List.length_cons, hsize] at hlength
      intro byte hbyte
      rcases List.mem_append.mp hbyte with hfirst | hrest
      · rcases encodeChar_cases c with ⟨hlow, hone⟩ |
          ⟨-, first, tail, htail, hleads, -⟩
        · rw [hone] at hfirst
          rw [List.mem_singleton.mp hfirst, toNat_ofNat_of_lt (by omega)]
          exact hlow
        · rw [htail, List.length_cons] at hsize
          rcases hleads with h | h | h <;> omega
      · exact ih (by omega) byte hrest

/-- A character set of one byte for each character keeps ASCII, and nothing else
that is UTF-8. -/
theorem keeps_iff_ascii
    (hascii : ∀ c : Char, c.toNat < 128 →
      charset.encode c = [UInt8.ofNat c.toNat])
    (hone : ∀ c, (charset.encode c).length = 1) :
    Keeps (.text charset) (.bytes b) ↔
      (IsText b → ∀ byte ∈ b, byte.toNat < 128) := by
  have hlength : ∀ chars : List Char,
      (chars.flatMap charset.encode).length = chars.length := by
    intro chars
    rw [List.length_flatMap, List.map_congr_left fun c _ => hone c]
    simp
  constructor
  · rintro hkeeps ⟨text, rfl⟩
    have hsame := hkeeps text.toList rfl
    refine @ascii_of_length text.toList ?_
    rw [← hlength text.toList, hsame]
    rfl
  · intro hall chars hchars
    have hlow := hall ⟨String.ofList chars, (utf8_ofList chars).trans hchars⟩
    subst hchars
    refine List.flatMap_congr fun c hc => ?_
    rcases encodeChar_cases c with ⟨hc, hself⟩ |
      ⟨-, first, tail, hself, hleads, -⟩
    · rw [hascii c hc, hself]
    · have hfirst := hlow first (List.mem_flatMap.mpr
        ⟨c, hc, hself ▸ List.mem_cons_self⟩)
      rcases hleads with h | h | h <;> omega

/-- The characters of latin1 from 0x80 on, up to those that are where Unicode
has them. -/
def latin1High : List Nat :=
  [0x20AC, 0x81, 0x201A, 0x192, 0x201E, 0x2026, 0x2020, 0x2021, 0x2C6, 0x2030,
    0x160, 0x2039, 0x152, 0x8D, 0x17D, 0x8F, 0x90, 0x2018, 0x2019, 0x201C,
    0x201D, 0x2022, 0x2013, 0x2014, 0x2DC, 0x2122, 0x161, 0x203A, 0x153, 0x9D,
    0x17E, 0x178]

/-- A character that latin1 does not have is a question mark. -/
def latin1 : Charset where
  encode c :=
    if c.toNat < 128 ∨ (160 ≤ c.toNat ∧ c.toNat < 256) then
      [UInt8.ofNat c.toNat]
    else
      match latin1High.idxOf? c.toNat with
      | some i => [UInt8.ofNat (128 + i)]
      | none => [0x3F]

end Charsets

section Literals

end Literals

end Mysql

end XBackup
