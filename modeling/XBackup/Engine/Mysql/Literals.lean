/-
What the literals of values say: each of them is read as one literal, whatever
bytes it is of, and those of a row say the row.
-/
import XBackup.Engine.Mysql.Value
import XBackup.Foundation.EscapedText

namespace XBackup

namespace Mysql

open Bytes SqlLiterals EscapedText

section Escaping

def escapeChar (c : Char) : List Char :=
  if c = '\'' then ['\\', '\'']
  else if c = '\\' then ['\\', '\\']
  else if c = Char.ofNat 0 then ['\\', '0']
  else if c = '\n' then ['\\', 'n']
  else if c = '\r' then ['\\', 'r']
  else if c = Char.ofNat 26 then ['\\', 'Z']
  else [c]

/-- A character stands for itself, or a backslash and one of ASCII stand for
it. -/
theorem escapeChar_cases (c : Char) :
    (escapeChar c = [c] ∧ c ≠ '\\' ∧ c ≠ '\'') ∨
      ∃ d, d.toNat < 128 ∧ escapeChar c = ['\\', d] ∧ unescape d = [c] := by
  rw [escapeChar]
  split
  next hc =>
    subst hc
    exact .inr ⟨'\'', by decide, rfl, by decide⟩
  next hquote =>
    split
    next hc =>
      subst hc
      exact .inr ⟨'\\', by decide, rfl, by decide⟩
    next hslash =>
      split
      next hc => exact .inr ⟨'0', by decide, rfl, hc ▸ rfl⟩
      next =>
        split
        next hc => exact .inr ⟨'n', by decide, rfl, hc ▸ rfl⟩
        next =>
          split
          next hc => exact .inr ⟨'r', by decide, rfl, hc ▸ rfl⟩
          next =>
            split
            next hc => exact .inr ⟨'Z', by decide, rfl, hc ▸ rfl⟩
            next => exact .inl ⟨rfl, hslash, hquote⟩

theorem escapes_escapeChar (c : Char) : Escapes (escapeChar c) c := by
  rcases escapeChar_cases c with hplain | ⟨d, -, hescaped, hd⟩
  · exact .inl hplain
  · exact .inr ⟨d, hescaped, hd⟩

theorem escapeChar_ascii {c : Char} (hc : c.toNat < 128) :
    escapeChar c ≠ [] ∧ ∀ d ∈ escapeChar c, d.toNat < 128 := by
  rcases escapeChar_cases c with ⟨hplain, -⟩ | ⟨d, hd, hescaped, -⟩
  · rw [hplain]
    exact ⟨List.cons_ne_nil _ _, List.forall_mem_singleton.mpr hc⟩
  · rw [hescaped]
    exact ⟨List.cons_ne_nil _ _, List.forall_mem_cons.mpr
      ⟨by decide, List.forall_mem_singleton.mpr hd⟩⟩

theorem escapeByte_low : ∀ n < 128, escapeByte (UInt8.ofNat n) =
    encodeChars (escapeChar (Char.ofNat n)) := by
  decide +kernel

theorem escapeByte_high {b : UInt8} (hb : IsHigh b) : escapeByte b = [b] := by
  have hother : ∀ c : UInt8, c.toNat < 128 → b ≠ c := by
    rintro c hc rfl
    exact absurd hc (Nat.not_lt.mpr hb)
  rw [escapeByte, if_neg (hother _ (by decide)), if_neg (hother _ (by decide)),
    if_neg (hother _ (by decide)), if_neg (hother _ (by decide)),
    if_neg (hother _ (by decide)), if_neg (hother _ (by decide))]

theorem escapeChar_high {c : Char} (hc : 128 ≤ c.toNat) :
    escapeChar c = [c] := by
  have hother : ∀ d : Char, d.toNat < 128 → c ≠ d := by
    rintro d hd rfl
    omega
  rw [escapeChar, if_neg (hother _ (by decide)), if_neg (hother _ (by decide)),
    if_neg (hother _ (by decide)), if_neg (hother _ (by decide)),
    if_neg (hother _ (by decide)), if_neg (hother _ (by decide))]

def escaping : Scheme where
  byte := escapeByte
  char := escapeChar
  high := fun _ => escapeByte_high
  plain := fun _ => escapeChar_high
  low := by
    intro b hb
    rw [← escapeByte_low b.toNat (Nat.not_le.mp hb), UInt8.ofNat_toNat]
  ascii := fun _ => escapeChar_ascii

/-- The escaped bytes are the escaped characters, and those of no text their
replacements. -/
theorem toList_escapeStr (b : List UInt8) :
    (escapeStr b).toList = (lossy b).flatMap escapeChar :=
  (toList_fromUtf8Lossy _).trans (escaping.lossy_flatMap b)

end Escaping

section Shown

def datetimeText (y : UInt16) (mo d h mi s : UInt8) (us : UInt32) : String :=
  let text := padded 4 y.toNat ++ "-" ++ padded 2 mo.toNat ++ "-" ++
    padded 2 d.toNat ++ " " ++ padded 2 h.toNat ++ ":" ++ padded 2 mi.toNat ++
      ":" ++ padded 2 s.toNat
  if 0 < us then text ++ "." ++ padded 6 us.toNat else text

def timeText (neg : Bool) (days : UInt32) (h mi s : UInt8) (us : UInt32) :
    String :=
  let sign := if neg then "-" else ""
  let hours := days * 24 + h.toUInt32
  let text := sign ++ padded 2 hours.toNat ++ ":" ++ padded 2 mi.toNat ++
    ":" ++ padded 2 s.toNat
  if 0 < us then text ++ "." ++ padded 6 us.toNat else text

theorem renderDatetime_eq (y : UInt16) (mo d h mi s : UInt8) (us : UInt32) :
    renderDatetime y mo d h mi s us =
      "'" ++ datetimeText y mo d h mi s us ++ "'" := by
  rw [renderDatetime, datetimeText]
  split <;> rfl

theorem renderTime_eq (neg : Bool) (days : UInt32) (h mi s : UInt8)
    (us : UInt32) :
    renderTime neg days h mi s us =
      "'" ++ timeText neg days h mi s us ++ "'" := by
  rw [renderTime, timeText]
  split <;> rfl

/-- Neither a quote nor a backslash. -/
def Unescaped (text : String) : Prop :=
  ∀ c ∈ text.toList, c ≠ '\\' ∧ c ≠ '\''

theorem Unescaped.append {left right : String} (hleft : Unescaped left)
    (hright : Unescaped right) : Unescaped (left ++ right) := by
  intro c hc
  rw [String.toList_append] at hc
  rcases List.mem_append.mp hc with hc | hc
  · exact hleft c hc
  · exact hright c hc

theorem unescaped_padded (width n : Nat) : Unescaped (padded width n) := by
  have hdigit : ∀ c : Char, c.isDigit = true → c ≠ '\\' ∧ c ≠ '\'' := by
    intro c hc
    constructor
    · rintro rfl
      cases hc
    · rintro rfl
      cases hc
  refine Unescaped.append (fun c hc => ?_) (fun c hc => ?_)
  · rw [String.toList_ofList] at hc
    rw [(List.mem_replicate.mp hc).2]
    decide
  · have htext : (toString n).toList = Nat.toDigits 10 n := Nat.toList_repr
    rw [htext] at hc
    exact hdigit c (Nat.isDigit_of_mem_toDigits (by decide) (by decide) hc)

theorem unescaped_datetimeText (y : UInt16) (mo d h mi s : UInt8)
    (us : UInt32) : Unescaped (datetimeText y mo d h mi s us) := by
  have hmark : Unescaped "-" ∧ Unescaped " " ∧ Unescaped ":" ∧
      Unescaped "." := by
    refine ⟨?_, ?_, ?_, ?_⟩ <;>
      exact List.forall_mem_singleton.mpr (by decide)
  obtain ⟨hdash, hblank, hcolon, hpoint⟩ := hmark
  have htext := (((((((((((unescaped_padded 4 y.toNat).append hdash).append
    (unescaped_padded 2 mo.toNat)).append hdash).append
    (unescaped_padded 2 d.toNat)).append hblank).append
    (unescaped_padded 2 h.toNat)).append hcolon).append
    (unescaped_padded 2 mi.toNat)).append hcolon).append
    (unescaped_padded 2 s.toNat))
  rw [datetimeText]
  split
  next => exact (htext.append hpoint).append (unescaped_padded 6 us.toNat)
  next => exact htext

theorem unescaped_timeText (neg : Bool) (days : UInt32) (h mi s : UInt8)
    (us : UInt32) : Unescaped (timeText neg days h mi s us) := by
  have hmark : Unescaped ":" ∧ Unescaped "." := by
    refine ⟨?_, ?_⟩ <;> exact List.forall_mem_singleton.mpr (by decide)
  obtain ⟨hcolon, hpoint⟩ := hmark
  have hsign : Unescaped (if neg then "-" else "") := by
    cases neg with
    | true => exact List.forall_mem_singleton.mpr (by decide)
    | false => exact fun c hc => by cases hc
  have htext := ((((hsign.append (unescaped_padded 2
    (days * 24 + h.toUInt32).toNat)).append hcolon).append
    (unescaped_padded 2 mi.toNat)).append hcolon).append
    (unescaped_padded 2 s.toNat)
  rw [timeText]
  split
  next => exact (htext.append hpoint).append (unescaped_padded 6 us.toNat)
  next => exact htext

end Shown

section Says

variable {v : Value} {cat : ColCategory} {type : Option ColumnType}

def bytesLiteral (b : List UInt8) : ColCategory → SqlLiterals.Literal
  | .numeric => .number (lossy b)
  | .binary => if b.isEmpty then .text [] else .hex b
  | .json => .json (lossy b)
  | .text => .text (lossy b)

/-- What the literal of a value that is no bytes says. -/
def otherLiteral : Value → SqlLiterals.Literal
  | .null => .null
  | .bytes b => .text (lossy b)
  | .int i => .number (toString i).toList
  | .uint u => .number (toString u).toList
  | .float shown => .number shown.toList
  | .double shown => .number shown.toList
  | .date y mo d h mi s us => .text (datetimeText y mo d h mi s us).toList
  | .time neg days h mi s us => .text (timeText neg days h mi s us).toList

def valueLiteral (v : Value) (cat : ColCategory) : SqlLiterals.Literal :=
  match v with
  | .bytes b => bytesLiteral b cat
  | v => otherLiteral v

def autoLiteral (v : Value) : SqlLiterals.Literal :=
  match v with
  | .bytes b =>
      if (Bytes.fromUtf8 b).isSome then .text (lossy b)
      else if b.isEmpty then .text []
      else .hex b
  | v => otherLiteral v

/-- The time that no TIMESTAMP is at. -/
def ZERO_TIME : List Char := "0000-00-00 00:00:00".toList

def timestampLiteral (b : List UInt8) : SqlLiterals.Literal :=
  if lossy b = ['0'] then .text ZERO_TIME else .fromUnixTime (lossy b)

def binlogLiteral (v : Value) (type : Option ColumnType) :
    SqlLiterals.Literal :=
  match v, type with
  | .bytes b, some .bit => if b.isEmpty then .number ['0'] else .hex b
  | .bytes b, some .set => .number (Nat.toDigits 10 (setMask b))
  | .bytes b, some .timestamp2 => timestampLiteral b
  | .bytes b, some .timestamp => timestampLiteral b
  | v, _ => autoLiteral v

/-- A floating-point number is shown as a decimal. -/
def Value.Decimal : Value → Prop
  | .float shown => isNumeral shown.toList = true
  | .double shown => isNumeral shown.toList = true
  | _ => True

/-- The bytes that a column of numbers delivers are those of a decimal. -/
def Value.Numeric (v : Value) (cat : ColCategory) : Prop :=
  v.Decimal ∧ ∀ b, v = .bytes b → cat = .numeric →
    isNumeral (lossy b) = true

/-- The bytes of a TIMESTAMP in a binlog are those of a decimal. -/
def Value.Timed (v : Value) (type : Option ColumnType) : Prop :=
  v.Decimal ∧ ∀ b, v = .bytes b →
    (type = some .timestamp ∨ type = some .timestamp2) →
      isNumeral (lossy b) = true

theorem says_number {digits : List Char} (hdigits : isNumeral digits = true) :
    Says digits (.number digits) :=
  fun _ => scan_number hdigits

theorem says_text {text : List Char} {escape : Char → List Char}
    (hescape : ∀ c ∈ text, Escapes (escape c) c) :
    Says ('\'' :: text.flatMap escape ++ ['\'']) (.text text) := by
  intro rest hends
  rw [List.append_assoc]
  exact scan_text hescape hends

theorem says_unescaped {text : String} (htext : Unescaped text) :
    Says ("'" ++ text ++ "'").toList (.text text.toList) := by
  have hlit := @says_text text.toList (fun c => [c])
    fun c hc => .inl ⟨rfl, htext c hc⟩
  rw [List.flatMap_singleton'] at hlit
  rw [String.toList_append, String.toList_append]
  exact hlit

theorem says_escapeStr (b : List UInt8) :
    Says ("'" ++ escapeStr b ++ "'").toList (.text (lossy b)) := by
  rw [String.toList_append, String.toList_append, toList_escapeStr]
  exact says_text fun c _ => escapes_escapeChar c

theorem says_hex {b : List UInt8} (hb : ¬ b.isEmpty = true) :
    Says ("0x" ++ hexEncode b).toList (.hex b) := by
  intro rest hends
  rw [String.toList_append, hexEncode, String.toList_ofList,
    String.toList_ofList]
  exact scan_hex (fun heq => hb (List.isEmpty_iff.mpr heq)) hends

theorem says_empty : Says "''".toList (.text []) :=
  @says_text [] escapeChar fun c hc => by cases hc

theorem says_json (b : List UInt8) :
    Says ("CAST('" ++ escapeStr b ++ "' AS JSON)").toList
      (.json (lossy b)) := by
  intro rest _
  have hread := @scan_json escapeChar (lossy b) rest
    fun c _ => escapes_escapeChar c
  rw [String.toList_append, String.toList_append, toList_escapeStr,
    List.append_assoc, List.append_assoc]
  exact hread

theorem isNumeral_nat (n : Nat) : isNumeral (Nat.toDigits 10 n) = true :=
  (isNumeral_digits Nat.toDigits_ne_nil fun _ hc =>
    Nat.isDigit_of_mem_toDigits (by decide) (by decide) hc).1

theorem toList_toString (n : Nat) : (toString n).toList = Nat.toDigits 10 n :=
  Nat.toList_repr

theorem isNumeral_int (i : Int) : isNumeral (toString i).toList = true := by
  cases i with
  | ofNat n =>
      change isNumeral (toString n).toList = true
      rw [toList_toString]
      exact isNumeral_nat n
  | negSucc n =>
      have htext : (toString (Int.negSucc n)).toList =
          '-' :: Nat.toDigits 10 (n + 1) := by
        change ("-" ++ toString (n + 1)).toList = _
        rw [String.toList_append, toList_toString]
        rfl
      rw [htext]
      exact (isNumeral_digits Nat.toDigits_ne_nil fun _ hc =>
        Nat.isDigit_of_mem_toDigits (by decide) (by decide) hc).2

/-- A value that is no bytes is rendered in one way. -/
theorem says_other (hdecimal : v.Decimal) (hbytes : ∀ b, v ≠ .bytes b) :
    Says (renderValueAuto v).toList (otherLiteral v) := by
  cases v with
  | null => exact fun _ => scan_null
  | bytes b => exact absurd rfl (hbytes b)
  | int i => exact says_number (isNumeral_int i.toInt)
  | uint u =>
      change Says (toString u.toNat).toList (.number (toString u.toNat).toList)
      rw [toList_toString]
      exact says_number (isNumeral_nat u.toNat)
  | float shown => exact says_number hdecimal
  | double shown => exact says_number hdecimal
  | date y mo d h mi s us =>
      rw [renderValueAuto, renderDatetime_eq]
      exact says_unescaped (unescaped_datetimeText y mo d h mi s us)
  | time neg days h mi s us =>
      rw [renderValueAuto, renderTime_eq]
      exact says_unescaped (unescaped_timeText neg days h mi s us)

theorem says_renderBytes {b : List UInt8}
    (hnumeric : cat = .numeric → isNumeral (lossy b) = true) :
    Says (renderBytes b cat).toList (bytesLiteral b cat) := by
  cases cat with
  | numeric =>
      rw [renderBytes, toList_fromUtf8Lossy]
      exact says_number (hnumeric rfl)
  | binary =>
      rw [renderBytes, bytesLiteral]
      split
      next => exact says_empty
      next hb => exact says_hex hb
  | json => exact says_json b
  | text => exact says_escapeStr b

theorem renderValue_other (hbytes : ∀ b, v ≠ .bytes b) :
    renderValue v cat = renderValueAuto v ∧
      valueLiteral v cat = otherLiteral v ∧ autoLiteral v = otherLiteral v := by
  cases v with
  | bytes b => exact absurd rfl (hbytes b)
  | null | int | uint | float | double | date | time => exact ⟨rfl, rfl, rfl⟩

theorem says_renderValue (hnumeric : v.Numeric cat) :
    Says (renderValue v cat).toList (valueLiteral v cat) := by
  rcases Classical.em (∃ b, v = .bytes b) with ⟨b, rfl⟩ | hother
  · exact says_renderBytes (hnumeric.2 b rfl)
  · have hbytes := not_exists.mp hother
    obtain ⟨hrender, hliteral, -⟩ := @renderValue_other v cat hbytes
    rw [hrender, hliteral]
    exact says_other hnumeric.1 hbytes

theorem says_renderValueAuto (hdecimal : v.Decimal) :
    Says (renderValueAuto v).toList (autoLiteral v) := by
  rcases Classical.em (∃ b, v = .bytes b) with ⟨b, rfl⟩ | hother
  · rw [renderValueAuto, autoLiteral]
    split
    next => exact says_escapeStr b
    next =>
      split
      next => exact says_empty
      next hb => exact says_hex hb
  · have hbytes := not_exists.mp hother
    rw [(@renderValue_other v .text hbytes).2.2]
    exact says_other hdecimal hbytes

theorem says_renderTimestamp {b : List UInt8}
    (hnumeral : isNumeral (lossy b) = true) :
    Says (renderBinlogValue.renderTimestamp b).toList (timestampLiteral b) := by
  have hzero : fromUtf8Lossy b = "0" ↔ lossy b = ['0'] := by
    rw [← toList_fromUtf8Lossy]
    exact String.toList_inj.symm
  rw [renderBinlogValue.renderTimestamp, timestampLiteral]
  by_cases hb : lossy b = ['0']
  · rw [if_pos hb, if_pos (hzero.mpr hb)]
    exact says_unescaped (fun c hc => by
      have hall : ZERO_TIME.all (fun c => c ≠ '\\' ∧ c ≠ '\'') = true := by
        decide +kernel
      exact of_decide_eq_true (List.all_eq_true.mp hall c hc))
  · rw [if_neg hb, if_neg (mt hzero.mp hb)]
    intro rest _
    rw [String.toList_append, String.toList_append, toList_fromUtf8Lossy,
      List.append_assoc, List.append_assoc]
    exact scan_unixTime hnumeral

/-- The types whose bytes are not those of the column. -/
def Corrected (type : Option ColumnType) : Prop :=
  type = some .bit ∨ type = some .set ∨ type = some .timestamp2 ∨
    type = some .timestamp

theorem renderBinlogValue_auto (hplain : ∀ b, v = .bytes b → ¬ Corrected type) :
    renderBinlogValue v type = renderValueAuto v := by
  rw [renderBinlogValue.eq_def]
  split
  next b => exact absurd (.inl rfl) (hplain b rfl)
  next b => exact absurd (.inr (.inl rfl)) (hplain b rfl)
  next b => exact absurd (.inr (.inr (.inl rfl))) (hplain b rfl)
  next b => exact absurd (.inr (.inr (.inr rfl))) (hplain b rfl)
  next => rfl

theorem binlogLiteral_auto (hplain : ∀ b, v = .bytes b → ¬ Corrected type) :
    binlogLiteral v type = autoLiteral v := by
  rw [binlogLiteral.eq_def]
  split
  next b => exact absurd (.inl rfl) (hplain b rfl)
  next b => exact absurd (.inr (.inl rfl)) (hplain b rfl)
  next b => exact absurd (.inr (.inr (.inl rfl))) (hplain b rfl)
  next b => exact absurd (.inr (.inr (.inr rfl))) (hplain b rfl)
  next => rfl

theorem says_renderBinlogValue (htimed : v.Timed type) :
    Says (renderBinlogValue v type).toList (binlogLiteral v type) := by
  rcases Classical.em (∃ b, v = .bytes b ∧ Corrected type) with
    ⟨b, rfl, hcorrected⟩ | hplain
  · rcases hcorrected with rfl | rfl | rfl | rfl
    · rw [renderBinlogValue, binlogLiteral]
      split
      next => exact says_number rfl
      next hb => exact says_hex hb
    · rw [renderBinlogValue, binlogLiteral, toList_toString]
      exact says_number (isNumeral_nat _)
    · exact says_renderTimestamp (htimed.2 b rfl (.inr rfl))
    · exact says_renderTimestamp (htimed.2 b rfl (.inl rfl))
  · have hauto : ∀ b, v = .bytes b → ¬ Corrected type :=
      fun b hb hcorrected => hplain ⟨b, hb, hcorrected⟩
    rw [renderBinlogValue_auto hauto, binlogLiteral_auto hauto]
    exact says_renderValueAuto htimed.1

end Says

section Mended

variable {v w : Value} {cat : ColCategory} {b : List UInt8}

theorem isText_encodeChars (chars : List Char) : IsText (encodeChars chars) :=
  ⟨String.ofList chars, utf8_ofList chars⟩

theorem encodeChars_lossy (hb : IsText b) : encodeChars (lossy b) = b := by
  obtain ⟨text, rfl⟩ := hb
  exact congrArg encodeChars (lossy_text text.toList)

/-- Bytes that are escaped or stand for a number are those of a text. -/
def Value.Exact (v : Value) (cat : ColCategory) : Prop :=
  ∀ b, v = .bytes b → cat ≠ .binary → IsText b

/-- The value with replacement characters for all that is no text. -/
def Value.mend (v : Value) (cat : ColCategory) : Value :=
  match v with
  | .bytes b => if cat = .binary then v else .bytes (encodeChars (lossy b))
  | v => v

theorem Value.exact_mend : (v.mend cat).Exact cat := by
  intro b hb hbinary
  cases v with
  | bytes other =>
      rw [mend, if_neg hbinary] at hb
      cases hb
      exact isText_encodeChars _
  | null | int | uint | float | double | date | time => cases hb

theorem Value.exact_of_mend (hsame : v.mend cat = v) : v.Exact cat :=
  hsame ▸ Value.exact_mend

theorem fromUtf8Lossy_mend :
    fromUtf8Lossy (encodeChars (lossy b)) = fromUtf8Lossy b := by
  rw [← String.toList_inj, toList_fromUtf8Lossy, lossy_text,
    toList_fromUtf8Lossy]

theorem escapeStr_mend : escapeStr (encodeChars (lossy b)) = escapeStr b := by
  rw [← String.toList_inj, toList_escapeStr, toList_escapeStr, lossy_text]

theorem renderValue_mend :
    renderValue (v.mend cat) cat = renderValue v cat := by
  cases v with
  | bytes b =>
      rw [Value.mend]
      split
      next => rfl
      next hbinary =>
        cases cat with
        | numeric => exact fromUtf8Lossy_mend
        | binary => exact absurd rfl hbinary
        | json =>
            rw [renderValue, renderValue, renderBytes, renderBytes,
              escapeStr_mend]
        | text =>
            rw [renderValue, renderValue, renderBytes, renderBytes,
              escapeStr_mend]
  | null | int | uint | float | double | date | time => rfl

end Mended

section Rows

variable {row other : List Value} {plan : List ColCategory}

/-- What a query delivers for a column: nothing, or bytes. -/
def Delivered (v : Value) (cat : ColCategory) : Prop :=
  (v = .null ∨ ∃ b, v = .bytes b) ∧ v.Numeric cat

theorem Delivered.mend {v : Value} {cat : ColCategory}
    (hdelivered : Delivered v cat) : Delivered (v.mend cat) cat := by
  obtain ⟨rfl | ⟨b, rfl⟩, hnumeric⟩ := hdelivered
  · exact ⟨.inl rfl, hnumeric⟩
  · rw [Value.mend]
    split
    next => exact ⟨.inr ⟨b, rfl⟩, hnumeric⟩
    next =>
      refine ⟨.inr ⟨_, rfl⟩, trivial, fun other hother hcat => ?_⟩
      cases hother
      rw [lossy_text]
      exact hnumeric.2 b rfl hcat

theorem bytesLiteral_ne_null (b : List UInt8) (cat : ColCategory) :
    bytesLiteral b cat ≠ .null := by
  cases cat with
  | binary =>
      rw [bytesLiteral]
      split <;> exact fun heq => by cases heq
  | numeric | json | text => exact fun heq => by cases heq

/-- What a literal says is one value. -/
theorem valueLiteral_inj {v w : Value} {cat : ColCategory}
    (hv : Delivered v cat) (hw : Delivered w cat) (hvexact : v.Exact cat)
    (hwexact : w.Exact cat)
    (hsame : valueLiteral v cat = valueLiteral w cat) : v = w := by
  obtain ⟨rfl | ⟨b, rfl⟩, -⟩ := hv
  · obtain ⟨rfl | ⟨b, rfl⟩, -⟩ := hw
    · rfl
    · exact absurd hsame.symm (bytesLiteral_ne_null b cat)
  · obtain ⟨rfl | ⟨c, rfl⟩, -⟩ := hw
    · exact absurd hsame (bytesLiteral_ne_null b cat)
    · have htext : cat ≠ .binary → lossy b = lossy c →
          Value.bytes b = .bytes c := by
        intro hcat hchars
        rw [← encodeChars_lossy (hvexact b rfl hcat), hchars,
          encodeChars_lossy (hwexact c rfl hcat)]
      cases cat with
      | numeric =>
          exact htext (by decide) (SqlLiterals.Literal.number.inj hsame)
      | json => exact htext (by decide) (SqlLiterals.Literal.json.inj hsame)
      | text => exact htext (by decide) (SqlLiterals.Literal.text.inj hsame)
      | binary =>
          change bytesLiteral b .binary = bytesLiteral c .binary at hsame
          rw [bytesLiteral, bytesLiteral] at hsame
          split at hsame
          next hb =>
            split at hsame
            next hc => rw [List.isEmpty_iff.mp hb, List.isEmpty_iff.mp hc]
            next => cases hsame
          next =>
            split at hsame
            next => cases hsame
            next => rw [SqlLiterals.Literal.hex.inj hsame]

/-- A row that a query delivers, a value for every column. -/
def DeliveredRow (row : List Value) (plan : List ColCategory) : Prop :=
  List.Forall₂ Delivered row plan

def ExactRow (row : List Value) (plan : List ColCategory) : Prop :=
  List.Forall₂ Value.Exact row plan

theorem map_zipIdx (front : List Value) (hlength : row.length = plan.length) :
    (plan.zipIdx front.length).map (fun (cat, i) =>
      renderValue ((front ++ row)[i]?.getD .null) cat) =
        List.zipWith renderValue row plan := by
  induction plan generalizing front row with
  | nil => rw [List.zipWith_nil_right]; rfl
  | cons cat plan ih =>
      cases row with
      | nil => cases hlength
      | cons v row =>
          have hmore := @ih row (front ++ [v]) (Nat.succ.inj hlength)
          rw [List.append_assoc, List.singleton_append, List.length_append,
            List.length_singleton] at hmore
          rw [List.zipIdx_cons, List.map_cons, hmore, List.zipWith_cons_cons]
          change renderValue ((front ++ v :: row)[front.length]?.getD .null)
            cat :: _ = _
          rw [List.getElem?_append_right (Nat.le_refl _), Nat.sub_self]
          rfl

theorem toList_renderRow (hlength : row.length = plan.length) :
    (renderRow row plan).toList =
      '(' :: ([','].intercalate ((List.zipWith renderValue row plan).map
        String.toList) ++ [')']) := by
  have hvalues := @map_zipIdx row plan [] hlength
  rw [List.nil_append] at hvalues
  have hvalues : (plan.zipIdx.map fun (cat, i) =>
      renderValue (row[i]?.getD .null) cat) =
        List.zipWith renderValue row plan := hvalues
  rw [renderRow, String.toList_append, String.toList_append,
    String.toList_intercalate, hvalues]
  rfl

/-- The literals of a row are read one by one. -/
theorem scanTuple_renderRow (hrow : DeliveredRow row plan) :
    scanTuple plan.length (renderRow row plan).toList.tail =
      some (List.zipWith valueLiteral row plan, [')']) := by
  have hlit : List.Forall₂ Says
      ((List.zipWith renderValue row plan).map String.toList)
      (List.zipWith valueLiteral row plan) := by
    induction hrow with
    | nil => exact .nil
    | cons hvalue _ ih => exact .cons (says_renderValue hvalue.2) ih
  have hends : Ends [')'] := by
    intro c hc
    cases hc
    exact .inr rfl
  have hread := scanTuple_intercalate hlit hends
  have hlength : ((List.zipWith renderValue row plan).map
      String.toList).length = plan.length := by
    rw [List.length_map, List.length_zipWith, hrow.length_eq, Nat.min_self]
  rw [hlength] at hread
  rw [toList_renderRow hrow.length_eq, List.tail_cons]
  exact hread

theorem zipWith_valueLiteral_inj (hrow : DeliveredRow row plan)
    (hother : DeliveredRow other plan) (hexact : ExactRow row plan)
    (hotherExact : ExactRow other plan)
    (hsame : List.zipWith valueLiteral row plan =
      List.zipWith valueLiteral other plan) : row = other := by
  induction hrow generalizing other with
  | nil =>
      cases hother
      rfl
  | cons hvalue hvalues ih =>
      cases hother with
      | cons hvalue' hvalues' =>
          obtain ⟨hfirst, hmore⟩ := List.cons.inj hsame
          cases hexact with
          | cons hv hexact =>
              cases hotherExact with
              | cons hw hotherExact =>
                  rw [valueLiteral_inj hvalue hvalue' hv hw hfirst,
                    ih hvalues' hexact hotherExact hmore]

/-- Two rows of texts have two tuples. -/
theorem renderRow_inj (hrow : DeliveredRow row plan)
    (hother : DeliveredRow other plan) (hexact : ExactRow row plan)
    (hotherExact : ExactRow other plan)
    (hsame : renderRow row plan = renderRow other plan) : row = other := by
  have hread := scanTuple_renderRow hrow
  rw [hsame, scanTuple_renderRow hother] at hread
  exact zipWith_valueLiteral_inj hrow hother hexact hotherExact
    (congrArg Prod.fst (Option.some.inj hread)).symm

def mendRow (row : List Value) (plan : List ColCategory) : List Value :=
  List.zipWith Value.mend row plan

theorem mendRow_spec (hrow : DeliveredRow row plan) :
    DeliveredRow (mendRow row plan) plan ∧ ExactRow (mendRow row plan) plan ∧
      renderRow (mendRow row plan) plan = renderRow row plan ∧
      (mendRow row plan = row → ExactRow row plan) := by
  have hspec : DeliveredRow (mendRow row plan) plan ∧
      ExactRow (mendRow row plan) plan ∧
      List.zipWith renderValue (mendRow row plan) plan =
        List.zipWith renderValue row plan := by
    induction hrow with
    | nil => exact ⟨.nil, .nil, rfl⟩
    | cons hvalue _ ih =>
        obtain ⟨hdelivered, hexact, hrender⟩ := ih
        exact ⟨.cons hvalue.mend hdelivered, .cons Value.exact_mend hexact,
          congrArg₂ List.cons renderValue_mend hrender⟩
  obtain ⟨hdelivered, hexact, hrender⟩ := hspec
  refine ⟨hdelivered, hexact, ?_, fun hsame => hsame ▸ hexact⟩
  rw [← String.toList_inj, toList_renderRow hdelivered.length_eq, hrender,
    toList_renderRow hrow.length_eq]

/-- A row that is no row of texts has the tuple of another. -/
theorem determined_iff (hrow : DeliveredRow row plan) :
    (∀ other, DeliveredRow other plan → ExactRow other plan →
      renderRow other plan = renderRow row plan → other = row) ↔
        ExactRow row plan := by
  constructor
  · intro hdetermined
    obtain ⟨hdelivered, hexact, hrender, hsame⟩ := mendRow_spec hrow
    exact hsame (hdetermined _ hdelivered hexact hrender)
  · intro hexact other hother hotherExact hsame
    exact renderRow_inj hother hrow hotherExact hexact hsame

end Rows

end Mysql

end XBackup
