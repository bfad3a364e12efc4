/-
The literals in statements of MySQL, in a session whose strings are in UTF-8 and
escaped with backslashes: the characters that are read as one literal, and what
it says.
-/
import Mathlib

namespace SqlLiterals

/-- A literal, with the calls that the dumps write where the type of a column
has no literals of its own. -/
inductive Literal where
  | null
  | text (chars : List Char)
  | hex (bytes : List UInt8)
  | number (digits : List Char)
  | fromUnixTime (digits : List Char)
  | json (chars : List Char)
deriving DecidableEq, Repr

section Text

/-- What a character behind a backslash stands for. -/
def unescape (c : Char) : List Char :=
  if c = '0' then [Char.ofNat 0]
  else if c = 'b' then [Char.ofNat 8]
  else if c = 'n' then ['\n']
  else if c = 'r' then ['\r']
  else if c = 't' then ['\t']
  else if c = 'Z' then [Char.ofNat 26]
  -- the two stay escaped, for the patterns that they may be in
  else if c = '%' ∨ c = '_' then ['\\', c]
  else [c]

def push (front : List Char) (read : List Char × List Char) :
    List Char × List Char :=
  (front ++ read.1, read.2)

/-- The text up to the quote that ends it, and what is behind; a quote that is
doubled is one of the text. -/
def scanText : List Char → Option (List Char × List Char)
  | [] => none
  | [c] => if c = '\'' then some ([], []) else none
  | c :: d :: rest =>
      if c = '\\' then (scanText rest).map (push (unescape d))
      else if c = '\'' then
        if d = '\'' then (scanText rest).map (push ['\''])
        else some ([], d :: rest)
      else (scanText (d :: rest)).map (push [c])

/-- A way to write a character within quotes. -/
def Escapes (written : List Char) (c : Char) : Prop :=
  (written = [c] ∧ c ≠ '\\' ∧ c ≠ '\'') ∨
    ∃ d, written = ['\\', d] ∧ unescape d = [c]

theorem scanText_plain {c : Char} {rest : List Char} (hslash : c ≠ '\\')
    (hquote : c ≠ '\'') :
    scanText (c :: rest) = (scanText rest).map (push [c]) := by
  cases rest with
  | nil => exact if_neg hquote
  | cons d rest => rw [scanText, if_neg hslash, if_neg hquote]

theorem scanText_escape (d : Char) (rest : List Char) :
    scanText ('\\' :: d :: rest) = (scanText rest).map (push (unescape d)) := by
  rw [scanText, if_pos rfl]

theorem scanText_end {rest : List Char} (hrest : rest.head? ≠ some '\'') :
    scanText ('\'' :: rest) = some ([], rest) := by
  have hquote : '\'' ≠ '\\' := by decide
  cases rest with
  | nil => rfl
  | cons d rest =>
      have hd : d ≠ '\'' := fun heq => hrest (congrArg some heq)
      rw [scanText, if_neg hquote, if_pos rfl, if_neg hd]

/-- A text that is escaped character by character is read back, and ends where
it was ended. -/
theorem scanText_flatMap {escape : Char → List Char} {chars rest : List Char}
    (hescape : ∀ c ∈ chars, Escapes (escape c) c)
    (hrest : rest.head? ≠ some '\'') :
    scanText (chars.flatMap escape ++ '\'' :: rest) = some (chars, rest) := by
  induction chars with
  | nil => exact scanText_end hrest
  | cons c chars ih =>
      obtain ⟨hc, hchars⟩ := List.forall_mem_cons.mp hescape
      have hread := ih hchars
      rw [List.flatMap_cons, List.append_assoc]
      rcases hc with ⟨hplain, hslash, hquote⟩ | ⟨d, hescaped, hd⟩
      · rw [hplain, List.singleton_append, scanText_plain hslash hquote, hread]
        rfl
      · rw [hescaped, List.cons_append, List.singleton_append, scanText_escape,
          hread, hd]
        rfl

end Text

section Words

/-- The characters of names and of numbers with their signs. -/
def isWordChar (c : Char) : Bool :=
  c.isAlphanum || c = '_' || c = '$' || c = '.' || c = '-' || c = '+'

def isExponent : List Char → Bool
  | [] => true
  | c :: rest =>
      let digits :=
        if rest.head? = some '-' ∨ rest.head? = some '+' then rest.tail
        else rest
      (c = 'e' || c = 'E') && !digits.isEmpty && digits.all Char.isDigit

def isFraction (chars : List Char) : Bool :=
  if chars.head? = some '.' then
    let digits := chars.tail.takeWhile Char.isDigit
    !digits.isEmpty && isExponent (chars.tail.dropWhile Char.isDigit)
  else isExponent chars

/-- A decimal number: a sign, digits, a fraction and an exponent. -/
def isNumeral (chars : List Char) : Bool :=
  let unsigned := if chars.head? = some '-' then chars.tail else chars
  !(unsigned.takeWhile Char.isDigit).isEmpty &&
    isFraction (unsigned.dropWhile Char.isDigit)

def hexValue (c : Char) : Option Nat :=
  if c.isDigit then some (c.toNat - 48)
  else if 'a' ≤ c ∧ c ≤ 'f' then some (c.toNat - 87)
  else if 'A' ≤ c ∧ c ≤ 'F' then some (c.toNat - 55)
  else none

def readHex : List Char → Option (List UInt8)
  | [] => some []
  | [_] => none
  | high :: low :: rest => do
      let h ← hexValue high
      let l ← hexValue low
      let bytes ← readHex rest
      return UInt8.ofNat (h * 16 + l) :: bytes

def NULL : List Char := ['N', 'U', 'L', 'L']

def FROM_UNIXTIME : List Char :=
  ['F', 'R', 'O', 'M', '_', 'U', 'N', 'I', 'X', 'T', 'I', 'M', 'E']

def CAST : List Char := ['C', 'A', 'S', 'T']

def AS_JSON : List Char := [' ', 'A', 'S', ' ', 'J', 'S', 'O', 'N', ')']

def wordLiteral (word : List Char) : Option Literal :=
  if word = NULL then some .null
  else if word.take 2 = ['0', 'x'] ∧ 2 < word.length then
    (readHex (word.drop 2)).map .hex
  else if isNumeral word then some (.number word)
  else none

/-- The argument of `FROM_UNIXTIME`, in parentheses. -/
def scanUnixTime : List Char → Option (Literal × List Char)
  | '(' :: rest =>
      let word := rest.takeWhile isWordChar
      match rest.dropWhile isWordChar with
      | ')' :: behind =>
          if isNumeral word then some (.fromUnixTime word, behind) else none
      | _ => none
  | _ => none

/-- The argument of `CAST`, in parentheses. -/
def scanCast : List Char → Option (Literal × List Char)
  | '(' :: '\'' :: rest => do
      let (chars, behind) ← scanText rest
      if behind.take AS_JSON.length = AS_JSON then
        return (.json chars, behind.drop AS_JSON.length)
      else none
  | _ => none

/-- The literal at the front, and what is behind it. -/
def scan (chars : List Char) : Option (Literal × List Char) :=
  if chars.head? = some '\'' then
    (scanText chars.tail).map fun read => (.text read.1, read.2)
  else
    let word := chars.takeWhile isWordChar
    let rest := chars.dropWhile isWordChar
    if word = FROM_UNIXTIME then scanUnixTime rest
    else if word = CAST then scanCast rest
    else (wordLiteral word).map fun literal => (literal, rest)

/-- Where a literal ends: at a comma, a parenthesis or the end of all. -/
def Ends (rest : List Char) : Prop :=
  ∀ c ∈ rest.head?, c = ',' ∨ c = ')'

end Words

section Scan

variable {rest word : List Char}

theorem Ends.head_ne (hends : Ends rest) {c : Char} (hcomma : c ≠ ',')
    (hclose : c ≠ ')') : rest.head? ≠ some c := by
  intro hhead
  rcases hends c hhead with heq | heq
  · exact hcomma heq
  · exact hclose heq

theorem Ends.not_word (hends : Ends rest) :
    ∀ c ∈ rest.head?, isWordChar c = false := by
  intro c hc
  rcases hends c hc with rfl | rfl
  · decide
  · decide

/-- What a predicate takes from the front, and where it stops. -/
theorem takeWhile_front {takes : Char → Bool} {front rest : List Char}
    (hfront : ∀ c ∈ front, takes c = true)
    (hrest : ∀ c ∈ rest.head?, takes c = false) :
    (front ++ rest).takeWhile takes = front ∧
      (front ++ rest).dropWhile takes = rest := by
  have hstop : rest.takeWhile takes = [] ∧ rest.dropWhile takes = rest := by
    cases rest with
    | nil => exact ⟨rfl, rfl⟩
    | cons c rest =>
        have hc : ¬ takes c = true := by
          rw [hrest c rfl]
          exact Bool.false_ne_true
        exact ⟨List.takeWhile_cons_of_neg hc, List.dropWhile_cons_of_neg hc⟩
  rw [List.takeWhile_append_of_pos hfront, List.dropWhile_append_of_pos hfront,
    hstop.1, hstop.2, List.append_nil]
  exact ⟨rfl, rfl⟩

theorem scan_text {escape : Char → List Char} {chars : List Char}
    (hescape : ∀ c ∈ chars, Escapes (escape c) c) (hends : Ends rest) :
    scan ('\'' :: chars.flatMap escape ++ '\'' :: rest) =
      some (.text chars, rest) := by
  have hquote := @Ends.head_ne rest hends '\'' (by decide) (by decide)
  have hhead : ('\'' :: chars.flatMap escape ++ '\'' :: rest).head? =
      some '\'' := rfl
  rw [scan, if_pos hhead, List.cons_append, List.tail_cons,
    scanText_flatMap hescape hquote]
  rfl

theorem scan_word {literal : Literal}
    (hword : ∀ c ∈ word, isWordChar c = true)
    (hliteral : wordLiteral word = some literal) (hends : Ends rest) :
    scan (word ++ rest) = some (literal, rest) := by
  obtain ⟨htake, hdrop⟩ := takeWhile_front hword hends.not_word
  have hquote : (word ++ rest).head? ≠ some '\'' := by
    cases word with
    | nil => exact hends.head_ne (by decide) (by decide)
    | cons c word =>
        intro hhead
        cases hhead
        exact Bool.false_ne_true (hword '\'' List.mem_cons_self)
  have htime : wordLiteral FROM_UNIXTIME = none := by decide +kernel
  have hcast : wordLiteral CAST = none := by decide +kernel
  have hname : word ≠ FROM_UNIXTIME ∧ word ≠ CAST := by
    constructor
    · rintro rfl
      cases htime.symm.trans hliteral
    · rintro rfl
      cases hcast.symm.trans hliteral
  rw [scan, if_neg hquote]
  simp only [htake, hdrop, if_neg hname.1, if_neg hname.2, hliteral,
    Option.map_some]

theorem scan_null (hends : Ends rest) :
    scan (NULL ++ rest) = some (.null, rest) :=
  scan_word (List.all_eq_true.mp rfl) rfl hends

end Scan

section Numerals

theorem isWordChar_of_isDigit {c : Char} (hc : c.isDigit = true) :
    isWordChar c = true := by
  simp [isWordChar, Char.isAlphanum, hc]

theorem isExponent_word {chars : List Char} (hexp : isExponent chars = true) :
    ∀ c ∈ chars, isWordChar c = true := by
  cases chars with
  | nil => exact fun c hc => by cases hc
  | cons first rest =>
      rw [isExponent, Bool.and_eq_true, Bool.and_eq_true] at hexp
      obtain ⟨⟨hfirst, -⟩, hdigits⟩ := hexp
      have hmark : isWordChar first = true := by
        rcases Bool.or_eq_true _ _ ▸ hfirst with he | he
        · rw [of_decide_eq_true he]
          decide
        · rw [of_decide_eq_true he]
          decide
      refine List.forall_mem_cons.mpr ⟨hmark, fun c hc => ?_⟩
      split at hdigits
      next hsign =>
        cases rest with
        | nil => cases hc
        | cons sign digits =>
            rcases List.mem_cons.mp hc with rfl | hc
            · rcases hsign with hsign | hsign
              · cases hsign
                decide
              · cases hsign
                decide
            · exact isWordChar_of_isDigit (List.all_eq_true.mp hdigits c hc)
      next => exact isWordChar_of_isDigit (List.all_eq_true.mp hdigits c hc)

/-- Digits, and what is behind them. -/
theorem forall_of_digits {chars : List Char}
    (hrest : ∀ c ∈ chars.dropWhile Char.isDigit, isWordChar c = true) :
    ∀ c ∈ chars, isWordChar c = true := by
  intro c hc
  rw [← List.takeWhile_append_dropWhile (p := Char.isDigit) (l := chars)] at hc
  rcases List.mem_append.mp hc with hdigit | hbehind
  · exact isWordChar_of_isDigit (List.mem_takeWhile_imp hdigit)
  · exact hrest c hbehind

theorem isFraction_word {chars : List Char}
    (hfraction : isFraction chars = true) :
    ∀ c ∈ chars, isWordChar c = true := by
  rw [isFraction] at hfraction
  split at hfraction
  next hpoint =>
    cases chars with
    | nil => cases hpoint
    | cons point rest =>
        cases hpoint
        have hexp := (Bool.and_eq_true _ _ ▸ hfraction).2
        exact List.forall_mem_cons.mpr
          ⟨by decide, forall_of_digits (isExponent_word hexp)⟩
  next => exact isExponent_word hfraction

theorem isNumeral_word {chars : List Char} (hnumeral : isNumeral chars = true) :
    ∀ c ∈ chars, isWordChar c = true := by
  have hfraction := (Bool.and_eq_true _ _ ▸ hnumeral).2
  split at hfraction
  next hsign =>
    cases chars with
    | nil => cases hsign
    | cons sign rest =>
        cases hsign
        exact List.forall_mem_cons.mpr
          ⟨by decide, forall_of_digits (isFraction_word hfraction)⟩
  next => exact forall_of_digits (isFraction_word hfraction)

theorem scan_number {word rest : List Char} (hnumeral : isNumeral word = true)
    (hends : Ends rest) : scan (word ++ rest) = some (.number word, rest) := by
  refine scan_word (isNumeral_word hnumeral) ?_ hends
  have hnull : word ≠ NULL := by
    rintro rfl
    cases hnumeral
  have hhex : ¬ (word.take 2 = ['0', 'x'] ∧ 2 < word.length) := by
    rintro ⟨hmark, hlong⟩
    obtain ⟨zero, x, digits, rfl⟩ : ∃ zero x digits,
        word = zero :: x :: digits := by
      match word with
      | [] => cases hmark
      | [_] => cases hmark
      | zero :: x :: digits => exact ⟨zero, x, digits, rfl⟩
    cases hmark
    cases hnumeral
  rw [wordLiteral, if_neg hnull, if_neg hhex, if_pos hnumeral]

/-- A name and a parenthesis. -/
theorem takeWhile_name {name behind : List Char}
    (hname : ∀ c ∈ name, isWordChar c = true) :
    (name ++ '(' :: behind).takeWhile isWordChar = name ∧
      (name ++ '(' :: behind).dropWhile isWordChar = '(' :: behind := by
  refine takeWhile_front hname fun c hc => ?_
  cases hc
  decide

theorem scan_unixTime {word rest : List Char}
    (hnumeral : isNumeral word = true) :
    scan (FROM_UNIXTIME ++ '(' :: (word ++ ')' :: rest)) =
      some (.fromUnixTime word, rest) := by
  have hclose : ∀ c ∈ (')' :: rest).head?, isWordChar c = false := by
    intro c hc
    cases hc
    decide
  obtain ⟨hname, hargument⟩ := @takeWhile_name FROM_UNIXTIME
    (word ++ ')' :: rest) (List.all_eq_true.mp rfl)
  obtain ⟨hnumber, hbehind⟩ :=
    takeWhile_front (isNumeral_word hnumeral) hclose
  have hhead : (FROM_UNIXTIME ++ '(' :: (word ++ ')' :: rest)).head? ≠
      some '\'' := by
    intro hquote
    cases hquote
  rw [scan, if_neg hhead]
  simp only [hname, hargument, if_true, scanUnixTime, hnumber, hbehind,
    hnumeral]

theorem scan_json {escape : Char → List Char} {chars rest : List Char}
    (hescape : ∀ c ∈ chars, Escapes (escape c) c) :
    scan (CAST ++ '(' :: ('\'' :: (chars.flatMap escape ++
      '\'' :: (AS_JSON ++ rest)))) = some (.json chars, rest) := by
  obtain ⟨hname, hargument⟩ := @takeWhile_name CAST
    ('\'' :: (chars.flatMap escape ++ '\'' :: (AS_JSON ++ rest)))
    (List.all_eq_true.mp rfl)
  have hhead : (CAST ++ '(' :: ('\'' :: (chars.flatMap escape ++
      '\'' :: (AS_JSON ++ rest)))).head? ≠ some '\'' := by
    intro hquote
    cases hquote
  have hspace : (AS_JSON ++ rest).head? ≠ some '\'' := by
    intro hquote
    cases hquote
  have hother : CAST ≠ FROM_UNIXTIME := by decide
  rw [scan, if_neg hhead]
  simp only [hname, hargument, if_neg hother, if_true, scanCast,
    scanText_flatMap hescape hspace]
  rfl

/-- Digits before something that is none. -/
theorem isNumeral_append {digits rest : List Char} (hne : digits ≠ [])
    (hdigits : ∀ c ∈ digits, c.isDigit = true)
    (hrest : ∀ c ∈ rest.head?, c.isDigit = false) :
    isNumeral (digits ++ rest) = isFraction rest ∧
      isNumeral ('-' :: (digits ++ rest)) = isFraction rest := by
  obtain ⟨htake, hdrop⟩ := takeWhile_front hdigits hrest
  have hsome : digits.isEmpty = false := List.isEmpty_eq_false_iff.mpr hne
  have hhead : (digits ++ rest).head? ≠ some '-' := by
    cases digits with
    | nil => exact absurd rfl hne
    | cons c digits =>
        intro hminus
        cases hminus
        exact Bool.false_ne_true (hdigits '-' List.mem_cons_self)
  constructor
  · rw [isNumeral]
    simp only [if_neg hhead, htake, hdrop, hsome, Bool.not_false, Bool.true_and]
  · rw [isNumeral]
    simp only [List.head?_cons, if_true, List.tail_cons, htake, hdrop, hsome,
      Bool.not_false, Bool.true_and]

theorem isNumeral_digits {digits : List Char} (hne : digits ≠ [])
    (hdigits : ∀ c ∈ digits, c.isDigit = true) :
    isNumeral digits = true ∧ isNumeral ('-' :: digits) = true := by
  have happend := @isNumeral_append digits [] hne hdigits
    fun c hc => by cases hc
  rw [List.append_nil] at happend
  exact happend

theorem isNumeral_fraction {digits fraction : List Char} (hne : digits ≠ [])
    (hdigits : ∀ c ∈ digits, c.isDigit = true) (hpart : fraction ≠ [])
    (hfraction : ∀ c ∈ fraction, c.isDigit = true) :
    isNumeral (digits ++ '.' :: fraction) = true := by
  have hpoint : ∀ c ∈ ('.' :: fraction).head?, c.isDigit = false := by
    intro c hc
    cases hc
    decide
  obtain ⟨htake, hdrop⟩ := @takeWhile_front Char.isDigit fraction [] hfraction
    fun c hc => by cases hc
  rw [List.append_nil] at htake hdrop
  have hsome : fraction.isEmpty = false := List.isEmpty_eq_false_iff.mpr hpart
  rw [(isNumeral_append hne hdigits hpoint).1, isFraction]
  simp only [List.head?_cons, if_true, List.tail_cons, htake, hdrop, hsome,
    Bool.not_false, Bool.true_and]
  rfl

end Numerals

section Hex

def hexDigit (n : Nat) : Char :=
  if n < 10 then Char.ofNat (48 + n) else Char.ofNat (87 + n)

def hexByte (byte : UInt8) : List Char :=
  [hexDigit (byte.toNat / 16), hexDigit (byte.toNat % 16)]

/-- The bytes in hexadecimal, with small letters. -/
def hexChars (bytes : List UInt8) : List Char :=
  bytes.flatMap hexByte

theorem hexValue_hexDigit : ∀ n < 16, hexValue (hexDigit n) = some n := by
  decide

theorem hexDigit_word : ∀ n < 16, isWordChar (hexDigit n) = true := by
  decide

theorem hexByte_word (byte : UInt8) :
    ∀ c ∈ hexByte byte, isWordChar c = true := by
  have hbyte := byte.toNat_lt
  refine List.forall_mem_cons.mpr ⟨hexDigit_word _ (by omega), ?_⟩
  exact List.forall_mem_singleton.mpr (hexDigit_word _ (by omega))

theorem readHex_hexChars (bytes : List UInt8) :
    readHex (hexChars bytes) = some bytes := by
  induction bytes with
  | nil => rfl
  | cons byte bytes ih =>
      have hbyte := byte.toNat_lt
      have hback : UInt8.ofNat (byte.toNat / 16 * 16 + byte.toNat % 16) =
          byte := by
        rw [Nat.div_add_mod' byte.toNat 16, UInt8.ofNat_toNat]
      rw [hexChars, List.flatMap_cons, hexByte, List.cons_append,
        List.singleton_append, readHex, hexValue_hexDigit _ (by omega),
        hexValue_hexDigit _ (by omega)]
      change (do
        let more ← readHex (hexChars bytes)
        return UInt8.ofNat (byte.toNat / 16 * 16 + byte.toNat % 16) ::
          more) = _
      rw [ih, hback]
      rfl

theorem scan_hex {bytes : List UInt8} {rest : List Char} (hne : bytes ≠ [])
    (hends : Ends rest) :
    scan ('0' :: 'x' :: hexChars bytes ++ rest) = some (.hex bytes, rest) := by
  refine scan_word ?_ ?_ hends
  · refine List.forall_mem_cons.mpr ⟨by decide, List.forall_mem_cons.mpr
      ⟨by decide, fun c hc => ?_⟩⟩
    obtain ⟨byte, -, hbyte⟩ := List.mem_flatMap.mp hc
    exact hexByte_word byte c hbyte
  · have hnull : '0' :: 'x' :: hexChars bytes ≠ NULL := by
      intro heq
      cases heq
    have hlong : ('0' :: 'x' :: hexChars bytes).take 2 = ['0', 'x'] ∧
        2 < ('0' :: 'x' :: hexChars bytes).length := by
      obtain ⟨byte, more, rfl⟩ := List.exists_cons_of_ne_nil hne
      refine ⟨rfl, ?_⟩
      simp [hexChars, hexByte]
    rw [wordLiteral, if_neg hnull, if_pos hlong]
    change (readHex (hexChars bytes)).map Literal.hex = _
    rw [readHex_hexChars]
    rfl

end Hex

section Tuple

/-- So many literals, with a comma between two. -/
def scanTuple : Nat → List Char → Option (List Literal × List Char)
  | 0, chars => some ([], chars)
  | 1, chars => (scan chars).map fun read => ([read.1], read.2)
  | count + 2, chars =>
      match scan chars with
      | some (literal, ',' :: behind) =>
          (scanTuple (count + 1) behind).map fun read =>
            (literal :: read.1, read.2)
      | _ => none

/-- The characters are one literal, whatever ends it. -/
def Says (chars : List Char) (literal : Literal) : Prop :=
  ∀ rest, Ends rest → scan (chars ++ rest) = some (literal, rest)

theorem Says.alone {chars : List Char} {literal : Literal}
    (hlit : Says chars literal) : scan chars = some (literal, []) := by
  have hread := hlit [] fun c hc => by cases hc
  rwa [List.append_nil] at hread

theorem scanTuple_intercalate {texts : List (List Char)}
    {literals : List Literal} {rest : List Char}
    (hlit : List.Forall₂ Says texts literals) (hends : Ends rest) :
    scanTuple texts.length ([','].intercalate texts ++ rest) =
      some (literals, rest) := by
  induction hlit with
  | nil => rfl
  | @cons text literal texts literals hfirst hmore ih =>
      cases hmore with
      | nil =>
          change (scan ([','].intercalate [text] ++ rest)).map _ = _
          rw [List.intercalate_singleton, hfirst rest hends]
          rfl
      | @cons second literal₂ texts literals hsecond hmore =>
          have hcomma : ∀ chars, Ends (',' :: chars) := by
            intro chars c hc
            cases hc
            exact .inl rfl
          rw [List.intercalate_cons_cons, List.append_assoc, List.append_assoc,
            List.singleton_append, List.length_cons, List.length_cons,
            scanTuple, hfirst _ (hcomma _)]
          rw [List.length_cons] at ih
          simp only [ih, Option.map_some]

end Tuple

end SqlLiterals
