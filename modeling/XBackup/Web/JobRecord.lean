/-
The records of a job's history, and the lines that they are written as.
-/
import XBackup.Foundation.JsonText
import XBackup.Foundation.LineLog

namespace XBackup

namespace Web

open Bytes JsonText LineLog

inductive Jobs.LogStream where
  | stdout
  | stderr
  | note
  | unknown
deriving DecidableEq

def Jobs.LogStream.token : Jobs.LogStream → String
  | stdout => "stdout"
  | stderr => "stderr"
  | note => "note"
  | unknown => "unknown"

/-- Times are kept as the texts that stand for them. -/
structure StartRecord where
  schema : Nat
  id : String
  command : String
  profile : Option String
  argsMasked : List String
  startedAt : String
  pid : Option Nat
deriving DecidableEq

structure LogRecord where
  ts : String
  stream : Jobs.LogStream
  text : String
deriving DecidableEq

structure EndRecord where
  schema : Nat
  id : String
  finishedAt : String
  outcome : String
  exitCode : Option Int
deriving DecidableEq

inductive JobRecord where
  | start (record : StartRecord)
  | log (record : LogRecord)
  | ended (record : EndRecord)
deriving DecidableEq

inductive JobOutcome where
  | succeeded
  | failed
  | rejected
  | precheckFailed
  | succeededWithWarnings
  | lockConflict
  | unexpectedExit (code : Int)
  | signaled (signal : Int)
  | unknown
deriving DecidableEq

namespace JobOutcome

def exitCode : JobOutcome → Option Int
  | succeeded => some 0
  | failed => some 1
  | rejected => some 2
  | precheckFailed => some 3
  | succeededWithWarnings => some 4
  | lockConflict => some 5
  | unexpectedExit code => some code
  | signaled _ => none
  | unknown => none

def label : JobOutcome → String
  | succeeded => "succeeded"
  | failed => "failed"
  | rejected => "rejected"
  | precheckFailed => "precheck-failed"
  | succeededWithWarnings => "succeeded-with-warnings"
  | lockConflict => "lock-conflict"
  | unexpectedExit _ => "unexpected-exit"
  | signaled _ => "signaled"
  | unknown => "unknown"

end JobOutcome

section Texts

def optionText : Option String → List UInt8
  | none => utf8 "null"
  | some text => quote text

/-- What stands behind the first of several texts. -/
def restText : List String → List UInt8
  | [] => [93]
  | text :: rest => 44 :: (quote text ++ restText rest)

def listText : List String → List UInt8
  | [] => [91, 93]
  | text :: rest => 91 :: (quote text ++ restText rest)

def natText : Option Nat → List UInt8
  | none => utf8 "null"
  | some n => digits n

def intText : Option Int → List UInt8
  | none => utf8 "null"
  | some (.ofNat n) => digits n
  | some (.negSucc n) => 45 :: digits (n + 1)

def startText (record : StartRecord) : List UInt8 :=
  utf8 "\x7b\"kind\":\"start\",\"schema\":" ++ (number record.schema ++
    (utf8 "\"id\":" ++ (quote record.id ++
      (utf8 ",\"command\":" ++ (quote record.command ++
        (utf8 ",\"profile\":" ++ (optionText record.profile ++
          (utf8 ",\"args_masked\":" ++ (listText record.argsMasked ++
            (utf8 ",\"started_at\":" ++ (quote record.startedAt ++
              (utf8 ",\"pid\":" ++ (natText record.pid ++ [125])))))))))))))

def logText (record : LogRecord) : List UInt8 :=
  utf8 "\x7b\"kind\":\"log\",\"ts\":" ++ (quote record.ts ++
    (utf8 ",\"stream\":" ++ (quote record.stream.token ++
      (utf8 ",\"text\":" ++ (quote record.text ++ [125])))))

def endText (record : EndRecord) : List UInt8 :=
  utf8 "\x7b\"kind\":\"end\",\"schema\":" ++ (number record.schema ++
    (utf8 "\"id\":" ++ (quote record.id ++
      (utf8 ",\"finished_at\":" ++ (quote record.finishedAt ++
        (utf8 ",\"outcome\":" ++ (quote record.outcome ++
          (utf8 ",\"exit_code\":" ++
            (intText record.exitCode ++ [125])))))))))

def lineText : JobRecord → List UInt8
  | .start record => startText record
  | .log record => logText record
  | .ended record => endText record

/-- The lines of the files; an empty line is no record. -/
noncomputable def jobFormat : Format UInt8 JobRecord where
  newline := 10
  line := lineText
  parse bytes :=
    if bytes = [] then .blank
    else
      match decode lineText bytes with
      | some record => .record record
      | none => .unreadable

end Texts

section Delimiters

/-- Two ways to write that differ in their first byte. -/
theorem cons_append_ne {first second : UInt8} (hne : first ≠ second)
    {left right rest others : List UInt8} :
    first :: left ++ rest ≠ second :: right ++ others := by
  intro hsame
  exact hne (List.cons.inj hsame).1

theorem optionText_delimited : Delimited optionText := by
  intro left right rest others hsame
  cases left with
  | none =>
      cases right with
      | none => exact ⟨rfl, List.append_cancel_left hsame⟩
      | some text =>
          exact absurd hsame (cons_append_ne (by decide))
  | some text =>
      cases right with
      | none => exact absurd hsame (cons_append_ne (by decide))
      | some other =>
          obtain ⟨rfl, hrest⟩ := quote_delimited _ _ _ _ hsame
          exact ⟨rfl, hrest⟩

theorem restText_delimited : Delimited restText := by
  intro left
  induction left with
  | nil =>
      intro right rest others hsame
      cases right with
      | nil => exact ⟨rfl, List.append_cancel_left hsame⟩
      | cons text more => exact absurd hsame (cons_append_ne (by decide))
  | cons text more ih =>
      intro right rest others hsame
      cases right with
      | nil => exact absurd hsame (cons_append_ne (by decide))
      | cons other otherMore =>
          rw [restText, restText, List.cons_append, List.cons_append,
            List.append_assoc, List.append_assoc] at hsame
          obtain ⟨htext, htail⟩ :=
            quote_delimited _ _ _ _ (List.cons.inj hsame).2
          obtain ⟨hmore, hrest⟩ := ih _ _ _ htail
          exact ⟨by rw [htext, hmore], hrest⟩

theorem listText_delimited : Delimited listText := by
  intro left right rest others hsame
  cases left with
  | nil =>
      cases right with
      | nil => exact ⟨rfl, List.append_cancel_left hsame⟩
      | cons text more =>
          have hsecond := (List.cons.inj hsame).2
          exact absurd hsecond (cons_append_ne (by decide))
  | cons text more =>
      cases right with
      | nil =>
          have hsecond := (List.cons.inj hsame).2
          exact absurd hsecond (cons_append_ne (by decide))
      | cons other otherMore =>
          rw [listText, listText, List.cons_append, List.cons_append,
            List.append_assoc, List.append_assoc] at hsame
          obtain ⟨htext, htail⟩ :=
            quote_delimited _ _ _ _ (List.cons.inj hsame).2
          obtain ⟨hmore, hrest⟩ := restText_delimited _ _ _ _ htail
          exact ⟨by rw [htext, hmore], hrest⟩

theorem brace_notMem_digits (n : Nat) : 125 ∉ digits n :=
  fun hmem => absurd (digits_bounds hmem).2 (by decide)

theorem digits_ne_nil (n : Nat) : digits n ≠ [] := by
  simp [digits, Nat.toDigits_ne_nil]

/-- Digits begin with none of the bytes that are no digits. -/
theorem digits_append_ne {n : Nat} {first : UInt8}
    (hfirst : first.toNat < 48 ∨ 57 < first.toNat)
    {left rest others : List UInt8} :
    digits n ++ rest ≠ first :: left ++ others := by
  obtain ⟨digit, more, hdigits⟩ :=
    List.exists_cons_of_ne_nil (digits_ne_nil n)
  have hbounds := digits_bounds (hdigits ▸ List.mem_cons_self)
  rw [hdigits]
  intro hsame
  cases (List.cons.inj hsame).1
  omega

theorem natText_delimited :
    Delimited fun n : Option Nat => natText n ++ [125] := by
  intro left right rest others hsame
  rw [List.append_assoc, List.append_assoc] at hsame
  cases left with
  | none =>
      cases right with
      | none =>
          exact ⟨rfl, List.append_cancel_left (List.append_cancel_left hsame)⟩
      | some n => exact absurd hsame.symm (digits_append_ne (by decide))
  | some n =>
      cases right with
      | none => exact absurd hsame (digits_append_ne (by decide))
      | some m =>
          obtain ⟨hdigits, hrest⟩ := append_cons_inj (brace_notMem_digits n)
            (brace_notMem_digits m) hsame
          exact ⟨by rw [digits_injective hdigits], hrest⟩

theorem intText_delimited :
    Delimited fun n : Option Int => intText n ++ [125] := by
  intro left right rest others hsame
  rw [List.append_assoc, List.append_assoc] at hsame
  rcases left with _ | (n | n)
  · rcases right with _ | (m | m)
    · exact ⟨rfl, List.append_cancel_left (List.append_cancel_left hsame)⟩
    · exact absurd hsame.symm (digits_append_ne (by decide))
    · exact absurd hsame (cons_append_ne (by decide))
  · rcases right with _ | (m | m)
    · exact absurd hsame (digits_append_ne (by decide))
    · obtain ⟨hdigits, hrest⟩ := append_cons_inj (brace_notMem_digits n)
        (brace_notMem_digits m) hsame
      exact ⟨by rw [digits_injective hdigits], hrest⟩
    · exact absurd hsame (digits_append_ne (by decide))
  · rcases right with _ | (m | m)
    · exact absurd hsame (cons_append_ne (by decide))
    · exact absurd hsame.symm (digits_append_ne (by decide))
    · obtain ⟨hdigits, hrest⟩ := append_cons_inj
        (brace_notMem_digits (n + 1)) (brace_notMem_digits (m + 1))
        (List.cons.inj hsame).2
      have hsucc := digits_injective hdigits
      rw [Nat.succ_inj] at hsucc
      exact ⟨by rw [hsucc], hrest⟩

theorem startText_delimited : Delimited startText := by
  intro left right rest others hsame
  simp only [startText, List.append_assoc] at hsame
  obtain ⟨hschema, hsame⟩ :=
    number_delimited _ _ _ _ (List.append_cancel_left hsame)
  obtain ⟨hid, hsame⟩ :=
    quote_delimited _ _ _ _ (List.append_cancel_left hsame)
  obtain ⟨hcommand, hsame⟩ :=
    quote_delimited _ _ _ _ (List.append_cancel_left hsame)
  obtain ⟨hprofile, hsame⟩ :=
    optionText_delimited _ _ _ _ (List.append_cancel_left hsame)
  obtain ⟨hargs, hsame⟩ :=
    listText_delimited _ _ _ _ (List.append_cancel_left hsame)
  obtain ⟨hstarted, hsame⟩ :=
    quote_delimited _ _ _ _ (List.append_cancel_left hsame)
  have hlast := List.append_cancel_left hsame
  rw [← List.append_assoc, ← List.append_assoc] at hlast
  obtain ⟨hpid, hrest⟩ := natText_delimited _ _ _ _ hlast
  refine ⟨?_, hrest⟩
  cases left
  cases right
  cases hschema
  cases hid
  cases hcommand
  cases hprofile
  cases hargs
  cases hstarted
  cases hpid
  rfl

theorem token_injective : Function.Injective Jobs.LogStream.token := by
  intro left right hsame
  cases left <;> cases right <;> first | rfl | exact absurd hsame (by decide)

theorem logText_delimited : Delimited logText := by
  intro left right rest others hsame
  simp only [logText, List.append_assoc] at hsame
  obtain ⟨hts, hsame⟩ :=
    quote_delimited _ _ _ _ (List.append_cancel_left hsame)
  obtain ⟨hstream, hsame⟩ :=
    quote_delimited _ _ _ _ (List.append_cancel_left hsame)
  obtain ⟨htext, hsame⟩ :=
    quote_delimited _ _ _ _ (List.append_cancel_left hsame)
  refine ⟨?_, List.append_cancel_left hsame⟩
  cases left
  cases right
  cases hts
  cases token_injective hstream
  cases htext
  rfl

theorem endText_delimited : Delimited endText := by
  intro left right rest others hsame
  simp only [endText, List.append_assoc] at hsame
  obtain ⟨hschema, hsame⟩ :=
    number_delimited _ _ _ _ (List.append_cancel_left hsame)
  obtain ⟨hid, hsame⟩ :=
    quote_delimited _ _ _ _ (List.append_cancel_left hsame)
  obtain ⟨hfinished, hsame⟩ :=
    quote_delimited _ _ _ _ (List.append_cancel_left hsame)
  obtain ⟨houtcome, hsame⟩ :=
    quote_delimited _ _ _ _ (List.append_cancel_left hsame)
  have hlast := List.append_cancel_left hsame
  rw [← List.append_assoc, ← List.append_assoc] at hlast
  obtain ⟨hcode, hrest⟩ := intText_delimited _ _ _ _ hlast
  refine ⟨?_, hrest⟩
  cases left
  cases right
  cases hschema
  cases hid
  cases hfinished
  cases houtcome
  cases hcode
  rfl

/-- The kind stands first in a line. -/
def kindByte : JobRecord → UInt8
  | .start _ => 115
  | .log _ => 108
  | .ended _ => 101

theorem lineText_kind (record : JobRecord) : ∃ rest,
    lineText record = utf8 "\x7b\"kind\":\"" ++ kindByte record :: rest := by
  cases record with
  | start record =>
      have hkind : utf8 "\x7b\"kind\":\"start\",\"schema\":" =
          utf8 "\x7b\"kind\":\"" ++ 115 :: utf8 "tart\",\"schema\":" := by
        decide +kernel
      rw [lineText, startText, hkind, List.append_assoc]
      exact ⟨_, rfl⟩
  | log record =>
      have hkind : utf8 "\x7b\"kind\":\"log\",\"ts\":" =
          utf8 "\x7b\"kind\":\"" ++ 108 :: utf8 "og\",\"ts\":" := by
        decide +kernel
      rw [lineText, logText, hkind, List.append_assoc]
      exact ⟨_, rfl⟩
  | ended record =>
      have hkind : utf8 "\x7b\"kind\":\"end\",\"schema\":" =
          utf8 "\x7b\"kind\":\"" ++ 101 :: utf8 "nd\",\"schema\":" := by
        decide +kernel
      rw [lineText, endText, hkind, List.append_assoc]
      exact ⟨_, rfl⟩

theorem lineText_delimited : Delimited lineText := by
  intro left right rest others hsame
  have hkinds : kindByte left = kindByte right := by
    obtain ⟨more, hleft⟩ := lineText_kind left
    obtain ⟨otherMore, hright⟩ := lineText_kind right
    rw [hleft, hright, List.append_assoc, List.append_assoc] at hsame
    exact (List.cons.inj (List.append_cancel_left hsame)).1
  cases left with
  | start left =>
      cases right with
      | start right =>
          obtain ⟨rfl, hrest⟩ := startText_delimited _ _ _ _ hsame
          exact ⟨rfl, hrest⟩
      | log right => exact absurd hkinds (by simp [kindByte])
      | ended right => exact absurd hkinds (by simp [kindByte])
  | log left =>
      cases right with
      | start right => exact absurd hkinds (by simp [kindByte])
      | log right =>
          obtain ⟨rfl, hrest⟩ := logText_delimited _ _ _ _ hsame
          exact ⟨rfl, hrest⟩
      | ended right => exact absurd hkinds (by simp [kindByte])
  | ended left =>
      cases right with
      | start right => exact absurd hkinds (by simp [kindByte])
      | log right => exact absurd hkinds (by simp [kindByte])
      | ended right =>
          obtain ⟨rfl, hrest⟩ := endText_delimited _ _ _ _ hsame
          exact ⟨rfl, hrest⟩

end Delimiters

section Newlines

theorem newline_notMem_escape (byte : UInt8) : 10 ∉ escape byte := by
  by_cases hspecial : byte ∈ specials
  · obtain ⟨high, hhigh, low, hlow, hdiv, hmod, -⟩ := exists_nibbles byte
    rcases escape_cases hspecial with ⟨letter, hcode, -, hletter, -⟩ | hcode
    · rw [hcode]
      intro hmem
      simp only [List.mem_cons, List.not_mem_nil, or_false] at hmem
      rcases hmem with hslash | rfl
      · exact absurd hslash (by decide)
      · exact absurd hletter (by decide)
    · rw [hcode, hdiv, hmod]
      have hdigits : ∀ n < 16, (10 : UInt8) ≠ hexDigit (UInt8.ofNat n) := by
        intro n hn heq
        have hbound := (hexDigit_spec n hn).1
        rw [← heq] at hbound
        exact absurd hbound (by decide)
      simp [hdigits high hhigh, hdigits low hlow]
  · rw [escape, if_pos hspecial]
    intro hmem
    rw [← List.mem_singleton.mp hmem] at hspecial
    exact hspecial (by decide)

theorem newline_notMem_quote (text : String) : 10 ∉ quote text := by
  intro hmem
  rcases List.mem_cons.mp hmem with hquote | hmem
  · cases hquote
  · rcases List.mem_append.mp hmem with hmem | hmem
    · obtain ⟨byte, -, hbyte⟩ := List.mem_flatMap.mp hmem
      exact newline_notMem_escape byte hbyte
    · exact absurd hmem (by decide)

theorem newline_notMem_digits (n : Nat) : 10 ∉ digits n :=
  fun hmem => absurd (digits_bounds hmem).1 (by decide)

theorem newline_notMem_number (n : Nat) : 10 ∉ number n := by
  rw [number, List.mem_append, not_or]
  exact ⟨newline_notMem_digits n, by decide⟩

theorem newline_notMem_optionText (text : Option String) :
    10 ∉ optionText text := by
  cases text with
  | none => decide +kernel
  | some text => exact newline_notMem_quote text

theorem newline_notMem_restText (texts : List String) :
    10 ∉ restText texts := by
  induction texts with
  | nil => decide
  | cons text rest ih =>
      rw [restText, List.mem_cons, List.mem_append, not_or, not_or]
      exact ⟨by decide, newline_notMem_quote text, ih⟩

theorem newline_notMem_listText (texts : List String) :
    10 ∉ listText texts := by
  cases texts with
  | nil => decide
  | cons text rest =>
      rw [listText, List.mem_cons, List.mem_append, not_or, not_or]
      exact ⟨by decide, newline_notMem_quote text,
        newline_notMem_restText rest⟩

theorem newline_notMem_natText (n : Option Nat) : 10 ∉ natText n := by
  cases n with
  | none => decide +kernel
  | some n => exact newline_notMem_digits n

theorem newline_notMem_intText (n : Option Int) : 10 ∉ intText n := by
  rcases n with _ | (n | n)
  · decide +kernel
  · exact newline_notMem_digits n
  · rw [intText, List.mem_cons, not_or]
    exact ⟨by decide, newline_notMem_digits (n + 1)⟩

theorem newline_notMem_lineText (record : JobRecord) :
    10 ∉ lineText record := by
  cases record with
  | start record =>
      simp only [lineText, startText, List.mem_append, not_or]
      exact ⟨by decide +kernel, newline_notMem_number _, by decide +kernel,
        newline_notMem_quote _, by decide +kernel, newline_notMem_quote _,
        by decide +kernel, newline_notMem_optionText _, by decide +kernel,
        newline_notMem_listText _, by decide +kernel, newline_notMem_quote _,
        by decide +kernel, newline_notMem_natText _, by decide⟩
  | log record =>
      simp only [lineText, logText, List.mem_append, not_or]
      exact ⟨by decide +kernel, newline_notMem_quote _, by decide +kernel,
        newline_notMem_quote _, by decide +kernel, newline_notMem_quote _,
        by decide⟩
  | ended record =>
      simp only [lineText, endText, List.mem_append, not_or]
      exact ⟨by decide +kernel, newline_notMem_number _, by decide +kernel,
        newline_notMem_quote _, by decide +kernel, newline_notMem_quote _,
        by decide +kernel, newline_notMem_quote _, by decide +kernel,
        newline_notMem_intText _, by decide⟩

theorem lineText_ne_nil (record : JobRecord) : lineText record ≠ [] := by
  obtain ⟨rest, hline⟩ := lineText_kind record
  rw [hline]
  simp

theorem jobFormat_sound : jobFormat.Sound where
  line_newline := newline_notMem_lineText
  parse_nil := rfl
  parse_line record := by
    simp only [jobFormat]
    rw [if_neg (lineText_ne_nil record), decode_encode lineText_delimited]
  parse_cut record cut hcut hne := by
    simp only [jobFormat]
    split
    next => rfl
    next => rw [decode_torn lineText_delimited hcut hne]; rfl

end Newlines

end Web

end XBackup
