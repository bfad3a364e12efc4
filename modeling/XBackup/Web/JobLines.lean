/-
The lines of a job's files: what an append writes that may stop anywhere, and
what a reader makes of the lines.
-/
import XBackup.Foundation.Utf8
import XBackup.Schedule.Fields
import XBackup.Web.JobRecord
import XBackup.Web.JsonGuard

namespace XBackup

namespace Web

open Bytes JsonText LineLog JsonGrammar

section Prefixes

/-- Two scans of one text that are one bracket apart, or none. -/
def DepthScan.Above (low high : DepthScan) : Prop :=
  high.inString = low.inString ∧ high.escaped = low.escaped ∧
    (high.depth = low.depth + 1 ∨ high.depth = low.depth)

theorem DepthScan.Above.step {low high : DepthScan} (habove : low.Above high)
    (b : UInt8) :
    (low.step b).Above (high.step b) ∧
      (high.depth = low.depth → (high.step b).depth = (low.step b).depth) := by
  unfold DepthScan.Above DepthScan.step saturatingSub at *
  grind

theorem DepthScan.Above.run {low high : DepthScan} (habove : low.Above high)
    (bytes : List UInt8) :
    (low.run bytes).Above (high.run bytes) ∧
      (high.depth = low.depth →
        (high.run bytes).depth = (low.run bytes).depth) := by
  induction bytes generalizing low high with
  | nil => exact ⟨habove, id⟩
  | cons b bytes ih =>
      obtain ⟨hnext, hsame⟩ := habove.step b
      obtain ⟨hlast, hrest⟩ := ih hnext
      exact ⟨hlast, fun h => hrest (hsame h)⟩

/-- Inside of a bracket its depth is never left: a scan that left it would be
where a scan without the bracket is, and stay there. -/
theorem Opens.depth_pos {chars : List Char} {k : Nat} (hopens : Opens k chars)
    {front back : List UInt8} (hsplit : encoded chars = front ++ back) :
    0 < ((DepthScan.outside 1 1).run front).depth := by
  have hstart : (DepthScan.outside 0 0).Above (DepthScan.outside 1 1) :=
    ⟨rfl, rfl, .inl rfl⟩
  obtain ⟨hmiddle, -⟩ := hstart.run front
  rcases hmiddle.2.2 with hone | hnone
  · omega
  · have hends := (hmiddle.run back).2 hnone
    rw [← DepthScan.run_append, ← DepthScan.run_append, ← hsplit,
      hopens 1 1 le_rfl, hopens 0 0 le_rfl] at hends
    cases hends

theorem not_blank_of_mem {c : Char} {chars : List Char} (hblank : Blank chars)
    (hc : c ∈ chars) : c ≠ '{' ∧ c ≠ '}' := by
  have hfour := hblank c hc
  simp only [List.mem_cons, List.not_mem_nil, or_false] at hfour
  rcases hfour with rfl | rfl | rfl | rfl <;> decide

/-- A value in braces. -/
theorem exists_opens_of_value {chars : List Char} {v : Json}
    (hvalue : Value ('{' :: chars) v) :
    ∃ inner k, chars = inner ++ ['}'] ∧ Opens k inner := by
  generalize hwhole : '{' :: chars = whole at hvalue
  cases hvalue with
  | null => cases hwhole
  | true => cases hwhole
  | false => cases hwhole
  | number htext =>
      subst hwhole
      have hdeep := DepthScan.maxDepth_le_run (DepthScan.outside 1 1)
        (encoded chars)
      have hflat := opens_number htext 0 0 le_rfl
      rw [encoded_cons, DepthScan.run_append] at hflat
      change (DepthScan.outside 1 1).run (encoded chars) = _ at hflat
      rw [hflat] at hdeep
      exact absurd hdeep (by decide)
  | string htext =>
      obtain ⟨parts, -, rfl⟩ := htext
      cases hwhole
  | emptyArray _ => cases hwhole
  | array _ => cases hwhole
  | emptyObject hblank =>
      cases hwhole
      exact ⟨_, 0, rfl, opens_blank hblank⟩
  | object hmembers =>
      cases hwhole
      exact ⟨_, _, rfl, opens_members hmembers⟩

/-- No part of an object is a text of its own. -/
theorem not_denotes_of_part {whole part : List Char} {v w : Json}
    (hwhole : Denotes whole v) (hfirst : whole.head? = some '{')
    (hlast : whole.getLast? = some '}') (hpart : part <+: whole)
    (hne : part ≠ whole) (hnil : part ≠ []) : ¬ Denotes part w := by
  intro hdenotes
  obtain ⟨inner, k, rfl, hopens⟩ : ∃ inner k,
      whole = '{' :: (inner ++ ['}']) ∧ Opens k inner := by
    cases hwhole with
    | @intro before text after _ hbefore hvalue hafter =>
        have hnone : before = [] := by
          cases before with
          | nil => rfl
          | cons c before =>
              cases hfirst
              exact absurd rfl (not_blank_of_mem hbefore List.mem_cons_self).1
        have hend : after = [] := by
          rcases List.eq_nil_or_concat' after with rfl | ⟨front, c, rfl⟩
          · rfl
          · rw [← List.append_assoc, List.getLast?_concat] at hlast
            cases hlast
            exact absurd rfl (not_blank_of_mem hafter
              (List.mem_append_right _ (List.mem_singleton_self _))).2
        subst hnone hend
        rw [List.nil_append, List.append_nil] at hfirst ⊢
        cases text with
        | nil => cases hfirst
        | cons c chars =>
            cases hfirst
            obtain ⟨inner, k, rfl, hopens⟩ := exists_opens_of_value hvalue
            exact ⟨inner, k, rfl, hopens⟩
  obtain ⟨more, hmore⟩ := hpart
  cases part with
  | nil => exact hnil rfl
  | cons c front =>
      obtain ⟨rfl, hrest⟩ := List.cons.inj hmore
      rcases List.eq_nil_or_concat' more with rfl | ⟨middle, last, rfl⟩
      · rw [List.append_nil] at hmore
        exact hne hmore
      · change front ++ (middle ++ [last]) = _ at hrest
        rw [← List.append_assoc] at hrest
        have hinner := List.append_inj_left' hrest rfl
        have hinside : 0 < ((DepthScan.outside 1 1).run
            (encoded front)).depth :=
          hopens.depth_pos (by rw [← hinner, encoded_append])
        have hends := opens_denotes hdenotes 0 0 le_rfl
        rw [encoded_cons, DepthScan.run_append] at hends
        change (DepthScan.outside 1 1).run (encoded front) = _ at hends
        rw [hends] at hinside
        exact Nat.lt_irrefl 0 hinside

end Prefixes

section Texts

theorem hexDigit_ascii {n : UInt8} (hn : n.toNat < 16) :
    (hexDigit n).toNat < 128 := by
  rw [hexDigit]
  split
  next =>
    have hsum : 48 + n.toNat < 128 := by omega
    exact Nat.lt_of_le_of_lt (Nat.mod_le _ _) hsum
  next =>
    have hsum : 87 + n.toNat < 128 := by omega
    exact Nat.lt_of_le_of_lt (Nat.mod_le _ _) hsum

/-- What an escape is written with are bytes of seven bits. -/
theorem escape_ascii {byte : UInt8} (hbyte : byte.toNat < 128) :
    ∀ code ∈ escape byte, code.toNat < 128 := by
  have hhigh : (hexDigit (byte / 16)).toNat < 128 := hexDigit_ascii (by
    rw [UInt8.toNat_div]
    change byte.toNat / 16 < 16
    omega)
  have hlow : (hexDigit (byte % 16)).toNat < 128 := hexDigit_ascii (by
    rw [UInt8.toNat_mod]
    exact Nat.mod_lt _ (by decide))
  rw [escape]
  split_ifs <;> simp [hbyte, hhigh, hlow]

theorem isText_escape (c : Char) :
    IsText ((String.utf8EncodeChar c).flatMap escape) := by
  have hspecials : ∀ byte ∈ specials, byte.toNat < 128 := by
    intro byte hbyte
    rcases cases_specials hbyte with (rfl | rfl) | hlow
    · decide
    · decide
    · omega
  by_cases hc : c.toNat < 128
  · have hone := encodeChar_ascii c.toNat hc
    rw [Char.ofNat_toNat] at hone
    rw [hone, List.flatMap_singleton]
    refine isText_ascii (escape_ascii ?_)
    rw [UInt8.toNat_ofNat']
    omega
  · have hplain : ∀ byte ∈ String.utf8EncodeChar c, escape byte = [byte] := by
      intro byte hbyte
      refine if_pos fun hspecial => hc ?_
      rw [eq_of_mem_utf8EncodeChar hbyte (hspecials byte hspecial)]
      exact hspecials byte hspecial
    rw [List.flatMap_congr hplain, List.flatMap_singleton']
    refine ⟨String.ofList [c], ?_⟩
    rw [utf8_ofList_cons]
    exact List.append_nil _

theorem isText_quote (text : String) : IsText (quote text) := by
  have hquote : IsText [34] := isText_singleton (by decide)
  rw [quote, utf8, List.flatMap_assoc]
  exact hquote.append ((IsText.flatMap isText_escape _).append hquote)

theorem isText_digits (n : Nat) : IsText (digits n) :=
  isText_ascii fun byte hbyte => by
    have hhigh := (digits_bounds hbyte).2
    omega

theorem isText_number (n : Nat) : IsText (number n) :=
  (isText_digits n).append (isText_singleton (by decide))

theorem isText_optionText (text : Option String) : IsText (optionText text) := by
  cases text with
  | none => exact isText_utf8 _
  | some text => exact isText_quote text

theorem isText_restText (texts : List String) : IsText (restText texts) := by
  induction texts with
  | nil => exact isText_singleton (by decide)
  | cons text rest ih =>
      have hcomma : IsText [44] := isText_singleton (by decide)
      exact hcomma.append ((isText_quote text).append ih)

theorem isText_listText (texts : List String) : IsText (listText texts) := by
  have hbracket : IsText [91] := isText_singleton (by decide)
  have hclosing : IsText [93] := isText_singleton (by decide)
  cases texts with
  | nil => exact hbracket.append hclosing
  | cons text rest =>
      exact hbracket.append ((isText_quote text).append (isText_restText rest))

theorem isText_natText (n : Option Nat) : IsText (natText n) := by
  cases n with
  | none => exact isText_utf8 _
  | some n => exact isText_digits n

theorem isText_intText (n : Option Int) : IsText (intText n) := by
  have hminus : IsText [45] := isText_singleton (by decide)
  rcases n with _ | (n | n)
  · exact isText_utf8 _
  · exact isText_digits n
  · exact hminus.append (isText_digits (n + 1))

theorem isText_lineText (record : JobRecord) : IsText (lineText record) := by
  have hbrace : IsText [125] := isText_singleton (by decide)
  cases record with
  | start record =>
      exact (isText_utf8 _).append ((isText_number _).append
        ((isText_utf8 _).append ((isText_quote _).append
          ((isText_utf8 _).append ((isText_quote _).append
            ((isText_utf8 _).append ((isText_optionText _).append
              ((isText_utf8 _).append ((isText_listText _).append
                ((isText_utf8 _).append ((isText_quote _).append
                  ((isText_utf8 _).append ((isText_natText _).append
                    hbrace)))))))))))))
  | log record =>
      exact (isText_utf8 _).append ((isText_quote _).append
        ((isText_utf8 _).append ((isText_quote _).append
          ((isText_utf8 _).append ((isText_quote _).append hbrace)))))
  | ended record =>
      exact (isText_utf8 _).append ((isText_number _).append
        ((isText_utf8 _).append ((isText_quote _).append
          ((isText_utf8 _).append ((isText_quote _).append
            ((isText_utf8 _).append ((isText_quote _).append
              ((isText_utf8 _).append ((isText_intText _).append
                hbrace)))))))))

/-- A last byte of seven bits is the last character. -/
theorem exists_concat_of_utf8 {text : String} {front : List UInt8} {byte : UInt8}
    (hbyte : byte.toNat < 128) (htext : utf8 text = front ++ [byte]) :
    ∃ chars, text.toList = chars ++ [Char.ofNat byte.toNat] ∧
      utf8 (String.ofList chars) = front := by
  rw [utf8] at htext
  rcases List.eq_nil_or_concat' text.toList with hnil | ⟨chars, c, hc⟩
  · rw [hnil] at htext
    simp at htext
  · rw [hc, List.flatMap_append, List.flatMap_singleton] at htext
    rcases List.eq_nil_or_concat' (String.utf8EncodeChar c) with
      hnil | ⟨bytes, last, hbytes⟩
    · exact absurd hnil String.utf8EncodeChar_ne_nil
    · have hall := htext
      rw [hbytes, ← List.append_assoc] at htext
      cases List.append_inj_right' htext rfl
      have hmem : byte ∈ String.utf8EncodeChar c :=
        hbytes ▸ List.mem_append_right _ (List.mem_singleton_self _)
      have hcode := eq_of_mem_utf8EncodeChar hmem hbyte
      have hchar : c = Char.ofNat byte.toNat := by
        rw [← hcode, Char.ofNat_toNat]
      refine ⟨chars, by rw [hc, hchar], ?_⟩
      rw [hchar, encodeChar_ascii _ hbyte, UInt8.ofNat_toNat] at hall
      rw [utf8, String.toList_ofList]
      exact List.append_inj_left' hall rfl

/-- `serde_json::to_string` of a record. -/
def jsonText (record : JobRecord) : String :=
  fromUtf8Lossy (lineText record)

theorem utf8_jsonText (record : JobRecord) :
    utf8 (jsonText record) = lineText record := by
  obtain ⟨text, htext⟩ := isText_lineText record
  rw [jsonText, ← htext, fromUtf8Lossy_utf8]

/-- A record is written as an object. -/
theorem jsonText_braces (record : JobRecord) :
    (jsonText record).toList.head? = some '{' ∧
      (jsonText record).toList.getLast? = some '}' := by
  have hutf8 := utf8_jsonText record
  refine ⟨?_, ?_⟩
  · obtain ⟨rest, hline⟩ := lineText_kind record
    have hfirst : ∃ more, utf8 (jsonText record) = 123 :: more := by
      rw [hutf8, hline]
      exact ⟨_, rfl⟩
    obtain ⟨more, hmore⟩ := hfirst
    rw [utf8] at hmore
    cases hchars : (jsonText record).toList with
    | nil =>
        rw [hchars] at hmore
        cases hmore
    | cons c chars =>
        rw [hchars, List.flatMap_cons] at hmore
        obtain ⟨head, tail, hcons⟩ := List.exists_cons_of_ne_nil
          (@String.utf8EncodeChar_ne_nil c)
        rw [hcons] at hmore
        cases hmore
        have hcode := eq_of_mem_utf8EncodeChar
          (hcons ▸ List.mem_cons_self : (123 : UInt8) ∈ _) (by decide)
        have hc : c = '{' := Char.toNat_inj.mp hcode
        rw [hc]
        rfl
  · have hlast : ∃ front, lineText record = front ++ [125] := by
      cases record with
      | start record =>
          simp only [lineText, startText, ← List.append_assoc]
          exact ⟨_, rfl⟩
      | log record =>
          simp only [lineText, logText, ← List.append_assoc]
          exact ⟨_, rfl⟩
      | ended record =>
          simp only [lineText, endText, ← List.append_assoc]
          exact ⟨_, rfl⟩
    obtain ⟨front, hfront⟩ := hlast
    rw [← hutf8] at hfront
    obtain ⟨chars, hchars, -⟩ := exists_concat_of_utf8 (by decide) hfront
    rw [hchars, List.getLast?_concat]
    rfl

end Texts

section Reader

variable (fromStr : String → Option JobRecord)

/-- One line; `fromStr` is `serde_json::from_str`. -/
def parseLine (line : List UInt8) : Parsed JobRecord :=
  match fromUtf8 line with
  | none => .unreadable
  | some text =>
      let trimmed := String.ofList (Schedule.trim text.toList)
      if trimmed = "" then .blank
      else
        match checkDepth trimmed with
        | .error _ => .unreadable
        | .ok () =>
            match fromStr trimmed with
            | some record => .record record
            | none => .unreadable

/-- A line that ends in CR and LF loses both. -/
def stripReturn (line : List UInt8) : List UInt8 :=
  if line.getLast? = some 13 then line.dropLast else line

/-- `BufRead::lines` -/
def lines (content : List UInt8) : List (List UInt8) :=
  let pieces := content.splitOn 10
  pieces.dropLast.map stripReturn ++
    (pieces.getLast?.filter fun line => line ≠ []).toList

structure ReadRecords where
  records : List JobRecord
  unreadable : Nat
  present : Bool

def Parsed.isUnreadable : Parsed JobRecord → Bool
  | .unreadable => true
  | _ => false

/-- The records of a file, if there is one. -/
def readRecords : Option (List UInt8) → ReadRecords
  | none => ⟨[], 0, false⟩
  | some content =>
      let parsed := (lines content).map (parseLine fromStr)
      ⟨parsed.filterMap Parsed.record?, parsed.countP Parsed.isUnreadable, true⟩

def endsWithNewlineOrEmpty (content : List UInt8) : Bool :=
  content = [] ∨ content.getLast? = some 10

/-- An append of a line that stops behind this many bytes. -/
def appendLine (content line : List UInt8) (cut : Nat) : List UInt8 :=
  content ++ ((if endsWithNewlineOrEmpty content then [] else [10]) ++ line).take
    cut

/-- The appends to one file from its first on. -/
def appendLines (appends : List (JobRecord × Nat)) : List UInt8 :=
  appends.foldl (fun content append =>
    appendLine content (lineText append.1 ++ [10]) append.2) []

end Reader

section Lines

variable {fromStr : String → Option JobRecord} {record : JobRecord}

/-- The parser reads JSON texts only, and none that is nested deeper than its
limit. -/
def JsonOnly (fromStr : String → Option JobRecord) : Prop :=
  ∀ text record, fromStr text = some record →
    ∃ v, Denotes text.toList v ∧ v.depth ≤ MAX_JSON_DEPTH

def jobLines (fromStr : String → Option JobRecord) : Format UInt8 JobRecord where
  newline := 10
  line := lineText
  parse := parseLine fromStr

theorem trim_of_brace {chars : List Char} (hfirst : chars.head? = some '{') :
    Schedule.trim chars <+: chars ∧ Schedule.trim chars ≠ [] := by
  cases chars with
  | nil => cases hfirst
  | cons c chars =>
      cases hfirst
      have hbrace : ¬ Schedule.isWhitespace '{' = true := by decide
      rw [Schedule.trim, List.dropWhile_cons_of_neg hbrace]
      refine ⟨List.rdropWhile_prefix _ _, fun hnil => hbrace ?_⟩
      exact List.rdropWhile_eq_nil_iff.mp hnil _ List.mem_cons_self

theorem trim_of_braces {chars : List Char} (hfirst : chars.head? = some '{')
    (hlast : chars.getLast? = some '}') : Schedule.trim chars = chars := by
  have hbrace : ¬ Schedule.isWhitespace '{' = true := by decide
  have hclosing : ¬ Schedule.isWhitespace '}' = true := by decide
  have hdrop : chars.dropWhile Schedule.isWhitespace = chars := by
    cases chars with
    | nil => rfl
    | cons c chars =>
        cases hfirst
        exact List.dropWhile_cons_of_neg hbrace
  obtain ⟨front, rfl⟩ := List.getLast?_eq_some_iff.mp hlast
  rw [Schedule.trim, hdrop]
  exact List.rdropWhile_concat_neg _ _ _ hclosing

theorem checkDepth_of_json (hjson : JsonOnly fromStr) {text : String}
    (hread : fromStr text = some record) : checkDepth text = .ok () := by
  obtain ⟨v, hdenotes, hdepth⟩ := hjson text record hread
  rw [checkDepth_eq_ok_iff, maxDepth_of_denotes hdenotes]
  exact hdepth

theorem parseLine_whole (hjson : JsonOnly fromStr)
    (hread : fromStr (jsonText record) = some record) :
    parseLine fromStr (lineText record) = .record record := by
  obtain ⟨hfirst, hlast⟩ := jsonText_braces record
  have htext : fromUtf8 (lineText record) = some (jsonText record) :=
    fromUtf8_eq_some_iff.mpr (utf8_jsonText record)
  have hne : jsonText record ≠ "" := by
    intro hempty
    rw [hempty] at hfirst
    cases hfirst
  simp only [parseLine, htext, trim_of_braces hfirst hlast, String.ofList_toList,
    if_neg hne, checkDepth_of_json hjson hread, hread]

/-- A part of a line that is not empty is unreadable: it is no text, or one that
is not closed. -/
theorem parseLine_cut (hjson : JsonOnly fromStr)
    (hread : fromStr (jsonText record) = some record) {cut : List UInt8}
    (hcut : cut <+: lineText record) (hne : cut ≠ lineText record)
    (hnil : cut ≠ []) : parseLine fromStr cut = .unreadable := by
  obtain ⟨hfirst, hlast⟩ := jsonText_braces record
  rw [parseLine]
  split
  next => rfl
  next text htext =>
    have hbytes := fromUtf8_eq_some_iff.mp htext
    obtain ⟨rest, hrest⟩ := hcut
    rw [← hbytes, ← utf8_jsonText record] at hrest
    obtain ⟨more, hmore⟩ := exists_append_of_utf8 hrest
    have hshort : text.toList ≠ (jsonText record).toList := by
      intro hsame
      refine hne ?_
      rw [← hbytes, ← utf8_jsonText record, utf8, hsame]
      rfl
    have hbegins : text.toList.head? = some '{' := by
      cases hchars : text.toList with
      | nil =>
          refine absurd ?_ hnil
          rw [← hbytes, utf8, hchars]
          rfl
      | cons c chars =>
          rw [hmore, hchars] at hfirst
          exact hfirst
    obtain ⟨hpart, hsome⟩ := trim_of_brace hbegins
    have hnone : fromStr (String.ofList (Schedule.trim text.toList)) = none := by
      cases hparse : fromStr (String.ofList (Schedule.trim text.toList)) with
      | none => rfl
      | some other =>
          obtain ⟨v, hwhole, -⟩ := hjson _ _ hread
          obtain ⟨w, hdenotes, -⟩ := hjson _ _ hparse
          rw [String.toList_ofList] at hdenotes
          refine absurd hdenotes (not_denotes_of_part hwhole hfirst hlast ?_ ?_
            hsome)
          · exact hpart.trans ⟨more, hmore.symm⟩
          · intro hsame
            refine hshort ?_
            have hlength := hpart.length_le
            rw [hsame, hmore, List.length_append] at hlength
            have hempty : more = [] := List.eq_nil_of_length_eq_zero (by omega)
            rw [hmore, hempty, List.append_nil]
    have hne' : String.ofList (Schedule.trim text.toList) ≠ "" := by
      intro hempty
      exact hsome (String.ofList_eq_empty_iff.mp hempty)
    simp only [if_neg hne', hnone]
    split
    next => rfl
    next => rfl

theorem parseLine_nil : parseLine fromStr [] = .blank := by
  have htext : fromUtf8 [] = some "" := fromUtf8_eq_some_iff.mpr rfl
  have htrim : String.ofList (Schedule.trim "".toList) = "" := rfl
  simp only [parseLine, htext, htrim, if_true]

theorem reads_jobLines (hjson : JsonOnly fromStr)
    (hread : fromStr (jsonText record) = some record) :
    (jobLines fromStr).Reads record := by
  refine ⟨newline_notMem_lineText record, ?_, ?_, ?_⟩
  · change parseLine fromStr [] = .blank
    exact parseLine_nil
  · change parseLine fromStr (lineText record) = .record record
    exact parseLine_whole hjson hread
  · change ∀ cut, cut <+: lineText record → cut ≠ lineText record → cut ≠ [] →
      parseLine fromStr cut = .unreadable
    exact fun cut hcut hne hnil => parseLine_cut hjson hread hcut hne hnil

/-- The CR at the end of a line makes no difference. -/
theorem parseLine_stripReturn (line : List UInt8) :
    parseLine fromStr (stripReturn line) = parseLine fromStr line := by
  rw [stripReturn]
  split
  next hlast =>
    obtain ⟨front, rfl⟩ := List.getLast?_eq_some_iff.mp hlast
    rw [List.dropLast_concat]
    cases hfront : fromUtf8 front with
    | none =>
        have hnone : fromUtf8 (front ++ [13]) = none := by
          cases hline : fromUtf8 (front ++ [13]) with
          | none => rfl
          | some text =>
              obtain ⟨chars, -, hchars⟩ := exists_concat_of_utf8 (by decide)
                (fromUtf8_eq_some_iff.mp hline)
              rw [fromUtf8_eq_some_iff.mpr hchars] at hfront
              cases hfront
        rw [parseLine, parseLine, hfront, hnone]
    | some text =>
        have hline : fromUtf8 (front ++ [13]) = some (text ++ "\r") := by
          rw [fromUtf8_eq_some_iff, utf8_append, fromUtf8_eq_some_iff.mp hfront]
          rfl
        have htrim : Schedule.trim (text ++ "\r").toList =
            Schedule.trim text.toList := by
          have hreturn : Schedule.isWhitespace '\r' = true := by decide
          rw [String.toList_append, Schedule.trim, Schedule.trim,
            List.dropWhile_append]
          change (if _ then ['\r'].dropWhile _ else _ ++ ['\r']).rdropWhile _ = _
          split
          next hempty =>
            rw [List.isEmpty_iff.mp hempty, List.dropWhile_cons_of_pos hreturn]
            rfl
          next => exact List.rdropWhile_concat_pos _ _ _ hreturn
        simp only [parseLine, hfront, hline, htrim]
  next => rfl

theorem readings_lines (content : List UInt8) :
    ((lines content).map (parseLine fromStr)).filter Parsed.counts =
      readings (jobLines fromStr) content := by
  have hne : content.splitOn 10 ≠ [] := List.splitOn_ne_nil _ _
  rw [readings, lines]
  change _ = ((content.splitOn 10).map (parseLine fromStr)).filter Parsed.counts
  obtain ⟨front, last, hpieces⟩ :=
    (List.eq_nil_or_concat' (content.splitOn 10)).resolve_left hne
  have hfront : (front.map stripReturn).map (parseLine fromStr) =
      front.map (parseLine fromStr) := by
    rw [List.map_map]
    exact List.map_congr_left fun line _ => parseLine_stripReturn line
  simp only [hpieces, List.dropLast_concat, List.getLast?_concat,
    List.map_append, List.filter_append, hfront]
  congr 1
  by_cases hlast : last = []
  · rw [hlast, List.map_singleton, parseLine_nil]
    rfl
  · simp [Option.filter, hlast]

theorem appendLine_eq (content : List UInt8) (record : JobRecord) (cut : Nat) :
    appendLine content (lineText record ++ [10]) cut =
      appended (jobLines fromStr) content record cut := by
  rw [appendLine, appended, entry, separator, endsWithNewlineOrEmpty]
  simp only [decide_eq_true_eq]
  rfl

/-- How much of its line each append has written. -/
def linesWritten (content : List UInt8) :
    List (JobRecord × Nat) → List (JobRecord × Nat)
  | [] => []
  | append :: rest =>
      let before := if endsWithNewlineOrEmpty content then 0 else 1
      (append.1, append.2 - before) ::
        linesWritten (appendLine content (lineText append.1 ++ [10]) append.2) rest

theorem linesWritten_eq (content : List UInt8)
    (appends : List (JobRecord × Nat)) :
    linesWritten content appends =
      writtenOf (jobLines fromStr) content appends := by
  induction appends generalizing content with
  | nil => rfl
  | cons append rest ih =>
      have hlength : (separator (jobLines fromStr) content).length =
          if endsWithNewlineOrEmpty content then 0 else 1 := by
        rw [separator, endsWithNewlineOrEmpty, apply_ite List.length]
        simp only [decide_eq_true_eq]
        rfl
      rw [linesWritten, writtenOf, ih, @appendLine_eq fromStr, hlength]

theorem appendLines_eq (appends : List (JobRecord × Nat)) :
    appendLines appends = appendedAll (jobLines fromStr) [] appends := by
  have hstep : (fun content (append : JobRecord × Nat) =>
      appendLine content (lineText append.1 ++ [10]) append.2) =
        fun content append =>
          appended (jobLines fromStr) content append.1 append.2 := by
    funext content append
    exact appendLine_eq content append.1 append.2
  rw [appendLines, hstep, appendedAll]

/-- Empty lines count for nothing. -/
theorem readRecords_eq (content : List UInt8) :
    (readRecords fromStr (some content)).records =
        (readings (jobLines fromStr) content).filterMap Parsed.record? ∧
      (readRecords fromStr (some content)).unreadable =
        (readings (jobLines fromStr) content).countP Parsed.isUnreadable := by
  rw [← readings_lines, List.filterMap_filter, List.countP_filter]
  refine ⟨?_, ?_⟩
  · refine List.filterMap_congr fun parsed _ => ?_
    cases parsed <;> rfl
  · refine List.countP_congr fun parsed _ => ?_
    cases parsed <;> simp [Parsed.isUnreadable, Parsed.counts]

/-- The records that were written to their end are read, each once and in their
order, and every other line that was begun is counted. -/
theorem readRecords_appendLines (hjson : JsonOnly fromStr)
    (appends : List (JobRecord × Nat))
    (hread : ∀ append ∈ appends, fromStr (jsonText append.1) = some append.1) :
    let read := readRecords fromStr (some (appendLines appends))
    let written := linesWritten [] appends
    read.records = (written.filter fun append =>
        (lineText append.1).length ≤ append.2).map Prod.fst ∧
      read.unreadable = written.countP fun append =>
        0 < append.2 ∧ append.2 < (lineText append.1).length := by
  have hreads : ∀ append ∈ appends, (jobLines fromStr).Reads append.1 :=
    fun append happend => reads_jobLines hjson (hread append happend)
  have hreadings := readings_appendedAll [] appends hreads
  have hnil : readings (jobLines fromStr) [] = [] := by
    rw [← readings_lines]
    rfl
  rw [hnil, List.nil_append, ← linesWritten_eq, ← appendLines_eq] at hreadings
  obtain ⟨hrecords, hunreadable⟩ :=
    @readRecords_eq fromStr (appendLines appends)
  refine ⟨?_, ?_⟩
  · rw [hrecords, hreadings]
    generalize linesWritten [] appends = written
    induction written with
    | nil => rfl
    | cons append rest ih =>
        rw [List.flatMap_cons, List.filterMap_append, ih, outcome,
          List.filter_cons]
        change List.filterMap _ (if (lineText append.1).length ≤ _ then _ else _) ++
          _ = _
        by_cases hwhole : (lineText append.1).length ≤ append.2
        · rw [if_pos hwhole, if_pos (decide_eq_true hwhole)]
          rfl
        · rw [if_neg hwhole]
          have hshort : ¬ decide ((lineText append.1).length ≤ append.2) = true := by
            simpa using hwhole
          by_cases hpos : 0 < append.2
          · rw [if_pos hpos, if_neg hshort]
            rfl
          · rw [if_neg hpos, if_neg hshort]
            rfl
  · rw [hunreadable, hreadings]
    generalize linesWritten [] appends = written
    induction written with
    | nil => rfl
    | cons append rest ih =>
        rw [List.flatMap_cons, List.countP_append, ih, outcome, List.countP_cons,
          Nat.add_comm]
        congr 1
        change List.countP _ (if (lineText append.1).length ≤ _ then _ else _) = _
        by_cases hwhole : (lineText append.1).length ≤ append.2
        · rw [if_pos hwhole, if_neg (by simpa using fun _ => hwhole)]
          rfl
        · rw [if_neg hwhole]
          by_cases hpos : 0 < append.2
          · rw [if_pos hpos, if_pos (decide_eq_true ⟨hpos, not_le.mp hwhole⟩)]
            rfl
          · rw [if_neg hpos, if_neg (by simpa using fun h => absurd h hpos)]
            rfl

/-- A string without escapes, between its quotes. -/
def plainString (text : String) : List Char :=
  '"' :: (text.toList ++ ['"'])

def IsPlain (text : String) : Bool :=
  text.toList.all fun c => c ≠ '"' && c ≠ '\\' && 32 ≤ c.toNat

theorem isString_plain {text : String} (htext : IsPlain text = true) :
    IsString (plainString text) := by
  refine ⟨text.toList.map fun c => [c], ?_, ?_⟩
  · intro part hpart
    obtain ⟨c, hc, rfl⟩ := List.mem_map.mp hpart
    have hplain := List.all_eq_true.mp htext c hc
    simp only [Bool.and_eq_true, decide_eq_true_eq] at hplain
    exact .plain hplain.1.1 hplain.1.2 hplain.2
  · rw [← List.flatMap_def, List.flatMap_singleton']
    rfl

theorem denotes_plain {text : String} (htext : IsPlain text = true) :
    Denotes (plainString text) (.string (plainString text)) := by
  have hvalue : Denotes ([] ++ plainString text ++ []) _ :=
    .intro Blank.nil (.string (isString_plain htext)) Blank.nil
  rwa [List.append_nil] at hvalue

theorem members_plain (key value : String) {rest : List Char}
    {members : List (List Char × Json)} (hkey : IsPlain key = true)
    (hvalue : IsPlain value = true) (hrest : Members rest members) :
    Members (plainString key ++ ':' :: (plainString value ++ ',' :: rest))
      ((plainString key, .string (plainString value)) :: members) := by
  have hmembers : Members ([] ++ plainString key ++ [] ++ ':' ::
      (plainString value ++ ',' :: rest)) _ :=
    .next Blank.nil (isString_plain hkey) Blank.nil (denotes_plain hvalue)
      hrest
  rwa [List.append_nil] at hmembers

/-- A note of one letter, and a parser that reads nothing else. -/
def note : JobRecord :=
  .log ⟨"t", .note, "x"⟩

def noteMembers : List Char :=
  plainString "kind" ++ ':' :: (plainString "log" ++ ',' ::
    (plainString "ts" ++ ':' :: (plainString "t" ++ ',' ::
      (plainString "stream" ++ ':' :: (plainString "note" ++ ',' ::
        ([] ++ plainString "text" ++ [] ++ ':' :: plainString "x"))))))

def noteText : String :=
  String.ofList ('{' :: (noteMembers ++ ['}']))

def readNote (text : String) : Option JobRecord :=
  if text = noteText then some note else none

theorem noteText_denotes : ∃ v, Denotes noteText.toList v ∧
    v.depth ≤ MAX_JSON_DEPTH := by
  have hlast : Members ([] ++ plainString "text" ++ [] ++ ':' ::
      plainString "x") _ :=
    .last Blank.nil (isString_plain (by decide +kernel)) Blank.nil
      (denotes_plain (by decide +kernel))
  have hmembers := members_plain "kind" "log" (by decide +kernel)
    (by decide +kernel) (members_plain "ts" "t" (by decide +kernel)
      (by decide +kernel) (members_plain "stream" "note" (by decide +kernel)
        (by decide +kernel) hlast))
  have hobject : Denotes ([] ++ _ ++ []) _ :=
    .intro Blank.nil (.object hmembers) Blank.nil
  rw [List.append_nil, List.nil_append] at hobject
  rw [noteText, String.toList_ofList]
  exact ⟨_, hobject, by decide +kernel⟩

theorem jsonText_note : jsonText note = noteText := by
  have hline : utf8 noteText = lineText note := by decide +kernel
  rw [jsonText, ← hline, fromUtf8Lossy_utf8]

theorem readNote_json : JsonOnly readNote := by
  intro text record hread
  rw [readNote] at hread
  split at hread
  next htext =>
    rw [htext]
    exact noteText_denotes
  next => cases hread

theorem readRecords_appendLines_note :
    JsonOnly readNote ∧
      (∀ append ∈ [(note, 9), (note, 100)],
        readNote (jsonText append.1) = some append.1) ∧
      (readRecords readNote (some (appendLines [(note, 9), (note, 100)]))).records
        = ((linesWritten [] [(note, 9), (note, 100)]).filter fun append =>
            (lineText append.1).length ≤ append.2).map Prod.fst := by
  have hread : ∀ append ∈ [(note, 9), (note, 100)],
      readNote (jsonText append.1) = some append.1 := by
    have hnote : readNote (jsonText note) = some note := by
      rw [jsonText_note, readNote, if_pos rfl]
    exact List.forall_mem_cons.mpr ⟨hnote, List.forall_mem_singleton.mpr hnote⟩
  exact ⟨readNote_json, hread,
    (readRecords_appendLines readNote_json [(note, 9), (note, 100)] hread).1⟩

end Lines

end Web

end XBackup
