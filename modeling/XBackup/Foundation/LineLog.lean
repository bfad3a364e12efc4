/-
Files of lines that are only appended to.  An append may be cut short anywhere,
and the next one starts a line of its own.
-/
import Mathlib

namespace LineLog

universe u v

inductive Parsed (ρ : Type v) where
  | record (r : ρ)
  | blank
  | unreadable

def Parsed.record? {ρ : Type v} : Parsed ρ → Option ρ
  | record r => some r
  | blank => none
  | unreadable => none

structure Format (α : Type u) (ρ : Type v) where
  newline : α
  line : ρ → List α
  parse : List α → Parsed ρ

variable {α : Type u} {ρ : Type v}

/-- A line is read as what it was written for, and a part of it is not read. -/
structure Format.Sound (format : Format α ρ) : Prop where
  line_newline : ∀ r, format.newline ∉ format.line r
  parse_nil : format.parse [] = .blank
  parse_line : ∀ r, format.parse (format.line r) = .record r
  parse_cut : ∀ r cut, cut <+: format.line r → cut ≠ format.line r →
    (format.parse cut).record? = none

variable [DecidableEq α] (format : Format α ρ)

def separator (content : List α) : List α :=
  if content = [] ∨ content.getLast? = some format.newline then []
  else [format.newline]

/-- What an append of a record writes. -/
def entry (content : List α) (r : ρ) : List α :=
  separator format content ++ (format.line r ++ [format.newline])

/-- The file after an append of which `cut` characters were written. -/
def appended (content : List α) (r : ρ) (cut : Nat) : List α :=
  content ++ (entry format content r).take cut

/-- The whole record was written, with its newline or without. -/
def landed (content : List α) (r : ρ) (cut : Nat) : Bool :=
  (separator format content).length + (format.line r).length ≤ cut

def records (content : List α) : List ρ :=
  (content.splitOn format.newline).filterMap fun line =>
    (format.parse line).record?

def unreadableLines (content : List α) : Nat :=
  (content.splitOn format.newline).countP fun line =>
    match format.parse line with
    | .unreadable => true
    | _ => false

section Reading

variable {format} {content : List α} {r : ρ} {cut : Nat}

theorem records_newline (front back : List α) :
    records format (front ++ format.newline :: back) =
      records format front ++ records format back := by
  rw [records, List.splitOn_append_cons_self, List.filterMap_append]
  rfl

theorem records_of_notMem (hnewline : format.newline ∉ content) :
    records format content = ((format.parse content).record?).toList := by
  rw [records, List.splitOn_eq_singleton hnewline]
  cases hparse : (format.parse content).record? with
  | none => simp [hparse]
  | some r => simp [hparse]

variable (hsound : format.Sound)
include hsound

theorem records_nil : records format [] = [] := by
  rw [records_of_notMem List.not_mem_nil, hsound.parse_nil]
  rfl

theorem records_line : records format (format.line r) = [r] := by
  rw [records_of_notMem (hsound.line_newline r), hsound.parse_line]
  rfl

/-- Only whole lines are read. -/
theorem records_take_line (r : ρ) (cut : Nat) :
    records format ((format.line r ++ [format.newline]).take cut) =
      if (format.line r).length ≤ cut then [r] else [] := by
  rw [List.take_append]
  split
  next hwhole =>
    rw [List.take_of_length_le hwhole]
    cases hleft : cut - (format.line r).length with
    | zero => rw [List.take_zero, List.append_nil, records_line hsound]
    | succ left =>
        rw [List.take_succ_cons, List.take_nil, records_newline,
          records_line hsound, records_nil hsound, List.append_nil]
  next hcut =>
    rw [not_le] at hcut
    have hnone : cut - (format.line r).length = 0 := by omega
    rw [hnone, List.take_zero, List.append_nil, records_of_notMem]
    · have hne : (format.line r).take cut ≠ format.line r := by
        intro heq
        have hlength := congrArg List.length heq
        rw [List.length_take] at hlength
        omega
      rw [hsound.parse_cut r _ (List.take_prefix cut _) hne]
      rfl
    · exact fun hmem =>
        hsound.line_newline r (List.mem_of_mem_take hmem)

/-- An append adds its record or nothing, and all that was there stays. -/
theorem records_appended (content : List α) (r : ρ) (cut : Nat) :
    records format (appended format content r cut) =
      records format content ++
        if landed format content r cut then [r] else [] := by
  have hline := records_take_line hsound r
  rw [appended, entry, landed, separator]
  split
  next hends =>
    rw [List.nil_append, List.length_nil, Nat.zero_add]
    have hfront : ∀ back, records format (content ++ back) =
        records format content ++ records format back := by
      intro back
      rcases hends with rfl | hlast
      · rw [records_nil hsound]
        rfl
      · obtain ⟨front, rfl⟩ := List.getLast?_eq_some_iff.mp hlast
        rw [List.append_assoc, List.singleton_append, records_newline,
          records_newline, records_nil hsound, List.append_nil]
    rw [hfront, hline]
    simp
  next hends =>
    cases cut with
    | zero => simp
    | succ cut =>
        rw [List.singleton_append, List.take_succ_cons, records_newline,
          hline]
        simp [Nat.add_comm 1]

/-- A file that is written line by line holds what it was written for. -/
theorem records_flatMap (rs : List ρ) :
    records format (rs.flatMap fun r => format.line r ++ [format.newline]) =
      rs := by
  induction rs with
  | nil => exact records_nil hsound
  | cons r rest ih =>
      rw [List.flatMap_cons, List.append_assoc, List.singleton_append,
        records_newline, records_line hsound, ih]
      rfl

end Reading

section Readings

/-- A line that is not empty reads as a record, or as nothing. -/
def Parsed.counts {ρ : Type v} : Parsed ρ → Bool
  | .blank => false
  | _ => true

/-- What the lines of a file read as, without the empty ones. -/
def readings (content : List α) : List (Parsed ρ) :=
  ((content.splitOn format.newline).map format.parse).filter Parsed.counts

/-- One record is read back, and no part of its line is taken for any. -/
structure Format.Reads (r : ρ) : Prop where
  line_newline : format.newline ∉ format.line r
  parse_nil : format.parse [] = .blank
  parse_line : format.parse (format.line r) = .record r
  parse_cut : ∀ cut, cut <+: format.line r → cut ≠ format.line r → cut ≠ [] →
    format.parse cut = .unreadable

/-- What is read of an append, by the length of its line that was written. -/
def outcome (r : ρ) (written : Nat) : List (Parsed ρ) :=
  if (format.line r).length ≤ written then [.record r]
  else if 0 < written then [.unreadable] else []

variable {format} {content : List α} {r : ρ}

theorem readings_newline (front back : List α) :
    readings format (front ++ format.newline :: back) =
      readings format front ++ readings format back := by
  rw [readings, List.splitOn_append_cons_self, List.map_append,
    List.filter_append]
  rfl

theorem readings_of_notMem (hnewline : format.newline ∉ content) :
    readings format content = [format.parse content].filter Parsed.counts := by
  rw [readings, List.splitOn_eq_singleton hnewline]
  rfl

theorem readings_take_line (hreads : format.Reads r) (cut : Nat) :
    readings format ((format.line r ++ [format.newline]).take cut) =
      outcome format r cut := by
  have hnil : readings format [] = [] := by
    rw [readings_of_notMem List.not_mem_nil, hreads.parse_nil]
    rfl
  have hline : readings format (format.line r) = [.record r] := by
    rw [readings_of_notMem hreads.line_newline, hreads.parse_line]
    rfl
  rw [List.take_append, outcome]
  split
  next hwhole =>
    rw [List.take_of_length_le hwhole]
    cases hleft : cut - (format.line r).length with
    | zero => rw [List.take_zero, List.append_nil, hline]
    | succ left =>
        rw [List.take_succ_cons, List.take_nil, readings_newline, hline, hnil]
        rfl
  next hcut =>
    have hnone : cut - (format.line r).length = 0 := by omega
    have hlength : ((format.line r).take cut).length = cut := by
      rw [List.length_take]
      omega
    rw [hnone, List.take_zero, List.append_nil, readings_of_notMem]
    · split
      next hpos =>
        have hne : (format.line r).take cut ≠ format.line r := by
          intro heq
          rw [heq] at hlength
          omega
        have hnonempty : (format.line r).take cut ≠ [] := by
          intro hempty
          rw [hempty] at hlength
          exact absurd hlength (Nat.ne_of_lt hpos)
        rw [hreads.parse_cut _ (List.take_prefix cut _) hne hnonempty]
        rfl
      next hzero =>
        rw [Nat.eq_zero_of_not_pos hzero, List.take_zero, hreads.parse_nil]
        rfl
    · exact fun hmem => hreads.line_newline (List.mem_of_mem_take hmem)

/-- An append is read as what was written of it, behind all that was there. -/
theorem readings_appended (hreads : format.Reads r) (content : List α)
    (cut : Nat) :
    readings format (appended format content r cut) =
      readings format content ++
        outcome format r (cut - (separator format content).length) := by
  have hnil : readings format [] = [] := by
    rw [readings_of_notMem List.not_mem_nil, hreads.parse_nil]
    rfl
  have hline := readings_take_line hreads
  rw [appended, entry, separator]
  split
  next hends =>
    rw [List.nil_append, List.length_nil, Nat.sub_zero, ← hline]
    rcases hends with rfl | hlast
    · rw [hnil]
      rfl
    · obtain ⟨front, rfl⟩ := List.getLast?_eq_some_iff.mp hlast
      rw [List.append_assoc, List.singleton_append, readings_newline,
        readings_newline, hnil, List.append_nil]
  next hends =>
    cases cut with
    | zero =>
        rw [List.take_zero, List.append_nil, Nat.zero_sub, ← hline,
          List.take_zero, hnil, List.append_nil]
    | succ cut =>
        rw [List.singleton_append, List.take_succ_cons, readings_newline, hline,
          List.length_singleton, Nat.add_sub_cancel]

/-- The file after appends of which this many characters were written. -/
def appendedAll (format : Format α ρ) (content : List α)
    (appends : List (ρ × Nat)) : List α :=
  appends.foldl (fun content append =>
    appended format content append.1 append.2) content

/-- How much of its own line each append has written. -/
def writtenOf (format : Format α ρ) (content : List α) :
    List (ρ × Nat) → List (ρ × Nat)
  | [] => []
  | append :: rest =>
      (append.1, append.2 - (separator format content).length) ::
        writtenOf format (appended format content append.1 append.2) rest

theorem readings_appendedAll (content : List α) (appends : List (ρ × Nat))
    (hreads : ∀ append ∈ appends, format.Reads append.1) :
    readings format (appendedAll format content appends) =
      readings format content ++
        (writtenOf format content appends).flatMap fun append =>
          outcome format append.1 append.2 := by
  induction appends generalizing content with
  | nil => exact (List.append_nil _).symm
  | cons append rest ih =>
      obtain ⟨hfirst, hrest⟩ := List.forall_mem_cons.mp hreads
      rw [appendedAll, List.foldl_cons, ← appendedAll, ih _ hrest,
        readings_appended hfirst, writtenOf, List.flatMap_cons,
        List.append_assoc]

end Readings

end LineLog
