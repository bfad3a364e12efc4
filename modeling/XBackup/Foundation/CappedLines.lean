/-
Lines that are read from a stream whose bytes come in pieces: of a long line
only the first bytes are remembered, and all of it is read.
-/
import XBackup.Foundation.JsonText
import XBackup.Foundation.SplitReads

namespace CappedLines

open SplitReads

def newline : UInt8 := 10

/-- What is left of a stream, and the error that its reads end with, if any. -/
structure Reader where
  source : Source
  failure : Option String

namespace Reader

/-- The bytes that are ready; there are none at the end. -/
def available (r : Reader) : List UInt8 :=
  r.source.pieces.headD []

def consume (r : Reader) (n : Nat) : Reader :=
  { r with source := (r.source.read n).2 }

def bytes (r : Reader) : List UInt8 :=
  r.source.bytes

theorem available_append (r : Reader) :
    ∃ behind, r.bytes = r.available ++ behind := by
  obtain ⟨⟨pieces, hpieces⟩, failure⟩ := r
  cases pieces with
  | nil => exact ⟨[], rfl⟩
  | cons piece rest => exact ⟨rest.flatten, rfl⟩

theorem bytes_of_available_nil {r : Reader} (hnone : r.available = []) :
    r.bytes = [] := by
  obtain ⟨⟨pieces, hpieces⟩, failure⟩ := r
  cases pieces with
  | nil => rfl
  | cons piece rest => exact absurd hnone (hpieces piece List.mem_cons_self)

theorem bytes_consume {r : Reader} {n : Nat} (hn : n ≤ r.available.length) :
    (r.consume n).bytes = r.bytes.drop n := by
  have hread := read_append n r.source
  have htaken : (r.source.read n).1.length = n := by
    obtain ⟨⟨pieces, hpieces⟩, failure⟩ := r
    cases pieces with
    | nil =>
        rw [Nat.le_zero.mp hn]
        rfl
    | cons piece rest =>
        rw [Source.read]
        split <;> exact List.length_take_of_le hn
  have hdrop := congrArg (List.drop n) hread
  rwa [List.drop_left' htaken] at hdrop

end Reader

structure CappedLine where
  bytes : List UInt8
  truncated : Bool

/-- A part of a line is remembered as far as there is room. -/
def grow (cap : Nat) (buf chunk : List UInt8) : List UInt8 :=
  if buf.length < cap then buf ++ chunk.take (min chunk.length (cap - buf.length))
  else buf

/-- The loop that reads a line: what it remembers of it, and how much of it it
has seen. -/
def readLoop (cap : Nat) (buf : List UInt8) (totalSeen : Nat) (r : Reader) :
    Except String (Option CappedLine) × Reader :=
  if _hempty : r.available = [] then
    match r.failure with
    | some err => (.error err, r)
    | none =>
        (.ok (if totalSeen = 0 then none
          else some { bytes := buf, truncated := buf.length < totalSeen }), r)
  else
    match r.available.findIdx? (· = newline) with
    | some pos =>
        let chunk := r.available.take pos
        let seen := totalSeen + chunk.length
        let line := grow cap buf chunk
        (.ok (some { bytes := line, truncated := line.length < seen }),
          r.consume (pos + 1))
    | none =>
        readLoop cap (grow cap buf r.available) (totalSeen + r.available.length)
          (r.consume r.available.length)
termination_by r.bytes.length
decreasing_by
  obtain ⟨behind, hbytes⟩ := r.available_append
  have hpos := List.length_pos_iff.mpr _hempty
  rw [Reader.bytes_consume le_rfl, hbytes, List.drop_left, List.length_append]
  omega

def readCappedLine (cap : Nat) (r : Reader) :
    Except String (Option CappedLine) × Reader :=
  readLoop cap [] 0 r

/-- A line as far as it is remembered. -/
def capped (cap : Nat) (line : List UInt8) : CappedLine where
  bytes := line.take cap
  truncated := cap < line.length

theorem grow_take (cap : Nat) (seen chunk : List UInt8) :
    grow cap (seen.take cap) chunk = (seen ++ chunk).take cap := by
  rw [grow, List.length_take, List.take_append]
  split
  next hroom =>
    have hlength : min cap seen.length = seen.length := by omega
    congr 1
    rw [hlength]
    by_cases hfits : chunk.length ≤ cap - seen.length
    · rw [min_eq_left hfits, List.take_length, List.take_of_length_le hfits]
    · rw [min_eq_right (by omega)]
  next hfull =>
    rw [show cap - seen.length = 0 by omega, List.take_zero, List.append_nil]

theorem truncated_iff (cap : Nat) (line : List UInt8) :
    (line.take cap).length < line.length ↔ cap < line.length := by
  rw [List.length_take]
  omega

theorem Reader.bytes_consume_all {r : Reader} {behind : List UInt8}
    (hbytes : r.bytes = r.available ++ behind) :
    (r.consume r.available.length).bytes = behind := by
  rw [bytes_consume le_rfl, hbytes, List.drop_left]

section Loop

variable {cap : Nat} {r : Reader} {seen : List UInt8}

/-- A newline ends the line, whatever pieces it comes in. -/
theorem readLoop_newline {line rest : List UInt8}
    (hbytes : r.bytes = line ++ newline :: rest) (hline : newline ∉ line) :
    ∃ r', readLoop cap (seen.take cap) seen.length r =
        (.ok (some (capped cap (seen ++ line))), r') ∧
      r'.bytes = rest ∧ r'.failure = r.failure := by
  induction hlength : r.bytes.length using Nat.strong_induction_on
    generalizing r seen line with
  | _ n ih =>
      obtain ⟨behind, hbehind⟩ := r.available_append
      have hsome : r.available ≠ [] := by
        intro hnone
        rw [Reader.bytes_of_available_nil hnone] at hbytes
        exact absurd hbytes.symm (by simp)
      rw [readLoop, dif_neg hsome]
      cases hfind : r.available.findIdx? (· = newline) with
      | some pos =>
          obtain ⟨hpos, hat, hbefore⟩ :=
            List.findIdx?_eq_some_iff_getElem.mp hfind
          have hnewline : r.available[pos] = newline := of_decide_eq_true hat
          have hsplit : r.available = r.available.take pos ++
              newline :: r.available.drop (pos + 1) := by
            rw [← hnewline, List.cons_getElem_drop_succ, List.take_append_drop]
          have hnot : newline ∉ r.available.take pos := by
            intro hmem
            obtain ⟨i, hi, heq⟩ := List.getElem_of_mem hmem
            rw [List.getElem_take] at heq
            rw [List.length_take] at hi
            exact hbefore i (by omega) (decide_eq_true heq)
          have hsame : r.available.take pos ++ newline ::
              (r.available.drop (pos + 1) ++ behind) = line ++ newline :: rest := by
            rw [← hbytes, hbehind]
            conv_rhs => rw [hsplit]
            simp
          obtain ⟨hchunk, hrest⟩ := JsonText.append_cons_inj hnot hline hsame
          refine ⟨r.consume (pos + 1), ?_, ?_, rfl⟩
          · simp only [hchunk, grow_take]
            rw [← List.length_append]
            congr 1
            simp only [capped, truncated_iff]
          · rw [Reader.bytes_consume hpos, hbehind,
              List.drop_append_of_le_length hpos, hrest]
      | none =>
          have hnot : newline ∉ r.available := by
            intro hmem
            have := List.findIdx?_eq_none_iff.mp hfind newline hmem
            simp at this
          obtain ⟨line', rfl, hline'⟩ : ∃ line', line = r.available ++ line' ∧
              behind = line' ++ newline :: rest := by
            rw [hbehind] at hbytes
            rcases List.append_eq_append_iff.mp hbytes with
              ⟨mid, hmid, htail⟩ | ⟨mid, hmid, htail⟩
            · exact ⟨mid, hmid, htail⟩
            · cases mid with
              | nil =>
                  refine ⟨[], by simpa using hmid.symm, ?_⟩
                  simpa using htail.symm
              | cons b mid =>
                  obtain ⟨rfl, -⟩ := List.cons.inj htail
                  exact absurd (hmid ▸ by simp) hnot
          have hafter := Reader.bytes_consume_all hbehind
          obtain ⟨r', hread, hbytes', hfailure⟩ := @ih _ (by
              have hpos := List.length_pos_iff.mpr hsome
              rw [hafter, ← hlength, hbehind, List.length_append]
              omega) (r.consume r.available.length) (seen ++ r.available) line'
            (hafter.trans hline') (fun hmem => hline (List.mem_append_right _ hmem))
            rfl
          refine ⟨r', ?_, hbytes', hfailure⟩
          simp only [grow_take]
          rw [← List.length_append, hread, List.append_assoc]

/-- At the end of the stream the last line need not be ended. -/
theorem readLoop_rest (hbytes : newline ∉ r.bytes) :
    ∃ r', readLoop cap (seen.take cap) seen.length r =
        (match r.failure with
          | some err => .error err
          | none => .ok (if seen ++ r.bytes = [] then none
              else some (capped cap (seen ++ r.bytes))), r') ∧
      r'.bytes = [] ∧ r'.failure = r.failure := by
  induction hlength : r.bytes.length using Nat.strong_induction_on
    generalizing r seen with
  | _ n ih =>
      obtain ⟨behind, hbehind⟩ := r.available_append
      by_cases hnone : r.available = []
      · have hempty := Reader.bytes_of_available_nil hnone
        refine ⟨r, ?_, hempty, rfl⟩
        rw [readLoop, dif_pos hnone, hempty, List.append_nil]
        cases r.failure with
        | some err => rfl
        | none =>
            simp only [capped, truncated_iff, List.length_eq_zero_iff]
      · rw [readLoop, dif_neg hnone]
        have hnot : newline ∉ r.available := fun hmem =>
          hbytes (hbehind ▸ List.mem_append_left _ hmem)
        have hfind : r.available.findIdx? (· = newline) = none := by
          rw [List.findIdx?_eq_none_iff]
          intro b hb
          exact decide_eq_false fun heq => hnot (heq ▸ hb)
        have hafter := Reader.bytes_consume_all hbehind
        obtain ⟨r', hread, hbytes', hfailure⟩ := @ih _ (by
            have hpos := List.length_pos_iff.mpr hnone
            rw [hafter, ← hlength, hbehind, List.length_append]
            omega) (r.consume r.available.length) (seen ++ r.available)
          (by
            rw [hafter]
            exact fun hmem => hbytes (hbehind ▸ List.mem_append_right _ hmem))
          rfl
        refine ⟨r', ?_, hbytes', hfailure⟩
        rw [hfind]
        simp only [grow_take]
        rw [← List.length_append, hread, hafter, List.append_assoc, ← hbehind]
        rfl

end Loop

/-- The lines of a stream: those that a newline ends, and what stands behind
the last newline, if anything does. -/
def ended (bytes : List UInt8) : List (List UInt8) :=
  (bytes.splitOn newline).dropLast

def unended (bytes : List UInt8) : List UInt8 :=
  (bytes.splitOn newline).getLastD []

def lines (bytes : List UInt8) : List (List UInt8) :=
  ended bytes ++ if unended bytes = [] then [] else [unended bytes]

section Lines

variable {line rest bytes : List UInt8}

theorem splitOn_newline (hline : newline ∉ line) :
    (line ++ newline :: rest).splitOn newline =
      line :: rest.splitOn newline := by
  rw [List.splitOn_append_cons_self, List.splitOn_eq_singleton hline]
  rfl

theorem ended_newline (hline : newline ∉ line) :
    ended (line ++ newline :: rest) = line :: ended rest := by
  rw [ended, splitOn_newline hline, List.dropLast_cons_of_ne_nil]
  · rfl
  · exact List.splitOn_ne_nil _ _

theorem lines_newline (hline : newline ∉ line) :
    lines (line ++ newline :: rest) = line :: lines rest := by
  have hlast : unended (line ++ newline :: rest) = unended rest := by
    rw [unended, splitOn_newline hline, unended]
    cases hsplit : rest.splitOn newline with
    | nil => exact absurd hsplit (List.splitOn_ne_nil _ _)
    | cons first others => rfl
  rw [lines, lines, ended_newline hline, hlast]
  rfl

theorem ended_single (hbytes : newline ∉ bytes) : ended bytes = [] := by
  rw [ended, List.splitOn_eq_singleton hbytes]
  rfl

theorem lines_single (hbytes : newline ∉ bytes) :
    lines bytes = if bytes = [] then [] else [bytes] := by
  have hlast : unended bytes = bytes := by
    rw [unended, List.splitOn_eq_singleton hbytes]
    rfl
  rw [lines, ended_single hbytes, hlast, List.nil_append]

end Lines

/-- A newline splits a stream, or there is none in it. -/
theorem newline_cases (bytes : List UInt8) :
    newline ∉ bytes ∨
      ∃ line rest, bytes = line ++ newline :: rest ∧ newline ∉ line := by
  by_cases hmem : newline ∈ bytes
  · obtain ⟨line, rest, hsplit, hline⟩ := List.eq_append_cons_of_mem hmem
    exact .inr ⟨line, rest, hsplit, hline⟩
  · exact .inl hmem

theorem readCappedLine_newline (cap : Nat) {r : Reader} {line rest : List UInt8}
    (hbytes : r.bytes = line ++ newline :: rest) (hline : newline ∉ line) :
    ∃ r', readCappedLine cap r = (.ok (some (capped cap line)), r') ∧
      r'.bytes = rest ∧ r'.failure = r.failure := by
  have hread := @readLoop_newline cap r [] line rest hbytes hline
  rwa [List.take_nil] at hread

theorem readCappedLine_rest (cap : Nat) {r : Reader} (hbytes : newline ∉ r.bytes) :
    ∃ r', readCappedLine cap r =
        (match r.failure with
          | some err => .error err
          | none => .ok (if r.bytes = [] then none
              else some (capped cap r.bytes)), r') ∧
      r'.bytes = [] ∧ r'.failure = r.failure := by
  have hread := @readLoop_rest cap r [] hbytes
  rwa [List.take_nil] at hread

theorem length_readCappedLine {cap : Nat} {r r' : Reader} {line : CappedLine}
    (hread : readCappedLine cap r = (.ok (some line), r')) :
    r'.bytes.length < r.bytes.length := by
  rcases newline_cases r.bytes with hnone | ⟨line', rest, hsplit, hline⟩
  · obtain ⟨r'', hrest, hempty, -⟩ := readCappedLine_rest cap hnone
    rw [hread] at hrest
    obtain ⟨hresult, rfl⟩ := Prod.mk.inj hrest
    rw [hempty]
    cases hfailure : r.failure with
    | some err => rw [hfailure] at hresult; cases hresult
    | none =>
        rw [hfailure] at hresult
        by_cases hbytes : r.bytes = []
        · rw [if_pos hbytes] at hresult
          cases hresult
        · exact List.length_pos_iff.mpr hbytes
  · obtain ⟨r'', hnext, hbytes, -⟩ := readCappedLine_newline cap hsplit hline
    rw [hread] at hnext
    obtain ⟨-, rfl⟩ := Prod.mk.inj hnext
    rw [hbytes, hsplit, List.length_append, List.length_cons]
    omega

universe u

/-- The loop over the lines of a stream, and the error it ends with, if any. -/
def foldLines {σ : Type u} (cap : Nat) (step : σ → CappedLine → σ) (s : σ)
    (r : Reader) : σ × Option String :=
  match _hread : readCappedLine cap r with
  | (.error err, _) => (s, some err)
  | (.ok none, _) => (s, none)
  | (.ok (some line), r') => foldLines cap step (step s line) r'
termination_by r.bytes.length
decreasing_by exact length_readCappedLine _hread

/-- The lines that are read: where the reads end with an error, the last line is
lost when no newline ends it. -/
def heard (r : Reader) : List (List UInt8) :=
  if r.failure.isSome then ended r.bytes else lines r.bytes

/-- The loop goes over the lines of the stream, whatever pieces they come in. -/
theorem foldLines_eq {σ : Type u} (cap : Nat) (step : σ → CappedLine → σ) (s : σ)
    (r : Reader) :
    foldLines cap step s r =
      (((heard r).map (capped cap)).foldl step s, r.failure) := by
  induction hlength : r.bytes.length using Nat.strong_induction_on
    generalizing r s with
  | _ n ih =>
      rw [foldLines]
      rcases newline_cases r.bytes with hnone | ⟨line, rest, hsplit, hline⟩
      · obtain ⟨r', hread, hempty, hfailure⟩ := readCappedLine_rest cap hnone
        rw [hread]
        cases hfail : r.failure with
        | some err =>
            have hheard : heard r = [] := by
              rw [heard, hfail, ended_single hnone]
              rfl
            rw [hheard]
            rfl
        | none =>
            have hheard : heard r = if r.bytes = [] then [] else [r.bytes] := by
              rw [heard, hfail, lines_single hnone]
              rfl
            by_cases hbytes : r.bytes = []
            · rw [hheard, if_pos hbytes, if_pos hbytes]
              rfl
            · have hlt : 0 < n := hlength ▸ List.length_pos_iff.mpr hbytes
              have hrest : heard r' = [] := by
                rw [heard, hfailure, hfail, hempty]
                rfl
              rw [hheard, if_neg hbytes, if_neg hbytes]
              simp only
              rw [ih 0 hlt _ r' (by rw [hempty]; rfl), hrest, hfailure, hfail]
              rfl
      · obtain ⟨r', hread, hbytes, hfailure⟩ :=
          readCappedLine_newline cap hsplit hline
        rw [hread]
        have hheard : heard r = line :: heard r' := by
          rw [heard, heard, hfailure, hsplit, hbytes, ended_newline hline,
            lines_newline hline]
          split <;> rfl
        have hlt : rest.length < n := by
          rw [← hlength, hsplit, List.length_append, List.length_cons]
          omega
        simp only
        rw [ih rest.length hlt (step s (capped cap line)) r' (by rw [hbytes]),
          hheard, hfailure]
        rfl

end CappedLines
