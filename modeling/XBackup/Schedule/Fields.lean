/-
What the two readers of cron expressions share: texts that are split, numbers,
and sets of values as bits.
-/
import Mathlib

namespace XBackup

namespace Schedule

section Texts

/-- White space as Unicode has it. -/
def isWhitespace (c : Char) : Bool :=
  (9 ≤ c.toNat && c.toNat ≤ 13) || c.toNat ∈ [32, 133, 160, 5760] ||
    (8192 ≤ c.toNat && c.toNat ≤ 8202) ||
      c.toNat ∈ [8232, 8233, 8239, 8287, 12288]

def splitWhitespace (text : List Char) : List (List Char) :=
  (text.splitOnP isWhitespace).filter (· ≠ [])

def trim (text : List Char) : List Char :=
  (text.dropWhile isWhitespace).rdropWhile isWhitespace

theorem splitWhitespace_append_cons (front rest : List Char) {c : Char}
    (hc : isWhitespace c = true) :
    splitWhitespace (front ++ c :: rest) =
      splitWhitespace front ++ splitWhitespace rest := by
  rw [splitWhitespace, List.splitOnP_append_cons front rest hc,
    List.filter_append]
  rfl

theorem splitWhitespace_nil : splitWhitespace [] = [] := by
  rw [splitWhitespace, List.splitOnP_nil]
  rfl

theorem splitWhitespace_dropWhile (text : List Char) :
    splitWhitespace (text.dropWhile isWhitespace) = splitWhitespace text := by
  induction text with
  | nil => rfl
  | cons c text ih =>
      by_cases hc : isWhitespace c = true
      · rw [List.dropWhile_cons_of_pos hc, ih]
        exact (splitWhitespace_append_cons [] text hc).symm
      · rw [List.dropWhile_cons_of_neg hc]

theorem splitWhitespace_rdropWhile (text : List Char) :
    splitWhitespace (text.rdropWhile isWhitespace) = splitWhitespace text := by
  induction text using List.reverseRecOn with
  | nil => rfl
  | append_singleton text c ih =>
      by_cases hc : isWhitespace c = true
      · rw [List.rdropWhile_concat_pos _ _ _ hc, ih,
          splitWhitespace_append_cons text [] hc, splitWhitespace_nil,
          List.append_nil]
      · rw [List.rdropWhile_concat_neg _ _ _ hc]

theorem splitWhitespace_trim (text : List Char) :
    splitWhitespace (trim text) = splitWhitespace text := by
  rw [trim, splitWhitespace_rdropWhile, splitWhitespace_dropWhile]

/-- A word: some characters, and no white space among them. -/
def Word (word : List Char) : Prop :=
  word ≠ [] ∧ ∀ c ∈ word, isWhitespace c = false

theorem splitWhitespace_words {text word : List Char}
    (hword : word ∈ splitWhitespace text) : Word word := by
  rw [splitWhitespace, List.mem_filter] at hword
  refine ⟨by simpa using hword.2, ?_⟩
  have hpieces : ∀ piece ∈ text.splitOnP isWhitespace,
      ∀ c ∈ piece, isWhitespace c = false := by
    clear hword word
    induction text with
    | nil =>
        intro piece hpiece c hc
        rw [List.splitOnP_nil, List.mem_singleton] at hpiece
        rw [hpiece] at hc
        cases hc
    | cons first text ih =>
        intro piece hpiece c hc
        rw [List.splitOnP_cons_eq_if_modifyHead] at hpiece
        by_cases hfirst : isWhitespace first = true
        · rw [if_pos hfirst] at hpiece
          rcases List.mem_cons.mp hpiece with rfl | hpiece
          · cases hc
          · exact ih piece hpiece c hc
        · rw [if_neg hfirst] at hpiece
          cases hsplit : text.splitOnP isWhitespace with
          | nil => exact absurd hsplit (List.splitOnP_ne_nil _ _)
          | cons head tail =>
              rw [hsplit] at hpiece ih
              rcases List.mem_cons.mp hpiece with rfl | hpiece
              · rcases List.mem_cons.mp hc with rfl | hc
                · exact Bool.eq_false_iff.mpr hfirst
                · exact ih head List.mem_cons_self c hc
              · exact ih piece (List.mem_cons_of_mem _ hpiece) c hc
  exact hpieces word hword.1

theorem splitWhitespace_word {word : List Char} (hword : Word word) :
    splitWhitespace word = [word] := by
  rw [splitWhitespace, List.splitOnP_eq_singleton hword.2]
  simp [hword.1]

theorem intercalate_cons (word next : List Char) (rest : List (List Char)) :
    [' '].intercalate (word :: next :: rest) =
      word ++ ' ' :: [' '].intercalate (next :: rest) := by
  simp [List.intercalate]

theorem intercalate_singleton (word : List Char) :
    [' '].intercalate [word] = word := by
  simp [List.intercalate]

/-- A text that starts with no blank starts with its first word. -/
theorem splitWhitespace_cons {c : Char} (hc : isWhitespace c = false)
    (text : List Char) : ∃ word words,
      splitWhitespace (c :: text) = (c :: word) :: words := by
  have hneg : ¬ isWhitespace c = true := Bool.eq_false_iff.mp hc
  rw [splitWhitespace, List.splitOnP_cons_eq_if_modifyHead, if_neg hneg]
  cases hsplit : text.splitOnP isWhitespace with
  | nil => exact absurd hsplit (List.splitOnP_ne_nil _ _)
  | cons head tail =>
      rw [List.modifyHead_cons, List.filter_cons_of_pos (by simp)]
      exact ⟨head, _, rfl⟩

/-- Words that are joined by blanks are found again. -/
theorem splitWhitespace_intercalate {words : List (List Char)}
    (hwords : ∀ word ∈ words, Word word) :
    splitWhitespace ([' '].intercalate words) = words := by
  induction words with
  | nil => exact splitWhitespace_nil
  | cons word words ih =>
      have hword := hwords word List.mem_cons_self
      have hrest := ih fun other hother =>
        hwords other (List.mem_cons_of_mem _ hother)
      cases words with
      | nil =>
          rw [intercalate_singleton]
          exact splitWhitespace_word hword
      | cons next rest =>
          rw [intercalate_cons, splitWhitespace_append_cons _ _ (by decide),
            hrest, splitWhitespace_word hword]
          rfl

theorem trim_eq_self {text : List Char}
    (hhead : ∀ c ∈ text.head?, isWhitespace c = false)
    (hlast : ∀ c ∈ text.getLast?, isWhitespace c = false) :
    trim text = text := by
  have hdrop : text.dropWhile isWhitespace = text := by
    cases text with
    | nil => rfl
    | cons c text =>
        exact List.dropWhile_cons_of_neg (Bool.eq_false_iff.mp (hhead c rfl))
  rw [trim, hdrop, List.rdropWhile_eq_self_iff]
  intro hne
  exact Bool.eq_false_iff.mp (hlast _ (List.getLast?_eq_getLast_of_ne_nil hne))

theorem trim_head (text : List Char) :
    ∀ c ∈ (trim text).head?, isWhitespace c = false := by
  intro c hc
  have hfront : trim text <+: text.dropWhile isWhitespace :=
    List.rdropWhile_prefix _ _
  have hhead := List.head?_dropWhile_not isWhitespace text
  obtain ⟨rest, hrest⟩ := hfront
  rw [← hrest, List.head?_append, hc] at hhead
  exact hhead

theorem trim_trim (text : List Char) : trim (trim text) = trim text := by
  refine trim_eq_self (trim_head text) fun c hc => ?_
  have hne : trim text ≠ [] := by
    rintro hnil
    rw [hnil] at hc
    cases hc
  have hnot := List.rdropWhile_last_not isWhitespace _ hne
  rw [List.getLast?_eq_getLast_of_ne_nil hne] at hc
  cases hc
  exact Bool.eq_false_iff.mpr hnot

theorem head_intercalate {word : List Char} (hword : Word word)
    (words : List (List Char)) :
    ([' '].intercalate (word :: words)).head? = word.head? := by
  obtain ⟨c, rest, rfl⟩ := List.exists_cons_of_ne_nil hword.1
  cases words <;> rfl

theorem getLast_intercalate {words : List (List Char)}
    (hwords : ∀ word ∈ words, Word word) :
    ∀ c ∈ ([' '].intercalate words).getLast?, isWhitespace c = false := by
  induction words with
  | nil => rintro c ⟨⟩
  | cons word words ih =>
      obtain ⟨hword, hrest⟩ := List.forall_mem_cons.mp hwords
      intro c hc
      cases words with
      | nil =>
          rw [intercalate_singleton] at hc
          exact hword.2 c (List.mem_of_getLast? hc)
      | cons next rest =>
          refine ih hrest c ?_
          have hnext := head_intercalate (hrest next List.mem_cons_self) rest
          obtain ⟨first, others, rfl⟩ :=
            List.exists_cons_of_ne_nil (hrest next List.mem_cons_self).1
          rw [intercalate_cons, List.getLast?_append, List.getLast?_cons] at hc
          cases hjoin : [' '].intercalate ((first :: others) :: rest) with
          | nil =>
              rw [hjoin] at hnext
              cases hnext
          | cons head tail =>
              rw [hjoin, List.getLast?_cons] at hc
              rw [List.getLast?_cons]
              exact hc

theorem trim_intercalate {words : List (List Char)}
    (hwords : ∀ word ∈ words, Word word) :
    trim ([' '].intercalate words) = [' '].intercalate words := by
  refine trim_eq_self ?_ (getLast_intercalate hwords)
  cases words with
  | nil =>
      rintro c ⟨⟩
  | cons word words =>
      intro c hc
      rw [head_intercalate (hwords word List.mem_cons_self)] at hc
      exact (hwords word List.mem_cons_self).2 c (List.mem_of_mem_head? hc)

/-- The bytes of a text. -/
def size (text : List Char) : Nat :=
  (String.ofList text).utf8ByteSize

theorem size_append (front back : List Char) :
    size (front ++ back) = size front + size back := by
  rw [size, String.ofList_append, String.utf8ByteSize_append]
  rfl

theorem size_singleton (c : Char) : size [c] = c.utf8Size := by
  rw [size, ← String.singleton_eq_ofList, String.utf8ByteSize_singleton]

theorem size_cons (c : Char) (text : List Char) :
    size (c :: text) = c.utf8Size + size text := by
  rw [← List.singleton_append, size_append, size_singleton]

theorem size_intercalate (word : List Char) (words : List (List Char)) :
    size ([' '].intercalate (word :: words)) + 1 =
      ((word :: words).map (size · + 1)).sum := by
  induction words generalizing word with
  | nil =>
      rw [intercalate_singleton]
      rfl
  | cons next rest ih =>
      have hblank : Char.utf8Size ' ' = 1 := rfl
      rw [intercalate_cons, size_append, size_cons, hblank, List.map_cons,
        List.sum_cons, ← ih next]
      omega

theorem size_splitOnP (text : List Char) :
    ((text.splitOnP isWhitespace).map (size · + 1)).sum ≤ size text + 1 := by
  induction text with
  | nil =>
      rw [List.splitOnP_nil]
      rfl
  | cons c text ih =>
      have hpos := Char.utf8Size_pos c
      rw [List.splitOnP_cons_eq_if_modifyHead, size_cons]
      split
      · rw [List.map_cons, List.sum_cons]
        have hnil : size [] = 0 := rfl
        omega
      · cases hsplit : text.splitOnP isWhitespace with
        | nil => exact absurd hsplit (List.splitOnP_ne_nil _ _)
        | cons head tail =>
            rw [hsplit, List.map_cons, List.sum_cons] at ih
            rw [List.modifyHead_cons, List.map_cons, List.sum_cons, size_cons]
            omega

/-- To join the words of a text by blanks makes it no longer. -/
theorem size_intercalate_splitWhitespace {text : List Char}
    (hne : splitWhitespace text ≠ []) :
    size ([' '].intercalate (splitWhitespace text)) ≤ size text := by
  obtain ⟨word, words, hwords⟩ := List.exists_cons_of_ne_nil hne
  have hpieces := size_splitOnP text
  have hfilter : ((splitWhitespace text).map (size · + 1)).sum ≤
      ((text.splitOnP isWhitespace).map (size · + 1)).sum :=
    (List.filter_sublist.map _).sum_le_sum fun _ _ => Nat.zero_le _
  have hjoin := size_intercalate word words
  rw [← hwords] at hjoin
  omega

/-- The parts before and behind the first `mark`. -/
def splitOnceAt (mark : Char) (text : List Char) :
    Option (List Char × List Char) :=
  if mark ∈ text then
    some (text.takeWhile (· ≠ mark), (text.dropWhile (· ≠ mark)).tail)
  else none

/-- A number of 32 bits in decimal digits, which a plus may precede. -/
def parseU32 (text : List Char) : Option Nat :=
  let digits := if text.head? = some '+' then text.tail else text
  if digits ≠ [] ∧ digits.all Char.isDigit ∧
      Nat.ofDigitChars 10 digits 0 < 2 ^ 32 then
    some (Nat.ofDigitChars 10 digits 0)
  else none

end Texts

section Bits

variable {width : Nat}

def contains (set : BitVec width) (value : Nat) : Bool :=
  set &&& (BitVec.ofNat width 1 <<< value) ≠ 0

def insert (set : BitVec 64) (value : Nat) : BitVec 64 :=
  set ||| (1#64 <<< value)

theorem contains_eq_getLsbD (set : BitVec width) (value : Nat) :
    contains set value = set.getLsbD value := by
  have hbit : set &&& (BitVec.ofNat width 1 <<< value) =
      if set.getLsbD value then BitVec.twoPow width value else BitVec.ofNat width 0 := by
    rw [← BitVec.twoPow_eq, BitVec.and_twoPow]
  rw [contains, hbit]
  cases hvalue : set.getLsbD value with
  | false => simp
  | true =>
      have hlt := BitVec.lt_of_getLsbD hvalue
      have hne : BitVec.twoPow width value ≠ BitVec.ofNat width 0 := by
        intro hzero
        have hset := congrArg (fun set => set.getLsbD value) hzero
        simp [hlt] at hset
      simpa using hne

theorem getLsbD_insert (set : BitVec 64) (value other : Nat) :
    (insert set value).getLsbD other =
      (set.getLsbD other || (decide (other < 64) && decide (value = other))) := by
  rw [insert, ← BitVec.twoPow_eq, BitVec.getLsbD_or, BitVec.getLsbD_twoPow]
  by_cases hsame : value = other
  · subst hsame
    rfl
  · simp [hsame]

theorem getLsbD_foldl_insert (values : List Nat) (set : BitVec 64)
    (other : Nat) :
    (values.foldl insert set).getLsbD other =
      (set.getLsbD other || (decide (other < 64) && decide (other ∈ values))) := by
  induction values generalizing set with
  | nil => simp
  | cons value values ih =>
      rw [List.foldl_cons, ih, getLsbD_insert]
      by_cases hsame : value = other
      · subst hsame
        simp only [decide_true, Bool.and_true, List.mem_cons, true_or,
          Bool.or_assoc]
        cases decide (value < 64) <;> rfl
      · have hother : ¬ other = value := fun hother => hsame hother.symm
        simp [hsame, hother]

/-- The values from `value` to `last` in steps, as a counter of 32 bits takes
them. -/
def stepValues (step last : Nat) : (rounds value : Nat) → List Nat
  | 0, _ => []
  | rounds + 1, value =>
      if value ≤ last then
        value :: stepValues step last rounds ((value + step) % 2 ^ 32)
      else []

/-- The rounds that the steps take: a step that is longer than the field leaves
it, or goes back around the counter. -/
def roundsLeft (step last value : Nat) : Nat :=
  if last < value then 0
  else if step ≤ last then last + 1 - value
  else value + 1

/-- The loop ends: more rounds give no other values. -/
theorem stepValues_enough {step last : Nat} (hstep : 0 < step)
    (hlast : last < 2 ^ 31) {rounds others value : Nat}
    (hrounds : roundsLeft step last value ≤ rounds)
    (hothers : roundsLeft step last value ≤ others)
    (hword : step < 2 ^ 32) :
    stepValues step last rounds value = stepValues step last others value := by
  induction rounds generalizing others value with
  | zero =>
      have hout : last < value := by
        rw [roundsLeft] at hrounds
        split at hrounds
        · assumption
        · split at hrounds <;> omega
      cases others with
      | zero => rfl
      | succ others => rw [stepValues, stepValues, if_neg (by omega)]
  | succ rounds ih =>
      by_cases hin : value ≤ last
      · have hleft : roundsLeft step last ((value + step) % 2 ^ 32) + 1 ≤
            roundsLeft step last value := by
          rw [roundsLeft, roundsLeft, if_neg (by omega : ¬ last < value)]
          by_cases hshort : step ≤ last
          · rw [if_pos hshort, Nat.mod_eq_of_lt (by omega)]
            split <;> omega
          · rw [if_neg hshort]
            split <;> omega
        cases others with
        | zero => omega
        | succ others =>
            have hrest : stepValues step last rounds
                ((value + step) % 2 ^ 32) = stepValues step last others
                  ((value + step) % 2 ^ 32) := ih (by omega) (by omega)
            rw [stepValues, stepValues, if_pos hin, if_pos hin, hrest]
      · rw [stepValues, if_neg hin]
        cases others with
        | zero => rfl
        | succ others => rw [stepValues, if_neg hin]

/-- The values of a range are added to a set. -/
def insertEvery (set : BitVec 64) (first last step : Nat) : BitVec 64 :=
  (stepValues step last (last + 1) first).foldl insert set

theorem stepValues_le {step last rounds value found : Nat}
    (hfound : found ∈ stepValues step last rounds value) : found ≤ last := by
  induction rounds generalizing value with
  | zero => cases hfound
  | succ rounds ih =>
      rw [stepValues] at hfound
      split at hfound
      next hle =>
        rcases List.mem_cons.mp hfound with rfl | hfound
        · exact hle
        · exact ih hfound
      next => cases hfound

theorem getLsbD_insertEvery_first {set : BitVec 64} {first last step : Nat}
    (hle : first ≤ last) (hlast : last < 64) :
    (insertEvery set first last step).getLsbD first = true := by
  rw [insertEvery, getLsbD_foldl_insert, stepValues, if_pos hle]
  simp
  omega

theorem getLsbD_insertEvery_cases {set : BitVec 64}
    {first last step value : Nat}
    (hvalue : (insertEvery set first last step).getLsbD value = true) :
    set.getLsbD value = true ∨ value ≤ last := by
  rw [insertEvery, getLsbD_foldl_insert, Bool.or_eq_true, Bool.and_eq_true,
    decide_eq_true_eq, decide_eq_true_eq] at hvalue
  exact hvalue.imp_right fun hmem => stepValues_le hmem.2

theorem getLsbD_insertEvery_of {set : BitVec 64} {first last step value : Nat}
    (hvalue : set.getLsbD value = true) :
    (insertEvery set first last step).getLsbD value = true := by
  rw [insertEvery, getLsbD_foldl_insert, hvalue, Bool.true_or]

end Bits

end Schedule

end XBackup
