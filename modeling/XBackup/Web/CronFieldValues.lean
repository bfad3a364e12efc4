/-
The values that a field of a cron expression is read to, by the daemon and by
the web console, beside those that are written there.
-/
import XBackup.Web.CronAgreement

namespace XBackup

namespace Schedule

section Steps

variable {step last first value found rounds : Nat}

/-- The values of a range, taken in steps that stay in the counter. -/
theorem mem_stepValues_iff (hstep : 0 < step) (hlast : last < 64)
    (hroom : value ≤ last → value + step < 2 ^ 32)
    (hrounds : last + 1 ≤ value + rounds) :
    found ∈ stepValues step last rounds value ↔
      value ≤ found ∧ found ≤ last ∧ (found - value) % step = 0 := by
  induction rounds generalizing value with
  | zero =>
      refine iff_of_false List.not_mem_nil ?_
      omega
  | succ rounds ih =>
      rw [stepValues]
      split
      next hin =>
        have hmod : (value + step) % 2 ^ 32 = value + step :=
          Nat.mod_eq_of_lt (hroom hin)
        rw [hmod, List.mem_cons, ih (by omega) (by omega)]
        constructor
        · rintro (rfl | ⟨hlow, hhigh, hmul⟩)
          · exact ⟨le_refl _, hin, by rw [Nat.sub_self, Nat.zero_mod]⟩
          · refine ⟨by omega, hhigh, ?_⟩
            have hsplit : found - value = found - (value + step) + step := by
              omega
            rw [hsplit, Nat.add_mod_right, hmul]
        · rintro ⟨hlow, hhigh, hmul⟩
          rcases Nat.eq_or_lt_of_le hlow with rfl | hlt
          · exact .inl rfl
          · have hle : step ≤ found - value :=
              Nat.le_of_dvd (by omega) (Nat.dvd_of_mod_eq_zero hmul)
            refine .inr ⟨by omega, hhigh, ?_⟩
            rw [← Nat.sub_sub, ← Nat.mod_eq_sub_mod hle]
            exact hmul
      next hout =>
        refine iff_of_false List.not_mem_nil ?_
        omega

theorem stepValues_room (hlast : last < 64)
    (hroom : first ≤ last → first + step < 2 ^ 32)
    (hfound : found ∈ stepValues step last rounds first) :
    found + step < 2 ^ 32 := by
  induction rounds generalizing first with
  | zero => cases hfound
  | succ rounds ih =>
      rw [stepValues] at hfound
      split at hfound
      next hin =>
        rw [Nat.mod_eq_of_lt (hroom hin)] at hfound
        rcases List.mem_cons.mp hfound with rfl | hfound
        · exact hroom hin
        · exact ih (by omega) hfound
      next => cases hfound

end Steps

section Lists

open Fallible

variable {bounds : List Char → Except String (Nat × Nat × Nat)}
  {parts : List (List Char)} {start set : BitVec 64} {value : Nat}

def addEvery (bounds : List Char → Except String (Nat × Nat × Nat))
    (set : BitVec 64) (part : List Char) : Except String (BitVec 64) := do
  let (first, last, step) ← bounds part
  pure (insertEvery set first last step)

/-- A list of parts is read to all that its parts are read to. -/
theorem getLsbD_foldlM_addEvery
    (hfold : parts.foldlM (addEvery bounds) start = .ok set)
    (hsmall : ∀ part first last step, bounds part = .ok (first, last, step) →
      last < 64) :
    (∀ part ∈ parts, ∃ first last step,
        bounds part = .ok (first, last, step)) ∧
      ∀ value, set.getLsbD value = true ↔ start.getLsbD value = true ∨
        ∃ part ∈ parts, ∃ first last step,
          bounds part = .ok (first, last, step) ∧
            value ∈ stepValues step last (last + 1) first := by
  induction parts generalizing start with
  | nil =>
      cases hfold
      exact ⟨nofun, fun value => (or_iff_left nofun).symm⟩
  | cons part rest ih =>
      obtain ⟨middle, hpart, hrest⟩ := foldlM_cons_eq_ok.mp hfold
      obtain ⟨⟨first, last, step⟩, hbounds, hmiddle⟩ := bind_eq_ok.mp hpart
      cases hmiddle
      obtain ⟨hall, hvalues⟩ := ih hrest
      refine ⟨List.forall_mem_cons.mpr ⟨⟨first, last, step, hbounds⟩, hall⟩, ?_⟩
      intro value
      have hlast := hsmall part first last step hbounds
      have hone : (value ∈ stepValues step last (last + 1) first) ↔
          ∃ lo hi every, bounds part = .ok (lo, hi, every) ∧
            value ∈ stepValues every hi (hi + 1) lo := by
        constructor
        · exact fun hvalue => ⟨first, last, step, hbounds, hvalue⟩
        · rintro ⟨lo, hi, every, hsame, hvalue⟩
          cases hbounds.symm.trans hsame
          exact hvalue
      have hword : (decide (value < 64) && decide
          (value ∈ stepValues step last (last + 1) first)) = true ↔
            value ∈ stepValues step last (last + 1) first := by
        rw [Bool.and_eq_true, decide_eq_true_eq, decide_eq_true_eq,
          and_iff_right_iff_imp]
        exact fun hvalue => (stepValues_le hvalue).trans_lt hlast
      rw [hvalues, insertEvery, getLsbD_foldl_insert, Bool.or_eq_true, hword,
        hone, or_assoc, List.exists_mem_cons_iff]

end Lists

end Schedule

namespace Web

open Schedule Fallible

/-- What an item of a field is about: all values, some of them, or one. -/
inductive Span where
  | star
  | range (first last : Nat)
  | value (only : Nat)
deriving DecidableEq

/-- An item of a field, with its step if it has one. -/
structure Item where
  span : Span
  step : Option Nat
deriving DecidableEq

def spanOf (text : List Char) : Option Span :=
  if text = ['*'] then some .star
  else
    match splitOnceAt '-' text with
    | some (a, b) => do
        let first ← parseU32 a
        let last ← parseU32 b
        some (.range first last)
    | none => (parseU32 text).map .value

def itemOf (text : List Char) : Option Item :=
  match splitOnceAt '/' text with
  | some (range, s) => do
      let span ← spanOf range
      let step ← parseU32 s
      some ⟨span, some step⟩
  | none => (spanOf text).map fun span => ⟨span, none⟩

/-- The comma-separated items of a field. -/
def itemsOf (text : List Char) : List Item :=
  (text.splitOn ',').filterMap itemOf

namespace Item

variable (i : Item) (range : FieldRange)

def first : Nat :=
  match i.span with
  | .star => range.min
  | .range first _ => first
  | .value only => only

/-- A single value may go on to the end of the field. -/
def last (goesOn : Bool) : Nat :=
  match i.span with
  | .star => range.max
  | .range _ last => last
  | .value only => if goesOn then range.max else only

def every : Nat :=
  i.step.getD 1

def Covers (goesOn : Bool) (value : Nat) : Prop :=
  i.first range ≤ value ∧ value ≤ i.last range goesOn ∧
    (value - i.first range) % i.every = 0

end Item

/-- The two readers of fields. -/
inductive Reader where
  | daemon (expr : String)
  | console
deriving DecidableEq

namespace Reader

def parseField (reader : Reader) (range : FieldRange) (text : List Char) :
    Except String (BitVec 64) :=
  match reader with
  | daemon expr =>
      Schedule.CronExpr.parseField text range.min range.max expr
  | console => Web.parseField text range

/-- The first and the last value of an item of a text, and its step. -/
def bounds (reader : Reader) (range : FieldRange) (text item : List Char) :
    Except String (Nat × Nat × Nat) :=
  match reader with
  | daemon _ => Schedule.CronExpr.partRange item range.min range.max
  | console => termRange item text range

/-- What an item denotes: to the daemon a single value with a step goes on. -/
def Denotes (reader : Reader) (range : FieldRange) (i : Item) (value : Nat) :
    Prop :=
  match reader with
  | daemon _ => i.Covers range i.step.isSome value
  | console => i.Covers range false value

end Reader

/-- The fields of an expression. -/
inductive Field where
  | minute
  | hour
  | dom
  | month
  | dow
deriving DecidableEq

def Field.range : Field → FieldRange
  | .minute => RANGE_MINUTE
  | .hour => RANGE_HOUR
  | .dom => RANGE_DOM
  | .month => RANGE_MONTH
  | .dow => RANGE_DOW

/-- A field is read to what its items denote; the counter of 32 bits that goes
through the values of an item never leaves its word, and ends. -/
structure ReadAsWritten (reader : Reader) (field : Field) (text : List Char)
    (set : BitVec 64) : Prop where
  values : ∀ value, set.getLsbD value = true ↔
    ∃ i ∈ itemsOf text, reader.Denotes field.range i value
  within : ∀ value, set.getLsbD value = true →
    field.range.min ≤ value ∧ value ≤ field.range.max
  counted : ∀ item ∈ text.splitOn ',', ∀ first last step,
    reader.bounds field.range text item = .ok (first, last, step) →
      ∀ value ∈ stepValues step last (last + 1) first, value + step < 2 ^ 32
  ended : ∀ item ∈ text.splitOn ',', ∀ first last step,
    reader.bounds field.range text item = .ok (first, last, step) →
      ∀ rounds, last + 1 ≤ rounds → stepValues step last rounds first =
        stepValues step last (last + 1) first

/-- No step carries the first value of its item out of 32 bits; and where the
daemon reads a single value with a step of one, what follows the value is in the
field for another item. -/
structure PlainSteps (reader : Reader) (field : Field) (text : List Char) :
    Prop where
  short : ∀ i ∈ itemsOf text, i.first field.range ≤ field.range.max →
    i.first field.range + i.every < 2 ^ 32
  single : reader ≠ .console → ∀ i ∈ itemsOf text, i.step = some 1 →
    ∀ only, i.span = .value only → ∀ value, only < value →
      value ≤ field.range.max → ∃ other ∈ itemsOf text,
        other.Covers field.range (1 < other.every) value

section Items

variable {range : FieldRange} {text base item : List Char} {reader : Reader}
  {first last step value only : Nat} {s : Option Nat} {i : Item}

theorem parseU32_lt (hparse : parseU32 text = some value) : value < 2 ^ 32 := by
  simp only [parseU32, Option.ite_none_right_eq_some] at hparse
  obtain ⟨⟨-, -, hword⟩, heq⟩ := hparse
  exact (Option.some.inj heq) ▸ hword

/-- The bounds that are read are those of the span, and in order unless a single
value is beyond the field. -/
structure BoundsOf (range : FieldRange) (i : Item) (first last : Nat) : Prop where
  first_eq : first = i.first range
  last_eq : last = i.last range (1 < i.every)
  ordered : first ≤ range.max → first ≤ last

theorem boundsOf_partBounds (hrange : range.min ≤ range.max)
    (hstep : s.getD 1 = step)
    (hbounds : Schedule.CronExpr.partBounds base step range.min range.max =
      .ok (first, last)) :
    ∃ span, spanOf base = some span ∧ BoundsOf range ⟨span, s⟩ first last := by
  rw [Schedule.CronExpr.partBounds] at hbounds
  rw [spanOf]
  split at hbounds
  next hstar =>
    cases hbounds
    exact ⟨.star, if_pos hstar, rfl, rfl, fun _ => hrange⟩
  next hstar =>
    rw [if_neg hstar]
    cases hsplit : splitOnceAt '-' base with
    | some parts =>
        rw [hsplit] at hbounds
        dsimp only at hbounds
        split at hbounds
        next => cases hbounds
        next => cases hbounds
        next a b ha hb =>
          split at hbounds
          next => cases hbounds
          next horder =>
            cases hbounds
            refine ⟨.range first last, ?_, rfl, rfl, fun _ => not_lt.mp horder⟩
            simp [ha, hb]
    | none =>
        rw [hsplit] at hbounds
        dsimp only at hbounds
        split at hbounds
        next => cases hbounds
        next v hv =>
          refine ⟨.value v, by rw [hv]; rfl, ?_⟩
          subst hstep
          split at hbounds
          next hlong =>
            cases hbounds
            exact ⟨rfl, (if_pos (decide_eq_true hlong)).symm, id⟩
          next hshort =>
            cases hbounds
            refine ⟨rfl, (if_neg ?_).symm, fun _ => le_refl _⟩
            rwa [decide_eq_true_eq]

/-- What is read of an item that is accepted. -/
structure Accepted (reader : Reader) (range : FieldRange) (text item : List Char)
    (i : Item) : Prop where
  item_eq : itemOf item = some i
  bounds_eq : reader.bounds range text item =
    .ok (i.first range, i.last range (1 < i.every), i.every)
  ordered : i.first range ≤ range.max →
    i.first range ≤ i.last range (1 < i.every)
  low : range.min ≤ i.first range
  high : i.last range (1 < i.every) ≤ range.max
  positive : 0 < i.every
  word : i.every < 2 ^ 32
  plain : reader = .console → ∀ only, i.span = .value only → i.every = 1

theorem accepted_partRange (hrange : range.min ≤ range.max)
    (hpart : Schedule.CronExpr.partRange item range.min range.max =
      .ok (first, last, step)) :
    ∃ i, itemOf item = some i ∧ BoundsOf range i first last ∧ step = i.every ∧
      range.min ≤ first ∧ last ≤ range.max ∧ 0 < step ∧ step < 2 ^ 32 := by
  obtain ⟨⟨base, found⟩, hstep, hpart⟩ := bind_eq_ok.mp hpart
  obtain ⟨⟨lo, hi⟩, hbounds, hpart⟩ := bind_eq_ok.mp hpart
  dsimp only at hbounds hpart
  split at hpart
  next => cases hpart
  next hin =>
    cases hpart
    rw [not_or, not_lt, not_lt] at hin
    rw [Schedule.CronExpr.partStep] at hstep
    rw [itemOf]
    cases hsplit : splitOnceAt '/' item with
    | none =>
        rw [hsplit] at hstep
        cases hstep
        obtain ⟨span, hspan, hof⟩ := boundsOf_partBounds hrange
          (show none.getD 1 = 1 from rfl) hbounds
        exact ⟨⟨span, none⟩, by rw [hspan]; rfl, hof, rfl, hin.1, hin.2,
          by decide, by decide⟩
    | some parts =>
        rw [hsplit] at hstep
        dsimp only at hstep
        split at hstep
        next => cases hstep
        next n hn =>
          split at hstep
          next => cases hstep
          next hzero =>
            cases hstep
            obtain ⟨span, hspan, hof⟩ := boundsOf_partBounds hrange
              (show (some step).getD 1 = step from rfl) hbounds
            refine ⟨⟨span, some step⟩, ?_, hof, rfl, hin.1, hin.2,
              Nat.pos_of_ne_zero hzero, parseU32_lt hn⟩
            simp [hspan, hn]

/-- The console gives a single value no step but one. -/
theorem every_of_termRange
    (hterm : termRange item text range = .ok (first, last, step))
    (hitem : itemOf item = some i) (hspan : i.span = .value only) :
    step = 1 := by
  rw [termRange] at hterm
  split at hterm
  next => cases hterm
  next =>
    split at hterm
    next => cases hterm
    next =>
      obtain ⟨⟨base, found⟩, hstep, hterm⟩ := bind_eq_ok.mp hterm
      obtain ⟨⟨lo, hi⟩, hbounds, hterm⟩ := bind_eq_ok.mp hterm
      cases hterm
      have hbase : spanOf base = some (.value only) := by
        rw [termStep] at hstep
        rw [itemOf] at hitem
        cases hsplit : splitOnceAt '/' item with
        | none =>
            rw [hsplit] at hstep hitem
            cases hstep
            obtain ⟨span, hfound, rfl⟩ := Option.map_eq_some_iff.mp hitem
            exact hfound.trans (congrArg some hspan)
        | some parts =>
            rw [hsplit] at hstep hitem
            obtain ⟨n, -, hstep⟩ := bind_eq_ok.mp hstep
            split at hstep
            next => cases hstep
            next =>
              cases hstep
              obtain ⟨span, hfound, hitem⟩ := Option.bind_eq_some_iff.mp hitem
              obtain ⟨every, -, hitem⟩ := Option.bind_eq_some_iff.mp hitem
              cases hitem
              exact hfound.trans (congrArg some hspan)
      rw [termBounds] at hbounds
      rw [spanOf] at hbase
      split at hbase
      next => cases hbase
      next hstar =>
        rw [if_neg hstar] at hbounds
        cases hsplit : splitOnceAt '-' base with
        | some parts =>
            rw [hsplit] at hbase
            obtain ⟨a, -, hbase⟩ := Option.bind_eq_some_iff.mp hbase
            obtain ⟨b, -, hbase⟩ := Option.bind_eq_some_iff.mp hbase
            cases hbase
        | none =>
            rw [hsplit] at hbounds
            obtain ⟨v, -, hbounds⟩ := bind_eq_ok.mp hbounds
            obtain ⟨-, -, hbounds⟩ := bind_eq_ok.mp hbounds
            split at hbounds
            next => cases hbounds
            next hone => exact not_not.mp hone

theorem accepted_of_bounds (hrange : range.min ≤ range.max)
    (hbounds : reader.bounds range text item = .ok (first, last, step)) :
    ∃ i, Accepted reader range text item i ∧
      (first, last, step) =
        (i.first range, i.last range (1 < i.every), i.every) := by
  have hpart : Schedule.CronExpr.partRange item range.min range.max =
      .ok (first, last, step) := by
    cases reader with
    | daemon expr => exact hbounds
    | console => exact (partRange_of_termRange hrange hbounds).1
  obtain ⟨i, hitem, ⟨rfl, rfl, hordered⟩, rfl, hlow, hhigh, hpositive, hword⟩ :=
    accepted_partRange hrange hpart
  refine ⟨i, ⟨hitem, hbounds, hordered, hlow, hhigh, hpositive, hword, ?_⟩, rfl⟩
  rintro rfl only hspan
  exact every_of_termRange hbounds hitem hspan

theorem mem_itemsOf : i ∈ itemsOf text ↔
    ∃ item ∈ text.splitOn ',', itemOf item = some i :=
  List.mem_filterMap

/-- A field that is read: each item is accepted, and the set has just what the
counter goes through. -/
theorem parseField_values {set : BitVec 64} (hrange : range.min ≤ range.max)
    (hword : range.max < 64)
    (hparse : reader.parseField range text = .ok set) :
    (∀ item ∈ text.splitOn ',', ∃ i, Accepted reader range text item i) ∧
      ∀ value, set.getLsbD value = true ↔ ∃ i ∈ itemsOf text,
        value ∈ stepValues i.every (i.last range (1 < i.every))
          (i.last range (1 < i.every) + 1) (i.first range) := by
  have hfold : (text.splitOn ',').foldlM (addEvery (reader.bounds range text))
      0#64 = .ok set := by
    cases reader with
    | daemon expr =>
        obtain ⟨mask, hmask, hsame⟩ : ∃ mask,
            Schedule.CronExpr.parseMask text range.min range.max = .ok mask ∧
              mask = set := by
          change (Schedule.CronExpr.parseMask text range.min
            range.max).mapError _ = _ at hparse
          cases hmask : Schedule.CronExpr.parseMask text range.min range.max with
          | error why =>
              rw [hmask] at hparse
              cases hparse
          | ok mask =>
              rw [hmask] at hparse
              exact ⟨mask, rfl, Except.ok.inj hparse⟩
        subst hsame
        obtain ⟨found, hfound, hmask⟩ := bind_eq_ok.mp hmask
        split at hmask
        next => cases hmask
        next =>
          cases hmask
          exact hfound
    | console => exact hparse
  obtain ⟨hall, hvalues⟩ := getLsbD_foldlM_addEvery hfold
    (fun part first last step hbounds => by
      obtain ⟨i, hi, heq⟩ := accepted_of_bounds hrange hbounds
      cases heq
      exact hi.high.trans_lt hword)
  have haccepted : ∀ item ∈ text.splitOn ',',
      ∃ i, Accepted reader range text item i := by
    intro item hitem
    obtain ⟨first, last, step, hbounds⟩ := hall item hitem
    obtain ⟨i, hi, -⟩ := accepted_of_bounds hrange hbounds
    exact ⟨i, hi⟩
  refine ⟨haccepted, fun value => (hvalues value).trans ?_⟩
  rw [or_iff_right (by simp)]
  constructor
  · rintro ⟨item, hitem, first, last, step, hbounds, hvalue⟩
    obtain ⟨i, hi, heq⟩ := accepted_of_bounds hrange hbounds
    cases heq
    exact ⟨i, mem_itemsOf.mpr ⟨item, hitem, hi.item_eq⟩, hvalue⟩
  · rintro ⟨i, hi, hvalue⟩
    obtain ⟨item, hitem, hof⟩ := mem_itemsOf.mp hi
    obtain ⟨other, hother⟩ := haccepted item hitem
    cases hof.symm.trans hother.item_eq
    exact ⟨item, hitem, _, _, _, hother.bounds_eq, hvalue⟩

end Items

section Reading

variable {field : Field} {text : List Char} {reader : Reader}
  {set : BitVec 64} {i : Item} {value : Nat}

theorem Field.range_le (field : Field) : field.range.min ≤ field.range.max := by
  cases field <;> decide

theorem Field.range_lt (field : Field) : field.range.max < 64 := by
  cases field <;> decide

/-- The last value that is read is the last that is written, unless a single
value has a step of one. -/
theorem denotes_iff {range : FieldRange} {item : List Char}
    (hi : Accepted reader range text item i) :
    reader.Denotes range i value ↔ i.Covers range (1 < i.every) value ∨
      reader ≠ .console ∧ i.step = some 1 ∧ ∃ only, i.span = .value only ∧
        only < value ∧ value ≤ range.max := by
  obtain ⟨span, step⟩ := i
  have hhigh := hi.high
  have hpositive := hi.positive
  have hplain := hi.plain
  cases reader with
  | console =>
      cases span with
      | star => simp [Reader.Denotes, Item.Covers, Item.first, Item.last]
      | range first last =>
          simp [Reader.Denotes, Item.Covers, Item.first, Item.last]
      | value only =>
          have hone := hplain rfl only rfl
          simp [Reader.Denotes, Item.Covers, Item.first, Item.last, hone]
  | daemon expr =>
      cases span with
      | star =>
          simp only [Reader.Denotes, Item.Covers, Item.first, Item.last]
          simp
      | range first last =>
          simp only [Reader.Denotes, Item.Covers, Item.first, Item.last]
          simp
      | value only =>
          cases step with
          | none =>
              simp [Reader.Denotes, Item.Covers, Item.first, Item.last,
                Item.every]
          | some n =>
              rcases Nat.lt_trichotomy n 1 with hlt | rfl | hgt
              · simp only [Item.every, Option.getD_some] at hpositive
                omega
              · simp only [Item.last, Item.every, Option.getD_some, lt_irrefl,
                  decide_false] at hhigh
                simp only [Reader.Denotes, Item.Covers, Item.first, Item.last,
                  Item.every, Option.getD_some, Option.isSome_some, if_true,
                  lt_irrefl, decide_false, Nat.mod_one, and_true]
                constructor
                · rintro ⟨hlow, hin⟩
                  rcases Nat.eq_or_lt_of_le hlow with rfl | hlater
                  · exact .inl ⟨le_refl _, le_refl _⟩
                  · exact .inr ⟨nofun, trivial, only, rfl, hlater, hin⟩
                · rintro (⟨hlow, hin⟩ | ⟨-, -, other, hother, hlater, hin⟩)
                  · exact ⟨hlow, hin.trans hhigh⟩
                  · cases hother
                    exact ⟨hlater.le, hin⟩
              · simp [Reader.Denotes, Item.Covers, Item.first, Item.last,
                  Item.every, hgt, Nat.ne_of_gt hgt]

theorem mem_stepValues_of_accepted {item : List Char}
    (hi : Accepted reader field.range text item i)
    (hshort : i.first field.range ≤ field.range.max →
      i.first field.range + i.every < 2 ^ 32) :
    value ∈ stepValues i.every (i.last field.range (1 < i.every))
        (i.last field.range (1 < i.every) + 1) (i.first field.range) ↔
      i.Covers field.range (1 < i.every) value :=
  mem_stepValues_iff hi.positive (hi.high.trans_lt field.range_lt)
    (fun hin => hshort (hin.trans hi.high)) (Nat.le_add_left _ _)

theorem accepted_of_mem
    (hall : ∀ item ∈ text.splitOn ',', ∃ i,
      Accepted reader field.range text item i) (hi : i ∈ itemsOf text) :
    ∃ item ∈ text.splitOn ',', Accepted reader field.range text item i := by
  obtain ⟨item, hitem, hof⟩ := mem_itemsOf.mp hi
  obtain ⟨other, hother⟩ := hall item hitem
  cases hof.symm.trans hother.item_eq
  exact ⟨item, hitem, hother⟩

theorem readAsWritten_of_plainSteps
    (hparse : reader.parseField field.range text = .ok set)
    (hplain : PlainSteps reader field text) :
    ReadAsWritten reader field text set := by
  obtain ⟨hall, hvalues⟩ := parseField_values field.range_le field.range_lt
    hparse
  have hread : ∀ value, set.getLsbD value = true ↔ ∃ i ∈ itemsOf text,
      i.Covers field.range (1 < i.every) value := by
    intro value
    rw [hvalues]
    refine exists_congr fun i => and_congr_right fun hi => ?_
    obtain ⟨item, -, haccepted⟩ := accepted_of_mem hall hi
    exact mem_stepValues_of_accepted haccepted (hplain.short i hi)
  refine ⟨fun value => ?_, fun value hvalue => ?_, ?_, ?_⟩
  · rw [hread]
    constructor
    · rintro ⟨i, hi, hcovers⟩
      obtain ⟨item, -, haccepted⟩ := accepted_of_mem hall hi
      exact ⟨i, hi, (denotes_iff haccepted).mpr (.inl hcovers)⟩
    · rintro ⟨i, hi, hdenotes⟩
      obtain ⟨item, -, haccepted⟩ := accepted_of_mem hall hi
      rcases (denotes_iff haccepted).mp hdenotes with hcovers |
        ⟨hdaemon, hone, only, hspan, hlater, hin⟩
      · exact ⟨i, hi, hcovers⟩
      · exact hplain.single hdaemon i hi hone only hspan value hlater hin
  · obtain ⟨i, hi, hlow, hhigh, -⟩ := (hread value).mp hvalue
    obtain ⟨item, -, haccepted⟩ := accepted_of_mem hall hi
    exact ⟨haccepted.low.trans hlow, hhigh.trans haccepted.high⟩
  · intro item hitem first last step hbounds value hvalue
    obtain ⟨i, hi⟩ := hall item hitem
    cases hi.bounds_eq.symm.trans hbounds
    have hshort := hplain.short i (mem_itemsOf.mpr ⟨item, hitem, hi.item_eq⟩)
    exact stepValues_room (hi.high.trans_lt field.range_lt)
      (fun hin => hshort (hin.trans hi.high)) hvalue
  · intro item hitem first last step hbounds rounds hrounds
    obtain ⟨i, hi⟩ := hall item hitem
    cases hi.bounds_eq.symm.trans hbounds
    have hlast := hi.high.trans_lt field.range_lt
    have hleft : roundsLeft i.every (i.last field.range (1 < i.every))
        (i.first field.range) ≤ i.last field.range (1 < i.every) + 1 := by
      rw [roundsLeft]
      split
      · exact Nat.zero_le _
      · split <;> omega
    exact stepValues_enough hi.positive (by omega) (hleft.trans hrounds) hleft
      hi.word

theorem plainSteps_of_readAsWritten
    (hparse : reader.parseField field.range text = .ok set)
    (hread : ReadAsWritten reader field text set) :
    PlainSteps reader field text := by
  obtain ⟨hall, hvalues⟩ := parseField_values field.range_le field.range_lt
    hparse
  have hshort : ∀ i ∈ itemsOf text, i.first field.range ≤ field.range.max →
      i.first field.range + i.every < 2 ^ 32 := by
    intro i hi hin
    obtain ⟨item, hitem, haccepted⟩ := accepted_of_mem hall hi
    refine hread.counted item hitem _ _ _ haccepted.bounds_eq _ ?_
    rw [stepValues, if_pos (haccepted.ordered hin)]
    exact List.mem_cons_self
  refine ⟨hshort, ?_⟩
  intro hdaemon i hi hone only hspan value hlater hin
  obtain ⟨item, -, haccepted⟩ := accepted_of_mem hall hi
  have hset := (hread.values value).mpr ⟨i, hi, (denotes_iff haccepted).mpr
    (.inr ⟨hdaemon, hone, only, hspan, hlater, hin⟩)⟩
  obtain ⟨other, hother, hvisited⟩ := (hvalues value).mp hset
  obtain ⟨text, -, hof⟩ := accepted_of_mem hall hother
  exact ⟨other, hother,
    (mem_stepValues_of_accepted hof (hshort other hother)).mp hvisited⟩

/-- A field that is accepted is read as it is written just when its steps are
plain. -/
theorem parseField_asWritten_iff (reader : Reader) (field : Field)
    (text : List Char) (set : BitVec 64)
    (hparse : reader.parseField field.range text = .ok set) :
    ReadAsWritten reader field text set ↔ PlainSteps reader field text :=
  ⟨plainSteps_of_readAsWritten hparse, readAsWritten_of_plainSteps hparse⟩

/-- Every quarter of an hour, as the console reads it. -/
def quarters : BitVec 64 :=
  insertEvery 0#64 0 59 15

theorem parseField_asWritten_quarters :
    Reader.console.parseField Field.minute.range "*/15".toList = .ok quarters ∧
      (ReadAsWritten .console .minute "*/15".toList quarters ↔
        PlainSteps .console .minute "*/15".toList) :=
  ⟨rfl, parseField_asWritten_iff .console .minute "*/15".toList quarters rfl⟩

/-- The longest step goes from the first day of a month to day zero; and a step
of one keeps a single minute. -/
theorem parseField_beside_written :
    (∃ set, Reader.console.parseField Field.dom.range "*/4294967295".toList =
        .ok set ∧ ¬ ReadAsWritten .console .dom "*/4294967295".toList set) ∧
      ∃ set, (Reader.daemon "5/1 * * * *").parseField Field.minute.range
          "5/1".toList = .ok set ∧
        ¬ ReadAsWritten (.daemon "5/1 * * * *") .minute "5/1".toList set := by
  refine ⟨⟨insertEvery 0#64 1 31 4294967295, rfl, ?_⟩,
    insertEvery 0#64 5 5 1, rfl, ?_⟩
  · intro hread
    have hzero := hread.within 0 (by decide)
    exact absurd hzero.1 (by decide)
  · intro hread
    have hlater : (insertEvery 0#64 5 5 1).getLsbD 6 = true :=
      (hread.values 6).mpr ⟨⟨.value 5, some 1⟩, List.mem_singleton_self _,
        by decide, by decide, by decide⟩
    exact absurd hlater (by decide)

end Reading

end Web

end XBackup
