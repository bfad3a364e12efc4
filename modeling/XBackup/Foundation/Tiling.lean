/-
Half-open intervals laid end to start: they cover what lies between the first
start and the last end, every position once.
-/
import Mathlib

namespace Tiling

universe u

variable {α : Type u} [LinearOrder α]

/-- Each interval starts where the one before it ends, the first at `start`. -/
def Chained : α → List (α × α) → Prop
  | _, [] => True
  | start, interval :: rest =>
      interval.1 = start ∧ start ≤ interval.2 ∧ Chained interval.2 rest

def lastEnd : α → List (α × α) → α
  | start, [] => start
  | _, interval :: rest => lastEnd interval.2 rest

/-- The position lies in the interval, whose start is left out. -/
def covers (position : α) (interval : α × α) : Bool :=
  interval.1 < position ∧ position ≤ interval.2

/-- Every position behind `start` and up to `finish` is covered once, and no
other one is. -/
def Tiles (start finish : α) (intervals : List (α × α)) : Prop :=
  ∀ position, intervals.countP (covers position) =
    if start < position ∧ position ≤ finish then 1 else 0

variable {start : α} {intervals front : List (α × α)} {interval : α × α}

omit [LinearOrder α] in
@[simp] theorem lastEnd_append_singleton (start : α)
    (intervals : List (α × α)) (interval : α × α) :
    lastEnd start (intervals ++ [interval]) = interval.2 := by
  induction intervals generalizing start with
  | nil => rfl
  | cons head rest ih => exact ih head.2

theorem chained_append_singleton :
    Chained start (intervals ++ [interval]) ↔
      Chained start intervals ∧ interval.1 = lastEnd start intervals ∧
        interval.1 ≤ interval.2 := by
  induction intervals generalizing start with
  | nil =>
      simp only [List.nil_append, Chained, lastEnd, and_true, true_and]
      constructor
      · rintro ⟨rfl, hle⟩
        exact ⟨rfl, hle⟩
      · rintro ⟨rfl, hle⟩
        exact ⟨rfl, hle⟩
  | cons head rest ih =>
      rw [List.cons_append, Chained, Chained, ih, lastEnd]
      simp only [and_assoc]

theorem Chained.of_prefix (hchained : Chained start intervals)
    (hfront : front <+: intervals) : Chained start front := by
  induction front generalizing start intervals with
  | nil => trivial
  | cons head front ih =>
      obtain ⟨rest, rfl⟩ := hfront
      rw [List.cons_append, Chained] at hchained
      obtain ⟨hstart, hle, hrest⟩ := hchained
      exact ⟨hstart, hle, ih hrest (List.prefix_append front rest)⟩

theorem Chained.start_le_lastEnd (hchained : Chained start intervals) :
    start ≤ lastEnd start intervals := by
  induction intervals generalizing start with
  | nil => exact le_refl start
  | cons head rest ih =>
      obtain ⟨-, hle, hrest⟩ := hchained
      exact hle.trans (ih hrest)

theorem Chained.start_le (hchained : Chained start intervals)
    (hmem : interval ∈ intervals) : start ≤ interval.1 := by
  induction intervals generalizing start with
  | nil => cases hmem
  | cons head rest ih =>
      obtain ⟨hstart, hle, hrest⟩ := hchained
      rcases List.mem_cons.mp hmem with rfl | htail
      · exact hstart.ge
      · exact hle.trans (ih hrest htail)

theorem Chained.le_lastEnd (hchained : Chained start intervals)
    (hmem : interval ∈ intervals) : interval.2 ≤ lastEnd start intervals := by
  induction intervals generalizing start with
  | nil => cases hmem
  | cons head rest ih =>
      obtain ⟨-, -, hrest⟩ := hchained
      rcases List.mem_cons.mp hmem with rfl | htail
      · exact hrest.start_le_lastEnd
      · exact ih hrest htail

/-- The starts ascend. -/
theorem Chained.pairwise (hchained : Chained start intervals) :
    intervals.Pairwise fun left right => left.1 ≤ right.1 := by
  induction intervals generalizing start with
  | nil => exact List.Pairwise.nil
  | cons head rest ih =>
      obtain ⟨hstart, hle, hrest⟩ := hchained
      refine List.pairwise_cons.mpr ⟨?_, ih hrest⟩
      intro other hother
      rw [hstart]
      exact hle.trans (hrest.start_le hother)

/-- Intervals laid end to start tile. -/
theorem Chained.tiles (hchained : Chained start intervals) :
    Tiles start (lastEnd start intervals) intervals := by
  intro position
  induction intervals generalizing start with
  | nil =>
      rw [List.countP_nil, lastEnd, if_neg]
      rintro ⟨hlt, hle⟩
      exact absurd hle hlt.not_ge
  | cons head rest ih =>
      obtain ⟨hstart, hle, hrest⟩ := hchained
      have hend := hrest.start_le_lastEnd
      rw [List.countP_cons, ih hrest, lastEnd]
      simp only [covers, hstart, decide_eq_true_eq]
      rcases le_or_gt position head.2 with hin | hbehind
      · simp only [hin.not_gt, hin, hin.trans hend, and_true, if_false,
          Nat.zero_add]
      · simp only [hbehind, hle.trans_lt hbehind, hbehind.not_ge, true_and,
          and_false, if_false, Nat.add_zero]

end Tiling
