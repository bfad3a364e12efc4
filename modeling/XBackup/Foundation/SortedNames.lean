/-
Sorted lists of names without repetition: sorting and dropping neighbours that
repeat, the last name that satisfies a partial test, and filters that keep a
prefix.
-/
import Mathlib

namespace SortedNames

universe u v

variable {α : Type u} {β : Type v}

/-- Drop every element that repeats its predecessor. -/
def dedupConsecutive [DecidableEq α] : List α → List α
  | [] => []
  | [name] => [name]
  | first :: second :: rest =>
      if first = second then dedupConsecutive (second :: rest)
      else first :: dedupConsecutive (second :: rest)

def sortDedup [LinearOrder α] (names : List α) : List α :=
  dedupConsecutive (names.insertionSort (· ≤ ·))

theorem mem_dedupConsecutive [DecidableEq α] {names : List α} {name : α} :
    name ∈ dedupConsecutive names ↔ name ∈ names := by
  induction names with
  | nil => simp [dedupConsecutive]
  | cons first rest ih =>
      cases rest with
      | nil => simp [dedupConsecutive]
      | cons second rest =>
          rw [dedupConsecutive]
          by_cases heq : first = second
          · subst heq
            simpa using ih
          · rw [if_neg heq, List.mem_cons, ih, ← List.mem_cons]

theorem dedupConsecutive_pairwise [LinearOrder α] {names : List α}
    (hsorted : names.Pairwise (· ≤ ·)) :
    (dedupConsecutive names).Pairwise (· < ·) := by
  induction names with
  | nil => exact List.Pairwise.nil
  | cons first rest ih =>
      obtain ⟨hfirst, hrest⟩ := List.pairwise_cons.mp hsorted
      cases rest with
      | nil => exact List.pairwise_singleton _ _
      | cons second rest =>
          rw [dedupConsecutive]
          by_cases heq : first = second
          · rw [if_pos heq]
            exact ih hrest
          · rw [if_neg heq]
            refine List.pairwise_cons.mpr ⟨?_, ih hrest⟩
            intro name hname
            have hsecond : first < second :=
              lt_of_le_of_ne (hfirst second (by simp)) heq
            rcases List.mem_cons.mp (mem_dedupConsecutive.mp hname) with
              rfl | hlater
            · exact hsecond
            · exact hsecond.trans_le ((List.pairwise_cons.mp hrest).1 name hlater)

@[simp] theorem mem_sortDedup [LinearOrder α] {names : List α} {name : α} :
    name ∈ sortDedup names ↔ name ∈ names := by
  simp [sortDedup, mem_dedupConsecutive]

theorem sortDedup_pairwise [LinearOrder α] (names : List α) :
    (sortDedup names).Pairwise (· < ·) :=
  dedupConsecutive_pairwise (List.pairwise_insertionSort _ names)

/-- Sorting twice changes nothing. -/
theorem insertionSort_sortDedup [LinearOrder α] (names : List α) :
    (sortDedup names).insertionSort (· ≤ ·) = sortDedup names :=
  List.Pairwise.insertionSort_eq ((sortDedup_pairwise names).imp le_of_lt)

theorem dedupConsecutive_eq_self [LinearOrder α] {names : List α}
    (hnames : names.Pairwise (· < ·)) : dedupConsecutive names = names := by
  induction names with
  | nil => rfl
  | cons first rest ih =>
      obtain ⟨hfirst, hrest⟩ := List.pairwise_cons.mp hnames
      cases rest with
      | nil => rfl
      | cons second rest =>
          have hne : first ≠ second := (hfirst second List.mem_cons_self).ne
          rw [dedupConsecutive, if_neg hne, ih hrest]

/-- Names that ascend are left as they are. -/
theorem sortDedup_eq_self [LinearOrder α] {names : List α}
    (hnames : names.Pairwise (· < ·)) : sortDedup names = names := by
  rw [sortDedup, List.Pairwise.insertionSort_eq (hnames.imp le_of_lt)]
  exact dedupConsecutive_eq_self hnames

/-- The first hit from the top is the greatest name with a hit. -/
theorem findSome_reverse_eq_some_iff [LinearOrder α] {names : List α}
    {test : α → Option β} {hit : β} (hnames : names.Pairwise (· < ·)) :
    names.reverse.findSome? test = some hit ↔
      ∃ name ∈ names, test name = some hit ∧
        ∀ other ∈ names, (test other).isSome → other ≤ name := by
  induction names with
  | nil => simp
  | cons first rest ih =>
      obtain ⟨hfirst, hrest⟩ := List.pairwise_cons.mp hnames
      rw [List.reverse_cons, List.findSome?_append]
      cases htail : rest.reverse.findSome? test with
      | some found =>
          have hiff := ih hrest
          rw [htail] at hiff
          simp only [Option.some_or]
          constructor
          · intro heq
            obtain ⟨name, hname, hhit, hmax⟩ := hiff.mp heq
            refine ⟨name, List.mem_cons_of_mem first hname, hhit, ?_⟩
            intro other hother htest
            rcases List.mem_cons.mp hother with rfl | hlater
            · exact (hfirst name hname).le
            · exact hmax other hlater htest
          · rintro ⟨name, hname, hhit, hmax⟩
            rcases List.mem_cons.mp hname with rfl | hlater
            · obtain ⟨witness, hwitness, hsome⟩ :=
                List.exists_of_findSome?_eq_some htail
              have hmem := List.mem_reverse.mp hwitness
              have hle := hmax witness (List.mem_cons_of_mem _ hmem)
                (by simp [hsome])
              exact absurd (hfirst witness hmem) (not_lt.mpr hle)
            · exact hiff.mpr ⟨name, hlater, hhit, fun other hother =>
                hmax other (List.mem_cons_of_mem first hother)⟩
      | none =>
          have hnone := List.findSome?_eq_none_iff.mp htail
          simp only [Option.none_or, List.findSome?_singleton]
          constructor
          · intro heq
            refine ⟨first, by simp, heq, ?_⟩
            intro other hother htest
            rcases List.mem_cons.mp hother with rfl | hlater
            · exact le_rfl
            · simp [hnone other (List.mem_reverse.mpr hlater)] at htest
          · rintro ⟨name, hname, hhit, -⟩
            rcases List.mem_cons.mp hname with rfl | hlater
            · exact hhit
            · simp [hnone name (List.mem_reverse.mpr hlater)] at hhit

/-- A filter keeps a prefix exactly when nothing is kept behind an element it
drops. -/
theorem filter_isPrefix_iff {keep : α → Bool} {names : List α} :
    names.filter keep <+: names ↔
      ∀ before dropped after, names = before ++ dropped :: after →
        keep dropped = false → ∀ name ∈ after, keep name = false := by
  induction names with
  | nil => simp
  | cons first rest ih =>
      cases hkeep : keep first with
      | true =>
          rw [List.filter_cons_of_pos hkeep, List.cons_prefix_cons]
          simp only [true_and]
          rw [ih]
          constructor
          · intro hrest before dropped after hsplit hdropped
            cases before with
            | nil =>
                cases hsplit
                simp [hkeep] at hdropped
            | cons head before =>
                cases hsplit
                exact hrest before dropped after rfl hdropped
          · intro hall before dropped after hsplit
            exact hall (first :: before) dropped after (by rw [hsplit]; rfl)
      | false =>
          rw [List.filter_cons_of_neg (by simp [hkeep])]
          constructor
          · intro hleading before dropped after hsplit hdropped name hname
            by_contra hname'
            have hmem : name ∈ rest.filter keep := by
              refine List.mem_filter.mpr ⟨?_, by simpa using hname'⟩
              cases before with
              | nil =>
                  cases hsplit
                  exact hname
              | cons head before =>
                  cases hsplit
                  exact List.mem_append_right _
                    (List.mem_cons_of_mem _ hname)
            cases hfilter : rest.filter keep with
            | nil => simp [hfilter] at hmem
            | cons kept more =>
                rw [hfilter, List.cons_prefix_cons] at hleading
                have hkept : kept ∈ rest.filter keep := by simp [hfilter]
                have htrue := (List.mem_filter.mp hkept).2
                rw [hleading.1, hkeep] at htrue
                cases htrue
          · intro hall
            have hnone : rest.filter keep = [] := by
              refine List.filter_eq_nil_iff.mpr ?_
              intro name hname
              simp [hall [] first rest rfl hkeep name hname]
            rw [hnone]
            exact List.nil_prefix

end SortedNames
