/-
Lists cut into sections by the items that close one, and a run of sections that
ends with the one that fills a budget.
-/
import Mathlib

namespace Sections

universe u

variable {α : Type u}

section Closing

variable (closes : α → Bool)

def push (sections : List (List α) × List α) (item : α) :
    List (List α) × List α :=
  if closes item then (sections.1 ++ [sections.2], [])
  else (sections.1, sections.2 ++ [item])

/-- The closed sections, each without the item that closes it, and the open
one. -/
def sections (items : List α) : List (List α) × List α :=
  items.foldl (push closes) ([], [])

variable {closes} {items front rest : List α} {item : α}

theorem sections_closing (hcloses : closes item = true) :
    sections closes (items ++ [item]) =
      ((sections closes items).1 ++ [(sections closes items).2], []) := by
  rw [sections, List.foldl_concat, push, if_pos hcloses, sections]

theorem sections_other (hcloses : ¬ closes item = true) :
    sections closes (items ++ [item]) =
      ((sections closes items).1, (sections closes items).2 ++ [item]) := by
  rw [sections, List.foldl_concat, push, if_neg hcloses, sections]

/-- Behind a closed list the sections start anew. -/
theorem sections_append (hfront : (sections closes front).2 = []) :
    sections closes (front ++ rest) =
      ((sections closes front).1 ++ (sections closes rest).1,
        (sections closes rest).2) := by
  induction rest using List.reverseRecOn with
  | nil =>
      rw [List.append_nil]
      exact Prod.ext (by simp [sections]) (by simpa [sections] using hfront)
  | append_singleton rest item ih =>
      rw [← List.append_assoc]
      by_cases hcloses : closes item = true
      · rw [sections_closing hcloses, sections_closing hcloses, ih,
          List.append_assoc]
      · rw [sections_other hcloses, sections_other hcloses, ih]

theorem sections_open (hitems : ∀ item ∈ items, ¬ closes item = true) :
    sections closes items = ([], items) := by
  induction items using List.reverseRecOn with
  | nil => rfl
  | append_singleton items item ih =>
      rw [sections_other (hitems item (by simp)),
        ih fun item hitem => hitems item (by simp [hitem])]

end Closing

/-- The sections up to the one with which their items number `limit`; `held` are
counted already. -/
def fill (limit : Nat) : Nat → List (List α) → List (List α)
  | _, [] => []
  | held, section_ :: rest =>
      section_ :: if limit ≤ held + section_.length then []
        else fill limit (held + section_.length) rest

theorem fill_cons (limit held : Nat) (section_ : List α)
    (rest : List (List α)) :
    fill limit held (section_ :: rest) =
      section_ :: if limit ≤ held + section_.length then []
        else fill limit (held + section_.length) rest := rfl

/-- The filled sections are the first ones. -/
theorem fill_prefix (limit held : Nat) (rest : List (List α)) :
    fill limit held rest <+: rest := by
  induction rest generalizing held with
  | nil => exact List.prefix_rfl
  | cons section_ rest ih =>
      rw [fill_cons, List.prefix_cons_inj]
      split
      · exact List.nil_prefix
      · exact ih _

/-- An item of joined lists is an item of one of them. -/
theorem flatMap_eq_append_cons {β : Type u} {members : β → List α}
    {lists : List β} {front rest : List α} {item : α}
    (hsplit : lists.flatMap members = front ++ item :: rest) :
    ∃ listsBefore found before after listsBehind,
      lists = listsBefore ++ found :: listsBehind ∧
      members found = before ++ item :: after ∧
      front = listsBefore.flatMap members ++ before ∧
      rest = after ++ listsBehind.flatMap members := by
  induction lists generalizing front with
  | nil => simp at hsplit
  | cons first lists ih =>
      rw [List.flatMap_cons] at hsplit
      rcases List.append_eq_append_iff.mp hsplit with
        ⟨middle, rfl, hrest⟩ | ⟨middle, hfirst, hmiddle⟩
      · obtain ⟨listsBefore, found, before, after, listsBehind, rfl, hfound,
          rfl, rfl⟩ := ih hrest
        exact ⟨first :: listsBefore, found, before, after, listsBehind, rfl,
          hfound, by simp, rfl⟩
      · cases middle with
        | nil =>
            obtain ⟨listsBefore, found, before, after, listsBehind, rfl, hfound,
              hfront, rfl⟩ := @ih [] hmiddle.symm
            refine ⟨first :: listsBefore, found, before, after, listsBehind,
              rfl, hfound, ?_, rfl⟩
            rw [List.flatMap_cons, List.append_assoc, ← hfront, hfirst,
              List.append_nil]
            simp
        | cons head middle =>
            obtain ⟨rfl, rfl⟩ := List.cons.inj hmiddle
            exact ⟨[], first, front, middle, lists, rfl, hfirst, by simp, rfl⟩

end Sections
