/-
Lists cut into pieces.  Pieces of one size are built up item by item; what
holds of all of them is said of the places where they stand.
-/
import Mathlib.Data.List.SplitLengths

namespace Chunks

variable {α β : Type}

/-- Pieces of `size` items, behind the piece under construction. -/
def pieces (size : Nat) (current : List α) : List α → List (List α)
  | [] => if current.isEmpty then [] else [current]
  | item :: rest =>
      if current.length = size then current :: pieces size [item] rest
      else pieces size (current ++ [item]) rest

theorem pieces_map (f : α → β) (size : Nat) (current items : List α) :
    pieces size (current.map f) (items.map f) =
      (pieces size current items).map (List.map f) := by
  induction items generalizing current with
  | nil => cases current <;> rfl
  | cons item rest ih =>
      rw [List.map_cons, pieces, pieces, List.length_map]
      by_cases hfull : current.length = size
      · rw [if_pos hfull, if_pos hfull, List.map_cons, ← ih]
        rfl
      · rw [if_neg hfull, if_neg hfull, ← ih, List.map_append]
        rfl

theorem ne_nil_of_mem_pieces {size : Nat} (hsize : 0 < size)
    {current items piece : List α}
    (hpiece : piece ∈ pieces size current items) : piece ≠ [] := by
  induction items generalizing current with
  | nil =>
      rw [pieces] at hpiece
      split at hpiece
      next => cases hpiece
      next hne => exact List.mem_singleton.mp hpiece ▸ by simpa using hne
  | cons item rest ih =>
      rw [pieces] at hpiece
      split at hpiece
      next hfull =>
        rcases List.mem_cons.mp hpiece with rfl | hlater
        · exact List.length_pos_iff.mp (hfull ▸ hsize)
        · exact ih hlater
      next => exact ih hpiece

/-- The first piece is as long as it may be. -/
theorem pieces_of_ne_nil {size : Nat} (hsize : 0 < size)
    {current items : List α} (hroom : current.length ≤ size)
    (hne : current ++ items ≠ []) :
    pieces size current items = (current ++ items).take size ::
      pieces size [] ((current ++ items).drop size) := by
  induction items generalizing current with
  | nil =>
      rw [List.append_nil] at hne ⊢
      have hempty : current.isEmpty = false := List.isEmpty_eq_false_iff.mpr hne
      rw [List.take_of_length_le hroom, List.drop_of_length_le hroom, pieces,
        hempty]
      rfl
  | cons item rest ih =>
      rw [pieces]
      by_cases hfull : current.length = size
      · have hfresh : ([] : List α).length ≠ size := Nat.ne_of_lt hsize
        rw [if_pos hfull, List.take_left' hfull, List.drop_left' hfull, pieces,
          if_neg hfresh]
        rfl
      · have hmore : (current ++ [item]).length ≤ size := by
          rw [List.length_append, List.length_singleton]
          omega
        rw [if_neg hfull, ih hmore (by simp), List.append_assoc,
          List.singleton_append]

/-- The pieces are what stands at the multiples of the size. -/
theorem forall_pieces_iff {size : Nat} (hsize : 0 < size) {P : List α → Prop}
    (hnil : P []) (items : List α) :
    (∀ piece ∈ pieces size [] items, P piece) ↔
      ∀ k, P ((items.drop (size * k)).take size) := by
  induction hlength : items.length using Nat.strong_induction_on generalizing
    items with
  | h n ih =>
      by_cases hne : items = []
      · subst hne
        simpa [pieces] using hnil
      · have hpos : 0 < items.length := List.length_pos_iff.mpr hne
        have hrest := ih (items.drop size).length
          (by rw [List.length_drop]; omega) (items.drop size) rfl
        have hcut :=
          @pieces_of_ne_nil α size hsize [] items (Nat.zero_le size) hne
        rw [hcut, List.forall_mem_cons, List.nil_append, hrest]
        constructor
        · rintro ⟨hfirst, hlater⟩ k
          cases k with
          | zero => exact hfirst
          | succ k =>
              rw [Nat.mul_succ, Nat.add_comm, ← List.drop_drop]
              exact hlater k
        · intro hall
          refine ⟨hall 0, fun k => ?_⟩
          rw [List.drop_drop, Nat.add_comm, ← Nat.mul_succ]
          exact hall (k + 1)

theorem flatten_pieces (size : Nat) (current items : List α) :
    (pieces size current items).flatten = current ++ items := by
  induction items generalizing current with
  | nil => cases current <;> simp [pieces]
  | cons item rest ih =>
      rw [pieces]
      split
      next => simp [ih]
      next => simp [ih]

/-- The lengths of groups say where they are cut. -/
theorem splitLengths_of_prefix {groups : List (List α)} {items : List α}
    (hbefore : groups.flatten <+: items) :
    (groups.map List.length).splitLengths items = groups := by
  induction groups generalizing items with
  | nil => rfl
  | cons group rest ih =>
      obtain ⟨behind, rfl⟩ := hbefore
      rw [List.flatten_cons, List.append_assoc, List.map_cons,
        List.splitLengths_cons, List.take_left, List.drop_left,
        ih (List.prefix_append _ _)]

end Chunks
