/-
Readers that take item after item from a stream of bytes, and the places where a
stream of written items can be cut.
-/
import Mathlib

namespace Streams

universe u v

/-- Reads the next item of a stream, or tells its end; an item takes at least
one byte. -/
structure Reader (α : Type u) (ε : Type v) where
  step : List UInt8 → Except ε (Option (α × List UInt8))
  shrinks : ∀ {input item rest}, step input = .ok (some (item, rest)) →
    rest.length < input.length

variable {α : Type u} {ε : Type v} (reader : Reader α ε)

/-- The items of a stream up to its end, or up to one that cannot be read. -/
def Reader.all (input : List UInt8) : List α × Option ε :=
  match _hread : reader.step input with
  | .error err => ([], some err)
  | .ok none => ([], none)
  | .ok (some (item, rest)) =>
      let (items, err) := Reader.all rest
      (item :: items, err)
termination_by input.length
decreasing_by exact reader.shrinks _hread

section Reading

variable {reader} {input rest tail : List UInt8} {item : α} {err : ε}
  {items : List α}

theorem all_of_error (hread : reader.step input = .error err) :
    reader.all input = ([], some err) := by
  rw [Reader.all]
  split
  next found hfound =>
    rw [hread] at hfound
    cases hfound
    rfl
  next hfound => rw [hread] at hfound; cases hfound
  next hfound => rw [hread] at hfound; cases hfound

theorem all_of_end (hread : reader.step input = .ok none) :
    reader.all input = ([], none) := by
  rw [Reader.all]
  split
  next hfound => rw [hread] at hfound; cases hfound
  next => rfl
  next hfound => rw [hread] at hfound; cases hfound

theorem all_of_item (hread : reader.step input = .ok (some (item, rest))) :
    reader.all input = (item :: (reader.all rest).1, (reader.all rest).2) := by
  rw [Reader.all]
  split
  next hfound => rw [hread] at hfound; cases hfound
  next hfound => rw [hread] at hfound; cases hfound
  next hfound =>
    rw [hread] at hfound
    cases hfound
    rfl

/-- Items that are read back are all read before what stands behind them. -/
theorem all_flatten {chunks : List (List UInt8)}
    (hread : List.Forall₂ (fun item chunk => ∀ tail,
      reader.step (chunk ++ tail) = .ok (some (item, tail))) items chunks) :
    reader.all (chunks.flatten ++ tail) =
      (items ++ (reader.all tail).1, (reader.all tail).2) := by
  induction hread with
  | nil => rfl
  | cons hitem _ ih =>
      rw [List.flatten_cons, List.append_assoc, all_of_item (hitem _), ih]
      rfl

end Reading

section Cuts

variable {encode : α → List UInt8} {items : List α} {part tail : List UInt8}

/-- A part of what is written of an item, one byte at least. -/
def Torn (encode : α → List UInt8) (item : α) (part : List UInt8) : Prop :=
  part ≠ [] ∧ part <+: encode item ∧ part ≠ encode item

/-- Every part of a stream ends behind an item, or within one. -/
theorem prefix_flatMap (hbefore : part <+: items.flatMap encode ++ tail) :
    (∃ front, front <+: items ∧ part = front.flatMap encode) ∨
      (∃ front item cut, front ++ [item] <+: items ∧
        part = front.flatMap encode ++ cut ∧ Torn encode item cut) ∨
      ∃ more, more <+: tail ∧ more ≠ [] ∧
        part = items.flatMap encode ++ more := by
  induction items generalizing part with
  | nil =>
      by_cases hpart : part = []
      · exact Or.inl ⟨[], List.nil_prefix, hpart⟩
      · exact Or.inr (Or.inr ⟨part, hbefore, hpart, rfl⟩)
  | cons item items ih =>
      rw [List.flatMap_cons, List.append_assoc] at hbefore
      by_cases hwhole : encode item <+: part
      · obtain ⟨more, rfl⟩ := hwhole
        rw [List.prefix_append_right_inj] at hbefore
        rcases ih hbefore with ⟨front, hfront, rfl⟩ |
          ⟨front, other, cut, hfront, rfl, htorn⟩ | ⟨last, hlast, hsome, rfl⟩
        · exact Or.inl ⟨item :: front, List.cons_prefix_cons.mpr ⟨rfl, hfront⟩,
            rfl⟩
        · refine Or.inr (Or.inl ⟨item :: front, other, cut,
            List.cons_prefix_cons.mpr ⟨rfl, hfront⟩, ?_, htorn⟩)
          rw [List.flatMap_cons, List.append_assoc]
        · refine Or.inr (Or.inr ⟨last, hlast, hsome, ?_⟩)
          rw [List.flatMap_cons, List.append_assoc]
      · have hfirst : part <+: encode item :=
          (List.prefix_or_prefix_of_prefix hbefore
            (List.prefix_append _ _)).resolve_right hwhole
        by_cases hpart : part = []
        · exact Or.inl ⟨[], List.nil_prefix, hpart⟩
        · refine Or.inr (Or.inl ⟨[], item, part, ?_, rfl, hpart, hfirst, ?_⟩)
          · exact List.cons_prefix_cons.mpr ⟨rfl, List.nil_prefix⟩
          · exact fun hsame => hwhole (hsame ▸ List.prefix_refl _)

/-- A stream that is cut ends within one of its chunks, or before it. -/
theorem flatten_cut {chunks : List (List UInt8)}
    (hsome : ∀ chunk ∈ chunks, chunk ≠ []) (hbefore : part <+: chunks.flatten)
    (hcut : part ≠ chunks.flatten) :
    ∃ front chunk cut, front ++ [chunk] <+: chunks ∧
      part = front.flatten ++ cut ∧ cut <+: chunk ∧ cut ≠ chunk := by
  have hflatten : ∀ front : List (List UInt8),
      front.flatMap id = front.flatten := fun front => by
    rw [List.flatMap_def, List.map_id]
  have hparts : part <+: chunks.flatMap id ++ [] := by
    rwa [hflatten, List.append_nil]
  rcases prefix_flatMap hparts with ⟨front, hfront, rfl⟩ |
    ⟨front, chunk, cut, hfront, rfl, -, hcutPrefix, hcutShort⟩ |
    ⟨more, hmore, hrest, -⟩
  · obtain ⟨rest, rfl⟩ := hfront
    rw [hflatten] at hcut ⊢
    cases rest with
    | nil => exact absurd (by rw [List.append_nil]) hcut
    | cons chunk rest =>
        refine ⟨front, chunk, [], ?_, (List.append_nil _).symm,
          List.nil_prefix, ?_⟩
        · exact ⟨rest, by rw [List.append_assoc]; rfl⟩
        · exact (hsome chunk (by simp)).symm
  · exact ⟨front, chunk, cut, hfront, by rw [hflatten], hcutPrefix, hcutShort⟩
  · exact absurd (List.prefix_nil.mp hmore) hrest

end Cuts

end Streams
