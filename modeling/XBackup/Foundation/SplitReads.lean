/-
Streams whose bytes come in pieces: a read gives what one piece holds, and a
loop of reads fills a buffer whatever the pieces are.
-/
import Mathlib

namespace SplitReads

/-- What is left of a stream, as its reads will deliver it. -/
structure Source where
  pieces : List (List UInt8)
  nonempty : ∀ piece ∈ pieces, piece ≠ []

def Source.bytes (src : Source) : List UInt8 :=
  src.pieces.flatten

/-- A source that delivers all of its bytes at once. -/
def Source.whole (bytes : List UInt8) : Source where
  pieces := if bytes = [] then [] else [bytes]
  nonempty := by
    intro piece hpiece
    split at hpiece
    next => cases hpiece
    next hsome => rwa [List.mem_singleton.mp hpiece]

@[simp] theorem bytes_whole (bytes : List UInt8) :
    (Source.whole bytes).bytes = bytes := by
  have hpieces : (Source.whole bytes).pieces =
      if bytes = [] then [] else [bytes] := rfl
  by_cases hbytes : bytes = []
  · rw [Source.bytes, hpieces, if_pos hbytes, hbytes]
    rfl
  · rw [Source.bytes, hpieces, if_neg hbytes]
    exact List.append_nil bytes

/-- One read of at most `n` bytes. It gives none at the end of the stream. -/
def Source.read (n : Nat) : Source → List UInt8 × Source
  | ⟨[], hpieces⟩ => ([], ⟨[], hpieces⟩)
  | ⟨piece :: rest, hpieces⟩ =>
      if hpiece : piece.drop n = [] then
        (piece.take n,
          ⟨rest, fun _ hmem => hpieces _ (List.mem_cons_of_mem _ hmem)⟩)
      else
        (piece.take n, ⟨piece.drop n :: rest, by
          intro other hmem
          rcases List.mem_cons.mp hmem with rfl | hmem
          · exact hpiece
          · exact hpieces _ (List.mem_cons_of_mem _ hmem)⟩)

section Reading

variable {n : Nat} {src : Source}

theorem read_append (n : Nat) (src : Source) :
    (src.read n).1 ++ (src.read n).2.bytes = src.bytes := by
  obtain ⟨_ | ⟨piece, rest⟩, hpieces⟩ := src
  · rfl
  · rw [Source.read]
    split
    next hall =>
      have hwhole := List.take_append_drop n piece
      rw [hall, List.append_nil] at hwhole
      rw [hwhole]
      rfl
    next =>
      show piece.take n ++ (piece.drop n ++ rest.flatten) = piece ++ rest.flatten
      rw [← List.append_assoc, List.take_append_drop]

theorem length_read_le (n : Nat) (src : Source) :
    (src.read n).1.length ≤ n := by
  obtain ⟨_ | ⟨piece, rest⟩, hpieces⟩ := src
  · exact Nat.zero_le n
  · rw [Source.read]
    split <;> exact List.length_take_le n piece

/-- A read that was asked for something gives nothing only at the end. -/
theorem bytes_of_read_nil (hn : 0 < n) (hread : (src.read n).1 = []) :
    src.bytes = [] := by
  obtain ⟨_ | ⟨piece, rest⟩, hpieces⟩ := src
  · rfl
  · have hpiece := hpieces piece List.mem_cons_self
    have htake : piece.take n = [] := by
      rw [Source.read] at hread
      split at hread <;> exact hread
    rw [List.take_eq_nil_iff] at htake
    rcases htake with hzero | hnil
    · omega
    · exact absurd hnil hpiece

end Reading

/-- Reads until `wanted` bytes are there, or the stream has ended. -/
def Source.fill (wanted : Nat) (src : Source) : List UInt8 × Source :=
  if wanted = 0 then ([], src)
  else
    let data := (src.read wanted).1
    let rest := (src.read wanted).2
    if data = [] then ([], rest)
    else
      let more := rest.fill (wanted - data.length)
      (data ++ more.1, more.2)
termination_by wanted
decreasing_by
  have hsome : 0 < (src.read wanted).1.length := List.length_pos_iff.mpr ‹_›
  omega

/-- What a loop of reads takes does not depend on the pieces. -/
theorem fill_spec (wanted : Nat) (src : Source) :
    (src.fill wanted).1 = src.bytes.take wanted ∧
      (src.fill wanted).2.bytes = src.bytes.drop wanted := by
  induction wanted using Nat.strong_induction_on generalizing src with
  | _ wanted ih =>
      rw [Source.fill]
      have hsplit := read_append wanted src
      have hle := length_read_le wanted src
      by_cases hzero : wanted = 0
      · subst hzero
        rw [if_pos rfl]
        exact ⟨rfl, rfl⟩
      · rw [if_neg hzero]
        by_cases hnil : (src.read wanted).1 = []
        · have hend := bytes_of_read_nil (Nat.pos_of_ne_zero hzero) hnil
          rw [hnil, List.nil_append] at hsplit
          simp only [hnil, if_true, hsplit, hend, List.take_nil, List.drop_nil,
            and_self]
        · have hsome : 0 < (src.read wanted).1.length :=
            List.length_pos_iff.mpr hnil
          obtain ⟨hdata, hrest⟩ := ih (wanted - (src.read wanted).1.length)
            (by omega) (src.read wanted).2
          simp only [hnil, if_false]
          rw [hdata, hrest, ← hsplit, List.take_append, List.drop_append,
            List.take_of_length_le hle, List.drop_of_length_le hle]
          exact ⟨rfl, rfl⟩

theorem fill_bytes (wanted : Nat) (src : Source) :
    (src.fill wanted).1 = src.bytes.take wanted :=
  (fill_spec wanted src).1

theorem fill_rest (wanted : Nat) (src : Source) :
    (src.fill wanted).2.bytes = src.bytes.drop wanted :=
  (fill_spec wanted src).2

/-- Exactly `n` bytes; none when the stream ends before them. -/
def Source.readExact (n : Nat) (src : Source) :
    Option (List UInt8 × Source) :=
  if (src.fill n).1.length = n then some (src.fill n) else none

theorem readExact_eq_some {n : Nat} {src rest : Source} {data : List UInt8}
    (hread : src.readExact n = some (data, rest)) :
    src.bytes = data ++ rest.bytes ∧ data.length = n := by
  rw [Source.readExact] at hread
  split at hread
  next hlength =>
    have hfill := Option.some.inj hread
    have hsplit := List.take_append_drop n src.bytes
    rw [← fill_bytes, ← fill_rest, hfill] at hsplit
    rw [hfill] at hlength
    exact ⟨hsplit.symm, hlength⟩
  next => cases hread

theorem readExact_append {n : Nat} {src : Source} {data tail : List UInt8}
    (hbytes : src.bytes = data ++ tail) (hlength : data.length = n) :
    ∃ rest, src.readExact n = some (data, rest) ∧ rest.bytes = tail := by
  have hdata : (src.fill n).1 = data := by
    rw [fill_bytes, hbytes, List.take_left' hlength]
  have hrest : (src.fill n).2.bytes = tail := by
    rw [fill_rest, hbytes, List.drop_left' hlength]
  refine ⟨(src.fill n).2, ?_, hrest⟩
  rw [Source.readExact, hdata, if_pos hlength, ← hdata]

theorem readExact_eq_none {n : Nat} {src : Source} :
    src.readExact n = none ↔ src.bytes.length < n := by
  rw [Source.readExact, fill_bytes, ite_eq_right_iff, List.length_take]
  constructor
  · intro hnone
    by_contra hle
    cases hnone (by omega)
  · intro hshort hle
    omega

end SplitReads
