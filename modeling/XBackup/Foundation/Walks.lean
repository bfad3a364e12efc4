/-
Loops that go from state to state until they end with a result.
-/
import Mathlib

namespace Walks

universe u v

variable {S : Type u} {R : Type v}

/-- What is done at a state: the loop ends there, or goes on. -/
inductive Move (S : Type u) (R : Type v) where
  | ended (result : R)
  | on (next : S)
deriving DecidableEq

/-- At most so many moves. -/
def walk (move : S → Move S R) : Nat → S → Option R
  | 0, _ => none
  | rounds + 1, state =>
      match move state with
      | .ended result => some result
      | .on next => walk move rounds next

def Ends (move : S → Move S R) (state : S) (result : R) : Prop :=
  ∃ rounds, walk move rounds state = some result

/-- A state that is come to. -/
def Stop (move : S → Move S R) : S → S → Prop :=
  Relation.ReflTransGen fun state next => move state = .on next

section Loops

variable {move : S → Move S R} {state next other : S} {result left right : R}

theorem ends_iff_of_ended (hmove : move state = .ended left) :
    Ends move state result ↔ result = left := by
  constructor
  · rintro ⟨rounds, hwalk⟩
    cases rounds with
    | zero => cases hwalk
    | succ rounds =>
        rw [walk, hmove] at hwalk
        exact (Option.some.inj hwalk).symm
  · rintro rfl
    exact ⟨1, by rw [walk, hmove]⟩

theorem ends_iff_of_on (hmove : move state = .on next) :
    Ends move state result ↔ Ends move next result := by
  constructor
  · rintro ⟨rounds, hwalk⟩
    cases rounds with
    | zero => cases hwalk
    | succ rounds =>
        rw [walk, hmove] at hwalk
        exact ⟨rounds, hwalk⟩
  · rintro ⟨rounds, hwalk⟩
    exact ⟨rounds + 1, by rwa [walk, hmove]⟩

theorem Ends.unique (hleft : Ends move state left)
    (hright : Ends move state right) : left = right := by
  obtain ⟨rounds, hwalk⟩ := hleft
  induction rounds generalizing state with
  | zero => cases hwalk
  | succ rounds ih =>
      rw [walk] at hwalk
      split at hwalk
      next result hmove =>
        cases hwalk
        exact ((ends_iff_of_ended hmove).mp hright).symm
      next next hmove => exact ih ((ends_iff_of_on hmove).mp hright) hwalk

theorem Stop.ends_iff (hstop : Stop move state other) :
    Ends move state result ↔ Ends move other result := by
  induction hstop with
  | refl => rfl
  | tail _ hmove ih => exact ih.trans (ends_iff_of_on hmove)

/-- A loop that ends does so at a state that it comes to. -/
theorem Ends.stop (hends : Ends move state result) :
    ∃ last, Stop move state last ∧ move last = .ended result := by
  obtain ⟨rounds, hwalk⟩ := hends
  induction rounds generalizing state with
  | zero => cases hwalk
  | succ rounds ih =>
      rw [walk] at hwalk
      split at hwalk
      next found hmove =>
        cases hwalk
        exact ⟨state, .refl, hmove⟩
      next next hmove =>
        obtain ⟨last, hlast, hended⟩ := ih hwalk
        exact ⟨last, .head hmove hlast, hended⟩

/-- A state that moves to itself is left by no round. -/
theorem not_ends_of_still (hstop : Stop move state other)
    (hstill : move other = .on other) : ¬ Ends move state result := by
  rw [hstop.ends_iff]
  rintro ⟨rounds, hwalk⟩
  induction rounds with
  | zero => cases hwalk
  | succ rounds ih =>
      rw [walk, hstill] at hwalk
      exact ih hwalk

/-- A loop comes to its end when each of its moves leaves less to go. -/
theorem ends_of_approach (left : S → Nat)
    (hmoves : ∀ other, Stop move state other →
      move other = .ended result ∨
        ∃ next, move other = .on next ∧ left next < left other) :
    Ends move state result := by
  induction hleft : left state using Nat.strong_induction_on
    generalizing state with
  | _ _ ih =>
      rcases hmoves state .refl with hended | ⟨next, hon, hless⟩
      · exact (ends_iff_of_ended hended).mpr rfl
      · rw [ends_iff_of_on hon]
        refine ih (left next) (hleft ▸ hless) (fun other hstop => ?_) rfl
        exact hmoves other (.head hon hstop)

/-- Of two states that are come to, one is come to from the other. -/
theorem Stop.linear (hleft : Stop move state next)
    (hright : Stop move state other) :
    Stop move next other ∨ Stop move other next := by
  induction hleft with
  | refl => exact .inl hright
  | tail _ hmove ih =>
      rcases ih with hstop | hstop
      · rcases Relation.ReflTransGen.cases_head hstop with rfl | ⟨_, hon, hrest⟩
        · exact .inr (.single hmove)
        · rw [hmove] at hon
          cases hon
          exact .inl hrest
      · exact .inr (hstop.tail hmove)

theorem Stop.eq_of_ended (hstop : Stop move state other)
    (hended : move state = .ended result) : other = state := by
  rcases Relation.ReflTransGen.cases_head hstop with rfl | ⟨_, hon, _⟩
  · rfl
  · rw [hended] at hon
    cases hon

end Loops

end Walks
