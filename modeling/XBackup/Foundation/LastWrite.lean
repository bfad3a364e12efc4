/-
Keyed stores under a log of upserts and deletes.  The last change of a key
decides its value, so replaying a suffix of the log over an old snapshot can
only go wrong at keys the suffix does not touch.
-/
import Mathlib

namespace LastWrite

universe u v

abbrev Store (κ : Type u) (ν : Type v) := κ → Option ν

/-- An upsert, or a delete when there is no value. -/
structure Change (κ : Type u) (ν : Type v) where
  key : κ
  value : Option ν
deriving DecidableEq, Repr

variable {κ : Type u} {ν : Type v} [DecidableEq κ]

def apply (store : Store κ ν) (change : Change κ ν) : Store κ ν :=
  Function.update store change.key change.value

def replay (store : Store κ ν) (log : List (Change κ ν)) : Store κ ν :=
  log.foldl apply store

/-- The value the last change of `key` leaves, if there is one. -/
def lastWrite (key : κ) : List (Change κ ν) → Option (Option ν)
  | [] => none
  | change :: rest =>
      (lastWrite key rest).or
        (if change.key = key then some change.value else none)

@[simp] theorem replay_nil (store : Store κ ν) : replay store [] = store := rfl

@[simp] theorem replay_cons (store : Store κ ν) (change : Change κ ν)
    (rest : List (Change κ ν)) :
    replay store (change :: rest) = replay (apply store change) rest := rfl

theorem replay_append (store : Store κ ν) (first second : List (Change κ ν)) :
    replay store (first ++ second) = replay (replay store first) second :=
  List.foldl_append

theorem lastWrite_eq_none_iff {key : κ} {log : List (Change κ ν)} :
    lastWrite key log = none ↔ ∀ change ∈ log, change.key ≠ key := by
  induction log with
  | nil => simp [lastWrite]
  | cons change rest ih =>
      by_cases hkey : change.key = key
      · simp [lastWrite, hkey]
      · simp [lastWrite, hkey, ih]

theorem replay_apply (store : Store κ ν) (log : List (Change κ ν)) (key : κ) :
    replay store log key = (lastWrite key log).getD (store key) := by
  induction log generalizing store with
  | nil => rfl
  | cons change rest ih =>
      rw [replay_cons, ih, lastWrite]
      cases lastWrite key rest with
      | some value => rfl
      | none =>
          by_cases hkey : change.key = key
          · subst hkey
            simp [apply]
          · simp [apply, hkey, Function.update_of_ne (Ne.symm hkey)]

/-- Replaying only the suffix `later` over a value that was read before
`missed` is right exactly when `later` decides the key, `missed` does not
touch it, or leaves it as it was read. -/
theorem replay_suffix_apply_eq_iff (snapshot store : Store κ ν)
    (missed later : List (Change κ ν)) (key : κ)
    (hread : snapshot key = store key) :
    replay snapshot later key = replay store (missed ++ later) key ↔
      (∃ change ∈ later, change.key = key) ∨
        (∀ change ∈ missed, change.key ≠ key) ∨
        lastWrite key missed = some (store key) := by
  have htouch : (∃ change ∈ later, change.key = key) ↔
      lastWrite key later ≠ none := by
    rw [ne_eq, lastWrite_eq_none_iff]
    simp
  rw [replay_append, replay_apply, replay_apply, replay_apply, hread, htouch,
    ← lastWrite_eq_none_iff]
  cases lastWrite key later with
  | some value => simp
  | none =>
      cases lastWrite key missed with
      | none => simp
      | some value => simp [eq_comm]

end LastWrite
