/-
Programs that read an input and write to a sink, stopping at each read and each
write: whether one can still end without an error.
-/
import Mathlib

namespace Coroutines

universe u v

/-- What a read gives. A read that was asked for something gives nothing at the
end of the input. -/
inductive Answer (ε : Type u) where
  | ready (bytes : List UInt8)
  | error (err : ε)
deriving DecidableEq

/-- What a program in a state does next. A write that the sink refuses ends the
program with the error that is named. -/
inductive Act (ε : Type u) (σ : Type v) where
  | read (size : Nat) (resume : Answer ε → σ)
  | write (bytes : List UInt8) (broken : ε) (rest : σ)
  | shutdown (rest : σ)
  | finish (result : Except ε Unit)

variable {ε : Type u} {σ : Type v}

/-- The program ends without an error if its input gives answers of a kind. -/
inductive EndsOn (next : σ → Act ε σ) (kind : Answer ε → Prop) : σ → Prop where
  | finish {s : σ} : next s = .finish (.ok ()) → EndsOn next kind s
  | write {s rest : σ} {bytes : List UInt8} {broken : ε} :
      next s = .write bytes broken rest → EndsOn next kind rest →
        EndsOn next kind s
  | shutdown {s rest : σ} :
      next s = .shutdown rest → EndsOn next kind rest → EndsOn next kind s
  | read {s : σ} {size : Nat} {resume : Answer ε → σ} (answer : Answer ε) :
      next s = .read size resume → kind answer →
        EndsOn next kind (resume answer) → EndsOn next kind s

/-- The program ends without an error, and reads nothing before. -/
abbrev EndsWell (next : σ → Act ε σ) : σ → Prop :=
  EndsOn next fun _ => False

/-- The program ends without an error for some answers of its input. -/
abbrev MayEndWell (next : σ → Act ε σ) : σ → Prop :=
  EndsOn next fun _ => True

/-- The programs end well only from the end of their input, and fail once their
input has failed, unless they overlook that. -/
structure Heeds (next : σ → Act ε σ) (overlooks : σ → ε → Prop) : Prop where
  ends : ∀ {s : σ} {size : Nat} {resume : Answer ε → σ} {bytes : List UInt8},
    next s = .read size resume → EndsWell next (resume (.ready bytes)) →
      bytes = []
  fails : ∀ {s : σ} {size : Nat} {resume : Answer ε → σ} {err : ε},
    next s = .read size resume → MayEndWell next (resume (.error err)) →
      overlooks s err

section Acts

variable {next : σ → Act ε σ} {kind : Answer ε → Prop} {s rest : σ}
  {bytes : List UInt8} {broken : ε} {size : Nat} {resume : Answer ε → σ}
  {result : Except ε Unit}

theorem EndsWell.mayEndWell (hends : EndsWell next s) : MayEndWell next s := by
  induction hends with
  | finish hnext => exact .finish hnext
  | write hnext _ ih => exact .write hnext ih
  | shutdown hnext _ ih => exact .shutdown hnext ih
  | read answer _ hnone => exact hnone.elim

theorem not_endsWell_of_read (hnext : next s = .read size resume) :
    ¬ EndsWell next s := by
  intro hends
  cases hends with
  | finish hother => cases hnext.symm.trans hother
  | write hother _ => cases hnext.symm.trans hother
  | shutdown hother _ => cases hnext.symm.trans hother
  | read answer _ hnone _ => exact hnone

theorem endsOn_write_iff (hnext : next s = .write bytes broken rest) :
    EndsOn next kind s ↔ EndsOn next kind rest := by
  constructor
  · intro hends
    cases hends with
    | finish hother => cases hnext.symm.trans hother
    | write hother hrest =>
        cases hnext.symm.trans hother
        exact hrest
    | shutdown hother _ => cases hnext.symm.trans hother
    | read _ hother _ _ => cases hnext.symm.trans hother
  · exact .write hnext

theorem endsOn_shutdown_iff (hnext : next s = .shutdown rest) :
    EndsOn next kind s ↔ EndsOn next kind rest := by
  constructor
  · intro hends
    cases hends with
    | finish hother => cases hnext.symm.trans hother
    | write hother _ => cases hnext.symm.trans hother
    | shutdown hother hrest =>
        cases hnext.symm.trans hother
        exact hrest
    | read _ hother _ _ => cases hnext.symm.trans hother
  · exact .shutdown hnext

theorem endsOn_finish_iff (hnext : next s = .finish result) :
    EndsOn next kind s ↔ result = .ok () := by
  constructor
  · intro hends
    cases hends with
    | finish hother =>
        cases hnext.symm.trans hother
        rfl
    | write hother _ => cases hnext.symm.trans hother
    | shutdown hother _ => cases hnext.symm.trans hother
    | read _ hother _ _ => cases hnext.symm.trans hother
  · rintro rfl
    exact .finish hnext

/-- No end without an error is reached from states that are left only for such
states. -/
theorem not_endsOn_of_invariant (inv : σ → Prop)
    (hfinish : ∀ s, inv s → next s ≠ .finish (.ok ()))
    (hwrite : ∀ s bytes broken rest, inv s →
      next s = .write bytes broken rest → inv rest)
    (hshutdown : ∀ s rest, inv s → next s = .shutdown rest → inv rest)
    (hread : ∀ s size resume, inv s → next s = .read size resume →
      ∀ answer, kind answer → inv (resume answer))
    (hs : inv s) : ¬ EndsOn next kind s := by
  intro hends
  induction hends with
  | finish hnext => exact hfinish _ hs hnext
  | write hnext _ ih => exact ih (hwrite _ _ _ _ hs hnext)
  | shutdown hnext _ ih => exact ih (hshutdown _ _ hs hnext)
  | read answer hnext hanswer _ ih =>
      exact ih (hread _ _ _ hs hnext answer hanswer)

end Acts

end Coroutines
