/-
Steps that may fail, tried in rounds: what fails in a round is tried again in the
next one, as long as the rounds get further.
-/
import Mathlib

namespace Rounds

universe u v w

variable {σ : Type u} {α : Type v} {ε : Type w} (run : σ → α → σ × Option ε)

/-- A round: the steps that fail are kept, with their errors. -/
def round (st : σ) : List α → σ × List (α × ε)
  | [] => (st, [])
  | item :: rest =>
      match run st item with
      | (next, none) => round next rest
      | (next, some err) => ((round next rest).1, (item, err) :: (round next rest).2)

/-- What a round leaves over. -/
def still (st : σ) (pending : List α) : List α :=
  (round run st pending).2.map Prod.fst

theorem length_round_le (st : σ) (pending : List α) :
    (round run st pending).2.length ≤ pending.length := by
  induction pending generalizing st with
  | nil => exact Nat.le_refl 0
  | cons item rest ih =>
      rw [round]
      split
      next next _ => exact (ih next).trans (Nat.le_succ _)
      next next err _ => exact Nat.succ_le_succ (ih next)

theorem length_still_lt {st : σ} {pending : List α}
    (hsome : (still run st pending).length ≠ pending.length) :
    (still run st pending).length < pending.length := by
  have hle := length_round_le run st pending
  rw [still, List.length_map] at hsome ⊢
  omega

/-- Rounds until nothing is left or no round gets further; what is left. -/
def settle (st : σ) (pending : List α) : σ × List α :=
  if _hsame : (still run st pending).length = pending.length then
    ((round run st pending).1, still run st pending)
  else if (still run st pending).isEmpty then ((round run st pending).1, [])
  else settle (round run st pending).1 (still run st pending)
termination_by pending.length
decreasing_by exact length_still_lt run _hsame

/-- Rounds until nothing is left; the errors of a round that gets no further. -/
def exhaust (st : σ) (pending : List α) : Except (List (α × ε)) σ :=
  if pending.isEmpty then .ok st
  else if _hsame : (still run st pending).length = pending.length then
    .error (round run st pending).2
  else exhaust (round run st pending).1 (still run st pending)
termination_by pending.length
decreasing_by exact length_still_lt run _hsame

section Smooth

variable {run} {st : σ} {pending : List α}

theorem round_of_smooth (hsmooth : ∀ st, ∀ item ∈ pending, (run st item).2 = none) :
    round run st pending =
      (pending.foldl (fun st item => (run st item).1) st, []) := by
  induction pending generalizing st with
  | nil => rfl
  | cons item rest ih =>
      obtain ⟨hitem, hrest⟩ :=
        List.forall_mem_cons.mp fun other hother st => hsmooth st other hother
      have hrun : run st item = ((run st item).1, none) :=
        Prod.ext rfl (hitem st)
      rw [round, hrun]
      exact ih fun st other hother => hrest other hother st

/-- Where no step fails, one round is enough. -/
theorem exhaust_of_smooth
    (hsmooth : ∀ st, ∀ item ∈ pending, (run st item).2 = none) :
    exhaust run st pending =
      .ok (pending.foldl (fun st item => (run st item).1) st) := by
  rw [exhaust]
  cases pending with
  | nil => rfl
  | cons item rest =>
      have hround := @round_of_smooth _ _ _ run st _ hsmooth
      have hstill : still run st (item :: rest) = [] := by
        rw [still, hround]
        rfl
      rw [if_neg (by simp), dif_neg (by rw [hstill]; simp), hstill, hround,
        exhaust]
      rfl

theorem settle_of_smooth
    (hsmooth : ∀ st, ∀ item ∈ pending, (run st item).2 = none) :
    settle run st pending =
      (pending.foldl (fun st item => (run st item).1) st, []) := by
  have hround := @round_of_smooth _ _ _ run st _ hsmooth
  have hstill : still run st pending = [] := by
    rw [still, hround]
    rfl
  rw [settle, hstill, hround]
  split
  · rfl
  · rfl

end Smooth

section Calls

/-- The steps of a round as they are tried, each with the state before it. -/
def roundCalls (st : σ) : List α → List (σ × α)
  | [] => []
  | item :: rest => (st, item) :: roundCalls (run st item).1 rest

/-- The steps that `exhaust` tries. -/
def exhaustCalls (st : σ) (pending : List α) : List (σ × α) :=
  if pending.isEmpty then []
  else if _hsame : (still run st pending).length = pending.length then
    roundCalls run st pending
  else roundCalls run st pending ++
    exhaustCalls (round run st pending).1 (still run st pending)
termination_by pending.length
decreasing_by exact length_still_lt run _hsame

variable {run} {st : σ} {pending items : List α}

theorem length_roundCalls : (roundCalls run st pending).length = pending.length := by
  induction pending generalizing st with
  | nil => rfl
  | cons item rest ih => exact congrArg (· + 1) ih

/-- Each round is shorter than the one before it. -/
theorem length_exhaustCalls_le :
    (exhaustCalls run st pending).length ≤ pending.length * pending.length := by
  induction hlength : pending.length using Nat.strong_induction_on
    generalizing st pending with
  | _ n ih =>
      rw [exhaustCalls]
      split
      next => exact Nat.zero_le _
      next hsome =>
        have hpos : 0 < n := by
          rw [← hlength]
          exact List.length_pos_iff.mpr fun hnil => hsome (by rw [hnil]; rfl)
        split
        next =>
          rw [length_roundCalls, hlength]
          exact Nat.le_mul_of_pos_left n hpos
        next hless =>
          have hshort := length_still_lt run hless
          have hrest := @ih _ (hlength ▸ hshort) (round run st pending).1
            (still run st pending) rfl
          rw [List.length_append, length_roundCalls, hlength]
          have hsquare : (still run st pending).length *
              (still run st pending).length ≤ (n - 1) * n :=
            Nat.mul_le_mul (by omega) (by omega)
          have hsum : n + (n - 1) * n = n * n := by
            rw [Nat.sub_mul, Nat.one_mul]
            exact Nat.add_sub_of_le (Nat.le_mul_of_pos_left n hpos)
          omega

theorem still_subset : still run st pending ⊆ pending := by
  induction pending generalizing st with
  | nil => exact fun _ h => h
  | cons item rest ih =>
      intro other hother
      rw [still, round] at hother
      split at hother
      next => exact List.mem_cons_of_mem _ (ih hother)
      next =>
        rcases List.mem_cons.mp hother with rfl | hrest
        · exact List.mem_cons_self
        · exact List.mem_cons_of_mem _ (ih hrest)

theorem fst_round_cons (item : α) (rest : List α) :
    (round run st (item :: rest)).1 = (round run (run st item).1 rest).1 := by
  rw [round]
  split
  next next hrun => rw [hrun]
  next next err hrun => rw [hrun]

/-- What every step keeps holds whenever a step is tried. -/
theorem calls_invariant {P : σ → Prop}
    (hstep : ∀ st, ∀ item ∈ items, P st → P (run st item).1)
    (hpending : pending ⊆ items) (hst : P st) :
    ∀ call ∈ exhaustCalls run st pending, P call.1 ∧ call.2 ∈ items := by
  have hround : ∀ (rest : List α) (st : σ), rest ⊆ items → P st →
      P (round run st rest).1 ∧
        ∀ call ∈ roundCalls run st rest, P call.1 ∧ call.2 ∈ items := by
    intro rest
    induction rest with
    | nil => exact fun st _ hst => ⟨hst, List.forall_mem_nil _⟩
    | cons item rest ih =>
        intro st hsub hst
        obtain ⟨hitem, hrest⟩ := List.cons_subset.mp hsub
        obtain ⟨hlast, hcalls⟩ := ih _ hrest (hstep st item hitem hst)
        rw [fst_round_cons]
        exact ⟨hlast, List.forall_mem_cons.mpr ⟨⟨hst, hitem⟩, hcalls⟩⟩
  induction hlength : pending.length using Nat.strong_induction_on
    generalizing st pending with
  | _ n ih =>
      obtain ⟨hlast, hcalls⟩ := hround pending st hpending hst
      rw [exhaustCalls]
      split
      next => exact List.forall_mem_nil _
      next =>
        split
        next => exact hcalls
        next hless =>
          refine List.forall_mem_append.mpr ⟨hcalls, ?_⟩
          exact ih _ (hlength ▸ length_still_lt run hless)
            (fun other hother => hpending (still_subset hother)) hlast rfl

/-- The first round is tried as a whole. -/
theorem roundCalls_subset : roundCalls run st pending ⊆ exhaustCalls run st pending := by
  intro call hcall
  rw [exhaustCalls]
  split
  next hnil =>
    rw [List.isEmpty_iff.mp hnil] at hcall
    exact hcall
  next =>
    split
    next => exact hcall
    next => exact List.mem_append_left _ hcall

theorem exhaustCalls_still_subset
    (hless : (still run st pending).length ≠ pending.length) :
    exhaustCalls run (round run st pending).1 (still run st pending) ⊆
      exhaustCalls run st pending := by
  intro call hcall
  rw [exhaustCalls]
  split
  next hnil =>
    rw [List.isEmpty_iff.mp hnil] at hless
    exact absurd rfl hless
  next => exact List.mem_append_right _ hcall

theorem exists_roundCalls {item : α} (hitem : item ∈ pending) :
    ∃ before, (before, item) ∈ roundCalls run st pending := by
  induction pending generalizing st with
  | nil => cases hitem
  | cons first rest ih =>
      rcases List.mem_cons.mp hitem with rfl | hrest
      · exact ⟨st, List.mem_cons_self⟩
      · obtain ⟨before, hcall⟩ := @ih (run st first).1 hrest
        exact ⟨before, List.mem_cons_of_mem _ hcall⟩

/-- Where everything is done at last, what is left is what the last step left. -/
theorem last_of_exhaust {last : σ} (hdone : exhaust run st pending = .ok last) :
    last = ((exhaustCalls run st pending).getLast?.map
      fun call => (run call.1 call.2).1).getD st := by
  have hround : ∀ (rest : List α) (st : σ), (round run st rest).1 =
      ((roundCalls run st rest).getLast?.map
        fun call => (run call.1 call.2).1).getD st := by
    intro rest
    induction rest with
    | nil => exact fun _ => rfl
    | cons item rest ih =>
        intro st
        rw [fst_round_cons, ih, roundCalls, List.getLast?_cons]
        cases (roundCalls run (run st item).1 rest).getLast? with
        | none => rfl
        | some call => rfl
  induction hlength : pending.length using Nat.strong_induction_on
    generalizing st pending with
  | _ n ih =>
      rw [exhaust] at hdone
      rw [exhaustCalls]
      split at hdone
      next hnil =>
        rw [if_pos hnil]
        exact (Except.ok.inj hdone).symm
      next hsome =>
        rw [if_neg hsome]
        split at hdone
        next => cases hdone
        next hless =>
          rw [dif_neg hless, List.getLast?_append,
            ih _ (hlength ▸ length_still_lt run hless) hdone rfl]
          cases (exhaustCalls run (round run st pending).1
            (still run st pending)).getLast? with
          | none =>
              rw [Option.none_or]
              exact hround pending st
          | some call => rfl

end Calls

end Rounds
