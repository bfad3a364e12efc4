/-
Loops that stop at the first failure and leave the state they reached: nested
loops are one loop, and an invariant of the completed items holds where a run
stops.
-/
import Mathlib

namespace Interrupted

universe u v w x

variable {α : Type u} {σ : Type v} {ε : Type w}

/-- Take the items in order until a step fails. -/
def run (step : α → σ → Option ε × σ) : List α → σ → Option ε × σ
  | [], state => (none, state)
  | item :: rest, state =>
      match step item state with
      | (none, next) => run step rest next
      | (some err, next) => (some err, next)

theorem run_append (step : α → σ → Option ε × σ) (front rest : List α)
    (state : σ) :
    run step (front ++ rest) state =
      match run step front state with
      | (none, next) => run step rest next
      | (some err, next) => (some err, next) := by
  induction front generalizing state with
  | nil => rfl
  | cons item front ih =>
      rw [List.cons_append, run, run]
      cases step item state with
      | mk failure next =>
          cases failure with
          | none => exact ih next
          | some err => rfl

/-- A loop whose step is a loop is one loop. -/
theorem run_flatMap {β : Type x} (step : α → σ → Option ε × σ)
    (inner : β → List α) (items : List β) (state : σ) :
    run (fun item => run step (inner item)) items state =
      run step (items.flatMap inner) state := by
  induction items generalizing state with
  | nil => rfl
  | cons item rest ih =>
      rw [List.flatMap_cons, run_append, run]
      cases run step (inner item) state with
      | mk failure next =>
          cases failure with
          | none => exact ih next
          | some err => rfl

/-- A step that completes its item extends the invariant; a failing one keeps
it for the items completed before. -/
def Extends (step : α → σ → Option ε × σ) (inv : List α → σ → Prop)
    (items : List α) : Prop :=
  ∀ done, ∀ item ∈ items, ∀ state, inv done state →
    match step item state with
    | (none, next) => inv (done ++ [item]) next
    | (some _, next) => inv done next

/-- Where a run stops, the invariant holds of the items it completed: a first
part of the list, all of it unless a step failed. -/
theorem run_stops {step : α → σ → Option ε × σ} {inv : List α → σ → Prop}
    {items : List α} {state : σ} (hstep : Extends step inv items)
    (hstart : inv [] state) :
    ∃ done rest, items = done ++ rest ∧ inv done (run step items state).2 ∧
      ((run step items state).1 = none → rest = []) := by
  have hgeneral : ∀ before, inv before state → ∃ done rest,
      items = done ++ rest ∧ inv (before ++ done) (run step items state).2 ∧
        ((run step items state).1 = none → rest = []) := by
    clear hstart
    induction items generalizing state with
    | nil =>
        intro before hbefore
        exact ⟨[], [], rfl, by simpa [run] using hbefore, fun _ => rfl⟩
    | cons item rest ih =>
        intro before hbefore
        have hfirst := hstep before item List.mem_cons_self state hbefore
        rw [run]
        cases hresult : step item state with
        | mk failure next =>
            rw [hresult] at hfirst
            cases failure with
            | none =>
                obtain ⟨done, left, rfl, hdone, hend⟩ := ih
                  (fun done other hother =>
                    hstep done other (List.mem_cons_of_mem _ hother))
                  (before ++ [item]) hfirst
                exact ⟨item :: done, left, rfl, by simpa using hdone, hend⟩
            | some err =>
                exact ⟨[], item :: rest, rfl, by simpa using hfirst, by simp⟩
  exact hgeneral [] hstart

/-- A run none of whose steps fails goes through. -/
theorem run_completes {step : α → σ → Option ε × σ} {items : List α}
    (hstep : ∀ item ∈ items, ∀ state, (step item state).1 = none) (state : σ) :
    (run step items state).1 = none := by
  induction items generalizing state with
  | nil => rfl
  | cons item rest ih =>
      have hfirst := hstep item List.mem_cons_self state
      rw [run]
      cases hresult : step item state with
      | mk failure next =>
          rw [hresult] at hfirst
          subst hfirst
          exact ih (fun other hother =>
            hstep other (List.mem_cons_of_mem _ hother)) next

end Interrupted
