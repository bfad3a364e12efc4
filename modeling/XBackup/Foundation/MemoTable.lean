/-
A table of results computed once: fetching computes a missing entry and keeps
it, and a run of fetches answers as the computation itself does.
-/
import Mathlib

namespace MemoTable

universe u v w

variable {κ : Type u} {β : Type v}

abbrev Table (κ : Type u) (β : Type v) := List (κ × β)

/-- The entry of a key, computed and kept if it is missing. -/
def fetch [BEq κ] (compute : κ → β) (table : Table κ β) (key : κ) :
    β × Table κ β :=
  match table.lookup key with
  | some held => (held, table)
  | none => (compute key, (key, compute key) :: table)

/-- Every entry holds what the computation gives. -/
def Sound (compute : κ → β) (table : Table κ β) : Prop :=
  ∀ entry ∈ table, entry.2 = compute entry.1

theorem sound_nil (compute : κ → β) : Sound compute [] := by
  intro entry hentry
  cases hentry

theorem fetch_fst [BEq κ] [LawfulBEq κ] {compute : κ → β}
    {table : Table κ β} (hsound : Sound compute table) (key : κ) :
    (fetch compute table key).1 = compute key := by
  rw [fetch]
  split
  next held hheld =>
    obtain ⟨before, after, hsplit, -⟩ := List.lookup_eq_some_iff.mp hheld
    exact hsound (key, held) (by simp [hsplit])
  next => rfl

theorem fetch_sound [BEq κ] {compute : κ → β} {table : Table κ β}
    (hsound : Sound compute table) (key : κ) :
    Sound compute (fetch compute table key).2 := by
  rw [fetch]
  split
  next => exact hsound
  next =>
    intro entry hentry
    rcases List.mem_cons.mp hentry with rfl | hold
    · rfl
    · exact hsound entry hold

/-- A fetch whose computation may fail; a failure is not kept. -/
def tryFetch {ε : Type u} [BEq κ] (compute : κ → Except ε β)
    (table : Table κ β) (key : κ) : Except ε (β × Table κ β) :=
  match table.lookup key with
  | some held => .ok (held, table)
  | none => (compute key).map fun value => (value, (key, value) :: table)

/-- Every entry holds what the computation succeeded with. -/
def Succeeded {ε : Type u} (compute : κ → Except ε β) (table : Table κ β) :
    Prop :=
  ∀ entry ∈ table, compute entry.1 = .ok entry.2

/-- A fetch fails and answers as the computation does. -/
theorem tryFetch_spec {ε : Type u} [BEq κ] [LawfulBEq κ]
    {compute : κ → Except ε β} {table : Table κ β}
    (hsound : Succeeded compute table) (key : κ) :
    (∃ err, compute key = .error err ∧
        tryFetch compute table key = .error err) ∨
      ∃ value table', compute key = .ok value ∧
        tryFetch compute table key = .ok (value, table') ∧
        Succeeded compute table' := by
  rw [tryFetch]
  split
  next held hheld =>
    obtain ⟨before, after, hsplit, -⟩ := List.lookup_eq_some_iff.mp hheld
    exact Or.inr ⟨held, table, hsound (key, held) (by simp [hsplit]), rfl,
      hsound⟩
  next =>
    cases hcompute : compute key with
    | error err => exact Or.inl ⟨err, rfl, rfl⟩
    | ok value =>
        have hnext : Succeeded compute ((key, value) :: table) :=
          List.forall_mem_cons.mpr ⟨hcompute, hsound⟩
        exact Or.inr ⟨value, _, rfl, rfl, hnext⟩

/-- Calls served one after the other, each from the table the one before left. -/
def serve {σ : Type u} {α : Type v} {γ : Type w} (call : σ → α → γ × σ)
    (state : σ) : List α → List γ
  | [] => []
  | item :: rest =>
      let (answer, next) := call state item
      answer :: serve call next rest

/-- Calls that keep an invariant, and answer under it as `answer` says, answer so
in every run. -/
theorem serve_eq_map {σ : Type u} {α : Type v} {γ : Type w} (inv : σ → Prop)
    {call : σ → α → γ × σ} {answer : α → γ} {state : σ} (hstart : inv state)
    (hcall : ∀ state, inv state → ∀ item,
      (call state item).1 = answer item ∧ inv (call state item).2)
    (calls : List α) : serve call state calls = calls.map answer := by
  induction calls generalizing state with
  | nil => rfl
  | cons item rest ih =>
      obtain ⟨hanswer, hnext⟩ := hcall state hstart item
      rw [serve, List.map_cons, ← hanswer, ← ih hnext]

end MemoTable
