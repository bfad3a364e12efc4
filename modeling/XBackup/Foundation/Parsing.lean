/-
Readers of a byte stream with a state of their own, and the rules by which they
read back what was written.
-/
import Mathlib

namespace Parsing

universe u v

variable {σ β ε : Type u}

/-- A reader from states that show what is left to be read. -/
abbrev Parser (σ ε α : Type u) := StateT σ (Except ε) α

/-- From every state that shows `taken` first, the reader gives `value` and
leaves a state that shows the rest. -/
def Reads {α : Type u} (shows_ : σ → List β → Prop) (reader : Parser σ ε α)
    (taken : List β) (value : α) : Prop :=
  ∀ st tail, shows_ st (taken ++ tail) →
    ∃ next, reader st = .ok (value, next) ∧ shows_ next tail

variable {shows_ : σ → List β → Prop} {α γ : Type u}

theorem reads_pure (value : α) :
    Reads shows_ (pure value : Parser σ ε α) [] value := by
  intro st tail hst
  exact ⟨st, rfl, hst⟩

theorem Reads.bind {first : Parser σ ε α} {next : α → Parser σ ε γ}
    {taken more : List β} {value : α} {result : γ}
    (hfirst : Reads shows_ first taken value)
    (hnext : Reads shows_ (next value) more result) :
    Reads shows_ (first >>= next) (taken ++ more) result := by
  intro st tail hst
  rw [List.append_assoc] at hst
  obtain ⟨middle, hmiddle, hshows⟩ := hfirst st _ hst
  obtain ⟨last, hlast, hend⟩ := hnext middle tail hshows
  refine ⟨last, ?_, hend⟩
  simp only [Bind.bind, StateT.bind, hmiddle, Except.bind]
  exact hlast

/-- The last reader of a sequence, and what is made of its value. -/
theorem Reads.bind_pure {reader : Parser σ ε α} {taken : List β} {value : α}
    (hreads : Reads shows_ reader taken value) (result : α → γ) :
    Reads shows_ (reader >>= fun value => pure (result value)) taken
      (result value) := by
  rw [← List.append_nil taken]
  exact hreads.bind (reads_pure _)

/-- A reader run a number of times. -/
def times (reader : Parser σ ε α) : Nat → Parser σ ε (List α)
  | 0 => pure []
  | n + 1 => do
      let value ← reader
      let values ← times reader n
      pure (value :: values)

theorem reads_times {ι : Type v} {reader : Parser σ ε α} {items : List ι}
    {taken : ι → List β} {value : ι → α}
    (hreads : ∀ item ∈ items, Reads shows_ reader (taken item) (value item)) :
    Reads shows_ (times reader items.length) (items.flatMap taken)
      (items.map value) := by
  induction items with
  | nil => exact reads_pure []
  | cons item items ih =>
      obtain ⟨hitem, hitems⟩ := List.forall_mem_cons.mp hreads
      rw [List.flatMap_cons]
      exact hitem.bind ((ih hitems).bind_pure _)

end Parsing
