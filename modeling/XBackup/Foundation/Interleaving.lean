/-
Programs that ask a shared store for one operation after the other.  Any number
of them take turns in any order, and the store may change by itself; what each
of them does is judged against everything the others may do in between.
-/
import XBackup.Foundation.Transition

namespace Interleaving

open Transition

universe u v w x

/-- A program asks for an operation and goes on with the answer. -/
inductive Program {Op : Type u} (Reply : Op → Type v) (α : Type w) where
  | ret (value : α)
  | ask (op : Op) (next : Reply op → Program Reply α)

variable {Op : Type u} {Reply : Op → Type v} {σ : Type w} {Choice Event : Type x}
  {ι : Type x} {α β ε : Type}

def Program.bind : Program Reply α → (α → Program Reply β) → Program Reply β
  | .ret value, rest => rest value
  | .ask op next, rest => .ask op fun reply => (next reply).bind rest

instance : Monad (Program Reply) where
  pure := .ret
  bind := .bind

/-- Ask for one operation. -/
def Program.request {Op : Type u} {Reply : Op → Type} (op : Op) :
    Program Reply (Reply op) :=
  .ask op .ret

/-- A shared store: an operation does and answers what a choice settles, and an
event changes the store without having been asked for. -/
structure Store (Reply : Op → Type v) (σ : Type w) (Choice Event : Type x) where
  effect : σ → (op : Op) → Choice → Option (σ × Reply op)
  happen : σ → Event → Option σ

/-- The store and what is left of every program. -/
structure Pool (Reply : Op → Type v) (σ : Type w) (ι : Type x) (α : Type) where
  store : σ
  programs : ι → Program Reply α

inductive Label (ι Choice Event : Type x) where
  | turn (party : ι) (choice : Choice)
  | event (event : Event)

/-- One program takes a turn, or the store changes by itself.  A program that
is given no turn any more has been killed. -/
def step [DecidableEq ι] (store : Store Reply σ Choice Event)
    (pool : Pool Reply σ ι α) : Label ι Choice Event → Option (Pool Reply σ ι α)
  | .turn party choice =>
      match pool.programs party with
      | .ret _ => none
      | .ask op next =>
          (store.effect pool.store op choice).map fun result =>
            { store := result.1
              programs := Function.update pool.programs party (next result.2) }
  | .event event =>
      (store.happen pool.store event).map fun next => { pool with store := next }

/-- What holds of the store at all times, and what only grows.  Events respect
both. -/
structure Discipline (store : Store Reply σ Choice Event) where
  valid : σ → Prop
  grows : σ → σ → Prop
  refl : ∀ st, grows st st
  trans : ∀ {first second third}, grows first second → grows second third →
    grows first third
  happen : ∀ {st event next}, valid st → store.happen st event = some next →
    valid next ∧ grows st next

variable {store : Store Reply σ Choice Event} (rules : Discipline store)

/-- From a state on, whatever the others do in between, each operation of the
program respects the rules, and the program returns only what `post` allows. -/
def Discipline.Keeps (post : α → σ → Prop) : Program Reply α → σ → Prop
  | .ret value, st =>
      ∀ later, rules.valid later → rules.grows st later → post value later
  | .ask op next, st =>
      ∀ now choice later reply, rules.valid now → rules.grows st now →
        store.effect now op choice = some (later, reply) →
          rules.valid later ∧ rules.grows now later ∧
            Keeps post (next reply) later

variable {rules} {post : α → σ → Prop} {program : Program Reply α} {st later : σ}

namespace Discipline

theorem Keeps.mono (hkeeps : rules.Keeps post program st)
    (hgrows : rules.grows st later) : rules.Keeps post program later := by
  cases program with
  | ret value =>
      exact fun last hvalid hlast =>
        hkeeps last hvalid (rules.trans hgrows hlast)
  | ask op next =>
      exact fun now choice after reply hvalid hnow =>
        hkeeps now choice after reply hvalid (rules.trans hgrows hnow)

/-- Only the valid states that may follow matter. -/
theorem keeps_of_later
    (hlater : ∀ later, rules.valid later → rules.grows st later →
      rules.Keeps post program later) : rules.Keeps post program st := by
  cases program with
  | ret value =>
      exact fun last hvalid hgrows =>
        hlater last hvalid hgrows last hvalid (rules.refl last)
  | ask op next =>
      exact fun now choice after reply hvalid hgrows =>
        hlater now hvalid hgrows now choice after reply hvalid (rules.refl now)

theorem keeps_ret {value : α}
    (hpost : ∀ later, rules.valid later → rules.grows st later →
      post value later) : rules.Keeps post (.ret value) st :=
  hpost

/-- A program after a program. -/
theorem Keeps.bind {post : β → σ → Prop} {mid : α → σ → Prop}
    {rest : α → Program Reply β} (hfirst : rules.Keeps mid program st)
    (hrest : ∀ value later, rules.valid later → rules.grows st later →
      mid value later → rules.Keeps post (rest value) later) :
    rules.Keeps post (program >>= rest) st := by
  induction program generalizing st with
  | ret value =>
      exact keeps_of_later fun later hvalid hgrows =>
        hrest value later hvalid hgrows (hfirst later hvalid hgrows)
  | ask op next ih =>
      intro now choice later reply hvalid hgrows heffect
      obtain ⟨hlater, hafter, hnext⟩ :=
        hfirst now choice later reply hvalid hgrows heffect
      refine ⟨hlater, hafter, ih reply hnext ?_⟩
      intro value last hlast hlong
      exact hrest value last hlast
        (rules.trans hgrows (rules.trans hafter hlong))

theorem Keeps.imp {other : α → σ → Prop} (hkeeps : rules.Keeps post program st)
    (himp : ∀ value later, rules.valid later → rules.grows st later →
      post value later → other value later) :
    rules.Keeps other program st := by
  induction program generalizing st with
  | ret value =>
      exact fun later hvalid hgrows =>
        himp value later hvalid hgrows (hkeeps later hvalid hgrows)
  | ask op next ih =>
      intro now choice later reply hvalid hgrows heffect
      obtain ⟨hlater, hafter, hnext⟩ :=
        hkeeps now choice later reply hvalid hgrows heffect
      refine ⟨hlater, hafter, ih reply hnext ?_⟩
      intro value last hlast hlong
      exact himp value last hlast
        (rules.trans hgrows (rules.trans hafter hlong))

theorem Keeps.map {post : β → σ → Prop} {wrap : α → β}
    (hkeeps : rules.Keeps (fun value => post (wrap value)) program st) :
    rules.Keeps post (wrap <$> program) st := by
  induction program generalizing st with
  | ret value => exact hkeeps
  | ask op next ih =>
      intro now choice later reply hvalid hgrows heffect
      obtain ⟨hlater, hafter, hnext⟩ :=
        hkeeps now choice later reply hvalid hgrows heffect
      exact ⟨hlater, hafter, ih reply hnext⟩

/-- A loop whose every turn keeps the rules. -/
theorem keeps_forM {items : List β} {turn : β → Program Reply PUnit}
    (hturn : ∀ item ∈ items, ∀ later, rules.valid later →
      rules.Keeps (fun _ _ => True) (turn item) later) :
    rules.Keeps (fun _ _ => True) (items.forM turn) st := by
  induction items generalizing st with
  | nil => exact keeps_ret fun _ _ _ => trivial
  | cons item rest ih =>
      refine keeps_of_later fun later hvalid _ => ?_
      refine Keeps.bind (hturn item List.mem_cons_self later hvalid) ?_
      exact fun _ last _ _ _ => ih fun other hother =>
        hturn other (List.mem_cons_of_mem item hother)

section Failing

variable {ε : Type} {post : α → σ → Prop}
  {action : ExceptT ε (Program Reply) α}

/-- A program that may fail, and promises nothing when it does. -/
def Leaves (rules : Discipline store) (post : α → σ → Prop)
    (action : ExceptT ε (Program Reply) α) (st : σ) : Prop :=
  rules.Keeps (fun result later => ∀ value, result = .ok value → post value later)
    action.run st

theorem leaves_return {value : α}
    (hpost : ∀ later, rules.valid later → rules.grows st later →
      post value later) :
    rules.Leaves post (pure value : ExceptT ε (Program Reply) α) st := by
  refine keeps_ret fun later hvalid hgrows other hother => ?_
  cases hother
  exact hpost later hvalid hgrows

theorem leaves_error {err : ε} :
    rules.Leaves post (throw err : ExceptT ε (Program Reply) α) st :=
  keeps_ret fun _ _ _ _ hother => by cases hother

theorem leaves_answer {result : Except ε α}
    (hpost : ∀ value, result = .ok value → ∀ later, rules.valid later →
      rules.grows st later → post value later) :
    rules.Leaves post
      (ExceptT.mk (pure result) : ExceptT ε (Program Reply) α) st :=
  keeps_ret fun later hvalid hgrows value hvalue =>
    hpost value hvalue later hvalid hgrows

theorem Keeps.leaves {program : Program Reply α}
    (hkeeps : rules.Keeps post program st) :
    rules.Leaves post (ExceptT.lift program : ExceptT ε (Program Reply) α) st := by
  refine Keeps.map (hkeeps.imp fun value later _ _ hpost => ?_)
  intro other hother
  cases hother
  exact hpost

theorem Leaves.imp {other : α → σ → Prop} (hleaves : rules.Leaves post action st)
    (himp : ∀ value later, rules.valid later → rules.grows st later →
      post value later → other value later) :
    rules.Leaves other action st :=
  Keeps.imp hleaves fun _ later hvalid hgrows hpost value hvalue =>
    himp value later hvalid hgrows (hpost value hvalue)

/-- A program goes on only after a success. -/
theorem Leaves.bind {after : β → σ → Prop}
    {rest : α → ExceptT ε (Program Reply) β}
    (hfirst : rules.Leaves post action st)
    (hrest : ∀ value later, rules.valid later → rules.grows st later →
      post value later → rules.Leaves after (rest value) later) :
    rules.Leaves after (action >>= rest) st := by
  refine Keeps.bind hfirst fun result => ?_
  cases result with
  | ok value =>
      exact fun later hvalid hgrows hpost =>
        hrest value later hvalid hgrows (hpost value rfl)
  | error err =>
      exact fun later _ _ _ => keeps_ret fun _ _ _ _ hother => by cases hother

theorem leaves_forM {items : List β} {turn : β → ExceptT ε (Program Reply) PUnit}
    (hturn : ∀ item ∈ items, ∀ later, rules.valid later →
      rules.Leaves (fun _ _ => True) (turn item) later) :
    rules.Leaves (fun _ _ => True) (items.forM turn) st := by
  induction items generalizing st with
  | nil => exact leaves_return fun _ _ _ => trivial
  | cons item rest ih =>
      refine keeps_of_later fun later hvalid _ => ?_
      refine Leaves.bind (hturn item List.mem_cons_self later hvalid) ?_
      exact fun _ last _ _ _ => ih fun other hother =>
        hturn other (List.mem_cons_of_mem item hother)

end Failing

/-- The store is valid and every program keeps the rules from here on. -/
structure Safe (rules : Discipline store) (post : ι → α → σ → Prop)
    (pool : Pool Reply σ ι α) : Prop where
  valid : rules.valid pool.store
  keeps : ∀ party,
    rules.Keeps (post party) (pool.programs party) pool.store

/-- A program that has come to its end has kept its promise. -/
theorem Safe.returned {post : ι → α → σ → Prop} {pool : Pool Reply σ ι α}
    (hsafe : rules.Safe post pool) {party : ι} {value : α}
    (hended : pool.programs party = .ret value) :
    post party value pool.store := by
  have hkeeps := hsafe.keeps party
  rw [hended] at hkeeps
  exact hkeeps pool.store hsafe.valid (rules.refl _)

section Pools

variable [DecidableEq ι] {post : ι → α → σ → Prop} {pool last : Pool Reply σ ι α}
  {label : Label ι Choice Event} {labels : List (Label ι Choice Event)}

theorem Safe.step (hsafe : rules.Safe post pool)
    (hstep : step store pool label = some last) :
    rules.Safe post last ∧ rules.grows pool.store last.store := by
  cases label with
  | turn party choice =>
      rw [Interleaving.step] at hstep
      split at hstep
      next => cases hstep
      next op next hprogram =>
          obtain ⟨⟨after, reply⟩, heffect, rfl⟩ := Option.map_eq_some_iff.mp hstep
          have hkeeps := hsafe.keeps party
          rw [hprogram] at hkeeps
          obtain ⟨hvalid, hgrows, hnext⟩ := hkeeps pool.store choice after reply
            hsafe.valid (rules.refl _) heffect
          refine ⟨⟨hvalid, fun other => ?_⟩, hgrows⟩
          by_cases hparty : other = party
          · subst hparty
            simpa only [Function.update_self] using hnext
          · simpa only [Function.update_of_ne hparty] using
              (hsafe.keeps other).mono hgrows
  | event event =>
      obtain ⟨next, hnext, rfl⟩ := Option.map_eq_some_iff.mp hstep
      obtain ⟨hvalid, hgrows⟩ := rules.happen hsafe.valid hnext
      exact ⟨⟨hvalid, fun party => (hsafe.keeps party).mono hgrows⟩, hgrows⟩

/-- Whatever the order of the turns, the rules are kept. -/
theorem Safe.run (hsafe : rules.Safe post pool)
    (hrun : run (Interleaving.step store) pool labels = some last) :
    rules.Safe post last ∧ rules.grows pool.store last.store := by
  refine run_invariant
    (fun st => rules.Safe post st ∧ rules.grows pool.store st.store)
    ?_ ⟨hsafe, rules.refl _⟩ hrun
  rintro st label next ⟨hst, hgrows⟩ hstep
  obtain ⟨hnext, hmore⟩ := hst.step hstep
  exact ⟨hnext, rules.trans hgrows hmore⟩

end Pools

end Discipline

end Interleaving
