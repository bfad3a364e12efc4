/-
A table of values with a lifetime: a value that is missing is made by one caller
of its key at a time, and the others wait for it at the gate of the key.
-/
import XBackup.Foundation.Transition

namespace XBackup

namespace Web

namespace TtlCache

structure Cached (ν : Type) where
  value : ν
  hit : Bool
  age : Nat

/-- The place of a key: its value with the time it was made at, and its gate.
A gate is known by the number it was made under. -/
structure Slot (ν : Type) where
  stored : Option (ν × Nat)
  gate : Nat

/-- Where a fetch stands; a gate that is held is named from `rechecking` up to
`leaving`. -/
inductive Phase (κ ν : Type) where
  | idle
  | entered (key : κ)
  /-- Nothing was found at first. -/
  | missed (key : κ)
  | waiting (key : κ) (gate : Nat)
  /-- The gate is held, and the value is looked for again. -/
  | rechecking (key : κ) (gate : Nat)
  | starting (key : κ) (gate : Nat)
  /-- The producer runs. -/
  | producing (key : κ) (gate : Nat)
  | produced (key : κ) (gate : Nat) (value : ν)
  /-- The clock has been read for the value, and the table is not locked yet. -/
  | stamped (key : κ) (gate : Nat) (value : ν) (storedAt : Nat)
  | leaving (key : κ) (gate : Nat) (result : Option (Cached ν))
  | returned (key : κ) (result : Cached ν)

/-- The table, the clock, and every fetch. -/
structure State (ι κ ν : Type) where
  now : Nat
  slots : κ → Option (Slot ν)
  /-- Who holds a gate. -/
  gates : Nat → Option ι
  /-- How many gates were made. -/
  made : Nat
  phase : ι → Phase κ ν

inductive Label (ι κ ν : Type) where
  | call (t : ι) (key : κ)
  | look (t : ι)
  | gateFor (t : ι)
  | lock (t : ι)
  | lookAgain (t : ι)
  | start (t : ι)
  | finish (t : ι) (value : ν)
  | stamp (t : ι)
  | store (t : ι)
  | leave (t : ι)
  /-- The fetch is dropped where it awaits something. -/
  | cancel (t : ι)
  | peek (key : κ)
  | invalidate (key : κ)
  | invalidateMatching (hit : κ → Bool)
  | invalidateAll
  | wait (ticks : Nat)

variable {ι κ ν : Type} [DecidableEq ι] [DecidableEq κ]

def State.goes (st : State ι κ ν) (t : ι) (phase : Phase κ ν) : State ι κ ν :=
  { st with phase := Function.update st.phase t phase }

/-- A value that has lived as long as the lifetime counts as none. -/
def State.peek (ttl : Nat) (st : State ι κ ν) (key : κ) : Option (Cached ν) :=
  match st.slots key with
  | none => none
  | some slot =>
      match slot.stored with
      | none => none
      | some (value, storedAt) =>
          let age := st.now - storedAt
          if ttl ≤ age then none else some ⟨value, true, age⟩

/-- The gate of a key, made with an empty slot if there is none. -/
def State.gateFor (st : State ι κ ν) (key : κ) : Nat × State ι κ ν :=
  match st.slots key with
  | some slot => (slot.gate, st)
  | none => (st.made, { st with
      slots := Function.update st.slots key (some ⟨none, st.made⟩)
      made := st.made + 1 })

def State.store (st : State ι κ ν) (key : κ) (value : ν) (storedAt : Nat) :
    State ι κ ν :=
  match st.slots key with
  | some slot => { st with
      slots := Function.update st.slots key
        (some { slot with stored := some (value, storedAt) }) }
  | none => { st with
      slots := Function.update st.slots key
        (some ⟨some (value, storedAt), st.made⟩)
      made := st.made + 1 }

/-- The values of the keys that are meant are dropped; their gates stay. -/
def State.invalidateMatching (st : State ι κ ν) (hit : κ → Bool) :
    State ι κ ν :=
  { st with slots := fun key => (st.slots key).map fun slot =>
      if hit key then { slot with stored := none } else slot }

def State.invalidate (st : State ι κ ν) (key : κ) : State ι κ ν :=
  match st.slots key with
  | some slot => { st with
      slots := Function.update st.slots key (some { slot with stored := none }) }
  | none => st

def State.invalidateAll (st : State ι κ ν) : State ι κ ν :=
  { st with slots := fun key => (st.slots key).map fun slot =>
      { slot with stored := none } }

def init : State ι κ ν where
  now := 0
  slots _ := none
  gates _ := none
  made := 0
  phase _ := .idle

/-- `fetch` from one access of the table, the gate or the clock to the next, and
the other operations as one access each. -/
def step (ttl : Nat) (st : State ι κ ν) : Label ι κ ν → Option (State ι κ ν)
  | .call t key =>
      match st.phase t with
      | .idle => some (st.goes t (.entered key))
      | _ => none
  | .look t =>
      match st.phase t with
      | .entered key =>
          match st.peek ttl key with
          | some cached => some (st.goes t (.returned key cached))
          | none => some (st.goes t (.missed key))
      | _ => none
  | .gateFor t =>
      match st.phase t with
      | .missed key =>
          some ((st.gateFor key).2.goes t (.waiting key (st.gateFor key).1))
      | _ => none
  | .lock t =>
      match st.phase t with
      | .waiting key gate =>
          match st.gates gate with
          | none =>
              let st := { st with gates := Function.update st.gates gate (some t) }
              some (st.goes t (.rechecking key gate))
          | some _ => none
      | _ => none
  | .lookAgain t =>
      match st.phase t with
      | .rechecking key gate =>
          match st.peek ttl key with
          | some cached => some (st.goes t (.leaving key gate (some cached)))
          | none => some (st.goes t (.starting key gate))
      | _ => none
  | .start t =>
      match st.phase t with
      | .starting key gate => some (st.goes t (.producing key gate))
      | _ => none
  | .finish t value =>
      match st.phase t with
      | .producing key gate => some (st.goes t (.produced key gate value))
      | _ => none
  | .stamp t =>
      match st.phase t with
      | .produced key gate value =>
          some (st.goes t (.stamped key gate value st.now))
      | _ => none
  | .store t =>
      match st.phase t with
      | .stamped key gate value storedAt =>
          some ((st.store key value storedAt).goes t
            (.leaving key gate (some ⟨value, false, 0⟩)))
      | _ => none
  | .leave t =>
      match st.phase t with
      | .leaving key gate result =>
          let st := { st with gates := Function.update st.gates gate none }
          match result with
          | some cached => some (st.goes t (.returned key cached))
          | none => some (st.goes t .idle)
      | _ => none
  | .cancel t =>
      match st.phase t with
      | .waiting _ _ => some (st.goes t .idle)
      | .producing key gate => some (st.goes t (.leaving key gate none))
      | _ => none
  | .peek _ => some st
  | .invalidate key => some (st.invalidate key)
  | .invalidateMatching hit => some (st.invalidateMatching hit)
  | .invalidateAll => some st.invalidateAll
  | .wait ticks => some { st with now := st.now + ticks }

end TtlCache

end Web

end XBackup
