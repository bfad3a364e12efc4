/-
The storage trait as the pipelines use it, on any number of destinations:
uploads, downloads and deletes that may be refused.  An upload that fails when
it starts or is completed leaves a guard behind, whose delete of the target may
run at any later time.
-/
import XBackup.Foundation.Interleaving
import XBackup.Manifest.Schema

namespace XBackup

open Interleaving

/-- A path of one of the destinations. -/
abbrev ObjectKey (δ : Type) := δ × String

inductive StorageOp (δ : Type) where
  | putStream (key : ObjectKey δ) (bytes : List UInt8)
  | getStream (key : ObjectKey δ)
  | delete (key : ObjectKey δ)

def StorageOp.Reply {δ : Type} : StorageOp δ → Type
  | .putStream _ _ => Except XBackupError Unit
  | .getStream _ => Except XBackupError (List UInt8)
  | .delete _ => Except XBackupError Unit

/-- The objects, the targets of the guards that were dropped, and every delete
that was asked for so far. -/
structure Objects (δ : Type) where
  objects : ObjectKey δ → Option (List UInt8)
  guards : List (ObjectKey δ)
  deletes : List (ObjectKey δ)

/-- How a backend answers.  A refused operation may have been carried out
nevertheless, and a refused upload may leave its guard armed. -/
inductive Outcome where
  | done
  | refused (err : XBackupError) (carriedOut armed : Bool)

namespace Objects

variable {δ : Type} [DecidableEq δ]

def upload (st : Objects δ) (key : ObjectKey δ) (bytes : List UInt8) :
    Objects δ :=
  { st with objects := Function.update st.objects key (some bytes) }

/-- A delete is on record as soon as it is asked for. -/
def ask (st : Objects δ) (key : ObjectKey δ) : Objects δ :=
  { st with deletes := key :: st.deletes }

def remove (st : Objects δ) (key : ObjectKey δ) : Objects δ :=
  { st with objects := Function.update st.objects key none }

def effect (st : Objects δ) : (op : StorageOp δ) → Outcome →
    Option (Objects δ × op.Reply)
  | .putStream key bytes, .done => some (st.upload key bytes, .ok ())
  | .putStream key bytes, .refused err carriedOut armed =>
      let st := if carriedOut then st.upload key bytes else st
      some ({ st with guards := if armed then key :: st.guards else st.guards },
        .error err)
  | .getStream key, .done =>
      (st.objects key).map fun bytes => (st, .ok bytes)
  | .getStream _, .refused err _ _ => some (st, .error err)
  | .delete key, .done => some ((st.ask key).remove key, .ok ())
  | .delete key, .refused err carriedOut _ =>
      some (if carriedOut then (st.ask key).remove key else st.ask key,
        .error err)

/-- The delete of a dropped guard runs. -/
def dropped (st : Objects δ) (guard : Nat) : Option (Objects δ) :=
  st.guards[guard]?.map fun key =>
    { (st.ask key).remove key with guards := st.guards.eraseIdx guard }

/-- The object is there, or was there until its delete was asked for. -/
def Held (st : Objects δ) (key : ObjectKey δ) : Prop :=
  (st.objects key).isSome ∨ key ∈ st.deletes

/-- Objects go only by deletes. -/
structure Grows (st later : Objects δ) : Prop where
  held : ∀ key, st.Held key → later.Held key
  deletes : ∀ key ∈ st.deletes, key ∈ later.deletes

/-- Every object is one of those that may be uploaded to its path. -/
def Allowed (allowed : ObjectKey δ → List UInt8 → Prop) (st : Objects δ) :
    Prop :=
  ∀ key bytes, st.objects key = some bytes → allowed key bytes

variable {st later : Objects δ} {key : ObjectKey δ} {bytes : List UInt8}
  {allowed : ObjectKey δ → List UInt8 → Prop}

omit [DecidableEq δ] in
theorem grows_ask : st.Grows (st.ask key) where
  held _ hheld := hheld.imp_right (List.mem_cons_of_mem key)
  deletes _ := List.mem_cons_of_mem key

@[simp] theorem objects_upload_self :
    (st.upload key bytes).objects key = some bytes :=
  Function.update_self ..

@[simp] theorem objects_upload_of_ne {other : ObjectKey δ} (hother : other ≠ key) :
    (st.upload key bytes).objects other = st.objects other :=
  Function.update_of_ne hother ..

@[simp] theorem objects_remove_self : (st.remove key).objects key = none :=
  Function.update_self ..

@[simp] theorem objects_remove_of_ne {other : ObjectKey δ} (hother : other ≠ key) :
    (st.remove key).objects other = st.objects other :=
  Function.update_of_ne hother ..

theorem held_upload : (st.upload key bytes).Held key := by
  simp [Held]

theorem grows_upload : st.Grows (st.upload key bytes) where
  held other hheld := by
    by_cases hother : other = key
    · subst hother
      exact held_upload
    · rw [Held, objects_upload_of_ne hother]
      exact hheld
  deletes _ := id

theorem grows_remove : st.Grows ((st.ask key).remove key) where
  held other hheld := by
    by_cases hother : other = key
    · subst hother
      exact Or.inr List.mem_cons_self
    · rw [Held, objects_remove_of_ne hother]
      exact grows_ask.held other hheld
  deletes _ := List.mem_cons_of_mem key

theorem allowed_upload (hst : st.Allowed allowed) (hkey : allowed key bytes) :
    (st.upload key bytes).Allowed allowed := by
  intro other content hcontent
  by_cases hother : other = key
  · subst hother
    rw [objects_upload_self] at hcontent
    cases hcontent
    exact hkey
  · rw [objects_upload_of_ne hother] at hcontent
    exact hst other content hcontent

theorem allowed_remove (hst : st.Allowed allowed) :
    ((st.ask key).remove key).Allowed allowed := by
  intro other content hcontent
  by_cases hother : other = key
  · subst hother
    rw [objects_remove_self] at hcontent
    cases hcontent
  · rw [objects_remove_of_ne hother] at hcontent
    exact hst other content hcontent

omit [DecidableEq δ] in
theorem Grows.refl (st : Objects δ) : st.Grows st :=
  ⟨fun _ => id, fun _ => id⟩

omit [DecidableEq δ] in
theorem Grows.trans {last : Objects δ} (hfirst : st.Grows later)
    (hsecond : later.Grows last) : st.Grows last where
  held key hheld := hsecond.held key (hfirst.held key hheld)
  deletes key hkey := hsecond.deletes key (hfirst.deletes key hkey)

theorem dropped_keeps {guard : Nat} (hst : st.Allowed allowed)
    (hnext : st.dropped guard = some later) :
    later.Allowed allowed ∧ st.Grows later := by
  obtain ⟨key, -, rfl⟩ := Option.map_eq_some_iff.mp hnext
  have hgrows : st.Grows ((st.ask key).remove key) := grows_remove
  exact ⟨@allowed_remove δ _ st key allowed hst, hgrows.held, hgrows.deletes⟩

/-- What an operation does to the store, if what it uploads is allowed. -/
theorem effect_keeps {op : StorageOp δ} {outcome : Outcome} {reply : op.Reply}
    (hop : ∀ key bytes, op = .putStream key bytes → allowed key bytes)
    (hst : st.Allowed allowed)
    (heffect : st.effect op outcome = some (later, reply)) :
    later.Allowed allowed ∧ st.Grows later := by
  cases op with
  | putStream key bytes =>
      have hkey := hop key bytes rfl
      cases outcome with
      | done =>
          cases heffect
          exact ⟨allowed_upload hst hkey, grows_upload⟩
      | refused err carriedOut armed =>
          cases heffect
          cases carriedOut with
          | false => exact ⟨hst, fun _ => id, fun _ => id⟩
          | true =>
              have hgrows : st.Grows (st.upload key bytes) := grows_upload
              exact ⟨allowed_upload hst hkey, hgrows.held, hgrows.deletes⟩
  | getStream key =>
      cases outcome with
      | done =>
          obtain ⟨bytes, -, hresult⟩ := Option.map_eq_some_iff.mp heffect
          cases hresult
          exact ⟨hst, Grows.refl st⟩
      | refused err carriedOut armed =>
          cases heffect
          exact ⟨hst, Grows.refl st⟩
  | delete key =>
      cases outcome with
      | done =>
          cases heffect
          exact ⟨allowed_remove hst, grows_remove⟩
      | refused err carriedOut armed =>
          cases heffect
          cases carriedOut with
          | false => exact ⟨hst, grows_ask⟩
          | true => exact ⟨allowed_remove hst, grows_remove⟩

variable (δ) in
def storage : Store (StorageOp.Reply (δ := δ)) (Objects δ) Outcome Nat where
  effect := effect
  happen := dropped

/-- Every object stays an allowed one, and goes only by a delete that was asked
for. -/
def discipline (allowed : ObjectKey δ → List UInt8 → Prop) :
    Discipline (storage δ) where
  valid := Allowed allowed
  grows := Grows
  refl := Grows.refl
  trans := Grows.trans
  happen := dropped_keeps

end Objects

/-- A program of storage operations that stops at the first error. -/
abbrev StorageRun (δ α : Type) :=
  ExceptT XBackupError (Program (StorageOp.Reply (δ := δ))) α

namespace Objects

variable {δ : Type} {allowed : ObjectKey δ → List UInt8 → Prop}
  {st : Objects δ} {key : ObjectKey δ} {bytes : List UInt8}

def putStream (key : ObjectKey δ) (bytes : List UInt8) : StorageRun δ Unit :=
  Program.request (StorageOp.putStream key bytes)

def getStream (key : ObjectKey δ) : StorageRun δ (List UInt8) :=
  Program.request (StorageOp.getStream key)

def delete (key : ObjectKey δ) : StorageRun δ Unit :=
  Program.request (StorageOp.delete key)

variable [DecidableEq δ]

/-- An upload that succeeds leaves its object until a delete of it. -/
theorem leaves_putStream (hkey : allowed key bytes) :
    (discipline allowed).Leaves (fun _ later => later.Held key)
      (putStream key bytes) st := by
  intro now outcome later reply hvalid _ heffect
  obtain ⟨hlater, hgrows⟩ := effect_keeps
    (by rintro key bytes ⟨⟩; exact hkey) hvalid heffect
  refine ⟨hlater, hgrows, Discipline.keeps_ret ?_⟩
  intro last _ hmore _ hok
  cases outcome with
  | done =>
      cases heffect
      exact hmore.held key held_upload
  | refused err carriedOut armed =>
      cases heffect
      cases hok

/-- What is downloaded is one of the allowed objects. -/
theorem leaves_getStream :
    (discipline allowed).Leaves (fun bytes _ => allowed key bytes)
      (getStream key) st := by
  intro now outcome later reply hvalid _ heffect
  obtain ⟨hlater, hgrows⟩ := effect_keeps (by rintro key bytes ⟨⟩) hvalid heffect
  refine ⟨hlater, hgrows, Discipline.keeps_ret ?_⟩
  intro last _ _ bytes hok
  cases outcome with
  | done =>
      obtain ⟨content, hcontent, hresult⟩ := Option.map_eq_some_iff.mp heffect
      cases hresult
      cases hok
      exact hvalid key _ hcontent
  | refused err carriedOut armed =>
      cases heffect
      cases hok

theorem keeps_delete :
    (discipline allowed).Keeps (fun _ _ => True) (delete key).run st := by
  intro now outcome later reply hvalid _ heffect
  obtain ⟨hlater, hgrows⟩ := effect_keeps (by rintro key bytes ⟨⟩) hvalid heffect
  exact ⟨hlater, hgrows, Discipline.keeps_ret fun _ _ _ => trivial⟩

end Objects

end XBackup
