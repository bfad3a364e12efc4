/-
The guard of destructive work.  A confirmation screen issues a token, and the
submission that names it uses it up, whether it is let through or not.
-/
import XBackup.Foundation.Transition
import XBackup.Manifest.Schema
import XBackup.Web.JobSpec

namespace XBackup

namespace Web

open Transition

universe u

def FIELD_CONFIRM_TOKEN : String := "confirm_token"
def FIELD_CONFIRM_NAME : String := "confirm_name"
def FIELD_ALLOW_OVERWRITE : String := "allow_overwrite"

/-- Five minutes, in nanoseconds. -/
def CONFIRM_TTL : Nat := 5 * 60 * 1000000000

/-- What a token was issued for. -/
structure PendingConfirmation where
  action : String
  target : String
  issuedAt : Nat

structure DestructiveTarget where
  action : String
  target : ProfileName

structure ConfirmSubmission where
  token : Option String
  typedName : String
  allowOverwrite : Bool

/-- The three fields of the guard in a form. -/
def ConfirmSubmission.ofForm (form : FormBody) : ConfirmSubmission where
  token := form.get FIELD_CONFIRM_TOKEN
  typedName := (form.get FIELD_CONFIRM_NAME).getD ""
  allowOverwrite := form.checked FIELD_ALLOW_OVERWRITE

inductive OriginProblem where
  | absent
  | noHost
  | foreign (source : String)

inductive GuardRejection where
  | invalidToken
  | actionOrTargetMismatch
  | nameMismatch
deriving DecidableEq

def GuardRejection.reasonTag : GuardRejection → String
  | invalidToken => "invalid_token"
  | actionOrTargetMismatch => "target_mismatch"
  | nameMismatch => "name_mismatch"

inductive ConfirmError where
  | foreignOrigin (problem : OriginProblem)
  | rejected (rejection : GuardRejection)
  | audit (error : XBackupError)

structure ConfirmedGate where
  allowOverwrite : Bool

/-- A line of the audit log. -/
structure AuditLine where
  action : String
  target : String
  args : List String
  failure : Bool

def isExpired (issuedAt now : Nat) : Bool :=
  CONFIRM_TTL < now - issuedAt

/-- The tokens that wait for their submission. -/
structure DestructiveGuard (Token : Type u) where
  pending : Token → Option PendingConfirmation

/-- The clocks and the audit log that a submission meets. -/
structure ConfirmEnv where
  origin : Except OriginProblem Unit
  sweptAt : Nat
  now : Nat
  auditGate : Except XBackupError Unit

namespace DestructiveGuard

variable {Token : Type u}

def new : DestructiveGuard Token := ⟨fun _ => none⟩

def sweepExpired (guard : DestructiveGuard Token) (now : Nat) :
    DestructiveGuard Token :=
  ⟨fun token => (guard.pending token).filter fun entry =>
    !isExpired entry.issuedAt now⟩

theorem pending_sweepExpired {guard : DestructiveGuard Token} {token : Token}
    (hnone : guard.pending token = none) (now : Nat) :
    (guard.sweepExpired now).pending token = none := by
  simp [sweepExpired, hnone]

variable [DecidableEq Token]

/-- What the confirmation screen leaves behind. -/
def renderConfirm (guard : DestructiveGuard Token) (token : Token)
    (what : DestructiveTarget) (sweptAt now : Nat) : DestructiveGuard Token :=
  ⟨Function.update (guard.sweepExpired sweptAt).pending token
    (some ⟨what.action, what.target.asStr, now⟩)⟩

/-- Nothing is wrong with an entry that is taken for `what` under `typedName`. -/
def checkEntry (entry : PendingConfirmation) (what : DestructiveTarget)
    (typedName : String) (now : Nat) : Option GuardRejection :=
  if isExpired entry.issuedAt now then some .invalidToken
  else if entry.action ≠ what.action ∨ entry.target ≠ what.target.asStr then
    some .actionOrTargetMismatch
  else if typedName ≠ what.target.asStr then some .nameMismatch
  else none

/-- `parse` reads a token as the form carries it. -/
def checkAndConsume (parse : String → Option Token)
    (guard : DestructiveGuard Token) (what : DestructiveTarget)
    (submission : ConfirmSubmission) (now : Nat) :
    Option GuardRejection × DestructiveGuard Token :=
  match submission.token.bind parse with
  | none => (some .invalidToken, guard)
  | some token =>
      match guard.pending token with
      | none => (some .invalidToken, guard)
      | some entry =>
          (checkEntry entry what submission.typedName now,
            ⟨Function.update guard.pending token none⟩)

def confirmAndGate (parse : String → Option Token)
    (guard : DestructiveGuard Token) (env : ConfirmEnv)
    (what : DestructiveTarget) (submission : ConfirmSubmission)
    (maskedArgs : List String) :
    Except ConfirmError ConfirmedGate × DestructiveGuard Token ×
      List AuditLine :=
  match env.origin with
  | .error problem => (.error (.foreignOrigin problem), guard, [])
  | .ok () =>
      match checkAndConsume parse (guard.sweepExpired env.sweptAt) what
          submission env.now with
      | (some rejection, next) =>
          (.error (.rejected rejection), next,
            [⟨what.action ++ ".reject", what.target.asStr,
              ["reason=" ++ rejection.reasonTag], true⟩])
      | (none, next) =>
          match env.auditGate with
          | .error error => (.error (.audit error), next, [])
          | .ok () => (.ok ⟨submission.allowOverwrite⟩, next,
              [⟨what.action, what.target.asStr, maskedArgs, false⟩])

variable {parse : String → Option Token} {guard next : DestructiveGuard Token}
  {env : ConfirmEnv} {what : DestructiveTarget}
  {submission : ConfirmSubmission} {maskedArgs : List String}
  {gate : ConfirmedGate} {audit : List AuditLine}

/-- What is let through holds a token that was issued for it and is now used
up. -/
theorem confirmAndGate_ok
    (hok : guard.confirmAndGate parse env what submission maskedArgs =
      (.ok gate, next, audit)) :
    gate.allowOverwrite = submission.allowOverwrite ∧
      ∃ token entry, submission.token.bind parse = some token ∧
        guard.pending token = some entry ∧ entry.action = what.action ∧
        entry.target = what.target.asStr ∧
        submission.typedName = what.target.asStr ∧
        next.pending token = none := by
  rw [confirmAndGate] at hok
  cases horigin : env.origin with
  | error problem =>
      rw [horigin] at hok
      cases congrArg Prod.fst hok
  | ok _ =>
      rw [horigin, checkAndConsume] at hok
      dsimp only at hok
      cases htoken : submission.token.bind parse with
      | none =>
          rw [htoken] at hok
          cases congrArg Prod.fst hok
      | some token =>
          rw [htoken] at hok
          dsimp only at hok
          cases hentry : (guard.sweepExpired env.sweptAt).pending token with
          | none =>
              rw [hentry] at hok
              cases congrArg Prod.fst hok
          | some entry =>
              rw [hentry] at hok
              dsimp only at hok
              have hkept : guard.pending token = some entry :=
                (Option.filter_eq_some_iff.mp hentry).1
              cases hcheck : checkEntry entry what submission.typedName
                  env.now with
              | some rejection =>
                  rw [hcheck] at hok
                  cases congrArg Prod.fst hok
              | none =>
                  rw [hcheck] at hok
                  dsimp only at hok
                  cases haudit : env.auditGate with
                  | error error =>
                      rw [haudit] at hok
                      cases congrArg Prod.fst hok
                  | ok _ =>
                      rw [haudit] at hok
                      cases hok
                      rw [checkEntry] at hcheck
                      split_ifs at hcheck with hexpired hwhat hname
                      rw [not_or, not_not, not_not] at hwhat
                      refine ⟨rfl, token, entry, rfl, hkept, hwhat.1,
                        hwhat.2, not_not.mp hname, ?_⟩
                      exact Function.update_self token _ _

/-- A submission brings no token back. -/
theorem pending_confirmAndGate {token : Token}
    (hnone : guard.pending token = none) :
    (guard.confirmAndGate parse env what submission maskedArgs).2.1.pending
      token = none := by
  have hswept := pending_sweepExpired hnone env.sweptAt
  rw [confirmAndGate]
  cases env.origin with
  | error problem => exact hnone
  | ok _ =>
      have hconsumed : (checkAndConsume parse (guard.sweepExpired env.sweptAt)
          what submission env.now).2.pending token = none := by
        rw [checkAndConsume]
        split
        next => exact hswept
        next found _ =>
          split
          next => exact hswept
          next =>
            dsimp only
            by_cases hsame : token = found
            · rw [hsame, Function.update_self]
            · rw [Function.update_of_ne hsame]
              exact hswept
      dsimp only
      split
      next heq =>
        rw [heq] at hconsumed
        exact hconsumed
      next heq =>
        rw [heq] at hconsumed
        cases env.auditGate with
        | error error => exact hconsumed
        | ok _ => exact hconsumed

/-- A screen is shown, or a form of one is submitted. -/
inductive Step (Token : Type u) where
  | render (token : Token) (what : DestructiveTarget) (sweptAt now : Nat)
  | submit (env : ConfirmEnv) (what : DestructiveTarget)
      (submission : ConfirmSubmission) (maskedArgs : List String)

def step (parse : String → Option Token) (guard : DestructiveGuard Token) :
    Step Token → Option (DestructiveGuard Token)
  | .render token what sweptAt now =>
      some (guard.renderConfirm token what sweptAt now)
  | .submit env what submission maskedArgs =>
      some (guard.confirmAndGate parse env what submission maskedArgs).2.1

/-- A token that is not issued again stays used up. -/
theorem pending_run {token : Token} {steps : List (Step Token)}
    (hnone : guard.pending token = none)
    (hunissued : ∀ what sweptAt now,
      Step.render token what sweptAt now ∉ steps)
    (hrun : run (step parse) guard steps = some next) :
    next.pending token = none := by
  have hmeet : StepsMeet (step parse) (fun _ label => ∀ what sweptAt now,
      label ≠ Step.render token what sweptAt now) guard steps := by
    apply stepsMeet_of_forall_mem
    rintro label hlabel _ what sweptAt now rfl
    exact hunissued what sweptAt now hlabel
  refine run_invariant_of_stepsMeet (fun guard => guard.pending token = none)
    ?_ hnone hmeet hrun
  intro st label after hst hother hstep
  cases label with
  | render issued what sweptAt now =>
      cases hstep
      have hne : token ≠ issued := by
        rintro rfl
        exact hother what sweptAt now rfl
      rw [renderConfirm]
      dsimp only
      rw [Function.update_of_ne hne]
      exact pending_sweepExpired hst sweptAt
  | submit env what submission maskedArgs =>
      cases hstep
      exact pending_confirmAndGate hst

/-- A token lets one submission through at most. -/
theorem confirmed_once {token : Token} {steps : List (Step Token)}
    {later last : DestructiveGuard Token} {env' : ConfirmEnv}
    {what' : DestructiveTarget} {submission' : ConfirmSubmission}
    {maskedArgs' : List String} {gate' : ConfirmedGate}
    {audit' : List AuditLine}
    (htoken : submission.token.bind parse = some token)
    (hok : guard.confirmAndGate parse env what submission maskedArgs =
      (.ok gate, next, audit))
    (hunissued : ∀ what sweptAt now,
      Step.render token what sweptAt now ∉ steps)
    (hrun : run (step parse) next steps = some later)
    (hagain : later.confirmAndGate parse env' what' submission' maskedArgs' =
      (.ok gate', last, audit')) :
    submission'.token.bind parse ≠ some token := by
  intro htoken'
  obtain ⟨-, used, _, hused, -, -, -, -, hspent⟩ := confirmAndGate_ok hok
  obtain ⟨-, again, entry, hagainUsed, hpending, -⟩ := confirmAndGate_ok hagain
  cases htoken.symm.trans hused
  cases htoken'.symm.trans hagainUsed
  rw [pending_run hspent hunissued hrun] at hpending
  cases hpending

end DestructiveGuard

end Web

end XBackup
