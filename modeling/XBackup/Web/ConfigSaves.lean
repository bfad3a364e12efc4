/-
Saves of one config file that run at the same time.
-/
import XBackup.Foundation.Transition
import XBackup.Web.ConfigChange

namespace XBackup

namespace Web

namespace ConfigWrite

open Fallible Transition

open Config (Table Value)

universe v

def BACKUP_GENERATIONS : Nat := 5

/-- What the saves take from other crates: UTF-8, TOML and SHA-256. -/
structure Codec (β : Type) where
  decode : List β → Option String
  encode : String → List β
  fromStr : String → Except String Value
  toStr : Value → Except String String
  digestOf : String → String

structure ConversionPlan where
  digest : String
  newText : String

inductive Request where
  | apply (change : ProfileChange)
  | applyFromTerminal (change : ProfileChange)
  | convertToV2 (plan : ConversionPlan)

section Texts

variable {β : Type} (codec : Codec β)

def readToString (file : List β) : Except SaveError String :=
  match codec.decode file with
  | some text => .ok text
  | none => .error (.io "stream did not contain valid UTF-8")

def render (change : ProfileChange) (file : List β) :
    Except SaveError String := do
  let original ← readToString codec file
  match codec.fromStr original with
  | .error e => .error (.config ("config를 다시 읽는 중 실패했습니다(그 사이 " ++
      "파일이 바뀌었을 수 있습니다): " ++ e))
  | .ok root =>
      match root.asTable with
      | none => .error (.config "config 최상위가 테이블이 아닙니다")
      | some table => do
          let table ← applyChangeToTable table change
          match codec.toStr (.table table.entries) with
          | .error e => .error (.config ("변경을 TOML로 직렬화하지 못했습니다: " ++
              e))
          | .ok text => .ok text

/-- The plan is for the text that it was made of. -/
def convert (plan : ConversionPlan) (file : List β) :
    Except SaveError String := do
  let current ← readToString codec file
  if codec.digestOf current = plan.digest then .ok plan.newText
  else .error (.config ("미리보기를 만든 뒤 config 파일이 바뀌었습니다 — " ++
    "전환하지 않았습니다. 전환 화면을 새로 열어 바뀐 내용으로 다시 확인하세요."))

namespace Request

def isNoop : Request → Bool
  | apply change => change.isNoop
  | applyFromTerminal change => change.isNoop
  | convertToV2 _ => false

/-- The text that a call writes, by the one that it reads. -/
def newText (request : Request) (file : List β) : Except SaveError (List β) :=
  codec.encode <$>
    match request with
    | apply change => render codec change file
    | applyFromTerminal change => render codec change file
    | convertToV2 plan => convert codec plan file

end Request

end Texts

/-- A text that a call has made of the one that it read, and how many saves
there had been by then. -/
structure Draft {β : Type} (codec : Codec β) where
  request : Request
  base : List β
  new : List β
  made : request.newText codec base = .ok new
  seen : Nat

/-- How far a call is: which backup it looks for, which one it moves, and how
much of its temporary file is written. -/
inductive Phase {β : Type} (codec : Codec β) where
  | idle
  | validating (draft : Draft codec)
  | probing (draft : Draft codec) (generation : Nat)
  | moving (draft : Draft codec) (generation : Nat)
  | writing (draft : Draft codec) (written : Nat)
  | renamed (draft : Draft codec) (replaced : List β)
  | saved (draft : Draft codec) (replaced : List β)
  | unchanged
  | failed
  | crashed

namespace Phase

variable {β : Type} {codec : Codec β}

/-- The text of a call that has not renamed yet. -/
def draft : Phase codec → Option (Draft codec)
  | validating draft => some draft
  | probing draft _ => some draft
  | moving draft _ => some draft
  | writing draft _ => some draft
  | _ => none

def isRenamed : Phase codec → Bool
  | renamed _ _ => true
  | _ => false

end Phase

structure Commit {β : Type} (codec : Codec β) (ι : Type v) where
  call : ι
  draft : Draft codec
  replaced : List β

/-- The files, how far each call is, and the saves in the order in which they
were made. -/
structure SaveState {β : Type} (codec : Codec β) (ι : Type v) where
  config : List β
  backup : Nat → Option (List β)
  phase : ι → Phase codec
  commits : List (Commit codec ι)

inductive SaveLabel (ι : Type v) where
  | read (c : ι) (request : Request)
  | validate (c : ι)
  | probe (c : ι)
  | move (c : ι)
  | copy (c : ι)
  | write (c : ι) (n : Nat)
  | rename (c : ι)
  | finish (c : ι)
  | fail (c : ι)
  | crash (c : ι)

namespace SaveState

variable {β : Type} {codec : Codec β} {ι : Type v} [DecidableEq ι]
  (st : SaveState codec ι)

def enter (c : ι) (phase : Phase codec) : SaveState codec ι :=
  { st with phase := Function.update st.phase c phase }

/-- The oldest backup is removed, any other one gets the next number. -/
def shifted (generation : Nat) (held : List β) : Nat → Option (List β) :=
  Function.update
    (if generation = BACKUP_GENERATIONS then st.backup
      else Function.update st.backup (generation + 1) (some held))
    generation none

def readStep (c : ι) (request : Request) : SaveState codec ι :=
  if request.isNoop then st.enter c .unchanged
  else
    match made : request.newText codec st.config with
    | .error _ => st.enter c .failed
    | .ok new => st.enter c
        (.validating ⟨request, st.config, new, made, st.commits.length⟩)

def moveStep (c : ι) (draft : Draft codec) (generation : Nat) :
    SaveState codec ι :=
  match st.backup generation with
  | none => st.enter c .failed
  | some held =>
      { st.enter c (.probing draft (generation - 1)) with
        backup := st.shifted generation held }

def copyStep (c : ι) (draft : Draft codec) : SaveState codec ι :=
  { st.enter c (.writing draft 0) with
    backup := Function.update st.backup 1 (some st.config) }

/-- The temporary file takes the place of the config. -/
def renameStep (c : ι) (draft : Draft codec) (written : Nat) :
    SaveState codec ι :=
  { st.enter c (.renamed draft st.config) with
    config := draft.new.take written
    commits := st.commits ++ [⟨c, draft, st.config⟩] }

def step : SaveLabel ι → Option (SaveState codec ι)
  | .read c request =>
      match st.phase c with
      | .idle => some (st.readStep c request)
      | _ => none
  | .validate c =>
      match st.phase c with
      | .validating draft =>
          some (st.enter c (.probing draft BACKUP_GENERATIONS))
      | _ => none
  | .probe c =>
      match st.phase c with
      | .probing draft (generation + 1) =>
          some (st.enter c (if (st.backup (generation + 1)).isSome
            then .moving draft (generation + 1)
            else .probing draft generation))
      | _ => none
  | .move c =>
      match st.phase c with
      | .moving draft generation => some (st.moveStep c draft generation)
      | _ => none
  | .copy c =>
      match st.phase c with
      | .probing draft 0 => some (st.copyStep c draft)
      | _ => none
  | .write c n =>
      match st.phase c with
      | .writing draft written =>
          some (st.enter c (.writing draft (written + n)))
      | _ => none
  | .rename c =>
      match st.phase c with
      | .writing draft written =>
          if draft.new.length ≤ written then
            some (st.renameStep c draft written)
          else none
      | _ => none
  | .finish c =>
      match st.phase c with
      | .renamed draft replaced => some (st.enter c (.saved draft replaced))
      | _ => none
  | .fail c =>
      if (st.phase c).draft.isSome then some (st.enter c .failed) else none
  | .crash c =>
      if (st.phase c).draft.isSome ∨ (st.phase c).isRenamed then
        some (st.enter c .crashed)
      else none

end SaveState

/-- A step of a call that leaves the files as they are. -/
structure Phase.Quiet {β : Type} {codec : Codec β} (p p' : Phase codec) :
    Prop where
  draft : ∀ draft, p'.draft = some draft → p.draft = some draft
  writing : ∀ draft written, p' = .writing draft written →
    ∃ before, p = .writing draft before
  moving : ∀ draft generation, p' = .moving draft generation → generation ≠ 0
  renamed : ∀ draft replaced, p' ≠ .renamed draft replaced
  saved : ∀ draft replaced, p' = .saved draft replaced →
    p = .renamed draft replaced

/-- What a step can do. -/
inductive Moves {β : Type} {codec : Codec β} {ι : Type v} [DecidableEq ι]
    (st : SaveState codec ι) : SaveLabel ι → SaveState codec ι → Prop where
  | quiet {label : SaveLabel ι} (c : ι) (phase : Phase codec)
      (hquiet : (st.phase c).Quiet phase) : Moves st label (st.enter c phase)
  | read (c : ι) (draft : Draft codec) (hbase : draft.base = st.config)
      (hseen : draft.seen = st.commits.length) :
      Moves st (.read c draft.request) (st.enter c (.validating draft))
  | move (c : ι) (draft : Draft codec) (generation : Nat) (held : List β)
      (hphase : st.phase c = .moving draft generation) :
      Moves st (.move c)
        { st.enter c (.probing draft (generation - 1)) with
          backup := st.shifted generation held }
  | copy (c : ι) (draft : Draft codec) (hphase : st.phase c = .probing draft 0) :
      Moves st (.copy c) (st.copyStep c draft)
  | rename (c : ι) (draft : Draft codec) (written : Nat)
      (hphase : st.phase c = .writing draft written)
      (hwritten : draft.new.length ≤ written) :
      Moves st (.rename c) (st.renameStep c draft written)

section Steps

variable {β : Type} {codec : Codec β} {ι : Type v} [DecidableEq ι]
  {st next : SaveState codec ι} {label : SaveLabel ι}

/-- A call that leaves its work, or goes on without a new text. -/
theorem Phase.Quiet.of_draft_eq_none {p p' : Phase codec}
    (hdraft : p'.draft = none) (hrenamed : p'.isRenamed = false)
    (hsaved : ∀ draft replaced, p' = .saved draft replaced →
      p = .renamed draft replaced) : p.Quiet p' where
  draft draft h := by
    rw [hdraft] at h
    cases h
  writing draft written h := by
    subst h
    cases hdraft
  moving draft generation h := by
    subst h
    cases hdraft
  renamed draft replaced h := by
    subst h
    cases hrenamed
  saved := hsaved

theorem moves_of_read (c : ι) (request : Request) :
    Moves st (.read c request) (st.readStep c request) := by
  rw [SaveState.readStep]
  split
  next =>
    exact .quiet c _ (.of_draft_eq_none rfl rfl fun _ _ h => nomatch h)
  next =>
    split
    next =>
      exact .quiet c _ (.of_draft_eq_none rfl rfl fun _ _ h => nomatch h)
    next new made =>
      exact .read c ⟨request, st.config, new, made, st.commits.length⟩ rfl rfl

theorem moves_of_step (hstep : st.step label = some next) :
    Moves st label next := by
  cases label with
  | read c request =>
      simp only [SaveState.step] at hstep
      split at hstep
      next =>
        cases hstep
        exact moves_of_read c request
      next => cases hstep
  | validate c =>
      simp only [SaveState.step] at hstep
      split at hstep
      next draft hphase =>
        cases hstep
        refine .quiet c _ ⟨?_, ?_, ?_, ?_, ?_⟩
        · rintro _ ⟨⟩
          rw [hphase]
          rfl
        all_goals nofun
      next => cases hstep
  | probe c =>
      simp only [SaveState.step] at hstep
      split at hstep
      next draft generation hphase =>
        cases hstep
        refine .quiet c _ ?_
        split
        next =>
          refine ⟨?_, nofun, ?_, nofun, nofun⟩
          · rintro _ ⟨⟩
            rw [hphase]
            rfl
          · rintro _ _ ⟨⟩
            exact Nat.succ_ne_zero _
        next =>
          refine ⟨?_, nofun, nofun, nofun, nofun⟩
          rintro _ ⟨⟩
          rw [hphase]
          rfl
      next => cases hstep
  | move c =>
      simp only [SaveState.step] at hstep
      split at hstep
      next draft generation hphase =>
        cases hstep
        rw [SaveState.moveStep]
        split
        next =>
          exact .quiet c _ (.of_draft_eq_none rfl rfl fun _ _ h => nomatch h)
        next held hheld => exact .move c draft generation held hphase
      next => cases hstep
  | copy c =>
      simp only [SaveState.step] at hstep
      split at hstep
      next draft hphase =>
        cases hstep
        exact .copy c draft hphase
      next => cases hstep
  | write c n =>
      simp only [SaveState.step] at hstep
      split at hstep
      next draft written hphase =>
        cases hstep
        refine .quiet c _ ⟨?_, ?_, nofun, nofun, nofun⟩
        · rintro _ ⟨⟩
          rw [hphase]
          rfl
        · rintro _ _ ⟨⟩
          exact ⟨written, hphase⟩
      next => cases hstep
  | rename c =>
      simp only [SaveState.step] at hstep
      split at hstep
      next draft written hphase =>
        split at hstep
        next hwritten =>
          cases hstep
          exact .rename c draft written hphase hwritten
        next => cases hstep
      next => cases hstep
  | finish c =>
      simp only [SaveState.step] at hstep
      split at hstep
      next draft replaced hphase =>
        cases hstep
        refine .quiet c _ (.of_draft_eq_none rfl rfl ?_)
        rintro _ _ ⟨⟩
        exact hphase
      next => cases hstep
  | fail c =>
      simp only [SaveState.step] at hstep
      split at hstep
      next =>
        cases hstep
        exact .quiet c _ (.of_draft_eq_none rfl rfl fun _ _ h => nomatch h)
      next => cases hstep
  | crash c =>
      simp only [SaveState.step] at hstep
      split at hstep
      next =>
        cases hstep
        exact .quiet c _ (.of_draft_eq_none rfl rfl fun _ _ h => nomatch h)
      next => cases hstep

end Steps

/-- What holds of a call, by the config, the number of the saves and the latest
backup. -/
structure Phase.Sound {β : Type} {codec : Codec β} (config : List β)
    (saves : Nat) (latest : Option (List β)) (p : Phase codec) : Prop where
  seen : ∀ draft, p.draft = some draft → draft.seen ≤ saves
  base : ∀ draft, p.draft = some draft → draft.seen = saves →
    draft.base = config
  moving : ∀ draft generation, p = .moving draft generation → generation ≠ 0
  copied : ∀ draft written, p = .writing draft written → draft.seen = saves →
    latest = none ∨ latest = some config
  kept : ∀ draft replaced, p = .renamed draft replaced →
    latest = some replaced

namespace Phase.Sound

variable {β : Type} {codec : Codec β} {config : List β} {saves : Nat}
  {latest : Option (List β)} {p p' : Phase codec}

theorem of_quiet (hsound : p.Sound config saves latest) (hquiet : p.Quiet p') :
    p'.Sound config saves latest where
  seen draft h := hsound.seen draft (hquiet.draft draft h)
  base draft h := hsound.base draft (hquiet.draft draft h)
  moving := hquiet.moving
  copied draft written h := by
    obtain ⟨before, hbefore⟩ := hquiet.writing draft written h
    exact hsound.copied draft before hbefore
  kept draft replaced h := absurd h (hquiet.renamed draft replaced)

/-- Another call takes `.bak.1` away, or copies the config over it. -/
theorem of_latest (hsound : p.Sound config saves latest)
    (hrenamed : p.isRenamed = false) {latest' : Option (List β)}
    (hlatest : latest' = none ∨ latest' = some config) :
    p.Sound config saves latest' where
  seen := hsound.seen
  base := hsound.base
  moving := hsound.moving
  copied _ _ _ _ := hlatest
  kept draft replaced h := by
    subst h
    cases hrenamed

/-- Another call renames. -/
theorem of_rename (hsound : p.Sound config saves latest) (new : List β) :
    p.Sound new (saves + 1) latest where
  seen draft h := (hsound.seen draft h).trans (Nat.le_succ saves)
  base draft h heq := by
    have hle := hsound.seen draft h
    omega
  moving := hsound.moving
  copied draft written h heq := by
    subst h
    have hle := hsound.seen draft rfl
    omega
  kept := hsound.kept

end Phase.Sound

namespace Commit

variable {β : Type} {codec : Codec β} {ι : Type v}

/-- What the text of a save has, the config has, unless a later save of a call
that read it took it out. -/
def Lasts (commit : Commit codec ι) (later : List (Commit codec ι))
    (config : List β) : Prop :=
  ∀ has : List β → Prop, has commit.draft.new →
    has config ∨ ∃ other ∈ later, has other.draft.base ∧ ¬ has other.draft.new

theorem mem_of_later {commits front later : List (Commit codec ι)}
    {commit other : Commit codec ι} (hcommits : commits = front ++ commit :: later)
    (hother : other ∈ later) : other ∈ commits := by
  rw [hcommits]
  exact List.mem_append_right front (List.mem_cons_of_mem commit hother)

theorem lasts_self (commit : Commit codec ι) :
    commit.Lasts [] commit.draft.new :=
  fun _ hnew => .inl hnew

theorem Lasts.concat {commit : Commit codec ι} {later : List (Commit codec ι)}
    {config : List β} (hlasts : commit.Lasts later config)
    {other : Commit codec ι} (hbase : other.draft.base = config) :
    commit.Lasts (later ++ [other]) other.draft.new := by
  intro has hnew
  by_cases hother : has other.draft.new
  · exact .inl hother
  · right
    rcases hlasts has hnew with hconfig | ⟨between, hmem, hout⟩
    · rw [← hbase] at hconfig
      exact ⟨other, by simp, hconfig, hother⟩
    · exact ⟨between, List.mem_append_left _ hmem, hout⟩

end Commit

namespace SaveState

variable {β : Type} {codec : Codec β} {ι : Type v}

def start (codec : Codec β) (config : List β)
    (backup : Nat → Option (List β)) : SaveState codec ι where
  config := config
  backup := backup
  phase _ := .idle
  commits := []

/-- Whatever the order of the steps is. -/
structure Whole (original : List β) (st : SaveState codec ι) : Prop where
  config : st.config = original ∨
    ∃ commit ∈ st.commits, commit.draft.new = st.config
  logged : ∀ c draft replaced, st.phase c = .renamed draft replaced ∨
    st.phase c = .saved draft replaced → ⟨c, draft, replaced⟩ ∈ st.commits

structure Sound (st : SaveState codec ι) : Prop where
  phases : ∀ c, (st.phase c).Sound st.config st.commits.length (st.backup 1)
  lasts : ∀ front commit later, st.commits = front ++ commit :: later →
    commit.Lasts later st.config

/-- The promise of the saves: the config is what it was or what a call made,
and what a call that has returned made lasts. -/
structure Kept (original : List β) (st : SaveState codec ι) : Prop where
  config : st.config = original ∨
    ∃ commit ∈ st.commits, commit.draft.new = st.config
  lasts : ∀ c draft replaced, st.phase c = .saved draft replaced →
    ∃ front later, st.commits = front ++ ⟨c, draft, replaced⟩ :: later ∧
      Commit.Lasts ⟨c, draft, replaced⟩ later st.config

/-- No other call has renamed since this one read, and `.bak.1` is there; and
`.bak.1` stays as it is while a call is between its rename and its return. -/
def Undisturbed (st : SaveState codec ι) : SaveLabel ι → Prop
  | .rename c => ∀ draft written, st.phase c = .writing draft written →
      draft.seen = st.commits.length ∧ (st.backup 1).isSome
  | .move c => ∀ draft, st.phase c = .moving draft 1 →
      ∀ other, (st.phase other).isRenamed = false
  | .copy _ => ∀ other, (st.phase other).isRenamed = false
  | _ => True

variable {st next : SaveState codec ι} {label : SaveLabel ι} {original : List β}

theorem start_whole (config : List β) (backup : Nat → Option (List β)) :
    (start codec config backup : SaveState codec ι).Whole config where
  config := .inl rfl
  logged _ _ _ h := by
    rcases h with h | h <;> cases h

theorem start_sound (config : List β) (backup : Nat → Option (List β)) :
    (start codec config backup : SaveState codec ι).Sound where
  phases _ := ⟨nofun, nofun, nofun, nofun, nofun⟩
  lasts front commit later h := by
    cases front <;> cases h

theorem shifted_one {generation : Nat} (hgeneration : generation ≠ 0)
    (held : List β) : st.shifted generation held 1 =
      if generation = 1 then none else st.backup 1 := by
  rw [shifted, Function.update_apply]
  by_cases hone : generation = 1
  · rw [if_pos hone.symm, if_pos hone]
  · rw [if_neg (Ne.symm hone), if_neg hone]
    split
    next => rfl
    next => rw [Function.update_apply, if_neg (by omega)]

variable [DecidableEq ι]

theorem renameStep_config {c : ι} {draft : Draft codec} {written : Nat}
    (hwritten : draft.new.length ≤ written) :
    (st.renameStep c draft written).config = draft.new :=
  List.take_of_length_le hwritten

theorem phase_enter (c other : ι) (phase : Phase codec) :
    (st.enter c phase).phase other =
      if other = c then phase else st.phase other :=
  Function.update_apply st.phase c phase other

theorem Whole.step (hwhole : st.Whole original)
    (hstep : st.step label = some next) : next.Whole original := by
  have hother : ∀ c phase, (∀ draft replaced, phase = .renamed draft replaced ∨
      phase = .saved draft replaced → st.phase c = .renamed draft replaced) →
      ∀ c' draft replaced,
        (st.enter c phase).phase c' = .renamed draft replaced ∨
          (st.enter c phase).phase c' = .saved draft replaced →
        ⟨c', draft, replaced⟩ ∈ st.commits := by
    intro c phase hphase c' draft replaced h
    rw [phase_enter] at h
    split at h
    next heq =>
      subst heq
      exact hwhole.logged _ draft replaced (.inl (hphase draft replaced h))
    next => exact hwhole.logged c' draft replaced h
  cases moves_of_step hstep with
  | quiet c phase hquiet =>
      refine ⟨hwhole.config, hother c phase ?_⟩
      rintro draft replaced (h | h)
      · exact absurd h (hquiet.renamed draft replaced)
      · exact hquiet.saved draft replaced h
  | read c draft hbase hseen =>
      exact ⟨hwhole.config, hother c _ (by simp)⟩
  | move c draft generation held hphase =>
      exact ⟨hwhole.config, hother c _ (by simp)⟩
  | copy c draft hphase =>
      exact ⟨hwhole.config, hother c _ (by simp)⟩
  | rename c draft written hphase hwritten =>
      refine ⟨.inr ⟨⟨c, draft, st.config⟩, by simp [renameStep], ?_⟩, ?_⟩
      · exact (renameStep_config hwritten).symm
      · intro c' draft' replaced h
        change (st.enter c _).phase c' = _ ∨ (st.enter c _).phase c' = _ at h
        rw [phase_enter] at h
        change _ ∈ st.commits ++ [_]
        split at h
        next heq =>
          subst heq
          rcases h with h | h
          · cases h
            simp
          · cases h
        next =>
          exact List.mem_append_left _ (hwhole.logged c' draft' replaced h)

/-- One step that meets the condition. -/
theorem Sound.step (hsound : st.Sound) (hmeet : st.Undisturbed label)
    (hstep : st.step label = some next) : next.Sound := by
  have hphases : ∀ {config : List β} {saves : Nat} {latest : Option (List β)}
      (c : ι) (phase : Phase codec), phase.Sound config saves latest →
      (∀ c', c' ≠ c → (st.phase c').Sound config saves latest) →
      ∀ c', ((st.enter c phase).phase c').Sound config saves latest := by
    intro config saves latest c phase hself hothers c'
    rw [phase_enter]
    split
    next => exact hself
    next hne => exact hothers c' hne
  cases moves_of_step hstep with
  | quiet c phase hquiet =>
      exact ⟨hphases c phase ((hsound.phases c).of_quiet hquiet)
        fun c' _ => hsound.phases c', hsound.lasts⟩
  | read c draft hbase hseen =>
      refine ⟨hphases c _ ⟨?_, ?_, nofun, nofun, nofun⟩
        fun c' _ => hsound.phases c', hsound.lasts⟩
      · rintro _ ⟨⟩
        exact hseen.le
      · rintro _ ⟨⟩ -
        exact hbase
  | move c draft generation held hphase =>
      have hgeneration := (hsound.phases c).moving draft generation hphase
      have hself : (Phase.probing draft (generation - 1)).Sound st.config
          st.commits.length (st.shifted generation held 1) := by
        have hc := hsound.phases c
        rw [hphase] at hc
        exact ⟨hc.seen, hc.base, nofun, nofun, nofun⟩
      refine ⟨hphases c _ hself fun c' _ => ?_, hsound.lasts⟩
      change (st.phase c').Sound st.config st.commits.length
        (st.shifted generation held 1)
      rw [shifted_one hgeneration]
      split
      next hone =>
        subst hone
        exact (hsound.phases c').of_latest (hmeet draft hphase c') (.inl rfl)
      next => exact hsound.phases c'
  | copy c draft hphase =>
      have hlatest : Function.update st.backup 1 (some st.config) 1 =
          some st.config := Function.update_self _ _ _
      refine ⟨hphases c _ ?_ fun c' _ => ?_, hsound.lasts⟩
      · have hc := hsound.phases c
        rw [hphase] at hc
        exact ⟨hc.seen, hc.base, nofun, fun _ _ _ _ => .inr hlatest, nofun⟩
      · exact (hsound.phases c').of_latest (hmeet c') (.inr hlatest)
  | rename c draft written hphase hwritten =>
      obtain ⟨hseen, hthere⟩ := hmeet draft written hphase
      have hc := hsound.phases c
      rw [hphase] at hc
      have hbase : draft.base = st.config := hc.base draft rfl hseen
      have hlatest : st.backup 1 = some st.config := by
        refine (hc.copied draft written rfl hseen).resolve_left fun hnone => ?_
        rw [hnone] at hthere
        cases hthere
      have hconfig := st.renameStep_config hwritten (c := c)
      refine ⟨?_, ?_⟩
      · have hlength : (st.renameStep c draft written).commits.length =
            st.commits.length + 1 := List.length_append
        rw [hlength]
        refine hphases c _ ⟨nofun, nofun, nofun, nofun, ?_⟩
          fun c' _ => (hsound.phases c').of_rename _
        rintro _ _ ⟨⟩
        exact hlatest
      · intro front commit later hcommits
        rw [hconfig]
        change st.commits ++ [_] = _ at hcommits
        rcases List.eq_nil_or_concat later with rfl | ⟨between, last, rfl⟩
        · obtain ⟨-, hlast⟩ := List.append_inj' hcommits rfl
          cases hlast
          exact Commit.lasts_self _
        · rw [List.concat_eq_append, ← List.cons_append, ← List.append_assoc]
            at hcommits
          obtain ⟨hfront, hlast⟩ := List.append_inj' hcommits rfl
          cases hlast
          rw [List.concat_eq_append]
          exact (hsound.lasts front commit between hfront).concat hbase

theorem run_whole {config : List β} {backup : Nat → Option (List β)}
    {labels : List (SaveLabel ι)} {last : SaveState codec ι}
    (hrun : run step (start codec config backup) labels = some last) :
    last.Whole config :=
  run_invariant (Whole config) (fun _ _ _ hwhole hstep => hwhole.step hstep)
    (start_whole config backup) hrun

theorem run_sound {config : List β} {backup : Nat → Option (List β)}
    {labels : List (SaveLabel ι)} {last : SaveState codec ι}
    (hrun : run step (start codec config backup) labels = some last)
    (hmeet : StepsMeet step Undisturbed (start codec config backup) labels) :
    last.Sound :=
  run_invariant_of_stepsMeet Sound
    (fun _ _ _ hsound hok hstep => hsound.step hok hstep)
    (start_sound config backup) hmeet hrun

theorem step_finish {c : ι} (hstep : st.step (.finish c) = some next) :
    ∃ draft replaced, st.phase c = .renamed draft replaced ∧
      next = st.enter c (.saved draft replaced) := by
  simp only [step] at hstep
  split at hstep
  next draft replaced hphase =>
    cases hstep
    exact ⟨draft, replaced, hphase, rfl⟩
  next => cases hstep

/-- Saves that do not disturb one another keep what each of them made, and the
text that a call replaced is in `.bak.1` when it returns. -/
theorem kept_of_undisturbed {config : List β} {backup : Nat → Option (List β)}
    {labels : List (SaveLabel ι)} {last : SaveState codec ι}
    (hrun : run step (start codec config backup) labels = some last)
    (hmeet : StepsMeet step Undisturbed (start codec config backup) labels) :
    last.Kept config ∧
      ∀ before c draft replaced, labels = before ++ [.finish c] →
        last.phase c = .saved draft replaced →
          last.backup 1 = some replaced := by
  have hwhole := run_whole hrun
  refine ⟨⟨hwhole.config, ?_⟩, ?_⟩
  · intro c draft replaced hsaved
    have hlogged := hwhole.logged c draft replaced (.inr hsaved)
    obtain ⟨front, later, hcommits⟩ := List.append_of_mem hlogged
    exact ⟨front, later, hcommits,
      (run_sound hrun hmeet).lasts front _ later hcommits⟩
  · rintro before c draft replaced rfl hsaved
    obtain ⟨mid, hbefore, hlast⟩ := run_append_eq_some.mp hrun
    have hsound := run_sound hbefore
      (stepsMeet_front (List.prefix_append before _) hmeet)
    obtain ⟨next, hfinish, hnil⟩ := run_cons_eq_some.mp hlast
    cases hnil
    obtain ⟨draft', replaced', hrenamed, rfl⟩ := step_finish hfinish
    rw [phase_enter, if_pos rfl] at hsaved
    cases hsaved
    exact (hsound.phases c).kept draft replaced hrenamed

end SaveState

section Changes

variable {β : Type} {codec : Codec β}

/-- What is written can be read again. -/
structure Codec.Lawful (codec : Codec β) : Prop where
  decode_encode : ∀ text, codec.decode (codec.encode text) = some text
  fromStr_toStr : ∀ v text, codec.toStr v = .ok text →
    codec.fromStr text = .ok v

/-- A file of the second syntax has what a change says of its profile. -/
def ProfileChange.InFile (codec : Codec β) (change : ProfileChange)
    (file : List β) : Prop :=
  ∃ text root t, codec.decode file = some text ∧
    codec.fromStr text = .ok root ∧ root.asTable = some t ∧ change.Held t

theorem render_eq_ok {change : ProfileChange} {file : List β} {text : String}
    (hrender : render codec change file = .ok text) :
    ∃ root root', applyChangeToTable root change = .ok root' ∧
      codec.toStr (.table root'.entries) = .ok text := by
  obtain ⟨original, -, hparse⟩ := bind_eq_ok.mp hrender
  split at hparse
  next => cases hparse
  next v hv =>
    split at hparse
    next => cases hparse
    next root hroot =>
      obtain ⟨root', happly, hwrite⟩ := bind_eq_ok.mp hparse
      split at hwrite
      next => cases hwrite
      next written hwritten =>
        cases hwrite
        exact ⟨root, root', happly, hwritten⟩

theorem inFile_of_render (hlaw : codec.Lawful) {change : ProfileChange}
    (hsecond : change.configSyntax ≠ .v1) {file : List β} {text : String}
    (hrender : render codec change file = .ok text) :
    change.InFile codec (codec.encode text) := by
  obtain ⟨root, root', happly, hwritten⟩ := render_eq_ok hrender
  refine ⟨text, _, _, hlaw.decode_encode text,
    hlaw.fromStr_toStr _ text hwritten, rfl, ?_⟩
  rw [change.held_ofEntries]
  rw [applyChangeToTable] at happly
  split at happly
  next hv1 => exact absurd hv1 hsecond
  next => exact change.held_of_applyChangeV2 happly
  next => exact change.held_of_applyChangeV2 happly

/-- The text that a call made for a change has it. -/
theorem Draft.inFile (hlaw : codec.Lawful) {change : ProfileChange}
    (hsecond : change.configSyntax ≠ .v1) (draft : Draft codec)
    (hrequest : draft.request = .apply change ∨
      draft.request = .applyFromTerminal change) :
    change.InFile codec draft.new := by
  have hmade := draft.made
  have hrender : codec.encode <$> render codec change draft.base =
      .ok draft.new := by
    rcases hrequest with h | h <;> rw [h] at hmade <;> exact hmade
  obtain ⟨text, htext, hnew⟩ := map_eq_ok.mp hrender
  rw [← hnew]
  exact inFile_of_render hlaw hsecond htext

/-- What a returned call changed is in the config, unless a later save of a
call that read it took it out. -/
theorem change_lasts {ι : Type v} [DecidableEq ι] (hlaw : codec.Lawful)
    {config : List β} {backup : Nat → Option (List β)}
    {labels : List (SaveLabel ι)} {last : SaveState codec ι}
    (hrun : run SaveState.step (.start codec config backup) labels = some last)
    (hmeet : StepsMeet SaveState.step SaveState.Undisturbed
      (.start codec config backup) labels)
    {c : ι} {draft : Draft codec} {replaced : List β}
    (hsaved : last.phase c = .saved draft replaced) {change : ProfileChange}
    (hsecond : change.configSyntax ≠ .v1)
    (hrequest : draft.request = .apply change ∨
      draft.request = .applyFromTerminal change) :
    ∃ front later, last.commits = front ++ ⟨c, draft, replaced⟩ :: later ∧
      (change.InFile codec last.config ∨
        ∃ other ∈ later, change.InFile codec other.draft.base ∧
          ¬ change.InFile codec other.draft.new) := by
  have hlogged := (SaveState.run_whole hrun).logged c draft replaced
    (.inr hsaved)
  obtain ⟨front, later, hcommits⟩ := List.append_of_mem hlogged
  exact ⟨front, later, hcommits, (SaveState.run_sound hrun hmeet).lasts front _
    later hcommits _ (draft.inFile hlaw hsecond hrequest)⟩

end Changes

/-- Texts as lists of characters, and TOML of the one shape below. -/
def plainCodec : Codec Char where
  decode file := some (String.ofList file)
  encode := String.toList
  fromStr text := if text = "" then .ok (.table []) else .error "unsupported"
  toStr
    | .table [(sectionName, .table [(name, .table [(key, .string s)])])] =>
        .ok ("[" ++ sectionName ++ "." ++ name ++ "]\n" ++ key ++ " = \"" ++
          s ++ "\"\n")
    | _ => .error "unsupported"
  digestOf text := text

def creation (name : ProfileName) : ProfileChange where
  op := .create
  name := name
  configSyntax := .empty
  set := SortedMap.Map.ofEntries [("uri_env", .string "URI")]
  unset := []

def createsA : Request := .apply (creation ⟨"a", rfl⟩)

def createsB : Request := .applyFromTerminal (creation ⟨"b", rfl⟩)

/-- Both calls read before either of them renames. -/
def crossingSaves : List (SaveLabel Bool) :=
  [.read true createsA, .read false createsB, .validate true, .probe true,
    .probe true, .probe true, .probe true, .probe true, .copy true,
    .write true 40, .rename true, .finish true, .validate false, .probe false,
    .probe false, .probe false, .probe false, .probe false, .move false,
    .copy false, .write false 40, .rename false, .finish false]

theorem save_lost : ∃ last : SaveState plainCodec Bool,
    run SaveState.step (.start plainCodec [] fun _ => none) crossingSaves =
      some last ∧
    last.config = "[profile.b]\nuri_env = \"URI\"\n".toList ∧
    ¬ last.Kept [] := by
  refine ⟨_, rfl, rfl, fun hkept => ?_⟩
  obtain ⟨front, later, hcommits, hlasts⟩ := hkept.lasts true _ _ rfl
  rcases hlasts (fun text => "[profile.a]".toList <:+: text) (by decide) with
    hconfig | ⟨other, hother, hbase, -⟩
  · revert hconfig
    decide
  · have hmem := Commit.mem_of_later hcommits hother
    have hread : other.draft.base ∈ [[], []] :=
      List.mem_map_of_mem (f := fun commit => commit.draft.base) hmem
    have hempty : other.draft.base = [] := by simpa using hread
    rw [hempty] at hbase
    revert hbase
    decide

/-- A save while another call reads and stops. -/
def loneSave : List (SaveLabel Bool) :=
  [.read true createsA, .read false createsB, .validate true, .probe true,
    .probe true, .probe true, .crash false, .probe true, .probe true,
    .copy true, .write true 40, .rename true, .finish true]

theorem loneSave_kept : ∃ last : SaveState plainCodec Bool,
    run SaveState.step (.start plainCodec [] fun _ => none) loneSave =
      some last ∧
    last.Kept [] ∧
    last.config = "[profile.a]\nuri_env = \"URI\"\n".toList ∧
    last.backup 1 = some [] := by
  have hmeet : ∃ last : SaveState plainCodec Bool,
      run SaveState.step (.start plainCodec [] fun _ => none) loneSave =
        some last ∧
      StepsMeet SaveState.step SaveState.Undisturbed
        (.start plainCodec [] fun _ => none) loneSave := by
    apply Exists.intro
    iterate 9 apply run_and_stepsMeet_cons rfl trivial
    apply run_and_stepsMeet_cons rfl fun other => by cases other <;> rfl
    apply run_and_stepsMeet_cons rfl trivial
    apply run_and_stepsMeet_cons rfl
      (fun _ _ h => by cases h; exact ⟨rfl, rfl⟩)
    apply run_and_stepsMeet_cons rfl trivial
    exact ⟨rfl, trivial⟩
  obtain ⟨-, -, hmeet⟩ := hmeet
  refine ⟨_, rfl, (SaveState.kept_of_undisturbed rfl hmeet).1, rfl, ?_⟩
  exact (SaveState.kept_of_undisturbed rfl hmeet).2 (loneSave.take 12) true _ _
    rfl rfl

end ConfigWrite

end Web

end XBackup
