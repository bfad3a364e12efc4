/-
The hub that tells the viewers of a job what happens to it.
-/
import XBackup.Foundation.Transition

namespace XBackup

namespace Web

open Transition

universe u v w

def CHANNEL_CAPACITY : Nat := 256

inductive LogStream where
  | stderr
  | stdout
  | internal

inductive Level where
  | ok
  | warn
  | fail
  | error

inductive EventKind where
  | progress
  | log
  | state
  | done
deriving DecidableEq

inductive JobEvent (Value : Type u) where
  | progress (bytes : Nat) (total : Option Nat)
  | log (stream : LogStream) (line : String)
  | state (name : String) (level : Level)
  | done (outcome : String) (exitCode : Option Int) (level : Level)
      (summary : Option Value)

namespace JobEvent

variable {Value : Type u}

def kind : JobEvent Value → EventKind
  | .progress _ _ => .progress
  | .log _ _ => .log
  | .state _ _ => .state
  | .done _ _ _ _ => .done

/-- Text that this process does not make itself is masked. -/
def redact (mask : String → String) (maskJson : Value → Value) :
    JobEvent Value → JobEvent Value
  | .log stream line => .log stream (mask line)
  | .done outcome exitCode level summary =>
      .done outcome exitCode level (summary.map maskJson)
  | .progress bytes total => .progress bytes total
  | .state name level => .state name level

theorem kind_redact (mask : String → String) (maskJson : Value → Value)
    (event : JobEvent Value) : (event.redact mask maskJson).kind = event.kind := by
  cases event <;> rfl

end JobEvent

/-- The latest event of each kind but the log. -/
structure Snapshot (ι : Type u) where
  state : Option ι
  progress : Option ι
  done : Option ι

namespace Snapshot

variable {ι : Type u} (snapshot : Snapshot ι)

def default : Snapshot ι where
  state := none
  progress := none
  done := none

def update (kind : EventKind) (n : ι) : Snapshot ι :=
  match kind with
  | .progress => { snapshot with progress := some n }
  | .state => { snapshot with state := some n }
  | .done => { snapshot with done := some n }
  | .log => snapshot

/-- What a new viewer is told first. -/
def replay : List ι :=
  [snapshot.state, snapshot.progress, snapshot.done].filterMap id

end Snapshot

/-- A viewer whose receiver exists: what had been recorded when it copied the
snapshot, what had been sent when its receiver was made, what it has received,
and where its receiver stands in the channel. -/
structure LiveViewer (ι : Type u) where
  before : List ι
  sentBefore : List ι
  received : List ι
  position : Nat
  lagged : Bool

inductive Viewer (ι : Type u) where
  | absent
  | copied (before replay : List ι)
  | live (viewer : LiveViewer ι)

/-- The hub, the events in the order in which they have been recorded in the
snapshot, and the viewers.  An event stands for one call of `publish`. -/
structure HubState (ι : Type u) (ν : Type v) where
  snapshot : Snapshot ι
  sent : List ι
  recorded : List ι
  viewers : ν → Viewer ι

inductive HubLabel (ι : Type u) (ν : Type v) where
  | record (n : ι)
  | send (n : ι)
  | copy (v : ν)
  | join (v : ν)
  | recv (v : ν)

section LastOf

variable {ι : Type u} {Value : Type w}

/-- The last of some events that is of a kind. -/
def lastOf (event : ι → JobEvent Value) (kind : EventKind) (items : List ι) :
    Option ι :=
  (items.filter fun n => (event n).kind = kind).getLast?

variable {event : ι → JobEvent Value} {kind : EventKind} {items more : List ι}
  {n : ι}

theorem lastOf_append (event : ι → JobEvent Value) (kind : EventKind)
    (items more : List ι) :
    lastOf event kind (items ++ more) =
      (lastOf event kind more).or (lastOf event kind items) := by
  rw [lastOf, List.filter_append, List.getLast?_append]
  rfl

theorem lastOf_singleton (hkind : (event n).kind = kind) :
    lastOf event kind [n] = some n := by
  simp [lastOf, hkind]

theorem lastOf_singleton_ne (hkind : (event n).kind ≠ kind) :
    lastOf event kind [n] = none := by
  simp [lastOf, hkind]

theorem lastOf_spec (hlast : lastOf event kind items = some n) :
    n ∈ items ∧ (event n).kind = kind := by
  obtain ⟨hmem, hkind⟩ := List.mem_filter.mp (List.mem_of_getLast? hlast)
  exact ⟨hmem, of_decide_eq_true hkind⟩

theorem lastOf_eq_none :
    lastOf event kind items = none ↔ ∀ n ∈ items, (event n).kind ≠ kind := by
  simp [lastOf]

/-- What a snapshot holds of a kind. -/
def Snapshot.slot (snapshot : Snapshot ι) : EventKind → Option ι
  | .state => snapshot.state
  | .progress => snapshot.progress
  | .done => snapshot.done
  | .log => none

/-- The snapshot that follows some recorded events. -/
def Snapshot.Follows (event : ι → JobEvent Value) (snapshot : Snapshot ι)
    (recorded : List ι) : Prop :=
  ∀ kind, kind ≠ .log → snapshot.slot kind = lastOf event kind recorded

theorem Snapshot.follows_default (event : ι → JobEvent Value) :
    Snapshot.default.Follows event [] := by
  intro kind hkind
  cases kind with
  | log => exact absurd rfl hkind
  | state => rfl
  | progress => rfl
  | done => rfl

theorem Snapshot.Follows.update {snapshot : Snapshot ι} {recorded : List ι}
    (hfollows : snapshot.Follows event recorded) (n : ι) :
    (snapshot.update (event n).kind n).Follows event (recorded ++ [n]) := by
  intro kind hkind
  rw [lastOf_append]
  by_cases hsame : (event n).kind = kind
  · rw [lastOf_singleton hsame, hsame, Option.some_or]
    cases kind with
    | log => exact absurd rfl hkind
    | state => rfl
    | progress => rfl
    | done => rfl
  · rw [lastOf_singleton_ne hsame, Option.none_or, ← hfollows kind hkind]
    revert hsame
    cases (event n).kind <;> cases kind <;> intro hsame <;>
      first | rfl | exact absurd rfl hsame

theorem filter_toList_of_kind {slot : Option ι} (kind : EventKind)
    (hslot : ∀ n, slot = some n → (event n).kind = kind) :
    slot.toList.filter (fun n => (event n).kind = kind) = slot.toList := by
  cases slot with
  | none => rfl
  | some n => simp [hslot n rfl]

theorem filter_toList_of_kind_ne {slot : Option ι} {other : EventKind}
    (hslot : ∀ n, slot = some n → (event n).kind = other)
    (hne : other ≠ kind) :
    slot.toList.filter (fun n => (event n).kind = kind) = [] := by
  cases slot with
  | none => rfl
  | some n => simp [hslot n rfl, hne]

theorem Snapshot.replay_eq (snapshot : Snapshot ι) :
    snapshot.replay = snapshot.state.toList ++
      (snapshot.progress.toList ++ snapshot.done.toList) := by
  obtain ⟨state, progress, done⟩ := snapshot
  cases state <;> cases progress <;> cases done <;> rfl

/-- A new viewer is first told what the snapshot holds of a kind. -/
theorem Snapshot.Follows.filter_replay {snapshot : Snapshot ι}
    {recorded : List ι} (hfollows : snapshot.Follows event recorded)
    (hkind : kind ≠ .log) :
    snapshot.replay.filter (fun n => (event n).kind = kind) =
      (lastOf event kind recorded).toList := by
  have hslot : ∀ kind, kind ≠ .log → ∀ n, snapshot.slot kind = some n →
      (event n).kind = kind := by
    intro kind hkind n hn
    rw [hfollows kind hkind] at hn
    exact (lastOf_spec hn).2
  have hstate : ∀ n, snapshot.state = some n → (event n).kind = .state :=
    hslot .state (by decide)
  have hprogress : ∀ n, snapshot.progress = some n →
      (event n).kind = .progress := hslot .progress (by decide)
  have hdone : ∀ n, snapshot.done = some n → (event n).kind = .done :=
    hslot .done (by decide)
  rw [← hfollows kind hkind, snapshot.replay_eq, List.filter_append,
    List.filter_append]
  cases kind with
  | log => exact absurd rfl hkind
  | state =>
      rw [filter_toList_of_kind_ne hprogress (by decide),
        filter_toList_of_kind_ne hdone (by decide), List.append_nil,
        List.append_nil]
      exact filter_toList_of_kind .state hstate
  | progress =>
      rw [filter_toList_of_kind_ne hstate (by decide),
        filter_toList_of_kind_ne hdone (by decide), List.append_nil,
        List.nil_append]
      exact filter_toList_of_kind .progress hprogress
  | done =>
      rw [filter_toList_of_kind_ne hstate (by decide),
        filter_toList_of_kind_ne hprogress (by decide), List.nil_append,
        List.nil_append]
      exact filter_toList_of_kind .done hdone

theorem Snapshot.Follows.lastOf_replay {snapshot : Snapshot ι}
    {recorded : List ι} (hfollows : snapshot.Follows event recorded)
    (hkind : kind ≠ .log) :
    lastOf event kind snapshot.replay = lastOf event kind recorded := by
  rw [lastOf, hfollows.filter_replay hkind]
  cases lastOf event kind recorded <;> rfl

end LastOf

section Hub

variable {ι : Type u} {ν : Type v} {Value : Type w}

/-- What a receiver gets next: it skips what the channel no longer has. -/
def LiveViewer.recv (sent : List ι) (viewer : LiveViewer ι) :
    Option (LiveViewer ι) :=
  if CHANNEL_CAPACITY < sent.length - viewer.position then
    some
      { viewer with
        position := sent.length - CHANNEL_CAPACITY
        lagged := true }
  else
    sent[viewer.position]?.map fun n =>
      { viewer with
        received := viewer.received ++ [n]
        position := viewer.position + 1 }

namespace HubState

def start : HubState ι ν where
  snapshot := .default
  sent := []
  recorded := []
  viewers := fun _ => .absent

/-- No call of `publish` is between its two steps. -/
def Finished (st : HubState ι ν) : Prop :=
  ∀ n ∈ st.recorded, n ∈ st.sent

variable [DecidableEq ν]

def setViewer (st : HubState ι ν) (v : ν) (viewer : Viewer ι) : HubState ι ν :=
  { st with viewers := Function.update st.viewers v viewer }

variable [DecidableEq ι]

/-- The two steps of `publish` and of `subscribe`, and the receiver's own. -/
def step (mask : String → String) (maskJson : Value → Value)
    (event : ι → JobEvent Value) (st : HubState ι ν) :
    HubLabel ι ν → Option (HubState ι ν)
  | .record n =>
      if n ∈ st.recorded then none
      else some
        { st with
          snapshot :=
            st.snapshot.update ((event n).redact mask maskJson).kind n
          recorded := st.recorded ++ [n] }
  | .send n =>
      if n ∈ st.recorded ∧ n ∉ st.sent then
        some { st with sent := st.sent ++ [n] }
      else none
  | .copy v =>
      match st.viewers v with
      | .absent => some
          (st.setViewer v (.copied st.recorded st.snapshot.replay))
      | _ => none
  | .join v =>
      match st.viewers v with
      | .copied before replay => some (st.setViewer v (.live
          { before := before
            sentBefore := st.sent
            received := replay
            position := st.sent.length
            lagged := false }))
      | _ => none
  | .recv v =>
      match st.viewers v with
      | .live viewer => (viewer.recv st.sent).map fun viewer =>
          st.setViewer v (.live viewer)
      | _ => none

end HubState

/-- What is promised of the events that a viewer has received. -/
def Told (event : ι → JobEvent Value) (st : HubState ι ν)
    (received : List ι) : Prop :=
  (received.filter fun n => (event n).kind = .done).Perm
      (st.recorded.filter fun n => (event n).kind = .done) ∧
    lastOf event .state received = st.snapshot.state ∧
      lastOf event .progress received = st.snapshot.progress

/-- The end that was recorded last before the copy, and no other, was sent
before there was a receiver. -/
def EndInStep (event : ι → JobEvent Value) (st : HubState ι ν)
    (viewer : LiveViewer ι) : Prop :=
  ∀ n ∈ st.recorded, (event n).kind = .done →
    (lastOf event .done viewer.before = some n ↔ n ∈ viewer.sentBefore)

/-- What was recorded last of a kind was the last of it to be sent since there
was a receiver, or nothing of it was and it was recorded last before the
copy. -/
def LatestInStep (event : ι → JobEvent Value) (st : HubState ι ν)
    (viewer : LiveViewer ι) (kind : EventKind) : Prop :=
  ∀ n, lastOf event kind st.recorded = some n →
    lastOf event kind (st.sent.drop viewer.sentBefore.length) = some n ∨
      lastOf event kind (st.sent.drop viewer.sentBefore.length) = none ∧
        lastOf event kind viewer.before = some n

def InStep (event : ι → JobEvent Value) (st : HubState ι ν)
    (viewer : LiveViewer ι) : Prop :=
  EndInStep event st viewer ∧ LatestInStep event st viewer .state ∧
    LatestInStep event st viewer .progress

section Invariant

variable {event : ι → JobEvent Value} {recorded sent : List ι}

/-- What a viewer copied is the snapshot of what had been recorded. -/
structure Copied (event : ι → JobEvent Value) (recorded seen told : List ι) :
    Prop where
  before : seen <+: recorded
  replay : ∃ snapshot : Snapshot ι,
    snapshot.Follows event seen ∧ snapshot.replay = told

structure LiveViewer.Sound (event : ι → JobEvent Value)
    (recorded sent : List ι) (viewer : LiveViewer ι) : Prop where
  before : viewer.before <+: recorded
  sentBefore : viewer.sentBefore <+: sent
  since : viewer.sentBefore.length ≤ viewer.position
  upto : viewer.position ≤ sent.length
  received : viewer.lagged = false → ∃ snapshot : Snapshot ι,
    snapshot.Follows event viewer.before ∧
      viewer.received = snapshot.replay ++
        (sent.take viewer.position).drop viewer.sentBefore.length

def Viewer.Sound (event : ι → JobEvent Value) (recorded sent : List ι) :
    Viewer ι → Prop
  | .absent => True
  | .copied before replay => Copied event recorded before replay
  | .live viewer => viewer.Sound event recorded sent

structure HubState.Sound (event : ι → JobEvent Value) (st : HubState ι ν) :
    Prop where
  recorded_nodup : st.recorded.Nodup
  sent_nodup : st.sent.Nodup
  sent_recorded : ∀ n ∈ st.sent, n ∈ st.recorded
  follows : st.snapshot.Follows event st.recorded
  viewers : ∀ v, (st.viewers v).Sound event st.recorded st.sent

theorem HubState.start_sound (event : ι → JobEvent Value) :
    (HubState.start : HubState ι ν).Sound event where
  recorded_nodup := List.nodup_nil
  sent_nodup := List.nodup_nil
  sent_recorded := fun _ hn => hn
  follows := Snapshot.follows_default event
  viewers := fun _ => trivial

theorem Viewer.Sound.record {viewer : Viewer ι}
    (hsound : viewer.Sound event recorded sent) (n : ι) :
    viewer.Sound event (recorded ++ [n]) sent := by
  have hmore : recorded <+: recorded ++ [n] := List.prefix_append recorded [n]
  cases viewer with
  | absent => trivial
  | copied before replay =>
      exact { hsound with before := hsound.before.trans hmore }
  | live viewer => exact { hsound with before := hsound.before.trans hmore }

theorem LiveViewer.Sound.send {viewer : LiveViewer ι}
    (hsound : viewer.Sound event recorded sent) (n : ι) :
    viewer.Sound event recorded (sent ++ [n]) where
  before := hsound.before
  sentBefore := hsound.sentBefore.trans (List.prefix_append sent [n])
  since := hsound.since
  upto := by
    have hupto := hsound.upto
    rw [List.length_append]
    omega
  received := by
    rw [List.take_append_of_le_length hsound.upto]
    exact hsound.received

theorem Viewer.Sound.send {viewer : Viewer ι}
    (hsound : viewer.Sound event recorded sent) (n : ι) :
    viewer.Sound event recorded (sent ++ [n]) := by
  cases viewer with
  | absent => trivial
  | copied before replay => exact hsound
  | live viewer => exact LiveViewer.Sound.send hsound n

/-- A receiver that does not lag gets the next event of the channel. -/
theorem LiveViewer.Sound.recv {viewer next : LiveViewer ι}
    (hsound : viewer.Sound event recorded sent)
    (hrecv : viewer.recv sent = some next) :
    next.Sound event recorded sent := by
  have hsince := hsound.since
  have hupto := hsound.upto
  rw [LiveViewer.recv] at hrecv
  split at hrecv
  · next hlag =>
    cases hrecv
    refine ⟨hsound.before, hsound.sentBefore, ?_, ?_, ?_⟩
    · change viewer.sentBefore.length ≤ sent.length - CHANNEL_CAPACITY
      omega
    · exact Nat.sub_le _ _
    · intro hlagged
      exact absurd hlagged (by simp)
  · obtain ⟨n, hn, rfl⟩ := Option.map_eq_some_iff.mp hrecv
    obtain ⟨hlt, -⟩ := List.getElem?_eq_some_iff.mp hn
    refine ⟨hsound.before, hsound.sentBefore, ?_, hlt, ?_⟩
    · change viewer.sentBefore.length ≤ viewer.position + 1
      omega
    · intro hlagged
      obtain ⟨snapshot, hfollows, hreceived⟩ := hsound.received hlagged
      refine ⟨snapshot, hfollows, ?_⟩
      have hlen : (sent.take viewer.position).length = viewer.position :=
        List.length_take_of_le hupto
      change viewer.received ++ [n] = snapshot.replay ++
        (sent.take (viewer.position + 1)).drop viewer.sentBefore.length
      rw [List.take_add_one, hn, Option.toList_some,
        List.drop_append_of_le_length (by omega), hreceived,
        List.append_assoc]

variable [DecidableEq ν]

/-- A step of one viewer. -/
theorem HubState.Sound.setViewer {st : HubState ι ν} (hsound : st.Sound event)
    {v : ν} {viewer : Viewer ι}
    (hviewer : viewer.Sound event st.recorded st.sent) :
    (st.setViewer v viewer).Sound event := by
  refine { hsound with viewers := fun other => ?_ }
  change (Function.update st.viewers v viewer other).Sound event st.recorded
    st.sent
  by_cases hother : other = v
  · subst hother
    rw [Function.update_self]
    exact hviewer
  · rw [Function.update_of_ne hother]
    exact hsound.viewers other

variable [DecidableEq ι]

theorem HubState.Sound.step {mask : String → String}
    {maskJson : Value → Value} {st next : HubState ι ν}
    {label : HubLabel ι ν} (hsound : st.Sound event)
    (hstep : st.step mask maskJson event label = some next) :
    next.Sound event := by
  cases label with
  | record n =>
      simp only [HubState.step, JobEvent.kind_redact] at hstep
      split at hstep
      · cases hstep
      · next hnew =>
        cases hstep
        refine
          { recorded_nodup := ?_
            sent_nodup := hsound.sent_nodup
            sent_recorded := fun m hm =>
              List.mem_append_left [n] (hsound.sent_recorded m hm)
            follows := hsound.follows.update n
            viewers := fun v => (hsound.viewers v).record n }
        exact List.nodup_append.mpr
          ⟨hsound.recorded_nodup, List.nodup_singleton n, by
            rintro m hm _ hn rfl
            cases List.mem_singleton.mp hn
            exact hnew hm⟩
  | send n =>
      simp only [HubState.step] at hstep
      split at hstep
      · next hnew =>
        cases hstep
        refine { hsound with
          sent_nodup := ?_
          sent_recorded := ?_
          viewers := fun v => (hsound.viewers v).send n }
        · exact List.nodup_append.mpr
            ⟨hsound.sent_nodup, List.nodup_singleton n, by
              rintro m hm _ hn rfl
              cases List.mem_singleton.mp hn
              exact hnew.2 hm⟩
        · intro m hm
          obtain hm | hm := List.mem_append.mp hm
          · exact hsound.sent_recorded m hm
          · cases List.mem_singleton.mp hm
            exact hnew.1
      · cases hstep
  | copy v =>
      simp only [HubState.step] at hstep
      split at hstep
      · cases hstep
        exact hsound.setViewer
          { before := List.prefix_refl st.recorded
            replay := ⟨st.snapshot, hsound.follows, rfl⟩ }
      · cases hstep
  | join v =>
      simp only [HubState.step] at hstep
      split at hstep
      · next before replay hviewer =>
        cases hstep
        have hcopied := hsound.viewers v
        rw [hviewer] at hcopied
        obtain ⟨hbefore, snapshot, hfollows, hreplay⟩ := hcopied
        apply hsound.setViewer
        change LiveViewer.Sound event st.recorded st.sent _
        refine
          { before := hbefore
            sentBefore := List.prefix_refl st.sent
            since := le_refl _
            upto := le_refl _
            received := fun _ => ⟨snapshot, hfollows, ?_⟩ }
        simp [hreplay]
      · cases hstep
  | recv v =>
      simp only [HubState.step] at hstep
      split at hstep
      · next viewer hviewer =>
        obtain ⟨after, hrecv, rfl⟩ := Option.map_eq_some_iff.mp hstep
        have hlive := hsound.viewers v
        rw [hviewer] at hlive
        exact hsound.setViewer (LiveViewer.Sound.recv hlive hrecv)
      · cases hstep

theorem HubState.run_sound {mask : String → String}
    {maskJson : Value → Value} {st : HubState ι ν}
    {labels : List (HubLabel ι ν)}
    (hrun : run (HubState.step mask maskJson event) HubState.start labels =
      some st) : st.Sound event :=
  run_invariant (HubState.Sound event)
    (fun _ _ _ hsound hstep => hsound.step hstep) (HubState.start_sound event)
    hrun

end Invariant

section Told

variable {event : ι → JobEvent Value} {st : HubState ι ν}
  {viewer : LiveViewer ι}

/-- What a viewer has received when it has drained the channel. -/
theorem LiveViewer.Sound.drained
    (hsound : viewer.Sound event st.recorded st.sent)
    (hlagged : viewer.lagged = false)
    (hposition : viewer.position = st.sent.length) :
    ∃ snapshot : Snapshot ι, snapshot.Follows event viewer.before ∧
      viewer.received =
        snapshot.replay ++ st.sent.drop viewer.sentBefore.length := by
  obtain ⟨snapshot, hfollows, hreceived⟩ := hsound.received hlagged
  rw [hposition, List.take_length] at hreceived
  exact ⟨snapshot, hfollows, hreceived⟩

/-- What was sent is what was sent before there was a receiver and what was
sent since. -/
theorem LiveViewer.Sound.sent_eq
    (hsound : viewer.Sound event st.recorded st.sent) :
    viewer.sentBefore ++ st.sent.drop viewer.sentBefore.length = st.sent := by
  obtain ⟨since, hsince⟩ := hsound.sentBefore
  rw [← hsince, List.drop_left]

theorem HubState.Sound.sent_perm (hsound : st.Sound event)
    (hfinished : st.Finished) : st.sent.Perm st.recorded := by
  rw [List.perm_ext_iff_of_nodup hsound.sent_nodup hsound.recorded_nodup]
  exact fun n => ⟨hsound.sent_recorded n, hfinished n⟩

/-- The ends that a viewer is told are the ends recorded, each once, when the
one that it is told first is what it could not hear. -/
theorem HubState.Sound.done_perm_iff (hsound : st.Sound event)
    (hfinished : st.Finished) (hviewer : viewer.Sound event st.recorded st.sent)
    {snapshot : Snapshot ι} (hfollows : snapshot.Follows event viewer.before) :
    ((snapshot.replay ++ st.sent.drop viewer.sentBefore.length).filter
        fun n => (event n).kind = .done).Perm
      (st.recorded.filter fun n => (event n).kind = .done) ↔
    EndInStep event st viewer := by
  have hsent : (st.sent.filter fun n => (event n).kind = .done).Perm
      (st.recorded.filter fun n => (event n).kind = .done) :=
    (hsound.sent_perm hfinished).filter _
  have hbefore : (viewer.sentBefore.filter
      fun n => (event n).kind = .done).Nodup :=
    (hsound.sent_nodup.sublist hviewer.sentBefore.sublist).filter _
  have htoList : (lastOf event .done viewer.before).toList.Nodup := by
    cases lastOf event .done viewer.before with
    | none => exact List.nodup_nil
    | some n => exact List.nodup_singleton n
  rw [List.filter_append, hfollows.filter_replay (by decide)]
  rw [← hviewer.sent_eq, List.filter_append] at hsent
  constructor
  · intro hperm n hn hkind
    have hsame := (List.perm_append_right_iff _).mp (hperm.trans hsent.symm)
    have hmem : n ∈ (lastOf event .done viewer.before).toList ↔
        n ∈ viewer.sentBefore.filter fun n => (event n).kind = .done :=
      hsame.mem_iff
    simpa [hkind] using hmem
  · intro hstep
    refine List.Perm.trans ((List.perm_append_right_iff _).mpr ?_) hsent
    rw [List.perm_ext_iff_of_nodup htoList hbefore]
    intro n
    rw [Option.mem_toList, List.mem_filter]
    constructor
    · intro hlast
      obtain ⟨hmem, hkind⟩ := lastOf_spec hlast
      exact ⟨(hstep n (hviewer.before.subset hmem) hkind).mp hlast,
        decide_eq_true hkind⟩
    · rintro ⟨hmem, hkind⟩
      have hrecorded :=
        hsound.sent_recorded n (hviewer.sentBefore.subset hmem)
      exact (hstep n hrecorded (of_decide_eq_true hkind)).mpr hmem

theorem HubState.Sound.latest_iff (hsound : st.Sound event)
    (hviewer : viewer.Sound event st.recorded st.sent)
    {snapshot : Snapshot ι} (hfollows : snapshot.Follows event viewer.before)
    {kind : EventKind} (hkind : kind ≠ .log) :
    lastOf event kind
        (snapshot.replay ++ st.sent.drop viewer.sentBefore.length) =
      st.snapshot.slot kind ↔ LatestInStep event st viewer kind := by
  rw [lastOf_append, hfollows.lastOf_replay hkind,
    hsound.follows kind hkind]
  constructor
  · intro heq n hlast
    rw [hlast, Option.or_eq_some_iff] at heq
    exact heq
  · intro hstep
    cases hlast : lastOf event kind st.recorded with
    | none =>
        have hnone := lastOf_eq_none.mp hlast
        rw [Option.or_eq_none_iff, lastOf_eq_none, lastOf_eq_none]
        exact ⟨fun n hn =>
            hnone n (hsound.sent_recorded n (List.mem_of_mem_drop hn)),
          fun n hn => hnone n (hviewer.before.subset hn)⟩
    | some n => exact Option.or_eq_some_iff.mpr (hstep n hlast)

end Told

section Run

variable [DecidableEq ι] [DecidableEq ν]

/-- In every interleaving, a viewer that has not lagged is told the ends of a
job, each once, and its latest state and progress, when the steps of the
publishers and its own were in step, and only then. -/
theorem told_iff (mask : String → String) (maskJson : Value → Value)
    (event : ι → JobEvent Value) (labels : List (HubLabel ι ν))
    (st : HubState ι ν)
    (hrun : run (HubState.step mask maskJson event) HubState.start labels =
      some st)
    (hfinished : st.Finished) (v : ν) (viewer : LiveViewer ι)
    (hviewer : st.viewers v = .live viewer)
    (hlagged : viewer.lagged = false)
    (hdrained : viewer.position = st.sent.length) :
    Told event st viewer.received ↔ InStep event st viewer := by
  have hsound := HubState.run_sound hrun
  have hlive : viewer.Sound event st.recorded st.sent := by
    have hlive := hsound.viewers v
    rw [hviewer] at hlive
    exact hlive
  obtain ⟨snapshot, hfollows, hreceived⟩ := hlive.drained hlagged hdrained
  rw [Told, InStep, hreceived]
  exact and_congr (hsound.done_perm_iff hfinished hlive hfollows)
    (and_congr (hsound.latest_iff hlive hfollows (by decide))
      (hsound.latest_iff hlive hfollows (by decide)))

/-- One job that ends, for runs on fixed steps. -/
def ended : Nat → JobEvent Unit := fun _ => .done "succeeded" (some 0) .ok none

/-- A viewer that joins before the end is told of it. -/
theorem told_live :
    ∃ (st : HubState Nat Nat) (viewer : LiveViewer Nat),
      run (HubState.step id id ended) HubState.start
        [.copy 0, .join 0, .record 7, .send 7, .recv 0] = some st ∧
      st.viewers 0 = .live viewer ∧ Told ended st viewer.received := by
  refine ⟨_, _, rfl, rfl, (told_iff id id ended
    [.copy 0, .join 0, .record 7, .send 7, .recv 0] _ rfl ?_ 0 _ rfl rfl
    rfl).mpr ⟨?_, ?_, ?_⟩⟩
  · exact fun n hn => hn
  · intro n _ _
    change none = some n ↔ n ∈ []
    simp
  · intro n hlast
    change none = some n at hlast
    cases hlast
  · intro n hlast
    change none = some n at hlast
    cases hlast

/-- The end of a job falls between a viewer's copy and its receiver. -/
theorem told_missed :
    ∃ (st : HubState Nat Nat) (viewer : LiveViewer Nat),
      run (HubState.step id id ended) HubState.start
        [.copy 0, .record 7, .send 7, .join 0] = some st ∧
      st.Finished ∧ st.viewers 0 = .live viewer ∧ viewer.lagged = false ∧
        viewer.position = st.sent.length ∧ viewer.received = [] ∧
          ¬ Told ended st viewer.received := by
  refine ⟨_, _, rfl, ?_, rfl, rfl, rfl, rfl, ?_⟩
  · exact fun n hn => hn
  · intro htold
    exact absurd htold.1.length_eq (by decide)

end Run

end Hub

end Web

end XBackup
