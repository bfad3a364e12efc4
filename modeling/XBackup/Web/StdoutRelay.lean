/-
What the output of a child process is made into: its progress, its summary, and
log lines for the rest.
-/
import XBackup.Foundation.CappedLines
import XBackup.Schedule.Fields
import XBackup.Web.JobHub
import XBackup.Web.JsonGuard

namespace XBackup

namespace Web

open CappedLines Bytes

universe u

def MAX_LINE_BYTES : Nat := 1024 * 1024

/-- In nanoseconds. -/
def PROGRESS_COALESCE_INTERVAL : Nat := 200 * 1000 * 1000

/-- The JSON parser, and what is read of its values. -/
structure JsonParser (Value : Type u) where
  fromStr : String → Option Value
  get : Value → String → Option Value
  asStr : Value → Option String
  asU64 : Value → Option Nat

/-- The bytes that are done, and of how many, if that is known. -/
abbrev ProgressValue := Nat × Option Nat

inductive StdoutLine (Value : Type u) where
  | progress (p : ProgressValue)
  | summary (value : Value)
  | unrecognized

section Classify

variable {Value : Type u} (json : JsonParser Value)

def classifyStdoutLine (line : String) : StdoutLine Value :=
  match checkDepth line with
  | .error _ => .unrecognized
  | .ok () =>
      match json.fromStr line with
      | none => .unrecognized
      | some value =>
          if (json.get value "event").bind json.asStr = some "progress" then
            match (json.get value "bytes").bind json.asU64 with
            | some bytes =>
                .progress (bytes, (json.get value "total").bind json.asU64)
            | none => .unrecognized
          else if (json.get value "schema").isSome then .summary value
          else .unrecognized

end Classify

structure ProgressCoalescer where
  interval : Nat
  lastEmittedAt : Option Nat
  pending : Option ProgressValue

namespace ProgressCoalescer

def new (interval : Nat) : ProgressCoalescer where
  interval := interval
  lastEmittedAt := none
  pending := none

/-- A new value, which is given out at once when the interval is over. -/
def offer (c : ProgressCoalescer) (p : ProgressValue) (now : Nat) :
    Option ProgressValue × ProgressCoalescer :=
  let due := match c.lastEmittedAt with
    | none => true
    | some last => decide (c.interval ≤ now - last)
  if due then
    (some p, { c with lastEmittedAt := some now, pending := none })
  else (none, { c with pending := some p })

def flush (c : ProgressCoalescer) : Option ProgressValue × ProgressCoalescer :=
  (c.pending, { c with pending := none })

end ProgressCoalescer

structure StdoutRelayResult (Value : Type u) where
  summary : Option Value
  truncatedLines : Nat
  unrecognizedLines : Nat

/-- What the relay does that can be seen: an event for the hub, or a summary that
is kept. -/
inductive RelayAct (Value : Type u) where
  | publish (event : JobEvent Value)
  | record (value : Value)

/-- The relay: its coalescer, its result, how often it has read the clock, and
what it has done. -/
structure Relay (Value : Type u) where
  coalescer : ProgressCoalescer
  result : StdoutRelayResult Value
  readings : Nat
  acts : List (RelayAct Value)

namespace Relay

variable {Value : Type u}

def start : Relay Value where
  coalescer := .new PROGRESS_COALESCE_INTERVAL
  result := { summary := none, truncatedLines := 0, unrecognizedLines := 0 }
  readings := 0
  acts := []

def publish (r : Relay Value) (event : JobEvent Value) : Relay Value :=
  { r with acts := r.acts ++ [.publish event] }

def publishProgress (r : Relay Value) : Option ProgressValue → Relay Value
  | none => r
  | some p => r.publish (.progress p.1 p.2)

def flush (r : Relay Value) : Relay Value :=
  let (p, coalescer) := r.coalescer.flush
  { r with coalescer := coalescer }.publishProgress p

def truncatedText : String :=
  "stdout 한 줄이 " ++ toString MAX_LINE_BYTES ++ " 바이트 상한에서 잘렸습니다" ++
    "(개행 없이 더 길게 이어진 줄로 추정됩니다)"

def failedText (err : String) : String :=
  "stdout 읽기 오류(중계를 멈춥니다): " ++ err

variable (json : JsonParser Value) (clock : Nat → Nat)

def offered (r : Relay Value) (p : ProgressValue) : Relay Value :=
  let (due, coalescer) := r.coalescer.offer p (clock r.readings)
  { r with coalescer := coalescer, readings := r.readings + 1 }.publishProgress due

def summarized (r : Relay Value) (value : Value) : Relay Value :=
  let r := r.flush
  { r with
    result := { r.result with summary := some value }
    acts := r.acts ++ [.record value] }

def unrecognized (r : Relay Value) (line : String) : Relay Value :=
  { r with
    result := { r.result with
      unrecognizedLines := r.result.unrecognizedLines + 1 } }.publish
    (.log .stdout line)

def truncated (r : Relay Value) : Relay Value :=
  { r with
    result := { r.result with
      truncatedLines := r.result.truncatedLines + 1 } }.publish
    (.log .internal truncatedText)

/-- The text of a line, without the blanks around it. -/
def lineText (bytes : List UInt8) : String :=
  String.ofList (Schedule.trim (fromUtf8Lossy bytes).toList)

/-- The body of the loop over the lines. -/
def step (r : Relay Value) (line : CappedLine) : Relay Value :=
  if line.truncated then r.truncated
  else
    let trimmed := lineText line.bytes
    if trimmed.isEmpty then r
    else
      match classifyStdoutLine json trimmed with
      | .progress p => r.offered clock p
      | .summary value => r.summarized value
      | .unrecognized => r.unrecognized trimmed

end Relay

/-- The relay of a child's standard output, to its end. -/
def relayStdout {Value : Type u} (json : JsonParser Value) (clock : Nat → Nat)
    (stdout : CappedLines.Reader) : Relay Value :=
  let (r, failure) := foldLines MAX_LINE_BYTES (Relay.step json clock) .start stdout
  let r := match failure with
    | some err => r.publish (.log .internal (Relay.failedText err))
    | none => r
  r.flush

namespace RelayAct

variable {Value : Type u}

def progress? : RelayAct Value → Option ProgressValue
  | publish (.progress bytes total) => some (bytes, total)
  | _ => none

/-- A line of the child that is shown as it is. -/
def text? : RelayAct Value → Option String
  | publish (.log .stdout line) => some line
  | _ => none

/-- A remark of the relay itself. -/
def remark? : RelayAct Value → Option String
  | publish (.log .internal line) => some line
  | _ => none

def recorded? : RelayAct Value → Option Value
  | record value => some value
  | _ => none

end RelayAct

/-- What a line of the child is. -/
inductive LineKind (Value : Type u) where
  | long
  | blank
  | progress (p : ProgressValue)
  | summary (value : Value)
  | unrecognized (text : String)

namespace LineKind

variable {Value : Type u}

def isLong : LineKind Value → Bool
  | long => true
  | _ => false

def progress? : LineKind Value → Option ProgressValue
  | progress p => some p
  | _ => none

def summary? : LineKind Value → Option Value
  | summary value => some value
  | _ => none

def text? : LineKind Value → Option String
  | unrecognized text => some text
  | _ => none

end LineKind

section Kinds

variable {Value : Type u} (json : JsonParser Value)

def kindOf (line : List UInt8) : LineKind Value :=
  if MAX_LINE_BYTES < line.length then .long
  else if (Relay.lineText line).isEmpty then .blank
  else
    match classifyStdoutLine json (Relay.lineText line) with
    | .progress p => .progress p
    | .summary value => .summary value
    | .unrecognized => .unrecognized (Relay.lineText line)

theorem kindOf_eq_long_iff {line : List UInt8} :
    (kindOf json line).isLong = true ↔ MAX_LINE_BYTES < line.length := by
  rw [kindOf]
  split
  next hlong => exact iff_of_true rfl hlong
  next hshort =>
    refine iff_of_false ?_ hshort
    split
    · exact Bool.false_ne_true
    · split <;> exact Bool.false_ne_true

/-- What the relay does with a line of this kind. -/
def Relay.act (clock : Nat → Nat) (r : Relay Value) : LineKind Value → Relay Value
  | .long => r.truncated
  | .blank => r
  | .progress p => r.offered clock p
  | .summary value => r.summarized value
  | .unrecognized text => r.unrecognized text

theorem step_capped (clock : Nat → Nat) (r : Relay Value) (line : List UInt8) :
    r.step json clock (capped MAX_LINE_BYTES line) =
      r.act clock (kindOf json line) := by
  rw [Relay.step, capped, kindOf]
  by_cases hlong : MAX_LINE_BYTES < line.length
  · rw [if_pos hlong, if_pos (decide_eq_true hlong)]
    rfl
  · rw [if_neg hlong, if_neg (by simpa using hlong),
      List.take_of_length_le (not_lt.mp hlong)]
    simp only
    split
    · rfl
    · split <;> rfl

/-- The progress that was published, with what is held back behind it. -/
def Relay.offeredProgress (r : Relay Value) : List ProgressValue :=
  r.acts.filterMap RelayAct.progress? ++ r.coalescer.pending.toList

/-- What a relay has done of the lines it has read: every line that says nothing
to it is shown, every one that is too long is counted, and of the progress all
but the latest may have been dropped. -/
structure Relay.Faithful (kinds : List (LineKind Value)) (r : Relay Value) : Prop where
  texts : r.acts.filterMap RelayAct.text? = kinds.filterMap LineKind.text?
  unrecognizedLines :
    r.result.unrecognizedLines = (kinds.filterMap LineKind.text?).length
  truncatedLines : r.result.truncatedLines = kinds.countP LineKind.isLong
  remarks : r.acts.filterMap RelayAct.remark? =
    List.replicate (kinds.countP LineKind.isLong) Relay.truncatedText
  shown : r.offeredProgress.Sublist (kinds.filterMap LineKind.progress?)
  latest : r.offeredProgress.getLast? =
    (kinds.filterMap LineKind.progress?).getLast?
  recorded : r.acts.filterMap RelayAct.recorded? =
    kinds.filterMap LineKind.summary?
  summary : r.result.summary = (kinds.filterMap LineKind.summary?).getLast?

namespace Relay

variable {json} {clock : Nat → Nat} {kinds : List (LineKind Value)} {r : Relay Value}

theorem faithful_start : (start : Relay Value).Faithful [] :=
  ⟨rfl, rfl, rfl, rfl, List.Sublist.refl _, rfl, rfl, rfl⟩

theorem filterMap_act {β : Type*} (f : RelayAct Value → Option β)
    (acts : List (RelayAct Value)) (act : RelayAct Value) :
    (acts ++ [act]).filterMap f = acts.filterMap f ++ (f act).toList := by
  rw [List.filterMap_append]
  cases hf : f act with
  | none => rw [List.filterMap_cons_none hf]; rfl
  | some value => rw [List.filterMap_cons_some hf]; rfl

theorem filterMap_act_none {β : Type*} {f : RelayAct Value → Option β}
    {act : RelayAct Value} (hf : f act = none) (acts : List (RelayAct Value)) :
    (acts ++ [act]).filterMap f = acts.filterMap f := by
  rw [filterMap_act, hf]
  exact List.append_nil _

/-- Publishing a value of progress says nothing of anything else. -/
theorem filterMap_publishProgress {β : Type*} {f : RelayAct Value → Option β}
    (hf : ∀ p : ProgressValue, f (.publish (.progress p.1 p.2)) = none)
    (r : Relay Value) (p : Option ProgressValue) :
    (r.publishProgress p).acts.filterMap f = r.acts.filterMap f := by
  cases p with
  | none => rfl
  | some p => exact filterMap_act_none (hf p) r.acts

theorem progress_publishProgress (r : Relay Value) (p : Option ProgressValue) :
    (r.publishProgress p).acts.filterMap RelayAct.progress? =
      r.acts.filterMap RelayAct.progress? ++ p.toList := by
  cases p with
  | none => exact (List.append_nil _).symm
  | some p => exact filterMap_act _ _ _

theorem publishProgress_result (r : Relay Value) (p : Option ProgressValue) :
    (r.publishProgress p).result = r.result := by
  cases p <;> rfl

theorem publishProgress_coalescer (r : Relay Value) (p : Option ProgressValue) :
    (r.publishProgress p).coalescer = r.coalescer := by
  cases p <;> rfl

theorem pending_flush (r : Relay Value) : r.flush.coalescer.pending = none := by
  rw [flush]
  simp only [publishProgress_coalescer]
  rfl

theorem progress_flush (r : Relay Value) :
    r.flush.acts.filterMap RelayAct.progress? = r.offeredProgress :=
  progress_publishProgress _ _

theorem Faithful.flush (hr : r.Faithful kinds) : r.flush.Faithful kinds := by
  have hoffered : r.flush.offeredProgress = r.offeredProgress := by
    rw [offeredProgress, pending_flush, progress_flush]
    exact List.append_nil _
  have hresult : r.flush.result = r.result := publishProgress_result _ _
  refine ⟨?_, ?_, ?_, ?_, ?_, ?_, ?_, ?_⟩
  · exact (filterMap_publishProgress (fun _ => rfl) _ _).trans hr.texts
  · rw [hresult, hr.unrecognizedLines]
  · rw [hresult, hr.truncatedLines]
  · exact (filterMap_publishProgress (fun _ => rfl) _ _).trans hr.remarks
  · rw [hoffered]
    exact hr.shown
  · rw [hoffered, hr.latest]
  · exact (filterMap_publishProgress (fun _ => rfl) _ _).trans hr.recorded
  · rw [hresult, hr.summary]

/-- A value that is offered is given out, or held back in the place of the one
before it. -/
theorem offer_cases (c : ProgressCoalescer) (p : ProgressValue) (now : Nat) :
    ((c.offer p now).1 = some p ∧ (c.offer p now).2.pending = none) ∨
      ((c.offer p now).1 = none ∧ (c.offer p now).2.pending = some p) := by
  simp only [ProgressCoalescer.offer]
  generalize (match c.lastEmittedAt with
    | none => true
    | some last => decide (c.interval ≤ now - last)) = due
  cases due with
  | true => exact .inl ⟨rfl, rfl⟩
  | false => exact .inr ⟨rfl, rfl⟩

theorem offeredProgress_offered (clock : Nat → Nat) (r : Relay Value)
    (p : ProgressValue) :
    (r.offered clock p).offeredProgress =
      r.acts.filterMap RelayAct.progress? ++ [p] := by
  rw [offeredProgress, offered]
  simp only [publishProgress_coalescer, progress_publishProgress]
  rcases offer_cases r.coalescer p (clock r.readings) with
    ⟨hdue, hpending⟩ | ⟨hdue, hpending⟩
  · rw [hdue, hpending]
    exact List.append_nil _
  · rw [hdue, hpending]
    exact congrArg (· ++ [p]) (List.append_nil _)

/-- A kind of lines that is looked for among lines and one more. -/
theorem filterMap_kind {β : Type*} (f : LineKind Value → Option β)
    (kinds : List (LineKind Value)) (kind : LineKind Value) :
    (kinds ++ [kind]).filterMap f = kinds.filterMap f ++ (f kind).toList := by
  rw [List.filterMap_append]
  cases hf : f kind with
  | none => rw [List.filterMap_cons_none hf]; rfl
  | some value => rw [List.filterMap_cons_some hf]; rfl

theorem filterMap_kind_none {β : Type*} {f : LineKind Value → Option β}
    {kind : LineKind Value} (hf : f kind = none) (kinds : List (LineKind Value)) :
    (kinds ++ [kind]).filterMap f = kinds.filterMap f := by
  rw [filterMap_kind, hf]
  exact List.append_nil _

theorem countP_kind {kind : LineKind Value} (hkind : kind.isLong = false)
    (kinds : List (LineKind Value)) :
    (kinds ++ [kind]).countP LineKind.isLong = kinds.countP LineKind.isLong := by
  rw [List.countP_append, List.countP_singleton, hkind]
  rfl

theorem Faithful.offered (hr : r.Faithful kinds) (clock : Nat → Nat)
    (p : ProgressValue) :
    (r.offered clock p).Faithful (kinds ++ [.progress p]) := by
  have hprogress : (kinds ++ [LineKind.progress p]).filterMap
      LineKind.progress? = kinds.filterMap LineKind.progress? ++ [p] :=
    filterMap_kind _ _ _
  have hshown : (r.acts.filterMap RelayAct.progress?).Sublist
      (kinds.filterMap LineKind.progress?) :=
    (List.sublist_append_left _ _).trans hr.shown
  have hresult : (r.offered clock p).result = r.result :=
    publishProgress_result _ _
  refine ⟨?_, ?_, ?_, ?_, ?_, ?_, ?_, ?_⟩
  · rw [filterMap_kind_none rfl, ← hr.texts]
    exact filterMap_publishProgress (fun _ => rfl) _ _
  · rw [filterMap_kind_none rfl, hresult, hr.unrecognizedLines]
  · rw [countP_kind rfl, hresult, hr.truncatedLines]
  · rw [countP_kind rfl, ← hr.remarks]
    exact filterMap_publishProgress (fun _ => rfl) _ _
  · rw [offeredProgress_offered, hprogress]
    exact hshown.append (List.Sublist.refl _)
  · rw [offeredProgress_offered, hprogress, List.getLast?_concat,
      List.getLast?_concat]
  · rw [filterMap_kind_none rfl, ← hr.recorded]
    exact filterMap_publishProgress (fun _ => rfl) _ _
  · rw [filterMap_kind_none rfl, hresult, hr.summary]

theorem Faithful.summarized (hr : r.Faithful kinds) (value : Value) :
    (r.summarized value).Faithful (kinds ++ [.summary value]) := by
  have hflush := hr.flush
  have hoffered : (r.summarized value).offeredProgress =
      r.flush.offeredProgress :=
    congrArg (· ++ r.flush.coalescer.pending.toList)
      (filterMap_act_none rfl r.flush.acts)
  refine ⟨?_, ?_, ?_, ?_, ?_, ?_, ?_, ?_⟩
  · rw [filterMap_kind_none rfl, ← hflush.texts]
    exact filterMap_act_none rfl _
  · rw [filterMap_kind_none rfl, ← hflush.unrecognizedLines]
    rfl
  · rw [countP_kind rfl, ← hflush.truncatedLines]
    rfl
  · rw [countP_kind rfl, ← hflush.remarks]
    exact filterMap_act_none rfl _
  · rw [filterMap_kind_none rfl, hoffered]
    exact hflush.shown
  · rw [filterMap_kind_none rfl, hoffered]
    exact hflush.latest
  · rw [filterMap_kind, ← hflush.recorded]
    exact filterMap_act _ _ _
  · rw [filterMap_kind]
    exact List.getLast?_concat.symm

theorem Faithful.unrecognized (hr : r.Faithful kinds) (text : String) :
    (r.unrecognized text).Faithful (kinds ++ [.unrecognized text]) := by
  have hoffered : (r.unrecognized text).offeredProgress = r.offeredProgress :=
    congrArg (· ++ r.coalescer.pending.toList) (filterMap_act_none rfl r.acts)
  refine ⟨?_, ?_, ?_, ?_, ?_, ?_, ?_, ?_⟩
  · rw [filterMap_kind, ← hr.texts]
    exact filterMap_act _ _ _
  · rw [filterMap_kind, List.length_append, ← hr.unrecognizedLines]
    rfl
  · rw [countP_kind rfl]
    exact hr.truncatedLines
  · rw [countP_kind rfl, ← hr.remarks]
    exact filterMap_act_none rfl _
  · rw [filterMap_kind_none rfl, hoffered]
    exact hr.shown
  · rw [filterMap_kind_none rfl, hoffered]
    exact hr.latest
  · rw [filterMap_kind_none rfl, ← hr.recorded]
    exact filterMap_act_none rfl _
  · rw [filterMap_kind_none rfl]
    exact hr.summary

theorem Faithful.truncated (hr : r.Faithful kinds) :
    r.truncated.Faithful (kinds ++ [.long]) := by
  have hoffered : r.truncated.offeredProgress = r.offeredProgress :=
    congrArg (· ++ r.coalescer.pending.toList) (filterMap_act_none rfl r.acts)
  have hcount : (kinds ++ [LineKind.long]).countP LineKind.isLong =
      kinds.countP LineKind.isLong + 1 :=
    List.countP_append
  refine ⟨?_, ?_, ?_, ?_, ?_, ?_, ?_, ?_⟩
  · rw [filterMap_kind_none rfl, ← hr.texts]
    exact filterMap_act_none rfl _
  · rw [filterMap_kind_none rfl]
    exact hr.unrecognizedLines
  · rw [hcount, ← hr.truncatedLines]
    rfl
  · rw [hcount, List.replicate_succ', ← hr.remarks]
    exact filterMap_act _ _ _
  · rw [filterMap_kind_none rfl, hoffered]
    exact hr.shown
  · rw [filterMap_kind_none rfl, hoffered]
    exact hr.latest
  · rw [filterMap_kind_none rfl, ← hr.recorded]
    exact filterMap_act_none rfl _
  · rw [filterMap_kind_none rfl]
    exact hr.summary

theorem Faithful.blank (hr : r.Faithful kinds) : r.Faithful (kinds ++ [.blank]) := by
  refine ⟨?_, ?_, ?_, ?_, ?_, ?_, ?_, ?_⟩
  · rw [filterMap_kind_none rfl, hr.texts]
  · rw [filterMap_kind_none rfl, hr.unrecognizedLines]
  · rw [countP_kind rfl, hr.truncatedLines]
  · rw [countP_kind rfl, hr.remarks]
  · rw [filterMap_kind_none rfl]
    exact hr.shown
  · rw [filterMap_kind_none rfl, hr.latest]
  · rw [filterMap_kind_none rfl, hr.recorded]
  · rw [filterMap_kind_none rfl, hr.summary]

/-- What one line adds. -/
theorem Faithful.act (hr : r.Faithful kinds) (clock : Nat → Nat)
    (kind : LineKind Value) : (r.act clock kind).Faithful (kinds ++ [kind]) := by
  cases kind with
  | long => exact hr.truncated
  | blank => exact hr.blank
  | progress p => exact hr.offered clock p
  | summary value => exact hr.summarized value
  | unrecognized text => exact hr.unrecognized text

/-- The relay after some lines. -/
def after (json : JsonParser Value) (clock : Nat → Nat)
    (lines : List (List UInt8)) : Relay Value :=
  (lines.map (capped MAX_LINE_BYTES)).foldl (step json clock) start

theorem after_eq (clock : Nat → Nat) (lines : List (List UInt8)) :
    after json clock lines =
      lines.foldl (fun r line => r.act clock (kindOf json line)) start := by
  rw [after, List.foldl_map]
  exact List.foldl_ext _ _ _ fun r line _ => step_capped json clock r line

theorem after_concat (lines : List (List UInt8)) (line : List UInt8) :
    after json clock (lines ++ [line]) =
      (after json clock lines).act clock (kindOf json line) := by
  rw [after, List.map_append, List.foldl_append, ← after, List.map_singleton,
    List.foldl_cons, List.foldl_nil, step_capped]

theorem faithful_after (clock : Nat → Nat) (lines : List (List UInt8)) :
    (after json clock lines).Faithful (lines.map (kindOf json)) := by
  induction lines using List.reverseRecOn with
  | nil => exact faithful_start
  | append_singleton lines line ih =>
      rw [after_concat, List.map_append]
      exact ih.act clock _

theorem acts_publishProgress (r : Relay Value) (p : Option ProgressValue) :
    r.acts <+: (r.publishProgress p).acts := by
  cases p with
  | none => exact List.prefix_refl _
  | some p => exact List.prefix_append _ _

theorem acts_flush (r : Relay Value) : r.acts <+: r.flush.acts :=
  acts_publishProgress { r with coalescer := r.coalescer.flush.2 } _

/-- Nothing that was done is undone. -/
theorem acts_act (clock : Nat → Nat) (r : Relay Value) (kind : LineKind Value) :
    r.acts <+: (r.act clock kind).acts := by
  cases kind with
  | long => exact List.prefix_append _ _
  | blank => exact List.prefix_refl _
  | progress p =>
      exact acts_publishProgress { r with
        coalescer := (r.coalescer.offer p (clock r.readings)).2
        readings := r.readings + 1 } _
  | summary value => exact (acts_flush r).trans (List.prefix_append _ _)
  | unrecognized text => exact List.prefix_append _ _

theorem acts_after (clock : Nat → Nat) (front behind : List (List UInt8)) :
    (after json clock front).acts <+: (after json clock (front ++ behind)).acts := by
  induction behind using List.reverseRecOn with
  | nil => rw [List.append_nil]
  | append_singleton behind line ih =>
      rw [← List.append_assoc, after_concat]
      exact ih.trans (acts_act clock _ _)

end Relay

end Kinds

section Relayed

variable {Value : Type u} (json : JsonParser Value) (clock : Nat → Nat)

/-- The lines of a stream, whatever pieces it comes in. -/
theorem relayStdout_eq (source : SplitReads.Source) :
    relayStdout json clock { source := source, failure := none } =
      (Relay.after json clock (CappedLines.lines source.bytes)).flush := by
  rw [relayStdout, foldLines_eq]
  rfl

/-- The progress that is shown: values in their order, and the last of them. -/
def Shows (shown offered : List ProgressValue) : Prop :=
  shown.Sublist offered ∧ shown.getLast? = offered.getLast?

/-- The relay goes over the lines of the stream: it shows each one that says
nothing to it, counts each one that is too long, shows the progress as far as its
last value, before a summary and at the end, and gives back the last summary. -/
theorem relayStdout_faithful (source : SplitReads.Source) :
    let r := relayStdout json clock { source := source, failure := none }
    let kinds := (CappedLines.lines source.bytes).map (kindOf json)
    r = ((CappedLines.lines source.bytes).foldl (fun r line =>
        r.act clock (kindOf json line)) Relay.start).flush ∧
      (r.result.truncatedLines =
          (CappedLines.lines source.bytes).countP
            (fun line => MAX_LINE_BYTES < line.length) ∧
        r.acts.filterMap RelayAct.remark? =
          List.replicate r.result.truncatedLines Relay.truncatedText) ∧
      (r.acts.filterMap RelayAct.text? = kinds.filterMap LineKind.text? ∧
        r.result.unrecognizedLines = (kinds.filterMap LineKind.text?).length) ∧
      Shows (r.acts.filterMap RelayAct.progress?)
        (kinds.filterMap LineKind.progress?) ∧
      (∀ front value behind, kinds = front ++ .summary value :: behind →
        ∃ acts, acts ++ [.record value] <+: r.acts ∧
          acts.filterMap RelayAct.recorded? = front.filterMap LineKind.summary? ∧
          Shows (acts.filterMap RelayAct.progress?)
            (front.filterMap LineKind.progress?)) ∧
      r.result.summary = (kinds.filterMap LineKind.summary?).getLast? := by
  intro r kinds
  have hafter : (Relay.after json clock
      (CappedLines.lines source.bytes)).Faithful kinds :=
    Relay.faithful_after clock _
  have hr : r.Faithful kinds := by
    rw [show r = _ from relayStdout_eq json clock source]
    exact hafter.flush
  have hcount : kinds.countP LineKind.isLong =
      (CappedLines.lines source.bytes).countP
        (fun line => MAX_LINE_BYTES < line.length) := by
    rw [List.countP_map]
    refine List.countP_congr fun line _ => ?_
    rw [Function.comp_apply, kindOf_eq_long_iff, decide_eq_true_eq]
  have hprogress : r.acts.filterMap RelayAct.progress? =
      (Relay.after json clock (CappedLines.lines source.bytes)).offeredProgress := by
    rw [show r = _ from relayStdout_eq json clock source]
    exact Relay.progress_flush _
  refine ⟨?_, ⟨hr.truncatedLines.trans hcount, ?_⟩,
    ⟨hr.texts, hr.unrecognizedLines⟩, ?_, ?_, hr.summary⟩
  · rw [← Relay.after_eq]
    exact relayStdout_eq json clock source
  · rw [hr.remarks, hr.truncatedLines]
  · rw [hprogress]
    exact ⟨hafter.shown, hafter.latest⟩
  · intro front value behind hsplit
    obtain ⟨front', behind', hlines, rfl, hbehind⟩ :=
      List.map_eq_append_iff.mp hsplit
    obtain ⟨line, behind', rfl, hline, rfl⟩ := List.map_eq_cons_iff.mp hbehind
    have hfront : (Relay.after json clock front').Faithful
        (front'.map (kindOf json)) := Relay.faithful_after clock front'
    have hdone : (Relay.after json clock (front' ++ [line])).acts =
        (Relay.after json clock front').flush.acts ++ [.record value] := by
      rw [Relay.after_concat, hline]
      rfl
    refine ⟨(Relay.after json clock front').flush.acts, ?_, hfront.flush.recorded, ?_⟩
    · have hlater : (Relay.after json clock (front' ++ [line])).acts <+:
          (Relay.after json clock (front' ++ [line] ++ behind')).acts :=
        Relay.acts_after clock _ _
      rw [hdone, List.append_assoc, List.singleton_append, ← hlines] at hlater
      rw [show r = _ from relayStdout_eq json clock source]
      exact hlater.trans (Relay.acts_flush _)
    · rw [Relay.progress_flush]
      exact ⟨hfront.shown, hfront.latest⟩

end Relayed

section Sample

/-- A parser that knows the summary of the sample. -/
def schemaParser : JsonParser Bool where
  fromStr text := if text = "\x7b\"schema\":1\x7d" then some true else none
  get value key := if value ∧ key = "schema" then some false else none
  asStr _ := none
  asU64 value := if value then none else some 1

def sampleReader : CappedLines.Reader where
  source := .whole (utf8 "starting\n\n\x7b\"schema\":1\x7d")
  failure := none

theorem relayStdout_sample :
    (relayStdout schemaParser (fun _ => 0) sampleReader).acts.filterMap
        RelayAct.text? = ["starting"] ∧
      (relayStdout schemaParser (fun _ => 0) sampleReader).result.summary =
        some true := by
  obtain ⟨-, -, ⟨htexts, -⟩, -, -, hsummary⟩ :=
    relayStdout_faithful schemaParser (fun _ => 0) sampleReader.source
  have hbytes : sampleReader.source.bytes =
      utf8 "starting\n\n\x7b\"schema\":1\x7d" := SplitReads.bytes_whole _
  refine ⟨htexts.trans ?_, hsummary.trans ?_⟩
  · rw [hbytes]
    decide +kernel
  · rw [hbytes]
    decide +kernel

end Sample

end Web

end XBackup
