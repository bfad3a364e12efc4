/-
Incremental oplog capture: the gap check, the upper bound of a slice and its
extension over the pieces of a split transaction.
-/
import XBackup.Engine.Mongo.Apply
import XBackup.Foundation.AscendingLog

namespace XBackup

open AscendingLog

inductive GapCheck where
  | ok (boundaryRisk : Bool)
  | oplogEmpty
  | gap (last min : OplogTimestamp)
deriving DecidableEq, Repr

def classifyGap (last min : OplogTimestamp) : GapCheck :=
  match last.cmp min with
  | .lt => .gap last min
  | .eq => .ok true
  | .gt => .ok false

def tsOf (raw : Document) : Option OplogTimestamp :=
  Document.getTimestamp raw "ts"

def minOplogTs (oplog : List Document) : Option OplogTimestamp :=
  oplog.head?.bind tsOf

def latestOplogTs (oplog : List Document) : Option OplogTimestamp :=
  oplog.getLast?.bind tsOf

def detectGap (oplog : List Document) (last : OplogTimestamp) : GapCheck :=
  match minOplogTs oplog with
  | none => .oplogEmpty
  | some min => classifyGap last min

/-- The capture side reads the flag at the top level of the entry. -/
def isPartialTxn (raw : Document) : Bool :=
  Document.getBool raw "partialTxn" = some true

/-- The loop of `extend_boundary`. -/
def walkBoundary (result : OplogTimestamp) :
    List (OplogTimestamp × Bool) → OplogTimestamp
  | [] => result
  | (ts, flagged) :: rest => if flagged then walkBoundary ts rest else ts

def extendBoundary (upper : OplogTimestamp)
    (seq : List (OplogTimestamp × Bool)) : OplogTimestamp :=
  match seq with
  | [] => upper
  | (_, false) :: _ => upper
  | (_, true) :: _ => walkBoundary upper seq

/-- The cursor loop: it ends behind the first entry without the flag, and
gives up at once when the very first entry has none. -/
def boundarySeq (seq : List (OplogTimestamp × Bool)) :
    List Document → Option (List (OplogTimestamp × Bool))
  | [] => some seq
  | raw :: rest =>
      let flagged := isPartialTxn raw
      if seq.isEmpty && !flagged then none
      else
        let seq := match tsOf raw with
          | some ts => seq ++ [(ts, flagged)]
          | none => seq
        if flagged then boundarySeq seq rest else some seq

def extendUpperPastPartialTxn (upper : OplogTimestamp)
    (oplog : List Document) : OplogTimestamp :=
  let cursor := oplog.filter fun raw => (tsOf raw).any fun ts => upper ≤ ts
  match boundarySeq [] cursor with
  | none => upper
  | some seq => extendBoundary upper seq

/-- The latest entry is read first, the entries from there on in a second
query; the oplog may have grown in between. -/
def resolveUpperBound (seen later : List Document) : Option OplogTimestamp :=
  (latestOplogTs seen).map fun latest =>
    extendUpperPastPartialTxn latest later

/-- The documents of `last < ts ≤ upper` in natural order. -/
def captureStream (last upper : OplogTimestamp) (oplog : List Document) :
    List Document :=
  oplog.filter fun raw => (tsOf raw).any fun ts => last < ts ∧ ts ≤ upper

/-- Where the walk over the flagged entries ends. -/
def walkStop : List OplogEntry → Option OplogEntry
  | [] => none
  | [entry] => some entry
  | entry :: next :: rest =>
      if isPartialTxn entry.doc then walkStop (next :: rest) else some entry

/-- The pairs the cursor loop collects. -/
def visited : List OplogEntry → List (OplogTimestamp × Bool)
  | [] => []
  | entry :: rest =>
      if isPartialTxn entry.doc then (entry.ts, true) :: visited rest
      else [(entry.ts, false)]

theorem boundarySeq_visited {seq : List (OplogTimestamp × Bool)}
    (hseq : seq ≠ []) (entries : List OplogEntry) :
    boundarySeq seq (entries.map OplogEntry.doc) =
      some (seq ++ visited entries) := by
  induction entries generalizing seq with
  | nil => simp [boundarySeq, visited]
  | cons entry rest ih =>
      have hempty : seq.isEmpty = false := List.isEmpty_eq_false_iff.mpr hseq
      cases hflag : isPartialTxn entry.doc with
      | false =>
          simp [boundarySeq, visited, hflag, hempty, tsOf, entry.ts_eq]
      | true =>
          simp only [List.map_cons, boundarySeq, visited, hflag, hempty, tsOf,
            entry.ts_eq, Bool.false_and, Bool.false_eq_true, if_false, if_true]
          rw [ih (by simp), List.append_assoc, List.singleton_append]

theorem walkBoundary_visited (first : OplogEntry) (rest : List OplogEntry)
    (hfirst : isPartialTxn first.doc = true) :
    (walkStop (first :: rest)).map OplogEntry.ts =
      some (walkBoundary first.ts (visited rest)) := by
  induction rest generalizing first with
  | nil => rfl
  | cons next rest ih =>
      rw [walkStop, if_pos hfirst, visited]
      cases hflag : isPartialTxn next.doc with
      | false =>
          cases rest with
          | nil => simp [walkStop, walkBoundary]
          | cons other rest => simp [walkStop, walkBoundary, hflag]
      | true =>
          rw [ih next hflag]
          simp [walkBoundary]

/-- The bound is the timestamp of the entry where the walk ends. -/
theorem resolveUpperBound_eq {before after : List OplogEntry}
    {latest : OplogEntry}
    (hoplog : Ascending OplogEntry.ts (before ++ latest :: after)) :
    resolveUpperBound ((before ++ [latest]).map OplogEntry.doc)
        ((before ++ latest :: after).map OplogEntry.doc) =
      (walkStop (latest :: after)).map OplogEntry.ts := by
  have hlatest : latestOplogTs ((before ++ [latest]).map OplogEntry.doc) =
      some latest.ts := by
    simp [latestOplogTs, tsOf, latest.ts_eq]
  have hcursor : ((before ++ latest :: after).map OplogEntry.doc).filter
      (fun raw => (tsOf raw).any fun ts => latest.ts ≤ ts) =
        (latest :: after).map OplogEntry.doc := by
    rw [List.filter_map]
    refine congrArg (List.map OplogEntry.doc)
      (Eq.trans (List.filter_congr ?_) hoplog.filter_ge)
    intro entry _
    simp [tsOf, entry.ts_eq]
  rw [resolveUpperBound, hlatest, Option.map_some, extendUpperPastPartialTxn,
    hcursor]
  cases hflag : isPartialTxn latest.doc with
  | false =>
      cases after with
      | nil => simp [boundarySeq, walkStop, hflag]
      | cons next rest => simp [boundarySeq, walkStop, hflag]
  | true =>
      have hseq : boundarySeq [] ((latest :: after).map OplogEntry.doc) =
          some ((latest.ts, true) :: visited after) := by
        simp only [List.map_cons, boundarySeq, hflag, tsOf, latest.ts_eq,
          Bool.not_true, Bool.and_false, Bool.false_eq_true, if_false, if_true,
          List.nil_append]
        rw [boundarySeq_visited (by simp), List.singleton_append]
      rw [hseq, walkBoundary_visited latest after hflag]
      simp [extendBoundary, walkBoundary]

theorem walkStop_spec {entries : List OplogEntry} {stop : OplogEntry}
    (hstop : walkStop entries = some stop) :
    ∃ pre post, entries = pre ++ stop :: post ∧
      (∀ entry ∈ pre, isPartialTxn entry.doc = true) ∧
      (isPartialTxn stop.doc = true → post = []) := by
  induction entries with
  | nil => simp [walkStop] at hstop
  | cons entry rest ih =>
      cases rest with
      | nil =>
          cases hstop
          exact ⟨[], [], rfl, by simp, fun _ => rfl⟩
      | cons next rest =>
          rw [walkStop] at hstop
          split at hstop
          next hflag =>
            obtain ⟨pre, post, hsplit, hpre, hpost⟩ := ih hstop
            refine ⟨entry :: pre, post, by rw [hsplit]; rfl, ?_, hpost⟩
            intro other hother
            rcases List.mem_cons.mp hother with rfl | htail
            · exact hflag
            · exact hpre other htail
          next hflag =>
            cases hstop
            exact ⟨[], next :: rest, rfl, by simp, fun h => absurd h hflag⟩

theorem walkStop_of_flagged {pre post : List OplogEntry} {stop : OplogEntry}
    (hpre : ∀ entry ∈ pre, isPartialTxn entry.doc = true)
    (hstop : isPartialTxn stop.doc = false) :
    walkStop (pre ++ stop :: post) = some stop := by
  induction pre with
  | nil =>
      cases post with
      | nil => rfl
      | cons next rest => simp [walkStop, hstop]
  | cons entry rest ih =>
      have htail := ih fun other hother =>
        hpre other (List.mem_cons_of_mem entry hother)
      have hentry := hpre entry (by simp)
      cases rest with
      | nil => simpa [walkStop, hentry] using htail
      | cons next rest => simpa [walkStop, hentry] using htail

end XBackup
