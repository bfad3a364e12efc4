/-
Point-in-time recovery of a Mongo chain: the base before the target, the
slices up to the target second and the limit of the last one.
-/
import XBackup.Manifest.Chain
import XBackup.Engine.Mongo.Apply
import XBackup.Foundation.AscendingLog

namespace XBackup

open AscendingLog

/-- Non-selective full backups whose end second is not behind the target. -/
def baseCandidateEnd (node : ChainNode) (targetUnix : Int) :
    Option OplogTimestamp :=
  if node.backupType ≠ .full ∨ node.selective then none
  else
    match node.oplogRange with
    | none => none
    | some (_, end_) =>
        if targetUnix < (end_.t.toNat : Int) then none else some end_

/-- One round of the loop of `select_base_before`. -/
def betterBase (targetUnix : Int) (best : Option ChainNode)
    (node : ChainNode) : Option ChainNode :=
  match baseCandidateEnd node targetUnix with
  | none => best
  | some end_ =>
      match best with
      | none => some node
      | some cur =>
          let curEnd := cur.endTs.getD end_
          if curEnd < end_ ∨ curEnd = end_ ∧ cur.id < node.id then some node
          else some cur

/-- The latest eligible full backup; `wallClock` prints the target. -/
def selectBaseBefore (wallClock : Int → String) (nodes : List ChainNode)
    (targetUnix : Int) : Except XBackupError String :=
  match nodes.foldl (betterBase targetUnix) none with
  | some best => .ok best.id
  | none => .error (.failure
      ("no base full backup found before the target time (" ++
        wallClock targetUnix ++ ") — PITR needs a full backup earlier than " ++
        "the target time"))

def orderedSlices (nodes : List ChainNode) (incrementalIds : List String) :
    List ChainNode :=
  incrementalIds.filterMap (findNode nodes)

structure EndMapping where
  decidedTs : OplogTimestamp
  replayIds : List String
  limitSliceId : Option String
  oplogLimit : Option OplogTimestamp
deriving DecidableEq, Repr

/-- `target_unix as u32`. -/
def asU32 (targetUnix : Int) : UInt32 :=
  UInt32.ofNat (targetUnix % 2 ^ 32).toNat

/-- The limit is strict: the whole target second lies below it. -/
def oplogLimitForSecond (targetSecs : UInt32) : OplogTimestamp :=
  ⟨if targetSecs.toNat = 2 ^ 32 - 1 then targetSecs else targetSecs + 1, 0⟩

def EndMapping.push (mapping : EndMapping) (slice : ChainNode) : EndMapping :=
  if slice.isEmptySlice then mapping
  else { mapping with replayIds := mapping.replayIds ++ [slice.id] }

/-- The loop of `map_target_to_end`; it stops at the first slice that ends
behind the target. -/
def mapSlices (targetUnix : Int) (mapping : EndMapping) :
    List ChainNode → EndMapping
  | [] => mapping
  | slice :: rest =>
      match slice.oplogRange with
      | none => mapSlices targetUnix mapping rest
      | some (start, end_) =>
          if (end_.t.toNat : Int) ≤ targetUnix then
            mapSlices targetUnix
              { mapping.push slice with decidedTs := end_ } rest
          else if (start.t.toNat : Int) ≤ targetUnix then
            let straddled :=
              if slice.isEmptySlice then mapping
              else { mapping.push slice with
                limitSliceId := some slice.id
                oplogLimit := some (oplogLimitForSecond (asU32 targetUnix)) }
            { straddled with decidedTs := ⟨asU32 targetUnix, 0⟩ }
          else mapping

def mapTargetToEnd (base : ChainNode) (slices : List ChainNode)
    (targetUnix : Int) : EndMapping :=
  mapSlices targetUnix ⟨base.endTs.getD ⟨0, 0⟩, [], none, none⟩ slices

/-- The limit `replay_slices` hands to one slice. -/
def EndMapping.limitFor (mapping : EndMapping) (id : String) :
    Option OplogTimestamp :=
  if mapping.limitSliceId = some id then mapping.oplogLimit else none

/-- Apply the chosen slices in order, each with its own limit. -/
def replaySlices (debug : BsonDebug) (contents : String → List OplogEntry)
    (mapping : EndMapping) : Except XBackupError (List ApplyState) :=
  mapping.replayIds.mapM fun id =>
    applyStream debug (mapping.limitFor id)
      ((contents id).map OplogEntry.inStream)

/-- The entries one slice contributes: all before the first one at or behind
the limit. -/
def reachedEntries (limit : Option OplogTimestamp)
    (entries : List OplogEntry) : List OplogEntry :=
  match limit with
  | none => entries
  | some lim => entries.takeWhile fun entry => entry.ts < lim

/-- The entries applied by `replaySlices`, slice by slice. -/
def appliedEntries (contents : String → List OplogEntry)
    (mapping : EndMapping) : List (List OplogEntry) :=
  mapping.replayIds.map fun id =>
    reachedEntries (mapping.limitFor id) (contents id)

theorem entriesBelow_inStream (limit : Option OplogTimestamp)
    (entries : List OplogEntry) :
    entriesBelow limit (entries.map OplogEntry.inStream) =
      (reachedEntries limit entries).map OplogEntry.inStream := by
  cases limit with
  | none => rfl
  | some lim =>
      simp only [entriesBelow, reachedEntries, List.takeWhile_map]
      congr 2
      funext entry
      simp [OplogEntry.inStream, entry.ts_eq]

/-- `apply_stream` reaches exactly these entries: the limited runs are
unlimited runs over them. -/
theorem replaySlices_eq (debug : BsonDebug)
    (contents : String → List OplogEntry) (mapping : EndMapping) :
    replaySlices debug contents mapping =
      (appliedEntries contents mapping).mapM fun entries =>
        applyStream debug none (entries.map OplogEntry.inStream) := by
  have hslice : ∀ id, applyStream debug (mapping.limitFor id)
      ((contents id).map OplogEntry.inStream) =
        applyStream debug none
          ((reachedEntries (mapping.limitFor id) (contents id)).map
            OplogEntry.inStream) := by
    intro id
    rw [applyStream_limit, entriesBelow_inStream]
    intro entry hentry
    obtain ⟨captured, -, rfl⟩ := List.mem_map.mp hentry
    simp [OplogEntry.inStream, captured.ts_eq]
  simp only [replaySlices, appliedEntries, List.mapM_map, hslice]
  rfl

/-- The slices to replay with the limit of each. -/
def replayPlan (targetUnix : Int) :
    List ChainNode → List (String × Option OplogTimestamp)
  | [] => []
  | slice :: rest =>
      match slice.oplogRange with
      | none => replayPlan targetUnix rest
      | some (start, end_) =>
          if (end_.t.toNat : Int) ≤ targetUnix then
            (if slice.isEmptySlice then [] else [(slice.id, none)]) ++
              replayPlan targetUnix rest
          else if (start.t.toNat : Int) ≤ targetUnix then
            if slice.isEmptySlice then []
            else [(slice.id,
              some (oplogLimitForSecond (asU32 targetUnix)))]
          else []

theorem mapSlices_of_range_none {targetUnix : Int} {mapping : EndMapping}
    {slice : ChainNode} {rest : List ChainNode}
    (hrange : slice.oplogRange = none) :
    mapSlices targetUnix mapping (slice :: rest) =
      mapSlices targetUnix mapping rest := by
  simp [mapSlices, hrange]

/-- A slice that is not in the list is given no limit. -/
theorem limitFor_mapSlices_of_notMem (targetUnix : Int) (mapping : EndMapping)
    {slices : List ChainNode} {id : String}
    (hmapping : mapping.limitSliceId = none)
    (hid : id ∉ slices.map ChainNode.id) :
    (mapSlices targetUnix mapping slices).limitFor id = none := by
  induction slices generalizing mapping with
  | nil => simp [mapSlices, EndMapping.limitFor, hmapping]
  | cons slice rest ih =>
      simp only [List.map_cons, List.mem_cons, not_or] at hid
      have hpush : (mapping.push slice).limitSliceId = none := by
        unfold EndMapping.push
        split <;> exact hmapping
      cases hrange : slice.oplogRange with
      | none =>
          rw [mapSlices_of_range_none hrange]
          exact ih mapping hmapping hid.2
      | some range =>
          obtain ⟨start, end_⟩ := range
          simp only [mapSlices, hrange]
          split
          · exact ih { mapping.push slice with decidedTs := end_ } hpush hid.2
          · split
            · by_cases hempty : slice.isEmptySlice
              · simp [EndMapping.limitFor, hempty, hmapping]
              · simp [EndMapping.limitFor, hempty, Ne.symm hid.1]
            · simp [EndMapping.limitFor, hmapping]

/-- The loop appends the plan of its slices to what it holds already. -/
theorem mapSlices_plan (targetUnix : Int) (mapping : EndMapping)
    {slices : List ChainNode}
    (hmapping : mapping.limitSliceId = none)
    (hnodup : (slices.map ChainNode.id).Nodup) :
    (mapSlices targetUnix mapping slices).replayIds =
        mapping.replayIds ++ (replayPlan targetUnix slices).map Prod.fst ∧
      ∀ entry ∈ replayPlan targetUnix slices,
        (mapSlices targetUnix mapping slices).limitFor entry.1 = entry.2 := by
  induction slices generalizing mapping with
  | nil => simp [mapSlices, replayPlan]
  | cons slice rest ih =>
      simp only [List.map_cons, List.nodup_cons] at hnodup
      cases hrange : slice.oplogRange with
      | none =>
          rw [mapSlices_of_range_none hrange, replayPlan, hrange]
          exact ih mapping hmapping hnodup.2
      | some range =>
          obtain ⟨start, end_⟩ := range
          by_cases hempty : slice.isEmptySlice
          · simp only [mapSlices, replayPlan, hrange, EndMapping.push, hempty,
              if_true, List.nil_append]
            split
            · exact ih { mapping with decidedTs := end_ } hmapping hnodup.2
            · split <;> simp
          · simp only [mapSlices, replayPlan, hrange, EndMapping.push, hempty,
              Bool.false_eq_true, if_false]
            split
            · obtain ⟨hids, hlimits⟩ := ih
                { mapping with
                  replayIds := mapping.replayIds ++ [slice.id]
                  decidedTs := end_ }
                hmapping hnodup.2
              refine ⟨by simp [hids], ?_⟩
              intro entry hentry
              rcases List.mem_append.mp hentry with hhead | hrest
              · rw [List.mem_singleton.mp hhead]
                exact limitFor_mapSlices_of_notMem targetUnix
                  { mapping with
                    replayIds := mapping.replayIds ++ [slice.id]
                    decidedTs := end_ } hmapping hnodup.1
              · exact hlimits entry hrest
            · split <;> simp [EndMapping.limitFor]

/-- The entries of the chosen slices, read off the plan. -/
theorem appliedEntries_eq_plan {base : ChainNode} {slices : List ChainNode}
    {targetUnix : Int} (contents : String → List OplogEntry)
    (hnodup : (slices.map ChainNode.id).Nodup) :
    appliedEntries contents (mapTargetToEnd base slices targetUnix) =
      (replayPlan targetUnix slices).map fun entry =>
        reachedEntries entry.2 (contents entry.1) := by
  obtain ⟨hids, hlimits⟩ := mapSlices_plan targetUnix
    ⟨base.endTs.getD ⟨0, 0⟩, [], none, none⟩ rfl hnodup
  rw [appliedEntries, mapTargetToEnd, hids, List.nil_append, List.map_map]
  apply List.map_congr_left
  intro entry hentry
  rw [Function.comp_apply, hlimits entry hentry]

theorem asU32_toNat {targetUnix : Int} (hlow : 0 ≤ targetUnix)
    (hhigh : targetUnix < 2 ^ 32) : ((asU32 targetUnix).toNat : Int) = targetUnix := by
  rw [asU32, Int.emod_eq_of_lt hlow hhigh, UInt32.toNat_ofNat_of_lt']
  · omega
  · rw [UInt32.size]
    omega

/-- Below the limit of a second lies exactly that second and what is before
it, unless it is the last second there is. -/
theorem lt_oplogLimitForSecond {secs : UInt32} {ts : OplogTimestamp}
    (hsecs : secs.toNat < 2 ^ 32 - 1) :
    ts < oplogLimitForSecond secs ↔ ts.t.toNat ≤ secs.toNat := by
  have hne : secs.toNat ≠ 2 ^ 32 - 1 := by omega
  have hsucc : (secs + 1).toNat = secs.toNat + 1 := by
    rw [UInt32.toNat_add, UInt32.toNat_one, Nat.mod_eq_of_lt (by omega)]
  rw [oplogLimitForSecond, if_neg hne, OplogTimestamp.lt_iff]
  simp only [hsucc, UInt32.toNat_zero]
  omega

/-- The end of a chain: where its last increment ends, or the base does. -/
def chainEnd (baseEnd : OplogTimestamp) : List ChainNode → OplogTimestamp
  | [] => baseEnd
  | slice :: rest => chainEnd (slice.endTs.getD baseEnd) rest

/-- Each slice holds the oplog entries of its range, none if it is empty. -/
def Holds (oplog : List OplogEntry) (contents : String → List OplogEntry)
    (slice : ChainNode) : Prop :=
  ∀ start end_, slice.oplogRange = some (start, end_) →
    contents slice.id = window OplogEntry.ts start end_ oplog ∧
      (slice.isEmptySlice = true → contents slice.id = [])

/-- What a replay applies of the oplog behind `prevEnd` and up to `last`. -/
structure ExactReplay (oplog : List OplogEntry) (targetUnix : Int)
    (prevEnd last : OplogTimestamp) (applied : List OplogEntry) : Prop where
  ascending : Ascending OplogEntry.ts applied
  sound : ∀ entry ∈ applied, entry ∈ oplog ∧ prevEnd < entry.ts ∧
    (entry.ts.t.toNat : Int) ≤ targetUnix
  complete : ∀ entry ∈ oplog, prevEnd < entry.ts → entry.ts ≤ last →
    (entry.ts.t.toNat : Int) ≤ targetUnix → entry ∈ applied

theorem ExactReplay.nil {oplog : List OplogEntry} {targetUnix : Int}
    {prevEnd last : OplogTimestamp}
    (hnone : ∀ entry ∈ oplog, prevEnd < entry.ts → entry.ts ≤ last →
      ¬ (entry.ts.t.toNat : Int) ≤ targetUnix) :
    ExactReplay oplog targetUnix prevEnd last [] where
  ascending := List.Pairwise.nil
  sound _ hentry := absurd hentry List.not_mem_nil
  complete entry hentry hlow hhigh hsecond :=
    absurd hsecond (hnone entry hentry hlow hhigh)

/-- A slice that ends by the target is applied as a whole. -/
theorem ExactReplay.whole {oplog rest : List OplogEntry} {targetUnix : Int}
    {prevEnd end_ last : OplogTimestamp}
    (hoplog : Ascending OplogEntry.ts oplog)
    (hend : (end_.t.toNat : Int) ≤ targetUnix)
    (hforward : rest ≠ [] → prevEnd ≤ end_)
    (hrest : ExactReplay oplog targetUnix end_ last rest) :
    ExactReplay oplog targetUnix prevEnd last
      (window OplogEntry.ts prevEnd end_ oplog ++ rest) where
  ascending :=
    (hoplog.window prevEnd end_).append hrest.ascending
      (fun entry hentry => (mem_window.mp hentry).2.2)
      (fun entry hentry => (hrest.sound entry hentry).2.1)
  sound := by
    intro entry hentry
    rcases List.mem_append.mp hentry with hwindow | hlater
    · obtain ⟨hmem, hlow, hhigh⟩ := mem_window.mp hwindow
      have hsecond := OplogTimestamp.t_le_of_le hhigh
      exact ⟨hmem, hlow, by omega⟩
    · obtain ⟨hmem, hlow, hsecond⟩ := hrest.sound entry hlater
      have hle := hforward (List.ne_nil_of_mem hlater)
      exact ⟨hmem, hle.trans_lt hlow, hsecond⟩
  complete := by
    intro entry hmem hlow hhigh hsecond
    rcases le_or_gt entry.ts end_ with hle | hgt
    · exact List.mem_append_left rest (mem_window.mpr ⟨hmem, hlow, hle⟩)
    · exact List.mem_append_right _
        (hrest.complete entry hmem hgt hhigh hsecond)

/-- A slice that straddles the target is applied below the limit, and nothing
behind it can be due. -/
theorem ExactReplay.straddled {oplog : List OplogEntry} {targetUnix : Int}
    {start end_ last : OplogTimestamp}
    (hoplog : Ascending OplogEntry.ts oplog)
    (hstart : (start.t.toNat : Int) ≤ targetUnix)
    (hend : targetUnix < (end_.t.toNat : Int)) :
    ExactReplay oplog targetUnix start last
      (reachedEntries (some (oplogLimitForSecond (asU32 targetUnix)))
        (window OplogEntry.ts start end_ oplog)) := by
  have hsecs : ((asU32 targetUnix).toNat : Int) = targetUnix := by
    have hbound := end_.t.toNat_lt
    exact asU32_toNat (by omega) (by omega)
  have hlimit : ∀ ts : OplogTimestamp,
      ts < oplogLimitForSecond (asU32 targetUnix) ↔
        (ts.t.toNat : Int) ≤ targetUnix := by
    intro ts
    have hbound := end_.t.toNat_lt
    rw [lt_oplogLimitForSecond (by omega)]
    omega
  have hwindow := hoplog.window start end_
  have hmem : ∀ entry, entry ∈ reachedEntries
      (some (oplogLimitForSecond (asU32 targetUnix)))
        (window OplogEntry.ts start end_ oplog) ↔
      (entry ∈ oplog ∧ start < entry.ts ∧ entry.ts ≤ end_) ∧
        (entry.ts.t.toNat : Int) ≤ targetUnix := by
    intro entry
    rw [reachedEntries, mem_takeWhile_lt hwindow, mem_window, hlimit]
  refine ⟨hwindow.sublist (List.takeWhile_sublist _), ?_, ?_⟩
  · intro entry hentry
    obtain ⟨⟨hoplog, hlow, -⟩, hsecond⟩ := (hmem entry).mp hentry
    exact ⟨hoplog, hlow, hsecond⟩
  · intro entry hentry hlow _ hsecond
    refine (hmem entry).mpr ⟨⟨hentry, hlow, ?_⟩, hsecond⟩
    exact ((OplogTimestamp.lt_iff entry.ts end_).mpr
      (Or.inl (by omega))).le

/-- The plan of linked slices applies exactly what is due. -/
theorem replayPlan_exact {oplog : List OplogEntry}
    {contents : String → List OplogEntry} {targetUnix : Int}
    {prevEnd : OplogTimestamp} {slices : List ChainNode}
    (hoplog : Ascending OplogEntry.ts oplog)
    (hholds : ∀ slice ∈ slices, Holds oplog contents slice)
    (hlinked : LinkedFrom prevEnd slices) :
    ExactReplay oplog targetUnix prevEnd (chainEnd prevEnd slices)
      ((replayPlan targetUnix slices).flatMap fun entry =>
        reachedEntries entry.2 (contents entry.1)) := by
  induction slices generalizing prevEnd with
  | nil =>
      refine ExactReplay.nil ?_
      intro entry _ hlow hhigh
      exact absurd hhigh (not_le.mpr hlow)
  | cons slice rest ih =>
      obtain ⟨end_, hrange, hforward, htail⟩ := hlinked
      obtain ⟨hwindow, hempty⟩ := hholds slice (by simp) prevEnd end_ hrange
      have hrest := ih (fun other hother =>
        hholds other (List.mem_cons_of_mem slice hother)) htail
      have hlast : chainEnd prevEnd (slice :: rest) = chainEnd end_ rest := by
        simp [chainEnd, ChainNode.endTs, hrange]
      rw [hlast]
      simp only [replayPlan, hrange]
      split
      next hend =>
        -- an empty slice contributes its own, empty, window
        have hhead : (if slice.isEmptySlice = true then []
            else [(slice.id, (none : Option OplogTimestamp))]).flatMap
              (fun entry => reachedEntries entry.2 (contents entry.1)) =
            window OplogEntry.ts prevEnd end_ oplog := by
          by_cases hslice : slice.isEmptySlice = true
          · rw [if_pos hslice, ← hwindow, hempty hslice]
            rfl
          · simp [hslice, reachedEntries, hwindow]
        rw [List.flatMap_append, hhead]
        refine ExactReplay.whole hoplog hend ?_ hrest
        intro hlater
        apply hforward
        rintro rfl
        exact hlater rfl
      next hend =>
        split
        next hstart =>
          have hexact : ExactReplay oplog targetUnix prevEnd
              (chainEnd end_ rest) _ :=
            ExactReplay.straddled hoplog hstart (not_le.mp hend)
          by_cases hslice : slice.isEmptySlice = true
          · rw [← hwindow, hempty hslice] at hexact
            simpa [hslice, reachedEntries] using hexact
          · simpa [hslice, hwindow] using hexact
        next hstart =>
          refine ExactReplay.nil ?_
          intro entry _ hlow _ hsecond
          have hle := OplogTimestamp.t_le_of_le hlow.le
          omega

theorem betterBase_spec {nodes : List ChainNode} {targetUnix : Int}
    {init best : Option ChainNode}
    (hinit : ∀ node, init = some node →
      (baseCandidateEnd node targetUnix).isSome)
    (hbest : nodes.foldl (betterBase targetUnix) init = best) :
    ∀ node, best = some node → (init = some node ∨ node ∈ nodes) ∧
      (baseCandidateEnd node targetUnix).isSome := by
  induction nodes generalizing init with
  | nil =>
      rintro node rfl
      exact ⟨Or.inl hbest, hinit node hbest⟩
  | cons head tail ih =>
      intro node hnode
      have hstep : ∀ next, betterBase targetUnix init head = some next →
          (init = some next ∨ next = head) ∧
            (baseCandidateEnd next targetUnix).isSome := by
        intro next hnext
        cases hend : baseCandidateEnd head targetUnix with
        | none =>
            simp only [betterBase, hend] at hnext
            exact ⟨Or.inl hnext, hinit next hnext⟩
        | some end_ =>
            cases init with
            | none =>
                simp only [betterBase, hend, Option.some.injEq] at hnext
                subst hnext
                exact ⟨Or.inr rfl, by simp [hend]⟩
            | some cur =>
                simp only [betterBase, hend] at hnext
                split at hnext
                · cases hnext
                  exact ⟨Or.inr rfl, by simp [hend]⟩
                · cases hnext
                  exact ⟨Or.inl rfl, hinit _ rfl⟩
      obtain ⟨hmem, hcandidate⟩ := ih
        (fun next hnext => (hstep next hnext).2) hbest node hnode
      refine ⟨?_, hcandidate⟩
      rcases hmem with hhead | htail
      · rcases (hstep node hhead).1 with hold | rfl
        · exact Or.inl hold
        · exact Or.inr List.mem_cons_self
      · exact Or.inr (List.mem_cons_of_mem head htail)

/-- The selected base is a listed, non-selective full backup with a range. -/
theorem selectBaseBefore_spec {wallClock : Int → String}
    {nodes : List ChainNode} {targetUnix : Int} {baseId : String}
    (hselect : selectBaseBefore wallClock nodes targetUnix = .ok baseId) :
    ∃ base ∈ nodes, base.id = baseId ∧ base.backupType = .full ∧
      ∃ start end_, base.oplogRange = some (start, end_) ∧
        (end_.t.toNat : Int) ≤ targetUnix := by
  rw [selectBaseBefore] at hselect
  cases hbest : nodes.foldl (betterBase targetUnix) none with
  | none => simp [hbest] at hselect
  | some base =>
      simp only [hbest, Except.ok.injEq] at hselect
      obtain ⟨hmem, hcandidate⟩ := betterBase_spec
        (by simp) hbest base rfl
      simp only [reduceCtorEq, false_or] at hmem
      refine ⟨base, hmem, hselect, ?_⟩
      unfold baseCandidateEnd at hcandidate
      split at hcandidate
      · simp at hcandidate
      next hkind =>
        simp only [not_or, ne_eq, not_not] at hkind
        refine ⟨hkind.1, ?_⟩
        cases hrange : base.oplogRange with
        | none => simp [hrange] at hcandidate
        | some range =>
            obtain ⟨start, end_⟩ := range
            simp only [hrange] at hcandidate
            split at hcandidate
            · simp at hcandidate
            next hle => exact ⟨start, end_, rfl, not_lt.mp hle⟩

/-- The slices of a report are its increments. -/
theorem orderedSlices_of_verifyChain {nodes : List ChainNode} {id : String}
    {base : ChainNode} (hnodup : (nodes.map ChainNode.id).Nodup)
    (hfind : findNode nodes id = some base)
    (hfull : base.backupType = .full) :
    orderedSlices nodes (verifyChain nodes id).incrementalIds =
      incrementalsOf nodes id := by
  rw [verifyChain_full hfind hfull, reportForBase, hfind, orderedSlices]
  simp only [List.filterMap_map]
  have hself : ∀ node ∈ incrementalsOf nodes id,
      (findNode nodes ∘ ChainNode.id) node = some node := fun node hnode =>
    findNode_of_mem hnodup (mem_incrementalsOf.mp hnode).1
  rw [List.filterMap_congr hself, List.filterMap_some]

/-! A base with two slices; the target second lies inside the second one. -/
namespace PitrExample

def base : ChainNode :=
  ⟨"f1", .full, none, some (⟨9, 1⟩, ⟨10, 1⟩), false, false, .complete⟩

def first : ChainNode :=
  ⟨"i1", .incremental, some "f1", some (⟨10, 1⟩, ⟨12, 2⟩), false, false,
    .complete⟩

def second : ChainNode :=
  ⟨"i2", .incremental, some "f1", some (⟨12, 2⟩, ⟨15, 1⟩), false, false,
    .complete⟩

def nodes : List ChainNode := [base, first, second]

def entryAt (t i : UInt32) : OplogEntry :=
  ⟨[("ts", .scalar (.timestamp ⟨t, i⟩))], 20, ⟨t, i⟩, rfl⟩

def oplog : List OplogEntry :=
  [entryAt 10 1, entryAt 12 1, entryAt 12 3, entryAt 13 1, entryAt 15 1]

def contents (id : String) : List OplogEntry :=
  if id = "i1" then [entryAt 12 1]
  else [entryAt 12 3, entryAt 13 1, entryAt 15 1]

/-- No entry of the example carries a session. -/
def debug : BsonDebug := ⟨fun _ => "Document(\x7b\x7d)", fun _ => "None"⟩

theorem incrementalsOf_base : incrementalsOf nodes "f1" = [first, second] := by
  rw [incrementalsOf]
  exact List.mergeSort_of_pairwise (by decide)

theorem verifyChain_base :
    verifyChain nodes "f1" = ⟨"f1", ["i1", "i2"], [], []⟩ := by
  have hfind : findNode nodes "f1" = some base := by decide
  rw [verifyChain_full hfind rfl, reportForBase, hfind]
  simp only [incrementalsOf_base]
  decide

end PitrExample

open PitrExample in
/-- The second behind the target is cut off inside the second slice. -/
example : (appliedEntries contents
    (mapTargetToEnd base [first, second] 12)).flatten.map OplogEntry.ts =
      [⟨12, 1⟩, ⟨12, 3⟩] := by decide

end XBackup
