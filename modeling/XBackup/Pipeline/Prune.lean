/-
Retention: the plan that keeps or deletes whole chains.  The plan is read
through a declarative judgement of each chain, `Retained`.
-/
import XBackup.Foundation.Ranking
import XBackup.Manifest.Verifier

namespace XBackup

open Ranking

/-- A signed 64-bit number. -/
abbrev I64 := { value : ℤ // -2 ^ 63 ≤ value ∧ value < 2 ^ 63 }

def I64.min : I64 := ⟨-2 ^ 63, by decide⟩

theorem I64.min_le (number : I64) : I64.min ≤ number :=
  number.property.1

structure RetentionPolicy where
  keepFull : Option Nat
  keepDays : Option Nat
  keepLast : Option Nat
  recoveryWindowDays : Option Nat
  minRedundancy : Option Nat
deriving DecidableEq, Repr

namespace RetentionPolicy

def default : RetentionPolicy := ⟨none, none, none, none, none⟩

def isUnspecified (policy : RetentionPolicy) : Bool :=
  policy.keepFull.isNone && policy.keepDays.isNone &&
    policy.keepLast.isNone && policy.recoveryWindowDays.isNone &&
    policy.minRedundancy.isNone

end RetentionPolicy

inductive PruneKind where
  | chain
  | orphan
  | incomplete
deriving DecidableEq, Repr

/-- Normal chains are deleted without `--force`. -/
def PruneKind.isNormalChain (kind : PruneKind) : Bool :=
  kind == .chain

structure PruneTarget where
  kind : PruneKind
  baseId : String
  memberIds : List String
  reason : String
deriving DecidableEq, Repr

structure PrunePlan where
  targets : List PruneTarget
  keptBaseIds : List String
deriving DecidableEq, Repr

/-- The ids that are deleted; `includeForceOnly` is `--force`. -/
def PrunePlan.deletableMemberIds (plan : PrunePlan) (includeForceOnly : Bool) :
    List String :=
  (plan.targets.filter fun target =>
    includeForceOnly || target.kind.isNormalChain).flatMap
      PruneTarget.memberIds

structure ChainGroup where
  baseId : String
  memberIds : List String
  baseCreated : I64
  newestCreated : I64

/-- `created_at` as Unix seconds, by the RFC 3339 parser `parse`. -/
def createdSecs (parse : String → Option I64) (m : BackupManifest) :
    Option I64 :=
  parse m.createdAt

/-- The greatest of some numbers, `fallback` if there is none. -/
def newestOr (fallback : I64) (numbers : List I64) : I64 :=
  (numbers.max?).getD fallback

theorem le_newestOr (fallback : I64) {numbers : List I64} {number : I64}
    (hnumber : number ∈ numbers) : number ≤ newestOr fallback numbers := by
  rw [newestOr]
  obtain ⟨greatest, hgreatest⟩ := Option.isSome_iff_exists.mp
    (List.isSome_max?_of_mem hnumber)
  rw [hgreatest]
  exact (List.max?_eq_some_iff.mp hgreatest).2 number hnumber

/-- The chain of a complete full backup, by the report of the verifier. -/
def chainGroup (parse : String → Option I64) (manifests : List BackupManifest)
    (m : BackupManifest) (report : ChainReport) : ChainGroup :=
  let members := m.id :: report.incrementalIds
  let baseCreated := (createdSecs parse m).getD I64.min
  { baseId := m.id
    memberIds := members
    baseCreated := baseCreated
    newestCreated := newestOr baseCreated
      ((members.filterMap fun id => manifests.find? (·.id = id)).filterMap
        (createdSecs parse)) }

/-- Step 1: one group for each complete full backup; the verifier and its
reports go along. -/
def groupChains (parse : String → Option I64)
    (manifests : List BackupManifest) :
    ChainVerifier → List BackupManifest → List ChainGroup
  | _, [] => []
  | verifier, m :: rest =>
      if m.backupType ≠ .full then groupChains parse manifests verifier rest
      else if m.status = .incomplete then
        groupChains parse manifests verifier rest
      else
        let (report, next) := verifier.verify m.id
        chainGroup parse manifests m report ::
          groupChains parse manifests next rest

/-- Step 2: the newest base first, ties by id. -/
def ChainGroup.cmpRank (left right : ChainGroup) : Ordering :=
  (compare right.baseCreated left.baseCreated).then
    (compare left.baseId right.baseId)

def rankChains (chains : List ChainGroup) : List ChainGroup :=
  chains.mergeSort fun left right => (left.cmpRank right).isLE

/-- `now_secs - (d as i64) * 86_400`. -/
def cutoff (nowSecs : ℤ) (days : Nat) : ℤ :=
  nowSecs - days * 86400

/-- The union of the five rules, for the chain at `idx` with `membersBefore`
backups in the chains before it. -/
def keptByRules (policy : RetentionPolicy) (nowSecs : ℤ) (isBoundary : Bool)
    (idx membersBefore : Nat) (chain : ChainGroup) : Bool :=
  let within := fun days => cutoff nowSecs days ≤ chain.newestCreated.val
  let keptByFull := policy.keepFull.any fun n => idx < n
  let keptByDays := policy.keepDays.any fun d => within d
  let keptByLast := policy.keepLast.any fun n => membersBefore < n
  let keptByWindow :=
    (policy.recoveryWindowDays.any fun d => within d) || isBoundary
  let keptByRedundancy := policy.minRedundancy.any fun m => idx < m
  keptByFull || keptByDays || keptByLast || keptByWindow || keptByRedundancy

/-- The first ranked chain that starts at or before the window. -/
def boundaryIdx (policy : RetentionPolicy) (nowSecs : ℤ)
    (chains : List ChainGroup) : Option Nat :=
  policy.recoveryWindowDays.bind fun days =>
    chains.findIdx? fun chain => chain.baseCreated.val ≤ cutoff nowSecs days

def pruneReason (policy : RetentionPolicy) (idx : Nat) : String :=
  let parts :=
    (policy.keepFull.map fun n =>
      s!"keep-full {n} (rank {idx + 1})").toList ++
    (policy.keepDays.map fun d => s!"keep-days {d}d").toList ++
    (policy.keepLast.map fun n => s!"keep-last {n}").toList ++
    (policy.recoveryWindowDays.map fun w => s!"recovery-window {w}d").toList ++
    (policy.minRedundancy.map fun m => s!"min-redundancy {m}").toList
  if parts.isEmpty then "no retention rule"
  else "exceeds retention (" ++ " · ".intercalate parts ++ ")"

/-- Step 3, from the chain at `idx` on. -/
def judgeChains (policy : RetentionPolicy) (nowSecs : ℤ)
    (boundary : Option Nat) :
    Nat → Nat → List ChainGroup → List PruneTarget × List String
  | _, _, [] => ([], [])
  | idx, membersBefore, chain :: rest =>
      let (targets, kept) := judgeChains policy nowSecs boundary (idx + 1)
        (membersBefore + chain.memberIds.length) rest
      if policy.isUnspecified ||
          keptByRules policy nowSecs (boundary == some idx) idx membersBefore
            chain then
        (targets, chain.baseId :: kept)
      else
        (⟨.chain, chain.baseId, chain.memberIds, pruneReason policy idx⟩ ::
          targets, kept)

/-- Step 4: incomplete backups that belong to no chain. -/
def incompleteTargets (chainMembers : List String)
    (manifests : List BackupManifest) : List PruneTarget :=
  (manifests.filter fun m =>
    m.status = .incomplete ∧ m.id ∉ chainMembers).map fun m =>
      ⟨.incomplete, m.id, [m.id],
        "incomplete backup (chain-ineligible remnant) — deleted only with --force"⟩

/-- Step 5: data without a manifest. -/
def orphanTarget (id : String) : PruneTarget :=
  ⟨.orphan, id, [id],
    "orphan (data artifact without manifest) — deleted only with --force"⟩

def planPrune (parse : String → Option I64) (manifests : List BackupManifest)
    (orphanIds : List String) (policy : RetentionPolicy) (nowSecs : ℤ) :
    PrunePlan :=
  let nodes := manifests.map ChainNode.fromManifest
  let chains := rankChains
    (groupChains parse manifests (ChainVerifier.new nodes) manifests)
  let (targets, kept) := judgeChains policy nowSecs
    (boundaryIdx policy nowSecs chains) 0 0 chains
  { targets := targets ++
      incompleteTargets (chains.flatMap ChainGroup.memberIds) manifests ++
      orphanIds.map orphanTarget
    keptBaseIds := kept }

/-- The key behind `cmpRank`. -/
def ChainGroup.rankKey (chain : ChainGroup) : Lex (I64ᵒᵈ × String) :=
  toLex (OrderDual.toDual chain.baseCreated, chain.baseId)

theorem ChainGroup.cmpRank_isLE_iff (left right : ChainGroup) :
    (left.cmpRank right).isLE = true ↔ left.rankKey ≤ right.rankKey := by
  simp only [cmpRank, rankKey, Prod.Lex.toLex_le_toLex,
    Ordering.isLE_then_iff_or, compare_lt_iff_lt, compare_eq_iff_eq,
    Std.LawfulBCmp.isLE_iff_le, OrderDual.toDual_lt_toDual,
    OrderDual.toDual_inj, @eq_comm _ left.baseCreated]

theorem rankChains_perm (chains : List ChainGroup) :
    (rankChains chains).Perm chains :=
  List.mergeSort_perm chains _

theorem rankChains_sorted (chains : List ChainGroup) :
    (rankChains chains).Pairwise fun left right =>
      left.rankKey ≤ right.rankKey :=
  mergeSort_sorted ChainGroup.cmpRank_isLE_iff chains

/-- The backups of some chains. -/
def backupCount (chains : List ChainGroup) : Nat :=
  (chains.map fun chain => chain.memberIds.length).sum

/-- A chain in its place: how many chains and backups stand before it. -/
structure Place where
  idx : Nat
  membersBefore : Nat
  chain : ChainGroup

def places : Nat → Nat → List ChainGroup → List Place
  | _, _, [] => []
  | idx, membersBefore, chain :: rest =>
      ⟨idx, membersBefore, chain⟩ ::
        places (idx + 1) (membersBefore + chain.memberIds.length) rest

theorem mem_places {idx membersBefore : Nat} {chains : List ChainGroup}
    {place : Place} :
    place ∈ places idx membersBefore chains ↔
      ∃ front rest, chains = front ++ place.chain :: rest ∧
        place.idx = idx + front.length ∧
        place.membersBefore = membersBefore + backupCount front := by
  induction chains generalizing idx membersBefore with
  | nil => simp [places]
  | cons head tail ih =>
      rw [places, List.mem_cons, ih]
      constructor
      · rintro (rfl | ⟨front, rest, rfl, hidx, hbefore⟩)
        · exact ⟨[], tail, rfl, rfl, by simp [backupCount]⟩
        · refine ⟨head :: front, rest, rfl, ?_, ?_⟩
          · rw [hidx, List.length_cons]
            omega
          · simp [hbefore, backupCount, Nat.add_assoc]
      · rintro ⟨front, rest, hsplit, hidx, hbefore⟩
        cases front with
        | nil =>
            obtain ⟨rfl, rfl⟩ := List.cons.inj hsplit
            left
            cases place
            simp_all [backupCount]
        | cons first front =>
            obtain ⟨rfl, rfl⟩ := List.cons.inj hsplit
            refine Or.inr ⟨front, rest, rfl, ?_, ?_⟩
            · rw [hidx, List.length_cons]
              omega
            · simp [hbefore, backupCount, Nat.add_assoc]

theorem map_chain_places (idx membersBefore : Nat) (chains : List ChainGroup) :
    (places idx membersBefore chains).map Place.chain = chains := by
  induction chains generalizing idx membersBefore with
  | nil => rfl
  | cons head tail ih => rw [places, List.map_cons, ih]

section Judge

variable (policy : RetentionPolicy) (nowSecs : ℤ) (boundary : Option Nat)

/-- The verdict of step 3 on a chain in its place. -/
def keptAt (place : Place) : Bool :=
  policy.isUnspecified || keptByRules policy nowSecs
    (boundary == some place.idx) place.idx place.membersBefore place.chain

/-- The target of a chain that is not kept. -/
def chainTarget (place : Place) : PruneTarget :=
  ⟨.chain, place.chain.baseId, place.chain.memberIds,
    pruneReason policy place.idx⟩

/-- Step 3 parts the chains by the verdict. -/
theorem judgeChains_eq (idx membersBefore : Nat) (chains : List ChainGroup) :
    judgeChains policy nowSecs boundary idx membersBefore chains =
      (((places idx membersBefore chains).filter fun place =>
          !keptAt policy nowSecs boundary place).map (chainTarget policy),
        ((places idx membersBefore chains).filter
          (keptAt policy nowSecs boundary)).map fun place =>
            place.chain.baseId) := by
  induction chains generalizing idx membersBefore with
  | nil => rfl
  | cons head tail ih =>
      rw [judgeChains, ih, places]
      by_cases hkept :
          keptAt policy nowSecs boundary ⟨idx, membersBefore, head⟩ = true
      · rw [List.filter_cons_of_neg (by simpa using hkept),
          List.filter_cons_of_pos hkept]
        exact if_pos hkept
      · rw [List.filter_cons_of_pos (by simpa using hkept),
          List.filter_cons_of_neg hkept]
        exact if_neg hkept

end Judge

/-- Complete full backups open a chain. -/
def opensChain (m : BackupManifest) : Bool :=
  m.backupType = .full ∧ m.status ≠ .incomplete

/-- The report of the verifier on a backup. -/
def chainReport (manifests : List BackupManifest) (id : String) :
    ChainReport :=
  let nodes := manifests.map ChainNode.fromManifest
  reportBy nodes (lastNode nodes) id

/-- The chains of a catalog in listing order. -/
def chainsOf (parse : String → Option I64) (manifests : List BackupManifest) :
    List ChainGroup :=
  (manifests.filter opensChain).map fun m =>
    chainGroup parse manifests m (chainReport manifests m.id)

theorem groupChains_eq {parse : String → Option I64}
    {manifests rest : List BackupManifest} {verifier : ChainVerifier}
    (hindexes : Indexes (manifests.map ChainNode.fromManifest) verifier) :
    groupChains parse manifests verifier rest =
      (rest.filter opensChain).map fun m =>
        chainGroup parse manifests m (chainReport manifests m.id) := by
  induction rest generalizing verifier with
  | nil => rfl
  | cons m rest ih =>
      rw [groupChains]
      by_cases hfull : m.backupType = .full
      · by_cases hincomplete : m.status = .incomplete
        · rw [if_neg (by simpa using hfull), if_pos hincomplete, ih hindexes,
            List.filter_cons_of_neg (by simp [opensChain, hincomplete])]
        · obtain ⟨hreport, hnext⟩ := hindexes.verify m.id
          rw [if_neg (by simpa using hfull), if_neg hincomplete,
            List.filter_cons_of_pos (by simp [opensChain, hfull, hincomplete]),
            List.map_cons, ← ih hnext, chainReport, ← hreport]
      · rw [if_pos hfull, ih hindexes,
          List.filter_cons_of_neg (by simp [opensChain, hfull])]

theorem groupChains_new (parse : String → Option I64)
    (manifests : List BackupManifest) :
    groupChains parse manifests
        (ChainVerifier.new (manifests.map ChainNode.fromManifest)) manifests =
      chainsOf parse manifests :=
  groupChains_eq (indexes_new _)

section Verdict

variable (policy : RetentionPolicy) (nowSecs : ℤ)

/-- The chain covers the start of the window, and none ahead of it does. -/
def coversWindow (chains : List ChainGroup) (chain : ChainGroup) : Bool :=
  policy.recoveryWindowDays.any fun days =>
    chain.baseCreated.val ≤ cutoff nowSecs days ∧
      (ahead ChainGroup.rankKey chains chain).all fun other =>
        cutoff nowSecs days < other.baseCreated.val

/-- The verdict on a chain, by what ranks ahead of it. -/
def Retained (chains : List ChainGroup) (chain : ChainGroup) : Prop :=
  policy.isUnspecified = true ∨
    keptByRules policy nowSecs (coversWindow policy nowSecs chains chain)
      (ahead ChainGroup.rankKey chains chain).length
      (backupCount (ahead ChainGroup.rankKey chains chain)) chain = true

variable {policy nowSecs}

theorem boundaryIdx_eq_some_iff {front rest : List ChainGroup}
    {chain : ChainGroup}
    (hfront : ahead ChainGroup.rankKey (front ++ chain :: rest) chain =
      front) :
    (boundaryIdx policy nowSecs (front ++ chain :: rest) ==
        some front.length) =
      coversWindow policy nowSecs (front ++ chain :: rest) chain := by
  rw [boundaryIdx, coversWindow, hfront]
  cases policy.recoveryWindowDays with
  | none => simp
  | some days =>
      rw [Option.bind_some, Option.any_some, Bool.eq_iff_iff, beq_iff_eq,
        findIdx_eq_length_iff]
      simp

theorem keptAt_iff_retained {front rest : List ChainGroup}
    {chain : ChainGroup}
    (hfront : ahead ChainGroup.rankKey (front ++ chain :: rest) chain =
      front) :
    keptAt policy nowSecs
        (boundaryIdx policy nowSecs (front ++ chain :: rest))
        ⟨front.length, backupCount front, chain⟩ = true ↔
      Retained policy nowSecs (front ++ chain :: rest) chain := by
  rw [keptAt, Retained, hfront, Bool.or_eq_true,
    boundaryIdx_eq_some_iff hfront]

theorem backupCount_perm {left right : List ChainGroup}
    (hperm : left.Perm right) : backupCount left = backupCount right :=
  (hperm.map _).sum_eq

theorem retained_perm {sorted chains : List ChainGroup}
    (hperm : sorted.Perm chains) (chain : ChainGroup) :
    Retained policy nowSecs sorted chain ↔
      Retained policy nowSecs chains chain := by
  have hahead : (ahead ChainGroup.rankKey sorted chain).Perm
      (ahead ChainGroup.rankKey chains chain) := ahead_perm hperm chain
  have hcovers : coversWindow policy nowSecs sorted chain =
      coversWindow policy nowSecs chains chain := by
    unfold coversWindow
    congr 1
    funext days
    rw [hahead.all_eq]
  rw [Retained, Retained, hcovers, hahead.length_eq, backupCount_perm hahead]

/-- In a strict ranking the verdict of step 3 is the declarative one. -/
theorem keptAt_place_iff {chains : List ChainGroup} {place : Place}
    (hsorted : chains.Pairwise fun left right =>
      left.rankKey < right.rankKey) (hplace : place ∈ places 0 0 chains) :
    keptAt policy nowSecs (boundaryIdx policy nowSecs chains) place = true ↔
      Retained policy nowSecs chains place.chain := by
  obtain ⟨front, rest, rfl, hidx, hbefore⟩ := mem_places.mp hplace
  cases place with
  | mk idx membersBefore chain =>
      rw [Nat.zero_add] at hidx hbefore
      subst hidx hbefore
      exact keptAt_iff_retained (ahead_of_sorted hsorted)

end Verdict

section Plan

variable (parse : String → Option I64) (manifests : List BackupManifest)
  (orphanIds : List String) (policy : RetentionPolicy) (nowSecs : ℤ)

def rankedChains : List ChainGroup :=
  rankChains (chainsOf parse manifests)

def judgedPlaces (verdict : Bool) : List Place :=
  let chains := rankedChains parse manifests
  (places 0 0 chains).filter fun place =>
    keptAt policy nowSecs (boundaryIdx policy nowSecs chains) place == verdict

/-- The chains with a verdict, best ranked first. -/
def judgedChains (verdict : Bool) : List ChainGroup :=
  (judgedPlaces parse manifests policy nowSecs verdict).map Place.chain

/-- Incomplete backups that belong to no chain. -/
def remnants : List BackupManifest :=
  manifests.filter fun m => m.status = .incomplete ∧
    m.id ∉ (rankedChains parse manifests).flatMap ChainGroup.memberIds

theorem planPrune_eq :
    planPrune parse manifests orphanIds policy nowSecs =
      { targets :=
          (judgedPlaces parse manifests policy nowSecs false).map
              (chainTarget policy) ++
            incompleteTargets
              ((rankedChains parse manifests).flatMap ChainGroup.memberIds)
              manifests ++
            orphanIds.map orphanTarget
        keptBaseIds := (judgedChains parse manifests policy nowSecs true).map
          ChainGroup.baseId } := by
  simp only [planPrune, groupChains_new, judgeChains_eq, judgedChains,
    judgedPlaces, rankedChains, List.map_map, Function.comp_def, beq_true,
    beq_false]

theorem judgedChains_sublist (verdict : Bool) :
    (judgedChains parse manifests policy nowSecs verdict).Sublist
      (rankedChains parse manifests) := by
  rw [judgedChains, ← map_chain_places 0 0 (rankedChains parse manifests)]
  exact List.filter_sublist.map Place.chain

/-- The targets that are gone through: the chains that are not kept and, with
`--force`, the remnants and the orphans. -/
theorem filter_targets_eq (includeForceOnly : Bool) :
    (planPrune parse manifests orphanIds policy nowSecs).targets.filter
        (fun target => includeForceOnly || target.kind.isNormalChain) =
      (judgedPlaces parse manifests policy nowSecs false).map
          (chainTarget policy) ++
        if includeForceOnly then
          incompleteTargets
            ((rankedChains parse manifests).flatMap ChainGroup.memberIds)
            manifests ++ orphanIds.map orphanTarget
        else [] := by
  have hchains : ((judgedPlaces parse manifests policy nowSecs false).map
      (chainTarget policy)).filter (fun target =>
        includeForceOnly || target.kind.isNormalChain) =
      (judgedPlaces parse manifests policy nowSecs false).map
        (chainTarget policy) := by
    apply List.filter_eq_self.mpr
    intro target htarget
    obtain ⟨place, -, rfl⟩ := List.mem_map.mp htarget
    simp [chainTarget, PruneKind.isNormalChain]
  rw [planPrune_eq]
  dsimp only
  rw [List.append_assoc, List.filter_append, hchains]
  congr 1
  cases includeForceOnly with
  | true => simp
  | false =>
      simp [incompleteTargets, orphanTarget, PruneKind.isNormalChain,
        List.filter_map, Function.comp_def]

/-- The ids of the targets in any order that keeps single ones. -/
theorem targets_flatMap_eq (includeForceOnly : Bool)
    (order : List String → List String)
    (hsingle : ∀ id, order [id] = [id]) :
    ((planPrune parse manifests orphanIds policy nowSecs).targets.filter
        fun target => includeForceOnly || target.kind.isNormalChain).flatMap
          (fun target => order target.memberIds) =
      (judgedChains parse manifests policy nowSecs false).flatMap
          (fun chain => order chain.memberIds) ++
        if includeForceOnly then
          (remnants parse manifests).map BackupManifest.id ++ orphanIds
        else [] := by
  rw [filter_targets_eq, List.flatMap_append, List.flatMap_map, judgedChains,
    List.flatMap_map]
  congr 1
  cases includeForceOnly with
  | true =>
      simp [incompleteTargets, orphanTarget, remnants, List.flatMap_map, hsingle]
      rw [List.map_eq_flatMap]
  | false => rfl

theorem deletableMemberIds_eq (includeForceOnly : Bool) :
    (planPrune parse manifests orphanIds policy nowSecs).deletableMemberIds
        includeForceOnly =
      (judgedChains parse manifests policy nowSecs false).flatMap
          ChainGroup.memberIds ++
        if includeForceOnly then
          (remnants parse manifests).map BackupManifest.id ++ orphanIds
        else [] :=
  targets_flatMap_eq parse manifests orphanIds policy nowSecs includeForceOnly
    id fun _ => rfl

variable {parse manifests orphanIds policy nowSecs} in
/-- `--force` deletes no less. -/
theorem deletable_mono {includeForceOnly : Bool} {id : String}
    (hid : id ∈ (planPrune parse manifests orphanIds policy
      nowSecs).deletableMemberIds includeForceOnly) :
    id ∈ (planPrune parse manifests orphanIds policy
      nowSecs).deletableMemberIds true := by
  cases includeForceOnly with
  | true => exact hid
  | false =>
      rw [deletableMemberIds_eq] at hid ⊢
      exact List.mem_append_left _ (by simpa using hid)

end Plan

end XBackup
