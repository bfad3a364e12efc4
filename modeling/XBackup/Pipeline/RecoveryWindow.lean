/-
The recovery window against point-in-time recovery: what `selectBaseBefore`
chooses before and after a prune, for every instant of the window.
-/
import XBackup.Engine.DbKind
import XBackup.Pipeline.Pitr
import XBackup.Pipeline.PruneSafety

namespace XBackup

open Ranking

/-- The order of `selectBaseBefore`: the later end, then the greater id. -/
def ChainNode.baseKey (node : ChainNode) :
    WithBot (Lex (OplogTimestamp × String)) :=
  node.endTs.elim ⊥ fun end_ => WithBot.some (toLex (end_, node.id))

/-- A base may be replayed to the target. -/
def ReachableBase (node : ChainNode) (targetUnix : ℤ) : Prop :=
  (baseCandidateEnd node targetUnix).isSome

theorem reachableBase_iff {node : ChainNode} {targetUnix : ℤ} :
    ReachableBase node targetUnix ↔
      node.backupType = .full ∧ node.selective = false ∧
        ∃ end_, node.endTs = some end_ ∧ (end_.t.toNat : ℤ) ≤ targetUnix := by
  rw [ReachableBase, baseCandidateEnd, ChainNode.endTs]
  cases htype : node.backupType with
  | incremental => simp
  | full =>
      cases hselective : node.selective with
      | true => simp
      | false =>
          cases hrange : node.oplogRange with
          | none => simp
          | some range =>
              simp only [ne_eq, not_true_eq_false, Bool.false_eq_true, or_self,
                if_false, Option.map_some, Option.some.injEq, true_and,
                exists_eq_left']
              split
              next hlt => simpa using hlt
              next hle => simpa using hle

theorem baseCandidateEnd_end {node : ChainNode} {targetUnix : ℤ}
    {end_ : OplogTimestamp} (hend : baseCandidateEnd node targetUnix = some end_) :
    node.endTs = some end_ := by
  rw [baseCandidateEnd] at hend
  split at hend
  · cases hend
  · rw [ChainNode.endTs]
    split at hend
    · cases hend
    next start end' hrange =>
      rw [hrange]
      split at hend
      · cases hend
      · exact hend

theorem baseKey_of_end {node : ChainNode} {end_ : OplogTimestamp}
    (hend : node.endTs = some end_) :
    node.baseKey = WithBot.some (toLex (end_, node.id)) := by
  rw [ChainNode.baseKey, hend]
  rfl

/-- The loop of `select_base_before` keeps the later of two reachable bases. -/
theorem keepsBest_betterBase (targetUnix : ℤ) :
    KeepsBest ChainNode.baseKey (ReachableBase · targetUnix)
      (betterBase targetUnix) where
  skip best item hitem := by
    rw [betterBase, Option.not_isSome_iff_eq_none.mp hitem]
  first item hitem := by
    obtain ⟨end_, hend⟩ := Option.isSome_iff_exists.mp hitem
    rw [betterBase, hend]
  better cur item hcur hitem := by
    obtain ⟨-, -, curEnd, hcurEnd, -⟩ := reachableBase_iff.mp hcur
    obtain ⟨-, -, itemEnd, hitemEnd, -⟩ := reachableBase_iff.mp hitem
    have hcandidate : baseCandidateEnd item targetUnix = some itemEnd := by
      obtain ⟨end_, hend⟩ := Option.isSome_iff_exists.mp hitem
      rw [hend, ← baseCandidateEnd_end hend, hitemEnd]
    rw [betterBase, hcandidate]
    simp only [hcurEnd, Option.getD_some, baseKey_of_end hcurEnd,
      baseKey_of_end hitemEnd, WithBot.coe_lt_coe, Prod.Lex.toLex_lt_toLex]

theorem selectBaseBefore_eq_ok_iff {wallClock : ℤ → String}
    {nodes : List ChainNode} {targetUnix : ℤ} {id : String} :
    selectBaseBefore wallClock nodes targetUnix = .ok id ↔
      ∃ base, Best ChainNode.baseKey (ReachableBase · targetUnix) nodes base ∧
        base.id = id := by
  have hspec := @foldl_none_spec _ _ _ _ _ nodes _
    (keepsBest_betterBase targetUnix)
  rw [selectBaseBefore]
  constructor
  · intro hselect
    cases hfold : nodes.foldl (betterBase targetUnix) none with
    | none => simp [hfold] at hselect
    | some best =>
        rw [hfold] at hspec
        simp only [hfold, Except.ok.injEq] at hselect
        exact ⟨best, hspec, hselect⟩
  · rintro ⟨base, hbase, rfl⟩
    obtain ⟨found, hfold, hkey⟩ :=
      foldl_eq_some_of_best (keepsBest_betterBase targetUnix) hbase
    rw [hfold] at hspec
    obtain ⟨-, -, foundEnd, hfound, -⟩ := reachableBase_iff.mp hspec.allowed
    obtain ⟨-, -, baseEnd, hend, -⟩ := reachableBase_iff.mp hbase.allowed
    rw [baseKey_of_end hfound, baseKey_of_end hend, WithBot.coe_inj] at hkey
    rw [hfold]
    exact congrArg Except.ok (congrArg (fun key => (ofLex key).2) hkey)

/-- The chain nodes of a catalog: Mongo backups alone. -/
def mongoNodes (manifests : List BackupManifest) : List ChainNode :=
  (manifests.filter fun m => m.dbKind = .mongo).map ChainNode.fromManifest

/-- The catalog without what a plan deletes. -/
def remaining (manifests : List BackupManifest) (plan : PrunePlan) :
    List BackupManifest :=
  manifests.filter fun m => m.id ∉ plan.deletableMemberIds true

/-- The slices and limits of a recovery on a base. -/
def pitrMapping (nodes : List ChainNode) (baseId : String) (targetUnix : ℤ) :
    Option EndMapping :=
  (findNode nodes baseId).map fun base =>
    mapTargetToEnd base
      (orderedSlices nodes (verifyChain nodes baseId).incrementalIds) targetUnix

/-- Every instant of the window that could be recovered is recovered after the
prune from the same base, by the same slices. -/
def WindowHolds (wallClock : ℤ → String) (manifests : List BackupManifest)
    (policy : RetentionPolicy) (nowSecs : ℤ) (plan : PrunePlan) : Prop :=
  ∀ days, policy.recoveryWindowDays = some days →
    ∀ targetUnix, cutoff nowSecs days ≤ targetUnix → targetUnix ≤ nowSecs →
    ∀ baseId,
      selectBaseBefore wallClock (mongoNodes manifests) targetUnix =
        .ok baseId →
      (verifyChain (mongoNodes manifests) baseId).isContinuous = true →
        let left := mongoNodes (remaining manifests plan)
        selectBaseBefore wallClock left targetUnix = .ok baseId ∧
          (verifyChain left baseId).isContinuous = true ∧
          pitrMapping left baseId targetUnix =
            pitrMapping (mongoNodes manifests) baseId targetUnix

/-- Whenever a complete full outranks a base with a continuous chain, a later
base can be reached from the moment that full exists and the chain is over. -/
def BaseIsSucceeded (parse : String → Option I64)
    (manifests : List BackupManifest) : Prop :=
  ∀ base ∈ manifests, base.dbKind = .mongo →
    (verifyChain (mongoNodes manifests) base.id).isContinuous = true →
    ∀ full ∈ manifests, opensChain full = true →
      (chainOf parse manifests full).rankKey <
        (chainOf parse manifests base).rankKey →
    ∀ targetUnix, ReachableBase (.fromManifest base) targetUnix →
      (chainOf parse manifests base).newestCreated.val < targetUnix →
      (chainOf parse manifests full).baseCreated.val ≤ targetUnix →
        ∃ later ∈ mongoNodes manifests, ReachableBase later targetUnix ∧
          (ChainNode.fromManifest base).baseKey < later.baseKey

theorem mem_mongoNodes {manifests : List BackupManifest} {node : ChainNode} :
    node ∈ mongoNodes manifests ↔
      ∃ m ∈ manifests, m.dbKind = .mongo ∧ .fromManifest m = node := by
  simp [mongoNodes, and_assoc]

theorem mem_remaining {manifests : List BackupManifest} {plan : PrunePlan}
    {m : BackupManifest} :
    m ∈ remaining manifests plan ↔
      m ∈ manifests ∧ m.id ∉ plan.deletableMemberIds true := by
  simp [remaining]

/-- A continuous report is about a complete full backup. -/
theorem opensChain_of_continuous {nodes : List ChainNode} {m : BackupManifest}
    (hfind : findNode nodes m.id = some (.fromManifest m))
    (hfull : m.backupType = .full)
    (hcontinuous : (verifyChain nodes m.id).isContinuous = true) :
    opensChain m = true := by
  rw [verifyChain_full hfind hfull] at hcontinuous
  simp only [ChainReport.isContinuous, reportForBase, hfind, List.isEmpty_iff,
    List.append_eq_nil_iff] at hcontinuous
  refine opensChain_iff.mpr ⟨hfull, fun hincomplete => ?_⟩
  have hbase := hcontinuous.1.1.1
  simp [baseBreaks, ChainNode.isIncomplete, ChainNode.fromManifest,
    hincomplete] at hbase

/-- A policy of one rule, `--recovery-window-days days`. -/
def windowOnly (days : Nat) : RetentionPolicy :=
  { RetentionPolicy.default with recoveryWindowDays := some days }

theorem retained_windowOnly {days : Nat} {nowSecs : ℤ}
    {chains : List ChainGroup} {chain : ChainGroup} :
    Retained (windowOnly days) nowSecs chains chain ↔
      cutoff nowSecs days ≤ chain.newestCreated.val ∨
        coversWindow (windowOnly days) nowSecs chains chain = true := by
  simp [Retained, windowOnly, RetentionPolicy.default,
    RetentionPolicy.isUnspecified, keptByRules]

section Window

variable {parse : String → Option I64} {manifests : List BackupManifest}
  (hids : (manifests.map BackupManifest.id).Nodup)

include hids

theorem mongoNodes_nodup :
    ((mongoNodes manifests).map ChainNode.id).Nodup := by
  rw [mongoNodes, List.map_map]
  exact hids.sublist (List.filter_sublist.map BackupManifest.id)

theorem remaining_nodup (plan : PrunePlan) :
    ((remaining manifests plan).map BackupManifest.id).Nodup :=
  hids.sublist (List.filter_sublist.map BackupManifest.id)

theorem findNode_mongoNodes {m : BackupManifest} (hm : m ∈ manifests)
    (hkind : m.dbKind = .mongo) :
    findNode (mongoNodes manifests) m.id = some (.fromManifest m) :=
  findNode_of_mem (mongoNodes_nodup hids) (mem_mongoNodes.mpr ⟨m, hm, hkind, rfl⟩)

/-- A plan that leaves a whole chain leaves its report and its slices. -/
theorem verifyChain_remaining {plan : PrunePlan} {base : BackupManifest}
    (hbase : base ∈ manifests) (hkind : base.dbKind = .mongo)
    (hfull : base.backupType = .full)
    (hleft : ∀ m ∈ manifests, ChainMember m base →
      m.id ∉ plan.deletableMemberIds true) :
    verifyChain (mongoNodes (remaining manifests plan)) base.id =
        verifyChain (mongoNodes manifests) base.id ∧
      ∀ targetUnix,
        pitrMapping (mongoNodes (remaining manifests plan)) base.id targetUnix =
          pitrMapping (mongoNodes manifests) base.id targetUnix := by
  have hremains : base ∈ remaining manifests plan :=
    mem_remaining.mpr ⟨hbase, hleft base hbase (Or.inl rfl)⟩
  have hfind := findNode_mongoNodes hids hbase hkind
  have hfindLeft := findNode_mongoNodes (remaining_nodup hids plan) hremains
    hkind
  have hincrementals :
      incrementalsOf (mongoNodes (remaining manifests plan)) base.id =
        incrementalsOf (mongoNodes manifests) base.id := by
    rw [incrementalsOf, incrementalsOf]
    congr 1
    rw [mongoNodes, mongoNodes, remaining, List.filter_map, List.filter_map,
      List.filter_filter, List.filter_filter, List.filter_filter]
    congr 1
    apply List.filter_congr
    intro m hm
    have hstays : m.backupType = .incremental ∧ m.baseId = some base.id →
        m.id ∉ plan.deletableMemberIds true :=
      fun hnames => hleft m hm (Or.inr hnames)
    rw [Bool.eq_iff_iff]
    simp only [Bool.and_eq_true, Function.comp_apply, decide_eq_true_eq,
      ChainNode.fromManifest]
    exact ⟨And.left, fun hnames =>
      ⟨hnames, hstays (of_decide_eq_true hnames.1)⟩⟩
  have hreport : verifyChain (mongoNodes (remaining manifests plan)) base.id =
      verifyChain (mongoNodes manifests) base.id := by
    rw [verifyChain_full hfindLeft hfull, verifyChain_full hfind hfull,
      reportForBase, reportForBase, hfindLeft, hfind]
    simp only [hincrementals]
  refine ⟨hreport, fun targetUnix => ?_⟩
  rw [pitrMapping, pitrMapping, hfindLeft, hfind,
    orderedSlices_of_verifyChain (mongoNodes_nodup (remaining_nodup hids plan))
      hfindLeft hfull,
    orderedSlices_of_verifyChain (mongoNodes_nodup hids) hfind hfull,
    hincrementals]

variable {orphanIds : List String}
  (horphans : ∀ m ∈ manifests, m.id ∉ orphanIds)

include horphans

theorem windowHolds_of_succeeded (wallClock : ℤ → String)
    (hsucceeded : BaseIsSucceeded parse manifests) (policy : RetentionPolicy)
    (nowSecs : ℤ) :
    WindowHolds wallClock manifests policy nowSecs
      (planPrune parse manifests orphanIds policy nowSecs) := by
  intro days hdays targetUnix hfrom hto baseId hselect hcontinuous
  obtain ⟨node, hbest, rfl⟩ := selectBaseBefore_eq_ok_iff.mp hselect
  obtain ⟨base, hbase, hkind, rfl⟩ := mem_mongoNodes.mp hbest.listed
  have hfull : base.backupType = .full :=
    (reachableBase_iff.mp hbest.allowed).1
  have hopens := opensChain_of_continuous (findNode_mongoNodes hids hbase hkind)
    hfull hcontinuous
  have hkept : Retained policy nowSecs (chainsOf parse manifests)
      (chainOf parse manifests base) := by
    by_contra hdropped
    -- a dropped chain ended before the window and does not cover its start
    have hstale : (chainOf parse manifests base).newestCreated.val <
        cutoff nowSecs days := by
      by_contra hfresh
      exact hdropped (Or.inr (by simp [keptByRules, hdays, not_lt.mp hfresh]))
    have hold : (chainOf parse manifests base).baseCreated.val ≤
        (chainOf parse manifests base).newestCreated.val :=
      baseCreated_le_newest hids hbase
    have huncovered : ¬ coversWindow policy nowSecs (chainsOf parse manifests)
        (chainOf parse manifests base) = true := by
      intro hcovers
      exact hdropped (Or.inr (by simp [keptByRules, hcovers]))
    have hstarted : (chainOf parse manifests base).baseCreated.val ≤
        cutoff nowSecs days := by omega
    simp only [coversWindow, hdays, Option.any_some, hstarted, true_and,
      decide_eq_true_eq, List.all_eq_true, mem_ahead, not_forall, not_lt,
      exists_prop, mem_chainsOf] at huncovered
    obtain ⟨_, ⟨⟨full, hlisted, hfullOpens, rfl⟩, hahead⟩, hcreated⟩ :=
      huncovered
    obtain ⟨later, hlater, hreach, hlt⟩ := hsucceeded base hbase hkind
      hcontinuous full hlisted hfullOpens hahead targetUnix hbest.allowed
      (by omega) (by omega)
    exact absurd (hbest.greatest later hlater hreach) (not_le.mpr hlt)
  have hleft : ∀ m ∈ manifests, ChainMember m base →
      m.id ∉ (planPrune parse manifests orphanIds policy
        nowSecs).deletableMemberIds true := by
    intro m hm hin
    rw [deletable_iff_of_chainMember hids horphans hm hbase hopens hin]
    exact not_not_intro hkept
  obtain ⟨hreport, hmapping⟩ := verifyChain_remaining hids hbase hkind hfull hleft
  refine ⟨?_, ?_, hmapping targetUnix⟩
  · refine selectBaseBefore_eq_ok_iff.mpr ⟨_, hbest.of_subset ?_ ?_, rfl⟩
    · intro other hother
      obtain ⟨m, hm, hmongo, rfl⟩ := mem_mongoNodes.mp hother
      exact mem_mongoNodes.mpr ⟨m, (mem_remaining.mp hm).1, hmongo, rfl⟩
    · exact mem_mongoNodes.mpr ⟨base, mem_remaining.mpr
        ⟨hbase, hleft base hbase (Or.inl rfl)⟩, hkind, rfl⟩
  · change (verifyChain _ base.id).isContinuous = true
    rw [hreport]
    exact hcontinuous

/-- A window of no days, seen from the instant itself, tells whether the base
is succeeded. -/
theorem succeeded_of_windowHolds {wallClock : ℤ → String}
    (hholds : ∀ policy nowSecs, WindowHolds wallClock manifests policy nowSecs
      (planPrune parse manifests orphanIds policy nowSecs)) :
    BaseIsSucceeded parse manifests := by
  intro base hbase hkind hcontinuous full hlisted hfullOpens hahead targetUnix
    hreach hstale hcreated
  by_contra hnone
  simp only [not_exists, not_and, not_lt] at hnone
  have hopens := opensChain_of_continuous (findNode_mongoNodes hids hbase hkind)
    (reachableBase_iff.mp hreach).1 hcontinuous
  have hbest : Best ChainNode.baseKey (ReachableBase · targetUnix)
      (mongoNodes manifests) (.fromManifest base) :=
    ⟨mem_mongoNodes.mpr ⟨base, hbase, hkind, rfl⟩, hreach, hnone⟩
  have hselect : selectBaseBefore wallClock (mongoNodes manifests) targetUnix =
      .ok base.id := selectBaseBefore_eq_ok_iff.mpr ⟨_, hbest, rfl⟩
  obtain ⟨hafter, -, -⟩ := hholds (windowOnly 0) targetUnix 0 rfl targetUnix
    (by simp [cutoff]) le_rfl base.id hselect hcontinuous
  obtain ⟨node, hleft, hid⟩ := selectBaseBefore_eq_ok_iff.mp hafter
  obtain ⟨m, hm, -, rfl⟩ := mem_mongoNodes.mp hleft.listed
  obtain ⟨-, hkept⟩ := mem_remaining.mp hm
  have hsameId : m.id = base.id := hid
  rw [hsameId,
    deletable_iff_of_chainMember hids horphans hbase hbase hopens (Or.inl rfl),
    not_not, retained_windowOnly, cutoff] at hkept
  rcases hkept with hfresh | hcovers
  · omega
  · simp only [coversWindow, windowOnly, Option.any_some, decide_eq_true_eq,
      List.all_eq_true, mem_ahead] at hcovers
    have hlate := hcovers.2 _
      ⟨mem_chainsOf.mpr ⟨full, hlisted, hfullOpens, rfl⟩, hahead⟩
    rw [cutoff] at hlate
    omega

end Window

/-- The recovery window survives every prune of a catalog exactly when each
base is succeeded by the full backups that outrank it. -/
theorem planPrune_windowHolds_iff (parse : String → Option I64)
    (wallClock : ℤ → String) (manifests : List BackupManifest)
    (orphanIds : List String)
    (hids : (manifests.map BackupManifest.id).Nodup)
    (horphans : ∀ m ∈ manifests, m.id ∉ orphanIds) :
    (∀ policy nowSecs, WindowHolds wallClock manifests policy nowSecs
      (planPrune parse manifests orphanIds policy nowSecs)) ↔
      BaseIsSucceeded parse manifests := by
  constructor
  · intro hholds
    exact succeeded_of_windowHolds hids horphans hholds
  · intro hsucceeded policy nowSecs
    exact windowHolds_of_succeeded hids horphans wallClock hsucceeded policy
      nowSecs

theorem planPrune_windowHolds_plain :
    (∀ policy nowSecs, WindowHolds (fun _ => "") plachainMember policy nowSecs
      (planPrune january plachainMember ["lost"] policy nowSecs)) ↔
      BaseIsSucceeded january plachainMember :=
  planPrune_windowHolds_iff january (fun _ => "") plachainMember ["lost"]
    (by decide) (by decide)

/-- Full backups are created in the order of their oplog ends, and none before
its end. -/
structure CreatedInOrder (parse : String → Option I64)
    (manifests : List BackupManifest) : Prop where
  parseable : ∀ m ∈ manifests, (createdSecs parse m).isSome
  endsBefore : ∀ m ∈ manifests, m.backupType = .full →
    ∀ range, m.oplogRange = some range → ∀ created,
      createdSecs parse m = some created →
        (range.endTs.t.toNat : ℤ) ≤ created.val
  ordered : ∀ left ∈ manifests, ∀ right ∈ manifests,
    left.backupType = .full → right.backupType = .full →
    ∀ leftRange, left.oplogRange = some leftRange →
    ∀ rightRange, right.oplogRange = some rightRange →
      (∀ leftCreated, createdSecs parse left = some leftCreated →
        ∀ rightCreated, createdSecs parse right = some rightCreated →
          (leftCreated.val < rightCreated.val ↔
            leftRange.endTs < rightRange.endTs))

/-! The only base of a catalog, and a selective full taken the day after. -/
namespace OutrankedBase

def base : BackupManifest :=
  { plainFull "base" "2024-01-01T00:00:00Z" with
    oplogRange := some ⟨⟨1704067100, 1⟩, ⟨1704067200, 1⟩⟩ }

def part : BackupManifest :=
  { plainFull "part" "2024-01-02T00:00:00Z" with selective := true }

def manifests : List BackupManifest := [base, part]

theorem ids_nodup : (manifests.map BackupManifest.id).Nodup := by decide

theorem incrementalsOf_nil {nodes : List ChainNode}
    (hnodes : ∀ node ∈ nodes, node.backupType = .full) (baseId : String) :
    incrementalsOf nodes baseId = [] := by
  rw [incrementalsOf, List.filter_eq_nil_iff.mpr, List.mergeSort_nil]
  intro node hnode
  simp [hnodes node hnode]

theorem newest_base :
    (chainOf january manifests base).newestCreated.val = 1704067200 := by
  rw [chainOf, chainGroup]
  dsimp only
  rw [chainReport_incrementalIds (by simp [manifests]) (by decide)
      (own_id ids_nodup (by simp [manifests])),
    incrementalsOf_nil (by decide)]
  decide

theorem verifyChain_base :
    verifyChain (mongoNodes manifests) base.id = ⟨"base", [], [], []⟩ := by
  have hfind : findNode (mongoNodes manifests) base.id =
      some (.fromManifest base) :=
    findNode_mongoNodes ids_nodup (by simp [manifests]) (by decide)
  rw [verifyChain_full hfind rfl, reportForBase, hfind]
  simp only [incrementalsOf_nil (show ∀ node ∈ mongoNodes manifests,
    node.backupType = .full by decide)]
  decide

theorem not_succeeded : ¬ BaseIsSucceeded january manifests := by
  intro hsucceeded
  obtain ⟨later, hlater, hreach, hlt⟩ := hsucceeded base (by simp [manifests])
    (by decide) (by rw [verifyChain_base]; rfl) part (by simp [manifests])
    (by decide) (by decide) 1704153600
    (reachableBase_iff.mpr ⟨rfl, rfl, _, rfl, by decide⟩)
    (by rw [newest_base]; decide) (by decide)
  obtain ⟨m, hm, -, rfl⟩ := mem_mongoNodes.mp hlater
  rcases List.mem_pair.mp hm with rfl | rfl
  · exact lt_irrefl _ hlt
  · have hwhole := (reachableBase_iff.mp hreach).2.1
    cases hwhole

theorem createdInOrder : CreatedInOrder january manifests where
  parseable := by decide
  endsBefore := by
    rintro m hm - range hrange created hcreated
    rcases List.mem_pair.mp hm with rfl | rfl
    · cases hrange
      cases hcreated
      decide
    · cases hrange
  ordered := by
    rintro left hleft right hright - - leftRange hleftRange rightRange
      hrightRange leftCreated hleftCreated rightCreated hrightCreated
    rcases List.mem_pair.mp hleft with rfl | rfl
    · rcases List.mem_pair.mp hright with rfl | rfl
      · cases hleftRange
        cases hrightRange
        cases hleftCreated
        cases hrightCreated
        simp
      · cases hrightRange
    · cases hleftRange

end OutrankedBase

/-- The selective full takes the place of the base at the start of the window,
and the base is deleted. -/
theorem planPrune_breaksWindow :
    ¬ ∀ (parse : String → Option I64) (wallClock : ℤ → String)
      (manifests : List BackupManifest) (orphanIds : List String)
      (policy : RetentionPolicy) (nowSecs : ℤ),
      (manifests.map BackupManifest.id).Nodup →
      (∀ m ∈ manifests, m.id ∉ orphanIds) →
      CreatedInOrder parse manifests →
      WindowHolds wallClock manifests policy nowSecs
        (planPrune parse manifests orphanIds policy nowSecs) := by
  intro hholds
  apply OutrankedBase.not_succeeded
  apply @succeeded_of_windowHolds january OutrankedBase.manifests
    OutrankedBase.ids_nodup [] (by decide) (fun _ => "")
  intro policy nowSecs
  exact hholds january (fun _ => "") OutrankedBase.manifests [] policy nowSecs
    OutrankedBase.ids_nodup (by decide) OutrankedBase.createdInOrder

end XBackup
