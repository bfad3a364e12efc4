/-
Chain safety of the retention plan on catalogs with distinct ids: which backups
a plan deletes, and the catalogs on which no plan takes the base of an
increment it leaves.
-/
import XBackup.Pipeline.Prune

namespace XBackup

open Ranking

/-- The backup opens the chain or is an increment that names its opener. -/
def ChainMember (m base : BackupManifest) : Prop :=
  m = base ∨ m.backupType = .incremental ∧ m.baseId = some base.id

def chainOf (parse : String → Option I64) (manifests : List BackupManifest)
    (base : BackupManifest) : ChainGroup :=
  chainGroup parse manifests base (chainReport manifests base.id)

/-- The backup belongs to no chain of the catalog. -/
def Unchained (manifests : List BackupManifest) (m : BackupManifest) : Prop :=
  ∀ base ∈ manifests, opensChain base = true → ¬ ChainMember m base

theorem opensChain_iff {m : BackupManifest} :
    opensChain m = true ↔ m.backupType = .full ∧ m.status ≠ .incomplete := by
  simp [opensChain]

theorem ChainMember.eq_of_full {m base : BackupManifest} (hin : ChainMember m base)
    (hfull : m.backupType = .full) : m = base := by
  rcases hin with heq | ⟨hincr, -⟩
  · exact heq
  · rw [hfull] at hincr
    cases hincr

@[simp] theorem chainOf_baseId (parse : String → Option I64)
    (manifests : List BackupManifest) (base : BackupManifest) :
    (chainOf parse manifests base).baseId = base.id := rfl

theorem mem_chainsOf {parse : String → Option I64}
    {manifests : List BackupManifest} {chain : ChainGroup} :
    chain ∈ chainsOf parse manifests ↔
      ∃ base ∈ manifests, opensChain base = true ∧
        chainOf parse manifests base = chain := by
  simp [chainsOf, chainOf, and_assoc]

/-- Full backups that open no chain have none. -/
theorem unchained_of_full {m : BackupManifest}
    (hfull : m.backupType = .full) (hcloses : ¬ opensChain m = true) :
    Unchained manifests m := by
  intro base _ hopens hin
  rw [hin.eq_of_full hfull] at hcloses
  exact hcloses hopens

section OwnId

variable {parse : String → Option I64} {manifests : List BackupManifest}
  {base : BackupManifest} (hbase : base ∈ manifests)
  (hopens : opensChain base = true)
  (hown : ∀ m ∈ manifests, m.id = base.id → m = base)

include hbase hopens hown

/-- The report of a base that its id finds. -/
theorem chainReport_incrementalIds :
    (chainReport manifests base.id).incrementalIds =
      (incrementalsOf (manifests.map ChainNode.fromManifest) base.id).map
        ChainNode.id := by
  have hfind : lastNode (manifests.map ChainNode.fromManifest) base.id =
      some (ChainNode.fromManifest base) := by
    apply lastNode_of_own (List.mem_map_of_mem hbase)
    intro other hother hid
    obtain ⟨m, hm, rfl⟩ := List.mem_map.mp hother
    rw [hown m hm hid]
  have htarget : (ChainNode.fromManifest base).baseOf = .base base.id := by
    rw [ChainNode.baseOf]
    simp only [ChainNode.fromManifest, (opensChain_iff.mp hopens).1]
  simp only [chainReport, reportBy, hfind, Option.elim_some, htarget,
    reportWith]

theorem mem_memberIds {id : String} :
    id ∈ (chainOf parse manifests base).memberIds ↔
      ∃ m ∈ manifests, ChainMember m base ∧ m.id = id := by
  rw [chainOf, chainGroup]
  dsimp only
  rw [List.mem_cons, chainReport_incrementalIds hbase hopens hown]
  simp only [List.mem_map, mem_incrementalsOf]
  constructor
  · rintro (rfl | ⟨node, ⟨⟨m, hm, rfl⟩, hincr, hbaseId⟩, rfl⟩)
    · exact ⟨base, hbase, Or.inl rfl, rfl⟩
    · exact ⟨m, hm, Or.inr ⟨hincr, hbaseId⟩, rfl⟩
  · rintro ⟨m, hm, rfl | ⟨hincr, hbaseId⟩, rfl⟩
    · exact Or.inl rfl
    · exact Or.inr ⟨_, ⟨⟨m, hm, rfl⟩, hincr, hbaseId⟩, rfl⟩

end OwnId

section Openers

variable {parse : String → Option I64} {manifests : List BackupManifest}
  (hopeners : ((manifests.filter opensChain).map BackupManifest.id).Nodup)

include hopeners

/-- A backup is in one chain at most. -/
theorem opener_unique {m left right : BackupManifest}
    (hleft : left ∈ manifests) (hright : right ∈ manifests)
    (hleftOpens : opensChain left = true)
    (hrightOpens : opensChain right = true) (hinLeft : ChainMember m left)
    (hinRight : ChainMember m right) : left = right := by
  have hleftFull := (opensChain_iff.mp hleftOpens).1
  have hrightFull := (opensChain_iff.mp hrightOpens).1
  rcases hinLeft with rfl | ⟨hincr, hleftBase⟩
  · exact hinRight.eq_of_full hleftFull
  · rcases hinRight with rfl | ⟨-, hrightBase⟩
    · rw [hrightFull] at hincr
      cases hincr
    · rw [hleftBase] at hrightBase
      exact List.inj_on_of_nodup_map hopeners
        (List.mem_filter.mpr ⟨hleft, hleftOpens⟩)
        (List.mem_filter.mpr ⟨hright, hrightOpens⟩)
        (Option.some.inj hrightBase)

theorem chainsOf_baseIds_nodup :
    ((chainsOf parse manifests).map ChainGroup.baseId).Nodup := by
  rw [chainsOf, List.map_map]
  exact hopeners

theorem rankedChains_strict :
    (rankedChains parse manifests).Pairwise fun left right =>
      left.rankKey < right.rankKey := by
  apply sorted_strict (rankChains_sorted _)
  have hperm := (rankChains_perm (chainsOf parse manifests)).map
    ChainGroup.rankKey
  rw [hperm.nodup_iff]
  apply List.Nodup.of_map fun key => (ofLex key).2
  rw [List.map_map]
  exact chainsOf_baseIds_nodup hopeners

/-- Every chain is judged, as `Retained` says. -/
theorem mem_judgedChains {policy : RetentionPolicy} {nowSecs : ℤ}
    {verdict : Bool} {chain : ChainGroup} :
    chain ∈ judgedChains parse manifests policy nowSecs verdict ↔
      chain ∈ chainsOf parse manifests ∧
        (Retained policy nowSecs (chainsOf parse manifests) chain ↔
          verdict = true) := by
  have hperm : (rankedChains parse manifests).Perm (chainsOf parse manifests) :=
    rankChains_perm _
  have hverdict : ∀ place ∈ places 0 0 (rankedChains parse manifests),
      (keptAt policy nowSecs (boundaryIdx policy nowSecs
          (rankedChains parse manifests)) place == verdict) = true ↔
        (Retained policy nowSecs (chainsOf parse manifests) place.chain ↔
          verdict = true) := by
    intro place hplace
    rw [← retained_perm hperm,
      ← keptAt_place_iff (rankedChains_strict hopeners) hplace, beq_iff_eq,
      Bool.eq_iff_iff]
  rw [judgedChains, judgedPlaces, List.mem_map]
  constructor
  · rintro ⟨place, hplace, rfl⟩
    obtain ⟨hlisted, hkept⟩ := List.mem_filter.mp hplace
    refine ⟨hperm.mem_iff.mp ?_, (hverdict place hlisted).mp hkept⟩
    rw [← map_chain_places 0 0 (rankedChains parse manifests)]
    exact List.mem_map_of_mem hlisted
  · rintro ⟨hchain, hretained⟩
    rw [← hperm.mem_iff,
      ← map_chain_places 0 0 (rankedChains parse manifests)] at hchain
    obtain ⟨place, hplace, rfl⟩ := List.mem_map.mp hchain
    exact ⟨place, List.mem_filter.mpr
      ⟨hplace, (hverdict place hplace).mpr hretained⟩, rfl⟩

theorem mem_keptBaseIds {orphanIds : List String} {policy : RetentionPolicy}
    {nowSecs : ℤ} {id : String} :
    id ∈ (planPrune parse manifests orphanIds policy nowSecs).keptBaseIds ↔
      ∃ base ∈ manifests, opensChain base = true ∧
        Retained policy nowSecs (chainsOf parse manifests)
          (chainOf parse manifests base) ∧ base.id = id := by
  rw [planPrune_eq, List.mem_map]
  simp only [mem_judgedChains hopeners, iff_true, mem_chainsOf]
  constructor
  · rintro ⟨chain, ⟨⟨base, hbase, hopens, rfl⟩, hkept⟩, rfl⟩
    exact ⟨base, hbase, hopens, hkept, rfl⟩
  · rintro ⟨base, hbase, hopens, hkept, rfl⟩
    exact ⟨_, ⟨⟨base, hbase, hopens, rfl⟩, hkept⟩, rfl⟩

/-- The plan deletes the ids of the chains it does not keep and, with
`--force`, those of the remnants and the orphans. -/
theorem mem_deletable_iff {orphanIds : List String} {policy : RetentionPolicy}
    {nowSecs : ℤ} {includeForceOnly : Bool} {id : String} :
    id ∈ (planPrune parse manifests orphanIds policy
        nowSecs).deletableMemberIds includeForceOnly ↔
      (∃ base ∈ manifests, opensChain base = true ∧
        id ∈ (chainOf parse manifests base).memberIds ∧
        ¬ Retained policy nowSecs (chainsOf parse manifests)
          (chainOf parse manifests base)) ∨
      includeForceOnly = true ∧
        (id ∈ (remnants parse manifests).map BackupManifest.id ∨
          id ∈ orphanIds) := by
  rw [deletableMemberIds_eq, List.mem_append, List.mem_flatMap]
  apply or_congr
  · simp only [mem_judgedChains hopeners, Bool.false_eq_true, iff_false,
      mem_chainsOf]
    constructor
    · rintro ⟨_, ⟨⟨base, hbase, hopens, rfl⟩, hdropped⟩, hmember⟩
      exact ⟨base, hbase, hopens, hmember, hdropped⟩
    · rintro ⟨base, hbase, hopens, hmember, hdropped⟩
      exact ⟨_, ⟨⟨base, hbase, hopens, rfl⟩, hdropped⟩, hmember⟩
  · cases includeForceOnly with
    | false => simp
    | true => simp only [if_true, List.mem_append, true_and]

end Openers

section Distinct

variable {parse : String → Option I64} {manifests : List BackupManifest}
  (hids : (manifests.map BackupManifest.id).Nodup)

include hids

theorem eq_of_id {left right : BackupManifest} (hleft : left ∈ manifests)
    (hright : right ∈ manifests) (hid : left.id = right.id) : left = right :=
  List.inj_on_of_nodup_map hids hleft hright hid

theorem openers_nodup :
    ((manifests.filter opensChain).map BackupManifest.id).Nodup :=
  hids.sublist (List.filter_sublist.map BackupManifest.id)

theorem own_id {base : BackupManifest} (hbase : base ∈ manifests) :
    ∀ m ∈ manifests, m.id = base.id → m = base :=
  fun _ hm => eq_of_id hids hm hbase

theorem nodes_nodup :
    ((manifests.map ChainNode.fromManifest).map ChainNode.id).Nodup := by
  rw [List.map_map]
  exact hids

theorem chainMember_of_mem_memberIds {m base : BackupManifest}
    (hm : m ∈ manifests) (hbase : base ∈ manifests)
    (hopens : opensChain base = true) :
    m.id ∈ (chainOf parse manifests base).memberIds ↔ ChainMember m base := by
  rw [mem_memberIds hbase hopens (own_id hids hbase)]
  constructor
  · rintro ⟨other, hother, hin, hid⟩
    rwa [← eq_of_id hids hother hm hid]
  · intro hin
    exact ⟨m, hm, hin, rfl⟩

theorem mem_members_rankedChains {m : BackupManifest} (hm : m ∈ manifests) :
    m.id ∈ (rankedChains parse manifests).flatMap ChainGroup.memberIds ↔
      ¬ Unchained manifests m := by
  have hperm : (rankedChains parse manifests).Perm (chainsOf parse manifests) :=
    rankChains_perm _
  rw [List.mem_flatMap]
  simp only [hperm.mem_iff, mem_chainsOf, Unchained, not_forall, not_not,
    exists_prop]
  constructor
  · rintro ⟨_, ⟨base, hbase, hopens, rfl⟩, hmember⟩
    exact ⟨base, hbase, hopens,
      (chainMember_of_mem_memberIds hids hm hbase hopens).mp hmember⟩
  · rintro ⟨base, hbase, hopens, hin⟩
    exact ⟨_, ⟨base, hbase, hopens, rfl⟩,
      (chainMember_of_mem_memberIds hids hm hbase hopens).mpr hin⟩

theorem mem_remnants {m : BackupManifest} :
    m ∈ remnants parse manifests ↔
      m ∈ manifests ∧ m.status = .incomplete ∧ Unchained manifests m := by
  rw [remnants, List.mem_filter, decide_eq_true_iff]
  refine and_congr_right fun hm => and_congr_right fun _ => ?_
  rw [mem_members_rankedChains hids hm, not_not]

/-- The plan deletes the backups of the chains it does not keep and, with
`--force`, the incomplete ones without a chain and the orphans. -/
theorem mem_deletable {orphanIds : List String} {policy : RetentionPolicy}
    {nowSecs : ℤ} {includeForceOnly : Bool} {m : BackupManifest}
    (hm : m ∈ manifests) :
    m.id ∈ (planPrune parse manifests orphanIds policy
        nowSecs).deletableMemberIds includeForceOnly ↔
      (∃ base ∈ manifests, opensChain base = true ∧ ChainMember m base ∧
        ¬ Retained policy nowSecs (chainsOf parse manifests)
          (chainOf parse manifests base)) ∨
      includeForceOnly = true ∧
        (m.status = .incomplete ∧ Unchained manifests m ∨
          m.id ∈ orphanIds) := by
  rw [mem_deletable_iff (openers_nodup hids)]
  apply or_congr
  · refine exists_congr fun base => and_congr_right fun hbase =>
      and_congr_right fun hopens => and_congr_left fun _ => ?_
    exact chainMember_of_mem_memberIds hids hm hbase hopens
  · refine and_congr_right fun _ => or_congr_left ?_
    rw [List.mem_map]
    constructor
    · rintro ⟨other, hother, hid⟩
      obtain ⟨hlisted, hleft⟩ := (mem_remnants hids).mp hother
      rwa [eq_of_id hids hlisted hm hid] at hleft
    · intro hleft
      exact ⟨m, (mem_remnants hids).mpr ⟨hm, hleft⟩, rfl⟩

theorem memberIds_nodup {base : BackupManifest} (hbase : base ∈ manifests)
    (hopens : opensChain base = true) :
    (chainOf parse manifests base).memberIds.Nodup := by
  rw [chainOf, chainGroup]
  dsimp only
  rw [chainReport_incrementalIds hbase hopens (own_id hids hbase),
    List.nodup_cons]
  refine ⟨?_, incrementalsOf_ids_nodup (nodes_nodup hids) base.id⟩
  intro hmember
  obtain ⟨node, hnode, hid⟩ := List.mem_map.mp hmember
  obtain ⟨hlisted, hincr, -⟩ := mem_incrementalsOf.mp hnode
  obtain ⟨m, hm, rfl⟩ := List.mem_map.mp hlisted
  have hsame : m = base := eq_of_id hids hm hbase hid
  have hfull := (opensChain_iff.mp hopens).1
  rw [← hsame] at hfull
  exact absurd (hfull.symm.trans hincr) (by decide)

/-- No backup is listed twice among the chains. -/
theorem rankedChains_members_nodup :
    ((rankedChains parse manifests).flatMap ChainGroup.memberIds).Nodup := by
  have hperm : (rankedChains parse manifests).Perm (chainsOf parse manifests) :=
    rankChains_perm _
  rw [List.nodup_flatMap]
  constructor
  · intro chain hchain
    obtain ⟨base, hbase, hopens, rfl⟩ := mem_chainsOf.mp
      (hperm.mem_iff.mp hchain)
    exact memberIds_nodup hids hbase hopens
  · have hstrict : (rankedChains parse manifests).Pairwise
        fun left right => left ≠ right :=
      (rankedChains_strict (openers_nodup hids)).imp fun hlt heq => hlt.ne (by rw [heq])
    refine hstrict.imp_of_mem ?_
    intro left right hleft hright hne
    obtain ⟨leftBase, hleftBase, hleftOpens, rfl⟩ := mem_chainsOf.mp
      (hperm.mem_iff.mp hleft)
    obtain ⟨rightBase, hrightBase, hrightOpens, rfl⟩ := mem_chainsOf.mp
      (hperm.mem_iff.mp hright)
    rw [Function.onFun, List.disjoint_iff_ne]
    rintro id hidLeft _ hidRight rfl
    obtain ⟨m, hm, hin, rfl⟩ :=
      (mem_memberIds hleftBase hleftOpens (own_id hids hleftBase)).mp hidLeft
    have hinRight := (chainMember_of_mem_memberIds hids hm hrightBase
      hrightOpens).mp hidRight
    exact hne (congrArg _ (opener_unique (openers_nodup hids) hleftBase hrightBase hleftOpens
      hrightOpens hin hinRight))

/-- An increment has no chain where the backup it names opens none. -/
theorem unchained_of_base {incr base : BackupManifest}
    (hbase : base ∈ manifests) (hincr : incr.backupType = .incremental)
    (hnames : incr.baseId = some base.id) (hcloses : ¬ opensChain base = true) :
    Unchained manifests incr := by
  rintro opener hopener hopens (rfl | ⟨-, hother⟩)
  · rw [(opensChain_iff.mp hopens).1] at hincr
    cases hincr
  · rw [hnames] at hother
    rw [eq_of_id hids hbase hopener (Option.some.inj hother)] at hcloses
    exact hcloses hopens

/-- A chain is never newer at its base than at its newest member. -/
theorem baseCreated_le_newest {base : BackupManifest}
    (hbase : base ∈ manifests) :
    (chainOf parse manifests base).baseCreated ≤
      (chainOf parse manifests base).newestCreated := by
  rw [chainOf, chainGroup]
  dsimp only
  cases hcreated : createdSecs parse base with
  | none => exact I64.min_le _
  | some created =>
      have hfind : manifests.find? (·.id = base.id) = some base := by
        cases hfound : manifests.find? (·.id = base.id) with
        | none => simpa using List.find?_eq_none.mp hfound base hbase
        | some other =>
            rw [eq_of_id hids (List.mem_of_find?_eq_some hfound) hbase
              (by simpa using List.find?_some hfound)]
      apply le_newestOr
      apply List.mem_filterMap.mpr ⟨base, ?_, hcreated⟩
      exact List.mem_filterMap.mpr ⟨base.id, List.mem_cons_self, hfind⟩

end Distinct

section Rank

variable {chains : List ChainGroup} {left right : ChainGroup}

theorem ahead_sublist (hlt : left.rankKey < right.rankKey) :
    (ahead ChainGroup.rankKey chains left).Sublist
      (ahead ChainGroup.rankKey chains right) := by
  apply List.monotone_filter_right
  intro other hother
  exact decide_eq_true ((of_decide_eq_true hother).trans hlt)

theorem backupCount_sublist {fewer more : List ChainGroup}
    (hsub : fewer.Sublist more) : backupCount fewer ≤ backupCount more :=
  (hsub.map _).sum_le_sum (fun _ _ => Nat.zero_le _)

/-- A chain ranked ahead of a kept one, and no staler, is kept. -/
theorem retained_of_ahead {policy : RetentionPolicy} {nowSecs : ℤ}
    (hleft : left ∈ chains) (hcreated : left.baseCreated ≤ left.newestCreated)
    (hlt : left.rankKey < right.rankKey)
    (hnewest : right.newestCreated ≤ left.newestCreated)
    (hretained : Retained policy nowSecs chains right) :
    Retained policy nowSecs chains left := by
  have hsub : (ahead ChainGroup.rankKey chains left).Sublist
      (ahead ChainGroup.rankKey chains right) := ahead_sublist hlt
  have hlength := hsub.length_le
  have hcount := backupCount_sublist hsub
  have hval : right.newestCreated.val ≤ left.newestCreated.val := hnewest
  refine hretained.imp_right fun hkept => ?_
  simp only [keptByRules, Bool.or_eq_true, Option.any_eq_true,
    decide_eq_true_eq, or_assoc] at hkept ⊢
  rcases hkept with ⟨n, hn, hidx⟩ | ⟨d, hd, hin⟩ | ⟨n, hn, hbefore⟩ |
    ⟨d, hd, hin⟩ | hcovers | ⟨m, hm, hidx⟩
  · exact Or.inl ⟨n, hn, by omega⟩
  · exact Or.inr (Or.inl ⟨d, hd, by omega⟩)
  · exact Or.inr (Or.inr (Or.inl ⟨n, hn, by omega⟩))
  · exact Or.inr (Or.inr (Or.inr (Or.inl ⟨d, hd, by omega⟩)))
  · -- ahead of the chain that covers the window everything starts inside it
    rw [coversWindow, Option.any_eq_true] at hcovers
    obtain ⟨d, hd, hcovers⟩ := hcovers
    simp only [decide_eq_true_eq, List.all_eq_true, mem_ahead] at hcovers
    have hinside := hcovers.2 left ⟨hleft, hlt⟩
    have hval : left.baseCreated.val ≤ left.newestCreated.val := hcreated
    exact Or.inr (Or.inr (Or.inr (Or.inl ⟨d, hd, by omega⟩)))
  · exact Or.inr (Or.inr (Or.inr (Or.inr (Or.inr ⟨m, hm, by omega⟩))))

end Rank

/-- What a plan promises: nothing is listed twice, no target holds a member of
a kept chain, and no increment is left without the base it had. -/
structure ChainSafe (manifests : List BackupManifest) (plan : PrunePlan) :
    Prop where
  listedOnce : (plan.targets.flatMap PruneTarget.memberIds).Nodup
  keptUntouched : ∀ m ∈ manifests,
    (m.id ∈ plan.keptBaseIds ∨
      ∃ baseId ∈ plan.keptBaseIds, m.baseId = some baseId) →
    ∀ target ∈ plan.targets, m.id ∉ target.memberIds
  basesLeft : ∀ includeForceOnly, ∀ incr ∈ manifests, ∀ base ∈ manifests,
    incr.backupType = .incremental → incr.baseId = some base.id →
    incr.id ∉ plan.deletableMemberIds includeForceOnly →
    base.id ∉ plan.deletableMemberIds includeForceOnly

/-- A full backup that names the base of another chain is complete, ranks
ahead of that chain and is no staler. -/
def FullsKeepUp (parse : String → Option I64)
    (manifests : List BackupManifest) : Prop :=
  ∀ m ∈ manifests, ∀ base ∈ manifests, m ≠ base →
    m.backupType = .full → opensChain base = true →
    m.baseId = some base.id →
      m.status ≠ .incomplete ∧
        (chainOf parse manifests m).rankKey <
          (chainOf parse manifests base).rankKey ∧
        (chainOf parse manifests base).newestCreated ≤
          (chainOf parse manifests m).newestCreated

/-- Catalogs on which every plan keeps its promise: full backups keep up with
the bases they name, and an increment is never left behind by the backup it
names. -/
structure PrunableCatalog (parse : String → Option I64)
    (manifests : List BackupManifest) (orphanIds : List String) : Prop where
  orphans : orphanIds.Nodup
  fulls : FullsKeepUp parse manifests
  bases : ∀ incr ∈ manifests, ∀ base ∈ manifests, incr ≠ base →
    incr.backupType = .incremental → incr.baseId = some base.id →
      opensChain base = true ∨
        Unchained manifests base ∧
          (base.status ≠ .incomplete ∨ incr.status = .incomplete)

theorem deletable_true (plan : PrunePlan) :
    plan.deletableMemberIds true =
      plan.targets.flatMap PruneTarget.memberIds := by
  simp [PrunePlan.deletableMemberIds]

section Safety

variable {parse : String → Option I64} {manifests : List BackupManifest}
  {orphanIds : List String}
  (hids : (manifests.map BackupManifest.id).Nodup)
  (horphans : ∀ m ∈ manifests, m.id ∉ orphanIds)

include hids horphans

theorem deletable_nodup {policy : RetentionPolicy} {nowSecs : ℤ}
    (hnodup : orphanIds.Nodup) :
    ((planPrune parse manifests orphanIds policy
      nowSecs).deletableMemberIds true).Nodup := by
  rw [deletableMemberIds_eq, if_pos rfl, List.nodup_append,
    List.nodup_append]
  refine ⟨?_, ⟨?_, hnodup, ?_⟩, ?_⟩
  · exact (rankedChains_members_nodup hids).sublist
      ((judgedChains_sublist parse manifests policy nowSecs false).flatMap
        ChainGroup.memberIds)
  · exact hids.sublist (List.filter_sublist.map BackupManifest.id)
  · rintro id hremnant other horphan rfl
    obtain ⟨m, hm, rfl⟩ := List.mem_map.mp hremnant
    exact horphans m ((mem_remnants hids).mp hm).1 horphan
  · rintro id hchain other hrest rfl
    have hlisted := ((judgedChains_sublist parse manifests policy nowSecs
      false).flatMap ChainGroup.memberIds).subset hchain
    obtain ⟨chain, hmem, hmember⟩ := List.mem_flatMap.mp hlisted
    obtain ⟨base, hbase, hopens, rfl⟩ := mem_chainsOf.mp
      ((rankChains_perm _).mem_iff.mp hmem)
    obtain ⟨m, hm, -, rfl⟩ := (mem_memberIds hbase hopens
      (own_id hids hbase)).mp hmember
    rcases List.mem_append.mp hrest with hremnant | horphan
    · obtain ⟨other, hother, hid⟩ := List.mem_map.mp hremnant
      obtain ⟨hotherListed, -, hunchained⟩ := (mem_remnants hids).mp hother
      rw [eq_of_id hids hotherListed hm hid] at hunchained
      exact (mem_members_rankedChains hids hm).mp hlisted hunchained
    · exact horphans m hm horphan

/-- A backup shares the fate of its chain. -/
theorem deletable_iff_of_chainMember {policy : RetentionPolicy} {nowSecs : ℤ}
    {includeForceOnly : Bool} {m base : BackupManifest} (hm : m ∈ manifests)
    (hbase : base ∈ manifests) (hopens : opensChain base = true)
    (hin : ChainMember m base) :
    m.id ∈ (planPrune parse manifests orphanIds policy
        nowSecs).deletableMemberIds includeForceOnly ↔
      ¬ Retained policy nowSecs (chainsOf parse manifests)
        (chainOf parse manifests base) := by
  rw [mem_deletable hids hm]
  constructor
  · rintro (⟨other, hother, hotherOpens, hinOther, hdropped⟩ |
      ⟨-, ⟨-, hunchained⟩ | horphan⟩)
    · rwa [opener_unique (openers_nodup hids) hbase hother hopens hotherOpens hin hinOther]
    · exact absurd hin (hunchained base hbase hopens)
    · exact absurd horphan (horphans m hm)
  · intro hdropped
    exact Or.inl ⟨base, hbase, hopens, hin, hdropped⟩

/-- A backup without a chain goes with `--force`, if it is incomplete. -/
theorem deletable_iff_of_unchained {policy : RetentionPolicy} {nowSecs : ℤ}
    {includeForceOnly : Bool} {m : BackupManifest} (hm : m ∈ manifests)
    (hunchained : Unchained manifests m) :
    m.id ∈ (planPrune parse manifests orphanIds policy
        nowSecs).deletableMemberIds includeForceOnly ↔
      includeForceOnly = true ∧ m.status = .incomplete := by
  rw [mem_deletable hids hm]
  constructor
  · rintro (⟨base, hbase, hopens, hin, -⟩ |
      ⟨hforce, ⟨hincomplete, -⟩ | horphan⟩)
    · exact absurd hin (hunchained base hbase hopens)
    · exact ⟨hforce, hincomplete⟩
    · exact absurd horphan (horphans m hm)
  · rintro ⟨hforce, hincomplete⟩
    exact Or.inr ⟨hforce, Or.inl ⟨hincomplete, hunchained⟩⟩

theorem keptUntouched_of_fulls (hfulls : FullsKeepUp parse manifests)
    {policy : RetentionPolicy} {nowSecs : ℤ} {m base : BackupManifest}
    (hm : m ∈ manifests) (hbase : base ∈ manifests)
    (hopens : opensChain base = true)
    (hkept : Retained policy nowSecs (chainsOf parse manifests)
      (chainOf parse manifests base))
    (hmember : m = base ∨ m.baseId = some base.id) :
    m.id ∉ (planPrune parse manifests orphanIds policy
      nowSecs).deletableMemberIds true := by
  by_cases hin : ChainMember m base
  · rw [deletable_iff_of_chainMember hids horphans hm hbase hopens hin]
    exact not_not_intro hkept
  · -- what is left is another full backup that names the base
    have hother : m ≠ base := fun hsame => hin (Or.inl hsame)
    have hnames := hmember.resolve_left hother
    have hfull : m.backupType = .full := by
      cases htype : m.backupType with
      | full => rfl
      | incremental => exact absurd (Or.inr ⟨htype, hnames⟩) hin
    obtain ⟨hcomplete, hahead, hnewest⟩ :=
      hfulls m hm base hbase hother hfull hopens hnames
    have hmOpens := opensChain_iff.mpr ⟨hfull, hcomplete⟩
    rw [deletable_iff_of_chainMember hids horphans hm hm hmOpens (Or.inl rfl)]
    exact not_not_intro (retained_of_ahead
      (mem_chainsOf.mpr ⟨m, hm, hmOpens, rfl⟩) (baseCreated_le_newest hids hm)
      hahead hnewest hkept)

theorem basesLeft_of_prunable
    (hcatalog : PrunableCatalog parse manifests orphanIds)
    {policy : RetentionPolicy} {nowSecs : ℤ} {includeForceOnly : Bool}
    {incr base : BackupManifest} (hincr : incr ∈ manifests)
    (hbase : base ∈ manifests) (htype : incr.backupType = .incremental)
    (hnames : incr.baseId = some base.id)
    (hdeleted : base.id ∈ (planPrune parse manifests orphanIds policy
      nowSecs).deletableMemberIds includeForceOnly) :
    incr.id ∈ (planPrune parse manifests orphanIds policy
      nowSecs).deletableMemberIds includeForceOnly := by
  by_cases hself : incr = base
  · rwa [hself]
  by_cases hopens : opensChain base = true
  · rw [deletable_iff_of_chainMember hids horphans hbase hbase hopens
      (Or.inl rfl)] at hdeleted
    rwa [deletable_iff_of_chainMember hids horphans hincr hbase hopens
      (Or.inr ⟨htype, hnames⟩)]
  · obtain ⟨hunchained, hstatus⟩ :=
      (hcatalog.bases incr hincr base hbase hself htype hnames).resolve_left
        hopens
    obtain ⟨hforce, hincomplete⟩ :=
      (deletable_iff_of_unchained hids horphans hbase hunchained).mp hdeleted
    apply (deletable_iff_of_unchained hids horphans hincr
      (unchained_of_base hids hbase htype hnames hopens)).mpr
    exact ⟨hforce, hstatus.resolve_left (not_not_intro hincomplete)⟩

/-- On such a catalog every plan keeps its promise. -/
theorem chainSafe_of_prunable
    (hcatalog : PrunableCatalog parse manifests orphanIds)
    (policy : RetentionPolicy) (nowSecs : ℤ) :
    ChainSafe manifests
      (planPrune parse manifests orphanIds policy nowSecs) := by
  refine ⟨?_, ?_, ?_⟩
  · rw [← deletable_true]
    exact deletable_nodup hids horphans hcatalog.orphans
  · intro m hm hkept target htarget hmember
    have hdeleted : m.id ∈ (planPrune parse manifests orphanIds policy
        nowSecs).deletableMemberIds true := by
      rw [deletable_true]
      exact List.mem_flatMap.mpr ⟨target, htarget, hmember⟩
    revert hdeleted
    rcases hkept with hkept | ⟨baseId, hkept, hnames⟩
    · obtain ⟨base, hbase, hopens, hretained, hid⟩ :=
        (mem_keptBaseIds (openers_nodup hids)).mp hkept
      exact keptUntouched_of_fulls hids horphans hcatalog.fulls hm hbase hopens
        hretained (Or.inl (eq_of_id hids hm hbase hid.symm))
    · obtain ⟨base, hbase, hopens, hretained, rfl⟩ :=
        (mem_keptBaseIds (openers_nodup hids)).mp hkept
      exact keptUntouched_of_fulls hids horphans hcatalog.fulls hm hbase hopens
        hretained (Or.inr hnames)
  · intro flag incr hincr base hbase htype hnames hleft hdeleted
    exact hleft (basesLeft_of_prunable hids horphans hcatalog hincr hbase htype
      hnames hdeleted)

end Safety

/-- A policy of one rule, `--keep-full n`. -/
def keepFullOnly (n : Nat) : RetentionPolicy :=
  { RetentionPolicy.default with keepFull := some n }

theorem retained_keepFullOnly {n : Nat} {nowSecs : ℤ}
    {chains : List ChainGroup} {chain : ChainGroup} :
    Retained (keepFullOnly n) nowSecs chains chain ↔
      (ahead ChainGroup.rankKey chains chain).length < n := by
  simp [Retained, keepFullOnly, RetentionPolicy.default,
    RetentionPolicy.isUnspecified, keptByRules, coversWindow]

/-- A policy of one rule, `--keep-days d`. -/
def keepDaysOnly (days : Nat) : RetentionPolicy :=
  { RetentionPolicy.default with keepDays := some days }

theorem retained_keepDaysOnly {days : Nat} {nowSecs : ℤ}
    {chains : List ChainGroup} {chain : ChainGroup} :
    Retained (keepDaysOnly days) nowSecs chains chain ↔
      cutoff nowSecs days ≤ chain.newestCreated.val := by
  simp [Retained, keepDaysOnly, RetentionPolicy.default,
    RetentionPolicy.isUnspecified, keptByRules, coversWindow]

theorem retained_default {nowSecs : ℤ} {chains : List ChainGroup}
    {chain : ChainGroup} :
    Retained RetentionPolicy.default nowSecs chains chain :=
  Or.inl rfl

/-- The rank tells two chains apart. -/
theorem rankKey_lt_of_length {chains : List ChainGroup}
    {left right : ChainGroup} (hright : right ∈ chains)
    (hne : left.baseId ≠ right.baseId)
    (hlength : (ahead ChainGroup.rankKey chains left).length ≤
      (ahead ChainGroup.rankKey chains right).length) :
    left.rankKey < right.rankKey := by
  rcases lt_trichotomy left.rankKey right.rankKey with hlt | heq | hgt
  · exact hlt
  · exact absurd (congrArg (fun key => (ofLex key).2) heq) hne
  · have hsub : (ahead ChainGroup.rankKey chains right).Sublist
        (ahead ChainGroup.rankKey chains left) := ahead_sublist hgt
    have hsame := hsub.eq_of_length_le hlength
    have hmem : right ∈ ahead ChainGroup.rankKey chains left :=
      mem_ahead.mpr ⟨hright, hgt⟩
    rw [← hsame] at hmem
    exact absurd (mem_ahead.mp hmem).2 (lt_irrefl _)

/-- No plan deletes what names a kept base. -/
def KeptNamesStay (parse : String → Option I64)
    (manifests : List BackupManifest) (orphanIds : List String) : Prop :=
  ∀ policy nowSecs, ∀ m ∈ manifests, ∀ base ∈ manifests,
    opensChain base = true → m.baseId = some base.id →
    Retained policy nowSecs (chainsOf parse manifests)
      (chainOf parse manifests base) →
      m.id ∉ (planPrune parse manifests orphanIds policy
        nowSecs).deletableMemberIds true

/-- No plan deletes the base of an increment it leaves. -/
def BasesStay (parse : String → Option I64) (manifests : List BackupManifest)
    (orphanIds : List String) : Prop :=
  ∀ policy nowSecs includeForceOnly, ∀ incr ∈ manifests, ∀ base ∈ manifests,
    incr.backupType = .incremental → incr.baseId = some base.id →
    incr.id ∉ (planPrune parse manifests orphanIds policy
      nowSecs).deletableMemberIds includeForceOnly →
    base.id ∉ (planPrune parse manifests orphanIds policy
      nowSecs).deletableMemberIds includeForceOnly

section Necessity

variable {parse : String → Option I64} {manifests : List BackupManifest}
  {orphanIds : List String}
  (hids : (manifests.map BackupManifest.id).Nodup)
  (horphans : ∀ m ∈ manifests, m.id ∉ orphanIds)

include hids horphans

/-- Plans that keep everything, cut behind the base or keep what is as fresh
as its chain tell a full backup and the base it names apart. -/
theorem fulls_of_keptNamesStay
    (hkept : KeptNamesStay parse manifests orphanIds) :
    FullsKeepUp parse manifests := by
  intro m hm base hbase hne hfull hopens hnames
  have hcomplete : m.status ≠ .incomplete := by
    intro hincomplete
    have hcloses : ¬ opensChain m = true := by
      simp [opensChain, hincomplete]
    apply hkept RetentionPolicy.default 0 m hm base hbase hopens hnames
      retained_default
    exact (deletable_iff_of_unchained hids horphans hm
      (unchained_of_full hfull hcloses)).mpr ⟨rfl, hincomplete⟩
  have hmOpens := opensChain_iff.mpr ⟨hfull, hcomplete⟩
  have hfate : ∀ policy nowSecs,
      Retained policy nowSecs (chainsOf parse manifests)
        (chainOf parse manifests base) →
      Retained policy nowSecs (chainsOf parse manifests)
        (chainOf parse manifests m) := by
    intro policy nowSecs hretained
    have hleft := hkept policy nowSecs m hm base hbase hopens hnames hretained
    rwa [deletable_iff_of_chainMember hids horphans hm hm hmOpens (Or.inl rfl),
      not_not] at hleft
  refine ⟨hcomplete, ?_, ?_⟩
  · apply rankKey_lt_of_length (mem_chainsOf.mpr ⟨base, hbase, hopens, rfl⟩)
    · intro hid
      exact hne (eq_of_id hids hm hbase hid)
    · have hrank := hfate (keepFullOnly _) 0
        (retained_keepFullOnly.mpr (Nat.lt_succ_self _))
      exact Nat.lt_succ_iff.mp (retained_keepFullOnly.mp hrank)
  · have hfresh := hfate (keepDaysOnly 0)
      (chainOf parse manifests base).newestCreated.val
      (retained_keepDaysOnly.mpr (by simp [cutoff]))
    have hval := retained_keepDaysOnly.mp hfresh
    rw [cutoff] at hval
    exact Subtype.coe_le_coe.mp (by simpa using hval)

theorem bases_of_basesStay (hbases : BasesStay parse manifests orphanIds)
    {incr base : BackupManifest} (hincr : incr ∈ manifests)
    (hbase : base ∈ manifests) (htype : incr.backupType = .incremental)
    (hnames : incr.baseId = some base.id)
    (hcloses : ¬ opensChain base = true) :
    Unchained manifests base ∧
      (base.status ≠ .incomplete ∨ incr.status = .incomplete) := by
  have hincrUnchained := unchained_of_base hids hbase htype hnames hcloses
  have hleft : ∀ policy nowSecs flag,
      base.id ∈ (planPrune parse manifests orphanIds policy
        nowSecs).deletableMemberIds flag →
      flag = true ∧ incr.status = .incomplete := by
    intro policy nowSecs flag hdeleted
    by_contra hstays
    exact hbases policy nowSecs flag incr hincr base hbase htype hnames
      (fun hgone => hstays ((deletable_iff_of_unchained hids horphans
        hincr hincrUnchained).mp hgone)) hdeleted
  have hunchained : Unchained manifests base := by
    intro opener hopener hopens hin
    have hdropped : ¬ Retained (keepFullOnly 0) 0 (chainsOf parse manifests)
        (chainOf parse manifests opener) := by
      rw [retained_keepFullOnly]
      omega
    have hforce := (hleft (keepFullOnly 0) 0 false
      ((deletable_iff_of_chainMember hids horphans hbase hopener hopens hin).mpr
        hdropped)).1
    cases hforce
  refine ⟨hunchained, ?_⟩
  by_contra hboth
  obtain ⟨hincomplete, hstays⟩ := not_or.mp hboth
  exact hstays (hleft RetentionPolicy.default 0 true
    ((deletable_iff_of_unchained hids horphans hbase hunchained).mpr
      ⟨rfl, not_not.mp hincomplete⟩)).2

theorem prunable_of_chainSafe
    (hsafe : ∀ policy nowSecs, ChainSafe manifests
      (planPrune parse manifests orphanIds policy nowSecs)) :
    PrunableCatalog parse manifests orphanIds where
  orphans := by
    have hlisted := (hsafe RetentionPolicy.default 0).listedOnce
    rw [← deletable_true, deletableMemberIds_eq, if_pos rfl] at hlisted
    exact (hlisted.sublist (List.sublist_append_right _ _)).sublist
      (List.sublist_append_right _ _)
  fulls := by
    apply fulls_of_keptNamesStay hids horphans
    intro policy nowSecs m hm base hbase hopens hnames hkept
    have hkeptId : base.id ∈ (planPrune parse manifests orphanIds policy
        nowSecs).keptBaseIds :=
      (mem_keptBaseIds (openers_nodup hids)).mpr ⟨base, hbase, hopens, hkept, rfl⟩
    rw [deletable_true, List.mem_flatMap]
    rintro ⟨target, htarget, hmember⟩
    exact (hsafe policy nowSecs).keptUntouched m hm
      (Or.inr ⟨base.id, hkeptId, hnames⟩) target htarget hmember
  bases incr hincr base hbase _ htype hnames := by
    by_cases hopens : opensChain base = true
    · exact Or.inl hopens
    · have hbases : BasesStay parse manifests orphanIds := by
        intro policy nowSecs flag incr hincr base hbase htype hnames
        exact (hsafe policy nowSecs).basesLeft flag incr hincr base hbase htype
          hnames
      exact Or.inr (bases_of_basesStay hids horphans hbases hincr hbase htype
        hnames hopens)

end Necessity

/-- Every plan of a catalog keeps its promise exactly when full backups share
the fate of a base they name and no increment outlives the backup it names. -/
theorem planPrune_chainSafe_iff (parse : String → Option I64)
    (manifests : List BackupManifest) (orphanIds : List String)
    (hids : (manifests.map BackupManifest.id).Nodup)
    (horphans : ∀ m ∈ manifests, m.id ∉ orphanIds) :
    (∀ policy nowSecs, ChainSafe manifests
      (planPrune parse manifests orphanIds policy nowSecs)) ↔
      PrunableCatalog parse manifests orphanIds := by
  constructor
  · intro hsafe
    exact prunable_of_chainSafe hids horphans hsafe
  · intro hcatalog policy nowSecs
    exact chainSafe_of_prunable hids horphans hcatalog policy nowSecs

/-- The seconds of four days, as an RFC 3339 parser gives them. -/
def january : String → Option I64
  | "2024-01-01T00:00:00Z" => some ⟨1704067200, by decide⟩
  | "2024-01-02T00:00:00Z" => some ⟨1704153600, by decide⟩
  | "2024-01-03T00:00:00Z" => some ⟨1704240000, by decide⟩
  | "2024-01-31T00:00:00Z" => some ⟨1706659200, by decide⟩
  | _ => none

/-- A complete Mongo full backup without an oplog range. -/
def plainFull (id createdAt : String) : BackupManifest where
  id := id
  createdAt := createdAt
  backupType := .full
  baseId := none
  topology := .replicaSet
  toolVersions := ⟨none, none⟩
  selective := false
  oplogRange := none
  oplogCount := none
  promotedFromGap := false
  mysqlBinlog := none
  status := .complete

def plainIncrement (id createdAt baseId : String) : BackupManifest :=
  { plainFull id createdAt with
    backupType := .incremental
    baseId := some baseId }

def plachainMember : List BackupManifest :=
  [plainFull "full" "2024-01-01T00:00:00Z",
    plainIncrement "incr" "2024-01-03T00:00:00Z" "full"]

theorem planPrune_chainSafe_plain :
    (∀ policy nowSecs, ChainSafe plachainMember
        (planPrune january plachainMember ["lost"] policy nowSecs)) ↔
      PrunableCatalog january plachainMember ["lost"] :=
  planPrune_chainSafe_iff january plachainMember ["lost"] (by decide) (by decide)

/-- The increment of an incomplete full backup. -/
def brokenChain : List BackupManifest :=
  [{ plainFull "full" "2024-01-01T00:00:00Z" with status := .incomplete },
    plainIncrement "incr" "2024-01-03T00:00:00Z" "full"]

/-- `--force` takes an incomplete full backup from under the increment that
names it. -/
theorem planPrune_leavesIncrement :
    ¬ ∀ (parse : String → Option I64) (manifests : List BackupManifest)
      (orphanIds : List String) (policy : RetentionPolicy) (nowSecs : ℤ),
      (manifests.map BackupManifest.id).Nodup →
      (∀ m ∈ manifests, m.id ∉ orphanIds) →
      ChainSafe manifests
        (planPrune parse manifests orphanIds policy nowSecs) := by
  intro hsafe
  have hcatalog : PrunableCatalog january brokenChain [] :=
    prunable_of_chainSafe (by decide) (by decide) fun policy nowSecs =>
      hsafe january brokenChain [] policy nowSecs (by decide) (by decide)
  have hbase := hcatalog.bases _ (List.mem_cons_of_mem _ List.mem_cons_self) _
    List.mem_cons_self (by decide) rfl rfl
  rcases hbase with hopens | ⟨-, hcomplete | hincomplete⟩
  · revert hopens
    decide
  · exact hcomplete rfl
  · revert hincomplete
    decide

end XBackup
