/-
What the counting rules of retention promise: the newest backups for
`keep_last`, restorable chains for `min_redundancy`.  Chains are ranked by their
bases, and the promises hold on the catalogs where that ranking agrees.
-/
import XBackup.Pipeline.PruneSafety

namespace XBackup

open Ranking

/-- The backup belongs to a chain with a complete full base. -/
def inSomeChain (manifests : List BackupManifest) (m : BackupManifest) : Bool :=
  manifests.any fun base =>
    opensChain base &&
      (m = base || (m.backupType = .incremental && m.baseId = some base.id))

def createdOrMin (parse : String → Option I64) (m : BackupManifest) : I64 :=
  (createdSecs parse m).getD I64.min

/-- The backups in chains that were created after one of them. -/
def createdAfter (parse : String → Option I64)
    (manifests : List BackupManifest) (m : BackupManifest) :
    List BackupManifest :=
  manifests.filter fun other =>
    inSomeChain manifests other &&
      (createdOrMin parse m).val < (createdOrMin parse other).val

/-- A chain restores when its base is a complete, non-selective full. -/
def restorable (m : BackupManifest) : Bool :=
  opensChain m && !m.selective

def restorableId (manifests : List BackupManifest) (id : String) : Bool :=
  manifests.any fun m => restorable m && m.id = id

/-- `keep_last` keeps each of the newest chain backups, `min_redundancy` as
many restorable chains as there are, up to its number. -/
structure CountsKept (parse : String → Option I64)
    (manifests : List BackupManifest) (policy : RetentionPolicy)
    (plan : PrunePlan) : Prop where
  newest : ∀ n, policy.keepLast = some n → ∀ m ∈ manifests,
    inSomeChain manifests m = true →
    (createdAfter parse manifests m).length < n →
    m.id ∉ plan.deletableMemberIds true
  redundant : ∀ n, policy.minRedundancy = some n →
    min n (manifests.countP restorable) ≤
      plan.keptBaseIds.countP (restorableId manifests)

/-- The ranking by bases agrees with the promises: the chains ahead of a backup
hold no more backups than were created after it, and no selective full ranks
ahead of a restorable one. -/
structure RankingAgrees (parse : String → Option I64)
    (manifests : List BackupManifest) : Prop where
  newest : ∀ base ∈ manifests, opensChain base = true →
    ∀ m ∈ manifests, ChainMember m base →
      backupCount (ahead ChainGroup.rankKey (chainsOf parse manifests)
        (chainOf parse manifests base)) ≤
          (createdAfter parse manifests m).length
  restorable : ∀ selective ∈ manifests, ∀ full ∈ manifests,
    opensChain selective = true → selective.selective = true →
    restorable full = true →
      (chainOf parse manifests full).rankKey <
        (chainOf parse manifests selective).rankKey

theorem inSomeChain_iff {manifests : List BackupManifest}
    {m : BackupManifest} :
    inSomeChain manifests m = true ↔
      ∃ base ∈ manifests, opensChain base = true ∧ ChainMember m base := by
  simp [inSomeChain, ChainMember]

/-- A policy of one rule, `--keep-last n`. -/
def keepLastOnly (n : Nat) : RetentionPolicy :=
  { RetentionPolicy.default with keepLast := some n }

theorem retained_keepLastOnly {n : Nat} {nowSecs : ℤ}
    {chains : List ChainGroup} {chain : ChainGroup} :
    Retained (keepLastOnly n) nowSecs chains chain ↔
      backupCount (ahead ChainGroup.rankKey chains chain) < n := by
  simp [Retained, keepLastOnly, RetentionPolicy.default,
    RetentionPolicy.isUnspecified, keptByRules, coversWindow]

/-- A policy of one rule, `--min-redundancy n`. -/
def minRedundancyOnly (n : Nat) : RetentionPolicy :=
  { RetentionPolicy.default with minRedundancy := some n }

theorem filter_places_lt (n idx membersBefore : Nat)
    (chains : List ChainGroup) :
    ((places idx membersBefore chains).filter fun place =>
      place.idx < n).map Place.chain = chains.take (n - idx) := by
  induction chains generalizing idx membersBefore with
  | nil => simp [places]
  | cons head tail ih =>
      rw [places]
      by_cases hidx : idx < n
      · have hsucc : n - idx = (n - (idx + 1)) + 1 := by omega
        rw [List.filter_cons_of_pos (by simpa using hidx), List.map_cons, ih,
          hsucc, List.take_succ_cons]
      · have hzero : n - idx = 0 := by omega
        have hnext : n - (idx + 1) = 0 := by omega
        rw [List.filter_cons_of_neg (by simpa using hidx), ih, hzero, hnext,
          List.take_zero, List.take_zero]

section Redundancy

variable {parse : String → Option I64} {manifests : List BackupManifest}

/-- The first chains of the ranking are kept. -/
theorem take_sublist_judgedChains {policy : RetentionPolicy} {nowSecs : ℤ}
    {n : Nat} (hpolicy : policy.minRedundancy = some n) :
    ((rankedChains parse manifests).take n).Sublist
      (judgedChains parse manifests policy nowSecs true) := by
  rw [judgedChains, judgedPlaces, ← Nat.sub_zero n,
    ← filter_places_lt n 0 0 (rankedChains parse manifests)]
  apply List.Sublist.map
  apply List.monotone_filter_right
  intro place hplace
  simp [keptAt, keptByRules, hpolicy, of_decide_eq_true hplace]

theorem judgedChains_minRedundancyOnly (n : Nat) (nowSecs : ℤ) :
    judgedChains parse manifests (minRedundancyOnly n) nowSecs true =
      (rankedChains parse manifests).take n := by
  rw [judgedChains, judgedPlaces]
  have hplaces := filter_places_lt n 0 0 (rankedChains parse manifests)
  rw [Nat.sub_zero] at hplaces
  rw [← hplaces]
  congr 2
  funext place
  simp [keptAt, keptByRules, minRedundancyOnly, RetentionPolicy.default,
    RetentionPolicy.isUnspecified, boundaryIdx]

theorem countP_keptBaseIds {orphanIds : List String} {policy : RetentionPolicy}
    {nowSecs : ℤ} :
    (planPrune parse manifests orphanIds policy nowSecs).keptBaseIds.countP
        (restorableId manifests) =
      (judgedChains parse manifests policy nowSecs true).countP
        fun chain => restorableId manifests chain.baseId := by
  rw [planPrune_eq, List.countP_map]
  rfl

end Redundancy

section Promises

variable {parse : String → Option I64} {manifests : List BackupManifest}
  {orphanIds : List String}
  (hids : (manifests.map BackupManifest.id).Nodup)

include hids

theorem restorableId_of_mem {m : BackupManifest} (hm : m ∈ manifests) :
    restorableId manifests m.id = restorable m := by
  rw [restorableId, Bool.eq_iff_iff, List.any_eq_true]
  constructor
  · rintro ⟨other, hother, hboth⟩
    obtain ⟨hrestorable, hid⟩ := Bool.and_eq_true_iff.mp hboth
    rwa [← eq_of_id hids hother hm (of_decide_eq_true hid)]
  · intro hrestorable
    exact ⟨m, hm, by simp [hrestorable]⟩

theorem countP_rankedChains :
    (rankedChains parse manifests).countP
        (fun chain => restorableId manifests chain.baseId) =
      manifests.countP restorable := by
  have hperm : (rankedChains parse manifests).Perm (chainsOf parse manifests) :=
    rankChains_perm _
  rw [hperm.countP_eq, chainsOf, List.countP_map, List.countP_filter]
  apply List.countP_congr
  intro m hm
  change (restorableId manifests m.id && opensChain m) = true ↔ _
  rw [restorableId_of_mem hids hm, restorable]
  simp only [Bool.and_eq_true]
  tauto

/-- Restorable chains lead the ranking when no selective one is ahead. -/
theorem leading_iff :
    Leading (fun chain => restorableId manifests chain.baseId)
        (rankedChains parse manifests) ↔
      ∀ selective ∈ manifests, ∀ full ∈ manifests,
        opensChain selective = true → selective.selective = true →
        restorable full = true →
          (chainOf parse manifests full).rankKey <
            (chainOf parse manifests selective).rankKey := by
  have hperm : (rankedChains parse manifests).Perm (chainsOf parse manifests) :=
    rankChains_perm _
  have hstrict : (rankedChains parse manifests).Pairwise fun left right =>
      left.rankKey < right.rankKey := rankedChains_strict (openers_nodup hids)
  rw [leading_iff_of_sorted hstrict]
  simp only [hperm.mem_iff, mem_chainsOf]
  constructor
  · intro hleads selective hselective full hfull hopens hflag hrestorable
    obtain ⟨hfullOpens, hwhole⟩ := Bool.and_eq_true_iff.mp hrestorable
    by_contra hnot
    have hne : (chainOf parse manifests selective).rankKey ≠
        (chainOf parse manifests full).rankKey := by
      intro heq
      have hid : selective.id = full.id :=
        congrArg (fun key => (ofLex key).2) heq
      rw [eq_of_id hids hselective hfull hid] at hflag
      simp [hflag] at hwhole
    have hlead := hleads _ ⟨selective, hselective, hopens, rfl⟩ _
      ⟨full, hfull, hfullOpens, rfl⟩ (lt_of_le_of_ne (not_lt.mp hnot) hne)
    rw [chainOf_baseId, chainOf_baseId, restorableId_of_mem hids hselective,
      restorableId_of_mem hids hfull] at hlead
    simpa [restorable, hflag] using hlead hrestorable
  · rintro hranked _ ⟨left, hleft, hleftOpens, rfl⟩ _
      ⟨right, hright, hrightOpens, rfl⟩ hlt hrestorable
    rw [chainOf_baseId, restorableId_of_mem hids hright] at hrestorable
    rw [chainOf_baseId, restorableId_of_mem hids hleft]
    cases hflag : left.selective with
    | true =>
        have hgt := hranked left hleft right hright hleftOpens hflag hrestorable
        exact absurd hgt hlt.asymm
    | false => simp [restorable, hleftOpens, hflag]

/-- `min_redundancy` keeps its promise exactly when the restorable chains lead
the ranking. -/
theorem redundant_iff_leading :
    (∀ policy nowSecs n, policy.minRedundancy = some n →
      min n (manifests.countP restorable) ≤
        (planPrune parse manifests orphanIds policy nowSecs).keptBaseIds.countP
          (restorableId manifests)) ↔
      Leading (fun chain => restorableId manifests chain.baseId)
        (rankedChains parse manifests) := by
  rw [← countP_take_iff, countP_rankedChains hids]
  constructor
  · intro hkept n
    have hcount := hkept (minRedundancyOnly n) 0 n rfl
    rwa [countP_keptBaseIds, judgedChains_minRedundancyOnly] at hcount
  · intro hcuts policy nowSecs n hpolicy
    rw [countP_keptBaseIds]
    exact (hcuts n).trans ((take_sublist_judgedChains hpolicy).countP_le)

/-- `keep_last` keeps its promise exactly when the chains ahead of a backup
hold no more than was created after it. -/
theorem newest_iff (horphans : ∀ m ∈ manifests, m.id ∉ orphanIds) :
    (∀ policy nowSecs n, policy.keepLast = some n → ∀ m ∈ manifests,
      inSomeChain manifests m = true →
      (createdAfter parse manifests m).length < n →
      m.id ∉ (planPrune parse manifests orphanIds policy
        nowSecs).deletableMemberIds true) ↔
      ∀ base ∈ manifests, opensChain base = true →
        ∀ m ∈ manifests, ChainMember m base →
          backupCount (ahead ChainGroup.rankKey (chainsOf parse manifests)
            (chainOf parse manifests base)) ≤
              (createdAfter parse manifests m).length := by
  constructor
  · intro hkept base hbase hopens m hm hin
    have hleft := hkept (keepLastOnly _) 0 _ rfl m hm
      (inSomeChain_iff.mpr ⟨base, hbase, hopens, hin⟩) (Nat.lt_succ_self _)
    rw [deletable_iff_of_chainMember hids horphans hm hbase hopens hin, not_not,
      retained_keepLastOnly] at hleft
    exact Nat.lt_succ_iff.mp hleft
  · intro hcounts policy nowSecs n hpolicy m hm hchained hnewer
    obtain ⟨base, hbase, hopens, hin⟩ := inSomeChain_iff.mp hchained
    have hcount := hcounts base hbase hopens m hm hin
    rw [deletable_iff_of_chainMember hids horphans hm hbase hopens hin, not_not]
    right
    simp [keptByRules, hpolicy, hcount.trans_lt hnewer]

theorem countsKept_of_agrees (horphans : ∀ m ∈ manifests, m.id ∉ orphanIds)
    (hagrees : RankingAgrees parse manifests) (policy : RetentionPolicy)
    (nowSecs : ℤ) :
    CountsKept parse manifests policy
      (planPrune parse manifests orphanIds policy nowSecs) where
  newest n hpolicy m hm hchained hnewer :=
    (newest_iff hids horphans).mpr hagrees.newest policy nowSecs n hpolicy m hm
      hchained hnewer
  redundant n hpolicy :=
    (redundant_iff_leading hids).mpr ((leading_iff hids).mpr hagrees.restorable)
      policy nowSecs n hpolicy

theorem agrees_of_countsKept (horphans : ∀ m ∈ manifests, m.id ∉ orphanIds)
    (hkept : ∀ policy nowSecs, CountsKept parse manifests policy
      (planPrune parse manifests orphanIds policy nowSecs)) :
    RankingAgrees parse manifests where
  newest := (newest_iff hids horphans).mp fun policy nowSecs =>
    (hkept policy nowSecs).newest
  restorable := (leading_iff hids).mp ((redundant_iff_leading hids).mp
    fun policy nowSecs => (hkept policy nowSecs).redundant)

end Promises

/-- Both counting rules keep what they promise, whatever the policy, exactly on
the catalogs whose ranking agrees with them. -/
theorem planPrune_countsKept_iff (parse : String → Option I64)
    (manifests : List BackupManifest) (orphanIds : List String)
    (hids : (manifests.map BackupManifest.id).Nodup)
    (horphans : ∀ m ∈ manifests, m.id ∉ orphanIds) :
    (∀ policy nowSecs, CountsKept parse manifests policy
      (planPrune parse manifests orphanIds policy nowSecs)) ↔
      RankingAgrees parse manifests := by
  constructor
  · intro hkept
    exact agrees_of_countsKept hids horphans hkept
  · intro hagrees policy nowSecs
    exact countsKept_of_agrees hids horphans hagrees policy nowSecs

theorem planPrune_countsKept_plain :
    (∀ policy nowSecs, CountsKept january plachainMember policy
        (planPrune january plachainMember ["lost"] policy nowSecs)) ↔
      RankingAgrees january plachainMember :=
  planPrune_countsKept_iff january plachainMember ["lost"] (by decide) (by decide)

/-- A selective full was taken before the last increment of the older chain:
`keep_last` drops the newest backup, `min_redundancy` the restorable chain. -/
theorem planPrune_dropsNewest :
    ¬ ∀ (parse : String → Option I64) (manifests : List BackupManifest)
      (orphanIds : List String) (policy : RetentionPolicy) (nowSecs : ℤ),
      (manifests.map BackupManifest.id).Nodup →
      (∀ m ∈ manifests, m.id ∉ orphanIds) →
      (∀ m ∈ manifests, (createdSecs parse m).isSome) →
      CountsKept parse manifests policy
        (planPrune parse manifests orphanIds policy nowSecs) := by
  intro hkept
  have hagrees : RankingAgrees january
      ({ plainFull "part" "2024-01-02T00:00:00Z" with selective := true } ::
        plachainMember) :=
    @agrees_of_countsKept january _ [] (by decide) (by decide)
      fun policy nowSecs => hkept january _ [] policy nowSecs (by decide)
        (by decide) (by decide)
  have hrank := hagrees.restorable _ List.mem_cons_self _
    (List.mem_cons_of_mem _ List.mem_cons_self) (by decide) rfl (by decide)
  revert hrank
  decide

end XBackup
