/-
A prune that stops anywhere: no increment is left without the base it had, no
manifest goes before its data, and kept chains are not touched.
-/
import XBackup.Pipeline.PruneRun

namespace XBackup

open Interrupted Precedence

/-- What a stopped prune leaves behind. -/
structure StopsSafely (manifests : List BackupManifest) (plan : PrunePlan)
    (before after : List String) : Prop where
  bases : ∀ incr ∈ manifests, ∀ base ∈ manifests,
    incr.backupType = .incremental → incr.baseId = some base.id →
    manifestPath incr.id ∈ after → manifestPath base.id ∈ before →
      manifestPath base.id ∈ after
  dataFirst : ∀ m ∈ manifests, manifestPath m.id ∈ before →
    manifestPath m.id ∉ after → dataPath m.id ∉ after
  keptUntouched : ∀ m ∈ manifests,
    (m.id ∈ plan.keptBaseIds ∨
      ∃ baseId ∈ plan.keptBaseIds, m.baseId = some baseId) →
    ∀ path ∈ backupPaths m.id, path ∈ after ↔ path ∈ before

def ListedBefore (manifests : List BackupManifest)
    (first last : BackupManifest) : Prop :=
  ∃ front rest, manifests = front ++ last :: rest ∧ first ∈ front

/-- Catalogs on which a prune may stop anywhere: as for a whole prune, and an
incomplete increment is listed before the incomplete backup it names; no id that
may be deleted reads like the absence of a path. -/
structure InterruptibleCatalog (parse : String → Option I64)
    (manifests : List BackupManifest) : Prop where
  fulls : FullsKeepUp parse manifests
  bases : ∀ incr ∈ manifests, ∀ base ∈ manifests, incr ≠ base →
    incr.backupType = .incremental → incr.baseId = some base.id →
      opensChain base = true ∨
        Unchained manifests base ∧
          (base.status ≠ .incomplete ∨
            incr.status = .incomplete ∧ ListedBefore manifests incr base)
  ids : ∀ m ∈ manifests,
    ¬ Unchained manifests m ∨ m.status = .incomplete →
      tellsAbsence m.id = false

section Order

variable {parse : String → Option I64} {manifests : List BackupManifest}
  {orphanIds : List String} {policy : RetentionPolicy} {nowSecs : ℤ}
  (hids : (manifests.map BackupManifest.id).Nodup)
  (horphans : ∀ m ∈ manifests, m.id ∉ orphanIds)

theorem deletedOrder_eq (includeForceOnly : Bool) :
    deletedOrder (planPrune parse manifests orphanIds policy nowSecs)
        includeForceOnly =
      (judgedChains parse manifests policy nowSecs false).flatMap
          (fun chain => deleteOrder chain.memberIds) ++
        if includeForceOnly then
          (remnants parse manifests).map BackupManifest.id ++ orphanIds
        else [] :=
  targets_flatMap_eq parse manifests orphanIds policy nowSecs includeForceOnly
    deleteOrder fun _ => rfl

include hids

theorem notMem_judged_of_unchained {m : BackupManifest} (hm : m ∈ manifests)
    (hunchained : Unchained manifests m) :
    m.id ∉ (judgedChains parse manifests policy nowSecs false).flatMap
      fun chain => deleteOrder chain.memberIds := by
  intro hmem
  obtain ⟨chain, hchain, hmember⟩ := List.mem_flatMap.mp hmem
  obtain ⟨opener, hopener, hopens, rfl⟩ :=
    mem_chainsOf.mp ((mem_judgedChains (openers_nodup hids)).mp hchain).1
  rw [(deleteOrder_perm _).mem_iff] at hmember
  exact hunchained opener hopener hopens
    ((chainMember_of_mem_memberIds hids hm hopener hopens).mp hmember)

/-- Remnants go in the order of the catalog, behind the chains. -/
theorem deletedOrder_split {base : BackupManifest}
    {front rest : List BackupManifest}
    (hsplit : manifests = front ++ base :: rest)
    (hincomplete : base.status = .incomplete)
    (hunchained : Unchained manifests base) :
    ∃ before after, deletedOrder
        (planPrune parse manifests orphanIds policy nowSecs) true =
          before ++ base.id :: after ∧
      ∀ m ∈ manifests, Unchained manifests m → m.status = .incomplete →
        (m.id ∈ before ↔ m ∈ front) := by
  have hremnant : ∀ m ∈ manifests, Unchained manifests m →
      m.status = .incomplete → m ∈ remnants parse manifests :=
    fun m hm hleft hstatus => (mem_remnants hids).mpr ⟨hm, hstatus, hleft⟩
  have hmem : ∀ m ∈ front, m ∈ manifests := by
    intro m hm
    rw [hsplit]
    exact List.mem_append_left _ hm
  have hbase : base ∈ manifests := by
    rw [hsplit]
    exact List.mem_append_right _ List.mem_cons_self
  obtain ⟨isRemnant, hfilter⟩ : ∃ isRemnant : BackupManifest → Bool,
      remnants parse manifests = manifests.filter isRemnant := ⟨_, rfl⟩
  have hparts : remnants parse manifests =
      front.filter isRemnant ++ base :: rest.filter isRemnant := by
    have hkeeps := hremnant base hbase hunchained hincomplete
    rw [hfilter, List.mem_filter] at hkeeps
    rw [hfilter, congrArg (List.filter isRemnant) hsplit, List.filter_append,
      List.filter_cons_of_pos hkeeps.2]
  refine ⟨(judgedChains parse manifests policy nowSecs false).flatMap
      (fun chain => deleteOrder chain.memberIds) ++
        (front.filter isRemnant).map BackupManifest.id,
    (rest.filter isRemnant).map BackupManifest.id ++ orphanIds, ?_, ?_⟩
  · rw [deletedOrder_eq, if_pos rfl, hparts]
    simp
  · intro m hm hleft hstatus
    rw [List.mem_append, List.mem_map]
    constructor
    · rintro (hchain | ⟨other, hother, hid⟩)
      · exact absurd hchain (notMem_judged_of_unchained hids hm hleft)
      · have hlisted := (List.mem_filter.mp hother).1
        rwa [← eq_of_id hids (hmem other hlisted) hm hid]
    · intro hfront
      have hkept := hremnant m hm hleft hstatus
      rw [hfilter, List.mem_filter] at hkept
      exact Or.inr ⟨m, List.mem_filter.mpr ⟨hfront, hkept.2⟩, rfl⟩

include horphans

/-- What goes first in its chain goes first in the plan. -/
theorem precedes_of_chain {m base : BackupManifest} (hm : m ∈ manifests)
    (hbase : base ∈ manifests) (hopens : opensChain base = true)
    (hin : ChainMember m base) {first : String}
    (hchain : Precedes (deleteOrder (chainOf parse manifests base).memberIds)
      first m.id) (includeForceOnly : Bool) :
    Precedes (deletedOrder (planPrune parse manifests orphanIds policy nowSecs)
      includeForceOnly) first m.id := by
  rw [deletedOrder_eq]
  refine Precedes.append (Precedes.flatMap ?_) ?_
  · intro chain hjudged
    obtain ⟨opener, hopener, hopenerOpens, rfl⟩ :=
      mem_chainsOf.mp ((mem_judgedChains (openers_nodup hids)).mp hjudged).1
    by_cases hmember : m.id ∈ (chainOf parse manifests opener).memberIds
    · have hother := (chainMember_of_mem_memberIds hids hm hopener
        hopenerOpens).mp hmember
      rwa [← opener_unique (openers_nodup hids) hbase hopener hopens
        hopenerOpens hin hother]
    · apply precedes_of_notMem
      rwa [(deleteOrder_perm _).mem_iff]
  · intro hlate
    cases includeForceOnly with
    | false => cases hlate
    | true =>
        rcases List.mem_append.mp hlate with hremnant | horphan
        · obtain ⟨other, hother, hid⟩ := List.mem_map.mp hremnant
          obtain ⟨hlisted, -, hunchained⟩ := (mem_remnants hids).mp hother
          rw [eq_of_id hids hlisted hm hid] at hunchained
          exact absurd hin (hunchained base hbase hopens)
        · exact absurd horphan (horphans m hm)

/-- The increments of a chain go before its base. -/
theorem precedes_base {incr base : BackupManifest} (hincr : incr ∈ manifests)
    (hbase : base ∈ manifests) (hopens : opensChain base = true)
    (htype : incr.backupType = .incremental)
    (hnames : incr.baseId = some base.id) (includeForceOnly : Bool) :
    Precedes (deletedOrder (planPrune parse manifests orphanIds policy nowSecs)
      includeForceOnly) incr.id base.id := by
  apply precedes_of_chain hids horphans hbase hbase hopens (Or.inl rfl)
  have hlisted : incr.id ∈ (chainOf parse manifests base).memberIds :=
    (chainMember_of_mem_memberIds hids hincr hbase hopens).mpr
      (Or.inr ⟨htype, hnames⟩)
  have hnodup : (chainOf parse manifests base).memberIds.Nodup :=
    memberIds_nodup hids hbase hopens
  have hne : incr.id ≠ base.id := by
    intro hid
    rw [eq_of_id hids hincr hbase hid, (opensChain_iff.mp hopens).1] at htype
    cases htype
  obtain ⟨hfirst, -⟩ := List.nodup_cons.mp hnodup
  have hrest := (List.mem_cons.mp hlisted).resolve_left hne
  exact precedes_of_split (List.mem_reverse.mpr hrest)
    (fun hmem => hfirst (List.mem_reverse.mp hmem))

/-- On an interruptible catalog every increment goes before its base, or the
base does not go. -/
theorem precedes_of_interruptible
    (hcatalog : InterruptibleCatalog parse manifests)
    {incr base : BackupManifest} (hincr : incr ∈ manifests)
    (hbase : base ∈ manifests) (htype : incr.backupType = .incremental)
    (hnames : incr.baseId = some base.id) (includeForceOnly : Bool) :
    Precedes (deletedOrder (planPrune parse manifests orphanIds policy nowSecs)
      includeForceOnly) incr.id base.id := by
  by_cases hself : incr = base
  · rw [hself]
    exact precedes_self _ _
  by_cases hopens : opensChain base = true
  · exact precedes_base hids horphans hincr hbase hopens htype hnames _
  obtain ⟨hunchained, hstatus⟩ :=
    (hcatalog.bases incr hincr base hbase hself htype hnames).resolve_left
      hopens
  by_cases hgoes : base.id ∈ (planPrune parse manifests orphanIds policy
      nowSecs).deletableMemberIds includeForceOnly
  · obtain ⟨rfl, hincomplete⟩ :=
      (deletable_iff_of_unchained hids horphans hbase hunchained).mp hgoes
    obtain ⟨hincrStatus, front, rest, hsplit, hfront⟩ :=
      hstatus.resolve_left (not_not_intro hincomplete)
    obtain ⟨before, after, horder, hbefore⟩ := deletedOrder_split hids hsplit
      hincomplete hunchained
    rw [horder]
    apply precedes_of_split
    · exact (hbefore incr hincr (unchained_of_base hids hbase htype hnames
        hopens) hincrStatus).mpr hfront
    · rw [hbefore base hbase hunchained hincomplete]
      intro hagain
      have hnodup := hids
      rw [hsplit, List.map_append, List.map_cons] at hnodup
      exact (List.disjoint_of_nodup_append hnodup)
        (List.mem_map_of_mem hagain) List.mem_cons_self
  · apply precedes_of_notMem
    rwa [mem_deletedOrder]

theorem stopsSafely_of_interruptible
    (hcatalog : InterruptibleCatalog parse manifests)
    (includeForceOnly : Bool) {backend : Backend} (hhonest : backend.Honest)
    (before : List String) :
    StopsSafely manifests (planPrune parse manifests orphanIds policy nowSecs)
      before (executePrune backend
        (planPrune parse manifests orphanIds policy nowSecs) includeForceOnly
          ⟨before, 0⟩).2.entries := by
  have hreads : ∀ path ∈ plannedPaths (planPrune parse manifests orphanIds
      policy nowSecs) includeForceOnly,
      path ∈ catalogPaths manifests → tellsAbsence path = false := by
    intro path hplanned hpath
    obtain ⟨m, hm, hlisted⟩ := List.mem_flatMap.mp hpath
    rw [backupPaths_eq] at hlisted
    obtain ⟨file, hfile, rfl⟩ := List.mem_map.mp hlisted
    rw [tellsAbsence_pathIn hfile]
    apply hcatalog.ids m hm
    by_contra hnone
    obtain ⟨hunchained, hcomplete⟩ := not_or.mp hnone
    exact hcomplete ((deletable_iff_of_unchained hids horphans hm
      (not_not.mp hunchained)).mp ((pathIn_mem_plannedPaths hfile).mp
        hplanned)).2
  obtain ⟨done, hdone, hdeleted⟩ := executePrune_stops hhonest hreads before 0
  have hcatalogPath : ∀ m ∈ manifests, ∀ path ∈ backupPaths m.id,
      path ∈ catalogPaths manifests :=
    fun m hm path hpath => List.mem_flatMap.mpr ⟨m, hm, hpath⟩
  have hmanifest : ∀ id, manifestPath id ∈ backupPaths id := by
    intro id
    simp [backupPaths]
  have hdata : ∀ id, dataPath id ∈ backupPaths id := by
    intro id
    simp [backupPaths]
  refine ⟨?_, ?_, ?_⟩
  · intro incr hincr base hbase htype hnames hstays hthere
    rw [hdeleted _ (hcatalogPath incr hincr _ (hmanifest _))] at hstays
    refine (hdeleted _ (hcatalogPath base hbase _ (hmanifest _))).mpr
      ⟨hthere, fun hreached => hstays.2 ?_⟩
    obtain ⟨front, hfront, hbaseDone, hpart⟩ := manifest_reached hdone hreached
    have hincrDone := precedes_of_interruptible hids horphans hcatalog hincr
      hbase htype hnames includeForceOnly front hfront hbaseDone
    exact hpart.subset (List.mem_flatMap.mpr ⟨_, hincrDone, hmanifest _⟩)
  · intro m hm hthere hgone hstays
    rw [hdeleted _ (hcatalogPath m hm _ (hmanifest _))] at hgone
    rw [hdeleted _ (hcatalogPath m hm _ (hdata _))] at hstays
    have hreached : manifestPath m.id ∈ done := by
      by_contra hleft
      exact hgone ⟨hthere, hleft⟩
    obtain ⟨front, -, hmDone, hpart⟩ := manifest_reached hdone hreached
    exact hstays.2 (hpart.subset (List.mem_flatMap.mpr ⟨_, hmDone, hdata _⟩))
  · intro m hm hkept path hpath
    rw [hdeleted _ (hcatalogPath m hm _ hpath)]
    refine ⟨And.left, fun hthere => ⟨hthere, fun hreached => ?_⟩⟩
    rw [backupPaths_eq] at hpath
    obtain ⟨file, hfile, rfl⟩ := List.mem_map.mp hpath
    have hgoes := deletable_mono ((pathIn_mem_plannedPaths hfile).mp
      (hdone.subset hreached))
    revert hgoes
    rcases hkept with hkept | ⟨baseId, hkept, hnames⟩
    · obtain ⟨base, hbase, hopens, hretained, hid⟩ :=
        (mem_keptBaseIds (openers_nodup hids)).mp hkept
      exact keptUntouched_of_fulls hids horphans hcatalog.fulls hm hbase hopens
        hretained (Or.inl (eq_of_id hids hm hbase hid.symm))
    · obtain ⟨base, hbase, hopens, hretained, rfl⟩ :=
        (mem_keptBaseIds (openers_nodup hids)).mp hkept
      exact keptUntouched_of_fulls hids horphans hcatalog.fulls hm hbase hopens
        hretained (Or.inr hnames)

end Order

/-! What a storage that denies some deletes shows of a catalog. -/

section Necessity

variable {parse : String → Option I64} {manifests : List BackupManifest}
  {orphanIds : List String}

theorem manifestPath_mem_backupPaths (id : String) :
    manifestPath id ∈ backupPaths id := by
  simp [backupPaths]

theorem mem_catalogPaths {m : BackupManifest} (hm : m ∈ manifests)
    {path : String} (hpath : path ∈ backupPaths m.id) :
    path ∈ catalogPaths manifests :=
  List.mem_flatMap.mpr ⟨m, hm, hpath⟩

/-- Where every delete before a planned path passes, the path goes. -/
theorem executePrune_deletes {denies : Nat → String → Bool} {plan : PrunePlan}
    {includeForceOnly : Bool} {front rest : List String} {path : String}
    (hplanned : plannedPaths plan includeForceOnly = front ++ path :: rest)
    (hfront : ∀ n, ∀ other ∈ front, n < front.length →
      denies n other = true → tellsAbsence other = true)
    (hgranted : denies front.length path = false) (before : List String) :
    path ∉ (executePrune (denying denies) plan includeForceOnly
      ⟨before, 0⟩).2.entries := by
  rw [executePrune_state, hplanned]
  apply run_deletes
  · intro n other hother
    apply denying_passes
    rw [Nat.zero_add]
    exact hfront n other (List.mem_of_getElem? hother)
      (List.getElem?_eq_some_iff.mp hother).1
  · simp [denying, hgranted]

theorem executePrune_keeps {denies : Nat → String → Bool} {plan : PrunePlan}
    {includeForceOnly : Bool} {before : List String} {path : String}
    (hthere : path ∈ before)
    (hdenied : ∀ n, (plannedPaths plan includeForceOnly)[n]? = some path →
      denies n path = true) :
    path ∈ (executePrune (denying denies) plan includeForceOnly
      ⟨before, 0⟩).2.entries := by
  rw [executePrune_state]
  apply run_keeps hthere
  intro n hn
  rw [Nat.zero_add]
  simp [denying, hdenied n hn]

/-- A storage that denies nothing loses the manifests of the planned backups
and no others. -/
theorem manifest_stays_iff {m : BackupManifest} (hm : m ∈ manifests)
    (plan : PrunePlan) (includeForceOnly : Bool) :
    manifestPath m.id ∈ (executePrune (denying fun _ _ => false) plan
        includeForceOnly ⟨catalogPaths manifests, 0⟩).2.entries ↔
      m.id ∉ plan.deletableMemberIds includeForceOnly := by
  have hfile : MANIFEST_FILE ∈ backupFiles := by decide
  constructor
  · intro hstays hgoes
    obtain ⟨front, rest, hplanned⟩ :=
      List.append_of_mem ((pathIn_mem_plannedPaths hfile).mpr hgoes)
    exact executePrune_deletes hplanned (by simp) rfl _ hstays
  · intro hleft
    apply executePrune_keeps
      (mem_catalogPaths hm (manifestPath_mem_backupPaths m.id))
    intro n hn
    exact absurd ((pathIn_mem_plannedPaths hfile).mp (List.mem_of_getElem? hn))
      hleft

variable (hids : (manifests.map BackupManifest.id).Nodup)
  (horphans : ∀ m ∈ manifests, m.id ∉ orphanIds)
  (hsafe : ∀ policy nowSecs includeForceOnly backend, Backend.Honest backend →
    ∀ before, StopsSafely manifests
      (planPrune parse manifests orphanIds policy nowSecs) before
      (executePrune backend
        (planPrune parse manifests orphanIds policy nowSecs) includeForceOnly
          ⟨before, 0⟩).2.entries)

include hids hsafe

theorem keptNamesStay_of_stopsSafely :
    KeptNamesStay parse manifests orphanIds := by
  intro policy nowSecs m hm base hbase hopens hnames hretained
  have hkept : base.id ∈ (planPrune parse manifests orphanIds policy
      nowSecs).keptBaseIds :=
    (mem_keptBaseIds (openers_nodup hids)).mpr ⟨base, hbase, hopens, hretained, rfl⟩
  have hstop := hsafe policy nowSecs true _
    (denying_honest fun _ _ => false) (catalogPaths manifests)
  have hpath := manifestPath_mem_backupPaths m.id
  apply (manifest_stays_iff hm _ true).mp
  exact (hstop.keptUntouched m hm (Or.inr ⟨base.id, hkept, hnames⟩) _
    hpath).mpr (mem_catalogPaths hm hpath)

omit hids in
theorem basesStay_of_stopsSafely : BasesStay parse manifests orphanIds := by
  intro policy nowSecs flag incr hincr base hbase htype hnames hleft
  have hstop := hsafe policy nowSecs flag _
    (denying_honest fun _ _ => false) (catalogPaths manifests)
  apply (manifest_stays_iff hbase _ flag).mp
  apply hstop.bases incr hincr base hbase htype hnames
  · exact (manifest_stays_iff hincr _ flag).mpr hleft
  · exact mem_catalogPaths hbase (manifestPath_mem_backupPaths base.id)

/-- A storage that fails behind the base of an increment shows whether the
increment went before. -/
theorem listedBefore_of_stopsSafely {incr base : BackupManifest}
    (hincr : incr ∈ manifests) (hbase : base ∈ manifests) (hne : incr ≠ base)
    (htype : incr.backupType = .incremental)
    (hnames : incr.baseId = some base.id) (hstatus : base.status = .incomplete)
    (hunchained : Unchained manifests base)
    (hincrStatus : incr.status = .incomplete)
    (hincrUnchained : Unchained manifests incr) :
    ListedBefore manifests incr base := by
  obtain ⟨front, rest, hsplit⟩ := List.append_of_mem hbase
  refine ⟨front, rest, hsplit, ?_⟩
  by_contra hlate
  obtain ⟨before, after, horder, hbefore⟩ :=
    @deletedOrder_split parse manifests orphanIds RetentionPolicy.default 0
      hids base front rest hsplit hstatus hunchained
  rw [← hbefore incr hincr hincrUnchained hincrStatus] at hlate
  have hfile : MANIFEST_FILE ∈ backupFiles := by decide
  generalize hfirst : before.flatMap backupPaths ++
    [dataPath base.id, manifestShaPath base.id, fileIndexPath base.id] = first
  have hplanned : plannedPaths (planPrune parse manifests orphanIds
      RetentionPolicy.default 0) true =
      first ++ manifestPath base.id :: after.flatMap backupPaths := by
    rw [plannedPaths, horder, ← hfirst]
    simp [backupPaths]
  have hother : manifestPath incr.id ∉ backupPaths base.id := by
    intro hpath
    exact hne (eq_of_id hids hincr hbase
      ((pathIn_mem_backupPaths hfile).mp hpath))
  have hfirstIncr : manifestPath incr.id ∉ first := by
    rw [← hfirst]
    intro hmem
    rcases List.mem_append.mp hmem with hdone | hopen
    · obtain ⟨id, hid, hpath⟩ := List.mem_flatMap.mp hdone
      rw [← (pathIn_mem_backupPaths hfile).mp hpath] at hid
      exact hlate hid
    · apply hother
      rw [backupPaths]
      exact List.mem_append_left [manifestPath base.id] hopen
  have hstop := hsafe RetentionPolicy.default 0 true _
    (denying_honest fun n _ => decide (first.length < n))
    (catalogPaths manifests)
  refine executePrune_deletes hplanned ?_ (by simp) _
    (hstop.bases incr hincr base hbase htype hnames ?_
      (mem_catalogPaths hbase (manifestPath_mem_backupPaths base.id)))
  · intro n _ _ hlt hdenied
    exact absurd (of_decide_eq_true hdenied) hlt.not_gt
  · apply executePrune_keeps
      (mem_catalogPaths hincr (manifestPath_mem_backupPaths incr.id))
    intro n hn
    rw [decide_eq_true_iff]
    by_contra hlt
    rw [hplanned] at hn
    rcases (Nat.not_lt.mp hlt).lt_or_eq with hinside | rfl
    · rw [List.getElem?_append_left hinside] at hn
      exact hfirstIncr (List.mem_of_getElem? hn)
    · rw [List.getElem?_append_right (le_refl _), Nat.sub_self,
        List.getElem?_cons_zero, Option.some.injEq] at hn
      apply hother
      rw [← hn]
      exact manifestPath_mem_backupPaths base.id

/-- A storage that refuses the data of a backup shows whether its id is taken
for the absence of a path. -/
theorem tellsNothing_of_stopsSafely (horphans : ∀ m ∈ manifests, m.id ∉ orphanIds)
    {m : BackupManifest} (hm : m ∈ manifests)
    (hgoes : ¬ Unchained manifests m ∨ m.status = .incomplete) :
    tellsAbsence m.id = false := by
  by_contra htells
  rw [Bool.not_eq_false] at htells
  have hdeleted : m.id ∈ (planPrune parse manifests orphanIds (keepFullOnly 0)
      0).deletableMemberIds true := by
    by_cases hunchained : Unchained manifests m
    · exact (deletable_iff_of_unchained hids horphans hm hunchained).mpr
        ⟨rfl, hgoes.resolve_left (not_not_intro hunchained)⟩
    · simp only [Unchained, not_forall, not_not] at hunchained
      obtain ⟨base, hbase, hopens, hin⟩ := hunchained
      rw [deletable_iff_of_chainMember hids horphans hm hbase hopens hin,
        retained_keepFullOnly]
      omega
  have hfile : MANIFEST_FILE ∈ backupFiles := by decide
  have hdata : dataPath m.id ∈ backupPaths m.id := by simp [backupPaths]
  obtain ⟨front, rest, hplanned⟩ :=
    List.append_of_mem ((pathIn_mem_plannedPaths hfile).mpr hdeleted)
  have hstop := hsafe (keepFullOnly 0) 0 true _
    (denying_honest fun _ path => decide (path = dataPath m.id))
    (catalogPaths manifests)
  refine hstop.dataFirst m hm
    (mem_catalogPaths hm (manifestPath_mem_backupPaths m.id)) ?_ ?_
  · apply executePrune_deletes hplanned
    · intro n other _ _ hdenied
      rw [of_decide_eq_true hdenied]
      exact (tellsAbsence_pathIn (by decide)).trans htells
    · rw [decide_eq_false_iff_not]
      intro hpath
      have hnames := (pathIn_inj (by decide) (by decide) hpath).2
      exact absurd hnames (by decide)
  · exact executePrune_keeps (mem_catalogPaths hm hdata)
      fun _ _ => decide_eq_true rfl

include horphans

theorem interruptible_of_stopsSafely :
    InterruptibleCatalog parse manifests where
  fulls := fulls_of_keptNamesStay hids horphans
    (keptNamesStay_of_stopsSafely hids hsafe)
  bases incr hincr base hbase hne htype hnames := by
    by_cases hopens : opensChain base = true
    · exact Or.inl hopens
    obtain ⟨hunchained, hstatus⟩ := bases_of_basesStay hids horphans
      (basesStay_of_stopsSafely hsafe) hincr hbase htype hnames hopens
    refine Or.inr ⟨hunchained, ?_⟩
    by_cases hcomplete : base.status = .incomplete
    · have hincrStatus := hstatus.resolve_left (not_not_intro hcomplete)
      refine Or.inr ⟨hincrStatus, ?_⟩
      exact listedBefore_of_stopsSafely hids hsafe hincr hbase hne htype hnames
        hcomplete hunchained hincrStatus
        (unchained_of_base hids hbase htype hnames hopens)
    · exact Or.inl hcomplete
  ids _ hm hgoes := tellsNothing_of_stopsSafely hids hsafe horphans hm hgoes

end Necessity

/-- A prune may stop at any delete exactly when the catalog is
interruptible. -/
theorem executePrune_stopsSafely_iff (parse : String → Option I64)
    (manifests : List BackupManifest) (orphanIds : List String)
    (hids : (manifests.map BackupManifest.id).Nodup)
    (horphans : ∀ m ∈ manifests, m.id ∉ orphanIds) :
    (∀ policy nowSecs includeForceOnly backend, Backend.Honest backend →
      ∀ before, StopsSafely manifests
        (planPrune parse manifests orphanIds policy nowSecs) before
        (executePrune backend
          (planPrune parse manifests orphanIds policy nowSecs) includeForceOnly
            ⟨before, 0⟩).2.entries) ↔
      InterruptibleCatalog parse manifests := by
  constructor
  · exact interruptible_of_stopsSafely hids horphans
  · intro hcatalog policy nowSecs flag backend hhonest before
    exact stopsSafely_of_interruptible hids horphans hcatalog flag hhonest before

theorem executePrune_stopsSafely_plain :
    (∀ policy nowSecs includeForceOnly backend, Backend.Honest backend →
      ∀ before, StopsSafely plachainMember
        (planPrune january plachainMember ["lost"] policy nowSecs) before
        (executePrune backend
          (planPrune january plachainMember ["lost"] policy nowSecs)
            includeForceOnly ⟨before, 0⟩).2.entries) ↔
      InterruptibleCatalog january plachainMember :=
  executePrune_stopsSafely_iff january plachainMember ["lost"] (by decide)
    (by decide)

/-- An incomplete full backup and the incomplete increment of it, the full
backup listed first. -/
def remnantPair : List BackupManifest :=
  [{ plainFull "full" "2024-01-01T00:00:00Z" with status := .incomplete },
    { plainIncrement "incr" "2024-01-03T00:00:00Z" "full" with
      status := .incomplete }]

/-- A prune that stops between the two leaves an increment without its base,
though it would have taken both. -/
theorem executePrune_leavesIncrement :
    ¬ ∀ (parse : String → Option I64) (manifests : List BackupManifest)
      (orphanIds : List String) (policy : RetentionPolicy) (nowSecs : ℤ)
      (includeForceOnly : Bool) (backend : Backend) (before : List String),
      (manifests.map BackupManifest.id).Nodup →
      (∀ m ∈ manifests, m.id ∉ orphanIds) → backend.Honest →
      StopsSafely manifests
        (planPrune parse manifests orphanIds policy nowSecs) before
        (executePrune backend
          (planPrune parse manifests orphanIds policy nowSecs) includeForceOnly
            ⟨before, 0⟩).2.entries := by
  intro hsafe
  have hcatalog : InterruptibleCatalog january remnantPair :=
    @interruptible_of_stopsSafely january remnantPair [] (by decide)
      (by decide) fun policy nowSecs flag backend hhonest before =>
        hsafe january remnantPair [] policy nowSecs flag backend before
          (by decide) (by decide) hhonest
  have hbase := hcatalog.bases _ (List.mem_cons_of_mem _ List.mem_cons_self) _
    List.mem_cons_self (by decide) rfl rfl
  rcases hbase with hopens | ⟨-, hcomplete | ⟨-, front, rest, hsplit, hfront⟩⟩
  · revert hopens
    decide
  · exact hcomplete rfl
  · -- nothing stands before the first backup
    cases front with
    | nil => cases hfront
    | cons head front =>
        rw [List.cons_append, remnantPair, List.cons.injEq] at hsplit
        have hlater : ({ plainFull "full" "2024-01-01T00:00:00Z" with
            status := .incomplete } : BackupManifest) ∈
            [{ plainIncrement "incr" "2024-01-03T00:00:00Z" "full" with
              status := .incomplete }] := by
          rw [hsplit.2]
          exact List.mem_append_right _ List.mem_cons_self
        revert hlater
        decide

end XBackup
