/-
The history of a destination that one replica set is backed up to: full runs,
incremental runs and prunes, each of which may stop on its way.  Every chain
stays continuous.
-/
import XBackup.Foundation.Tiling
import XBackup.Foundation.Transition
import XBackup.Pipeline.Incremental
import XBackup.Pipeline.PruneInterrupt

namespace XBackup

open AscendingLog Precedence Tiling Transition

/-- What happens to the destination.  A prune deletes the first backups of its
plan, all of them unless it stops. -/
inductive MongoRun where
  | full (id createdAt : String) (engine : Engine) (topology : Topology)
      (selective : Bool) (window : Option OplogRange) (status : BackupStatus)
  | incremental (id createdAt : String) (server : OplogServer)
      (engine : Engine) (window : Option OplogRange) (marked : Bool)
  | prune (policy : RetentionPolicy) (nowSecs : ℤ) (includeForceOnly : Bool)
      (deleted : Nat)

namespace Catalog

def tryRecord (catalog : Catalog) (m : BackupManifest) : Option Catalog :=
  if hfresh : catalog.Fresh m.id then some (catalog.record m hfresh) else none

/-- The backups that are left when some ids are deleted. -/
def delete (catalog : Catalog) (ids : List String) : Catalog where
  manifests := catalog.manifests.filter fun m => m.id ∉ ids
  ascending := catalog.ascending.sublist List.filter_sublist
  named m hm := catalog.named m (List.mem_of_mem_filter hm)

end Catalog

/-- The destination behind a run; `none` when its id is not a new one.  A
promoted full backup may be left without its mark. -/
def mongoRun (parse : String → Option I64) (catalog : Catalog) :
    MongoRun → Option Catalog
  | .full id createdAt engine topology selective window status =>
      catalog.tryRecord
        { mongoFullManifest id createdAt engine topology selective window false
          with status := status }
  | .incremental id createdAt server engine window marked =>
      match runIncrementalBackup catalog.toStorage server with
      | .error _ => some catalog
      | .ok .promotedToFull =>
          catalog.tryRecord (mongoFullManifest id createdAt engine .replicaSet
            false window marked)
      | .ok (.captured base range oplogCount) =>
          catalog.tryRecord (mongoIncrementalManifest id createdAt
            base.fullBaseId range oplogCount)
  | .prune policy nowSecs includeForceOnly deleted =>
      some (catalog.delete ((deletedOrder
        (planPrune parse catalog.manifests [] policy nowSecs)
        includeForceOnly).take deleted))

/-- The increments recorded under a base, in the order of their ids. -/
def incrementsOf (manifests : List BackupManifest) (baseId : String) :
    List BackupManifest :=
  manifests.filter fun m =>
    m.backupType = .incremental ∧ m.baseId = some baseId

def slice (m : BackupManifest) : Option (OplogTimestamp × OplogTimestamp) :=
  m.oplogRange.map fun range => (range.startTs, range.endTs)

def slicesOf (manifests : List BackupManifest) (baseId : String) :
    List (OplogTimestamp × OplogTimestamp) :=
  (incrementsOf manifests baseId).filterMap slice

/-- The report of a chain without a break: its increments in the order they
were made, each with a range, and the ranges tile the oplog behind the base. -/
structure Unbroken (manifests : List BackupManifest) (base : BackupManifest)
    (baseEnd : OplogTimestamp) (report : ChainReport) : Prop where
  baseId : report.baseId = base.id
  breaks : report.breaks = []
  listed : report.incrementalIds =
    (incrementsOf manifests base.id).map BackupManifest.id
  ranged : ∀ incr ∈ incrementsOf manifests base.id, incr.oplogRange.isSome
  tiles : Tiles baseEnd (lastEnd baseEnd (slicesOf manifests base.id))
    (slicesOf manifests base.id)

/-- What the runs keep of a chain. -/
structure ChainHolds (manifests : List BackupManifest) (base : BackupManifest)
    (range : OplogRange) : Prop where
  usable : ∀ incr ∈ incrementsOf manifests base.id,
    incr.status = .complete ∧ incr.selective = false ∧ incr.oplogRange.isSome
  chained : Chained range.endTs (slicesOf manifests base.id)

structure HistoryInv (manifests : List BackupManifest) : Prop where
  named : ∀ incr ∈ manifests, incr.backupType = .incremental →
    ∀ baseId, incr.baseId = some baseId → baseId < incr.id
  chains : ∀ base ∈ manifests, isChainBase base = true →
    ∀ range, base.oplogRange = some range → ChainHolds manifests base range

theorem mem_incrementsOf {manifests : List BackupManifest} {baseId : String}
    {m : BackupManifest} :
    m ∈ incrementsOf manifests baseId ↔
      m ∈ manifests ∧ m.backupType = .incremental ∧ m.baseId = some baseId := by
  simp [incrementsOf]

theorem slice_eq {m : BackupManifest} {range : OplogRange}
    (hrange : m.oplogRange = some range) :
    slice m = some (range.startTs, range.endTs) := by
  rw [slice, hrange, Option.map_some]

theorem isChainBase_iff {m : BackupManifest} :
    isChainBase m = true ↔
      m.backupType = .full ∧ m.status = .complete ∧ m.selective = false := by
  simp [isChainBase]

theorem opensChain_of_isChainBase {m : BackupManifest}
    (hbase : isChainBase m = true) : opensChain m = true := by
  obtain ⟨hfull, hcomplete, -⟩ := isChainBase_iff.mp hbase
  rw [opensChain_iff, hcomplete]
  exact ⟨hfull, by decide⟩

section Report

variable {manifests : List BackupManifest} {base : BackupManifest}
  {range : OplogRange}

/-- Ascending slices have ascending keys. -/
theorem startKeys_sorted (hascending : Ascending BackupManifest.id manifests)
    (hholds : ChainHolds manifests base range) :
    ((incrementsOf manifests base.id).map ChainNode.fromManifest).Pairwise
      fun left right => left.startKey ≤ right.startKey := by
  have hids : (incrementsOf manifests base.id).Pairwise fun left right =>
      left.id < right.id := hascending.sublist List.filter_sublist
  have hstarts := hholds.chained.pairwise
  rw [slicesOf, List.pairwise_filterMap] at hstarts
  rw [List.pairwise_map]
  refine (hids.and hstarts).imp_of_mem ?_
  rintro left right hleft hright ⟨hid, hstart⟩
  obtain ⟨leftRange, hleftRange⟩ := Option.isSome_iff_exists.mp
    (hholds.usable left hleft).2.2
  obtain ⟨rightRange, hrightRange⟩ := Option.isSome_iff_exists.mp
    (hholds.usable right hright).2.2
  have hle : leftRange.startTs ≤ rightRange.startTs :=
    hstart _ (slice_eq hleftRange) _ (slice_eq hrightRange)
  simp only [ChainNode.startKey, ChainNode.startTs, ChainNode.fromManifest,
    hleftRange, hrightRange, Option.map_some, Option.elim_some,
    Prod.Lex.toLex_le_toLex, WithTop.coe_lt_coe, WithTop.coe_inj]
  rcases hle.lt_or_eq with hlt | heq
  · exact Or.inl hlt
  · exact Or.inr ⟨heq, hid.le⟩

/-- However the nodes are listed, the increments come in their order. -/
theorem incrementalsOf_eq (hascending : Ascending BackupManifest.id manifests)
    (hholds : ChainHolds manifests base range) {nodes : List ChainNode}
    (hnodes : nodes.Perm (manifests.map ChainNode.fromManifest)) :
    incrementalsOf nodes base.id =
      (incrementsOf manifests base.id).map ChainNode.fromManifest := by
  have hfilter : (incrementsOf manifests base.id).map ChainNode.fromManifest =
      (manifests.map ChainNode.fromManifest).filter fun node =>
        node.backupType = .incremental ∧ node.baseId = some base.id := by
    rw [List.filter_map]
    rfl
  have hperm : (incrementalsOf nodes base.id).Perm
      ((incrementsOf manifests base.id).map ChainNode.fromManifest) := by
    rw [incrementalsOf, hfilter]
    exact (List.mergeSort_perm _ _).trans (hnodes.filter _)
  refine hperm.eq_of_pairwise ?_ (incrementalsOf_sorted nodes base.id)
    (startKeys_sorted hascending hholds)
  intro left right hleft hright hle hge
  have hid : left.id = right.id :=
    congrArg (fun key => (ofLex key).2) (le_antisymm hle hge)
  obtain ⟨m, hm, rfl⟩ := List.mem_map.mp (hperm.mem_iff.mp hleft)
  obtain ⟨other, hother, rfl⟩ := List.mem_map.mp hright
  rw [hascending.eq_of_pos_eq (mem_incrementsOf.mp hm).1
    (mem_incrementsOf.mp hother).1 hid]

/-- Slices laid end to start join. -/
theorem adjacentBreaks_of_chained {increments : List BackupManifest}
    {start : OplogTimestamp}
    (hranged : ∀ incr ∈ increments, incr.oplogRange.isSome)
    (hchained : Chained start (increments.filterMap slice)) :
    adjacentBreaks (increments.map ChainNode.fromManifest) = [] := by
  induction increments generalizing start with
  | nil => rfl
  | cons incr rest ih =>
      obtain ⟨incrRange, hincr⟩ := Option.isSome_iff_exists.mp
        (hranged incr List.mem_cons_self)
      rw [List.filterMap_cons_some (slice_eq hincr)] at hchained
      obtain ⟨-, -, hrest⟩ := hchained
      have hrestRanged : ∀ other ∈ rest, other.oplogRange.isSome :=
        fun other hother => hranged other (List.mem_cons_of_mem incr hother)
      have hjoins := ih hrestRanged hrest
      cases rest with
      | nil => rfl
      | cons next later =>
          obtain ⟨nextRange, hnext⟩ := Option.isSome_iff_exists.mp
            (hrestRanged next List.mem_cons_self)
          rw [List.filterMap_cons_some (slice_eq hnext)] at hrest
          have hjoin : nextRange.startTs = incrRange.endTs := hrest.1
          rw [List.map_cons] at hjoins
          rw [List.map_cons, List.map_cons, adjacentBreaks, hjoins]
          simp [ChainNode.startTs, ChainNode.endTs, ChainNode.fromManifest,
            hincr, hnext, hjoin]

theorem joinBreaks_of_chained (hrange : base.oplogRange = some range)
    (hholds : ChainHolds manifests base range) :
    joinBreaks (ChainNode.fromManifest base) base.id
      ((incrementsOf manifests base.id).map ChainNode.fromManifest) =
        ([], []) := by
  have hchained := hholds.chained
  have hranged := fun incr hincr => (hholds.usable incr hincr).2.2
  rw [slicesOf] at hchained
  cases hincrs : incrementsOf manifests base.id with
  | nil => rfl
  | cons first rest =>
      rw [hincrs] at hchained hranged
      obtain ⟨firstRange, hfirst⟩ := Option.isSome_iff_exists.mp
        (hranged first List.mem_cons_self)
      rw [List.filterMap_cons_some (slice_eq hfirst)] at hchained
      have hjoin : firstRange.startTs = range.endTs := hchained.1
      rw [List.map_cons, joinBreaks]
      simp [ChainNode.startTs, ChainNode.endTs, ChainNode.fromManifest, hfirst,
        hrange, hjoin]

/-- A chain that holds is reported without a break. -/
theorem unbroken_of_holds (hascending : Ascending BackupManifest.id manifests)
    (hbase : base ∈ manifests) (heligible : isChainBase base = true)
    (hrange : base.oplogRange = some range)
    (hholds : ChainHolds manifests base range) {nodes : List ChainNode}
    (hnodes : nodes.Perm (manifests.map ChainNode.fromManifest)) :
    Unbroken manifests base range.endTs (verifyChain nodes base.id) := by
  obtain ⟨hfull, hcomplete, hwhole⟩ := isChainBase_iff.mp heligible
  have hids : (nodes.map ChainNode.id).Nodup := by
    rw [(hnodes.map ChainNode.id).nodup_iff, List.map_map]
    exact (List.pairwise_map.mpr hascending).imp ne_of_lt
  have hfind : findNode nodes base.id = some (.fromManifest base) :=
    @findNode_of_mem _ (.fromManifest base) hids
      (hnodes.mem_iff.mpr (List.mem_map_of_mem hbase))
  have hbaseBreaks : baseBreaks (.fromManifest base) base.id = [] := by
    simp [baseBreaks, ChainNode.fromManifest, ChainNode.isIncomplete, hfull,
      hcomplete, hwhole]
  have hmembers : ((incrementsOf manifests base.id).map
      ChainNode.fromManifest).flatMap (memberBreaks
        (ChainNode.fromManifest base).oplogRange.isSome) = [] := by
    rw [List.flatMap_eq_nil_iff]
    intro node hnode
    obtain ⟨incr, hincr, rfl⟩ := List.mem_map.mp hnode
    obtain ⟨hstatus, -, hranged⟩ := hholds.usable incr hincr
    obtain ⟨incrRange, hincrRange⟩ := Option.isSome_iff_exists.mp hranged
    simp [memberBreaks, ChainNode.isIncomplete, ChainNode.fromManifest, hstatus,
      hincrRange]
  have hranged := fun incr hincr => (hholds.usable incr hincr).2.2
  rw [verifyChain_full hfind hfull, reportForBase, hfind]
  simp only [incrementalsOf_eq hascending hholds hnodes,
    joinBreaks_of_chained hrange hholds, hbaseBreaks, hmembers,
    adjacentBreaks_of_chained hranged hholds.chained, List.append_nil]
  refine ⟨rfl, rfl, ?_, hranged, hholds.chained.tiles⟩
  rw [List.map_map]
  rfl

end Report

section Steps

variable {catalog : Catalog}

theorem Catalog.tryRecord_eq_some {m : BackupManifest} {next : Catalog}
    (hrecord : catalog.tryRecord m = some next) :
    next.manifests = catalog.manifests ++ [m] ∧
      ∀ old ∈ catalog.manifests, old.id < m.id := by
  rw [tryRecord] at hrecord
  split at hrecord
  next hfresh =>
    cases hrecord
    exact ⟨rfl, hfresh.2⟩
  next => cases hrecord

theorem incrementsOf_append (manifests : List BackupManifest)
    (m : BackupManifest) (baseId : String) :
    incrementsOf (manifests ++ [m]) baseId =
      incrementsOf manifests baseId ++ incrementsOf [m] baseId :=
  List.filter_append ..

theorem ChainHolds.of_same {manifests next : List BackupManifest}
    {base : BackupManifest} {range : OplogRange}
    (hholds : ChainHolds manifests base range)
    (hsame : incrementsOf next base.id = incrementsOf manifests base.id) :
    ChainHolds next base range := by
  constructor
  · rw [hsame]
    exact hholds.usable
  · rw [slicesOf, hsame]
    exact hholds.chained

/-- A new full backup is no increment, and no older one names it. -/
theorem HistoryInv.record_full (hinv : HistoryInv catalog.manifests)
    {m : BackupManifest} (hfull : m.backupType = .full)
    (hfresh : ∀ old ∈ catalog.manifests, old.id < m.id) :
    HistoryInv (catalog.manifests ++ [m]) := by
  have hsame : ∀ baseId, incrementsOf (catalog.manifests ++ [m]) baseId =
      incrementsOf catalog.manifests baseId := by
    intro baseId
    rw [incrementsOf_append]
    simp [incrementsOf, hfull]
  constructor
  · intro incr hincr htype baseId hnames
    rcases List.mem_append.mp hincr with hold | hnew
    · exact hinv.named incr hold htype baseId hnames
    · rw [List.mem_singleton.mp hnew, hfull] at htype
      cases htype
  · intro base hbase heligible range hrange
    rcases List.mem_append.mp hbase with hold | hnew
    · exact (hinv.chains base hold heligible range hrange).of_same
        (hsame base.id)
    · rw [List.mem_singleton.mp hnew]
      have hnone : incrementsOf (catalog.manifests ++ [m]) m.id = [] := by
        rw [hsame, List.eq_nil_iff_forall_not_mem]
        intro incr hincr
        obtain ⟨hlisted, htype, hnames⟩ := mem_incrementsOf.mp hincr
        exact absurd (hinv.named incr hlisted htype m.id hnames)
          (hfresh incr hlisted).not_gt
      refine ⟨?_, ?_⟩
      · rw [hnone]
        intro incr hincr
        cases hincr
      · rw [slicesOf, hnone]
        trivial

/-- The selected position is where the chain ends that is continued. -/
theorem HistoryInv.lastBackupTs_eq (hinv : HistoryInv catalog.manifests)
    {selection : BaseSelection}
    (hselect : selectBase catalog.toStorage = .ok selection)
    {base : BackupManifest} (hbase : base ∈ catalog.manifests)
    (heligible : isChainBase base = true) {range : OplogRange}
    (hrange : base.oplogRange = some range)
    (hid : base.id = selection.fullBaseId) :
    selection.lastBackupTs =
      lastEnd range.endTs (slicesOf catalog.manifests base.id) := by
  obtain ⟨tip, htip, hoffer, hmax⟩ := selectBase_toStorage_iff.mp hselect
  obtain ⟨-, ⟨tipRange, htipRange, hlast⟩, hkind⟩ := baseSelection_eq_some hoffer
  have hholds := hinv.chains base hbase heligible range hrange
  have hoffers : ∀ incr ∈ incrementsOf catalog.manifests base.id,
      incr.id ≤ tip.id := by
    intro incr hincr
    obtain ⟨hlisted, htype, hnames⟩ := mem_incrementsOf.mp hincr
    obtain ⟨hstatus, hwhole, hranged⟩ := hholds.usable incr hincr
    obtain ⟨incrRange, hincrRange⟩ := Option.isSome_iff_exists.mp hranged
    have hread : catalog.toStorage.read base.id = .ok base :=
      Catalog.read_toStorage.mpr ⟨hbase, rfl⟩
    apply hmax incr hlisted
    simp [baseSelection, hstatus, hwhole, hincrRange, htype, hnames, hread,
      heligible]
  rcases hkind with ⟨hfull, hown⟩ | ⟨htype, hnames⟩
  · -- the base itself: what its increments are named behind cannot exist yet
    rw [hown] at hid
    obtain rfl := catalog.ascending.eq_of_pos_eq hbase htip hid
    have hnone : incrementsOf catalog.manifests base.id = [] := by
      rw [List.eq_nil_iff_forall_not_mem]
      intro incr hincr
      obtain ⟨hlisted, htype, hnames⟩ := mem_incrementsOf.mp hincr
      exact absurd (hinv.named incr hlisted htype base.id hnames)
        (hoffers incr hincr).not_gt
    rw [hrange] at htipRange
    cases htipRange
    rw [hlast, slicesOf, hnone]
    rfl
  · -- its newest increment, which is listed last
    rw [← hid] at hnames
    have hmember : tip ∈ incrementsOf catalog.manifests base.id :=
      mem_incrementsOf.mpr ⟨htip, htype, hnames⟩
    have hids : (incrementsOf catalog.manifests base.id).Pairwise
        fun left right => left.id < right.id :=
      catalog.ascending.sublist List.filter_sublist
    obtain ⟨front, rest, hsplit⟩ := List.append_of_mem hmember
    have hrest : rest = [] := by
      rw [List.eq_nil_iff_forall_not_mem]
      intro later hlater
      have hle := hoffers later (by simp [hsplit, hlater])
      rw [hsplit, List.pairwise_append, List.pairwise_cons] at hids
      exact absurd (hids.2.1.1 later hlater) hle.not_gt
    rw [hlast, slicesOf, hsplit, hrest, List.filterMap_append,
      List.filterMap_cons_some (slice_eq htipRange), List.filterMap_nil,
      lastEnd_append_singleton]

/-- An incremental run extends the chain it continues. -/
theorem HistoryInv.record_incremental (hinv : HistoryInv catalog.manifests)
    {selection : BaseSelection}
    (hselect : selectBase catalog.toStorage = .ok selection)
    {id createdAt : String} {range : OplogRange} {oplogCount : Nat}
    (hstart : range.startTs = selection.lastBackupTs)
    (hforward : range.startTs ≤ range.endTs)
    (hfresh : ∀ old ∈ catalog.manifests, old.id < id) :
    HistoryInv (catalog.manifests ++ [mongoIncrementalManifest id createdAt
      selection.fullBaseId range oplogCount]) := by
  generalize hm : mongoIncrementalManifest id createdAt selection.fullBaseId
    range oplogCount = m
  have hbaseId : selection.fullBaseId < id := by
    obtain ⟨tip, htip, hoffer, -⟩ := selectBase_toStorage_iff.mp hselect
    obtain ⟨-, -, ⟨-, hown⟩ | ⟨htype, hnames⟩⟩ := baseSelection_eq_some hoffer
    · rw [hown]
      exact hfresh tip htip
    · exact (hinv.named tip htip htype _ hnames).trans (hfresh tip htip)
  constructor
  · intro incr hincr htype baseId hnames
    rcases List.mem_append.mp hincr with hold | hnew
    · exact hinv.named incr hold htype baseId hnames
    · obtain rfl := List.mem_singleton.mp hnew
      subst hm
      cases hnames
      exact hbaseId
  · intro base hbase heligible baseRange hrange
    have hold : base ∈ catalog.manifests := by
      refine (List.mem_append.mp hbase).resolve_right fun hnew => ?_
      rw [List.mem_singleton.mp hnew, ← hm] at heligible
      simp [isChainBase, mongoIncrementalManifest] at heligible
    have hholds := hinv.chains base hold heligible baseRange hrange
    by_cases hid : base.id = selection.fullBaseId
    · have happend : incrementsOf (catalog.manifests ++ [m]) base.id =
          incrementsOf catalog.manifests base.id ++ [m] := by
        rw [incrementsOf_append, hid, ← hm]
        simp [incrementsOf, mongoIncrementalManifest]
      have hranges : m.oplogRange = some range := by rw [← hm]; rfl
      constructor
      · rw [happend]
        intro incr hincr
        rcases List.mem_append.mp hincr with hearlier | hnew
        · exact hholds.usable incr hearlier
        · rw [List.mem_singleton.mp hnew, ← hm]
          exact ⟨rfl, rfl, rfl⟩
      · rw [slicesOf, happend, List.filterMap_append,
          List.filterMap_cons_some (slice_eq hranges), List.filterMap_nil,
          chained_append_singleton]
        refine ⟨hholds.chained, ?_, hforward⟩
        exact hstart.trans
          (hinv.lastBackupTs_eq hselect hold heligible hrange hid)
    · apply hholds.of_same
      rw [incrementsOf_append, ← hm]
      simp [incrementsOf, mongoIncrementalManifest, Ne.symm hid]

theorem ids_nodup_of_ascending {manifests : List BackupManifest}
    (hascending : Ascending BackupManifest.id manifests) :
    (manifests.map BackupManifest.id).Nodup :=
  (List.pairwise_map.mpr hascending).imp ne_of_lt

/-- A prune takes the later increments of a chain first. -/
theorem precedes_increments (parse : String → Option I64)
    (policy : RetentionPolicy) (nowSecs : ℤ) (includeForceOnly : Bool)
    {base : BackupManifest} {range : OplogRange} (hbase : base ∈ catalog.manifests)
    (heligible : isChainBase base = true)
    (hholds : ChainHolds catalog.manifests base range) :
    (incrementsOf catalog.manifests base.id).Pairwise fun first last =>
      Precedes (deletedOrder
        (planPrune parse catalog.manifests [] policy nowSecs) includeForceOnly)
          last.id first.id := by
  have hids := ids_nodup_of_ascending catalog.ascending
  have hopens := opensChain_of_isChainBase heligible
  have hmembers : (chainOf parse catalog.manifests base).memberIds =
      base.id ::
        (incrementsOf catalog.manifests base.id).map BackupManifest.id := by
    rw [chainOf, chainGroup]
    dsimp only
    rw [chainReport_incrementalIds hbase hopens (own_id hids hbase),
      incrementalsOf_eq catalog.ascending hholds (List.Perm.refl _),
      List.map_map]
    rfl
  have hnodup : (chainOf parse catalog.manifests base).memberIds.Nodup :=
    memberIds_nodup hids hbase hopens
  rw [hmembers, List.nodup_cons] at hnodup
  refine (List.pairwise_map.mp (precedes_reverse hnodup.2)).imp_of_mem ?_
  intro first last hfirst _ hprecedes
  obtain ⟨hlisted, htype, hnames⟩ := mem_incrementsOf.mp hfirst
  apply precedes_of_chain hids (by simp) hlisted hbase hopens
    (Or.inr ⟨htype, hnames⟩)
  rw [hmembers, deleteOrder]
  refine hprecedes.append fun hmem => ?_
  have hsame : first.id = base.id := List.mem_singleton.mp hmem
  exact absurd (List.mem_map.mpr ⟨first, hfirst, hsame⟩) hnodup.1

/-- What a prune leaves of a chain it stopped in is the beginning of it. -/
theorem HistoryInv.delete (hinv : HistoryInv catalog.manifests)
    {parse : String → Option I64} {policy : RetentionPolicy} {nowSecs : ℤ}
    {includeForceOnly : Bool} {cut : List String}
    (hcut : cut <+: deletedOrder
      (planPrune parse catalog.manifests [] policy nowSecs) includeForceOnly) :
    HistoryInv (catalog.delete cut).manifests := by
  constructor
  · intro incr hincr
    exact hinv.named incr (List.mem_of_mem_filter hincr)
  · intro base hbase heligible range hrange
    have hlisted := List.mem_of_mem_filter hbase
    have hholds := hinv.chains base hlisted heligible range hrange
    have hleft : incrementsOf (catalog.delete cut).manifests base.id <+:
        incrementsOf catalog.manifests base.id := by
      have hcomm : incrementsOf (catalog.delete cut).manifests base.id =
          (incrementsOf catalog.manifests base.id).filter
            fun m => m.id ∉ cut := by
        rw [incrementsOf, incrementsOf, Catalog.delete, List.filter_comm]
      rw [hcomm]
      apply filter_isPrefix
      refine (precedes_increments parse policy nowSecs includeForceOnly hlisted
        heligible hholds).imp ?_
      intro first last hprecedes hlast
      rw [decide_eq_true_iff] at hlast ⊢
      exact fun hfirst => hlast (hprecedes cut hcut hfirst)
    constructor
    · intro incr hincr
      exact hholds.usable incr (hleft.subset hincr)
    · exact hholds.chained.of_prefix (hleft.filterMap slice)

theorem mongoRun_inv {parse : String → Option I64} {next : Catalog}
    {label : MongoRun} (hinv : HistoryInv catalog.manifests)
    (hrun : mongoRun parse catalog label = some next) :
    HistoryInv next.manifests := by
  cases label with
  | full id createdAt engine topology selective window status =>
      obtain ⟨hnext, hfresh⟩ := Catalog.tryRecord_eq_some hrun
      rw [hnext]
      exact hinv.record_full rfl hfresh
  | incremental id createdAt server engine window marked =>
      simp only [mongoRun] at hrun
      split at hrun
      next =>
        cases hrun
        exact hinv
      next =>
        obtain ⟨hnext, hfresh⟩ := Catalog.tryRecord_eq_some hrun
        rw [hnext]
        exact hinv.record_full rfl hfresh
      next selection range oplogCount hcaptured =>
        obtain ⟨hselect, hstart, hforward, -⟩ :=
          runIncrementalBackup_captured hcaptured
        obtain ⟨hnext, hfresh⟩ := Catalog.tryRecord_eq_some hrun
        rw [hnext]
        exact hinv.record_incremental hselect hstart hforward hfresh
  | prune policy nowSecs includeForceOnly deleted =>
      cases hrun
      exact hinv.delete (List.take_prefix _ _)

end Steps

/-- In every history the chain of every complete, non-selective full backup
with an oplog range is unbroken, however its nodes are listed. -/
theorem mongoHistory_unbroken (parse : String → Option I64)
    (labels : List MongoRun) (catalog : Catalog)
    (hrun : run (mongoRun parse) .empty labels = some catalog)
    (base : BackupManifest) (hbase : base ∈ catalog.manifests)
    (heligible : isChainBase base = true) (range : OplogRange)
    (hrange : base.oplogRange = some range) (nodes : List ChainNode)
    (hnodes : nodes.Perm (catalog.manifests.map ChainNode.fromManifest)) :
    Unbroken catalog.manifests base range.endTs (verifyChain nodes base.id) := by
  have hinv : HistoryInv catalog.manifests := by
    refine run_invariant (fun st : Catalog => HistoryInv st.manifests)
      (fun st label next hst hstep => mongoRun_inv hst hstep) ?_ hrun
    constructor
    · intro incr hincr
      cases hincr
    · intro base hbase
      cases hbase
  exact unbroken_of_holds catalog.ascending hbase heligible hrange
    (hinv.chains base hbase heligible range hrange) hnodes

/-- A full backup, a slice and an empty slice. -/
def sliceHistory : List MongoRun :=
  [.full "b1" "10" .native .replicaSet false (some ⟨⟨100, 1⟩, ⟨100, 1⟩⟩)
      .complete,
    .incremental "b2" "20" (oplogServer ⟨90, 1⟩ ⟨110, 1⟩) .native none true,
    .incremental "b3" "30" (oplogServer ⟨90, 1⟩ ⟨110, 1⟩) .native none true]

def sliceBase : BackupManifest :=
  mongoFullManifest "b1" "10" .native .replicaSet false
    (some ⟨⟨100, 1⟩, ⟨100, 1⟩⟩) false

theorem mongoHistory_unbroken_slices :
    ∃ catalog, run (mongoRun january) .empty sliceHistory = some catalog ∧
      Unbroken catalog.manifests sliceBase ⟨100, 1⟩
        (verifyChain (catalog.manifests.map ChainNode.fromManifest) "b1") := by
  have hruns : (run (mongoRun january) .empty sliceHistory).map
      (fun catalog => decide (sliceBase ∈ catalog.manifests)) = some true := by
    decide
  obtain ⟨catalog, hcatalog, hbase⟩ := Option.map_eq_some_iff.mp hruns
  exact ⟨catalog, hcatalog, mongoHistory_unbroken january sliceHistory catalog
    hcatalog sliceBase (of_decide_eq_true hbase) rfl _ rfl _
      (List.Perm.refl _)⟩

end XBackup
