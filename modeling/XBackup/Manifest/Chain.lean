/-
Continuity of an incremental chain.  `verifyChain` is the pure judgement of the
manifest catalog; a continuous report of a base with an oplog range says that
its increments are linked end to start from the end of the base.
-/
import XBackup.Manifest.Schema

namespace XBackup

/-- The projection of a manifest that chain decisions read. -/
structure ChainNode where
  id : String
  backupType : BackupType
  baseId : Option String
  oplogRange : Option (OplogTimestamp × OplogTimestamp)
  isEmptySlice : Bool
  selective : Bool
  status : BackupStatus
deriving DecidableEq, Repr

namespace ChainNode

def fromManifest (m : BackupManifest) : ChainNode where
  id := m.id
  backupType := m.backupType
  baseId := m.baseId
  oplogRange := m.oplogRange.map fun range => (range.startTs, range.endTs)
  isEmptySlice := m.oplogCount == some 0
  selective := m.selective
  status := m.status

def startTs (node : ChainNode) : Option OplogTimestamp :=
  node.oplogRange.map Prod.fst

def endTs (node : ChainNode) : Option OplogTimestamp :=
  node.oplogRange.map Prod.snd

def isIncomplete (node : ChainNode) : Bool :=
  node.status == .incomplete

/-- The comparison of step 3: `(start_ts, id)`, nodes without a range last. -/
def cmpStart (left right : ChainNode) : Ordering :=
  match left.startTs, right.startTs with
  | some sl, some sr => (sl.cmp sr).then (compare left.id right.id)
  | some _, none => .lt
  | none, some _ => .gt
  | none, none => compare left.id right.id

end ChainNode

inductive ChainBreak where
  | missingBase (baseId : String)
  | ineligibleBase (baseId reason : String)
  | incompleteMember (id : String)
  | missingOplogRange (id : String)
  | discontinuity (prevId nextId : String) (prevEnd nextStart : OplogTimestamp)
  | baseJoinGap (baseId firstIncrId : String)
      (baseEnd incrStart : OplogTimestamp)
deriving DecidableEq, Repr

inductive ChainWarning where
  | baseHasNoOplogRange (baseId : String)
deriving DecidableEq, Repr

structure ChainReport where
  baseId : String
  incrementalIds : List String
  breaks : List ChainBreak
  warnings : List ChainWarning
deriving DecidableEq, Repr

def ChainReport.isContinuous (report : ChainReport) : Bool :=
  report.breaks.isEmpty

def findNode (nodes : List ChainNode) (id : String) : Option ChainNode :=
  nodes.find? fun node => node.id = id

/-- The report of a target that cannot be traced to a base. -/
def missingBaseReport (baseId missing : String) : ChainReport :=
  ⟨baseId, [], [.missingBase missing], []⟩

/-- Step 2: the base must be a full, non-selective, complete backup. -/
def baseBreaks (base : ChainNode) (baseId : String) : List ChainBreak :=
  (if base.backupType ≠ .full then
    [.ineligibleBase baseId "base가 풀백업이 아닙니다"] else []) ++
  (if base.selective then
    [.ineligibleBase baseId
      "selective 백업은 증분 base가 될 수 없습니다(FR-1)"] else []) ++
  (if base.isIncomplete then [.incompleteMember baseId] else [])

/-- Step 3: the increments that name the base, in `(start_ts, id)` order. -/
def incrementalsOf (nodes : List ChainNode) (baseId : String) :
    List ChainNode :=
  (nodes.filter fun node =>
    node.backupType = .incremental ∧ node.baseId = some baseId).mergeSort
      fun left right => (left.cmpStart right).isLE

/-- Step 4: what makes one increment unusable.  The range is only required of
a chain whose base has one. -/
def memberBreaks (mongoChain : Bool) (incr : ChainNode) : List ChainBreak :=
  (if incr.isIncomplete then [.incompleteMember incr.id] else []) ++
  (if mongoChain && incr.oplogRange.isNone then
    [.missingOplogRange incr.id] else [])

/-- Step 5: the first increment starts where the base ends. -/
def joinBreaks (base : ChainNode) (baseId : String) :
    List ChainNode → List ChainBreak × List ChainWarning
  | [] => ([], [])
  | first :: _ =>
      match base.endTs, first.startTs with
      | some baseEnd, some incrStart =>
          if baseEnd ≠ incrStart then
            ([.baseJoinGap baseId first.id baseEnd incrStart], [])
          else ([], [])
      | none, _ => ([], [.baseHasNoOplogRange baseId])
      | some _, none => ([], [])

/-- Step 6: every increment starts where the previous one ends. -/
def adjacentBreaks : List ChainNode → List ChainBreak
  | [] => []
  | [_] => []
  | prev :: next :: rest =>
      (match prev.endTs, next.startTs with
      | some prevEnd, some nextStart =>
          if prevEnd ≠ nextStart then
            [.discontinuity prev.id next.id prevEnd nextStart]
          else []
      | _, _ => []) ++ adjacentBreaks (next :: rest)

/-- Steps 2 to 6; nothing here looks at the target. -/
def reportForBase (nodes : List ChainNode) (baseId : String) : ChainReport :=
  match findNode nodes baseId with
  | none => missingBaseReport baseId baseId
  | some base =>
      let incrementals := incrementalsOf nodes baseId
      let (joins, warnings) := joinBreaks base baseId incrementals
      { baseId := baseId
        incrementalIds := incrementals.map ChainNode.id
        breaks := baseBreaks base baseId ++
          incrementals.flatMap (memberBreaks base.oplogRange.isSome) ++
          joins ++ adjacentBreaks incrementals
        warnings := warnings }

def verifyChain (nodes : List ChainNode) (targetId : String) : ChainReport :=
  match findNode nodes targetId with
  | none => missingBaseReport targetId targetId
  | some target =>
      match target.backupType with
      | .full => reportForBase nodes target.id
      | .incremental =>
          match target.baseId with
          | some baseId => reportForBase nodes baseId
          | none => missingBaseReport "" ("(증분 '" ++ targetId ++ "'에 base_id 없음)")

theorem findNode_id {nodes : List ChainNode} {id : String} {node : ChainNode}
    (hfind : findNode nodes id = some node) : node.id = id := by
  simpa using List.find?_some hfind

theorem findNode_mem {nodes : List ChainNode} {id : String} {node : ChainNode}
    (hfind : findNode nodes id = some node) : node ∈ nodes :=
  List.mem_of_find?_eq_some hfind

/-- With distinct ids every listed node is the one its id finds. -/
theorem findNode_of_mem {nodes : List ChainNode} {node : ChainNode}
    (hnodup : (nodes.map ChainNode.id).Nodup) (hmem : node ∈ nodes) :
    findNode nodes node.id = some node := by
  induction nodes with
  | nil => simp at hmem
  | cons head tail ih =>
      simp only [List.map_cons, List.nodup_cons] at hnodup
      rcases List.mem_cons.mp hmem with rfl | htail
      · simp [findNode]
      · have hne : head.id ≠ node.id := by
          intro heq
          exact hnodup.1 (heq ▸ List.mem_map_of_mem htail)
        have hrec := ih hnodup.2 htail
        simpa [findNode, hne] using hrec

/-- A full backup is its own base. -/
theorem verifyChain_full {nodes : List ChainNode} {id : String}
    {base : ChainNode} (hfind : findNode nodes id = some base)
    (hfull : base.backupType = .full) :
    verifyChain nodes id = reportForBase nodes id := by
  simp [verifyChain, hfind, hfull, findNode_id hfind]

theorem mem_incrementalsOf {nodes : List ChainNode} {baseId : String}
    {node : ChainNode} :
    node ∈ incrementalsOf nodes baseId ↔
      node ∈ nodes ∧ node.backupType = .incremental ∧
        node.baseId = some baseId := by
  simp [incrementalsOf, List.mem_mergeSort]

theorem incrementalsOf_ids_nodup {nodes : List ChainNode}
    (hnodup : (nodes.map ChainNode.id).Nodup) (baseId : String) :
    ((incrementalsOf nodes baseId).map ChainNode.id).Nodup := by
  have hperm := List.mergeSort_perm
    (nodes.filter fun node =>
      node.backupType = .incremental ∧ node.baseId = some baseId)
    (fun left right => (left.cmpStart right).isLE)
  rw [incrementalsOf, (hperm.map ChainNode.id).nodup_iff]
  exact hnodup.sublist (List.filter_sublist.map ChainNode.id)

/-- The key behind `cmpStart`: nodes without a range come last. -/
def ChainNode.startKey (node : ChainNode) :
    Lex (WithTop OplogTimestamp × String) :=
  toLex (node.startTs.elim ⊤ WithTop.some, node.id)

theorem ChainNode.cmpStart_isLE_iff (left right : ChainNode) :
    (left.cmpStart right).isLE ↔ left.startKey ≤ right.startKey := by
  cases hl : left.startTs with
  | none =>
      cases hr : right.startTs with
      | none =>
          simp [cmpStart, startKey, hl, hr, Prod.Lex.toLex_le_toLex,
            Std.LawfulBCmp.isLE_iff_le]
      | some sr => simp [cmpStart, startKey, hl, hr, Prod.Lex.toLex_le_toLex]
  | some sl =>
      cases hr : right.startTs with
      | none => simp [cmpStart, startKey, hl, hr, Prod.Lex.toLex_le_toLex]
      | some sr =>
          simp only [cmpStart, startKey, hl, hr, Option.elim_some,
            OplogTimestamp.cmp_eq_compare, Prod.Lex.toLex_le_toLex,
            WithTop.coe_lt_coe, WithTop.coe_inj, Ordering.isLE_then_iff_or,
            compare_lt_iff_lt, compare_eq_iff_eq, Std.LawfulBCmp.isLE_iff_le]

theorem incrementalsOf_sorted (nodes : List ChainNode) (baseId : String) :
    (incrementalsOf nodes baseId).Pairwise fun left right =>
      left.startKey ≤ right.startKey := by
  have htrans : ∀ first second third : ChainNode,
      (first.cmpStart second).isLE → (second.cmpStart third).isLE →
        (first.cmpStart third).isLE := by
    intro first second third hfirst hsecond
    rw [ChainNode.cmpStart_isLE_iff] at *
    exact hfirst.trans hsecond
  have htotal : ∀ first second : ChainNode,
      (first.cmpStart second).isLE || (second.cmpStart first).isLE := by
    intro first second
    rw [Bool.or_eq_true, ChainNode.cmpStart_isLE_iff,
      ChainNode.cmpStart_isLE_iff]
    exact le_total first.startKey second.startKey
  have hsorted := List.pairwise_mergeSort htrans htotal
    (nodes.filter fun node =>
      node.backupType = .incremental ∧ node.baseId = some baseId)
  exact hsorted.imp fun hle => (ChainNode.cmpStart_isLE_iff _ _).mp hle

theorem ChainNode.start_le_of_startKey_le {left right : ChainNode}
    {leftStart rightStart : OplogTimestamp}
    (hle : left.startKey ≤ right.startKey)
    (hleft : left.startTs = some leftStart)
    (hright : right.startTs = some rightStart) : leftStart ≤ rightStart := by
  rw [startKey, startKey, hleft, hright, Prod.Lex.toLex_le_toLex] at hle
  rcases hle with hlt | ⟨heq, -⟩
  · exact (WithTop.coe_lt_coe.mp hlt).le
  · exact (WithTop.coe_inj.mp heq).le

/-- The slices are linked: each one starts where the previous one ended, and
only the last one may end before it starts. -/
def LinkedFrom : OplogTimestamp → List ChainNode → Prop
  | _, [] => True
  | prevEnd, slice :: rest =>
      ∃ sliceEnd, slice.oplogRange = some (prevEnd, sliceEnd) ∧
        (rest ≠ [] → prevEnd ≤ sliceEnd) ∧ LinkedFrom sliceEnd rest

/-- No adjacency break and a range on every slice is the link relation. -/
theorem linkedFrom_of_adjacentBreaks {slice : ChainNode}
    {rest : List ChainNode} {start : OplogTimestamp}
    (hranges : ∀ node ∈ slice :: rest, node.oplogRange.isSome)
    (hstart : slice.startTs = some start)
    (hsorted : (slice :: rest).Pairwise fun left right =>
      left.startKey ≤ right.startKey)
    (hadjacent : adjacentBreaks (slice :: rest) = []) :
    LinkedFrom start (slice :: rest) := by
  induction rest generalizing slice start with
  | nil =>
      simp only [ChainNode.startTs, Option.map_eq_some_iff] at hstart
      obtain ⟨range, hrange, rfl⟩ := hstart
      exact ⟨range.2, hrange, fun hne => absurd rfl hne, trivial⟩
  | cons next rest ih =>
      have hslice := hstart
      simp only [ChainNode.startTs, Option.map_eq_some_iff] at hstart
      obtain ⟨range, hrange, rfl⟩ := hstart
      obtain ⟨hfirst, htail⟩ := List.pairwise_cons.mp hsorted
      obtain ⟨nextRange, hnext⟩ := Option.isSome_iff_exists.mp
        (hranges next (by simp))
      simp only [adjacentBreaks, ChainNode.endTs, ChainNode.startTs, hrange,
        hnext, Option.map_some, List.append_eq_nil_iff] at hadjacent
      have hjoin : range.2 = nextRange.1 := by
        by_contra hne
        simp [hne] at hadjacent
      have hnextStart : next.startTs = some range.2 := by
        simp [ChainNode.startTs, hnext, hjoin]
      refine ⟨range.2, hrange, fun _ => ?_,
        ih ?_ hnextStart htail hadjacent.2⟩
      · exact ChainNode.start_le_of_startKey_le (hfirst next (by simp))
          hslice hnextStart
      · intro node hnode
        exact hranges node (List.mem_cons_of_mem slice hnode)

/-- What a continuous report says of a base that has an oplog range. -/
structure ContinuousChain (base : ChainNode) (baseEnd : OplogTimestamp)
    (slices : List ChainNode) : Prop where
  full : base.backupType = .full
  nonSelective : base.selective = false
  complete : ∀ node ∈ base :: slices, node.isIncomplete = false
  linked : LinkedFrom baseEnd slices

theorem continuousChain_of_verifyChain {nodes : List ChainNode} {id : String}
    {base : ChainNode} {baseStart baseEnd : OplogTimestamp}
    (hfind : findNode nodes id = some base)
    (hfull : base.backupType = .full)
    (hrange : base.oplogRange = some (baseStart, baseEnd))
    (hcontinuous : (verifyChain nodes id).isContinuous = true) :
    ContinuousChain base baseEnd (incrementalsOf nodes id) := by
  rw [verifyChain_full hfind hfull] at hcontinuous
  simp only [ChainReport.isContinuous, reportForBase, hfind,
    List.isEmpty_iff, List.append_eq_nil_iff, List.flatMap_eq_nil_iff,
    hrange, Option.isSome_some] at hcontinuous
  obtain ⟨⟨⟨hbase, hmembers⟩, hjoin⟩, hadjacent⟩ := hcontinuous
  simp only [baseBreaks, hfull, ne_eq, not_true_eq_false, if_false,
    List.nil_append, List.append_eq_nil_iff] at hbase
  have hsome : ∀ node ∈ incrementalsOf nodes id, node.oplogRange.isSome := by
    intro node hnode
    have hmember := hmembers node hnode
    by_contra hnone
    simp [memberBreaks, Option.not_isSome_iff_eq_none.mp hnone] at hmember
  refine ⟨hfull, ?_, ?_, ?_⟩
  · by_contra hselective
    simp [hselective] at hbase
  · intro node hnode
    by_contra hincomplete
    rcases List.mem_cons.mp hnode with rfl | hslice
    · simp [hincomplete] at hbase
    · have hmember := hmembers node hslice
      simp [memberBreaks, hincomplete] at hmember
  · have hsorted := incrementalsOf_sorted nodes id
    cases hslices : incrementalsOf nodes id with
    | nil => trivial
    | cons first rest =>
        rw [hslices] at hsome hjoin hadjacent hsorted
        obtain ⟨firstRange, hfirst⟩ := Option.isSome_iff_exists.mp
          (hsome first (by simp))
        apply linkedFrom_of_adjacentBreaks hsome ?_ hsorted hadjacent
        simp only [joinBreaks, ChainNode.endTs, ChainNode.startTs, hrange,
          hfirst, Option.map_some] at hjoin ⊢
        by_contra hne
        have hdiff : baseEnd ≠ firstRange.1 := fun heq => hne (by rw [heq])
        simp [hdiff] at hjoin

end XBackup
