/-
The chain verifier that answers for many targets: nodes indexed by id and by
base once, reports kept for each base.  It answers as `verifyChain` does exactly
when nodes that share an id can stand for each other.
-/
import XBackup.Foundation.MemoTable
import XBackup.Manifest.Chain

namespace XBackup

open MemoTable

/-- What a target is traced to. -/
inductive BaseOf where
  | base (id : String)
  | orphanIncremental
  | unknownTarget
deriving DecidableEq, Repr

structure ChainVerifier where
  byId : String → Option ChainNode
  incrementalsByBase : String → List ChainNode
  cache : Table String ChainReport

namespace ChainVerifier

def indexNode (index : String → Option ChainNode) (node : ChainNode) :
    String → Option ChainNode :=
  Function.update index node.id (some node)

def groupNode (groups : String → List ChainNode) (node : ChainNode) :
    String → List ChainNode :=
  if node.backupType = .incremental then
    match node.baseId with
    | some baseId =>
        Function.update groups baseId (groups baseId ++ [node])
    | none => groups
  else groups

/-- One pass over the nodes; a later node replaces one of the same id. -/
def new (nodes : List ChainNode) : ChainVerifier where
  byId := nodes.foldl indexNode fun _ => none
  incrementalsByBase := fun baseId =>
    (nodes.foldl groupNode (fun _ => []) baseId).mergeSort
      fun left right => (left.cmpStart right).isLE
  cache := []

def resolveBase (verifier : ChainVerifier) (targetId : String) : BaseOf :=
  match verifier.byId targetId with
  | none => .unknownTarget
  | some target =>
      match target.backupType with
      | .full => .base target.id
      | .incremental =>
          match target.baseId with
          | some baseId => .base baseId
          | none => .orphanIncremental

/-- Steps 2 to 6 of `verifyChain`, from the indexes. -/
def computeForBase (verifier : ChainVerifier) (baseId : String) :
    ChainReport :=
  match verifier.byId baseId with
  | none => missingBaseReport baseId baseId
  | some base =>
      let incrementals := verifier.incrementalsByBase baseId
      let (joins, warnings) := joinBreaks base baseId incrementals
      { baseId := baseId
        incrementalIds := incrementals.map ChainNode.id
        breaks := baseBreaks base baseId ++
          incrementals.flatMap (memberBreaks base.oplogRange.isSome) ++
          joins ++ adjacentBreaks incrementals
        warnings := warnings }

def reportForBase (verifier : ChainVerifier) (baseId : String) :
    ChainReport × ChainVerifier :=
  let (report, cache) :=
    fetch verifier.computeForBase verifier.cache baseId
  (report, { verifier with cache := cache })

def orphanIncrementalReport (targetId : String) : ChainReport :=
  missingBaseReport "" ("(증분 '" ++ targetId ++ "'에 base_id 없음)")

def unknownTargetReport (targetId : String) : ChainReport :=
  missingBaseReport targetId targetId

def verify (verifier : ChainVerifier) (targetId : String) :
    ChainReport × ChainVerifier :=
  match verifier.resolveBase targetId with
  | .base baseId => verifier.reportForBase baseId
  | .orphanIncremental => (orphanIncrementalReport targetId, verifier)
  | .unknownTarget => (unknownTargetReport targetId, verifier)

def isContinuous (verifier : ChainVerifier) (targetId : String) :
    Bool × ChainVerifier :=
  match verifier.resolveBase targetId with
  | .base baseId =>
      let (report, next) := verifier.reportForBase baseId
      (report.isContinuous, next)
  | .orphanIncremental => (false, verifier)
  | .unknownTarget => (false, verifier)

/-- A call of the verifier and what it answers. -/
inductive Call where
  | verify (targetId : String)
  | isContinuous (targetId : String)
deriving DecidableEq, Repr

inductive Answer where
  | report (report : ChainReport)
  | continuous (answer : Bool)
deriving DecidableEq, Repr

def call (verifier : ChainVerifier) : Call → Answer × ChainVerifier
  | .verify targetId =>
      let (report, next) := verifier.verify targetId
      (.report report, next)
  | .isContinuous targetId =>
      let (answer, next) := verifier.isContinuous targetId
      (.continuous answer, next)

end ChainVerifier

/-- What `verifyChain` answers to a call. -/
def answerOf (nodes : List ChainNode) : ChainVerifier.Call →
    ChainVerifier.Answer
  | .verify targetId => .report (verifyChain nodes targetId)
  | .isContinuous targetId =>
      .continuous (verifyChain nodes targetId).isContinuous

def lastNode (nodes : List ChainNode) (id : String) : Option ChainNode :=
  findNode nodes.reverse id

/-- A node that no other one shares its id with is the one its id finds. -/
theorem lastNode_of_own {nodes : List ChainNode} {node : ChainNode}
    (hmem : node ∈ nodes)
    (hown : ∀ other ∈ nodes, other.id = node.id → other = node) :
    lastNode nodes node.id = some node := by
  rw [lastNode, findNode]
  cases hfind : nodes.reverse.find? fun other => other.id = node.id with
  | none =>
      have hmiss := List.find?_eq_none.mp hfind node (List.mem_reverse.mpr hmem)
      simp at hmiss
  | some other =>
      have hother := List.mem_reverse.mp (List.mem_of_find?_eq_some hfind)
      have hid := List.find?_some hfind
      rw [hown other hother (by simpa using hid)]

theorem foldl_indexNode (nodes : List ChainNode)
    (index : String → Option ChainNode) (id : String) :
    nodes.foldl ChainVerifier.indexNode index id =
      (lastNode nodes id).or (index id) := by
  induction nodes using List.reverseRecOn with
  | nil => rfl
  | append_singleton nodes node ih =>
      rw [List.foldl_concat, ChainVerifier.indexNode, lastNode, findNode,
        List.reverse_concat, List.find?_cons]
      by_cases hid : id = node.id
      · simp [hid]
      · rw [Function.update_of_ne hid, ih]
        simp [lastNode, findNode, Ne.symm hid]

theorem foldl_groupNode (nodes : List ChainNode)
    (groups : String → List ChainNode) (baseId : String) :
    nodes.foldl ChainVerifier.groupNode groups baseId =
      groups baseId ++ nodes.filter fun node =>
        node.backupType = .incremental ∧ node.baseId = some baseId := by
  induction nodes generalizing groups with
  | nil => simp
  | cons node rest ih =>
      rw [List.foldl_cons, ih, ChainVerifier.groupNode]
      by_cases hincr : node.backupType = .incremental
      · rw [if_pos hincr]
        cases hbase : node.baseId with
        | none => simp [hbase]
        | some other =>
            by_cases hsame : other = baseId
            · subst hsame
              simp [hincr, hbase]
            · simp [hbase, hsame, Function.update_of_ne (Ne.symm hsame)]
      · rw [if_neg hincr]
        simp [hincr]

theorem byId_new (nodes : List ChainNode) (id : String) :
    (ChainVerifier.new nodes).byId id = lastNode nodes id := by
  exact (foldl_indexNode nodes _ id).trans Option.or_none

theorem incrementalsByBase_new (nodes : List ChainNode) (baseId : String) :
    (ChainVerifier.new nodes).incrementalsByBase baseId =
      incrementalsOf nodes baseId := by
  rw [ChainVerifier.new, incrementalsOf]
  simp only [foldl_groupNode, List.nil_append]

/-- Steps 3 to 6 for a base that was found. -/
def reportWith (nodes : List ChainNode) (baseId : String) (base : ChainNode) :
    ChainReport :=
  let incrementals := incrementalsOf nodes baseId
  { baseId := baseId
    incrementalIds := incrementals.map ChainNode.id
    breaks := baseBreaks base baseId ++
      incrementals.flatMap (memberBreaks base.oplogRange.isSome) ++
      (joinBreaks base baseId incrementals).1 ++ adjacentBreaks incrementals
    warnings := (joinBreaks base baseId incrementals).2 }

theorem reportForBase_eq (nodes : List ChainNode) (baseId : String) :
    reportForBase nodes baseId =
      (findNode nodes baseId).elim (missingBaseReport baseId baseId)
        (reportWith nodes baseId) := by
  rw [reportForBase]
  cases findNode nodes baseId with
  | none => rfl
  | some base => rfl

/-- Where a node found under a target leads. -/
def ChainNode.baseOf (node : ChainNode) : BaseOf :=
  match node.backupType with
  | .full => .base node.id
  | .incremental =>
      match node.baseId with
      | some baseId => .base baseId
      | none => .orphanIncremental

/-- The report of a traced target, with the node each id finds. -/
def reportBy (nodes : List ChainNode) (find : String → Option ChainNode)
    (targetId : String) : ChainReport :=
  match (find targetId).elim .unknownTarget ChainNode.baseOf with
  | .base baseId =>
      (find baseId).elim (missingBaseReport baseId baseId)
        (reportWith nodes baseId)
  | .orphanIncremental => ChainVerifier.orphanIncrementalReport targetId
  | .unknownTarget => ChainVerifier.unknownTargetReport targetId

theorem verifyChain_eq_reportBy (nodes : List ChainNode) (targetId : String) :
    verifyChain nodes targetId = reportBy nodes (findNode nodes) targetId := by
  rw [verifyChain, reportBy]
  cases findNode nodes targetId with
  | none => rfl
  | some target =>
      simp only [ChainNode.baseOf, Option.elim_some]
      cases target.backupType with
      | full => exact reportForBase_eq nodes target.id
      | incremental =>
          cases target.baseId with
          | none => rfl
          | some baseId => exact reportForBase_eq nodes baseId

/-- A verifier that holds the indexes of the nodes, and only computed reports. -/
structure Indexes (nodes : List ChainNode) (verifier : ChainVerifier) :
    Prop where
  byId : ∀ id, verifier.byId id = lastNode nodes id
  byBase : ∀ baseId,
    verifier.incrementalsByBase baseId = incrementalsOf nodes baseId
  cache : Sound verifier.computeForBase verifier.cache

theorem indexes_new (nodes : List ChainNode) :
    Indexes nodes (ChainVerifier.new nodes) where
  byId := byId_new nodes
  byBase := incrementalsByBase_new nodes
  cache := sound_nil _

theorem Indexes.computeForBase {nodes : List ChainNode}
    {verifier : ChainVerifier} (hindexes : Indexes nodes verifier)
    (baseId : String) :
    verifier.computeForBase baseId =
      (lastNode nodes baseId).elim (missingBaseReport baseId baseId)
        (reportWith nodes baseId) := by
  rw [ChainVerifier.computeForBase, hindexes.byId, hindexes.byBase]
  cases lastNode nodes baseId with
  | none => rfl
  | some base => rfl

theorem Indexes.resolveBase {nodes : List ChainNode}
    {verifier : ChainVerifier} (hindexes : Indexes nodes verifier)
    (targetId : String) :
    verifier.resolveBase targetId =
      (lastNode nodes targetId).elim .unknownTarget ChainNode.baseOf := by
  rw [ChainVerifier.resolveBase, hindexes.byId]
  cases lastNode nodes targetId with
  | none => rfl
  | some target => rfl

/-- Fetching a report keeps the indexes. -/
theorem Indexes.reportForBase {nodes : List ChainNode}
    {verifier : ChainVerifier} (hindexes : Indexes nodes verifier)
    (baseId : String) :
    (verifier.reportForBase baseId).1 =
        (lastNode nodes baseId).elim (missingBaseReport baseId baseId)
          (reportWith nodes baseId) ∧
      Indexes nodes (verifier.reportForBase baseId).2 := by
  rw [← hindexes.computeForBase]
  exact ⟨fetch_fst hindexes.cache baseId, hindexes.byId, hindexes.byBase,
    fetch_sound hindexes.cache baseId⟩

theorem Indexes.verify {nodes : List ChainNode} {verifier : ChainVerifier}
    (hindexes : Indexes nodes verifier) (targetId : String) :
    (verifier.verify targetId).1 = reportBy nodes (lastNode nodes) targetId ∧
      Indexes nodes (verifier.verify targetId).2 := by
  rw [ChainVerifier.verify, reportBy, hindexes.resolveBase]
  split
  next baseId _ => exact hindexes.reportForBase baseId
  next => exact ⟨rfl, hindexes⟩
  next => exact ⟨rfl, hindexes⟩

theorem Indexes.isContinuous {nodes : List ChainNode}
    {verifier : ChainVerifier} (hindexes : Indexes nodes verifier)
    (targetId : String) :
    (verifier.isContinuous targetId).1 =
        (reportBy nodes (lastNode nodes) targetId).isContinuous ∧
      Indexes nodes (verifier.isContinuous targetId).2 := by
  rw [ChainVerifier.isContinuous, reportBy, hindexes.resolveBase]
  split
  next baseId _ =>
    obtain ⟨hreport, hnext⟩ := hindexes.reportForBase baseId
    exact ⟨congrArg ChainReport.isContinuous hreport, hnext⟩
  next => exact ⟨rfl, hindexes⟩
  next => exact ⟨rfl, hindexes⟩

/-- What a call is answered, whatever was called before it. -/
def indexedAnswer (nodes : List ChainNode) : ChainVerifier.Call →
    ChainVerifier.Answer
  | .verify targetId => .report (reportBy nodes (lastNode nodes) targetId)
  | .isContinuous targetId =>
      .continuous (reportBy nodes (lastNode nodes) targetId).isContinuous

theorem serve_call_new (nodes : List ChainNode)
    (calls : List ChainVerifier.Call) :
    serve ChainVerifier.call (ChainVerifier.new nodes) calls =
      calls.map (indexedAnswer nodes) := by
  refine serve_eq_map (Indexes nodes) (indexes_new nodes) ?_ calls
  intro verifier hindexes call
  cases call with
  | verify targetId =>
      obtain ⟨hreport, hnext⟩ := hindexes.verify targetId
      exact ⟨congrArg ChainVerifier.Answer.report hreport, hnext⟩
  | isContinuous targetId =>
      obtain ⟨hanswer, hnext⟩ := hindexes.isContinuous targetId
      exact ⟨congrArg ChainVerifier.Answer.continuous hanswer, hnext⟩

/-- Two nodes of one id that make the same report as a base. -/
structure SameBase (nodes : List ChainNode) (id : String)
    (first last : ChainNode) : Prop where
  backupType : first.backupType = last.backupType
  selective : first.selective = last.selective
  incomplete : first.isIncomplete = last.isIncomplete
  range : ∀ incr rest, incrementalsOf nodes id = incr :: rest →
    first.oplogRange.isSome = last.oplogRange.isSome ∧
      (incr.startTs.isSome → first.endTs = last.endTs)

/-- The first and the last node of an id lead to one base, and make one report
where that id is the base of a target. -/
def Interchangeable (nodes : List ChainNode) : Prop :=
  ∀ id first last, findNode nodes id = some first →
    lastNode nodes id = some last →
      first.baseOf = last.baseOf ∧
        ((∃ targetId target, findNode nodes targetId = some target ∧
          target.baseOf = .base id) → SameBase nodes id first last)

theorem isSome_endTs (node : ChainNode) :
    node.endTs.isSome = node.oplogRange.isSome :=
  Option.isSome_map

theorem baseBreaks_congr {nodes : List ChainNode} {id : String}
    {first last : ChainNode} (hsame : SameBase nodes id first last) :
    baseBreaks first id = baseBreaks last id := by
  simp only [baseBreaks, hsame.backupType, hsame.selective, hsame.incomplete]

theorem joinBreaks_congr {nodes : List ChainNode} {id : String}
    {first last : ChainNode} (hsame : SameBase nodes id first last) :
    joinBreaks first id (incrementalsOf nodes id) =
      joinBreaks last id (incrementalsOf nodes id) := by
  cases hincrs : incrementalsOf nodes id with
  | nil => rfl
  | cons incr rest =>
      obtain ⟨hsome, hends⟩ := hsame.range incr rest hincrs
      rw [← isSome_endTs, ← isSome_endTs] at hsome
      cases hstart : incr.startTs with
      | some start =>
          rw [joinBreaks, joinBreaks, hends (by simp [hstart])]
      | none =>
          rw [joinBreaks, joinBreaks, hstart]
          cases hfirst : first.endTs <;> cases hlast : last.endTs <;>
            simp_all

theorem reportWith_congr {nodes : List ChainNode} {id : String}
    {first last : ChainNode} (hsame : SameBase nodes id first last) :
    reportWith nodes id first = reportWith nodes id last := by
  have hmembers :
      (incrementalsOf nodes id).flatMap (memberBreaks first.oplogRange.isSome) =
        (incrementalsOf nodes id).flatMap
          (memberBreaks last.oplogRange.isSome) := by
    cases hincrs : incrementalsOf nodes id with
    | nil => rfl
    | cons incr rest => rw [(hsame.range incr rest hincrs).1]
  simp only [reportWith, baseBreaks_congr hsame, joinBreaks_congr hsame,
    hmembers]

/-- How often the base itself is reported, whatever its increments are. -/
theorem count_baseBreaks (base : ChainNode) (id : String) :
    (baseBreaks base id).count
        (.ineligibleBase id "base가 풀백업이 아닙니다") =
      (if base.backupType ≠ .full then 1 else 0) ∧
    (baseBreaks base id).count
        (.ineligibleBase id
          "selective 백업은 증분 base가 될 수 없습니다(FR-1)") =
      (if base.selective then 1 else 0) ∧
    (baseBreaks base id).count (.incompleteMember id) =
      (if base.isIncomplete then 1 else 0) := by
  have hreasons : ("base가 풀백업이 아닙니다" : String) ≠
      "selective 백업은 증분 base가 될 수 없습니다(FR-1)" := by decide
  refine ⟨?_, ?_, ?_⟩ <;> unfold baseBreaks <;> split_ifs <;>
    simp [hreasons, hreasons.symm]

/-- A join break names both ends; the other breaks of a base are none. -/
theorem count_joinBreaks (base : ChainNode) (id : String)
    (incrementals : List ChainNode) (other : ChainBreak)
    (hother : ∀ incrId baseEnd incrStart,
      other ≠ .baseJoinGap id incrId baseEnd incrStart) :
    (joinBreaks base id incrementals).1.count other = 0 := by
  apply List.count_eq_zero_of_not_mem
  intro hmem
  cases incrementals with
  | nil => simp [joinBreaks] at hmem
  | cons incr rest =>
      rw [joinBreaks] at hmem
      split at hmem
      next baseEnd incrStart _ _ =>
        split at hmem
        · exact hother _ _ _ (List.mem_singleton.mp hmem)
        · cases hmem
      next => cases hmem
      next => cases hmem

theorem joinBreaks_range {id : String} {first last incr : ChainNode}
    {rest : List ChainNode}
    (hwarnings : (joinBreaks first id (incr :: rest)).2 =
      (joinBreaks last id (incr :: rest)).2) :
    first.oplogRange.isSome = last.oplogRange.isSome := by
  rw [← isSome_endTs, ← isSome_endTs]
  have hnone : ∀ base : ChainNode, base.endTs.isNone =
      !(joinBreaks base id (incr :: rest)).2.isEmpty := by
    intro base
    cases hend : base.endTs with
    | none => simp [joinBreaks, hend]
    | some baseEnd =>
        cases hstart : incr.startTs with
        | none => simp [joinBreaks, hend, hstart]
        | some incrStart =>
            rw [joinBreaks, hend, hstart]
            dsimp only
            split_ifs <;> rfl
  have hfirst := hnone first
  rw [hwarnings, ← hnone last] at hfirst
  rw [← Option.not_isNone, ← Option.not_isNone, hfirst]

theorem joinBreaks_ends {id : String} {first last incr : ChainNode}
    {rest : List ChainNode}
    (hbreaks : ∀ br, (∃ firstId baseEnd incrStart,
        br = .baseJoinGap id firstId baseEnd incrStart) →
      (joinBreaks first id (incr :: rest)).1.count br =
        (joinBreaks last id (incr :: rest)).1.count br)
    (hsome : first.oplogRange.isSome = last.oplogRange.isSome)
    (hstart : incr.startTs.isSome) : first.endTs = last.endTs := by
  rw [← isSome_endTs, ← isSome_endTs] at hsome
  obtain ⟨incrStart, hincr⟩ := Option.isSome_iff_exists.mp hstart
  cases hfirst : first.endTs with
  | none =>
      rw [hfirst] at hsome
      exact (Option.not_isSome_iff_eq_none.mp (by simp [← hsome])).symm
  | some firstEnd =>
      rw [hfirst] at hsome
      obtain ⟨lastEnd, hlast⟩ := Option.isSome_iff_exists.mp hsome.symm
      rw [hlast]
      congr 1
      by_contra hne
      have hfirstGap := hbreaks (.baseJoinGap id incr.id firstEnd incrStart)
        ⟨_, _, _, rfl⟩
      have hlastGap := hbreaks (.baseJoinGap id incr.id lastEnd incrStart)
        ⟨_, _, _, rfl⟩
      simp only [joinBreaks, hfirst, hlast, hincr] at hfirstGap hlastGap
      by_cases hjoin : firstEnd = incrStart
      · subst hjoin
        simp [Ne.symm hne] at hlastGap
      · by_cases hother : lastEnd = incrStart
        · simp [hjoin, hother] at hfirstGap
        · simp [hjoin, hother, Ne.symm hne] at hfirstGap

theorem sameBase_of_reportWith {nodes : List ChainNode} {id : String}
    {first last : ChainNode}
    (hreport : reportWith nodes id first = reportWith nodes id last) :
    SameBase nodes id first last := by
  have hwarnings := congrArg ChainReport.warnings hreport
  have hbreaks := congrArg ChainReport.breaks hreport
  have hrange : ∀ incr rest, incrementalsOf nodes id = incr :: rest →
      first.oplogRange.isSome = last.oplogRange.isSome := by
    intro incr rest hincrs
    simp only [reportWith, hincrs] at hwarnings
    exact joinBreaks_range hwarnings
  have hmembers :
      (incrementalsOf nodes id).flatMap (memberBreaks first.oplogRange.isSome) =
        (incrementalsOf nodes id).flatMap
          (memberBreaks last.oplogRange.isSome) := by
    cases hincrs : incrementalsOf nodes id with
    | nil => rfl
    | cons incr rest => rw [hrange incr rest hincrs]
  -- what the increments report by themselves is common to both sides
  have hcount : ∀ br,
      (baseBreaks first id).count br +
          (joinBreaks first id (incrementalsOf nodes id)).1.count br =
        (baseBreaks last id).count br +
          (joinBreaks last id (incrementalsOf nodes id)).1.count br := by
    intro br
    have hboth := congrArg (List.count br) hbreaks
    simp only [reportWith, hmembers, List.count_append] at hboth
    omega
  obtain ⟨hfullF, hselF, hincF⟩ := count_baseBreaks first id
  obtain ⟨hfullL, hselL, hincL⟩ := count_baseBreaks last id
  have hown : ∀ br, (∀ firstId baseEnd incrStart,
        br ≠ .baseJoinGap id firstId baseEnd incrStart) →
      (baseBreaks first id).count br = (baseBreaks last id).count br := by
    intro br hbr
    simpa only [count_joinBreaks _ _ _ br hbr, Nat.add_zero] using hcount br
  refine ⟨?_, ?_, ?_, ?_⟩
  · have hfull := hown (.ineligibleBase id "base가 풀백업이 아닙니다") (by simp)
    rw [hfullF, hfullL] at hfull
    cases hf : first.backupType <;> cases hl : last.backupType <;>
      simp [hf, hl] at hfull ⊢
  · have hselective := hown (.ineligibleBase id
      "selective 백업은 증분 base가 될 수 없습니다(FR-1)") (by simp)
    rw [hselF, hselL] at hselective
    cases hf : first.selective <;> cases hl : last.selective <;>
      simp [hf, hl] at hselective ⊢
  · have hincomplete := hown (.incompleteMember id) (by simp)
    rw [hincF, hincL] at hincomplete
    cases hf : first.isIncomplete <;> cases hl : last.isIncomplete <;>
      simp [hf, hl] at hincomplete ⊢
  · intro incr rest hincrs
    refine ⟨hrange incr rest hincrs, ?_⟩
    apply @joinBreaks_ends id first last incr rest ?_ (hrange incr rest hincrs)
    rintro br ⟨firstId, baseEnd, incrStart, rfl⟩
    have hgap := hcount (.baseJoinGap id firstId baseEnd incrStart)
    rw [hincrs] at hgap
    have hnone : ∀ base : ChainNode, (baseBreaks base id).count
        (.baseJoinGap id firstId baseEnd incrStart) = 0 := by
      intro base
      unfold baseBreaks
      split_ifs <;> simp
    simpa only [hnone, Nat.zero_add] using hgap

theorem reportWith_baseId (nodes : List ChainNode) (id : String)
    (base : Option ChainNode) :
    (base.elim (missingBaseReport id id) (reportWith nodes id)).baseId = id := by
  cases base with
  | none => rfl
  | some base => rfl

/-- A report that misses a base by name lists no increment to compare. -/
theorem reportWith_ne_missing (nodes : List ChainNode) (id missing : String)
    (base : ChainNode) :
    reportWith nodes id base ≠ missingBaseReport id missing := by
  intro heq
  have hids := congrArg ChainReport.incrementalIds heq
  have hbreaks := congrArg ChainReport.breaks heq
  simp only [reportWith, missingBaseReport, List.map_eq_nil_iff] at hids hbreaks
  rw [hids] at hbreaks
  simp only [List.flatMap_nil, joinBreaks, adjacentBreaks, List.append_nil,
    baseBreaks] at hbreaks
  split_ifs at hbreaks <;> simp at hbreaks

theorem orphan_ne_missing (targetId : String) :
    ChainVerifier.orphanIncrementalReport targetId ≠
      missingBaseReport "" "" := by
  intro heq
  have hbreaks := congrArg ChainReport.breaks heq
  simp [ChainVerifier.orphanIncrementalReport, missingBaseReport] at hbreaks

theorem lastNode_isSome (nodes : List ChainNode) (id : String) :
    (lastNode nodes id).isSome = (findNode nodes id).isSome := by
  rw [Bool.eq_iff_iff, lastNode, findNode, findNode, List.find?_isSome,
    List.find?_isSome]
  simp only [List.mem_reverse]

/-- Equal reports trace a target to one base. -/
theorem baseOf_eq_of_report {nodes : List ChainNode} {targetId : String}
    {findFirst findLast : String → Option ChainNode} {first last : ChainNode}
    (hfirst : findFirst targetId = some first)
    (hlast : findLast targetId = some last)
    (hreport : reportBy nodes findLast targetId =
      reportBy nodes findFirst targetId) : first.baseOf = last.baseOf := by
  have hunknown : ∀ node : ChainNode, node.baseOf ≠ .unknownTarget := by
    intro node
    rw [ChainNode.baseOf]
    split
    · simp
    · split <;> simp
  have horphan : ∀ (find : String → Option ChainNode) baseId,
      (find baseId).elim (missingBaseReport baseId baseId)
          (reportWith nodes baseId) ≠
        ChainVerifier.orphanIncrementalReport targetId := by
    intro find baseId heq
    have hid := congrArg ChainReport.baseId heq
    rw [reportWith_baseId] at hid
    change baseId = "" at hid
    subst hid
    cases hfound : find "" with
    | none =>
        rw [hfound] at heq
        exact orphan_ne_missing targetId heq.symm
    | some base =>
        rw [hfound] at heq
        exact reportWith_ne_missing nodes "" _ base heq
  simp only [reportBy, hfirst, hlast, Option.elim_some] at hreport
  cases hf : first.baseOf with
  | unknownTarget => exact absurd hf (hunknown first)
  | orphanIncremental =>
      cases hl : last.baseOf with
      | unknownTarget => exact absurd hl (hunknown last)
      | orphanIncremental => rfl
      | base lastBase =>
          rw [hf, hl] at hreport
          exact absurd hreport (horphan findLast lastBase)
  | base firstBase =>
      cases hl : last.baseOf with
      | unknownTarget => exact absurd hl (hunknown last)
      | orphanIncremental =>
          rw [hf, hl] at hreport
          exact absurd hreport.symm (horphan findFirst firstBase)
      | base lastBase =>
          rw [hf, hl] at hreport
          have hid := congrArg ChainReport.baseId hreport
          simp only [reportWith_baseId] at hid
          rw [hid]

theorem interchangeable_of_reports {nodes : List ChainNode}
    (hreports : ∀ targetId, reportBy nodes (lastNode nodes) targetId =
      reportBy nodes (findNode nodes) targetId) : Interchangeable nodes := by
  intro id first last hfirst hlast
  refine ⟨baseOf_eq_of_report hfirst hlast (hreports id), ?_⟩
  rintro ⟨targetId, target, htarget, hbase⟩
  obtain ⟨targetLast, htargetLast⟩ := Option.isSome_iff_exists.mp
    ((lastNode_isSome nodes targetId).trans (by simp [htarget]))
  have hreport := hreports targetId
  have htraced := baseOf_eq_of_report htarget htargetLast hreport
  rw [hbase] at htraced
  simp only [reportBy, htarget, htargetLast, Option.elim_some, hbase,
    ← htraced, hfirst, hlast] at hreport
  exact sameBase_of_reportWith hreport.symm

theorem reports_of_interchangeable {nodes : List ChainNode}
    (hnodes : Interchangeable nodes) (targetId : String) :
    reportBy nodes (lastNode nodes) targetId =
      reportBy nodes (findNode nodes) targetId := by
  have hfound := lastNode_isSome nodes targetId
  cases htarget : findNode nodes targetId with
  | none =>
      rw [htarget] at hfound
      have hlast := Option.not_isSome_iff_eq_none.mp (by rw [hfound]; simp)
      simp only [reportBy, htarget, hlast, Option.elim_none]
  | some target =>
      rw [htarget] at hfound
      obtain ⟨targetLast, hlast⟩ := Option.isSome_iff_exists.mp hfound
      obtain ⟨htraced, -⟩ := hnodes targetId target targetLast htarget hlast
      simp only [reportBy, htarget, hlast, Option.elim_some, ← htraced]
      cases hbase : target.baseOf with
      | unknownTarget => rfl
      | orphanIncremental => rfl
      | base baseId =>
          dsimp only
          have hbaseFound := lastNode_isSome nodes baseId
          cases hfirst : findNode nodes baseId with
          | none =>
              rw [hfirst] at hbaseFound
              have hlastBase := Option.not_isSome_iff_eq_none.mp
                (by rw [hbaseFound]; simp)
              rw [hlastBase]
          | some base =>
              rw [hfirst] at hbaseFound
              obtain ⟨baseLast, hbaseLast⟩ :=
                Option.isSome_iff_exists.mp hbaseFound
              rw [hbaseLast]
              obtain ⟨-, hsame⟩ := hnodes baseId base baseLast hfirst hbaseLast
              exact (reportWith_congr
                (hsame ⟨targetId, target, htarget, hbase⟩)).symm

theorem answerOf_eq (nodes : List ChainNode) (call : ChainVerifier.Call) :
    answerOf nodes call =
      match call with
      | .verify targetId => .report (reportBy nodes (findNode nodes) targetId)
      | .isContinuous targetId =>
          .continuous (reportBy nodes (findNode nodes) targetId).isContinuous := by
  cases call with
  | verify targetId => rw [answerOf, verifyChain_eq_reportBy]
  | isContinuous targetId => rw [answerOf, verifyChain_eq_reportBy]

/-- Distinct ids leave nothing to tell apart. -/
theorem interchangeable_of_nodup {nodes : List ChainNode}
    (hnodup : (nodes.map ChainNode.id).Nodup) : Interchangeable nodes := by
  intro id first last hfirst hlast
  have hreverse : (nodes.reverse.map ChainNode.id).Nodup := by
    rw [List.map_reverse]
    exact List.nodup_reverse.mpr hnodup
  have hsame := findNode_of_mem hnodup
    (List.mem_reverse.mp (findNode_mem hlast))
  rw [findNode_id hlast, hfirst] at hsame
  obtain rfl := Option.some.inj hsame
  exact ⟨rfl, fun _ => ⟨rfl, rfl, rfl, fun _ _ _ => ⟨rfl, fun _ => rfl⟩⟩⟩

/-- The verifier answers every run of calls as `verifyChain` does exactly when
the first and the last node of each id are interchangeable. -/
theorem chainVerifier_agrees_iff (nodes : List ChainNode) :
    (∀ calls, serve ChainVerifier.call (ChainVerifier.new nodes) calls =
      calls.map (answerOf nodes)) ↔ Interchangeable nodes := by
  constructor
  · intro hagree
    apply interchangeable_of_reports
    intro targetId
    have hcall := hagree [.verify targetId]
    rw [serve_call_new] at hcall
    simpa [indexedAnswer, answerOf, verifyChain_eq_reportBy] using hcall
  · intro hnodes calls
    rw [serve_call_new]
    apply List.map_congr_left
    intro call _
    rw [answerOf_eq]
    cases call with
    | verify targetId =>
        rw [indexedAnswer, reports_of_interchangeable hnodes targetId]
    | isContinuous targetId =>
        rw [indexedAnswer, reports_of_interchangeable hnodes targetId]

/-- A complete full listed before an incomplete one of the same id. -/
theorem chainVerifier_disagrees :
    ¬ ∀ (nodes : List ChainNode) (calls : List ChainVerifier.Call),
      serve ChainVerifier.call (ChainVerifier.new nodes) calls =
        calls.map (answerOf nodes) := by
  intro hagree
  have hcall := hagree
    [⟨"full", .full, none, none, false, false, .complete⟩,
      ⟨"full", .full, none, none, false, false, .incomplete⟩]
    [.isContinuous "full"]
  rw [serve_call_new] at hcall
  simp [indexedAnswer, answerOf, verifyChain_eq_reportBy, reportBy, lastNode,
    findNode, ChainNode.baseOf, reportWith, incrementalsOf, joinBreaks,
    adjacentBreaks, ChainReport.isContinuous, baseBreaks,
    ChainNode.isIncomplete] at hcall

end XBackup
