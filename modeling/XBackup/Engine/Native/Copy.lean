/-
A restore of what a dump writes, at a MongoDB server that keeps what it is sent.
-/
import XBackup.Engine.Catalog
import XBackup.Foundation.Overwrite

namespace XBackup

open Fallible Overwrite

namespace Native

/-- What a server holds of a collection: the command it was created with, its
indexes and its documents. -/
structure Holding where
  command : Document
  indexes : List Document
  docs : List Document

abbrev Holdings := Store (String × String) Holding

/-- A collection that is written into exists from then on. -/
def written (server : Holdings) (db coll : String)
    (edit : Holding → Holding) : Holdings :=
  Function.update server (db, coll)
    (some (edit ((server (db, coll)).getD ⟨[], [], []⟩)))

/-- The server refuses only to create a collection that exists. -/
def keeping : Client Holdings where
  drop server db coll := (vacate server (db, coll), none)
  runCreate server db cmd :=
    match cmd with
    | (_, .scalar (.string coll)) :: _ =>
        if (server (db, coll)).isSome then
          (server, some ⟨"a collection already exists", some 48⟩)
        else (Function.update server (db, coll) (some ⟨cmd, [], []⟩), none)
    | _ => (server, some ⟨"no collection is named", none⟩)
  createIndexes server db coll indexes :=
    (written server db coll fun held =>
      { held with indexes := held.indexes ++ indexes }, none)
  insertMany server db coll docs :=
    (written server db coll fun held =>
      { held with docs := held.docs ++ docs }, none)

/-- What a collection becomes by a restore that drops it first. -/
def Collection.holding (c : Collection) : Holding where
  command := createCmd c.name c.options
  indexes := c.indexes
  docs := c.docs

def placeOf (target : Database × Collection) : String × String :=
  (target.1.name, target.2.name)

section Frames

theorem insert_head {first key : String} (value new : Bson) (rest : Document)
    (hne : key ≠ first) : ∃ more,
      Document.insert ((first, value) :: rest) key new =
        (first, value) :: more := by
  rw [Document.insert]
  split
  · exact ⟨_, by rw [Document.modify, List.map_cons, if_neg hne.symm]⟩
  · exact ⟨_, rfl⟩

theorem createCmd_head {coll : String} {options : Document}
    (hplain : ∀ field ∈ options, field.1 ≠ "create") :
    ∃ rest, createCmd coll options =
      ("create", .scalar (.string coll)) :: rest := by
  suffices hfold : ∀ rest : Document, ∃ more, options.foldl
      (fun cmd field => Document.insert cmd field.1 field.2)
        (("create", .scalar (.string coll)) :: rest) =
          ("create", .scalar (.string coll)) :: more from hfold []
  induction options with
  | nil => exact fun rest => ⟨rest, rfl⟩
  | cons field others ih =>
      intro rest
      obtain ⟨hfield, hothers⟩ := List.forall_mem_cons.mp hplain
      obtain ⟨more, hmore⟩ := insert_head (.scalar (.string coll)) field.2 rest
        hfield
      rw [List.foldl_cons, hmore]
      exact ih hothers more

variable {shown : Frame → String} {nsInclude : Option String}
  {st : RestoreState Holdings} {err : Option XBackupError}
  {frames : List Frame}

/-- What the server becomes when the batch is sent. -/
def RestoreState.settled (st : RestoreState Holdings) : Holdings :=
  match st.current with
  | some (db, coll, false) =>
      if st.batch.isEmpty then st.server
      else written st.server db coll fun held =>
        { held with docs := held.docs ++ st.batch }
  | _ => st.server

theorem flushBatch_keeping (st : RestoreState Holdings) :
    ∃ next, flushBatch keeping st = .ok next ∧ next.server = st.settled ∧
      next.current = st.current ∧ next.batch = [] := by
  rw [flushBatch, RestoreState.settled]
  by_cases hempty : st.batch.isEmpty = true
  · refine ⟨st, if_pos hempty, ?_, rfl, List.isEmpty_iff.mp hempty⟩
    split <;> simp [hempty]
  · rw [if_neg hempty]
    match hcurrent : st.current with
    | none => exact ⟨_, rfl, rfl, rfl, rfl⟩
    | some (db, coll, true) => exact ⟨_, rfl, rfl, rfl, rfl⟩
    | some (db, coll, false) =>
        refine ⟨_, rfl, ?_, rfl, rfl⟩
        simp only [if_neg hempty]

theorem written_of_some {server : Holdings} {db coll : String}
    {edit : Holding → Holding} {held : Holding}
    (hheld : server (db, coll) = some held) :
    written server db coll edit =
      Function.update server (db, coll) (some (edit held)) := by
  rw [written, hheld, Option.getD_some]

theorem settled_push {db coll : String} {held : Holding}
    (hcurrent : st.current = some (db, coll, false))
    (hheld : st.settled (db, coll) = some held) (doc : Document) :
    RestoreState.settled { st with batch := st.batch ++ [doc] } =
      Function.update st.settled (db, coll)
        (some { held with docs := held.docs ++ [doc] }) := by
  have hpushed : (st.batch ++ [doc]).isEmpty = false := by simp
  simp only [RestoreState.settled, hcurrent, hpushed] at hheld ⊢
  by_cases hempty : st.batch.isEmpty = true
  · rw [if_pos hempty] at hheld ⊢
    rw [if_neg Bool.false_ne_true, written_of_some hheld,
      List.isEmpty_iff.mp hempty, List.nil_append]
  · rw [if_neg hempty] at hheld ⊢
    rw [written, Function.update_self] at hheld
    cases hheld
    simp [written, List.append_assoc]

/-- A document of a collection that is not left out is written, at once or
with its batch. -/
theorem restoreDocument_keeping {db coll : String} {held : Holding}
    (hcurrent : st.current = some (db, coll, false))
    (hheld : st.settled (db, coll) = some held) (doc : Document) :
    ∃ next, restoreDocument keeping st doc = .ok next ∧
      next.current = st.current ∧
      next.settled = Function.update st.settled (db, coll)
        (some { held with docs := held.docs ++ [doc] }) := by
  rw [← settled_push hcurrent hheld doc]
  obtain ⟨server, inserted, current, batch⟩ := st
  subst hcurrent
  simp only [restoreDocument]
  split
  · obtain ⟨next, hflush, hserver, hsame, hbatch⟩ := flushBatch_keeping
      ⟨server, inserted, some (db, coll, false), batch ++ [doc]⟩
    refine ⟨next, hflush, hsame, ?_⟩
    rw [← hserver, RestoreState.settled, hsame, hbatch]
    rfl
  · exact ⟨_, rfl, rfl, rfl⟩

variable {drop : Bool}

theorem restoreLoop_docs {db coll : String} {held : Holding}
    (hcurrent : st.current = some (db, coll, false))
    (hheld : st.settled (db, coll) = some held) (docs : List Document) :
    ∃ next, restoreLoop keeping drop nsInclude err st
        (docs.map Frame.document ++ frames) =
          restoreLoop keeping drop nsInclude err next frames ∧
      next.settled = Function.update st.settled (db, coll)
        (some { held with docs := held.docs ++ docs }) := by
  induction docs generalizing st held with
  | nil =>
      refine ⟨st, rfl, ?_⟩
      rw [List.append_nil, Function.update_eq_self_iff.mpr hheld.symm]
  | cons doc rest ih =>
      obtain ⟨next, hdoc, hsame, hsettled⟩ :=
        restoreDocument_keeping hcurrent hheld doc
      have hnext : next.settled (db, coll) =
          some { held with docs := held.docs ++ [doc] } := by
        rw [hsettled, Function.update_self]
      obtain ⟨last, hloop, hlast⟩ := ih (hsame.trans hcurrent) hnext
      refine ⟨last, ?_, ?_⟩
      · rw [List.map_cons, List.cons_append, restoreLoop, hdoc]
        exact hloop
      · rw [hlast, hsettled, Function.update_idem, List.append_assoc]
        rfl

/-- The documents of a collection that is left out are passed over. -/
theorem restoreLoop_docs_skipped {db coll : String}
    (hcurrent : st.current = some (db, coll, true)) (docs : List Document) :
    restoreLoop keeping drop nsInclude err st
        (docs.map Frame.document ++ frames) =
      restoreLoop keeping drop nsInclude err st frames := by
  induction docs with
  | nil => rfl
  | cons doc rest ih =>
      rw [List.map_cons, List.cons_append, restoreLoop, restoreDocument,
        hcurrent]
      exact ih

theorem info_ns (dump : CollectionDump) : dump.info.getStr "ns" = some dump.ns :=
  rfl

theorem info_options (dump : CollectionDump) :
    dump.info.getDocument "options" = some dump.options :=
  rfl

theorem info_indexes (dump : CollectionDump) :
    ((dump.info.getArray "indexes").getD []).filterMap asDocument =
      dump.indexes := by
  change (dump.indexes.map Bson.document).filterMap asDocument = _
  rw [List.filterMap_map]
  exact List.filterMap_some

theorem skips_iff {ns : String} :
    (nsInclude.any fun want => want ≠ ns) = false ↔ Admits nsInclude ns := by
  cases nsInclude with
  | none => simp [Admits]
  | some want => simp [Admits]

/-- Where there is room, a collection is created with its indexes. -/
theorem createCollection_keeping (server : Holdings)
    (target : Database × Collection) :
    createCollection keeping server target.1.name target.2.name
        target.2.options target.2.indexes true =
      .ok (Function.update (vacate server (placeOf target)) (placeOf target)
        (some { target.2.holding with docs := [] })) := by
  obtain ⟨rest, hcmd⟩ := @createCmd_head target.2.name target.2.options
    target.2.plainOptions
  have hroom : vacate server (placeOf target) (placeOf target) = none :=
    Function.update_self _ _ _
  have hcreate : keeping.runCreate (vacate server (placeOf target))
      target.1.name (createCmd target.2.name target.2.options) =
        (Function.update (vacate server (placeOf target)) (placeOf target)
          (some ⟨createCmd target.2.name target.2.options, [], []⟩), none) := by
    rw [hcmd]
    simp only [keeping]
    rw [if_neg]
    · rfl
    · rw [show (target.1.name, target.2.name) = placeOf target from rfl, hroom]
      exact Bool.false_ne_true
  rw [createCollection, if_pos rfl]
  dsimp only
  rw [show (keeping.drop server target.1.name target.2.name).1 =
    vacate server (placeOf target) from rfl, hcreate]
  dsimp only
  rw [createIndexes]
  split
  next hempty =>
    rw [Collection.holding, List.isEmpty_iff.mp hempty]
  next =>
    simp only [keeping]
    rw [@written_of_some _ target.1.name target.2.name _ _
      (Function.update_self (placeOf target) _ _)]
    simp [placeOf, Collection.holding]

theorem restoreCollection_keeping (target : Database × Collection)
    (hadmits : Admits nsInclude (dumped target).ns) :
    ∃ next, restoreCollection keeping true nsInclude st (dumped target).info =
        .ok next ∧
      next.current = some (target.1.name, target.2.name, false) ∧
      next.settled = Function.update (vacate st.settled (placeOf target))
        (placeOf target) (some { target.2.holding with docs := [] }) := by
  obtain ⟨flushed, hflush, hserver, -, hbatch⟩ := flushBatch_keeping st
  have hsplit : splitOnce '.' (dumped target).ns =
      some (target.1.name, target.2.name) := splitOnce_namespaceOf _ _
  refine ⟨{ flushed with
    server := Function.update (vacate st.settled (placeOf target))
      (placeOf target) (some { target.2.holding with docs := [] })
    current := some (target.1.name, target.2.name, false) }, ?_, rfl, ?_⟩
  · refine bind_eq_ok.mpr ⟨flushed, hflush, ?_⟩
    rw [info_ns]
    dsimp only
    rw [hsplit]
    dsimp only
    rw [if_neg (Bool.eq_false_iff.mp (skips_iff.mpr hadmits)), info_options,
      info_indexes, Option.getD_some]
    refine bind_eq_ok.mpr ⟨_, ?_, rfl⟩
    rw [hserver]
    exact createCollection_keeping st.settled target
  · rw [RestoreState.settled]
    simp [hbatch]

theorem restoreCollection_skipped (target : Database × Collection)
    (hskip : ¬ Admits nsInclude (dumped target).ns) :
    ∃ next, restoreCollection keeping drop nsInclude st (dumped target).info =
        .ok next ∧
      next.current = some (target.1.name, target.2.name, true) ∧
      next.settled = st.settled := by
  obtain ⟨flushed, hflush, hserver, -, hbatch⟩ := flushBatch_keeping st
  have hsplit : splitOnce '.' (dumped target).ns =
      some (target.1.name, target.2.name) := splitOnce_namespaceOf _ _
  refine ⟨{ flushed with
    current := some (target.1.name, target.2.name, true) }, ?_, rfl, hserver⟩
  refine bind_eq_ok.mpr ⟨flushed, hflush, ?_⟩
  rw [info_ns]
  dsimp only
  rw [hsplit]
  dsimp only
  rw [if_pos (by rwa [← skips_iff, Bool.not_eq_false] at hskip)]

/-- The targets that a restore does not leave out. -/
def restored (nsInclude : Option String)
    (targets : List (Database × Collection)) : List (Database × Collection) :=
  targets.filter fun target =>
    ¬ nsInclude.any fun want => want ≠ (dumped target).ns

theorem mem_restored {targets : List (Database × Collection)}
    {target : Database × Collection} : target ∈ restored nsInclude targets ↔
      target ∈ targets ∧ Admits nsInclude (dumped target).ns := by
  rw [restored, List.mem_filter, decide_eq_true_eq, ← skips_iff,
    Bool.not_eq_true]

def holdings (targets : List (Database × Collection)) :
    List ((String × String) × Holding) :=
  targets.map fun target => (placeOf target, target.2.holding)

/-- The frames of the targets put just those that are not left out in the
place of what the server holds. -/
theorem restoreLoop_targets (targets : List (Database × Collection)) :
    ∃ next, restoreLoop keeping true nsInclude none st
        ((targets.map dumped).flatMap CollectionDump.frames) = .ok next ∧
      next.server = replaceAll vacate st.settled
        (holdings (restored nsInclude targets)) := by
  induction targets generalizing st with
  | nil =>
      obtain ⟨next, hflush, hserver, -⟩ := flushBatch_keeping st
      exact ⟨next, hflush, hserver⟩
  | cons target rest ih =>
      rw [List.map_cons, List.flatMap_cons, CollectionDump.frames,
        List.cons_append, restoreLoop]
      by_cases hadmits : Admits nsInclude (dumped target).ns
      · obtain ⟨opened, hopen, hcurrent, hsettled⟩ :=
          @restoreCollection_keeping nsInclude st target hadmits
        have hheld : opened.settled (placeOf target) =
            some { target.2.holding with docs := [] } := by
          rw [hsettled, Function.update_self]
        obtain ⟨filled, hloop, hfilled⟩ := @restoreLoop_docs nsInclude opened
          none ((rest.map dumped).flatMap CollectionDump.frames) true _ _ _
          hcurrent hheld target.2.docs
        obtain ⟨next, hrest, hserver⟩ := @ih filled
        refine ⟨next, ?_, ?_⟩
        · rw [hopen]
          exact hloop.trans hrest
        · have hkept : restored nsInclude (target :: rest) =
              target :: restored nsInclude rest :=
            List.filter_cons_of_pos (decide_eq_true
              (Bool.eq_false_iff.mp (skips_iff.mpr hadmits)))
          rw [hserver, hfilled, hsettled, hkept, placeOf,
            Function.update_idem, List.nil_append]
          rfl
      · obtain ⟨opened, hopen, hcurrent, hsettled⟩ :=
          @restoreCollection_skipped nsInclude st true target hadmits
        obtain ⟨next, hrest, hserver⟩ := @ih opened
        refine ⟨next, ?_, ?_⟩
        · rw [hopen]
          dsimp only
          rw [show (dumped target).docs = target.2.docs from rfl,
            restoreLoop_docs_skipped hcurrent, hrest]
        · have hleft : restored nsInclude (target :: rest) =
              restored nsInclude rest :=
            List.filter_cons_of_neg (by
              rwa [decide_eq_true_eq, Bool.not_eq_true, skips_iff])
          rw [hserver, hsettled, hleft]

/-- A restore of a whole dump puts just the targets that are not left out in the
place of what the server holds. -/
theorem restoreFrames_targets (createdAt : String) (server : Holdings)
    (targets : List (Database × Collection)) :
    ∃ next, restoreFrames keeping true nsInclude shown server
        (archiveFrames createdAt (targets.map dumped), none) = .ok next ∧
      next.server = replaceAll vacate server
        (holdings (restored nsInclude targets)) := by
  have hformat : ((headerDoc createdAt).getStr "format").getD "" =
      NATIVE_FORMAT_ID := rfl
  obtain ⟨next, hloop, hserver⟩ :=
    @restoreLoop_targets nsInclude ⟨server, 0, none, []⟩ targets
  refine ⟨next, ?_, hserver⟩
  rw [archiveFrames, restoreFrames, if_neg (not_not.mpr hformat)]
  exact hloop

end Frames

end Native

end XBackup
