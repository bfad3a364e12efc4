/-
What is left out of the operations of a replay.  An operation may hold others
in an `applyOps` command, and these again; the code cleans an operation and, in
part, those directly inside.
-/
import XBackup.Engine.Mongo.Apply

namespace XBackup

/-- The namespace an operation is on. -/
def nsOf (op : Document) : String := (Document.getStr op "ns").getD ""

def isCommand (op : Document) : Bool := Document.getStr op "op" = some "c"

section Nesting

def documentOf : Bson → Option Document
  | .document fields => some fields
  | _ => none

def documentsIn : Bson → List Document
  | .array items => items.filterMap documentOf
  | _ => []

def applyOpsIn : Bson → List Document
  | .document o => (o.filter fun field => field.1 = "applyOps").flatMap
      fun field => documentsIn field.2
  | _ => []

/-- The documents in the array `o.applyOps`. -/
def listedDocs (doc : Document) : List Document :=
  (doc.filter fun field => field.1 = "o").flatMap fun field =>
    applyOpsIn field.2

/-- The operations directly inside an `applyOps` command. -/
def innerOps (op : Document) : List Document :=
  if isCommand op then listedDocs op else []

/-- An operation, and those inside it at any depth. -/
inductive Nested : Document → Document → Prop where
  | self (op : Document) : Nested op op
  | inner {op next last : Document} (hnext : next ∈ innerOps op)
      (hlast : Nested next last) : Nested op last

end Nesting

section Cleaning

mutual

/-- The fields of an operation without those of the source's sessions. -/
def cleanFields (command : Bool) : List (String × Bson) → List (String × Bson)
  | [] => []
  | field :: rest =>
      if field.1 ∈ STRIP then cleanFields command rest
      else cleanField command field :: cleanFields command rest

def cleanField (command : Bool) : String × Bson → String × Bson
  | (key, value) =>
      if command = true ∧ key = "o" then (key, cleanCommand value)
      else (key, value)

def cleanCommand : Bson → Bson
  | .document o => .document (cleanCommandFields o)
  | other => other

def cleanCommandFields : List (String × Bson) → List (String × Bson)
  | [] => []
  | field :: rest => cleanCommandField field :: cleanCommandFields rest

def cleanCommandField : String × Bson → String × Bson
  | (key, value) =>
      if key = "applyOps" then (key, cleanOps value) else (key, value)

def cleanOps : Bson → Bson
  | .array items => .array (cleanItems items)
  | other => other

def cleanItems : List Bson → List Bson
  | [] => []
  | item :: rest => cleanItem item ++ cleanItems rest

/-- An operation on the server's own collections goes; others are cleaned. -/
def cleanItem : Bson → List Bson
  | .document op =>
      if shouldSkipNs (nsOf op) then []
      else [.document (cleanFields (isCommand op) op)]
  | other => [other]

end

/-- An operation with every operation inside cleaned, at any depth. -/
def deepClean (op : Document) : Document :=
  cleanFields (isCommand op) op

end Cleaning

/-- Nothing of the source's sessions, and no collection of the server's own. -/
structure Clean (op : Document) : Prop where
  stripped : ∀ key ∈ STRIP, Document.containsKey op key = false
  allowed : shouldSkipNs (nsOf op) = false

def DeeplyClean (op : Document) : Prop :=
  ∀ last, Nested op last → Clean last

/-- What is handed over for an operation: clean at every depth, and with
everything that is not to be left out. -/
structure Sanitised (op handed : Document) : Prop where
  clean : DeeplyClean handed
  rest : deepClean handed = deepClean op

/-- The operations that an entry hands over. -/
def EntryAction.ops : EntryAction → List Document
  | .skip => []
  | .apply op => [op]
  | .txnBuffer _ ops => ops
  | .txnBufferThenCommit _ ops => ops
  | .txnCommit _ => []
  | .txnAbort _ => []

/-- The inner operations of a transaction as they stand in its entry. -/
def txnDocs (o : Document) : List Document :=
  ((Document.getArray o "applyOps").getD []).filterMap documentOf

/-- The operations that an entry hands over, as they stand in it. -/
def handedDocs (debug : BsonDebug) (entry : Document) : List Document :=
  match classifyEntry debug entry with
  | .skip => []
  | .apply _ => [entry]
  | .txnBuffer _ _ => txnDocs ((Document.getDocument entry "o").getD [])
  | .txnBufferThenCommit _ _ =>
      txnDocs ((Document.getDocument entry "o").getD [])
  | .txnCommit _ => []
  | .txnAbort _ => []

section Fields

theorem containsKey_eq_false_iff {op : Document} {key : String} :
    Document.containsKey op key = false ↔ ∀ field ∈ op, field.1 ≠ key := by
  rw [Document.containsKey, Document.get, Option.isSome_eq_false_iff,
    Option.isNone_iff_eq_none, List.lookup_eq_none_iff]
  refine forall₂_congr fun field _ => ?_
  rw [bne_iff_ne, ne_comm]

theorem foldl_remove (keys : List String) (doc : Document) :
    keys.foldl Document.remove doc =
      doc.filter fun field => field.1 ∉ keys := by
  induction keys generalizing doc with
  | nil => simp
  | cons key rest ih =>
      rw [List.foldl_cons, ih, Document.remove, List.filter_filter]
      refine List.filter_congr fun field _ => ?_
      simp [not_or, Bool.and_comm]

theorem sanitizeEntry_eq (op : Document) :
    sanitizeEntry op = (op.filter fun field => field.1 ∉ STRIP).map fun field =>
      if field.1 = "o" then (field.1, stripNestedUi field.2) else field := by
  rw [sanitizeEntry, foldl_remove, Document.modify]

theorem cleanFields_eq (command : Bool) (op : Document) :
    cleanFields command op =
      (op.filter fun field => field.1 ∉ STRIP).map (cleanField command) := by
  induction op with
  | nil => rw [cleanFields]; rfl
  | cons field rest ih =>
      rw [cleanFields]
      by_cases hstrip : field.1 ∈ STRIP
      · rw [if_pos hstrip, ih, List.filter_cons_of_neg (by simpa using hstrip)]
      · rw [if_neg hstrip, ih, List.filter_cons_of_pos (by simpa using hstrip)]
        rfl

theorem cleanCommandFields_eq (o : Document) :
    cleanCommandFields o = o.map cleanCommandField := by
  induction o with
  | nil => rw [cleanCommandFields]; rfl
  | cons field rest ih => rw [cleanCommandFields, ih]; rfl

theorem cleanItems_eq (items : List Bson) :
    cleanItems items = items.flatMap cleanItem := by
  induction items with
  | nil => rw [cleanItems]; rfl
  | cons item rest ih => rw [cleanItems, ih, List.flatMap_cons]

theorem get_filter {op : Document} {key : String}
    {keeps : String × Bson → Bool}
    (hkeeps : ∀ field ∈ op, field.1 = key → keeps field = true) :
    Document.get (op.filter keeps) key = Document.get op key := by
  rw [Document.get, Document.get]
  induction op with
  | nil => rfl
  | cons field rest ih =>
      obtain ⟨hfield, hrest⟩ := List.forall_mem_cons.mp hkeeps
      cases hkeep : keeps field with
      | true =>
          rw [List.filter_cons_of_pos hkeep, List.lookup_cons, List.lookup_cons,
            ih hrest]
      | false =>
          have hkey : key ≠ field.1 := fun heq =>
            Bool.false_ne_true (hkeep.symm.trans (hfield heq.symm))
          rw [List.filter_cons_of_neg (Bool.not_eq_true _ ▸ hkeep), ih hrest,
            List.lookup_cons, beq_false_of_ne hkey]

theorem get_modify_ne {op : Document} {key other : String}
    {edit : Bson → Bson} (hne : key ≠ other) :
    Document.get (Document.modify op other edit) key = Document.get op key := by
  rw [Document.get, Document.get, Document.modify]
  induction op with
  | nil => rfl
  | cons field rest ih =>
      rw [List.map_cons, List.lookup_cons, ih]
      by_cases hfield : field.1 = other
      · have hkey : (key == field.1) = false := by
          rw [hfield]
          exact beq_false_of_ne hne
        rw [if_pos hfield, List.lookup_cons, hkey]
      · rw [if_neg hfield, List.lookup_cons]

theorem getStr_congr {op other : Document} {key : String}
    (hget : Document.get op key = Document.get other key) :
    Document.getStr op key = Document.getStr other key := by
  rw [Document.getStr, Document.getStr, hget]

/-- What an operation is and where stays. -/
theorem getStr_sanitizeEntry (op : Document) {key : String}
    (hstrip : key ∉ STRIP) (hkey : key ≠ "o") :
    Document.getStr (sanitizeEntry op) key = Document.getStr op key := by
  rw [sanitizeEntry, foldl_remove]
  refine getStr_congr ((get_modify_ne hkey).trans
    (get_filter fun field _ hfield => ?_))
  simpa [hfield] using hstrip

theorem nsOf_sanitizeEntry (op : Document) :
    nsOf (sanitizeEntry op) = nsOf op := by
  rw [nsOf, nsOf, getStr_sanitizeEntry op (by decide) (by decide)]

theorem isCommand_sanitizeEntry (op : Document) :
    isCommand (sanitizeEntry op) = isCommand op := by
  rw [isCommand, isCommand, getStr_sanitizeEntry op (by decide) (by decide)]

theorem stripped_sanitizeEntry (op : Document) :
    ∀ key ∈ STRIP, Document.containsKey (sanitizeEntry op) key = false := by
  intro key hkey
  rw [containsKey_eq_false_iff, sanitizeEntry_eq]
  intro field hfield
  obtain ⟨found, hfound, rfl⟩ := List.mem_map.mp hfield
  have hstays : found.1 ∉ STRIP := by simpa using (List.mem_filter.mp hfound).2
  intro heq
  split at heq
  next => exact hstays (heq ▸ hkey)
  next => exact hstays (heq ▸ hkey)

end Fields

section Ui

/-- An item without its `ui`. -/
def withoutUi : Bson → Bson
  | .document op => .document (Document.remove op "ui")
  | other => other

theorem getStr_remove_ui (op : Document) {key : String} (hkey : key ≠ "ui") :
    Document.getStr (Document.remove op "ui") key = Document.getStr op key := by
  refine getStr_congr (get_filter fun field _ hfield => ?_)
  simpa [hfield] using hkey

theorem nsOf_remove_ui (op : Document) :
    nsOf (Document.remove op "ui") = nsOf op := by
  rw [nsOf, nsOf, getStr_remove_ui op (by decide)]

theorem isCommand_remove_ui (op : Document) :
    isCommand (Document.remove op "ui") = isCommand op := by
  rw [isCommand, isCommand, getStr_remove_ui op (by decide)]

theorem innerOps_remove_ui (op : Document) :
    innerOps (Document.remove op "ui") = innerOps op := by
  have hfields : (Document.remove op "ui").filter (fun field =>
      field.1 = "o") = op.filter fun field => field.1 = "o" := by
    rw [Document.remove, List.filter_filter]
    refine List.filter_congr fun field _ => ?_
    by_cases hfield : field.1 = "o"
    · simp [hfield]
    · simp [hfield]
  rw [innerOps, innerOps, isCommand_remove_ui, listedDocs, listedDocs, hfields]

theorem cleanFields_remove_ui (command : Bool) (op : Document) :
    cleanFields command (Document.remove op "ui") = cleanFields command op := by
  have hui : "ui" ∈ STRIP := by decide
  rw [cleanFields_eq, cleanFields_eq, Document.remove, List.filter_filter]
  congr 1
  refine List.filter_congr fun field _ => ?_
  by_cases hfield : field.1 = "ui"
  · simp [hfield, hui]
  · simp [hfield]

theorem cleanItem_withoutUi (item : Bson) :
    cleanItem (withoutUi item) = cleanItem item := by
  cases item with
  | scalar value => rfl
  | array items => rfl
  | document op =>
      rw [withoutUi, cleanItem, cleanItem, nsOf_remove_ui, isCommand_remove_ui,
        cleanFields_remove_ui]

/-- The items of an array without their `ui`. -/
def withoutUis : Bson → Bson
  | .array items => .array (items.map withoutUi)
  | other => other

theorem stripNestedUi_document (o : Document) :
    stripNestedUi (.document o) =
      .document (Document.modify o "applyOps" withoutUis) := rfl

theorem cleanOps_withoutUis (value : Bson) :
    cleanOps (withoutUis value) = cleanOps value := by
  cases value with
  | scalar value => rfl
  | document fields => rfl
  | array items =>
      rw [withoutUis, cleanOps, cleanOps, cleanItems_eq, cleanItems_eq,
        List.flatMap_map]
      simp only [cleanItem_withoutUi]

/-- Cleaning sees nothing of what the code strips from the inner operations of a
command. -/
theorem cleanCommand_stripNestedUi (value : Bson) :
    cleanCommand (stripNestedUi value) = cleanCommand value := by
  cases value with
  | scalar value => rfl
  | array items => rfl
  | document o =>
      rw [stripNestedUi_document, cleanCommand, cleanCommand,
        cleanCommandFields_eq, cleanCommandFields_eq, Document.modify,
        List.map_map]
      congr 1
      refine List.map_congr_left fun field _ => ?_
      obtain ⟨key, value⟩ := field
      by_cases hkey : key = "applyOps"
      · simp only [Function.comp_apply, if_pos hkey, cleanCommandField,
          cleanOps_withoutUis]
      · simp only [Function.comp_apply, if_neg hkey]

theorem map_eq_self_iff {α : Type} {f : α → α} {items : List α} :
    items.map f = items ↔ ∀ item ∈ items, f item = item := by
  conv_lhs => rhs; rw [← List.map_id items]
  exact List.map_inj_left

theorem modify_eq_self_iff {doc : Document} {key : String}
    {edit : Bson → Bson} :
    Document.modify doc key edit = doc ↔
      ∀ field ∈ doc, field.1 = key → edit field.2 = field.2 := by
  rw [Document.modify, map_eq_self_iff]
  refine forall₂_congr fun field _ => ?_
  obtain ⟨name, value⟩ := field
  by_cases hkey : name = key
  · simp [hkey]
  · simp [hkey]

theorem remove_eq_self_iff {op : Document} {key : String} :
    Document.remove op key = op ↔ Document.containsKey op key = false := by
  rw [Document.remove, List.filter_eq_self, containsKey_eq_false_iff]
  simp

theorem withoutUi_eq_self_iff {item : Bson} :
    withoutUi item = item ↔
      ∀ op ∈ documentOf item, Document.containsKey op "ui" = false := by
  cases item with
  | scalar value => simp [withoutUi, documentOf]
  | array items => simp [withoutUi, documentOf]
  | document op => simp [withoutUi, documentOf, remove_eq_self_iff]

theorem withoutUis_eq_self_iff {value : Bson} :
    withoutUis value = value ↔
      ∀ op ∈ documentsIn value, Document.containsKey op "ui" = false := by
  cases value with
  | scalar value => simp [withoutUis, documentsIn]
  | document fields => simp [withoutUis, documentsIn]
  | array items =>
      rw [withoutUis, documentsIn, Bson.array.injEq, map_eq_self_iff]
      simp only [withoutUi_eq_self_iff, List.forall_mem_filterMap,
        Option.mem_def]

/-- The code changes no `o` just if no document listed in it has a `ui`. -/
theorem stripNestedUi_eq_self_iff {value : Bson} :
    stripNestedUi value = value ↔
      ∀ op ∈ applyOpsIn value, Document.containsKey op "ui" = false := by
  cases value with
  | scalar value => simp [stripNestedUi, applyOpsIn]
  | array items => simp [stripNestedUi, applyOpsIn]
  | document o =>
      rw [stripNestedUi_document, Bson.document.injEq, modify_eq_self_iff,
        applyOpsIn, List.forall_mem_flatMap, List.forall_mem_filter]
      simp only [withoutUis_eq_self_iff, decide_eq_true_eq]

theorem documentsIn_withoutUis (value : Bson) :
    documentsIn (withoutUis value) =
      (documentsIn value).flatMap fun op => [Document.remove op "ui"] := by
  cases value with
  | scalar value => rfl
  | document fields => rfl
  | array items =>
      rw [withoutUis, documentsIn, documentsIn, List.filterMap_map,
        ← List.map_eq_flatMap, List.map_filterMap]
      refine List.filterMap_congr fun item _ => ?_
      cases item <;> rfl

/-- What is collected under a key that is edited in place. -/
theorem flatMap_modify (doc : Document) (key : String) {edit : Bson → Bson}
    {collect : Bson → List Document} {change : Document → List Document}
    (hedit : ∀ value, collect (edit value) = (collect value).flatMap change) :
    ((Document.modify doc key edit).filter fun field =>
        field.1 = key).flatMap (fun field => collect field.2) =
      ((doc.filter fun field => field.1 = key).flatMap fun field =>
        collect field.2).flatMap change := by
  rw [Document.modify]
  induction doc with
  | nil => rfl
  | cons field rest ih =>
      rw [List.map_cons]
      by_cases hfield : field.1 = key
      · rw [if_pos hfield, List.filter_cons_of_pos (by simpa using hfield),
          List.filter_cons_of_pos (by simpa using hfield), List.flatMap_cons,
          List.flatMap_cons, List.flatMap_append, ih, hedit]
      · rw [if_neg hfield, List.filter_cons_of_neg (by simpa using hfield),
          List.filter_cons_of_neg (by simpa using hfield), ih]

theorem applyOpsIn_stripNestedUi (value : Bson) :
    applyOpsIn (stripNestedUi value) =
      (applyOpsIn value).flatMap fun op => [Document.remove op "ui"] := by
  cases value with
  | scalar value => rfl
  | array items => rfl
  | document o =>
      rw [stripNestedUi_document, applyOpsIn, applyOpsIn]
      exact flatMap_modify o "applyOps" documentsIn_withoutUis

theorem filter_o_stripped (op : Document) :
    (op.filter fun field => field.1 ∉ STRIP).filter (fun field =>
      field.1 = "o") = op.filter fun field => field.1 = "o" := by
  have hstays : "o" ∉ STRIP := by decide
  rw [List.filter_filter]
  refine List.filter_congr fun field _ => ?_
  by_cases hfield : field.1 = "o"
  · simp [hfield, hstays]
  · simp [hfield]

theorem listedDocs_sanitizeEntry (op : Document) :
    listedDocs (sanitizeEntry op) =
      (listedDocs op).map fun inner => Document.remove inner "ui" := by
  rw [listedDocs, sanitizeEntry, foldl_remove,
    flatMap_modify _ "o" applyOpsIn_stripNestedUi, filter_o_stripped,
    ← List.map_eq_flatMap, listedDocs]

end Ui

section Depth

theorem deeplyClean_iff {op : Document} :
    DeeplyClean op ↔ Clean op ∧ ∀ inner ∈ innerOps op, DeeplyClean inner := by
  constructor
  · intro hclean
    exact ⟨hclean op (.self op), fun inner hinner last hlast =>
      hclean last (.inner hinner hlast)⟩
  · rintro ⟨hself, hinner⟩ last hlast
    cases hlast with
    | self => exact hself
    | inner hnext hlast => exact hinner _ hnext last hlast

/-- An operation inside a command is clean once its `ui` goes. -/
structure CleanButUi (op : Document) : Prop where
  stripped : ∀ key ∈ STRIP, key ≠ "ui" → Document.containsKey op key = false
  allowed : shouldSkipNs (nsOf op) = false
  inner : ∀ inner ∈ innerOps op, DeeplyClean inner

theorem deeplyClean_remove_ui_iff {op : Document} :
    DeeplyClean (Document.remove op "ui") ↔ CleanButUi op := by
  have hkey : ∀ key,
      Document.containsKey (Document.remove op "ui") key = false ↔
      (key ≠ "ui" → Document.containsKey op key = false) := by
    intro key
    rw [containsKey_eq_false_iff, containsKey_eq_false_iff, Document.remove,
      List.forall_mem_filter]
    by_cases hui : key = "ui"
    · simp [hui]
    · grind
  rw [deeplyClean_iff, innerOps_remove_ui]
  constructor
  · rintro ⟨hclean, hinner⟩
    exact ⟨fun key hstrip => (hkey key).mp (hclean.stripped key hstrip),
      nsOf_remove_ui op ▸ hclean.allowed, hinner⟩
  · intro hclean
    exact ⟨⟨fun key hstrip => (hkey key).mpr (hclean.stripped key hstrip),
      (nsOf_remove_ui op).symm ▸ hclean.allowed⟩, hclean.inner⟩

/-- Nothing is left to clean behind the code, nor is anything lost. -/
structure WithinReach (op : Document) : Prop where
  allowed : shouldSkipNs (nsOf op) = false
  command : isCommand op = true → ∀ inner ∈ listedDocs op, CleanButUi inner
  data : isCommand op = false →
    ∀ doc ∈ listedDocs op, Document.containsKey doc "ui" = false

theorem deepClean_sanitizeEntry_iff {op : Document} :
    deepClean (sanitizeEntry op) = deepClean op ↔
      (isCommand op = false →
        ∀ doc ∈ listedDocs op, Document.containsKey doc "ui" = false) := by
  have hstays : "o" ∉ STRIP := by decide
  have hkept : ∀ field ∈ sanitizeEntry op, decide (field.1 ∉ STRIP) = true := by
    intro field hfield
    refine decide_eq_true fun hstrip => ?_
    exact containsKey_eq_false_iff.mp
      (stripped_sanitizeEntry op field.1 hstrip) field hfield rfl
  rw [deepClean, deepClean, isCommand_sanitizeEntry, cleanFields_eq,
    List.filter_eq_self.mpr hkept, cleanFields_eq, sanitizeEntry_eq,
    List.map_map, List.map_inj_left, List.forall_mem_filter]
  cases isCommand op with
  | true =>
      refine iff_of_true (fun field _ _ => ?_) fun hfalse => by cases hfalse
      obtain ⟨key, value⟩ := field
      by_cases hkey : key = "o"
      · simp only [Function.comp_apply, hkey, cleanField, and_self, if_true,
          cleanCommand_stripNestedUi]
      · simp only [Function.comp_apply, if_neg hkey]
  | false =>
      rw [listedDocs, List.forall_mem_flatMap, List.forall_mem_filter]
      simp only [← stripNestedUi_eq_self_iff, forall_const, decide_eq_true_eq]
      refine forall₂_congr fun field _ => ?_
      obtain ⟨key, value⟩ := field
      by_cases hkey : key = "o"
      · simp [hkey, cleanField, hstays]
      · simp [hkey]

theorem sanitised_sanitizeEntry_iff {op : Document} :
    Sanitised op (sanitizeEntry op) ↔ WithinReach op := by
  have hclean : DeeplyClean (sanitizeEntry op) ↔
      shouldSkipNs (nsOf op) = false ∧
        (isCommand op = true → ∀ inner ∈ listedDocs op, CleanButUi inner) := by
    rw [deeplyClean_iff, innerOps, isCommand_sanitizeEntry,
      listedDocs_sanitizeEntry]
    constructor
    · rintro ⟨hself, hinner⟩
      refine ⟨nsOf_sanitizeEntry op ▸ hself.allowed,
        fun hcommand inner hlisted =>
          deeplyClean_remove_ui_iff.mp (hinner _ ?_)⟩
      rw [if_pos hcommand]
      exact List.mem_map_of_mem hlisted
    · rintro ⟨hallowed, hcommand⟩
      refine ⟨⟨stripped_sanitizeEntry op,
        (nsOf_sanitizeEntry op).symm ▸ hallowed⟩, fun inner hinner => ?_⟩
      split at hinner
      next htrue =>
        obtain ⟨listed, hlisted, rfl⟩ := List.mem_map.mp hinner
        exact deeplyClean_remove_ui_iff.mpr (hcommand htrue listed hlisted)
      next => cases hinner
  constructor
  · rintro ⟨hdeep, hrest⟩
    obtain ⟨hallowed, hcommand⟩ := hclean.mp hdeep
    exact ⟨hallowed, hcommand, deepClean_sanitizeEntry_iff.mp hrest⟩
  · rintro ⟨hallowed, hcommand, hdata⟩
    exact ⟨hclean.mpr ⟨hallowed, hcommand⟩,
      deepClean_sanitizeEntry_iff.mpr hdata⟩

end Depth

section Cleaned

theorem cleanCommand_document (o : Document) :
    cleanCommand (.document o) =
      .document (Document.modify o "applyOps" cleanOps) := by
  rw [cleanCommand, cleanCommandFields_eq, Document.modify]
  congr 1
  refine List.map_congr_left fun field _ => ?_
  obtain ⟨key, value⟩ := field
  rw [cleanCommandField]

/-- The operation, or none on the server's own collections. -/
def cleanOp (op : Document) : List Document :=
  if shouldSkipNs (nsOf op) then [] else [deepClean op]

theorem deepClean_eq (op : Document) :
    deepClean op =
      if isCommand op then
        Document.modify (op.filter fun field => field.1 ∉ STRIP) "o"
          cleanCommand
      else op.filter fun field => field.1 ∉ STRIP := by
  rw [deepClean, cleanFields_eq]
  cases isCommand op with
  | true =>
      rw [if_pos rfl, Document.modify]
      refine List.map_congr_left fun field _ => ?_
      obtain ⟨key, value⟩ := field
      simp [cleanField]
  | false =>
      rw [if_neg Bool.false_ne_true, map_eq_self_iff]
      intro field _
      obtain ⟨key, value⟩ := field
      simp [cleanField]

theorem getStr_deepClean (op : Document) {key : String}
    (hstrip : key ∉ STRIP) (hkey : key ≠ "o") :
    Document.getStr (deepClean op) key = Document.getStr op key := by
  have hfilter : Document.get (op.filter fun field => field.1 ∉ STRIP) key =
      Document.get op key :=
    get_filter fun field _ hfield => by simpa [hfield] using hstrip
  rw [deepClean_eq]
  split
  next => exact getStr_congr ((get_modify_ne hkey).trans hfilter)
  next => exact getStr_congr hfilter

theorem nsOf_deepClean (op : Document) : nsOf (deepClean op) = nsOf op := by
  rw [nsOf, nsOf, getStr_deepClean op (by decide) (by decide)]

theorem isCommand_deepClean (op : Document) :
    isCommand (deepClean op) = isCommand op := by
  rw [isCommand, isCommand, getStr_deepClean op (by decide) (by decide)]

theorem stripped_deepClean (op : Document) :
    ∀ key ∈ STRIP, Document.containsKey (deepClean op) key = false := by
  intro key hkey
  rw [containsKey_eq_false_iff, deepClean, cleanFields_eq]
  intro field hfield
  obtain ⟨found, hfound, rfl⟩ := List.mem_map.mp hfield
  have hstays : found.1 ∉ STRIP := by simpa using (List.mem_filter.mp hfound).2
  have hname : (cleanField (isCommand op) found).1 = found.1 := by
    rw [cleanField]
    split <;> rfl
  rw [hname]
  exact fun heq => hstays (heq ▸ hkey)

theorem documentsIn_cleanOps (value : Bson) :
    documentsIn (cleanOps value) = (documentsIn value).flatMap cleanOp := by
  cases value with
  | scalar value => rfl
  | document fields => rfl
  | array items =>
      rw [cleanOps, cleanItems_eq, documentsIn, documentsIn]
      induction items with
      | nil => rfl
      | cons item rest ih =>
          rw [List.flatMap_cons, List.filterMap_append, ih]
          cases item with
          | scalar value => rfl
          | array items => rfl
          | document op =>
              rw [List.filterMap_cons, documentOf, List.flatMap_cons, cleanItem,
                cleanOp]
              split <;> rfl

theorem applyOpsIn_cleanCommand (value : Bson) :
    applyOpsIn (cleanCommand value) = (applyOpsIn value).flatMap cleanOp := by
  cases value with
  | scalar value => rfl
  | array items => rfl
  | document o =>
      rw [cleanCommand_document, applyOpsIn, applyOpsIn]
      exact flatMap_modify o "applyOps" documentsIn_cleanOps

theorem innerOps_deepClean (op : Document) :
    innerOps (deepClean op) = (innerOps op).flatMap cleanOp := by
  rw [innerOps, innerOps, isCommand_deepClean, deepClean_eq]
  split
  next =>
    rw [listedDocs, flatMap_modify _ "o" applyOpsIn_cleanCommand,
      filter_o_stripped, listedDocs]
  next => rfl

/-- A cleaned operation is clean at every depth. -/
theorem deeplyClean_deepClean {op : Document}
    (hallowed : shouldSkipNs (nsOf op) = false) :
    DeeplyClean (deepClean op) := by
  suffices hnested : ∀ start last, Nested start last → ∀ op,
      shouldSkipNs (nsOf op) = false → start = deepClean op → Clean last from
    fun last hlast => hnested _ last hlast op hallowed rfl
  intro start last hlast
  induction hlast with
  | self start =>
      rintro op hallowed rfl
      exact ⟨stripped_deepClean op, (nsOf_deepClean op).symm ▸ hallowed⟩
  | inner hnext hlast ih =>
      rintro op hallowed rfl
      rw [innerOps_deepClean] at hnext
      obtain ⟨inner, hinner, hcleaned⟩ := List.mem_flatMap.mp hnext
      rw [cleanOp] at hcleaned
      split at hcleaned
      next => cases hcleaned
      next hkept =>
        exact ih inner (Bool.not_eq_true _ ▸ hkept)
          (List.mem_singleton.mp hcleaned)

theorem sizeOf_lt_of_mem_applyOpsIn {value : Bson} {inner : Document}
    (hinner : inner ∈ applyOpsIn value) : sizeOf inner < sizeOf value := by
  cases value with
  | scalar value => cases hinner
  | array items => cases hinner
  | document o =>
      obtain ⟨⟨key, listed⟩, hfield, hlisted⟩ := List.mem_flatMap.mp hinner
      have ho := List.sizeOf_lt_of_mem (List.mem_filter.mp hfield).1
      cases listed with
      | scalar value => cases hlisted
      | document fields => cases hlisted
      | array items =>
          obtain ⟨item, hitem, hdoc⟩ := List.mem_filterMap.mp hlisted
          have hitems := List.sizeOf_lt_of_mem hitem
          cases item with
          | scalar value => cases hdoc
          | array others => cases hdoc
          | document fields =>
              cases hdoc
              simp only [Prod.mk.sizeOf_spec, Bson.array.sizeOf_spec,
                Bson.document.sizeOf_spec] at ho hitems ⊢
              omega

theorem cleanOps_eq_self {value : Bson}
    (hself : ∀ op ∈ documentsIn value, cleanOp op = [op]) :
    cleanOps value = value := by
  cases value with
  | scalar value => rfl
  | document fields => rfl
  | array items =>
      rw [cleanOps, cleanItems_eq]
      congr 1
      induction items with
      | nil => rfl
      | cons item rest ih =>
          rw [documentsIn, List.forall_mem_filterMap,
            List.forall_mem_cons] at hself
          obtain ⟨hitem, hrest⟩ := hself
          rw [List.flatMap_cons,
            ih (by rw [documentsIn, List.forall_mem_filterMap]; exact hrest)]
          cases item with
          | scalar value => rfl
          | array others => rfl
          | document op =>
              have hop := hitem op rfl
              rw [cleanOp] at hop
              rw [cleanItem]
              split at hop
              next => cases hop
              next hkept =>
                rw [if_neg hkept]
                exact congrArg (fun op => .document op :: rest)
                  (List.head_eq_of_cons_eq hop)

theorem cleanCommand_eq_self {value : Bson}
    (hself : ∀ op ∈ applyOpsIn value, cleanOp op = [op]) :
    cleanCommand value = value := by
  cases value with
  | scalar value => rfl
  | array items => rfl
  | document o =>
      rw [cleanCommand_document]
      refine congrArg Bson.document (modify_eq_self_iff.mpr ?_)
      intro field hfield hkey
      refine cleanOps_eq_self fun op hop => hself op ?_
      exact List.mem_flatMap.mpr ⟨field,
        List.mem_filter.mpr ⟨hfield, decide_eq_true hkey⟩, hop⟩

/-- An operation that is clean at every depth stays as it is. -/
theorem deepClean_of_deeplyClean {op : Document} (hclean : DeeplyClean op) :
    deepClean op = op := by
  induction hsize : sizeOf op using Nat.strong_induction_on generalizing op with
  | h n ih =>
      obtain ⟨hself, hinner⟩ := deeplyClean_iff.mp hclean
      have hkept : ∀ field ∈ op, decide (field.1 ∉ STRIP) = true := by
        intro field hfield
        refine decide_eq_true fun hstrip => ?_
        exact containsKey_eq_false_iff.mp (hself.stripped field.1 hstrip) field
          hfield rfl
      rw [deepClean_eq, List.filter_eq_self.mpr hkept]
      split
      next hcommand =>
        rw [modify_eq_self_iff]
        rintro ⟨key, value⟩ hfield hkey
        refine cleanCommand_eq_self fun inner hlisted => ?_
        have hbelow : inner ∈ innerOps op := by
          rw [innerOps, if_pos hcommand]
          exact List.mem_flatMap.mpr ⟨(key, value),
            List.mem_filter.mpr ⟨hfield, decide_eq_true hkey⟩, hlisted⟩
        have hdeep := hinner inner hbelow
        have hless : sizeOf inner < n := by
          have hvalue : sizeOf inner < sizeOf value :=
            sizeOf_lt_of_mem_applyOpsIn hlisted
          have hop := List.sizeOf_lt_of_mem hfield
          simp only [Prod.mk.sizeOf_spec] at hop
          omega
        rw [cleanOp, ih (sizeOf inner) hless hdeep rfl,
          if_neg (by simp [(deeplyClean_iff.mp hdeep).1.allowed])]
      next => rfl

/-- The operation handed over is the cleaned one and no other. -/
theorem sanitised_iff {op handed : Document} :
    Sanitised op handed ↔
      shouldSkipNs (nsOf op) = false ∧ handed = deepClean op := by
  constructor
  · rintro ⟨hclean, hrest⟩
    have heq : handed = deepClean op :=
      (deepClean_of_deeplyClean hclean).symm.trans hrest
    have hallowed := (deeplyClean_iff.mp hclean).1.allowed
    rw [heq, nsOf_deepClean] at hallowed
    exact ⟨hallowed, heq⟩
  · rintro ⟨hallowed, rfl⟩
    have hclean := deeplyClean_deepClean hallowed
    exact ⟨hclean, deepClean_of_deeplyClean hclean⟩

end Cleaned

theorem map_txnDocs (o : Document) :
    (txnDocs o).map sanitizeEntry = innerTxnOps o := by
  rw [txnDocs, innerTxnOps]
  cases Document.getArray o "applyOps" with
  | none => rfl
  | some items =>
      rw [Option.getD_some, List.map_filterMap]
      refine List.filterMap_congr fun item _ => ?_
      cases item <;> rfl

/-- Every operation is handed over as `sanitizeEntry` leaves it. -/
theorem map_handedDocs (debug : BsonDebug) (entry : Document) :
    (handedDocs debug entry).map sanitizeEntry =
      (classifyEntry debug entry).ops := by
  rw [handedDocs]
  cases hclass : classifyEntry debug entry with
  | skip => rfl
  | apply op =>
      exact congrArg (fun op => [op]) (apply_of_classifyEntry hclass).symm
  | txnBuffer key ops =>
      rw [map_txnDocs]
      exact (inner_of_classifyEntry (Or.inl hclass)).symm
  | txnBufferThenCommit key ops =>
      rw [map_txnDocs]
      exact (inner_of_classifyEntry (Or.inr hclass)).symm
  | txnCommit key => rfl
  | txnAbort key => rfl

/-- The operations handed over are clean at every depth and otherwise what they
were, exactly if each is within reach of the code. -/
theorem handedDocs_sanitised_iff (debug : BsonDebug) (entry : Document) :
    List.Forall₂ Sanitised (handedDocs debug entry)
        (classifyEntry debug entry).ops ↔
      ∀ op ∈ handedDocs debug entry, WithinReach op := by
  rw [← map_handedDocs, List.forall₂_map_right_iff, List.forall₂_same]
  simp only [sanitised_sanitizeEntry_iff]

/-! A user's `applyOps` inside another, and a user's document with a field of
that name. -/
namespace NestedUi

def debug : BsonDebug := ⟨fun _ => "Document(\x7b\x7d)", fun _ => "None"⟩

def order : Document :=
  [("op", .scalar (.string "i")), ("ns", .scalar (.string "shop.orders")),
    ("ui", .scalar (.binary 4 (List.replicate 16 7))),
    ("o", .document [("_id", .scalar (.int32 1))])]

def innerCommand : Document :=
  [("op", .scalar (.string "c")), ("ns", .scalar (.string "admin.$cmd")),
    ("o", .document [("applyOps", .array [.document order])])]

def entry : Document :=
  [("ts", .scalar (.timestamp ⟨100, 1⟩)), ("op", .scalar (.string "c")),
    ("ns", .scalar (.string "admin.$cmd")),
    ("o", .document [("applyOps", .array [.document innerCommand])])]

def form : Document :=
  [("ts", .scalar (.timestamp ⟨100, 2⟩)), ("op", .scalar (.string "i")),
    ("ns", .scalar (.string "shop.forms")),
    ("o", .document [("_id", .scalar (.int32 1)), ("applyOps",
      .array [.document [("ui", .scalar (.string "wide"))]])])]

def formSent : Document :=
  [("ts", .scalar (.timestamp ⟨100, 2⟩)), ("op", .scalar (.string "i")),
    ("ns", .scalar (.string "shop.forms")),
    ("o", .document [("_id", .scalar (.int32 1)),
      ("applyOps", .array [.document []])])]

theorem classifyEntry_entry : classifyEntry debug entry = .apply entry := rfl

theorem classifyEntry_form : classifyEntry debug form = .apply formSent := rfl

theorem nested_order : Nested entry order := by
  have hentry : innerOps entry = [innerCommand] := rfl
  have hcommand : innerOps innerCommand = [order] := rfl
  refine @Nested.inner entry innerCommand order ?_
    (@Nested.inner innerCommand order order ?_ (.self order))
  · rw [hentry]
    exact List.mem_singleton_self _
  · rw [hcommand]
    exact List.mem_singleton_self _

end NestedUi

open NestedUi in
/-- The order at the bottom is sent with its `ui`, and the form without that of
its own. -/
theorem nestedUi_sent :
    ¬ List.Forall₂ Sanitised (handedDocs debug entry)
        (classifyEntry debug entry).ops ∧
      ¬ List.Forall₂ Sanitised (handedDocs debug form)
        (classifyEntry debug form).ops := by
  have hentry : handedDocs debug entry = [entry] := rfl
  have hform : handedDocs debug form = [form] := rfl
  rw [classifyEntry_entry, classifyEntry_form, hentry, hform]
  constructor
  · rintro (_ | ⟨hsanitised, -⟩)
    have horder := hsanitised.clean order nested_order
    exact absurd (horder.stripped "ui" (by decide)) (by decide)
  · rintro (_ | ⟨hsanitised, -⟩)
    have hlisted : [[]] = [[("ui", Bson.scalar (.string "wide"))]] :=
      congrArg listedDocs hsanitised.rest
    cases hlisted

end XBackup
