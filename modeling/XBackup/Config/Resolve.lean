/-
The inheritance of a second-version config: defaults, bases and profiles laid
over one another.
-/
import XBackup.Foundation.Fallible
import XBackup.Foundation.SortedMap

namespace XBackup

namespace Config

open Fallible

/-- A TOML value; times and floating numbers are kept as written. -/
inductive Value where
  | string (s : String)
  | integer (n : Int64)
  | float (text : String)
  | boolean (b : Bool)
  | datetime (text : String)
  | array (items : List Value)
  | table (entries : List (String × Value))

abbrev Table := SortedMap.Map String Value

namespace Value

def asStr : Value → Option String
  | string s => some s
  | _ => none

def asTable : Value → Option Table
  | table entries => some (SortedMap.Map.ofEntries entries)
  | _ => none

end Value

theorem get_ofEntries (t : Table) (key : String) :
    (SortedMap.Map.ofEntries t.entries).get key = t.get key := by
  refine Option.ext fun value => ?_
  rw [SortedMap.Map.get_ofEntries_eq_some_iff (t.sorted.imp ne_of_lt),
    SortedMap.Map.get_eq_some_iff]

/-- The tables of a config that entities inherit from. -/
structure Root where
  defaults : Table
  bases : Table
  profiles : Table

/-- The entries of a table but for what it inherits from. -/
def ownKeys (entity : Table) : Table :=
  entity.erase "extends"

def extendsItem (profile : String) (v : Value) : Except String String :=
  match v.asStr with
  | some s => .ok s
  | none => .error ("[profile." ++ profile ++
      "] extends 배열 항목은 문자열이어야 합니다")

/-- The value of `extends`: a name, or a list of names. -/
def extendsNames (profile : String) : Value → Except String (List String)
  | .string s => .ok [s]
  | .array items => items.mapM (extendsItem profile)
  | _ => .error ("[profile." ++ profile ++
      "] extends는 문자열 또는 문자열 배열이어야 합니다")

/-- What an entity inherits from, from the left to the right. -/
def parentNames (name : String) (entity : Table) :
    Except String (List String) :=
  match entity.get "extends" with
  | none => .ok []
  | some ext => extendsNames name ext

namespace Root

variable (r : Root)

/-- A base comes before a profile of its name. -/
def entityOf (name : String) : Option Table :=
  ((r.bases.get name).or (r.profiles.get name)).bind Value.asTable

def names : List String :=
  r.bases.keys ++ r.profiles.keys

/-- The names that are not on the way to an entity. -/
def unvisited (visiting : List String) : Nat :=
  (r.names.filter fun name => name ∉ visiting).length

theorem mem_names {name : String} {entity : Table}
    (hentity : r.entityOf name = some entity) : name ∈ r.names := by
  obtain ⟨value, hvalue, -⟩ := Option.bind_eq_some_iff.mp hentity
  rw [names, List.mem_append, SortedMap.Map.mem_keys_iff,
    SortedMap.Map.mem_keys_iff]
  rcases Option.or_eq_some_iff.mp hvalue with hbase | ⟨-, hprofile⟩
  · exact .inl (by rw [hbase]; rfl)
  · exact .inr (by rw [hprofile]; rfl)

theorem unvisited_lt {name : String} {entity : Table} {visiting : List String}
    (hnew : name ∉ visiting) (hentity : r.entityOf name = some entity) :
    r.unvisited (visiting ++ [name]) < r.unvisited visiting := by
  have hsub : (r.names.filter fun other => other ∉ visiting ++ [name]) =
      (r.names.filter fun other => other ∉ visiting).filter
        fun other => other ≠ name := by
    rw [List.filter_filter]
    refine List.filter_congr fun other _ => ?_
    simp [not_or, and_comm]
  rw [unvisited, unvisited, hsub]
  refine List.length_filter_lt_length_iff_exists.mpr ⟨name, ?_, by simp⟩
  exact List.mem_filter.mpr ⟨r.mem_names hentity, decide_eq_true hnew⟩

def circular (visiting : List String) (base : String) : String :=
  "extends 순환 참조: " ++ String.intercalate " → " visiting ++ " → " ++ base

def notFound (name base : String) : String :=
  "[profile." ++ name ++ "] extends 대상 '" ++ base ++
    "'를 찾을 수 없습니다(base/profile)"

mutual

/-- The flat map of an entity: the defaults, what it inherits, and its own. -/
def resolveFlat (name : String) (entity : Table) (visiting : List String) :
    Except String Table := do
  let names ← parentNames name entity
  let acc ← resolveParents name names visiting
    (SortedMap.Map.empty.overlay (ownKeys r.defaults))
  return acc.overlay (ownKeys entity)
termination_by (r.unvisited visiting, 1, 0)

/-- The loop over what an entity inherits from. -/
def resolveParents (name : String) (names : List String)
    (visiting : List String) (acc : Table) : Except String Table :=
  match names with
  | [] => .ok acc
  | base :: rest =>
      if _hvisited : base ∈ visiting then .error (circular visiting base)
      else
        match _hentity : r.entityOf base with
        | none => .error (notFound name base)
        | some entity => do
            let flat ← resolveFlat base entity (visiting ++ [base])
            resolveParents name rest visiting (acc.overlay flat)
termination_by (r.unvisited visiting, 0, names.length)
decreasing_by
  · exact Prod.Lex.left _ _ (r.unvisited_lt _hvisited _hentity)
  · exact Prod.Lex.right _ (Prod.Lex.right _ (Nat.lt_succ_self _))

end

/-- The names in an `extends`, where it is one name or a list of names. -/
def heritage (entity : Table) : Option (List String) :=
  match entity.get "extends" with
  | none => some []
  | some (.string s) => some [s]
  | some (.array items) => items.mapM Value.asStr
  | some _ => none

/-- A name that an entity inherits from, directly or not. -/
inductive Ancestor : Table → String → Prop where
  | parent {entity : Table} {names : List String} {n : String}
      (hnames : heritage entity = some names) (hn : n ∈ names) :
      Ancestor entity n
  | behind {entity parent : Table} {names : List String} {m n : String}
      (hnames : heritage entity = some names) (hm : m ∈ names)
      (hparent : r.entityOf m = some parent) (hn : Ancestor parent n) :
      Ancestor entity n

/-- Each `extends` on the way is readable, names what there is, and comes back
to no name. -/
structure WellLinked (entity : Table) : Prop where
  readable : (heritage entity).isSome
  found : ∀ n, r.Ancestor entity n →
    ∃ parent, r.entityOf n = some parent ∧ (heritage parent).isSome
  acyclic : ∀ n parent, r.Ancestor entity n → r.entityOf n = some parent →
    ¬ r.Ancestor parent n

mutual

/-- The value of a key by the entity's own entry, or from what it inherits. -/
inductive Inherits : Table → String → Option Value → Prop where
  | own {entity : Table} {k : String} {v : Value}
      (hown : (ownKeys entity).get k = some v) : Inherits entity k (some v)
  | passed {entity : Table} {names : List String} {k : String}
      {o : Option Value} (hown : (ownKeys entity).get k = none)
      (hnames : heritage entity = some names)
      (hfrom : FromParents names k o) : Inherits entity k o

/-- The value of a key from the rightmost name that has one. -/
inductive FromParents : List String → String → Option Value → Prop where
  | nobody {k : String} : FromParents [] k none
  | last {names : List String} {n k : String} {parent : Table} {v : Value}
      (hparent : r.entityOf n = some parent)
      (hgives : Inherits parent k (some v)) :
      FromParents (names ++ [n]) k (some v)
  | before {names : List String} {n k : String} {parent : Table}
      {o : Option Value} (hparent : r.entityOf n = some parent)
      (hlacks : Inherits parent k none) (hfrom : FromParents names k o) :
      FromParents (names ++ [n]) k o

end

/-- The value of a key along the line of the last names alone. -/
inductive LastLine : Table → String → Option Value → Prop where
  | own {entity : Table} {k : String} {v : Value}
      (hown : (ownKeys entity).get k = some v) : LastLine entity k (some v)
  | passed {entity parent : Table} {names : List String} {n k : String}
      {o : Option Value} (hown : (ownKeys entity).get k = none)
      (hnames : heritage entity = some (names ++ [n]))
      (hparent : r.entityOf n = some parent) (hline : LastLine parent k o) :
      LastLine entity k o
  | ended {entity : Table} {k : String}
      (hown : (ownKeys entity).get k = none)
      (hnames : heritage entity = some []) : LastLine entity k none

/-- The precedence of keys: own ones, then those of the rightmost parent, then
the defaults; and only what is badly linked is refused. -/
structure PrecedenceKept (name : String) (entity : Table) : Prop where
  resolved : r.WellLinked entity →
    ∃ flat, r.resolveFlat name entity [name] = .ok flat ∧
      ∀ k o, r.Inherits entity k o →
        flat.get k = o.or ((ownKeys r.defaults).get k)
  refused : ¬ r.WellLinked entity →
    ∃ err, r.resolveFlat name entity [name] = .error err

/-- No ancestor has the entity's own name, and a key of the defaults has the
same value along the line of the last parents as by the precedence. -/
structure Unshadowed (name : String) (entity : Table) : Prop where
  named : ¬ r.Ancestor entity name
  lined : ∀ k d o l, (ownKeys r.defaults).get k = some d →
    r.Inherits entity k o → r.LastLine entity k l → o.getD d = l.getD d

section Links

variable {r} {name n : String} {entity parent flat acc : Table}
  {names visiting : List String} {k : String} {o left right : Option Value}

theorem extendsItem_eq_ok {item : Value} {found : String} :
    extendsItem name item = .ok found ↔ item.asStr = some found := by
  rw [extendsItem]
  cases item.asStr <;> simp

theorem mapM_extendsItem {items : List Value} :
    items.mapM (extendsItem name) = .ok names ↔
      items.mapM Value.asStr = some names := by
  induction items generalizing names with
  | nil => simp [pure, Except.pure]
  | cons item rest ih =>
      rw [List.mapM_cons, List.mapM_cons, bind_eq_ok, Option.bind_eq_bind,
        Option.bind_eq_some_iff]
      refine exists_congr fun found => and_congr extendsItem_eq_ok ?_
      rw [bind_eq_ok, Option.bind_eq_bind, Option.bind_eq_some_iff]
      refine exists_congr fun others => and_congr ih ?_
      exact ⟨fun h => congrArg some (Except.ok.inj h),
        fun h => congrArg Except.ok (Option.some.inj h)⟩

theorem parentNames_eq_ok : parentNames name entity = .ok names ↔
    heritage entity = some names := by
  rw [parentNames, heritage]
  cases entity.get "extends" with
  | none => simp
  | some ext =>
      cases ext with
      | array items => exact mapM_extendsItem
      | _ => simp [extendsNames]

theorem Ancestor.cases (hnames : heritage entity = some names) :
    r.Ancestor entity n ↔ n ∈ names ∨ ∃ m ∈ names, ∃ parent,
      r.entityOf m = some parent ∧ r.Ancestor parent n := by
  constructor
  · rintro (⟨hsame, hn⟩ | ⟨hsame, hm, hparent, hn⟩)
    · cases hnames.symm.trans hsame
      exact .inl hn
    · cases hnames.symm.trans hsame
      exact .inr ⟨_, hm, _, hparent, hn⟩
  · rintro (hn | ⟨m, hm, parent, hparent, hn⟩)
    · exact .parent hnames hn
    · exact .behind hnames hm hparent hn

theorem Ancestor.trans (hn : r.Ancestor entity n)
    (hparent : r.entityOf n = some parent) {m : String}
    (hm : r.Ancestor parent m) : r.Ancestor entity m := by
  induction hn with
  | parent hnames hn => exact .behind hnames hn hparent hm
  | behind hnames hk hfound _ ih => exact .behind hnames hk hfound (ih hparent)

/-- What an entity inherits from is linked as well. -/
theorem WellLinked.of_ancestor (hlinked : r.WellLinked entity)
    (hn : r.Ancestor entity n) (hparent : r.entityOf n = some parent)
    (hbehind : ∀ m, r.Ancestor parent m → r.Ancestor entity m) :
    r.WellLinked parent := by
  obtain ⟨found, hfound, hreadable⟩ := hlinked.found n hn
  cases hfound.symm.trans hparent
  exact ⟨hreadable, fun m hm => hlinked.found m (hbehind m hm),
    fun m other hm => hlinked.acyclic m other (hbehind m hm)⟩

/-- An induction over what a linked entity inherits from: the way to it grows
by names that there are, and never by one again. -/
theorem linked_induction {P : Table → Prop}
    (step : ∀ entity names, heritage entity = some names →
      r.WellLinked entity →
      (∀ n ∈ names, ∃ parent, r.entityOf n = some parent ∧
        r.WellLinked parent ∧ ¬ r.Ancestor parent n ∧ P parent) → P entity)
    (hlinked : r.WellLinked entity) : P entity := by
  suffices hway : ∀ left visiting entity, r.unvisited visiting = left →
      r.WellLinked entity → (∀ n, r.Ancestor entity n → n ∉ visiting) →
        P entity from
    hway _ [] entity rfl hlinked fun _ _ => List.not_mem_nil
  intro left
  induction left using Nat.strong_induction_on with
  | _ left ih =>
      intro visiting entity hleft hlinked hnew
      obtain ⟨names, hnames⟩ := Option.isSome_iff_exists.mp hlinked.readable
      refine step entity names hnames hlinked fun n hn => ?_
      have hancestor : r.Ancestor entity n := .parent hnames hn
      obtain ⟨parent, hparent, -⟩ := hlinked.found n hancestor
      have hbehind : ∀ m, r.Ancestor parent m → r.Ancestor entity m :=
        fun m hm => .behind hnames hn hparent hm
      have hsound := hlinked.of_ancestor hancestor hparent hbehind
      have hself := hlinked.acyclic n parent hancestor hparent
      refine ⟨parent, hparent, hsound, hself, ?_⟩
      refine ih (r.unvisited (visiting ++ [n])) ?_ (visiting ++ [n]) parent rfl
        hsound ?_
      · rw [← hleft]
        exact r.unvisited_lt (hnew n hancestor) hparent
      · intro m hm hmem
        rcases List.mem_append.mp hmem with hold | hlast
        · exact hnew m (hbehind m hm) hold
        · exact hself (List.mem_singleton.mp hlast ▸ hm)

/-- What a flat map holds: without a default the inherited value, and else the
value along the last names. -/
def Flat (r : Root) (entity flat : Table) : Prop :=
  ∀ k, match (ownKeys r.defaults).get k with
    | none => r.Inherits entity k (flat.get k)
    | some d => ∃ o, r.LastLine entity k o ∧ flat.get k = some (o.getD d)

/-- The map in front of an entity's own keys, after some of its parents. -/
def Laid (r : Root) (names : List String) (acc : Table) : Prop :=
  ∀ k, match (ownKeys r.defaults).get k with
    | none => r.FromParents names k (acc.get k)
    | some d => (names = [] ∧ acc.get k = some d) ∨
        ∃ front n parent o, names = front ++ [n] ∧
          r.entityOf n = some parent ∧ r.LastLine parent k o ∧
            acc.get k = some (o.getD d)

theorem laid_defaults :
    r.Laid [] (SortedMap.Map.empty.overlay (ownKeys r.defaults)) := by
  intro k
  rw [SortedMap.Map.get_overlay]
  cases (ownKeys r.defaults).get k with
  | none => exact .nobody
  | some d => exact .inl ⟨rfl, rfl⟩

theorem Laid.overlay (hlaid : r.Laid names acc)
    (hparent : r.entityOf n = some parent) (hflat : r.Flat parent flat) :
    r.Laid (names ++ [n]) (acc.overlay flat) := by
  intro k
  have hlaid := hlaid k
  have hflat := hflat k
  rw [SortedMap.Map.get_overlay]
  cases hdefault : (ownKeys r.defaults).get k with
  | none =>
      rw [hdefault] at hlaid hflat
      dsimp only at hlaid hflat ⊢
      cases hget : flat.get k with
      | some v =>
          rw [hget] at hflat
          exact .last hparent hflat
      | none =>
          rw [hget] at hflat
          exact .before hparent hflat hlaid
  | some d =>
      rw [hdefault] at hflat
      obtain ⟨o, hline, hget⟩ := hflat
      exact .inr ⟨names, n, parent, o, rfl, hparent, hline, by rw [hget]; rfl⟩

theorem Laid.finish (hlaid : r.Laid names acc)
    (hnames : heritage entity = some names) :
    r.Flat entity (acc.overlay (ownKeys entity)) := by
  intro k
  have hlaid := hlaid k
  rw [SortedMap.Map.get_overlay]
  cases hdefault : (ownKeys r.defaults).get k with
  | none =>
      rw [hdefault] at hlaid
      dsimp only at hlaid ⊢
      cases hown : (ownKeys entity).get k with
      | some v => exact .own hown
      | none => exact .passed hown hnames hlaid
  | some d =>
      rw [hdefault] at hlaid
      dsimp only at hlaid ⊢
      cases hown : (ownKeys entity).get k with
      | some v => exact ⟨some v, .own hown, rfl⟩
      | none =>
          rcases hlaid with ⟨rfl, hget⟩ |
            ⟨front, n, parent, o, rfl, hparent, hline, hget⟩
          · exact ⟨none, .ended hown hnames, hget⟩
          · exact ⟨o, .passed hown hnames hparent hline, hget⟩

/-- An entity is resolved wherever its ancestors are not on the way. -/
def Resolves (r : Root) (entity : Table) : Prop :=
  ∀ name visiting, (∀ n, r.Ancestor entity n → n ∉ visiting) →
    ∃ flat, r.resolveFlat name entity visiting = .ok flat ∧
      r.Flat entity flat

theorem resolves_of_wellLinked (hlinked : r.WellLinked entity) :
    r.Resolves entity := by
  refine @linked_induction r entity r.Resolves ?_ hlinked
  intro entity names hnames _ hparents name visiting hnew
  have hloop : ∀ rest done acc, names = done ++ rest → r.Laid done acc →
      ∃ final, r.resolveParents name rest visiting acc = .ok final ∧
        r.Laid names final := by
    intro rest
    induction rest with
    | nil =>
        intro done acc hsplit hlaid
        rw [List.append_nil] at hsplit
        exact ⟨acc, by rw [resolveParents], hsplit ▸ hlaid⟩
    | cons base rest ih =>
        intro done acc hsplit hlaid
        have hbase : base ∈ names := by
          rw [hsplit]
          exact List.mem_append_right _ List.mem_cons_self
        obtain ⟨parent, hparent, -, hself, hresolve⟩ := hparents base hbase
        have hfresh : base ∉ visiting := hnew base (.parent hnames hbase)
        obtain ⟨flat, hflat, hspec⟩ := hresolve base (visiting ++ [base])
          (by
            intro n hn hmem
            rcases List.mem_append.mp hmem with hold | hlast
            · exact hnew n (.behind hnames hbase hparent hn) hold
            · exact hself (List.mem_singleton.mp hlast ▸ hn))
        obtain ⟨final, hfinal, hlast⟩ := ih (done ++ [base])
          (acc.overlay flat) (by rw [hsplit, List.append_assoc]; rfl)
          (hlaid.overlay hparent hspec)
        refine ⟨final, ?_, hlast⟩
        rw [resolveParents, dif_neg hfresh]
        split
        next hnone =>
          rw [hparent] at hnone
          cases hnone
        next found hfound =>
          cases hparent.symm.trans hfound
          exact bind_eq_ok.mpr ⟨flat, hflat, hfinal⟩
  obtain ⟨final, hfinal, hlaid⟩ := hloop names [] _ rfl laid_defaults
  refine ⟨final.overlay (ownKeys entity), ?_, hlaid.finish hnames⟩
  rw [resolveFlat]
  exact bind_eq_ok.mpr ⟨names, parentNames_eq_ok.mpr hnames,
    bind_eq_ok.mpr ⟨final, hfinal, rfl⟩⟩

/-- What is resolved is linked, and none of its ancestors is on the way. -/
theorem wellLinked_of_resolveFlat (hresolve :
      r.resolveFlat name entity visiting = .ok flat) :
    r.WellLinked entity ∧ ∀ n, r.Ancestor entity n → n ∉ visiting := by
  induction hleft : r.unvisited visiting using Nat.strong_induction_on
    generalizing name entity visiting flat with
  | _ left ih =>
      rw [resolveFlat] at hresolve
      obtain ⟨names, hnames, hresolve⟩ := bind_eq_ok.mp hresolve
      obtain ⟨final, hloop, -⟩ := bind_eq_ok.mp hresolve
      have hnames := parentNames_eq_ok.mp hnames
      have hparents : ∀ rest acc final,
          r.resolveParents name rest visiting acc = .ok final →
            ∀ n ∈ rest, n ∉ visiting ∧ ∃ parent, r.entityOf n = some parent ∧
              r.WellLinked parent ∧
                ∀ m, r.Ancestor parent m → m ∉ visiting ++ [n] := by
        intro rest
        induction rest with
        | nil => exact fun _ _ _ => nofun
        | cons base rest ihRest =>
            intro acc final hloop
            rw [resolveParents] at hloop
            split at hloop
            next => cases hloop
            next hfresh =>
              split at hloop
              next => cases hloop
              next parent hparent =>
                obtain ⟨flat, hflat, hrest⟩ := bind_eq_ok.mp hloop
                obtain ⟨hsound, hnew⟩ := ih _
                  (hleft ▸ r.unvisited_lt hfresh hparent) hflat rfl
                refine List.forall_mem_cons.mpr ⟨?_, ihRest _ _ hrest⟩
                exact ⟨hfresh, parent, hparent, hsound, hnew⟩
      have hall := hparents names _ final hloop
      have hancestor : ∀ n, r.Ancestor entity n → n ∉ visiting ∧
          ∃ parent, r.entityOf n = some parent ∧ r.WellLinked parent ∧
            ¬ r.Ancestor parent n := by
        intro n hn
        rcases (Ancestor.cases hnames).mp hn with hn |
          ⟨m, hm, parent, hparent, hn⟩
        · obtain ⟨hfresh, parent, hparent, hsound, hnew⟩ := hall n hn
          refine ⟨hfresh, parent, hparent, hsound, fun hself => ?_⟩
          exact hnew n hself (List.mem_append_right _ (List.mem_singleton_self n))
        · obtain ⟨-, other, hother, hsound, hnew⟩ := hall m hm
          cases hparent.symm.trans hother
          obtain ⟨found, hfound, hreadable⟩ := hsound.found n hn
          refine ⟨fun hmem => hnew n hn (List.mem_append_left _ hmem), found,
            hfound, ?_, hsound.acyclic n found hn hfound⟩
          refine hsound.of_ancestor hn hfound fun k hk => ?_
          exact hn.trans hfound hk
      refine ⟨⟨by rw [hnames]; rfl, ?_, ?_⟩, fun n hn => (hancestor n hn).1⟩
      · intro n hn
        obtain ⟨-, parent, hparent, hsound, -⟩ := hancestor n hn
        exact ⟨parent, hparent, hsound.readable⟩
      · intro n parent hn hparent
        obtain ⟨-, found, hfound, -, hself⟩ := hancestor n hn
        cases hparent.symm.trans hfound
        exact hself

/-- A relation that gives an entity at most one value for a key. -/
def Single (given : Table → String → Option Value → Prop) (entity : Table) :
    Prop :=
  ∀ k left right, given entity k left → given entity k right → left = right

theorem fromParents_unique (hparents : ∀ n ∈ names, ∀ parent,
      r.entityOf n = some parent → Single r.Inherits parent)
    (hleft : r.FromParents names k left)
    (hright : r.FromParents names k right) : left = right := by
  induction names using List.reverseRecOn generalizing left right with
  | nil =>
      have hnone : ∀ o, r.FromParents [] k o → o = none := by
        intro o hfrom
        generalize hnames : ([] : List String) = names at hfrom
        cases hfrom with
        | nobody => rfl
        | last => simp at hnames
        | before => simp at hnames
      rw [hnone left hleft, hnone right hright]
  | append_singleton front n ih =>
      have hlast : ∀ o, r.FromParents (front ++ [n]) k o →
          ∃ parent, r.entityOf n = some parent ∧
            ((∃ v, o = some v ∧ r.Inherits parent k o) ∨
              r.Inherits parent k none ∧ r.FromParents front k o) := by
        intro o hfrom
        generalize hnames : front ++ [n] = names at hfrom
        cases hfrom with
        | nobody => simp at hnames
        | last hparent hgives =>
            obtain ⟨rfl, rfl⟩ := List.append_singleton_inj.mp hnames
            exact ⟨_, hparent, .inl ⟨_, rfl, hgives⟩⟩
        | before hparent hlacks hfrom =>
            obtain ⟨rfl, rfl⟩ := List.append_singleton_inj.mp hnames
            exact ⟨_, hparent, .inr ⟨hlacks, hfrom⟩⟩
      obtain ⟨parent, hparent, hleft⟩ := hlast left hleft
      obtain ⟨other, hother, hright⟩ := hlast right hright
      cases hparent.symm.trans hother
      have hsingle := hparents n (by simp) parent hparent
      rcases hleft with ⟨v, rfl, hleft⟩ | ⟨hnone, hleft⟩ <;>
        rcases hright with ⟨w, rfl, hright⟩ | ⟨hother, hright⟩
      · exact hsingle k _ _ hleft hright
      · exact absurd (hsingle k _ _ hleft hother) nofun
      · exact absurd (hsingle k _ _ hright hnone) nofun
      · exact ih (fun m hm => hparents m (List.mem_append_left _ hm)) hleft
          hright

theorem inherits_unique (hlinked : r.WellLinked entity) :
    Single r.Inherits entity := by
  refine @linked_induction r entity (Single r.Inherits) ?_ hlinked
  intro entity names hnames _ hparents k left right hleft hright
  cases hleft with
  | own hown =>
      cases hright with
      | own hother => exact hown.symm.trans hother
      | passed hother => 
          rw [hown] at hother
          cases hother
  | passed hown hfirst hleft =>
      cases hright with
      | own hother =>
          rw [hown] at hother
          cases hother
      | passed _ hsecond hright =>
          cases hnames.symm.trans hfirst
          cases hnames.symm.trans hsecond
          refine fromParents_unique ?_ hleft hright
          intro n hn parent hparent
          obtain ⟨found, hfound, -, -, hsingle⟩ := hparents n hn
          cases hparent.symm.trans hfound
          exact hsingle

theorem lastLine_unique (hleft : r.LastLine entity k left)
    (hright : r.LastLine entity k right) : left = right := by
  induction hleft with
  | own hown =>
      cases hright with
      | own hother => exact hown.symm.trans hother
      | passed hother =>
          rw [hown] at hother
          cases hother
      | ended hother =>
          rw [hown] at hother
          cases hother
  | passed hown hnames hparent _ ih =>
      cases hright with
      | own hother =>
          rw [hown] at hother
          cases hother
      | passed _ hother hfound hright =>
          obtain ⟨-, rfl⟩ := List.append_singleton_inj.mp
            (Option.some.inj (hnames.symm.trans hother))
          cases hparent.symm.trans hfound
          exact ih hright
      | ended _ hother =>
          have hnil := Option.some.inj (hnames.symm.trans hother)
          simp at hnil
  | ended hown hnames =>
      cases hright with
      | own hother =>
          rw [hown] at hother
          cases hother
      | passed _ hother =>
          have hnil := Option.some.inj (hnames.symm.trans hother)
          simp at hnil
      | ended => rfl

/-- What is inherited is determined: each key has a value or lacks one. -/
theorem exists_inherits (hlinked : r.WellLinked entity) (k : String) :
    ∃ o, r.Inherits entity k o := by
  refine @linked_induction r entity (fun entity => ∃ o, r.Inherits entity k o)
    ?_ hlinked
  intro entity names hnames _ hparents
  cases hown : (ownKeys entity).get k with
  | some v => exact ⟨some v, .own hown⟩
  | none =>
      suffices hfrom : ∃ o, r.FromParents names k o by
        obtain ⟨o, hfrom⟩ := hfrom
        exact ⟨o, .passed hown hnames hfrom⟩
      clear hnames
      induction names using List.reverseRecOn with
      | nil => exact ⟨none, .nobody⟩
      | append_singleton front n ih =>
          obtain ⟨parent, hparent, -, -, o, hgives⟩ := hparents n (by simp)
          cases o with
          | some v => exact ⟨some v, .last hparent hgives⟩
          | none =>
              obtain ⟨o, hfrom⟩ := ih fun m hm =>
                hparents m (List.mem_append_left _ hm)
              exact ⟨o, .before hparent hgives hfrom⟩

end Links

/-- The precedence of keys is kept just where no ancestor has the entity's own
name and no key of the defaults is cut off from a value that is inherited. -/
theorem precedenceKept_iff (r : Root) (name : String) (entity : Table) :
    r.PrecedenceKept name entity ↔
      (r.WellLinked entity → r.Unshadowed name entity) := by
  constructor
  · rintro ⟨hresolved, -⟩ hlinked
    obtain ⟨flat, hflat, hvalues⟩ := hresolved hlinked
    have hnew := (wellLinked_of_resolveFlat hflat).2
    obtain ⟨other, hother, hspec⟩ := resolves_of_wellLinked hlinked name [name]
      hnew
    cases hflat.symm.trans hother
    refine ⟨fun hn => hnew name hn (List.mem_singleton_self name), ?_⟩
    intro k d o l hdefault hinherits hline
    have hk := hspec k
    rw [hdefault] at hk
    obtain ⟨found, hfound, hget⟩ := hk
    cases lastLine_unique hline hfound
    rw [hvalues k o hinherits, hdefault] at hget
    cases o <;> exact Option.some.inj hget
  · intro hunshadowed
    constructor
    · intro hlinked
      obtain ⟨hnamed, hlined⟩ := hunshadowed hlinked
      obtain ⟨flat, hflat, hspec⟩ := resolves_of_wellLinked hlinked name [name]
        (fun n hn hmem => hnamed (List.mem_singleton.mp hmem ▸ hn))
      refine ⟨flat, hflat, fun k o hinherits => ?_⟩
      have hk := hspec k
      cases hdefault : (ownKeys r.defaults).get k with
      | none =>
          rw [hdefault] at hk
          rw [Option.or_none]
          exact inherits_unique hlinked k _ _ hk hinherits
      | some d =>
          rw [hdefault] at hk
          obtain ⟨l, hline, hget⟩ := hk
          rw [hget, ← hlined k d o l hdefault hinherits hline]
          cases o <;> rfl
    · intro hbad
      cases hresolve : r.resolveFlat name entity [name] with
      | error err => exact ⟨err, rfl⟩
      | ok flat => exact absurd (wellLinked_of_resolveFlat hresolve).1 hbad

section Shadows

variable {r} {entity : Table} {names : List String}

/-- Where no parent inherits in turn, an entity is linked. -/
theorem wellLinked_of_flat (hnames : heritage entity = some names)
    (hparents : ∀ n ∈ names, ∃ parent, r.entityOf n = some parent ∧
      heritage parent = some []) : r.WellLinked entity := by
  have hfree : ∀ parent, heritage parent = some [] → ∀ n,
      ¬ r.Ancestor parent n := by
    intro parent hnone n hn
    rcases (Ancestor.cases hnone).mp hn with hn | ⟨m, hm, -⟩
    · cases hn
    · cases hm
  have hall : ∀ n, r.Ancestor entity n → n ∈ names := by
    intro n hn
    rcases (Ancestor.cases hnames).mp hn with hn | ⟨m, hm, other, hother, hn⟩
    · exact hn
    · obtain ⟨parent, hparent, hnone⟩ := hparents m hm
      cases hparent.symm.trans hother
      exact absurd hn (hfree _ hnone n)
  refine ⟨by rw [hnames]; rfl, fun n hn => ?_, fun n other hn hother => ?_⟩
  · obtain ⟨parent, hparent, hnone⟩ := hparents n (hall n hn)
    exact ⟨parent, hparent, by rw [hnone]; rfl⟩
  · obtain ⟨parent, hparent, hnone⟩ := hparents n (hall n hn)
    cases hparent.symm.trans hother
    exact hfree _ hnone n

def tableOf (key : String) (v : Value) : Table where
  entries := [(key, v)]
  sorted := List.pairwise_singleton _ _

/-- A base of the profile's own name. -/
def namesake : Root where
  defaults := .empty
  bases := tableOf "prod" (.table [("uri", .string "mongodb://db")])
  profiles := tableOf "prod" (.table [("extends", .string "prod")])

/-- The first of two parents has a key of the defaults, the second has none. -/
def twoParents : Root where
  defaults := tableOf "compress" (.string "gzip")
  bases :=
    { entries := [("fast", .table [("compress", .string "zstd:1")]),
        ("plain", .table [])]
      sorted := by decide +kernel }
  profiles := .empty

def child : Table :=
  tableOf "extends" (.array [.string "fast", .string "plain"])

theorem precedence_lost :
    ¬ namesake.PrecedenceKept "prod" (tableOf "extends" (.string "prod")) ∧
      ¬ twoParents.PrecedenceKept "backup" child := by
  constructor
  · rintro ⟨hresolved, -⟩
    have hnames : heritage (tableOf "extends" (.string "prod")) =
        some ["prod"] := rfl
    obtain ⟨flat, hflat, -⟩ := hresolved (wellLinked_of_flat hnames
      (List.forall_mem_singleton.mpr ⟨_, rfl, rfl⟩))
    exact (wellLinked_of_resolveFlat hflat).2 "prod"
      (.parent hnames (List.mem_singleton_self _)) (List.mem_singleton_self _)
  · rintro ⟨hresolved, -⟩
    have hnames : heritage child = some (["fast"] ++ ["plain"]) := rfl
    have hlinked : twoParents.WellLinked child :=
      wellLinked_of_flat hnames (List.forall_mem_cons.mpr
        ⟨⟨_, rfl, rfl⟩, List.forall_mem_singleton.mpr ⟨_, rfl, rfl⟩⟩)
    obtain ⟨flat, hflat, hvalues⟩ := hresolved hlinked
    obtain ⟨other, hother, hspec⟩ := resolves_of_wellLinked hlinked "backup"
      ["backup"] (wellLinked_of_resolveFlat hflat).2
    cases hflat.symm.trans hother
    have hinherits : twoParents.Inherits child "compress"
        (some (.string "zstd:1")) := by
      refine .passed rfl hnames (.before rfl (.passed rfl rfl .nobody) ?_)
      exact @FromParents.last _ [] _ _ _ _ rfl (.own rfl)
    obtain ⟨o, hline, hget⟩ := hspec "compress"
    have hlast : twoParents.LastLine child "compress" none :=
      .passed rfl hnames rfl (.ended rfl rfl)
    cases lastLine_unique hline hlast
    rw [hvalues _ _ hinherits] at hget
    exact absurd (Value.string.inj (Option.some.inj hget)) (by decide)

end Shadows

end Root

end Config

end XBackup
