import EngramDB.Foundations.OrderedDict
import EngramDB.Python.Basic
import Mathlib.Data.List.Sort
import Mathlib.Data.Prod.Lex
import Mathlib.Data.String.Basic

/-!
# The registry of target readers

`TargetReaderRegistry` maps names and versions to factories. Besides the factories it keeps the
version of every name that a caller gets who asks for none. The shelves of the reference machine
hold the versions of a name in the order of their registration, and nothing else.

* `Synced.along`: in every run, a name has a default version iff it has a version, and the default
  is registered;
* `run_refines`: in a run that overrides no version but the newest of its name, the registry gives
  what the shelves give.
-/

namespace EngramDB

/-- The registry. -/
structure TargetReaderRegistry (F : Type) where
  /-- `_factories`, by name and version. -/
  factories : OrderedDict (String × String) F
  /-- `_latest`, by name. -/
  latest : OrderedDict String String

namespace TargetReaderRegistry

variable {F : Type}

/-- The registry that is made. -/
def empty : TargetReaderRegistry F := ⟨.empty, .empty⟩

/-- `register`. The names are left out of the message. -/
def register (r : TargetReaderRegistry F) (name version : String) (factory : F)
    (override : Bool) : Py Unit × TargetReaderRegistry F :=
  if (name, version) ∈ r.factories.keys ∧ override = false then
    (.error (.valueError "reader is already registered"), r)
  else
    (.ok (), {
      factories := r.factories.set (name, version) factory
      latest := r.latest.set name version })

/-- `[k[1] for k in self._factories if k[0] == name]`. -/
def versions (r : TargetReaderRegistry F) (name : String) : List String :=
  (r.factories.keys.filter fun k => k.1 = name).map Prod.snd

/-- `unregister`: one version of a name, or all of them. -/
def unregister (r : TargetReaderRegistry F) (name : String) :
    Option String → TargetReaderRegistry F
  | none => {
      factories := (r.factories.keys.filter fun k => k.1 = name).foldl .erase r.factories
      latest := if (r.latest.get? name).isSome then r.latest.erase name else r.latest }
  | some version =>
    let removed := { r with factories := r.factories.erase (name, version) }
    if r.latest.get? name = some version then
      match (removed.versions name).getLast? with
      | some newest => { removed with latest := r.latest.set name newest }
      | none => { removed with latest := r.latest.erase name }
    else removed

/-- The order of pairs of texts. -/
def entryLe (a b : String × String) : Bool := toLex a ≤ toLex b

/-- `available`: the names with their default versions, sorted. -/
def available (r : TargetReaderRegistry F) : List (String × String) :=
  r.latest.entries.mergeSort entryLe

/-- `has`. -/
def has (r : TargetReaderRegistry F) (name : String) : Option String → Bool
  | none => name ∈ r.latest.keys
  | some version => (name, version) ∈ r.factories.keys

/-- The factory that `create` calls. -/
def find (r : TargetReaderRegistry F) (name : String) (version : Option String) : Py F :=
  match version.or (r.latest.get? name) with
  | none => .error .keyError
  | some version =>
    match r.factories.get? (name, version) with
    | none => .error .keyError
    | some factory => .ok factory

/-- The calls that change a registry. -/
inductive Call (F : Type) where
  | register (name version : String) (factory : F) (override : Bool)
  | unregister (name : String) (version : Option String)

/-- One call. -/
def step (r : TargetReaderRegistry F) : Call F → Py Unit × TargetReaderRegistry F
  | .register name version factory override => r.register name version factory override
  | .unregister name version => (.ok (), r.unregister name version)

/-- The results of a run and the registry at its end. -/
def run (r : TargetReaderRegistry F) : List (Call F) → List (Py Unit) × TargetReaderRegistry F
  | [] => ([], r)
  | call :: calls =>
    let (result, r) := r.step call
    let (results, r) := run r calls
    (result :: results, r)

end TargetReaderRegistry

/-! ### The shelves -/

/-- The versions of every name with their factories, the newest registration last. -/
abbrev Shelves (F : Type) := String → List (String × F)

namespace Shelves

variable {F : Type}

/-- A version goes behind the others. -/
def register (s : Shelves F) (name version : String) (factory : F) (override : Bool) :
    Py Unit × Shelves F :=
  if version ∈ (s name).map Prod.fst ∧ override = false then
    (.error (.valueError "reader is already registered"), s)
  else
    (.ok (), Function.update s name
      ((s name).filter (fun e => e.1 ≠ version) ++ [(version, factory)]))

/-- One version or all of them are taken away. -/
def unregister (s : Shelves F) (name : String) : Option String → Shelves F
  | none => Function.update s name []
  | some version => Function.update s name ((s name).filter fun e => e.1 ≠ version)

/-- The version that was registered last. -/
def newest (s : Shelves F) (name : String) : Option String := (s name).getLast?.map Prod.fst

/-- The factory of a version, or of the newest one. -/
def find (s : Shelves F) (name : String) : Option String → Py F
  | none => (s name).getLast?.elim (.error .keyError) fun e => .ok e.2
  | some version => ((s name).lookup version).elim (.error .keyError) .ok

def step (s : Shelves F) : TargetReaderRegistry.Call F → Py Unit × Shelves F
  | .register name version factory override => s.register name version factory override
  | .unregister name version => (.ok (), s.unregister name version)

def run (s : Shelves F) : List (TargetReaderRegistry.Call F) → List (Py Unit) × Shelves F
  | [] => ([], s)
  | call :: calls =>
    let (result, s) := s.step call
    let (results, s) := run s calls
    (result :: results, s)

/-- A call overrides no version but the newest of its name. -/
def OverridesNewest (s : Shelves F) : TargetReaderRegistry.Call F → Prop
  | .register name version _ true => version ∈ (s name).map Prod.fst → s.newest name = some version
  | _ => True

/-- So does every call of a run. -/
def OverridesNewestAlong (s : Shelves F) : List (TargetReaderRegistry.Call F) → Prop
  | [] => True
  | call :: calls => s.OverridesNewest call ∧ OverridesNewestAlong (s.step call).2 calls

end Shelves

namespace TargetReaderRegistry

variable {F : Type} {r : TargetReaderRegistry F} {name version : String}

/-- The factories of a name, in their order. -/
def shelf (factories : OrderedDict (String × String) F) : Shelves F := fun name =>
  (factories.entries.filter fun e => e.1.1 = name).map fun e => (e.1.2, e.2)

/-- The shelves of a registry. -/
def shelves (r : TargetReaderRegistry F) : Shelves F := shelf r.factories

section Factories

variable {factories : OrderedDict (String × String) F} {factory : F}

/-- The shelf of a name has the versions registered under it, with their factories. -/
theorem mem_shelf_iff {e : String × F} :
    e ∈ shelf factories name ↔ ((name, e.1), e.2) ∈ factories.entries := by
  rw [shelf, List.mem_map]
  constructor
  · rintro ⟨⟨⟨name', version⟩, factory⟩, h, rfl⟩
    obtain ⟨hmem, hname⟩ := List.mem_filter.mp h
    obtain rfl : name' = name := by simpa using hname
    exact hmem
  · intro h
    exact ⟨((name, e.1), e.2), List.mem_filter.mpr ⟨h, by simp⟩, rfl⟩

/-- A version is registered under a name iff it stands on the shelf of the name. -/
theorem mem_keys_iff :
    (name, version) ∈ factories.keys ↔ version ∈ (shelf factories name).map Prod.fst := by
  rw [OrderedDict.keys, List.mem_map, List.mem_map]
  constructor
  · rintro ⟨⟨⟨_, _⟩, factory⟩, h, heq⟩
    obtain ⟨rfl, rfl⟩ := Prod.mk.inj heq
    exact ⟨(_, factory), mem_shelf_iff.mpr h, rfl⟩
  · rintro ⟨⟨_, factory⟩, h, rfl⟩
    exact ⟨_, mem_shelf_iff.mp h, rfl⟩

/-- No version stands twice on a shelf. -/
theorem nodup_shelf (factories : OrderedDict (String × String) F) (name : String) :
    ((shelf factories name).map Prod.fst).Nodup := by
  have hkeys : (shelf factories name).map Prod.fst =
      (factories.keys.filter fun k => k.1 = name).map Prod.snd := by
    rw [shelf, OrderedDict.keys, List.filter_map, List.map_map, List.map_map]
    rfl
  rw [hkeys]
  have hnodup : factories.keys.Nodup := factories.nodup
  refine List.Nodup.map_on (fun k hk k' hk' heq => ?_) (hnodup.filter _)
  have hname := (List.mem_filter.mp hk).2
  have hname' := (List.mem_filter.mp hk').2
  simp only [decide_eq_true_eq] at hname hname'
  exact Prod.ext (hname.trans hname'.symm) heq

/-- A version is taken from the shelf of its name. -/
theorem shelf_erase (name version : String) :
    shelf (factories.erase (name, version)) =
      Function.update (shelf factories) name
        ((shelf factories name).filter fun e => e.1 ≠ version) := by
  funext name'
  rcases eq_or_ne name' name with rfl | hne
  · rw [Function.update_self, shelf, shelf, OrderedDict.erase, List.filter_map,
      List.filter_filter, List.filter_filter]
    refine congrArg _ (List.filter_congr fun e _ => ?_)
    obtain ⟨⟨n, v⟩, f⟩ := e
    by_cases hn : n = name' <;> simp [hn]
  · rw [Function.update_of_ne hne, shelf, shelf, OrderedDict.erase, List.filter_filter]
    refine congrArg _ (List.filter_congr fun e _ => ?_)
    obtain ⟨⟨n, v⟩, f⟩ := e
    by_cases hn : n = name'
    · simp [hn, hne]
    · simp [hn]

/-- Erasing keys one after another leaves the entries of all other keys, in their order. -/
private theorem entries_foldl_erase (ks : List (String × String)) :
    (ks.foldl OrderedDict.erase factories).entries =
      factories.entries.filter fun e => e.1 ∉ ks := by
  induction ks generalizing factories with
  | nil => simp
  | cons k ks ih =>
    rw [List.foldl_cons, ih, OrderedDict.erase, List.filter_filter]
    refine List.filter_congr fun e _ => ?_
    by_cases he : e.1 = k <;> simp [he]

/-- All versions of a name are taken away. -/
private theorem shelf_eraseName (name : String) :
    shelf ((factories.keys.filter fun k => k.1 = name).foldl OrderedDict.erase factories) =
      Function.update (shelf factories) name [] := by
  have hmem : ∀ e ∈ factories.entries,
      (e.1 ∈ factories.keys.filter fun k => k.1 = name) ↔ e.1.1 = name := by
    intro e he
    rw [List.mem_filter]
    simp [OrderedDict.keys, List.mem_map_of_mem he]
  funext name'
  rw [shelf, entries_foldl_erase, List.filter_filter]
  rcases eq_or_ne name' name with rfl | hne
  · rw [Function.update_self, List.map_eq_nil_iff, List.filter_eq_nil_iff]
    intro e he
    simp only [Bool.and_eq_true, decide_eq_true_eq, hmem e he]
    rintro ⟨h, hnot⟩
    exact hnot h
  · rw [Function.update_of_ne hne, shelf]
    refine congrArg _ (List.filter_congr fun e he => ?_)
    simp only [hmem e he]
    by_cases hn : e.1.1 = name'
    · simp [hn, hne]
    · simp [hn]

/-- A new version goes behind the others of its name. -/
theorem shelf_set_of_notMem (h : (name, version) ∉ factories.keys) :
    shelf (factories.set (name, version) factory) =
      Function.update (shelf factories) name (shelf factories name ++ [(version, factory)]) := by
  funext name'
  rw [shelf, OrderedDict.set, dif_neg h, List.filter_append, List.map_append]
  rcases eq_or_ne name' name with rfl | hne
  · simp [Function.update_self, shelf]
  · simp [Function.update_of_ne hne, shelf, hne.symm]

/-- A version that is there already (`h`) and is overridden keeps its place on the shelf, with the
new factory. -/
theorem shelf_set_of_mem (h : (name, version) ∈ factories.keys) :
    shelf (factories.set (name, version) factory) =
      Function.update (shelf factories) name
        ((shelf factories name).map fun e => if e.1 = version then (version, factory) else e) := by
  funext name'
  have hfilter : ((fun e : (String × String) × F => decide (e.1.1 = name')) ∘
      fun e => if e.1 = (name, version) then ((name, version), factory) else e) =
      fun e => decide (e.1.1 = name') := by
    funext e
    rw [Function.comp_apply]
    split_ifs with he
    · rw [he]
    · rfl
  rw [shelf, OrderedDict.set, dif_pos h, List.filter_map, hfilter, List.map_map]
  rcases eq_or_ne name' name with rfl | hne
  · rw [Function.update_self, shelf, List.map_map]
    refine List.map_congr_left fun e he => ?_
    have hname : e.1.1 = name' := by simpa using (List.mem_filter.mp he).2
    rw [Function.comp_apply, Function.comp_apply]
    by_cases hversion : e.1.2 = version
    · rw [if_pos (Prod.ext hname hversion), if_pos hversion]
    · rw [if_neg fun heq => hversion (congrArg Prod.snd heq), if_neg hversion]
  · rw [Function.update_of_ne hne, shelf]
    refine List.map_congr_left fun e he => ?_
    have hname : e.1.1 = name' := by simpa using (List.mem_filter.mp he).2
    rw [Function.comp_apply, if_neg fun heq => hne (hname ▸ congrArg Prod.fst heq)]

/-- Registering a reader leaves the shelves of other names (`hne`) as they are. -/
theorem shelf_set_of_ne {name' : String} (hne : name' ≠ name) :
    shelf (factories.set (name, version) factory) name' = shelf factories name' := by
  by_cases h : (name, version) ∈ factories.keys
  · rw [shelf_set_of_mem h, Function.update_of_ne hne]
  · rw [shelf_set_of_notMem h, Function.update_of_ne hne]

/-- A version that was set is there. -/
private theorem mem_shelf_set_self :
    version ∈ (shelf (factories.set (name, version) factory) name).map Prod.fst := by
  rw [← mem_keys_iff, ← OrderedDict.get?_isSome_iff, OrderedDict.get?_set_self]
  rfl

end Factories

/-! ### The default versions -/

/-- What holds of the default versions in every run. -/
structure Synced (r : TargetReaderRegistry F) : Prop where
  /-- A default version is registered. -/
  registered : ∀ {name version}, r.latest.get? name = some version →
    version ∈ (r.shelves name).map Prod.fst
  /-- A name without a default version has no version. -/
  complete : ∀ {name}, r.latest.get? name = none → r.shelves name = []

/-- An empty registry has no default version, and no name that needs one. -/
private theorem synced_empty : (empty : TargetReaderRegistry F).Synced :=
  ⟨nofun, fun _ => rfl⟩

/-- The versions of a name are those on its shelf, in the order of their registration. -/
private theorem versions_eq (r : TargetReaderRegistry F) (name : String) :
    r.versions name = (r.shelves name).map Prod.fst := by
  rw [versions, shelves, shelf, OrderedDict.keys, List.filter_map, List.map_map, List.map_map]
  rfl

/-- Registering a reader keeps the registry synced, whether it overrides one or not, and also when
it is refused. -/
theorem Synced.register (h : r.Synced) {factory : F} {override : Bool} :
    (r.register name version factory override).2.Synced := by
  rw [TargetReaderRegistry.register]
  split_ifs
  · exact h
  · refine ⟨fun {name' version'} hlatest => ?_, fun {name'} hlatest => ?_⟩
    · rcases eq_or_ne name' name with rfl | hne
      · rw [OrderedDict.get?_set_self] at hlatest
        obtain rfl := Option.some.inj hlatest
        exact mem_shelf_set_self
      · rw [OrderedDict.get?_set_of_ne hne] at hlatest
        rw [shelves, shelf_set_of_ne hne]
        exact h.registered hlatest
    · rcases eq_or_ne name' name with rfl | hne
      · rw [OrderedDict.get?_set_self] at hlatest
        cases hlatest
      · rw [OrderedDict.get?_set_of_ne hne] at hlatest
        rw [shelves, shelf_set_of_ne hne]
        exact h.complete hlatest

/-- The default version of a name that has no version any more is dropped. -/
theorem get?_erase_self (d : OrderedDict String String) (name : String) :
    (d.erase name).get? name = none := by
  rw [OrderedDict.get?_eq_none_iff, OrderedDict.keys_erase]
  simp

/-- What is left of a name when a version is taken away. -/
theorem shelves_unregister (name : String) (version : Option String) :
    (r.unregister name version).shelves = r.shelves.unregister name version := by
  cases version with
  | none => exact shelf_eraseName name
  | some version =>
    rw [unregister]
    simp only
    split_ifs
    · split <;> exact shelf_erase name version
    · exact shelf_erase name version

/-- The default version of a name when a version is taken away: if it was the default, the last one
that is left. -/
theorem get?_latest_unregister (name name' : String) (version : Option String) :
    (r.unregister name version).latest.get? name' =
      if name' = name then
        match version with
        | none => none
        | some version =>
          if r.latest.get? name = some version then (r.shelves.unregister name version).newest name
          else r.latest.get? name
      else r.latest.get? name' := by
  cases version with
  | none =>
    rw [unregister]
    simp only
    split_ifs with hsome hname hname
    · rw [hname, get?_erase_self]
    · rw [OrderedDict.get?_erase_of_ne hname]
    · rw [hname, Option.not_isSome_iff_eq_none.mp hsome]
    · rfl
  | some version =>
    -- what is left on the shelf names the new default
    have hnewest : (({ r with factories := r.factories.erase (name, version) } :
        TargetReaderRegistry F).versions name).getLast? =
          (r.shelves.unregister name (some version)).newest name := by
      rw [versions_eq, List.getLast?_map, shelves, shelf_erase]
      rfl
    rw [unregister]
    simp only
    split_ifs with hlatest hname hname
    · rw [hnewest, hname]
      cases hlast : (r.shelves.unregister name (some version)).newest name with
      | none => exact get?_erase_self _ _
      | some newest => exact OrderedDict.get?_set_self
    · rw [hnewest]
      cases (r.shelves.unregister name (some version)).newest name with
      | none => exact OrderedDict.get?_erase_of_ne hname
      | some newest => exact OrderedDict.get?_set_of_ne hname
    · rw [hname]
    · rfl

/-- The newest version of a name stands on its shelf. -/
private theorem mem_of_newest {s : Shelves F} (h : s.newest name = some version) :
    version ∈ (s name).map Prod.fst := by
  obtain ⟨e, he, rfl⟩ := Option.map_eq_some_iff.mp h
  exact List.mem_map_of_mem (List.mem_of_getLast? he)

/-- A name has no newest version iff its shelf is empty. -/
private theorem newest_eq_none_iff {s : Shelves F} : s.newest name = none ↔ s name = [] := by
  rw [Shelves.newest, Option.map_eq_none_iff, List.getLast?_eq_none_iff]

/-- Unregistering one version or all versions of a name keeps the registry synced. -/
theorem Synced.unregister (h : r.Synced) (version : Option String) :
    (r.unregister name version).Synced := by
  refine ⟨fun {name' version'} hlatest => ?_, fun {name'} hlatest => ?_⟩
  · rw [get?_latest_unregister] at hlatest
    rw [shelves_unregister]
    split_ifs at hlatest with hname
    · subst hname
      cases version with
      | none => cases hlatest
      | some version =>
        simp only at hlatest
        split_ifs at hlatest with hdefault
        · exact mem_of_newest hlatest
        · -- another version is the default, and it stays
          have hne : version' ≠ version := fun heq => hdefault (heq ▸ hlatest)
          obtain ⟨e, he, rfl⟩ := List.mem_map.mp (h.registered hlatest)
          rw [Shelves.unregister, Function.update_self]
          exact List.mem_map_of_mem (List.mem_filter.mpr ⟨he, by simpa using hne⟩)
    · -- other names keep their shelves
      have hsame : r.shelves.unregister name version name' = r.shelves name' := by
        cases version <;> exact Function.update_of_ne hname _ _
      rw [hsame]
      exact h.registered hlatest
  · rw [get?_latest_unregister] at hlatest
    rw [shelves_unregister]
    split_ifs at hlatest with hname
    · subst hname
      cases version with
      | none => exact Function.update_self _ _ _
      | some version =>
        simp only at hlatest
        split_ifs at hlatest with hdefault
        · exact newest_eq_none_iff.mp hlatest
        · rw [Shelves.unregister, Function.update_self, h.complete hlatest, List.filter_nil]
    · have hsame : r.shelves.unregister name version name' = r.shelves name' := by
        cases version <;> exact Function.update_of_ne hname _ _
      rw [hsame]
      exact h.complete hlatest

/-! ### Runs -/

/-- A registry that is synced stays so through every run of calls. -/
theorem Synced.along {calls : List (Call F)} (h : r.Synced) : (r.run calls).2.Synced := by
  induction calls generalizing r with
  | nil => exact h
  | cons call calls ih =>
    refine ih ?_
    cases call with
    | register name version factory override => exact h.register
    | unregister name version => exact h.unregister version

/-- Without a version, `find` looks for the default one, if the name has one (`h`). -/
theorem find_none_of_latest (h : r.latest.get? name = some version) :
    r.find name none = r.find name (some version) := by
  rw [find, find, h]
  rfl

/-- A version has a factory iff it is registered. -/
private theorem exists_find_iff :
    (∃ factory, r.find name (some version) = .ok factory) ↔ r.has name (some version) = true := by
  rw [find, has, decide_eq_true_iff, ← OrderedDict.get?_isSome_iff]
  simp only [Option.some_or]
  cases r.factories.get? (name, version) with
  | none => simp
  | some factory => simp

/-- Without a version, `has` says whether the name has a default one. -/
theorem has_none_iff :
    r.has name none = true ↔ ∃ version, r.latest.get? name = some version := by
  rw [has, decide_eq_true_iff, ← OrderedDict.get?_isSome_iff, Option.isSome_iff_exists]

/-- The readers that are listed are the names with their default versions. -/
theorem mem_available_iff :
    (name, version) ∈ r.available ↔ r.latest.get? name = some version := by
  rw [available, List.mem_mergeSort, OrderedDict.get?_eq_some_iff]

/-- The names come in order, each once. -/
private theorem pairwise_available (r : TargetReaderRegistry F) :
    r.available.Pairwise fun a b => a.1 < b.1 := by
  have htrans (a b c : String × String) (hab : entryLe a b) (hbc : entryLe b c) : entryLe a c :=
    decide_eq_true (le_trans (of_decide_eq_true hab) (of_decide_eq_true hbc))
  have htotal (a b : String × String) : (entryLe a b || entryLe b a) = true := by
    rw [Bool.or_eq_true, entryLe, entryLe, decide_eq_true_iff, decide_eq_true_iff]
    exact le_total _ _
  have hsorted : r.available.Pairwise fun a b => entryLe a b :=
    List.pairwise_mergeSort htrans htotal r.latest.entries
  have hne : r.available.Pairwise fun a b => a.1 ≠ b.1 := by
    have hnodup : (r.available.map Prod.fst).Nodup :=
      ((List.mergeSort_perm r.latest.entries _).map Prod.fst).nodup_iff.mpr r.latest.nodup
    exact List.pairwise_map.mp hnodup
  refine (hsorted.and hne).imp fun {a b} h => ?_
  rcases Prod.Lex.toLex_le_toLex.mp (of_decide_eq_true h.1) with hlt | ⟨heq, -⟩
  · exact hlt
  · exact absurd heq h.2

/-- In every run: a caller who asks for no version is given a version that is registered, whenever
any version of the name is, and the names that are listed are those, in order and each once. -/
theorem run_consistent (calls : List (Call F)) :
    (∀ name, ((empty.run calls).2.has name none = true ↔
        ∃ version, (empty.run calls).2.has name (some version) = true) ∧
      ((empty.run calls).2.has name none = true →
        ∃ version factory, (name, version) ∈ (empty.run calls).2.available ∧
          (empty.run calls).2.find name (some version) = .ok factory ∧
          (empty.run calls).2.find name none = .ok factory)) ∧
    (∀ name, name ∈ (empty.run calls).2.available.map Prod.fst ↔
      (empty.run calls).2.has name none = true) ∧
    (empty.run calls).2.available.Pairwise fun a b => a.1 < b.1 := by
  have h : (empty.run calls).2.Synced := synced_empty.along
  generalize (empty.run calls).2 = r at h
  -- a name has a default version iff its shelf is not empty
  have hversions (name : String) : r.has name none = true ↔
      ∃ version, r.has name (some version) = true := by
    rw [has_none_iff]
    constructor
    · rintro ⟨version, hlatest⟩
      exact ⟨version, decide_eq_true (mem_keys_iff.mpr (h.registered hlatest))⟩
    · rintro ⟨version, hversion⟩
      have hmem := mem_keys_iff.mp (of_decide_eq_true hversion)
      by_contra hnone
      have hempty := h.complete (Option.eq_none_iff_forall_ne_some.mpr fun v hv => hnone ⟨v, hv⟩)
      rw [shelves] at hempty
      rw [hempty] at hmem
      cases hmem
  refine ⟨fun name => ⟨hversions name, fun hhas => ?_⟩, fun name => ?_, pairwise_available r⟩
  · obtain ⟨version, hlatest⟩ := has_none_iff.mp hhas
    obtain ⟨factory, hfind⟩ := exists_find_iff.mpr
      (decide_eq_true (mem_keys_iff.mpr (h.registered hlatest)))
    exact ⟨version, factory, mem_available_iff.mpr hlatest, hfind,
      (find_none_of_latest hlatest).trans hfind⟩
  · rw [has_none_iff, List.mem_map]
    constructor
    · rintro ⟨⟨_, version⟩, hmem, rfl⟩
      exact ⟨version, mem_available_iff.mp hmem⟩
    · rintro ⟨version, hlatest⟩
      exact ⟨_, mem_available_iff.mpr hlatest, rfl⟩

/-! ### Refinement of the shelves -/

/-- The default version of every name is the one that was registered last. -/
def Latest (r : TargetReaderRegistry F) : Prop :=
  ∀ name, r.latest.get? name = r.shelves.newest name

/-- In an empty registry no name has a default version, and no shelf a newest one. -/
private theorem latest_empty : (empty : TargetReaderRegistry F).Latest := fun _ => rfl

/-- To override the last entry is to put it behind the others. -/
private theorem map_ite_eq_filter_append {l : List (String × F)} {factory : F}
    (hnodup : (l.map Prod.fst).Nodup) (hlast : l.getLast?.map Prod.fst = some version) :
    (l.map fun e => if e.1 = version then (version, factory) else e) =
      (l.filter fun e => e.1 ≠ version) ++ [(version, factory)] := by
  obtain ⟨e, he, rfl⟩ := Option.map_eq_some_iff.mp hlast
  obtain ⟨older, rfl⟩ := List.getLast?_eq_some_iff.mp he
  have hne : ∀ e' ∈ older, e'.1 ≠ e.1 := by
    rw [List.map_append, List.map_singleton, List.nodup_append] at hnodup
    exact fun e' he' => hnodup.2.2 _ (List.mem_map_of_mem he') _ List.mem_cons_self
  rw [List.map_append, List.filter_append, List.filter_eq_self.mpr (by simpa using hne)]
  have hmap : (older.map fun e' => if e'.1 = e.1 then (e.1, factory) else e') = older :=
    (List.map_congr_left fun e' he' => if_neg (hne e' he')).trans (List.map_id _)
  simp [hmap]

/-- If a version has gone to the end of its shelf and has become the default, the default version of
every name is the newest one still. -/
theorem Latest.set (h : r.Latest) {factories : OrderedDict (String × String) F}
    {older : List (String × F)} {factory : F}
    (hshelf : shelf factories =
      Function.update r.shelves name (older ++ [(version, factory)])) :
    Latest ⟨factories, r.latest.set name version⟩ := by
  intro name'
  show (r.latest.set name version).get? name' = (shelf factories).newest name'
  rw [hshelf, Shelves.newest]
  rcases eq_or_ne name' name with rfl | hne
  · rw [OrderedDict.get?_set_self, Function.update_self, List.getLast?_append]
    rfl
  · rw [OrderedDict.get?_set_of_ne hne, Function.update_of_ne hne]
    exact h name'

/-- A registration that overrides no version but the newest (`hnewest`) answers as the shelves do
and leaves the shelves that they leave, with the newest version as the default. -/
theorem register_refines (h : r.Latest) {factory : F} {override : Bool}
    (hnewest : r.shelves.OverridesNewest (.register name version factory override)) :
    (r.register name version factory override).1 =
        (r.shelves.register name version factory override).1 ∧
      (r.register name version factory override).2.shelves =
        (r.shelves.register name version factory override).2 ∧
      (r.register name version factory override).2.Latest := by
  have hiff : ((name, version) ∈ r.factories.keys ∧ override = false) ↔
      (version ∈ (r.shelves name).map Prod.fst ∧ override = false) := and_congr_left' mem_keys_iff
  rw [register, Shelves.register]
  by_cases hrefused : (name, version) ∈ r.factories.keys ∧ override = false
  · rw [if_pos hrefused, if_pos (hiff.mp hrefused)]
    exact ⟨rfl, rfl, h⟩
  · rw [if_neg hrefused, if_neg fun h => hrefused (hiff.mpr h)]
    have hshelf : shelf (r.factories.set (name, version) factory) =
        Function.update r.shelves name
          ((r.shelves name).filter (fun e => e.1 ≠ version) ++ [(version, factory)]) := by
      by_cases hkey : (name, version) ∈ r.factories.keys
      · -- only the newest version is overridden
        have htrue : override = true := by simpa [hkey] using hrefused
        subst htrue
        rw [shelf_set_of_mem hkey]
        refine congrArg _ (map_ite_eq_filter_append (nodup_shelf r.factories name) ?_)
        exact hnewest (mem_keys_iff.mp hkey)
      · rw [shelf_set_of_notMem hkey]
        refine congrArg (fun older => Function.update r.shelves name
          (older ++ [(version, factory)])) ?_
        refine (List.filter_eq_self.mpr fun e he => ?_).symm
        have hne : e.1 ≠ version := fun heq =>
          hkey (mem_keys_iff.mpr (heq ▸ List.mem_map_of_mem he))
        simpa using hne
    exact ⟨rfl, hshelf, h.set hshelf⟩

/-- What is not the last entry can be taken away without changing the last one. -/
private theorem getLast?_filter {α : Type} {p : α → Bool} {l : List α} (h : ∀ a ∈ l.getLast?, p a) :
    (l.filter p).getLast? = l.getLast? := by
  cases hlast : l.getLast? with
  | none =>
    rw [List.getLast?_eq_none_iff.mp hlast]
    rfl
  | some a =>
    obtain ⟨older, rfl⟩ := List.getLast?_eq_some_iff.mp hlast
    rw [List.filter_append, List.filter_singleton, h a (by simp), List.getLast?_append]
    rfl

/-- A call of the registry answers as the shelves do and leaves the shelves that they leave, if a
call that overrides a version overrides the newest one. -/
theorem step_refines (h : r.Latest) {call : Call F} (hnewest : r.shelves.OverridesNewest call) :
    (r.step call).1 = (r.shelves.step call).1 ∧
      (r.step call).2.shelves = (r.shelves.step call).2 ∧ (r.step call).2.Latest := by
  cases call with
  | register name version factory override => exact register_refines h hnewest
  | unregister name version =>
    refine ⟨rfl, shelves_unregister name version, fun name' => ?_⟩
    show (r.unregister name version).latest.get? name' =
      (r.unregister name version).shelves.newest name'
    rw [get?_latest_unregister, shelves_unregister]
    split_ifs with hname
    · subst hname
      cases version with
      | none =>
        rw [Shelves.newest, Shelves.unregister, Function.update_self]
        rfl
      | some version =>
        simp only
        split_ifs with hdefault
        · rfl
        · -- the last version is another one and stays the last
          rw [h name', Shelves.newest, Shelves.newest, Shelves.unregister, Function.update_self,
            getLast?_filter]
          intro e he
          have hne : e.1 ≠ version := fun heq =>
            hdefault (by rw [h name', Shelves.newest, he, ← heq]; rfl)
          simpa using hne
    · have hsame : r.shelves.unregister name version name' = r.shelves name' := by
        cases version <;> exact Function.update_of_ne hname _ _
      rw [Shelves.newest, hsame]
      exact h name'

/-- The run of a registry, as the shelves make it. -/
theorem run_refines_of_latest {calls : List (Call F)} (h : r.Latest)
    (hnewest : r.shelves.OverridesNewestAlong calls) :
    (r.run calls).1 = (r.shelves.run calls).1 ∧
      (r.run calls).2.shelves = (r.shelves.run calls).2 ∧ (r.run calls).2.Latest := by
  induction calls generalizing r with
  | nil => exact ⟨rfl, rfl, h⟩
  | cons call calls ih =>
    obtain ⟨hhead, hrest⟩ := hnewest
    obtain ⟨hresult, hshelves, hlatest⟩ := step_refines h hhead
    rw [← hshelves] at hrest
    obtain ⟨hresults, hend, hlatest'⟩ := ih hlatest hrest
    refine ⟨?_, ?_, hlatest'⟩
    · show (r.step call).1 :: ((r.step call).2.run calls).1 =
        (r.shelves.step call).1 :: ((r.shelves.step call).2.run calls).1
      rw [hresult, hresults, hshelves]
    · show ((r.step call).2.run calls).2.shelves = ((r.shelves.step call).2.run calls).2
      rw [hend, hshelves]

/-- Looking a version up on the shelf of a name is looking both up in the registry. -/
theorem lookup_shelf :
    (r.shelves name).lookup version = r.factories.get? (name, version) := by
  have hget : (r.shelves name).lookup version =
      OrderedDict.get? ⟨r.shelves name, nodup_shelf r.factories name⟩ version := rfl
  ext factory
  rw [hget, OrderedDict.get?_eq_some_iff, OrderedDict.get?_eq_some_iff]
  exact mem_shelf_iff

/-- A caller of a registry whose defaults are the newest versions (`h`) finds what the shelves
hold. -/
private theorem find_eq (h : r.Latest) (name : String) (version : Option String) :
    r.find name version = r.shelves.find name version := by
  have hsome (version : String) :
      r.find name (some version) = r.shelves.find name (some version) := by
    rw [find, Shelves.find, lookup_shelf]
    simp only [Option.some_or]
    cases r.factories.get? (name, version) <;> rfl
  cases version with
  | some version => exact hsome version
  | none =>
    cases hlast : (r.shelves name).getLast? with
    | none =>
      have hlatest : r.latest.get? name = none := by rw [h name, Shelves.newest, hlast]; rfl
      rw [find, Shelves.find, hlatest, hlast]
      rfl
    | some e =>
      have hlatest : r.latest.get? name = some e.1 := by rw [h name, Shelves.newest, hlast]; rfl
      have hlookup : (r.shelves name).lookup e.1 = some e.2 := by
        rw [lookup_shelf, OrderedDict.get?_eq_some_iff]
        exact mem_shelf_iff.mp (List.mem_of_getLast? hlast)
      rw [find_none_of_latest hlatest, hsome, Shelves.find, Shelves.find, hlookup, hlast]
      rfl

/-- In a run that overrides no version but the newest of its name: the results are those of the
shelves, and so is what a caller finds and what is listed at the end. -/
theorem run_refines (calls : List (Call F))
    (hnewest : Shelves.OverridesNewestAlong (fun _ => []) calls) :
    ((empty : TargetReaderRegistry F).run calls).1 = (Shelves.run (fun _ => []) calls).1 ∧
      (∀ name version, (empty.run calls).2.find name version =
        (Shelves.run (fun _ => []) calls).2.find name version) ∧
      ∀ name version, (name, version) ∈ (empty.run calls).2.available ↔
        (Shelves.run (fun _ => []) calls).2.newest name = some version := by
  obtain ⟨hresults, hend, hlatest⟩ := run_refines_of_latest latest_empty hnewest
  refine ⟨hresults, fun name version => ?_, fun name version => ?_⟩
  · rw [find_eq hlatest, hend]
    rfl
  · rw [mem_available_iff, hlatest name, hend]
    rfl

/-- A name with two versions, the newer of which is overridden and taken away. -/
def demoCalls : List (Call ℕ) :=
  [.register "demo" "1" 10 false, .register "demo" "2" 20 false, .register "demo" "2" 21 true,
    .register "demo" "1" 11 false, .unregister "demo" (some "2")]

theorem run_refines_demoCalls :
    (empty.run demoCalls).1 = (Shelves.run (fun _ => []) demoCalls).1 ∧
      (∀ name version, (empty.run demoCalls).2.find name version =
        (Shelves.run (fun _ => []) demoCalls).2.find name version) ∧
      ∀ name version, (name, version) ∈ (empty.run demoCalls).2.available ↔
        (Shelves.run (fun _ => []) demoCalls).2.newest name = some version :=
  run_refines demoCalls ⟨trivial, trivial, fun _ => rfl, trivial, trivial, trivial⟩

/-- An older version that is overridden keeps its place, so that it does not become the default when
a third version is taken away. -/
example : (empty.run [Call.register "demo" "1" 10 false, .register "demo" "2" 20 false,
    .register "demo" "1" 11 true, .register "demo" "3" 30 false,
    .unregister "demo" (some "3")]).2.find "demo" none = .ok 20 := by
  decide

end TargetReaderRegistry

end EngramDB
