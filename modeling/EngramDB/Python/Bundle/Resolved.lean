import EngramDB.Python.Bundle

/-!
# Resolved manifests

`resolved` returns a copy of a manifest in which the paths of the storage and of the readers start
from the base directory. The copy is saved and opened again, with or without a base directory.

* `PurePath.ofString_toText`: the text of a path is read as the path;
* `openMemory_resolved`: a manifest and its resolved copy open alike, errors included;
* `resolved_resolved`: a resolved copy is its own resolved copy.
-/

namespace EngramDB

/-! ### Paths -/

namespace PurePath

attribute [ext] PurePath

/-- A path as it is read from a text. -/
structure Normal (p : PurePath) : Prop where
  root : p.root = "" ∨ p.root = "/" ∨ p.root = "//"
  parts : ∀ name ∈ p.parts, name ≠ "" ∧ name ≠ "." ∧ '/' ∉ name.toList

variable {p base : PurePath}

/-- What stands between two separators has no separator in it. -/
private theorem notMem_of_mem_splitOn {α : Type} [BEq α] [LawfulBEq α] {a : α} {xs l : List α}
    (h : l ∈ xs.splitOn a) : a ∉ l := by
  induction xs generalizing l with
  | nil =>
    rw [List.splitOn_nil, List.mem_singleton] at h
    rw [h]
    exact List.not_mem_nil
  | cons x xs ih =>
    rw [List.splitOn_cons_eq_if_modifyHead] at h
    split_ifs at h with hx
    · rcases List.mem_cons.mp h with rfl | h
      · exact List.not_mem_nil
      · exact ih h
    · cases hsplit : xs.splitOn a with
      | nil => exact absurd hsplit (List.splitOn_ne_nil a xs)
      | cons first rest =>
        rw [hsplit, List.modifyHead_cons, List.mem_cons] at h
        rw [hsplit] at ih
        rcases h with rfl | h
        · rw [List.mem_cons]
          rintro (rfl | hmem)
          · exact hx (beq_self_eq_true _)
          · exact ih List.mem_cons_self hmem
        · exact ih (List.mem_cons_of_mem _ h)

/-- A path that was parsed is in normal form. -/
theorem normal_ofString (s : String) : (ofString s).Normal where
  root := by
    rw [ofString]
    split
    · exact .inr (.inl rfl)
    · exact .inr (.inr rfl)
    · exact .inr (.inl rfl)
    · exact .inl rfl
  parts := by
    intro name hname
    obtain ⟨hmem, hne⟩ := List.mem_filter.mp hname
    obtain ⟨cs, hcs, rfl⟩ := List.mem_map.mp hmem
    have hne' := of_decide_eq_true hne
    exact ⟨hne'.1, hne'.2, by simpa using notMem_of_mem_splitOn hcs⟩

/-- Joining two paths in normal form (`hbase`, `hp`) gives one in normal form. -/
theorem Normal.join (hbase : base.Normal) (hp : p.Normal) : (base.join p).Normal := by
  rw [PurePath.join]
  split_ifs
  · exact hp
  · refine ⟨hbase.root, fun name hname => ?_⟩
    rcases List.mem_append.mp hname with hname | hname
    · exact hbase.parts name hname
    · exact hp.parts name hname

/-- The names between the slashes of a text. -/
private theorem parts_ofString (s : String) :
    (ofString s).parts =
      ((s.toList.splitOn '/').map String.ofList).filter fun name => name ≠ "" ∧ name ≠ "." := rfl

/-- The names of a text that they are put into are read from it. -/
private theorem filter_splitOn_intercalate {names : List String}
    (h : ∀ name ∈ names, name ≠ "" ∧ name ≠ "." ∧ '/' ∉ name.toList) :
    ((("/".intercalate names).toList.splitOn '/').map String.ofList).filter
      (fun name => name ≠ "" ∧ name ≠ ".") = names := by
  rw [String.toList_intercalate]
  show (((['/'].intercalate (names.map String.toList)).splitOn '/').map String.ofList).filter _ =
    names
  rcases eq_or_ne names [] with rfl | hne
  · decide
  · rw [List.splitOn_intercalate '/' (by simpa using fun name hname => (h name hname).2.2)
      (by simpa using hne), List.map_map, List.filter_eq_self.mpr]
    · simp [Function.comp_def]
    · intro name hname
      simp only [List.mem_map, Function.comp_apply, String.ofList_toList, exists_eq_right] at hname
      simp [(h name hname).1, (h name hname).2.1]

/-- A slash in front adds no name. -/
theorem filter_splitOn_cons (cs : List Char) :
    ((('/' :: cs).splitOn '/').map String.ofList).filter (fun name => name ≠ "" ∧ name ≠ ".") =
      ((cs.splitOn '/').map String.ofList).filter fun name => name ≠ "" ∧ name ≠ "." := by
  rw [List.splitOn_cons_eq_if_modifyHead, if_pos (beq_self_eq_true '/'), List.map_cons,
    List.filter_cons_of_neg]
  simp

/-- A text of names does not start with a slash. -/
private theorem head?_intercalate_ne {names : List String}
    (h : ∀ name ∈ names, name ≠ "" ∧ name ≠ "." ∧ '/' ∉ name.toList) :
    ("/".intercalate names).toList.head? ≠ some '/' := by
  rw [String.toList_intercalate]
  cases names with
  | nil => simp
  | cons name names =>
    obtain ⟨hne, -, hslash⟩ := h name List.mem_cons_self
    cases hcs : name.toList with
    | nil => exact absurd (String.toList_eq_nil_iff.mp hcs) hne
    | cons c cs =>
      rw [hcs] at hslash
      have hc : c ≠ '/' := fun heq => hslash (heq ▸ List.mem_cons_self)
      cases names <;> simp [hcs, hc]

/-- The slashes in front of a text of names are its root. -/
private theorem root_ofString {s : String} {slashes cs : List Char} (hs : s.toList = slashes ++ cs)
    (hslashes : slashes = [] ∨ slashes = ['/'] ∨ slashes = ['/', '/'])
    (hcs : cs.head? ≠ some '/') : (ofString s).root = String.ofList slashes := by
  rw [ofString, hs]
  cases cs with
  | nil => rcases hslashes with rfl | rfl | rfl <;> rfl
  | cons c cs =>
    have hc : c ≠ '/' := fun h => hcs (congrArg some h)
    rcases hslashes with rfl | rfl | rfl <;> simp [hc]

/-- The text of a path is read as the path. -/
theorem ofString_toText (h : p.Normal) : ofString p.toText = p := by
  obtain ⟨root, parts⟩ := p
  obtain ⟨hroot, hparts⟩ := h
  simp only at hroot hparts
  rw [toText]
  split_ifs with hdot
  · obtain ⟨rfl, rfl⟩ := hdot
    rfl
  · have hhead := head?_intercalate_ne hparts
    have hnames := filter_splitOn_intercalate hparts
    have htext : (root ++ "/".intercalate parts).toList =
        root.toList ++ ("/".intercalate parts).toList := String.toList_append
    have hslashes : root.toList = [] ∨ root.toList = ['/'] ∨ root.toList = ['/', '/'] := by
      rcases hroot with rfl | rfl | rfl
      · exact .inl rfl
      · exact .inr (.inl rfl)
      · exact .inr (.inr rfl)
    have hparts' : (ofString (root ++ "/".intercalate parts)).parts = parts := by
      rw [parts_ofString, htext]
      rcases hslashes with h | h | h
      · rwa [h, List.nil_append]
      · rwa [h, List.singleton_append, filter_splitOn_cons]
      · rwa [h, List.cons_append, List.singleton_append, filter_splitOn_cons, filter_splitOn_cons]
    have hroot' := root_ofString htext hslashes hhead
    rw [String.ofList_toList] at hroot'
    exact PurePath.ext hroot' hparts'

end PurePath

/-! ### Entries of a dictionary -/

namespace PyJson

/-- `entries[key] = x`: a key that is there keeps its place. -/
def setEntry (entries : List (String × PyJson)) (key : String) (x : PyJson) :
    List (String × PyJson) :=
  if (entries.lookup key).isSome then entries.map fun e => if e.1 = key then (key, x) else e
  else entries ++ [(key, x)]

variable {entries : List (String × PyJson)} {key other : String} {x y : PyJson}

/-- A key that is there has the new value after its value was replaced. -/
private theorem lookup_map_ite (h : (entries.lookup key).isSome) :
    (entries.map fun e => if e.1 = key then (key, x) else e).lookup key = some x := by
  induction entries with
  | nil => cases h
  | cons e entries ih =>
    rw [List.map_cons, List.lookup_cons]
    split_ifs with he
    · rw [beq_self_eq_true]
    · have hbeq : (key == e.1) = false := beq_eq_false_iff_ne.mpr (Ne.symm he)
      rw [List.lookup_cons, hbeq] at h
      rw [hbeq]
      exact ih h

/-- Replacing the value of a key leaves the values of all others. -/
private theorem lookup_map_ite_of_ne (h : other ≠ key) :
    (entries.map fun e => if e.1 = key then (key, x) else e).lookup other =
      entries.lookup other := by
  induction entries with
  | nil => rfl
  | cons e entries ih =>
    rw [List.map_cons, List.lookup_cons, List.lookup_cons, ih]
    split_ifs with he
    · rw [he, beq_eq_false_iff_ne.mpr h]
    · rfl

/-- A key that was set has the value it was set to. -/
@[simp]
theorem lookup_setEntry_self : (setEntry entries key x).lookup key = some x := by
  rw [setEntry]
  split_ifs with h
  · exact lookup_map_ite h
  · rw [List.lookup_append, Option.not_isSome_iff_eq_none.mp h, List.lookup_cons,
      beq_self_eq_true]
    exact Option.none_or

/-- Setting a key leaves the values of all others. -/
theorem lookup_setEntry_of_ne (h : other ≠ key) :
    (setEntry entries key x).lookup other = entries.lookup other := by
  rw [setEntry]
  split_ifs
  · exact lookup_map_ite_of_ne h
  · rw [List.lookup_append, List.lookup_cons, beq_eq_false_iff_ne.mpr h]
    exact Option.or_none

/-- The key is there, and every entry of it has the value. -/
def Holds (entries : List (String × PyJson)) (key : String) (x : PyJson) : Prop :=
  (entries.lookup key).isSome ∧ ∀ e ∈ entries, e.1 = key → e.2 = x

/-- A document in which a key was set holds it. -/
theorem holds_setEntry_self : Holds (setEntry entries key x) key x := by
  refine ⟨by rw [lookup_setEntry_self]; rfl, fun e he hkey => ?_⟩
  rw [setEntry] at he
  split_ifs at he with h
  · obtain ⟨e', -, rfl⟩ := List.mem_map.mp he
    split_ifs at hkey ⊢ with hkey'
    · rfl
    · exact absurd hkey hkey'
  · rcases List.mem_append.mp he with he | he
    · have hnone := List.lookup_eq_none_iff.mp (Option.not_isSome_iff_eq_none.mp h) e he
      simp [hkey] at hnone
    · rw [List.mem_singleton.mp he]

/-- A document still holds a key after another one was set. -/
theorem Holds.setEntry_of_ne (h : Holds entries key x) (hne : key ≠ other) :
    Holds (setEntry entries other y) key x := by
  refine ⟨by rw [lookup_setEntry_of_ne hne]; exact h.1, fun e he hkey => ?_⟩
  rw [setEntry] at he
  split_ifs at he
  · obtain ⟨e', he', rfl⟩ := List.mem_map.mp he
    split_ifs at hkey ⊢ with hother
    · exact absurd hkey.symm hne
    · exact h.2 e' he' hkey
  · rcases List.mem_append.mp he with he | he
    · exact h.2 e he hkey
    · rw [List.mem_singleton.mp he] at hkey
      exact absurd hkey.symm hne

/-- Setting a key to the value that the document holds for it (`h`) changes nothing. -/
theorem Holds.setEntry_eq (h : Holds entries key x) : setEntry entries key x = entries := by
  rw [setEntry, if_pos h.1]
  refine (List.map_congr_left fun e he => ?_).trans (List.map_id _)
  split_ifs with hkey
  · exact Prod.ext hkey.symm (h.2 e he hkey).symm
  · rfl

end PyJson

/-! ### The resolved copy -/

namespace BundleManifest

variable {σ : Type}

/-- The entries of the target readers. -/
def readers (m : BundleManifest) : PyJson := (m.data.lookup "readers").getD (.list [])

/-- A section of the copy, with its path from the base directory on. -/
def resolveEntry (m : BundleManifest) (cfg : PyJson) : Py PyJson := do
  let path ← cfg.get "path"
  let path ← m.resolvePath path
  match path, cfg with
  | some p, .dict entries => pure (.dict (PyJson.setEntry entries "path" (.str p.toText)))
  | _, cfg => pure cfg

/-- The slot index of the copy. -/
def resolveSlotIndex (m : BundleManifest) (mem : List (String × PyJson)) :
    Py (List (String × PyJson)) :=
  match mem.lookup "slot_index" with
  | none | some .none => pure mem
  | some slot => do
    let slot ← m.resolveEntry slot
    pure (PyJson.setEntry mem "slot_index" slot)

/-- The storage of the copy. -/
def resolveMemory (m : BundleManifest) : PyJson → Py PyJson
  | .dict mem =>
    let mtype := (mem.lookup "type").getD .none
    if mtype.isStr "store" then
      match mem.lookup "store" with
      | some store => do
        let store ← m.resolveEntry store
        pure (.dict (PyJson.setEntry mem "store" store))
      | none => pure (.dict mem)
    else if mtype.isStr "view" then
      match mem.lookup "view" with
      | some view => do
        let view ← m.resolveEntry view
        let mem ← m.resolveSlotIndex (PyJson.setEntry mem "view" view)
        pure (.dict mem)
      | none => pure (.dict mem)
    else pure (.dict mem)
  | _ => throw .attributeError

/-- The readers of the copy, where a loop over anything but a list finds no dictionaries. -/
def resolveReaders (m : BundleManifest) (data : List (String × PyJson)) :
    Py (List (String × PyJson)) :=
  match data.lookup "readers" with
  | none => pure data
  | some (.list readers) => do
    let readers ← readers.mapM m.resolveEntry
    pure (PyJson.setEntry data "readers" (.list readers))
  | some v => do
    let items ← v.items
    let _ ← items.mapM m.resolveEntry
    pure data

/-- `resolved`. -/
def resolved (m : BundleManifest) : Py (List (String × PyJson)) := do
  let memory ← m.resolveMemory m.memory
  m.resolveReaders
    (if (m.data.lookup "memory").isSome then PyJson.setEntry m.data "memory" memory else m.data)

/-- The base directory is an absolute path. -/
def Anchored (m : BundleManifest) : Prop :=
  ∃ base, m.baseDir = some base ∧ (PurePath.ofString base).isAbsolute

/-! ### What is read of a section -/

variable {m m' : BundleManifest} {cfg cfg' path : PyJson} {p : PurePath}

/-- A path that was resolved (`h`), written and resolved again gives the same path, by a manifest
without a directory, or if the first one had an absolute directory (`hbase`). -/
theorem resolvePath_toText (h : m.resolvePath path = .ok (some p))
    (hbase : m'.baseDir = none ∨ m.Anchored) :
    m'.resolvePath (.str p.toText) = .ok (some p) := by
  cases path
  case str rel =>
    have hnormal : p.Normal ∧ (m.Anchored → p.isAbsolute) := by
      rw [resolvePath] at h
      have hrel := PurePath.normal_ofString rel
      cases hbaseDir : m.baseDir with
      | none =>
        rw [hbaseDir] at h
        obtain rfl := Option.some.inj (Except.ok.inj h)
        exact ⟨hrel, fun ⟨base, hbase, _⟩ => by simp [hbaseDir] at hbase⟩
      | some base =>
        rw [hbaseDir] at h
        obtain rfl := Option.some.inj (Except.ok.inj h)
        split_ifs with habs
        · exact ⟨hrel, fun _ => habs⟩
        · refine ⟨(PurePath.normal_ofString base).join hrel, fun ⟨base', hbase', habs'⟩ => ?_⟩
          rw [hbaseDir] at hbase'
          obtain rfl := Option.some.inj hbase'
          rw [PurePath.join, if_neg habs]
          exact habs'
    rw [resolvePath, PurePath.ofString_toText hnormal.1]
    rcases hbase with hbase | hbase
    · rw [hbase]
    · cases m'.baseDir with
      | none => rfl
      | some base => simp only [hnormal.2 hbase, if_true]
  all_goals cases h

/-- A section of `m'` reads like a section of `m`, with the same path. -/
structure ReadsAlike (m m' : BundleManifest) (cfg cfg' : PyJson) : Prop where
  truthy : cfg'.truthy = cfg.truthy
  isNone : cfg'.isNone = cfg.isNone
  contains : ∀ key, cfg'.contains key = cfg.contains key
  item : ∀ key, key ≠ "path" → cfg'.item key = cfg.item key
  get : ∀ key, key ≠ "path" → cfg'.get key = cfg.get key
  path : (cfg'.item "path" >>= m'.resolvePath) = (cfg.item "path" >>= m.resolvePath)

/-- Only the null of a document resolves to nothing. -/
theorem resolvePath_eq_none_iff : m.resolvePath path = .ok none ↔ path = .none := by
  cases path
  case none => exact iff_of_true rfl rfl
  case str rel =>
    refine iff_of_false (fun h => ?_) nofun
    rw [resolvePath] at h
    cases hbaseDir : m.baseDir with
    | none =>
      rw [hbaseDir] at h
      cases h
    | some base =>
      rw [hbaseDir] at h
      cases h
  all_goals exact iff_of_false nofun nofun

/-- A resolved section reads like the section, wherever relative paths start from. -/
theorem readsAlike_of_resolveEntry (h : m.resolveEntry cfg = .ok cfg')
    (hbase : m'.baseDir = none ∨ m.Anchored) : ReadsAlike m m' cfg cfg' := by
  obtain ⟨path, hpath, h⟩ := Except.bind_eq_ok_iff.mp h
  obtain ⟨resolvedPath, hresolved, h⟩ := Except.bind_eq_ok_iff.mp h
  obtain ⟨⟨entries, rfl⟩, rfl⟩ := PyJson.get_eq_ok_iff.mp hpath
  have hfield : (PyJson.dict entries).field "path" = (entries.lookup "path").getD .none := rfl
  cases hlookup : entries.lookup "path" with
  | none =>
    -- without a path nothing was changed
    rw [hfield, hlookup] at hresolved
    obtain rfl := Except.ok.inj hresolved
    obtain rfl := Except.ok.inj h
    refine ⟨rfl, rfl, fun _ => rfl, fun _ _ => rfl, fun _ _ => rfl, ?_⟩
    rw [PyJson.item, hlookup]
    rfl
  | some rel =>
    rw [hfield, hlookup, Option.getD_some] at hresolved
    have hitem : (PyJson.dict entries).item "path" = .ok rel := by rw [PyJson.item, hlookup]
    cases resolvedPath with
    | none =>
      obtain rfl := resolvePath_eq_none_iff.mp hresolved
      obtain rfl := Except.ok.inj h
      refine ⟨rfl, rfl, fun _ => rfl, fun _ _ => rfl, fun _ _ => rfl, ?_⟩
      rw [hitem]
      rfl
    | some p =>
      obtain rfl := Except.ok.inj h
      have hlookup' (key : String) (hkey : key ≠ "path") :
          (PyJson.setEntry entries "path" (.str p.toText)).lookup key = entries.lookup key :=
        PyJson.lookup_setEntry_of_ne hkey
      refine ⟨?_, rfl, fun key => ?_, fun key hkey => ?_, fun key hkey => ?_, ?_⟩
      · simp [PyJson.truthy, PyJson.setEntry, hlookup]
      · rcases eq_or_ne key "path" with rfl | hkey
        · rw [PyJson.contains, PyJson.contains, PyJson.lookup_setEntry_self, hlookup]
          rfl
        · rw [PyJson.contains, PyJson.contains, hlookup' key hkey]
      · rw [PyJson.item, PyJson.item, hlookup' key hkey]
      · rw [PyJson.get, PyJson.get, PyJson.getD, PyJson.getD, hlookup' key hkey]
      · rw [hitem, PyJson.item, PyJson.lookup_setEntry_self]
        exact (resolvePath_toText hresolved hbase).trans hresolved.symm

/-! ### The storage -/

section Storage

variable {entries entries' : List (String × PyJson)} {cfg₁ cfg₁' : PyJson}

/-- The keys of the sections of the storage. -/
def sections : List String := ["store", "view", "slot_index"]

/-- What is read of the storage besides its sections: two documents that agree there (`hple`, `h`)
give the same arguments. -/
theorem kwargs_congr (hple : m'.ple = m.ple) (hmem : m.memory = .dict entries)
    (hmem' : m'.memory = .dict entries')
    (h : ∀ key, key ∉ sections → entries'.lookup key = entries.lookup key) :
    m'.kwargs = m.kwargs := by
  have hget (key : String) (hkey : key ∉ sections) :
      (PyJson.dict entries').get key = (PyJson.dict entries).get key := by
    rw [PyJson.get, PyJson.get, PyJson.getD, PyJson.getD, h key hkey]
  have hsequential : sequential (.dict entries') = sequential (.dict entries) := by
    rw [sequential, sequential, hget _ (by decide), hget _ (by decide)]
  have hstart : (PyJson.dict entries').intOr "start_slot" 0 =
      (PyJson.dict entries).intOr "start_slot" 0 := by
    rw [PyJson.intOr, PyJson.intOr, hget _ (by decide)]
  rw [kwargs, kwargs, hple, hmem, hmem', hsequential, hstart]

/-- The errors of a store, and its arguments, when its section reads alike. -/
private theorem store_congr (hmem : m.memory = .dict entries) (hmem' : m'.memory = .dict entries')
    (hstore : entries.lookup "store" = some cfg) (hstore' : entries'.lookup "store" = some cfg')
    (h : ReadsAlike m m' cfg cfg') :
    storeErrors m'.memory = storeErrors m.memory ∧ m'.storeArgs = m.storeArgs := by
  rw [hmem, hmem']
  refine ⟨?_, ?_⟩
  · rw [storeErrors, storeErrors, PyJson.getD, PyJson.getD, hstore, hstore', Option.getD_some,
      Option.getD_some, Except.ok_bind, Except.ok_bind]
    simp only [h.contains]
  · have hitem : m.memory.item "store" = .ok cfg := by rw [hmem, PyJson.item, hstore]
    have hitem' : m'.memory.item "store" = .ok cfg' := by rw [hmem', PyJson.item, hstore']
    rw [storeArgs, storeArgs, hitem, hitem', Except.ok_bind, Except.ok_bind]
    simp only [← bind_assoc, h.path, h.item "shards" (by decide),
      h.item "rows_per_shard" (by decide), h.item "width" (by decide)]

/-- The errors of a view, and its arguments, when its sections read alike. -/
private theorem view_congr (hmem : m.memory = .dict entries) (hmem' : m'.memory = .dict entries')
    (hother : ∀ key, key ∉ sections → entries'.lookup key = entries.lookup key)
    (hview : entries.lookup "view" = some cfg) (hview' : entries'.lookup "view" = some cfg')
    (h : ReadsAlike m m' cfg cfg')
    (hslot : ReadsAlike m m' ((PyJson.dict entries).field "slot_index")
      ((PyJson.dict entries').field "slot_index")) :
    viewErrors m'.memory = viewErrors m.memory ∧ m'.viewPath = m.viewPath ∧
      m'.slotIndexArgs = m.slotIndexArgs := by
  have hget (es : List (String × PyJson)) (key : String) :
      (PyJson.dict es).get key = .ok ((PyJson.dict es).field key) := rfl
  have hsequential : sequential (.dict entries') = sequential (.dict entries) := by
    rw [sequential, sequential, hget, hget, hget, hget]
    simp only [PyJson.field, hother _ (by decide : "sequential_view" ∉ sections),
      hother _ (by decide : "sequential" ∉ sections)]
  refine ⟨?_, ?_, ?_⟩
  · rw [hmem, hmem', viewErrors, viewErrors, PyJson.getD, PyJson.getD, hview, hview', hget, hget]
    simp only [Option.getD_some, Except.ok_bind, h.contains, slotErrors, hslot.isNone,
      hslot.contains, hsequential]
  · have hitem : m.memory.item "view" = .ok cfg := by rw [hmem, PyJson.item, hview]
    have hitem' : m'.memory.item "view" = .ok cfg' := by rw [hmem', PyJson.item, hview']
    rw [viewPath, viewPath, hitem, hitem', Except.ok_bind, Except.ok_bind]
    simp only [← bind_assoc, h.path]
  · rw [slotIndexArgs, slotIndexArgs, hmem, hmem', hget, hget, Except.ok_bind, Except.ok_bind,
      hslot.truthy]
    simp only [← bind_assoc, hslot.path, hslot.get "type" (by decide)]

end Storage

/-! ### Opening the copy -/

/-- What opening reads of a manifest: two manifests with the same validation (`hvalidate`) that open
alike when this finds no error (`hopen`) open alike. -/
theorem openMemory_congr (host : Host σ) (hvalidate : m'.validate = m.validate)
    (hopen : m.validate = .ok [] → openValid host m' = openValid host m) :
    openMemory host m' = openMemory host m := by
  rw [openMemory, openMemory, hvalidate]
  cases hv : m.validate with
  | error e => rfl
  | ok errors =>
    rw [Except.ok_bind, Except.ok_bind]
    split_ifs with hempty
    · exact hopen (by rw [hv, List.isEmpty_iff.mp hempty])
    · rfl

variable {data : List (String × PyJson)} {base : Option String}

/-- Resolving the readers changes no other entry of the document. -/
theorem lookup_resolveReaders {data' : List (String × PyJson)} {key : String}
    (h : m.resolveReaders data = .ok data') (hkey : key ≠ "readers") :
    data'.lookup key = data.lookup key := by
  rw [resolveReaders] at h
  split at h
  · obtain rfl := Except.ok.inj h
    rfl
  · obtain ⟨readers, -, h⟩ := Except.bind_eq_ok_iff.mp h
    obtain rfl := Except.ok.inj h
    exact PyJson.lookup_setEntry_of_ne hkey
  · obtain ⟨items, -, h⟩ := Except.bind_eq_ok_iff.mp h
    obtain ⟨_, -, h⟩ := Except.bind_eq_ok_iff.mp h
    obtain rfl := Except.ok.inj h
    rfl

/-- The sections of a copy (`h`): the schema and the parameters are those of the original, and the
memory is the resolved one. -/
theorem sections_of_resolved (base : Option String) (h : m.resolved = .ok data) :
    BundleManifest.schema ⟨data, base⟩ = m.schema ∧ BundleManifest.ple ⟨data, base⟩ = m.ple ∧
      m.resolveMemory m.memory = .ok (BundleManifest.memory ⟨data, base⟩) := by
  obtain ⟨memory, hmemory, h⟩ := Except.bind_eq_ok_iff.mp h
  have hother (key : String) (hreaders : key ≠ "readers") (hkey : key ≠ "memory") :
      data.lookup key = m.data.lookup key := by
    rw [lookup_resolveReaders h hreaders]
    split_ifs
    · exact PyJson.lookup_setEntry_of_ne hkey
    · rfl
  refine ⟨?_, ?_, ?_⟩
  · rw [schema, schema, hother "schema" (by decide) (by decide)]
  · rw [ple, ple, hother "ple" (by decide) (by decide)]
  · rw [hmemory, BundleManifest.memory, lookup_resolveReaders h (by decide)]
    split_ifs with hsome
    · rw [PyJson.lookup_setEntry_self, Option.getD_some]
    · have hnone := Option.not_isSome_iff_eq_none.mp hsome
      rw [BundleManifest.memory, hnone, Option.getD_none] at hmemory
      rw [hnone, Option.getD_none]
      exact hmemory.symm.trans rfl

section Resolved

variable {mem mem' : PyJson} {entries entries' : List (String × PyJson)}

/-- What was done to the storage: its path was resolved, or those of the view and its index were, or
there was nothing of its type. -/
theorem resolveMemory_cases (h : m.resolveMemory mem = .ok mem') :
    ∃ entries, mem = .dict entries ∧
      ((((entries.lookup "type").getD .none).isStr "store" = true ∧ ∃ store store',
          entries.lookup "store" = some store ∧ m.resolveEntry store = .ok store' ∧
            mem' = .dict (PyJson.setEntry entries "store" store')) ∨
        (((entries.lookup "type").getD .none).isStr "store" = false ∧
          ((entries.lookup "type").getD .none).isStr "view" = true ∧ ∃ view view' entries',
          entries.lookup "view" = some view ∧ m.resolveEntry view = .ok view' ∧
            m.resolveSlotIndex (PyJson.setEntry entries "view" view') = .ok entries' ∧
            mem' = .dict entries') ∨
        (mem' = mem ∧
          (((entries.lookup "type").getD .none).isStr "store" = true →
            entries.lookup "store" = none) ∧
          (((entries.lookup "type").getD .none).isStr "view" = true →
            entries.lookup "view" = none))) := by
  -- only an object has paths to resolve
  cases mem
  case dict entries =>
    refine ⟨entries, rfl, ?_⟩
    rw [resolveMemory] at h
    split_ifs at h with hstore hview
    · cases hlookup : entries.lookup "store" with
      | none =>
        rw [hlookup] at h
        -- the type is not also that of a view
        refine .inr (.inr ⟨(Except.ok.inj h).symm, fun _ => rfl, fun hview => ?_⟩)
        rw [PyJson.isStr_eq_true_iff.mp hstore] at hview
        exact absurd hview (by decide)
      | some store =>
        rw [hlookup] at h
        obtain ⟨store', hresolve, h⟩ := Except.bind_eq_ok_iff.mp h
        exact .inl ⟨hstore, store, store', rfl, hresolve, (Except.ok.inj h).symm⟩
    · cases hlookup : entries.lookup "view" with
      | none =>
        rw [hlookup] at h
        exact .inr (.inr ⟨(Except.ok.inj h).symm, fun hstore' => absurd hstore' hstore,
          fun _ => rfl⟩)
      | some view =>
        rw [hlookup] at h
        obtain ⟨view', hresolve, h⟩ := Except.bind_eq_ok_iff.mp h
        obtain ⟨entries', hslot, h⟩ := Except.bind_eq_ok_iff.mp h
        exact .inr (.inl ⟨by simpa using hstore, hview, view, view', entries', rfl, hresolve, hslot,
          (Except.ok.inj h).symm⟩)
    · exact .inr (.inr ⟨(Except.ok.inj h).symm, fun hstore' => absurd hstore' hstore,
        fun hview' => absurd hview' hview⟩)
  all_goals cases h

/-- The slot index of the copy reads alike, and the other entries stay. -/
theorem resolveSlotIndex_spec (h : m.resolveSlotIndex entries = .ok entries')
    (hbase : m'.baseDir = none ∨ m.Anchored) :
    (∀ key, key ≠ "slot_index" → entries'.lookup key = entries.lookup key) ∧
      ReadsAlike m m' ((PyJson.dict entries).field "slot_index")
        ((PyJson.dict entries').field "slot_index") := by
  have hnone : ReadsAlike m m' .none .none :=
    ⟨rfl, rfl, fun _ => rfl, fun _ _ => rfl, fun _ _ => rfl, rfl⟩
  rw [resolveSlotIndex] at h
  split at h
  · next hlookup =>
    obtain rfl := Except.ok.inj h
    refine ⟨fun _ _ => rfl, ?_⟩
    rw [PyJson.field, hlookup]
    exact hnone
  · next hlookup =>
    obtain rfl := Except.ok.inj h
    refine ⟨fun _ _ => rfl, ?_⟩
    rw [PyJson.field, hlookup]
    exact hnone
  · next slot _ hlookup =>
    obtain ⟨slot', hresolve, h⟩ := Except.bind_eq_ok_iff.mp h
    obtain rfl := Except.ok.inj h
    refine ⟨fun key hkey => PyJson.lookup_setEntry_of_ne hkey, ?_⟩
    rw [PyJson.field, PyJson.field, hlookup, PyJson.lookup_setEntry_self]
    exact readsAlike_of_resolveEntry hresolve hbase

/-- A storage without the section of its type is not valid. -/
private theorem memoryErrors_ne_nil
    (hstore : ((entries.lookup "type").getD .none).isStr "store" = true →
      entries.lookup "store" = none)
    (hview : ((entries.lookup "type").getD .none).isStr "view" = true →
      entries.lookup "view" = none) :
    memoryErrors (.dict entries) ≠ .ok [] := by
  intro h
  obtain ⟨mtype, hmtype, h⟩ := Except.bind_eq_ok_iff.mp h
  obtain rfl := Except.ok.inj hmtype
  split_ifs at h with hs hv
  · rw [storeErrors, PyJson.getD, hstore hs] at h
    exact absurd (Except.ok.inj h) (List.cons_ne_nil _ _)
  · obtain ⟨view, hview', h⟩ := Except.bind_eq_ok_iff.mp h
    rw [PyJson.getD, hview hv] at hview'
    obtain rfl := Except.ok.inj hview'
    obtain ⟨hasPath, hpath, h⟩ := Except.bind_eq_ok_iff.mp h
    obtain rfl := Except.ok.inj hpath
    obtain ⟨slot, -, h⟩ := Except.bind_eq_ok_iff.mp h
    obtain ⟨errors, -, h⟩ := Except.bind_eq_ok_iff.mp h
    cases Except.ok.inj h
  · cases Except.ok.inj h

end Resolved

/-- A copy is checked and opened like its manifest, with the same result and the same errors:
without a base directory, and with any if the one of the manifest is absolute. -/
theorem openMemory_resolved (host : Host σ) (h : m.resolved = .ok data)
    (hbase : base = none ∨ m.Anchored) :
    BundleManifest.validate ⟨data, base⟩ = m.validate ∧
      openMemory host ⟨data, base⟩ = openMemory host m := by
  obtain ⟨hschema, hple, hmemory⟩ := sections_of_resolved base h
  obtain ⟨entries, hmem, hcases⟩ := resolveMemory_cases hmemory
  set copy : BundleManifest := ⟨data, base⟩
  have hbase' : copy.baseDir = none ∨ m.Anchored := hbase
  have hvalidate (hm : memoryErrors copy.memory = memoryErrors m.memory) :
      copy.validate = m.validate := by
    rw [validate, validate, hm, hple, hschema]
  have hget (es : List (String × PyJson)) :
      (PyJson.dict es).get "type" = .ok ((es.lookup "type").getD .none) := rfl
  -- what was resolved is read as before, and what was not is the same
  rcases hcases with ⟨hstore, store, store', hlookup, hresolve, hmem'⟩ |
    ⟨hstore, hview, view, view', entries', hlookup, hresolve, hslot, hmem'⟩ | ⟨hsame, hs, hv⟩
  · -- a store
    have hother (key : String) (hkey : key ∉ sections) :
        (PyJson.setEntry entries "store" store').lookup key = entries.lookup key :=
      PyJson.lookup_setEntry_of_ne fun heq => hkey (heq ▸ by decide)
    obtain ⟨herrors, hargs⟩ := store_congr hmem hmem' hlookup PyJson.lookup_setEntry_self
      (readsAlike_of_resolveEntry hresolve hbase')
    have hval : copy.validate = m.validate := hvalidate <| by
      rw [memoryErrors, memoryErrors, herrors, hmem, hmem', hget, hget,
        hother "type" (by decide), Except.ok_bind, Except.ok_bind, if_pos hstore, if_pos hstore]
    refine ⟨hval, openMemory_congr host hval fun _ => ?_⟩
    rw [openValid, openValid, kwargs_congr hple hmem hmem' hother, hargs, hmem, hmem', hget, hget,
      hother "type" (by decide)]
    simp only [Except.ok_bind, hstore, if_true]
  · -- a view
    obtain ⟨hslotOther, hslotAlike⟩ := resolveSlotIndex_spec hslot hbase'
    rw [PyJson.field, PyJson.lookup_setEntry_of_ne (by decide)] at hslotAlike
    have hother (key : String) (hkey : key ∉ sections) :
        entries'.lookup key = entries.lookup key := by
      rw [hslotOther key fun heq => hkey (heq ▸ by decide)]
      exact PyJson.lookup_setEntry_of_ne fun heq => hkey (heq ▸ by decide)
    have hlookup' : entries'.lookup "view" = some view' := by
      rw [hslotOther "view" (by decide), PyJson.lookup_setEntry_self]
    obtain ⟨herrors, hpath, hargs⟩ := view_congr hmem hmem' hother hlookup hlookup'
      (readsAlike_of_resolveEntry hresolve hbase') hslotAlike
    have hval : copy.validate = m.validate := hvalidate <| by
      rw [memoryErrors, memoryErrors, herrors, hmem, hmem', hget, hget,
        hother "type" (by decide), Except.ok_bind, Except.ok_bind]
      simp only [hstore, hview, Bool.false_eq_true, if_false, if_true]
    refine ⟨hval, openMemory_congr host hval fun _ => ?_⟩
    rw [openValid, openValid, kwargs_congr hple hmem hmem' hother, hpath, hargs, hmem, hmem', hget,
      hget, hother "type" (by decide)]
    simp only [Except.ok_bind, hstore, Bool.false_eq_true, if_false]
  · -- nothing to resolve
    have hval : copy.validate = m.validate := hvalidate (by rw [hsame])
    refine ⟨hval, openMemory_congr host hval fun hnil => ?_⟩
    -- a manifest like this one does not pass the validation
    obtain ⟨errors, herrors, hrest⟩ := Except.bind_eq_ok_iff.mp hnil
    obtain ⟨pleErrors, -, hrest⟩ := Except.bind_eq_ok_iff.mp hrest
    have hlist := List.append_eq_nil_iff.mp (Except.ok.inj hrest)
    rw [hmem, (List.append_eq_nil_iff.mp hlist.1).2] at herrors
    exact absurd herrors (memoryErrors_ne_nil hs hv)

/-! ### Resolving the copy -/

section Again

variable {mem mem' : PyJson} {entries entries' : List (String × PyJson)}

/-- Resolving the path of a reader once more changes nothing, by a manifest that has no directory,
or if the first one had an absolute directory. -/
theorem resolveEntry_again (h : m.resolveEntry cfg = .ok cfg')
    (hbase : m'.baseDir = none ∨ m.Anchored) : m'.resolveEntry cfg' = .ok cfg' := by
  obtain ⟨path, hpath, h⟩ := Except.bind_eq_ok_iff.mp h
  obtain ⟨resolvedPath, hresolved, h⟩ := Except.bind_eq_ok_iff.mp h
  obtain ⟨⟨entries, rfl⟩, rfl⟩ := PyJson.get_eq_ok_iff.mp hpath
  cases resolvedPath with
  | none =>
    obtain rfl := Except.ok.inj h
    rw [resolveEntry, hpath, Except.ok_bind, resolvePath_eq_none_iff.mp hresolved]
    rfl
  | some p =>
    obtain rfl := Except.ok.inj h
    have hget : (PyJson.dict (PyJson.setEntry entries "path" (.str p.toText))).get "path" =
        .ok (.str p.toText) := by
      rw [PyJson.get, PyJson.getD, PyJson.lookup_setEntry_self, Option.getD_some]
    rw [resolveEntry, hget, Except.ok_bind, resolvePath_toText hresolved hbase, Except.ok_bind]
    simp only [PyJson.holds_setEntry_self.setEntry_eq]
    rfl

/-- Resolving the path of the slot index once more changes nothing, under the same condition on the
directories. -/
private theorem resolveSlotIndex_again (h : m.resolveSlotIndex entries = .ok entries')
    (hbase : m'.baseDir = none ∨ m.Anchored) : m'.resolveSlotIndex entries' = .ok entries' := by
  rw [resolveSlotIndex] at h
  split at h
  · next hlookup =>
    obtain rfl := Except.ok.inj h
    rw [resolveSlotIndex, hlookup]
    rfl
  · next hlookup =>
    obtain rfl := Except.ok.inj h
    rw [resolveSlotIndex, hlookup]
    rfl
  · next slot hne hlookup =>
    obtain ⟨slot', hresolve, h⟩ := Except.bind_eq_ok_iff.mp h
    obtain rfl := Except.ok.inj h
    have hagain := resolveEntry_again hresolve hbase
    have hset : (m'.resolveEntry slot' >>= fun slot =>
        pure (PyJson.setEntry (PyJson.setEntry entries "slot_index" slot') "slot_index" slot)) =
        (.ok (PyJson.setEntry entries "slot_index" slot') : Py _) := by
      rw [hagain, Except.ok_bind, PyJson.holds_setEntry_self.setEntry_eq]
      rfl
    rw [resolveSlotIndex, PyJson.lookup_setEntry_self]
    cases slot'
    case none => cases hagain
    all_goals exact hset

/-- Resolving the slot index leaves the other entries that the document holds. -/
private theorem holds_resolveSlotIndex {key : String} {x : PyJson}
    (h : m.resolveSlotIndex entries = .ok entries') (hkey : key ≠ "slot_index")
    (hx : PyJson.Holds entries key x) : PyJson.Holds entries' key x := by
  rw [resolveSlotIndex] at h
  split at h
  · obtain rfl := Except.ok.inj h
    exact hx
  · obtain rfl := Except.ok.inj h
    exact hx
  · obtain ⟨slot, -, h⟩ := Except.bind_eq_ok_iff.mp h
    obtain rfl := Except.ok.inj h
    exact hx.setEntry_of_ne hkey

/-- Resolving the paths of the memory once more changes nothing, under the same condition on the
directories. -/
private theorem resolveMemory_again (h : m.resolveMemory mem = .ok mem')
    (hbase : m'.baseDir = none ∨ m.Anchored) : m'.resolveMemory mem' = .ok mem' := by
  obtain ⟨entries, rfl, hcases⟩ := resolveMemory_cases h
  rcases hcases with ⟨hstore, store, store', hlookup, hresolve, rfl⟩ |
    ⟨hstore, hview, view, view', entries', hlookup, hresolve, hslot, rfl⟩ | ⟨rfl, hs, hv⟩
  · rw [resolveMemory]
    simp only [PyJson.lookup_setEntry_of_ne (by decide : "type" ≠ "store"), hstore, if_true,
      PyJson.lookup_setEntry_self, resolveEntry_again hresolve hbase, Except.ok_bind,
      PyJson.holds_setEntry_self.setEntry_eq]
    rfl
  · obtain ⟨hother, -⟩ := resolveSlotIndex_spec hslot hbase
    have htype : entries'.lookup "type" = entries.lookup "type" := by
      rw [hother "type" (by decide), PyJson.lookup_setEntry_of_ne (by decide)]
    have hholds := holds_resolveSlotIndex hslot (by decide) PyJson.holds_setEntry_self
    have hview' : entries'.lookup "view" = some view' := by
      rw [hother "view" (by decide), PyJson.lookup_setEntry_self]
    rw [resolveMemory]
    simp only [htype, hstore, hview, Bool.false_eq_true, if_false, if_true, hview',
      resolveEntry_again hresolve hbase, Except.ok_bind, hholds.setEntry_eq,
      resolveSlotIndex_again hslot hbase]
    rfl
  · rw [resolveMemory]
    split_ifs with hstore hview
    · rw [hs hstore]
      rfl
    · rw [hv hview]
      rfl
    · rfl

/-- If doing `g` after `f` changes no item, mapping `g` over the results of mapping `f` changes
none. -/
private theorem mapM_again {α : Type} {f g : α → Py α} {xs ys : List α} (h : xs.mapM f = .ok ys)
    (hg : ∀ x y, f x = .ok y → g y = .ok y) : ys.mapM g = .ok ys := by
  have hmap : ys.mapM g = .ok (ys.map id) := by
    refine Except.mapM_eq_ok fun y hy => ?_
    obtain ⟨x, -, hx⟩ := Except.exists_of_mem_mapM h hy
    exact hg x y hx
  rwa [List.map_id] at hmap

/-- A loop over the letters of a text or the keys of a dictionary finds no dictionary. -/
theorem items_eq_nil {v : PyJson} {items items' : List PyJson} (hne : ∀ xs, v ≠ .list xs)
    (hitems : v.items = .ok items) (h : items.mapM m.resolveEntry = .ok items') : items = [] := by
  have hdict : ∀ x ∈ items, x.IsDict := by
    intro x hx
    obtain ⟨y, hy⟩ := Except.forall_of_mapM_eq_ok h x hx
    obtain ⟨path, hpath, -⟩ := Except.bind_eq_ok_iff.mp hy
    exact (PyJson.get_eq_ok_iff.mp hpath).1
  have hstr : ∀ x ∈ items, ∃ s, x = .str s := by
    intro x hx
    cases v
    case list xs => exact absurd rfl (hne xs)
    case str s =>
      obtain rfl := Except.ok.inj hitems
      obtain ⟨c, -, rfl⟩ := List.mem_map.mp hx
      exact ⟨_, rfl⟩
    case dict es =>
      obtain rfl := Except.ok.inj hitems
      obtain ⟨e, -, rfl⟩ := List.mem_map.mp hx
      exact ⟨_, rfl⟩
    all_goals cases hitems
  refine List.eq_nil_iff_forall_not_mem.mpr fun x hx => ?_
  obtain ⟨es, rfl⟩ := hdict x hx
  obtain ⟨s, hs⟩ := hstr _ hx
  cases hs

/-- Resolving the readers once more changes nothing, under the same condition on the directories. -/
private theorem resolveReaders_again (h : m.resolveReaders entries = .ok entries')
    (hbase : m'.baseDir = none ∨ m.Anchored) : m'.resolveReaders entries' = .ok entries' := by
  rw [resolveReaders] at h
  split at h
  · next hlookup =>
    obtain rfl := Except.ok.inj h
    rw [resolveReaders, hlookup]
    rfl
  · obtain ⟨readers, hreaders, h⟩ := Except.bind_eq_ok_iff.mp h
    obtain rfl := Except.ok.inj h
    rw [resolveReaders, PyJson.lookup_setEntry_self]
    simp only [mapM_again hreaders fun x y hxy => resolveEntry_again hxy hbase, Except.ok_bind,
      PyJson.holds_setEntry_self.setEntry_eq]
    rfl
  · next v hne hlookup =>
    obtain ⟨items, hitems, h⟩ := Except.bind_eq_ok_iff.mp h
    obtain ⟨resolvedItems, hresolve, h⟩ := Except.bind_eq_ok_iff.mp h
    obtain rfl := Except.ok.inj h
    have hne' : ∀ xs, v ≠ .list xs := fun xs heq => hne xs heq
    obtain rfl := items_eq_nil hne' hitems hresolve
    have hloop : (v.items >>= fun items => items.mapM m'.resolveEntry >>= fun _ =>
        pure entries) = (.ok entries : Py _) := by
      rw [hitems]
      rfl
    rw [resolveReaders, hlookup]
    cases v
    case list xs => exact absurd rfl (hne' xs)
    all_goals exact hloop

/-- Resolving the readers leaves the other entries that the document holds. -/
private theorem holds_resolveReaders {key : String} {x : PyJson}
    (h : m.resolveReaders entries = .ok entries') (hkey : key ≠ "readers")
    (hx : PyJson.Holds entries key x) : PyJson.Holds entries' key x := by
  rw [resolveReaders] at h
  split at h
  · obtain rfl := Except.ok.inj h
    exact hx
  · obtain ⟨readers, -, h⟩ := Except.bind_eq_ok_iff.mp h
    obtain rfl := Except.ok.inj h
    exact hx.setEntry_of_ne hkey
  · obtain ⟨items, -, h⟩ := Except.bind_eq_ok_iff.mp h
    obtain ⟨_, -, h⟩ := Except.bind_eq_ok_iff.mp h
    obtain rfl := Except.ok.inj h
    exact hx

end Again

/-- A copy (`h`) whose directory is none, or that was made with an absolute directory (`hbase`), is
its own copy. -/
theorem resolved_resolved (h : m.resolved = .ok data) (hbase : base = none ∨ m.Anchored) :
    BundleManifest.resolved ⟨data, base⟩ = .ok data := by
  obtain ⟨-, -, hmemory⟩ := sections_of_resolved base h
  set copy : BundleManifest := ⟨data, base⟩
  have hbase' : copy.baseDir = none ∨ m.Anchored := hbase
  obtain ⟨memory, hmemory', hreaders⟩ := Except.bind_eq_ok_iff.mp h
  rw [hmemory] at hmemory'
  obtain rfl := Except.ok.inj hmemory'
  rw [resolved, resolveMemory_again hmemory hbase', Except.ok_bind]
  have hdata : (if (data.lookup "memory").isSome then PyJson.setEntry data "memory" copy.memory
      else data) = data := by
    rw [lookup_resolveReaders hreaders (by decide)]
    split_ifs at hreaders ⊢ with hsome hsome'
    · exact (holds_resolveReaders hreaders (by decide) PyJson.holds_setEntry_self).setEntry_eq
    · rfl
    · rfl
  rw [hdata]
  exact resolveReaders_again hreaders hbase'

/-- A copy is checked and opened like its manifest, with the same result and the same errors, and it
is its own copy: without a base directory, and with any if the one of the manifest is absolute. -/
theorem resolved_spec (host : Host σ) (h : m.resolved = .ok data)
    (hbase : base = none ∨ m.Anchored) :
    BundleManifest.validate ⟨data, base⟩ = m.validate ∧
      openMemory host ⟨data, base⟩ = openMemory host m ∧
      BundleManifest.resolved ⟨data, base⟩ = .ok data := by
  obtain ⟨hvalidate, hopen⟩ := openMemory_resolved host h hbase
  exact ⟨hvalidate, hopen, resolved_resolved h hbase⟩

/-- A view manifest below `/srv`, with a reader. -/
def viewManifest (viewPath readerPath : String) (baseDir : Option String) : BundleManifest where
  data := [("schema", .str "engramdb-bundle-v1"),
    ("memory", .dict [("type", .str "view"), ("view", .dict [("path", .str viewPath)]),
      ("slot_index", .dict [("path", .str "/idx/slots")])]),
    ("ple", .dict [("ple_embed_dim", .int 2560), ("num_heads", .int 16)]),
    ("readers", .list [.dict [("name", .str "demo"), ("path", .str readerPath)]])]
  baseDir := baseDir

theorem resolved_viewManifest :
    (viewManifest "views/./a" "reader" (some "/srv")).resolved =
      .ok (viewManifest "/srv/views/a" "/srv/reader" none).data := by
  rfl

/-- Files that are found by their whole paths only. -/
def srvHost : Host Unit where
  str _ := ""
  openStore path _ _ _ := .error (.valueError path)
  openView path :=
    if path = "/srv/views/a" then .ok ⟨.int 2560, fun _ => pure []⟩ else .error (.valueError path)
  loadSlotIndex path := .error (.valueError path)
  openDiskSlotIndex path :=
    if path = "/idx/slots" then .ok fun _ => pure 0 else .error (.valueError path)

/-- The copy is opened from another directory. -/
theorem resolved_spec_viewManifest :
    (viewManifest "/srv/views/a" "/srv/reader" (some "/elsewhere")).validate =
        (viewManifest "views/./a" "reader" (some "/srv")).validate ∧
      openMemory srvHost (viewManifest "/srv/views/a" "/srv/reader" (some "/elsewhere")) =
        openMemory srvHost (viewManifest "views/./a" "reader" (some "/srv")) ∧
      (viewManifest "/srv/views/a" "/srv/reader" (some "/elsewhere")).resolved =
        .ok (viewManifest "/srv/views/a" "/srv/reader" none).data :=
  resolved_spec srvHost resolved_viewManifest (.inr ⟨"/srv", rfl, by decide⟩)

end BundleManifest

end EngramDB
