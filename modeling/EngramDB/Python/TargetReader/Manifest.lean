import EngramDB.Foundations.Effect
import EngramDB.Python.Bundle.Resolved
import EngramDB.Python.TargetReader

/-!
# The readers of a manifest

The entries of a manifest name a reader, its version, its path and its options. The readers are
made of the manifest or of its document.

* `loadAll_eq_mapM`: all readers are made one after another, each as it is made alone;
* `loadAll_resolved`: a manifest and its resolved copy make the readers from the same arguments, if
  the paths that do not start from the base directory are written as `str(Path(p))` writes them.
-/

namespace EngramDB

/-- A description of a reader. -/
structure ReaderSpec where
  name : String
  version : String
  type : String
  /-- The path, as it was read or resolved. -/
  path : PyJson
  /-- The options, unless one of their keys is not a string. -/
  options : Option (List (String × PyJson))

namespace ReaderSpec

/-- The path of a reader, from the base directory on. -/
def resolvePath (path : PyJson) (baseDir : Option String) : Py PyJson :=
  match path, baseDir with
  | .none, _ => .ok .none
  | path, none => .ok path
  | .str rel, some base =>
    let p := PurePath.ofString rel
    .ok (.str (if p.isAbsolute then rel else ((PurePath.ofString base).join p).toText))
  | v, some _ => .error
    (.typeError s!"expected str, bytes or os.PathLike object, not {v.typeName}")

/-- `str(data.get(key) or default)`. -/
def textOr (str : PyJson → String) (data : PyJson) (key default : String) : Py String := do
  let v ← data.get key
  pure (if v.truthy then
    match v with
    | .str s => s
    | v => str v
  else default)

/-- One pair of a list of which a dictionary is made. A key that is a list or a dictionary is
refused. -/
def insertPair (options : Option (List (String × PyJson))) (pair : PyJson) :
    Py (Option (List (String × PyJson))) := do
  let items ← pair.items
  match items with
  | [.str key, x] => pure (options.map fun entries => PyJson.setEntry entries key x)
  | [.list _, _] => throw (.typeError "unhashable type: 'list'")
  | [.dict _, _] => throw (.typeError "unhashable type: 'dict'")
  | [_, _] => pure none
  | _ => throw (.valueError "dictionary update sequence element has a wrong length; 2 is required")

/-- `dict(data.get("options") or {})`. -/
def optionsOf (data : PyJson) : Py (Option (List (String × PyJson))) := do
  let v ← data.get "options"
  if v.truthy then
    match v with
    | .dict entries => pure (some entries)
    | v => do
      let pairs ← v.items
      pairs.foldlM insertPair (some [])
  else pure (some [])

/-- `from_dict`, with the `str` of values that are no strings. -/
def fromDict (str : PyJson → String) (data : PyJson) (baseDir : Option String) : Py ReaderSpec := do
  let path ← data.get "path"
  let path ← resolvePath path baseDir
  let name ← textOr str data "name" ""
  let version ← textOr str data "version" "1"
  let type ← textOr str data "type" "generic"
  let options ← optionsOf data
  pure { name, version, type, path, options }

end ReaderSpec

namespace TargetReaderRegistry

/-- A factory of readers: it is called with keyword arguments. -/
abbrev ReaderFactory (σ ρ : Type) := List (String × PyJson) → PyM σ ρ

variable {σ ρ : Type} (r : TargetReaderRegistry (ReaderFactory σ ρ)) (str : PyJson → String)

/-- `create`. -/
def create (name : String) (version path : Option String)
    (options : Option (List (String × PyJson))) (kwargs : List (String × PyJson)) : PyM σ ρ := do
  let factory ← PyM.lift (r.find name version)
  match options with
  | none => throw (.typeError "keywords must be strings")
  | some options =>
    let merged := kwargs.foldl (fun merged e => PyJson.setEntry merged e.1 e.2) options
    match path with
    | some path =>
      -- an option of this name goes before the path
      factory (if (merged.lookup "path").isSome then merged else merged ++ [("path", .str path)])
    | none => factory merged

/-- `create_from_spec`. -/
def createFromSpec (spec : ReaderSpec) : PyM σ ρ :=
  let path := match spec.path with
    | .none => none
    | .str path => some path
    | v => some (str v)
  r.create spec.name (some spec.version) path spec.options []

/-- What the readers are made of: a manifest, or its document. -/
inductive Source where
  | manifest (m : BundleManifest)
  | document (data : List (String × PyJson))

namespace Source

/-- The entries of the readers. -/
def readers : Source → PyJson
  | manifest m => m.readers
  | document data => (data.lookup "readers").getD (.list [])

/-- The directory that relative paths start from. -/
def baseDir : Source → Option String
  | manifest m => m.baseDir
  | document _ => none

end Source

/-- The reader of one entry. -/
def createFromDict (baseDir : Option String) (data : PyJson) : PyM σ ρ := do
  let spec ← PyM.lift (ReaderSpec.fromDict str data baseDir)
  r.createFromSpec str spec

/-- `load_all_from_manifest`. -/
def loadAll (source : Source) : PyM σ (List ρ) := do
  let readers ← PyM.lift source.readers.items
  readers.mapM (r.createFromDict str source.baseDir)

/-- What making one reader raises. -/
inductive ReaderError where
  /-- `LookupError`: the manifest has no readers. -/
  | noReaders
  /-- What the steps raise. -/
  | raised (e : PyError)

/-- The entry of an index. -/
def readerAt (readers : PyJson) (index : ℤ) : Except ReaderError PyJson :=
  if readers.truthy then
    match readers with
    | .list xs => at' xs
    | .str s => at' (s.toList.map fun c => .str (String.singleton c))
    | .dict entries =>
      -- the keys are strings
      if 0 ≤ index ∧ index < entries.length then .error (.raised .keyError)
      else .error (.raised .indexError)
    | v => .error (.raised (.typeError s!"object of type '{v.typeName}' has no len()"))
  else .error .noReaders
where
  at' (xs : List PyJson) : Except ReaderError PyJson :=
    if 0 ≤ index then
      match xs[index.toNat]? with
      | some x => .ok x
      | none => .error (.raised .indexError)
    else .error (.raised .indexError)

/-- A step that raises. -/
def raising {α : Type} (x : PyM σ α) : Effect ReaderError σ α := fun s =>
  ((x s).1.mapError .raised, (x s).2)

/-- `create_from_manifest`. -/
def createFromManifest (source : Source) (index : ℤ) : Effect ReaderError σ ρ := do
  let data ← Effect.lift (readerAt source.readers index)
  raising (r.createFromDict str source.baseDir data)

/-! ### One after another -/

section Loads

variable {α β : Type} {source : Source} {xs : List PyJson}

/-- What raises in two parts raises in the first or then in the second. -/
theorem raising_bind (x : PyM σ α) (f : α → PyM σ β) :
    raising (x >>= f) = raising x >>= fun a => raising (f a) := by
  funext s
  rcases hx : x s with ⟨e | a, s'⟩
  · have hraise : raising x s = (.error (.raised e), s') := by rw [raising, hx]; rfl
    rw [raising, PyM.bind_of_error hx, Effect.bind_of_error hraise]
    rfl
  · have hraise : raising x s = (.ok a, s') := by rw [raising, hx]; rfl
    rw [raising, PyM.bind_of_ok hx, Effect.bind_of_ok hraise]
    rfl

/-- What raises over a list raises at its items, one after another. -/
private theorem raising_mapM (f : α → PyM σ β) (l : List α) :
    raising (l.mapM f) = l.mapM fun a => raising (f a) := by
  induction l with
  | nil => rfl
  | cons a l ih =>
    rw [List.mapM_cons, List.mapM_cons, raising_bind]
    refine congrArg _ (funext fun b => ?_)
    rw [raising_bind, ih]
    rfl

/-- A loop over the places of a list that does at each place what `f` does for the entry there (`h`)
is a loop of `f` over the list. -/
private theorem mapM_range {f : α → Effect ReaderError σ β} {g : ℕ → Effect ReaderError σ β}
    {l : List α}
    (h : ∀ i a, l[i]? = some a → g i = f a) : (List.range l.length).mapM g = l.mapM f := by
  induction l generalizing g with
  | nil => rfl
  | cons a l ih =>
    rw [List.length_cons, List.range_succ_eq_map, List.mapM_cons, List.mapM_cons, List.mapM_map,
      h 0 a rfl]
    have hrest : (List.range l.length).mapM (g ∘ Nat.succ) = l.mapM f :=
      ih fun i a' ha' => h (i + 1) a' ha'
    rw [hrest]

/-- All readers are made one after another, each as it is made alone. -/
theorem loadAll_eq_mapM (h : source.readers = .list xs) :
    raising (r.loadAll str source) =
      (List.range xs.length).mapM fun i : ℕ => r.createFromManifest str source i := by
  have hitems : r.loadAll str source = xs.mapM (r.createFromDict str source.baseDir) := by
    rw [loadAll, h]
    rfl
  rw [hitems, raising_mapM]
  refine (mapM_range fun i x hx => ?_).symm
  have hread : readerAt source.readers i = .ok x := by
    have hne : xs ≠ [] := by
      rintro rfl
      cases hx
    rw [h, readerAt, if_pos (by simpa [PyJson.truthy] using hne), readerAt.at',
      if_pos (Int.natCast_nonneg i), Int.toNat_natCast, hx]
  rw [createFromManifest, hread]
  rfl

end Loads

/-! ### The resolved copy -/

section Resolved

variable {m : BundleManifest} {data : List (String × PyJson)} {cfg cfg' : PyJson}

/-- Paths that do not start from the base directory are written as `str(Path(p))` writes them. -/
def Written (m : BundleManifest) (cfg : PyJson) : Prop :=
  ∀ rel, cfg.field "path" = .str rel →
    m.baseDir = none ∨ (PurePath.ofString rel).isAbsolute → (PurePath.ofString rel).toText = rel

/-- A path that was resolved is the path that the description of a reader has. -/
theorem resolvePath_toText {path : PyJson} {p : PurePath} (h : m.resolvePath path = .ok (some p))
    (hwritten : ∀ rel, path = .str rel →
      m.baseDir = none ∨ (PurePath.ofString rel).isAbsolute →
        (PurePath.ofString rel).toText = rel) :
    ReaderSpec.resolvePath path m.baseDir = .ok (.str p.toText) := by
  cases path
  case str rel =>
    rw [BundleManifest.resolvePath] at h
    have hrel := hwritten rel rfl
    cases hbase : m.baseDir with
    | none =>
      rw [hbase] at h hrel
      obtain rfl := Option.some.inj (Except.ok.inj h)
      rw [hrel (.inl rfl)]
      rfl
    | some base =>
      rw [hbase] at h hrel
      obtain rfl := Option.some.inj (Except.ok.inj h)
      rw [ReaderSpec.resolvePath]
      split_ifs with habs
      · rw [hrel (.inr habs)]
      · rfl
  all_goals cases h

/-- A reader and its resolved entry have the same description. -/
private theorem fromDict_resolveEntry (h : m.resolveEntry cfg = .ok cfg')
    (hwritten : Written m cfg) :
    ReaderSpec.fromDict str cfg' none = ReaderSpec.fromDict str cfg m.baseDir := by
  have halike : BundleManifest.ReadsAlike m ⟨[], none⟩ cfg cfg' :=
    BundleManifest.readsAlike_of_resolveEntry h (.inl rfl)
  obtain ⟨path, hpath, h⟩ := Except.bind_eq_ok_iff.mp h
  obtain ⟨resolvedPath, hresolved, h⟩ := Except.bind_eq_ok_iff.mp h
  obtain ⟨⟨entries, rfl⟩, rfl⟩ := PyJson.get_eq_ok_iff.mp hpath
  cases resolvedPath with
  | none =>
    obtain rfl := Except.ok.inj h
    have hfield := BundleManifest.resolvePath_eq_none_iff.mp hresolved
    rw [ReaderSpec.fromDict, ReaderSpec.fromDict, hpath, hfield]
    rfl
  | some p =>
    obtain rfl := Except.ok.inj h
    have hpath' : (PyJson.dict (PyJson.setEntry entries "path" (.str p.toText))).get "path" =
        .ok (.str p.toText) := by
      rw [PyJson.get, PyJson.getD, PyJson.lookup_setEntry_self, Option.getD_some]
    have hnone : ReaderSpec.resolvePath (.str p.toText) none = .ok (.str p.toText) := rfl
    rw [ReaderSpec.fromDict, ReaderSpec.fromDict, hpath, hpath', Except.ok_bind, Except.ok_bind,
      hnone, resolvePath_toText hresolved hwritten]
    simp only [ReaderSpec.textOr, ReaderSpec.optionsOf, halike.get "name" (by decide),
      halike.get "version" (by decide), halike.get "type" (by decide),
      halike.get "options" (by decide)]

/-- The readers of a copy (`h`) are the resolved ones of the original, or there are none in both. -/
private theorem readers_resolved (h : m.resolved = .ok data) :
    (∃ xs xs', m.readers = .list xs ∧ xs.mapM m.resolveEntry = .ok xs' ∧
        (Source.document data).readers = .list xs') ∨
      (m.readers.items = .ok [] ∧ (Source.document data).readers = m.readers) := by
  obtain ⟨memory, -, h⟩ := Except.bind_eq_ok_iff.mp h
  have hlookup : (if (m.data.lookup "memory").isSome then
      PyJson.setEntry m.data "memory" memory else m.data).lookup "readers" =
        m.data.lookup "readers" := by
    split_ifs
    · exact PyJson.lookup_setEntry_of_ne (by decide)
    · rfl
  rw [BundleManifest.resolveReaders, hlookup] at h
  rw [BundleManifest.readers, Source.readers]
  split at h
  · next hnone =>
    obtain rfl := Except.ok.inj h
    rw [hlookup, hnone]
    exact .inl ⟨[], [], rfl, rfl, rfl⟩
  · next xs hsome =>
    obtain ⟨xs', hxs', h⟩ := Except.bind_eq_ok_iff.mp h
    obtain rfl := Except.ok.inj h
    rw [hsome, PyJson.lookup_setEntry_self]
    exact .inl ⟨xs, xs', rfl, hxs', rfl⟩
  · next v hne hsome =>
    obtain ⟨items, hitems, h⟩ := Except.bind_eq_ok_iff.mp h
    obtain ⟨items', hresolve, h⟩ := Except.bind_eq_ok_iff.mp h
    obtain rfl := Except.ok.inj h
    obtain rfl := BundleManifest.items_eq_nil hne hitems hresolve
    rw [hlookup, hsome]
    exact .inr ⟨hitems, rfl⟩

/-- What a loop over nothing iterates over is not true. -/
private theorem truthy_of_items {v : PyJson} (h : v.items = .ok []) : v.truthy = false := by
  cases v
  case list xs =>
    obtain rfl := Except.ok.inj h
    rfl
  case str s =>
    have hnil := List.map_eq_nil_iff.mp (Except.ok.inj h)
    rw [String.toList_eq_nil_iff.mp hnil]
    rfl
  case dict entries =>
    rw [List.map_eq_nil_iff.mp (Except.ok.inj h)]
    rfl
  all_goals cases h

/-- A map that returns has the result of every item. -/
private theorem forall₂_of_mapM {α β : Type} {f : α → Py β} {xs : List α} {ys : List β}
    (h : xs.mapM f = .ok ys) : List.Forall₂ (fun x y => f x = .ok y) xs ys := by
  induction xs generalizing ys with
  | nil =>
    obtain rfl := Except.ok.inj h
    exact List.Forall₂.nil
  | cons x xs ih =>
    rw [List.mapM_cons] at h
    obtain ⟨y, hy, h⟩ := Except.bind_eq_ok_iff.mp h
    obtain ⟨ys, hys, h⟩ := Except.bind_eq_ok_iff.mp h
    obtain rfl := Except.ok.inj h
    exact List.Forall₂.cons hy (ih hys)

/-- Functions that do the same for the items of two lists, one by one, do the same over the
lists. -/
private theorem mapM_eq_of_forall₂ {α β γ : Type} {f : α → PyM σ γ} {g : β → PyM σ γ} {xs : List α}
    {ys : List β} (h : List.Forall₂ (fun x y => f x = g y) xs ys) : xs.mapM f = ys.mapM g := by
  induction h with
  | nil => rfl
  | cons hxy _ ih => rw [List.mapM_cons, List.mapM_cons, hxy, ih]

/-- Items at the same place of related lists are related, and there is one in both or in none. -/
private theorem rel_getElem? {α β : Type} {R : α → β → Prop} {xs : List α} {ys : List β}
    (h : List.Forall₂ R xs ys) (i : ℕ) : Option.Rel R xs[i]? ys[i]? := by
  induction h generalizing i with
  | nil => exact .none
  | cons hxy _ ih =>
    cases i with
    | zero => exact .some hxy
    | succ i => exact ih i

/-- The reader of an index, for lists of entries that make the same readers. -/
private theorem createFromManifest_congr {source source' : Source} {xs xs' : List PyJson}
    (hxs : source.readers = .list xs) (hxs' : source'.readers = .list xs')
    (h : List.Forall₂ (fun x' x => r.createFromDict str source'.baseDir x' =
      r.createFromDict str source.baseDir x) xs' xs) (index : ℤ) :
    r.createFromManifest str source' index = r.createFromManifest str source index := by
  have hempty : xs'.isEmpty = xs.isEmpty := by
    cases h <;> rfl
  have htruthy : (PyJson.list xs').truthy = (PyJson.list xs).truthy := congrArg not hempty
  rw [createFromManifest, createFromManifest, hxs, hxs', readerAt, readerAt, htruthy]
  split_ifs
  · rw [readerAt.at', readerAt.at']
    split_ifs
    · have hrel := rel_getElem? h index.toNat
      generalize xs'[index.toNat]? = x', xs[index.toNat]? = x at hrel
      cases hrel with
      | none => rfl
      | some hcreate => exact congrArg raising hcreate
    · rfl
  · rfl

/-- A manifest and its resolved copy make the readers from the same arguments. -/
theorem loadAll_resolved (h : m.resolved = .ok data)
    (hwritten : ∀ xs, m.readers = .list xs → ∀ cfg ∈ xs, Written m cfg) :
    r.loadAll str (.document data) = r.loadAll str (.manifest m) ∧
      ∀ index, r.createFromManifest str (.document data) index =
        r.createFromManifest str (.manifest m) index := by
  have hmanifest : (Source.manifest m).readers = m.readers := rfl
  rcases readers_resolved h with ⟨xs, xs', hxs, hmap, hxs'⟩ | ⟨hitems, hsame⟩
  · have hcreate : List.Forall₂ (fun cfg' cfg => r.createFromDict str none cfg' =
        r.createFromDict str m.baseDir cfg) xs' xs := by
      have hentries := hwritten xs hxs
      have hresolve := forall₂_of_mapM hmap
      clear hmap hxs hxs'
      induction hresolve with
      | nil => exact List.Forall₂.nil
      | cons hcfg _ ih =>
        rw [List.forall_mem_cons] at hentries
        refine List.Forall₂.cons ?_ (ih hentries.2)
        rw [createFromDict, createFromDict, fromDict_resolveEntry str hcfg hentries.1]
    refine ⟨?_, createFromManifest_congr r str hxs hxs' hcreate⟩
    rw [loadAll, loadAll, hxs', hmanifest, hxs]
    exact mapM_eq_of_forall₂ hcreate
  · have hread (index : ℤ) : readerAt m.readers index = .error .noReaders :=
      if_neg (by rw [truthy_of_items hitems]; exact Bool.false_ne_true)
    refine ⟨?_, fun index => ?_⟩
    · rw [loadAll, loadAll, hmanifest, hsame, hitems]
      rfl
    · rw [createFromManifest, createFromManifest, hmanifest, hsame, hread]
      rfl

end Resolved

/-- A registry with a reader that shows its arguments. -/
def demoRegistry : TargetReaderRegistry (ReaderFactory Unit (List (String × PyJson))) :=
  (empty.register "demo" "1" (fun options => pure options) false).2

theorem loadAll_resolved_demoRegistry :
    demoRegistry.loadAll (fun _ => "")
        (.document (BundleManifest.viewManifest "/srv/views/a" "/srv/reader" none).data) =
      demoRegistry.loadAll (fun _ => "")
        (.manifest (BundleManifest.viewManifest "views/./a" "reader" (some "/srv"))) ∧
    ∀ index, demoRegistry.createFromManifest (fun _ => "")
        (.document (BundleManifest.viewManifest "/srv/views/a" "/srv/reader" none).data) index =
      demoRegistry.createFromManifest (fun _ => "")
        (.manifest (BundleManifest.viewManifest "views/./a" "reader" (some "/srv"))) index := by
  refine loadAll_resolved demoRegistry _ BundleManifest.resolved_viewManifest
    fun xs hxs cfg hcfg rel hrel hbase => ?_
  obtain rfl := PyJson.list.inj hxs
  rw [List.mem_singleton.mp hcfg] at hrel
  obtain rfl := PyJson.str.inj hrel
  rcases hbase with hbase | habs
  · cases hbase
  · exact absurd habs (by decide)

end TargetReaderRegistry

end EngramDB
