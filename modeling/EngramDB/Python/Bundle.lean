import EngramDB.Python.Json
import EngramDB.Python.PleMemory

/-!
# Bundle manifests

A bundle manifest names the storage of a memory, a store or a view with a slot index, and the shape
of its records. `validate` lists what is wrong with a manifest, and `openMemory` opens the storage
of one without errors and makes a `PleMemory` of it.

`validate` looks for the keys and not at the values, and it asks for one of `num_heads` and
`ngram_size` while the other is filled in with a default that need not fit.

The entries that neither of them reads (`id`, `readers`) are left out, and so is the value of
`scale`.
-/

namespace EngramDB

/-- A pure POSIX path. -/
structure PurePath where
  /-- The root: nothing, one slash or two. -/
  root : String
  /-- The names. -/
  parts : List String

namespace PurePath

/-- `Path(s)`: empty names and dots are dropped. -/
def ofString (s : String) : PurePath where
  root :=
    match s.toList with
    | '/' :: '/' :: '/' :: _ => "/"
    | '/' :: '/' :: _ => "//"
    | '/' :: _ => "/"
    | _ => ""
  parts := ((s.toList.splitOn '/').map String.ofList).filter fun name => name ≠ "" ∧ name ≠ "."

/-- `str(path)`. -/
def toText (p : PurePath) : String :=
  if p.root = "" ∧ p.parts = [] then "." else p.root ++ "/".intercalate p.parts

/-- `path.is_absolute()`. -/
def isAbsolute (p : PurePath) : Bool := p.root ≠ ""

/-- `base / p`. -/
def join (base p : PurePath) : PurePath :=
  if p.isAbsolute then p else ⟨base.root, base.parts ++ p.parts⟩

end PurePath

/-- What is wrong with a manifest. -/
inductive ManifestError where
  /-- No schema. -/
  | missingSchema
  /-- A schema of another kind. -/
  | unsupportedSchema (schema : PyJson)
  /-- Neither a store nor a view. -/
  | memoryType
  /-- A store without a key. -/
  | storeMissing (key : String)
  /-- A view without a path. -/
  | viewMissingPath
  /-- A slot index without a path. -/
  | slotIndexMissingPath
  /-- A view without an index that is not read in sequence. -/
  | viewRequiresIndex
  /-- No embedding size. -/
  | pleMissingEmbedDim
  /-- No number of heads and no n-gram size. -/
  | pleMissingHeads

/-- The text of an error, for the `str` of values. -/
def ManifestError.message (str : PyJson → String) : ManifestError → String
  | missingSchema => "missing schema"
  | unsupportedSchema schema => s!"unsupported schema: {str schema}"
  | memoryType => "memory.type must be 'store' or 'view'"
  | storeMissing key => s!"memory.store missing {key}"
  | viewMissingPath => "memory.view missing path"
  | slotIndexMissingPath => "memory.slot_index missing path"
  | viewRequiresIndex => "memory.view requires slot_index or sequential_view=true"
  | pleMissingEmbedDim => "ple missing ple_embed_dim"
  | pleMissingHeads => "ple missing num_heads or ngram_size"

/-- A parsed manifest. -/
structure BundleManifest where
  /-- The document. -/
  data : List (String × PyJson)
  /-- The directory that relative paths start from. -/
  baseDir : Option String

namespace BundleManifest

variable {σ : Type}

/-- What opens the storage, and `str` of a value. -/
structure Host (σ : Type) where
  /-- `str(value)`. -/
  str : PyJson → String
  /-- `Store(path, shards, rows_per_shard, width)`. -/
  openStore : String → ℤ → ℤ → ℤ → Py (PyStore σ)
  /-- `View(path)`. -/
  openView : String → Py (PyView σ)
  /-- `SlotIndex.load(path)`. -/
  loadSlotIndex : String → Py (PyLookup σ)
  /-- `DiskSlotIndex(path)`. -/
  openDiskSlotIndex : String → Py (PyLookup σ)

/-- The schema. -/
def schema (m : BundleManifest) : PyJson := (m.data.lookup "schema").getD .none

/-- The section of the storage. -/
def memory (m : BundleManifest) : PyJson := (m.data.lookup "memory").getD (.dict [])

/-- The section of the records. -/
def ple (m : BundleManifest) : PyJson := (m.data.lookup "ple").getD (.dict [])

/-- A path of the manifest, from the base directory on. -/
def resolvePath (m : BundleManifest) : PyJson → Py (Option PurePath)
  | .none => .ok none
  | .str rel =>
    let p := PurePath.ofString rel
    match m.baseDir with
    | some base => .ok (some (if p.isAbsolute then p else (PurePath.ofString base).join p))
    | none => .ok (some p)
  | v => .error (.typeError s!"expected str, bytes or os.PathLike object, not {v.typeName}")

/-- `str(path)` of a path or `None`. -/
def pathText (path : Option PurePath) : String := path.elim "None" PurePath.toText

/-! ### Validation -/

/-- The errors of the schema. The text of a value that is not a string never starts with a small
letter. -/
def schemaErrors (schema : PyJson) : List ManifestError :=
  if !schema.truthy then [.missingSchema]
  else
    match schema with
    | .str s =>
      if "engramdb-bundle-".toList.isPrefixOf s.toList then [] else [.unsupportedSchema schema]
    | _ => [.unsupportedSchema schema]

/-- The keys that a store needs. -/
def storeKeys : List String := ["path", "shards", "rows_per_shard", "width"]

/-- The errors of a store. -/
def storeErrors (mem : PyJson) : Py (List ManifestError) := do
  let store ← mem.getD "store" (.dict [])
  let errors ← storeKeys.mapM fun key => do
    let hasKey ← store.contains key
    pure (if hasKey then [] else [ManifestError.storeMissing key])
  pure errors.flatten

/-- `mem.get("sequential_view") or mem.get("sequential")`, as a truth value. -/
def sequential (mem : PyJson) : Py Bool := do
  let sequentialView ← mem.get "sequential_view"
  let sequential ← mem.get "sequential"
  pure (sequentialView.truthy || sequential.truthy)

/-- The errors of the slot index of a view. -/
def slotErrors (mem slot : PyJson) : Py (List ManifestError) :=
  if slot.isNone then do
    let sequential ← sequential mem
    pure (if sequential then [] else [.viewRequiresIndex])
  else do
    let hasPath ← slot.contains "path"
    pure (if hasPath then [] else [.slotIndexMissingPath])

/-- The errors of a view. -/
def viewErrors (mem : PyJson) : Py (List ManifestError) := do
  let view ← mem.getD "view" (.dict [])
  let hasPath ← view.contains "path"
  let slot ← mem.get "slot_index"
  let slotErrors ← slotErrors mem slot
  pure ((if hasPath then [] else [.viewMissingPath]) ++ slotErrors)

/-- The errors of the storage. -/
def memoryErrors (mem : PyJson) : Py (List ManifestError) := do
  let mtype ← mem.get "type"
  if mtype.isStr "store" then storeErrors mem
  else if mtype.isStr "view" then viewErrors mem
  else pure [.memoryType]

/-- The errors of the records. -/
def pleErrors (ple : PyJson) : Py (List ManifestError) := do
  let hasDim ← ple.contains "ple_embed_dim"
  let hasHeads ← ple.contains "num_heads"
  let hasNgram ← ple.contains "ngram_size"
  pure ((if hasDim then [] else [.pleMissingEmbedDim]) ++
    if hasHeads || hasNgram then [] else [.pleMissingHeads])

/-- `validate`. -/
def validate (m : BundleManifest) : Py (List ManifestError) := do
  let memory ← memoryErrors m.memory
  let ple ← pleErrors m.ple
  pure (schemaErrors m.schema ++ memory ++ ple)

/-! ### Opening -/

/-- The keyword arguments that do not name the storage. The lists are converted by the
constructor. -/
structure Kwargs where
  /-- `head_dim`. -/
  headDim : ℤ
  /-- `num_heads`. -/
  numHeads : ℤ
  /-- `ngram_size`. -/
  ngramSize : ℤ
  /-- `heads_per_ngram`. -/
  headsPerNgram : ℤ
  /-- `eos`. -/
  eos : ℤ
  /-- `multipliers`. -/
  multipliers : PyJson
  /-- `prime_sizes`. -/
  primeSizes : PyJson
  /-- `offsets`. -/
  offsets : PyJson
  /-- `sequential_view`. -/
  sequentialView : Bool
  /-- `start_slot`. -/
  startSlot : ℤ

/-- The head size: `head_dim`, or the embedding size divided among the heads. -/
def headDimOf (ple : PyJson) (numHeads : ℤ) : Py ℤ := do
  let headDim ← ple.get "head_dim"
  if headDim.truthy then headDim.toInt
  else do
    let embedDim ← ple.get "ple_embed_dim"
    let embedDim ← embedDim.toInt
    Py.floorDiv embedDim numHeads

/-- `float(ple_cfg.get("scale") or 1.0)`, without the number. -/
def checkScale (ple : PyJson) : Py Unit := do
  let scale ← ple.get "scale"
  if scale.truthy then scale.checkFloat else pure ()

/-- The keyword arguments of a manifest. -/
def kwargs (m : BundleManifest) : Py Kwargs := do
  let ngramSize ← m.ple.intOr "ngram_size" 3
  let headsPerNgram ← m.ple.intOr "heads_per_ngram" 8
  let numHeads ← m.ple.intOr "num_heads" ((ngramSize - 1) * headsPerNgram)
  let headDim ← headDimOf m.ple numHeads
  checkScale m.ple
  let eos ← m.ple.intOr "eos" 248044
  let multipliers ← m.ple.get "multipliers"
  let primeSizes ← m.ple.get "prime_sizes"
  let offsets ← m.ple.get "offsets"
  let sequentialView ← sequential m.memory
  let startSlot ← m.memory.intOr "start_slot" 0
  pure {
    headDim, numHeads, ngramSize, headsPerNgram, eos, multipliers, primeSizes,
      offsets, sequentialView,
    startSlot }

/-- The arguments of `Store`. -/
def storeArgs (m : BundleManifest) : Py (String × ℤ × ℤ × ℤ) := do
  let cfg ← m.memory.item "store"
  let path ← cfg.item "path"
  let path ← m.resolvePath path
  let shards ← cfg.item "shards"
  let shards ← shards.toInt
  let rowsPerShard ← cfg.item "rows_per_shard"
  let rowsPerShard ← rowsPerShard.toInt
  let width ← cfg.item "width"
  let width ← width.toInt
  pure (pathText path, shards, rowsPerShard, width)

/-- The argument of `View`. -/
def viewPath (m : BundleManifest) : Py String := do
  let cfg ← m.memory.item "view"
  let path ← cfg.item "path"
  let path ← m.resolvePath path
  pure (pathText path)

/-- The slot index, if there is one: whether it is loaded into memory, and its path. The text of a
type that is not a string is not `memory`. -/
def slotIndexArgs (m : BundleManifest) : Py (Option (Bool × String)) := do
  let cfg ← m.memory.get "slot_index"
  if cfg.truthy then do
    let path ← cfg.item "path"
    let path ← m.resolvePath path
    let slotType ← cfg.get "type"
    let inMemory :=
      slotType.isStr "memory" || path.any fun p => ".npz".toList.isSuffixOf p.toText.toList
    pure (some (inMemory, pathText path))
  else pure none

/-- Open a slot index. -/
def openSlotIndex (host : Host σ) : Option (Bool × String) → Py (Option (PyLookup σ))
  | none => .ok none
  | some (true, path) => (host.loadSlotIndex path).map some
  | some (false, path) => (host.openDiskSlotIndex path).map some

end BundleManifest

namespace PleMemory

variable {σ : Type}

/-- The checks of the constructor that come before its lists are converted. -/
def checkShape (args : Args σ) : Py Unit := do
  let source ← chosenSource args
  let headDim ← chosenHeadDim args source
  let numHeads := intOr args.numHeads 16
  let ngramSize := intOr args.ngramSize 3
  let headsPerNgram := intOr args.headsPerNgram 8
  if 0 < headDim then
    if 2 ≤ ngramSize then
      if numHeads = (ngramSize - 1) * headsPerNgram then pure ()
      else
        throw (.valueError (s!"num_heads={numHeads} does not match ngram_size={ngramSize} "
          ++ s!"* heads_per_ngram={headsPerNgram} => {(ngramSize - 1) * headsPerNgram}"))
    else throw (.valueError "ngram_size must be >= 2")
  else throw (.valueError "head_dim must be positive")

/-- The constructor, for lists that are still to be converted. -/
def newOf (args : Args σ) (multipliers primeSizes offsets : PyJson) : Py (PleMemory σ) := do
  checkShape args
  let multipliers ← multipliers.toInts
  let primeSizes ← primeSizes.toInts
  let offsets ← offsets.toInts
  new { args with multipliers, primeSizes, offsets }

section Checks

variable {args : Args σ} {headDim : ℤ}

/-- What the constructor asks of a shape. -/
structure ShapeFits (ngramSize headsPerNgram numHeads headDim : ℤ) : Prop where
  /-- A head has bytes. -/
  headDim_pos : 0 < headDim
  /-- An n-gram has two tokens. -/
  two_le_ngramSize : 2 ≤ ngramSize
  /-- Every n-gram order has its heads. -/
  numHeads_eq : numHeads = (ngramSize - 1) * headsPerNgram

/-- The shape of the arguments. -/
def Args.Shaped (args : Args σ) (headDim : ℤ) : Prop :=
  ShapeFits (intOr args.ngramSize 3) (intOr args.headsPerNgram 8) (intOr args.numHeads 16) headDim

/-- Table sizes, given or derived. -/
def Args.sizes (args : Args σ) : List ℤ :=
  args.primeSizes.getD (PleMath.headVocabSizes PleMath.PLE_BASE (intOr args.numHeads 16).toNat)

/-- The constructor returns when the shape fits and every head has a table size and an offset. -/
private theorem exists_new_iff (hdim : args.headDim = some headDim)
    (hsource : args.store.isSome ≠ args.view.isSome)
    (hindexed : ¬ (args.view.isSome ∧ args.slotIndex.isNone ∧ ¬ args.sequentialView)) :
    (∃ mem, new args = .ok mem) ↔
      args.Shaped headDim ∧ (args.sizes.length : ℤ) = intOr args.numHeads 16 ∧
      ((args.offsets.getD (PleMath.headOffsets (some args.sizes))).length : ℤ) =
        intOr args.numHeads 16 := by
  obtain ⟨store, view, slotIndex, _⟩ := args
  obtain rfl := hdim
  dsimp only at hsource hindexed
  rcases store with _ | store <;> rcases view with _ | view
  any_goals exact absurd rfl hsource
  -- a view alone, or a store alone: the checks one after another
  all_goals
    unfold new
    simp only [pure_bind, Except.exists_dite_throw_eq_ok_iff, if_neg hindexed]
    constructor
    · rintro ⟨hpos, hngram, hheads, hsizes, hoffsets, -⟩
      exact ⟨⟨hpos, hngram, hheads⟩, hsizes, hoffsets⟩
    · rintro ⟨⟨hpos, hngram, hheads⟩, hsizes, hoffsets⟩
      exact ⟨hpos, hngram, hheads, hsizes, hoffsets, _, rfl⟩

/-- The checks of the shape pass exactly when it fits. -/
private theorem checkShape_eq_ok_iff (hdim : args.headDim = some headDim)
    (hsource : args.store.isSome ≠ args.view.isSome) : checkShape args = .ok () ↔
      args.Shaped headDim := by
  obtain ⟨store, view, slotIndex, _⟩ := args
  obtain rfl := hdim
  rcases store with _ | store <;> rcases view with _ | view
  any_goals exact absurd rfl hsource
  all_goals
    unfold checkShape
    simp only [chosenSource, chosenHeadDim, Except.ok_bind, Except.ite_throw_eq_ok_iff]
    constructor
    · rintro ⟨hpos, hngram, hheads, -⟩
      exact ⟨hpos, hngram, hheads⟩
    · rintro ⟨hpos, hngram, hheads⟩
      exact ⟨hpos, hngram, hheads, rfl⟩

/-- A list that is not given, or as many integers as there are heads. -/
def ListFits (list : PyJson) (numHeads : ℤ) : Prop :=
  ∃ ns, list.toInts = .ok ns ∧ ∀ l, ns = some l → (l.length : ℤ) = numHeads

private theorem length_headOffsets {sizes : List ℤ} (h : sizes ≠ []) :
    (PleMath.headOffsets (some sizes)).length = sizes.length := by
  rw [PleMath.headOffsets, Py.orDefault_some h, runningOffsets, List.length_scanl,
    List.length_dropLast]
  have := List.length_pos_iff.mpr h
  omega

/-- The heads of a shape are not zero. -/
private theorem intOr_ne_zero (numHeads : Option ℤ) : intOr numHeads 16 ≠ 0 := by
  unfold intOr
  split
  · split_ifs with h
    · decide
    · exact h
  · decide

/-- Table sizes and offsets that are derived are as many as the heads, if there are heads. -/
theorem lengths_iff {sizes offsets : Option (List ℤ)} {numHeads : ℤ} (hne : numHeads ≠ 0) :
    ((sizes.getD (PleMath.headVocabSizes PleMath.PLE_BASE numHeads.toNat)).length : ℤ) = numHeads ∧
      ((offsets.getD (PleMath.headOffsets (some (sizes.getD
        (PleMath.headVocabSizes PleMath.PLE_BASE numHeads.toNat))))).length : ℤ) = numHeads ↔
    0 < numHeads ∧ (∀ l, sizes = some l → (l.length : ℤ) = numHeads) ∧
      ∀ l, offsets = some l → (l.length : ℤ) = numHeads := by
  -- a table that is derived has as many heads as the count, if it is not negative
  have hderived :
      (PleMath.headVocabSizes PleMath.PLE_BASE numHeads.toNat).length = numHeads.toNat := by
    rw [PleMath.headVocabSizes, List.length_map, List.length_range]
  constructor
  · rintro ⟨hsizes, hoffsets⟩
    refine ⟨by omega, ?_, ?_⟩
    · rintro l rfl
      exact hsizes
    · rintro l rfl
      exact hoffsets
  · rintro ⟨hpos, hsizes, hoffsets⟩
    have hlen : ((sizes.getD
        (PleMath.headVocabSizes PleMath.PLE_BASE numHeads.toNat)).length : ℤ) = numHeads := by
      cases sizes with
      | none =>
        rw [Option.getD_none, hderived]
        exact Int.toNat_of_nonneg (Int.le_of_lt hpos)
      | some l => exact hsizes l rfl
    refine ⟨hlen, ?_⟩
    cases offsets with
    | none =>
      rw [Option.getD_none, length_headOffsets]
      · exact hlen
      · exact List.ne_nil_of_length_pos (by omega)
    | some l => exact hoffsets l rfl

/-- The constructor, for a shape and lists that are still to be converted, returns exactly when the
shape fits, there are heads, the multipliers are integers, and the table sizes and the offsets are
as many as the heads. -/
theorem exists_newOf_iff {multipliers primeSizes offsets : PyJson}
    (hdim : args.headDim = some headDim) (hsource : args.store.isSome ≠ args.view.isSome)
    (hindexed : ¬ (args.view.isSome ∧ args.slotIndex.isNone ∧ ¬ args.sequentialView)) :
    (∃ mem, newOf args multipliers primeSizes offsets = .ok mem) ↔
      args.Shaped headDim ∧ 0 < intOr args.numHeads 16 ∧ (∃ ns, multipliers.toInts = .ok ns) ∧
        ListFits primeSizes (intOr args.numHeads 16) ∧
          ListFits offsets (intOr args.numHeads 16) := by
  have hne := intOr_ne_zero args.numHeads
  have hnew := fun ms ps os => @exists_new_iff σ
    { args with multipliers := ms, primeSizes := ps, offsets := os } headDim hdim hsource hindexed
  unfold newOf
  simp only [Except.exists_bind_eq_ok_iff]
  constructor
  · rintro ⟨-, -, ms, hms, ps, hps, os, hos, hmem⟩
    obtain ⟨hshape, hlengths⟩ := (hnew ms ps os).mp hmem
    obtain ⟨hpos, hsizes, hoffsets⟩ := (lengths_iff hne).mp hlengths
    exact ⟨hshape, hpos, ⟨ms, hms⟩, ⟨ps, hps, hsizes⟩, ⟨os, hos, hoffsets⟩⟩
  · rintro ⟨hshape, hpos, ⟨ms, hms⟩, ⟨ps, hps, hsizes⟩, ⟨os, hos, hoffsets⟩⟩
    refine ⟨(), (checkShape_eq_ok_iff hdim hsource).mpr hshape, ms, hms, ps, hps, os, hos, ?_⟩
    exact (hnew ms ps os).mpr ⟨hshape, (lengths_iff hne).mpr ⟨hpos, hsizes, hoffsets⟩⟩

end Checks

end PleMemory

namespace BundleManifest

variable {σ : Type}

/-- The memory of a storage. -/
def makeMemory (kwargs : Kwargs) (store : Option (PyStore σ)) (view : Option (PyView σ))
    (slotIndex : Option (PyLookup σ)) : Py (PleMemory σ) :=
  PleMemory.newOf {
    store, view, slotIndex
    headDim :=
      some kwargs.headDim, numHeads := some kwargs.numHeads, ngramSize := some kwargs.ngramSize
    headsPerNgram := some kwargs.headsPerNgram, eos := some kwargs.eos
    sequentialView := kwargs.sequentialView, startSlot := kwargs.startSlot }
    kwargs.multipliers kwargs.primeSizes kwargs.offsets

/-- `open_memory` behind its check of the manifest. -/
def openValid (host : Host σ) (m : BundleManifest) : Py (PleMemory σ) := do
  let kwargs ← m.kwargs
  let mtype ← m.memory.get "type"
  if mtype.isStr "store" then do
    let args ← m.storeArgs
    let store ← host.openStore args.1 args.2.1 args.2.2.1 args.2.2.2
    -- a store bundle has no slot index
    makeMemory kwargs (some store) none none
  else do
    let path ← m.viewPath
    let view ← host.openView path
    let slotArgs ← m.slotIndexArgs
    let slotIndex ← openSlotIndex host slotArgs
    makeMemory kwargs none (some view) slotIndex

/-- `open_memory`. -/
def openMemory (host : Host σ) (m : BundleManifest) : Py (PleMemory σ) := do
  let errors ← m.validate
  if errors.isEmpty then openValid host m
  else
    throw (.valueError ("invalid bundle manifest: " ++
      "; ".intercalate (errors.map (ManifestError.message host.str))))

end BundleManifest

end EngramDB
