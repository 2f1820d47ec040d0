import EngramDB.Python.Bundle

/-!
# Which valid manifests open

A manifest without errors whose storage opens makes a memory exactly when it is consistent
(`opens_iff`): its sections are dictionaries, what is read as an integer converts, and the shape
that it states, with the defaults filled in, fits. The validator asks for none of this but for the
keys.
-/

namespace EngramDB

/-- The value is a path or `None`. -/
def PyJson.IsPath (v : PyJson) : Prop := v = .none ∨ ∃ s, v = .str s

namespace BundleManifest

open PleMemory (ShapeFits ListFits)

variable {σ : Type}

/-- The storage that the manifest names opens. -/
structure Opens (host : Host σ) (m : BundleManifest) : Prop where
  /-- The store. -/
  store : ∀ path shards rowsPerShard width, m.storeArgs = .ok (path, shards, rowsPerShard, width) →
    ∃ store, host.openStore path shards rowsPerShard width = .ok store
  /-- The view. -/
  view : ∀ path, m.viewPath = .ok path → ∃ view, host.openView path = .ok view
  /-- The slot index. -/
  slotIndex : ∀ args, m.slotIndexArgs = .ok args →
    ∃ slotIndex, openSlotIndex host args = .ok slotIndex

/-- The shape that the records state, with the defaults of `open_memory`. -/
structure StatesShape (ple : PyJson) (ngramSize headsPerNgram numHeads headDim : ℤ) : Prop where
  /-- `ngram_size`, or three. -/
  ngramSize_eq : ple.intOr "ngram_size" 3 = .ok ngramSize
  /-- `heads_per_ngram`, or eight. -/
  headsPerNgram_eq : ple.intOr "heads_per_ngram" 8 = .ok headsPerNgram
  /-- `num_heads`, or the heads of all n-gram orders. -/
  numHeads_eq : ple.intOr "num_heads" ((ngramSize - 1) * headsPerNgram) = .ok numHeads
  /-- `head_dim`, or the embedding size divided among the heads. -/
  headDim_eq : headDimOf ple numHeads = .ok headDim

/-- The records state a shape that fits, with a zero read as the default of the constructor. The
table sizes and the offsets are as many as the heads if they are given, and all that is read as a
number is one. -/
structure PleConsistent (ple : PyJson) : Prop where
  /-- The shape fits. -/
  shape : ∃ ngramSize headsPerNgram numHeads headDim,
    StatesShape ple ngramSize headsPerNgram numHeads headDim ∧
    ShapeFits (PleMemory.intOr (some ngramSize) 3) (PleMemory.intOr (some headsPerNgram) 8)
      (PleMemory.intOr (some numHeads) 16) headDim ∧
    0 < PleMemory.intOr (some numHeads) 16 ∧
    ListFits (ple.field "prime_sizes") (PleMemory.intOr (some numHeads) 16) ∧
    ListFits (ple.field "offsets") (PleMemory.intOr (some numHeads) 16)
  /-- The scale is a number. -/
  scale : checkScale ple = .ok ()
  /-- The separator is an integer. -/
  eos : ∃ eos, ple.intOr "eos" 248044 = .ok eos
  /-- The multipliers are integers. -/
  multipliers : ∃ ns, (ple.field "multipliers").toInts = .ok ns

/-- A store: a dictionary with a path and three integers. -/
structure StoreConsistent (store : PyJson) : Prop where
  /-- The section is a dictionary. -/
  isDict : store.IsDict
  /-- The path. -/
  path : (store.field "path").IsPath
  /-- The integers. -/
  isInt : ∀ key ∈ ["shards", "rows_per_shard", "width"], (store.field key).IsInt

/-- A section with a path. -/
structure PathConsistent (cfg : PyJson) : Prop where
  /-- The section is a dictionary. -/
  isDict : cfg.IsDict
  /-- The path. -/
  path : (cfg.field "path").IsPath

/-- What a valid manifest needs in order to open. -/
structure Consistent (m : BundleManifest) : Prop where
  /-- The records. -/
  ple : PleConsistent m.ple
  /-- The first slot is an integer. -/
  startSlot : ∃ slot, m.memory.intOr "start_slot" 0 = .ok slot
  /-- The store, if there is one. -/
  store : (m.memory.field "type").isStr "store" = true → StoreConsistent (m.memory.field "store")
  /-- The view, if there is one. -/
  view : (m.memory.field "type").isStr "view" = true → PathConsistent (m.memory.field "view")
  /-- The slot index of a view, if there is one. -/
  slotIndex : (m.memory.field "type").isStr "view" = true → m.memory.field "slot_index" ≠ .none →
    PathConsistent (m.memory.field "slot_index")

variable {m : BundleManifest} {mem : PyJson} {host : Host σ}

/-! ### What the validator has found -/

/-- A check that appends an error has found none if there are none. -/
theorem eq_true_of_errors_eq_nil {b : Bool} {e : ManifestError} (h : (if b then [] else [e]) = []) :
    b = true := by
  cases b with
  | false => cases h
  | true => rfl

/-- A store section in which the validation finds no error (`h`) has an object with all the keys
that are asked for. -/
private theorem item_of_storeErrors (h : storeErrors mem = .ok []) :
    ∃ store, mem.item "store" = .ok store ∧ ∀ key ∈ storeKeys, store.contains key = .ok true := by
  obtain ⟨store, hstore, h⟩ := Except.bind_eq_ok_iff.mp h
  obtain ⟨errors, hmap, hflat⟩ := Except.bind_eq_ok_iff.mp h
  have hnil : ∀ e ∈ errors, e = [] := List.flatten_eq_nil_iff.mp (Except.ok.inj hflat)
  have hkeys : ∀ key ∈ storeKeys, store.contains key = .ok true := by
    intro key hkey
    obtain ⟨e, he, hok⟩ := Except.exists_mem_of_mapM_eq_ok hmap key hkey
    obtain ⟨b, hb, hok⟩ := Except.bind_eq_ok_iff.mp hok
    rw [hnil e he] at hok
    rwa [eq_true_of_errors_eq_nil (Except.ok.inj hok)] at hb
  exact ⟨store, PyJson.item_of_getD hstore (hkeys "path" (by decide)), hkeys⟩

/-- A view without errors has a path, and a slot index with a path unless it is read in sequence. -/
private theorem item_of_viewErrors (h : viewErrors mem = .ok []) :
    (∃ view, mem.item "view" = .ok view ∧ view.contains "path" = .ok true) ∧
      (mem.field "slot_index" = .none → sequential mem = .ok true) ∧
      (mem.field "slot_index" ≠ .none → (mem.field "slot_index").contains "path" = .ok true) := by
  obtain ⟨view, hview, h⟩ := Except.bind_eq_ok_iff.mp h
  obtain ⟨hasPath, hpath, h⟩ := Except.bind_eq_ok_iff.mp h
  obtain ⟨slot, hslot, h⟩ := Except.bind_eq_ok_iff.mp h
  obtain ⟨errors, herrors, h⟩ := Except.bind_eq_ok_iff.mp h
  obtain ⟨hpathErrors, rfl⟩ := List.append_eq_nil_iff.mp (Except.ok.inj h)
  obtain rfl := eq_true_of_errors_eq_nil hpathErrors
  obtain ⟨-, rfl⟩ := PyJson.get_eq_ok_iff.mp hslot
  refine ⟨⟨view, PyJson.item_of_getD hview hpath, hpath⟩, fun hnone => ?_, fun hsome => ?_⟩
  · rw [hnone] at herrors
    obtain ⟨b, hb, herrors⟩ := Except.bind_eq_ok_iff.mp herrors
    rwa [eq_true_of_errors_eq_nil (Except.ok.inj herrors)] at hb
  · have hnot : (mem.field "slot_index").isNone = false := by
      cases hfield : mem.field "slot_index"
      case none => exact absurd hfield hsome
      all_goals rfl
    rw [slotErrors, hnot] at herrors
    obtain ⟨b, hb, herrors⟩ := Except.bind_eq_ok_iff.mp herrors
    rwa [eq_true_of_errors_eq_nil (Except.ok.inj herrors)] at hb

/-- A valid manifest has a store or a view without errors. -/
private theorem memory_of_validate (h : m.validate = .ok []) : m.memory.IsDict ∧
    ((m.memory.field "type").isStr "store" = true ∧ storeErrors m.memory = .ok [] ∨
      (m.memory.field "type").isStr "store" = false ∧ (m.memory.field "type").isStr "view" = true ∧
        viewErrors m.memory = .ok []) := by
  obtain ⟨memory, hmemory, h⟩ := Except.bind_eq_ok_iff.mp h
  obtain ⟨ple, hple, h⟩ := Except.bind_eq_ok_iff.mp h
  obtain ⟨hnil, -⟩ := List.append_eq_nil_iff.mp (Except.ok.inj h)
  obtain ⟨-, rfl⟩ := List.append_eq_nil_iff.mp hnil
  obtain ⟨mtype, htype, hmemory⟩ := Except.bind_eq_ok_iff.mp hmemory
  obtain ⟨hdict, rfl⟩ := PyJson.get_eq_ok_iff.mp htype
  refine ⟨hdict, ?_⟩
  split_ifs at hmemory with hstore hview
  · exact .inl ⟨hstore, hmemory⟩
  · exact .inr ⟨by rwa [Bool.not_eq_true] at hstore, hview, hmemory⟩
  · cases hmemory

/-! ### What `open_memory` reads -/

theorem exists_resolvePath_iff {v : PyJson} : (∃ path, m.resolvePath v = .ok path) ↔ v.IsPath := by
  constructor
  · rintro ⟨path, hpath⟩
    cases v
    case none => exact .inl rfl
    case str s => exact .inr ⟨s, rfl⟩
    all_goals cases hpath
  · rintro (rfl | ⟨s, rfl⟩)
    · exact ⟨none, rfl⟩
    · unfold resolvePath
      cases m.baseDir <;> exact ⟨_, rfl⟩

/-- The arguments of the store can be read exactly when the section is consistent. -/
private theorem exists_storeArgs_iff {store : PyJson} (hstore : m.memory.item "store" = .ok store)
    (hkeys : ∀ key ∈ storeKeys, store.contains key = .ok true) :
    (∃ args, m.storeArgs = .ok args) ↔ StoreConsistent store := by
  unfold storeArgs
  rw [hstore, Except.ok_bind]
  simp only [Except.exists_bind_eq_ok_iff]
  constructor
  · rintro ⟨path, hpath, p, hp, shards, hshards, a, ha, rows, hrows, b, hb, width, hwidth, c, hc, -⟩
    obtain ⟨hdict, -, rfl⟩ := PyJson.item_eq_ok_iff.mp hpath
    obtain ⟨-, -, rfl⟩ := PyJson.item_eq_ok_iff.mp hshards
    obtain ⟨-, -, rfl⟩ := PyJson.item_eq_ok_iff.mp hrows
    obtain ⟨-, -, rfl⟩ := PyJson.item_eq_ok_iff.mp hwidth
    refine ⟨hdict, exists_resolvePath_iff.mp ⟨p, hp⟩, fun key hkey => ?_⟩
    simp only [List.mem_cons, List.not_mem_nil, or_false] at hkey
    rcases hkey with rfl | rfl | rfl
    exacts [⟨a, ha⟩, ⟨b, hb⟩, ⟨c, hc⟩]
  · rintro ⟨hdict, hpath, hints⟩
    have hitem : ∀ key ∈ storeKeys, store.item key = .ok (store.field key) := fun key hkey =>
      PyJson.item_eq_ok_iff.mpr ⟨hdict, hkeys key hkey, rfl⟩
    obtain ⟨p, hp⟩ := exists_resolvePath_iff.mpr hpath
    obtain ⟨a, ha⟩ := hints "shards" (by decide)
    obtain ⟨b, hb⟩ := hints "rows_per_shard" (by decide)
    obtain ⟨c, hc⟩ := hints "width" (by decide)
    exact ⟨_, hitem "path" (by decide), p, hp, _, hitem "shards" (by decide), a, ha,
      _, hitem "rows_per_shard" (by decide), b, hb, _, hitem "width" (by decide), c, hc, _, rfl⟩

/-- For a section that has a path (`hcontains`), the path can be taken out and resolved iff the
section is consistent: it is a dictionary, and its path is one. -/
theorem exists_path_iff {cfg : PyJson} (hcontains : cfg.contains "path" = .ok true) :
    (∃ path, cfg.item "path" = .ok path ∧ ∃ p, m.resolvePath path = .ok p) ↔
      PathConsistent cfg := by
  constructor
  · rintro ⟨path, hpath, hp⟩
    obtain ⟨hdict, -, rfl⟩ := PyJson.item_eq_ok_iff.mp hpath
    exact ⟨hdict, exists_resolvePath_iff.mp hp⟩
  · rintro ⟨hdict, hpath⟩
    exact ⟨_, PyJson.item_eq_ok_iff.mpr ⟨hdict, hcontains, rfl⟩, exists_resolvePath_iff.mpr hpath⟩

/-- The path of the view can be read exactly when the section is consistent. -/
private theorem exists_viewPath_iff {view : PyJson} (hview : m.memory.item "view" = .ok view)
    (hcontains : view.contains "path" = .ok true) : (∃ path, m.viewPath = .ok path) ↔
      PathConsistent view := by
  unfold viewPath
  rw [hview, Except.ok_bind, ← exists_path_iff (m := m) hcontains]
  simp only [Except.exists_bind_eq_ok_iff]
  constructor
  · rintro ⟨path, hpath, p, hp, -⟩
    exact ⟨path, hpath, p, hp⟩
  · rintro ⟨path, hpath, p, hp⟩
    exact ⟨path, hpath, p, hp, _, rfl⟩

/-- A value that has the entry `path` (`h`) is not empty and counts as true. -/
theorem truthy_of_contains {v : PyJson} (h : v.contains "path" = .ok true) : v.truthy = true := by
  cases v
  case str s =>
    refine decide_eq_true fun hs => ?_
    rw [hs] at h
    cases h
  case list xs =>
    cases xs with
    | nil => cases h
    | cons x xs => rfl
  case dict entries =>
    cases entries with
    | nil => cases h
    | cons e es => rfl
  all_goals cases h

/-- The slot index of a valid view can be read exactly when there is none or its section is
consistent. -/
private theorem exists_slotIndexArgs_iff (hdict : m.memory.IsDict)
    (hcontains : m.memory.field "slot_index" ≠ .none →
      (m.memory.field "slot_index").contains "path" = .ok true) :
    (∃ args, m.slotIndexArgs = .ok args) ↔
      (m.memory.field "slot_index" ≠ .none → PathConsistent (m.memory.field "slot_index")) := by
  unfold slotIndexArgs
  rw [hdict.get_eq, Except.ok_bind]
  by_cases hnone : m.memory.field "slot_index" = .none
  · rw [hnone]
    exact iff_of_true ⟨none, rfl⟩ fun h => absurd rfl h
  · rw [if_pos (truthy_of_contains (hcontains hnone)), forall_prop_of_true hnone,
      ← exists_path_iff (m := m) (hcontains hnone)]
    simp only [Except.exists_bind_eq_ok_iff]
    constructor
    · rintro ⟨path, hpath, p, hp, -⟩
      exact ⟨path, hpath, p, hp⟩
    · rintro ⟨path, hpath, p, hp⟩
      obtain ⟨hcfg, -, -⟩ := PyJson.item_eq_ok_iff.mp hpath
      exact ⟨path, hpath, p, hp, _, hcfg.get_eq "type", _, rfl⟩

/-- No slot index is opened exactly when none is named. -/
private theorem slotIndexArgs_eq_none_iff (hdict : m.memory.IsDict)
    (hcontains : m.memory.field "slot_index" ≠ .none →
      (m.memory.field "slot_index").contains "path" = .ok true) :
    m.slotIndexArgs = .ok none → m.memory.field "slot_index" = .none := by
  intro h
  by_contra hnone
  unfold slotIndexArgs at h
  rw [hdict.get_eq, Except.ok_bind, if_pos (truthy_of_contains (hcontains hnone))] at h
  obtain ⟨path, -, h⟩ := Except.bind_eq_ok_iff.mp h
  obtain ⟨p, -, h⟩ := Except.bind_eq_ok_iff.mp h
  obtain ⟨slotType, -, h⟩ := Except.bind_eq_ok_iff.mp h
  cases h

/-- The keyword arguments, one after another. -/
theorem kwargs_eq_ok_iff {k : Kwargs} : m.kwargs = .ok k ↔
    StatesShape m.ple k.ngramSize k.headsPerNgram k.numHeads k.headDim ∧ checkScale m.ple = .ok () ∧
      m.ple.intOr "eos" 248044 = .ok k.eos ∧ m.ple.get "multipliers" = .ok k.multipliers ∧
      m.ple.get "prime_sizes" = .ok k.primeSizes ∧ m.ple.get "offsets" = .ok k.offsets ∧
      sequential m.memory = .ok k.sequentialView ∧
        m.memory.intOr "start_slot" 0 = .ok k.startSlot := by
  unfold kwargs
  simp only [Except.bind_eq_ok_iff]
  constructor
  · rintro ⟨n, hn, h, hh, heads, hheads, dim, hdim, ⟨⟩, hscale, eos, heos, ms, hms, ps, hps,
      os, hos, seq, hseq, slot, hslot, hk⟩
    cases hk
    exact ⟨⟨hn, hh, hheads, hdim⟩, hscale, heos, hms, hps, hos, hseq, hslot⟩
  · rintro ⟨⟨hn, hh, hheads, hdim⟩, hscale, heos, hms, hps, hos, hseq, hslot⟩
    exact ⟨_, hn, _, hh, _, hheads, _, hdim, (), hscale, _, heos, _, hms, _, hps, _, hos, _,
      hseq, _, hslot, rfl⟩

private theorem exists_sequential (hdict : mem.IsDict) : ∃ b, sequential mem = .ok b := by
  unfold sequential
  rw [hdict.get_eq, hdict.get_eq]
  exact ⟨_, rfl⟩

/-! ### What opens -/

/-- Keyword arguments that the constructor accepts. -/
structure Accepted (k : Kwargs) : Prop where
  /-- The shape fits. -/
  shape : ShapeFits (PleMemory.intOr (some k.ngramSize) 3)
    (PleMemory.intOr (some k.headsPerNgram) 8)
    (PleMemory.intOr (some k.numHeads) 16) k.headDim
  /-- There are heads. -/
  numHeads_pos : 0 < PleMemory.intOr (some k.numHeads) 16
  /-- The multipliers are integers. -/
  multipliers : ∃ ns, k.multipliers.toInts = .ok ns
  /-- Every head has a table size. -/
  primeSizes : ListFits k.primeSizes (PleMemory.intOr (some k.numHeads) 16)
  /-- Every head has an offset. -/
  offsets : ListFits k.offsets (PleMemory.intOr (some k.numHeads) 16)

theorem exists_makeMemory_iff {k : Kwargs} {store : Option (PyStore σ)} {view : Option (PyView σ)}
    {slotIndex : Option (PyLookup σ)} (hsource : store.isSome ≠ view.isSome)
    (hindexed : ¬ (view.isSome ∧ slotIndex.isNone ∧ ¬ k.sequentialView)) :
    (∃ mem, makeMemory k store view slotIndex = .ok mem) ↔ Accepted k := by
  refine (PleMemory.exists_newOf_iff rfl hsource hindexed).trans ?_
  constructor
  · rintro ⟨hshape, hpos, hms, hps, hos⟩
    exact ⟨hshape, hpos, hms, hps, hos⟩
  · rintro ⟨hshape, hpos, hms, hps, hos⟩
    exact ⟨hshape, hpos, hms, hps, hos⟩

/-- The keyword arguments are derived and accepted exactly when the records are consistent. -/
theorem exists_accepted_iff (hmem : m.memory.IsDict) : (∃ k, m.kwargs = .ok k ∧ Accepted k) ↔
    PleConsistent m.ple ∧ ∃ slot, m.memory.intOr "start_slot" 0 = .ok slot := by
  constructor
  · rintro ⟨k, hk, hshape, hpos, hms, hps, hos⟩
    obtain ⟨hstates, hscale, heos, hmultipliers, hsizes, hoffsets, -, hslot⟩ :=
      kwargs_eq_ok_iff.mp hk
    obtain ⟨-, hmultipliers⟩ := PyJson.get_eq_ok_iff.mp hmultipliers
    obtain ⟨-, hsizes⟩ := PyJson.get_eq_ok_iff.mp hsizes
    obtain ⟨-, hoffsets⟩ := PyJson.get_eq_ok_iff.mp hoffsets
    rw [hmultipliers] at hms
    rw [hsizes] at hps
    rw [hoffsets] at hos
    exact ⟨⟨⟨_, _, _, _, hstates, hshape, hpos, hps, hos⟩, hscale, ⟨_, heos⟩, hms⟩, _, hslot⟩
  · rintro ⟨⟨⟨n, h, heads, dim, hstates, hshape, hpos, hps, hos⟩, hscale, ⟨eos, heos⟩, hms⟩, slot,
      hslot⟩
    obtain ⟨hdict, -⟩ := PyJson.intOr_eq_ok_iff.mp heos
    obtain ⟨b, hb⟩ := exists_sequential hmem
    refine ⟨⟨dim, heads, n, h, eos, m.ple.field "multipliers", m.ple.field "prime_sizes",
      m.ple.field "offsets",
      b, slot⟩, kwargs_eq_ok_iff.mpr ⟨hstates, hscale, heos, ?_, ?_, ?_, hb, hslot⟩, hshape,
        hpos, hms, hps, hos⟩
    · exact hdict.get_eq "multipliers"
    · exact hdict.get_eq "prime_sizes"
    · exact hdict.get_eq "offsets"

/-- A store that opens makes a memory exactly when the records and the section of the store are
consistent. -/
private theorem exists_openValid_of_store (hopens : m.Opens host) (hmem : m.memory.IsDict)
    (htype : (m.memory.field "type").isStr "store" = true)
    (herrors : storeErrors m.memory = .ok []) :
    (∃ mem, m.openValid host = .ok mem) ↔
      (∃ k, m.kwargs = .ok k ∧ Accepted k) ∧ StoreConsistent (m.memory.field "store") := by
  obtain ⟨store, hstore, hkeys⟩ := item_of_storeErrors herrors
  obtain ⟨-, -, rfl⟩ := PyJson.item_eq_ok_iff.mp hstore
  rw [← exists_storeArgs_iff hstore hkeys]
  unfold openValid
  rw [hmem.get_eq]
  simp only [Except.exists_bind_eq_ok_iff, Except.ok_bind, if_pos htype]
  have hmake : ∀ (k : Kwargs) (store : PyStore σ),
      (∃ mem, makeMemory k (some store) none none = .ok mem) ↔ Accepted k := fun k store =>
    exists_makeMemory_iff (by simp) (by simp)
  constructor
  · rintro ⟨k, hk, args, hargs, store, -, hmade⟩
    exact ⟨⟨k, hk, (hmake k store).mp hmade⟩, args, hargs⟩
  · rintro ⟨⟨k, hk, haccepted⟩, args, hargs⟩
    obtain ⟨store, hopen⟩ := hopens.store _ _ _ _ hargs
    exact ⟨k, hk, args, hargs, store, hopen, (hmake k store).mpr haccepted⟩

/-- If opening the slot index returned none (`h`, `hnone`), then none was named in the manifest. -/
private theorem eq_none_of_openSlotIndex {args : Option (Bool × String)}
    {slotIndex : Option (PyLookup σ)}
    (h : openSlotIndex host args = .ok slotIndex) (hnone : slotIndex.isNone = true) :
    args = none := by
  have hsome : ∀ {x : Py (PyLookup σ)}, x.map some ≠ .ok slotIndex := by
    rintro (e | lookup) hx
    · cases hx
    · cases hx
      cases hnone
  match args, h with
  | none, _ => rfl
  | some (true, path), h => exact absurd h hsome
  | some (false, path), h => exact absurd h hsome

/-- A view that opens makes a memory exactly when the records and the sections of the view and the
slot index are consistent. -/
private theorem exists_openValid_of_view (hopens : m.Opens host) (hmem : m.memory.IsDict)
    (htype : (m.memory.field "type").isStr "store" = false)
    (herrors : viewErrors m.memory = .ok []) :
    (∃ mem, m.openValid host = .ok mem) ↔
      (∃ k, m.kwargs = .ok k ∧ Accepted k) ∧ PathConsistent (m.memory.field "view") ∧
        (m.memory.field "slot_index" ≠ .none → PathConsistent (m.memory.field "slot_index")) := by
  obtain ⟨⟨view, hview, hpath⟩, hseq, hslot⟩ := item_of_viewErrors herrors
  obtain ⟨-, -, rfl⟩ := PyJson.item_eq_ok_iff.mp hview
  rw [← exists_viewPath_iff hview hpath, ← exists_slotIndexArgs_iff hmem hslot]
  unfold openValid
  rw [hmem.get_eq]
  simp only [Except.exists_bind_eq_ok_iff, Except.ok_bind, htype, Bool.false_eq_true, if_false]
  -- without an index the view is read in sequence, as the validator has seen
  have hmake : ∀ (k : Kwargs), m.kwargs = .ok k →
    ∀ (view : PyView σ) args, m.slotIndexArgs = .ok args →
      ∀ slotIndex, openSlotIndex host args = .ok slotIndex →
        ((∃ mem, makeMemory k none (some view) slotIndex = .ok mem) ↔ Accepted k) := by
    intro k hk view args hargs slotIndex hindex
    refine exists_makeMemory_iff (by simp) ?_
    rintro ⟨-, hnone, hnot⟩
    rw [eq_none_of_openSlotIndex hindex hnone] at hargs
    obtain ⟨-, -, -, -, -, -, hsequential, -⟩ := kwargs_eq_ok_iff.mp hk
    rw [hseq (slotIndexArgs_eq_none_iff hmem hslot hargs)] at hsequential
    exact hnot (Except.ok.inj hsequential).symm
  constructor
  · rintro ⟨k, hk, path, hpath, view, -, args, hargs, slotIndex, hindex, hmade⟩
    exact ⟨⟨k, hk, (hmake k hk view args hargs slotIndex hindex).mp hmade⟩,
      ⟨path, hpath⟩, args, hargs⟩
  · rintro ⟨⟨k, hk, haccepted⟩, ⟨path, hpath⟩, args, hargs⟩
    obtain ⟨view, hopen⟩ := hopens.view path hpath
    obtain ⟨slotIndex, hindex⟩ := hopens.slotIndex args hargs
    exact ⟨k, hk, path, hpath, view, hopen, args, hargs, slotIndex, hindex,
      (hmake k hk view args hargs slotIndex hindex).mpr haccepted⟩

/-- A manifest in which the validation finds no error (`hvalid`), and whose storage can be opened on
the host (`hopens`), makes a memory exactly when it is consistent, which the validation does not
check. -/
theorem opens_iff (hvalid : m.validate = .ok []) (hopens : m.Opens host) :
    (∃ mem, m.openMemory host = .ok mem) ↔ m.Consistent := by
  have hopen : m.openMemory host = m.openValid host := by
    rw [openMemory, hvalid]
    rfl
  obtain ⟨hmem, hkind⟩ := memory_of_validate hvalid
  rw [hopen]
  rcases hkind with ⟨hstore, herrors⟩ | ⟨hnot, hview, herrors⟩
  · rw [exists_openValid_of_store hopens hmem hstore herrors, exists_accepted_iff hmem]
    have hnot : (m.memory.field "type").isStr "view" = false := by
      rw [PyJson.isStr_eq_true_iff.mp hstore]
      rfl
    constructor
    · rintro ⟨⟨hple, hslot⟩, hconsistent⟩
      exact ⟨hple, hslot, fun _ => hconsistent, by simp [hnot], by simp [hnot]⟩
    · rintro ⟨hple, hslot, hconsistent, -, -⟩
      exact ⟨⟨hple, hslot⟩, hconsistent hstore⟩
  · rw [exists_openValid_of_view hopens hmem hnot herrors, exists_accepted_iff hmem]
    constructor
    · rintro ⟨⟨hple, hslot⟩, hpath, hindex⟩
      exact ⟨hple, hslot, by simp [hnot], fun _ => hpath, fun _ => hindex⟩
    · rintro ⟨hple, hslot, -, hpath, hindex⟩
      exact ⟨⟨hple, hslot⟩, hpath hview, hindex hview⟩

/-- A storage of empty files. -/
def plainHost : Host Unit where
  str _ := ""
  openStore _ _ _ width := .ok ⟨.int width, fun _ => pure []⟩
  openView _ := .ok ⟨.int 0, fun _ => pure []⟩
  loadSlotIndex _ := .ok fun _ => pure 0
  openDiskSlotIndex _ := .ok fun _ => pure 0

theorem opens_plainHost (m : BundleManifest) : m.Opens plainHost where
  store _ _ _ _ _ := ⟨_, rfl⟩
  view _ _ := ⟨_, rfl⟩
  slotIndex args _ := by
    rcases args with _ | ⟨inMemory, path⟩
    · exact ⟨none, rfl⟩
    · cases inMemory <;> exact ⟨_, rfl⟩

/-- A store manifest with an embedding size of 2560 and a number of heads. -/
def headsManifest (numHeads : ℤ) : BundleManifest where
  data := [("schema", .str "engramdb-bundle-v1"),
    ("memory",
      .dict [("type", .str "store"), ("store", .dict [("path", .str "rows"), ("shards", .int 4),
      ("rows_per_shard", .int 100), ("width", .int (2560 / numHeads))])]),
    ("ple", .dict [("ple_embed_dim", .int 2560), ("num_heads", .int numHeads)])]
  baseDir := none

/-- Sixteen heads fit the defaults, and the manifest is consistent. -/
theorem consistent_of_sixteen : (headsManifest 16).Consistent :=
  (opens_iff rfl (opens_plainHost (headsManifest 16))).mp ⟨_, rfl⟩

/-- Eight heads do not fit the default n-gram size and the default heads of an n-gram order. -/
theorem not_opens_of_eight :
    (headsManifest 8).validate = .ok [] ∧ (headsManifest 8).Opens plainHost ∧
    ∀ mem, (headsManifest 8).openMemory plainHost ≠ .ok mem :=
  ⟨rfl, opens_plainHost _, fun _ h => by cases h⟩

end BundleManifest

end EngramDB
