import EngramDB.Cli.View.Built
import EngramDB.Python.StoreAgreement
import EngramDB.SlotIndex.KeysReaders

/-!
# Views that are published

A view counts as published when its manifest can be read. The manifest is written behind everything
that it names, so whatever fails in a build, and wherever, a manifest that can be read names a
complete view, a complete keys file and, if it names an index, a complete index.

* `cmdViewBuild_touches`: a build changes its own files only;
* `cmdViewBuild_done`: what is then in its own files;
* `published_of_cmdViewBuild`: a build that returns publishes its view and its index;
* `exists_cmdViewBuild_eq_ok`: when nothing fails, it returns.
-/

namespace EngramDB

open SlotBuffer

namespace View

/-- A keys file of row ids is read as it was written. -/
theorem readKeys_keysText (keys : List UInt64) :
    readKeys (.ofText (keysText (keys.map UInt64.toNat))) = .ok (keys.map UInt64.toNat) := by
  rw [KeyLines.ofText, lines_keysText, List.map_map, List.map_map]
  induction keys with
  | nil => rfl
  | cons v keys ih =>
    have htrim := Text.trim_toDigits v.toNat
    have hword := (Text.isWord_toDigits v.toNat).1
    rw [List.map_cons, Function.comp_apply, Function.comp_apply,
      readKeys_number (by rwa [htrim]) (by rw [htrim, Text.parseU64_toDigits]), ih]
    rfl

end View

namespace Cli

open View
open SlotIndex (IndexDir KeysFile Answers DEFAULT_BUCKETS)

/-- An index answers lookups by the grams of row ids, and is verified with their keys file. -/
def IndexOf (dir : IndexDir) (keys : List UInt64) : Prop :=
  ∀ cacheCapacity,
    (∃ r, SlotIndex.DiskSlotIndexReader.openDir dir cacheCapacity = .ok r ∧ ∀ queries,
      List.Forall₂ (Answers (slots HEAD_W keys)) queries (r.lookups queries)) ∧
    SlotIndex.verifyFromKeysFile (.ofText (keysText (keys.map UInt64.toNat))) dir cacheCapacity =
      .ok (slots HEAD_W keys).length

/-- A view with this manifest is complete. -/
structure Published (disk : Disk) (rowsDir view keysOut : String) (keys : List UInt64)
    (m : Json.Value) : Prop where
  /-- The row ids are those of whole grams. -/
  dvd : HEAD_W ∣ keys.length
  /-- The view opens, and shows the rows of its grams. -/
  shows : ∃ env backend g slotBytes r, openTable env disk rowsDir backend = .ok g ∧ Intact g ∧
    View.Serves g (keys.map UInt64.toNat) ∧ View.RECORD_BYTES ≤ slotBytes.toNat ∧
      ViewReader.openFiles (disk.viewFiles view) = .ok r ∧
        Shows g slotBytes (keys.map UInt64.toNat) r
  /-- The keys file is named. -/
  keysOut_eq : m.get "keys_out" = some (.string keysOut)
  /-- It has the row ids. -/
  keys_eq : disk.keysFile keysOut = .ofText (keysText (keys.map UInt64.toNat))
  /-- An index that is named answers by the grams. -/
  index : ∀ v, m.get "slot_index" = some v → ∃ dir, v = .string dir ∧ IndexOf (disk.index dir) keys

variable {env : ViewEnv} {args : ViewBuildArgs} {disk disk' disk'' : Disk} {g : BadgeGather}

/-! ### What a build touches -/

/-- Only the files of a build have changed. -/
structure Touches (args : ViewBuildArgs) (disk disk' : Disk) : Prop where
  /-- Tables stay. -/
  table : disk'.table = disk.table
  /-- Other views stay. -/
  view : ∀ v ≠ args.viewOut, disk'.view v = disk.view v
  /-- Other manifests stay. -/
  manifestFile : ∀ p ≠ manifestPath args.viewOut, disk'.manifestFile p = disk.manifestFile p
  /-- Other keys files stay. -/
  keysFile : ∀ k ≠ args.keysOut, disk'.keysFile k = disk.keysFile k
  /-- Other indexes stay. -/
  index : ∀ d, args.slotIndex ≠ some d → disk'.index d = disk.index d

/-- Doing nothing touches no file. -/
theorem Touches.refl (args : ViewBuildArgs) (disk : Disk) : Touches args disk disk :=
  ⟨rfl, fun _ _ => rfl, fun _ _ => rfl, fun _ _ => rfl, fun _ _ => rfl⟩

/-- Two commands that each touch only the files of a build touch no others together. -/
theorem Touches.trans (h : Touches args disk disk') (h' : Touches args disk' disk'') :
    Touches args disk disk'' where
  table := h'.table.trans h.table
  view v hv := (h'.view v hv).trans (h.view v hv)
  manifestFile p hp := (h'.manifestFile p hp).trans (h.manifestFile p hp)
  keysFile k hk := (h'.keysFile k hk).trans (h.keysFile k hk)
  index d hd := (h'.index d hd).trans (h.index d hd)

/-- The command changes the files of a build only. -/
def Stays (args : ViewBuildArgs) {α : Type} (c : Command α) : Prop :=
  ∀ disk, Touches args disk (c disk).2

/-- A command that is made of two, each of which touches only the files of a build, does so too. -/
theorem Stays.bind {α β : Type} {c : Command α} {f : α → Command β} (hc : Stays args c)
    (hf : ∀ a, Stays args (f a)) : Stays args (c >>= f) := by
  intro disk
  rcases hres : c disk with ⟨e | a, disk'⟩
  · rw [Effect.bind_of_error hres]
    have h := hc disk
    rwa [hres] at h
  · rw [Effect.bind_of_ok hres]
    have h := hc disk
    rw [hres] at h
    exact h.trans (hf a disk')

/-- Storing the view and its keys touches the files that the options name. -/
theorem touches_storeView (args : ViewBuildArgs) (disk : Disk) (files : ViewFiles) :
    Touches args disk (disk.storeView args.viewOut args.keysOut files) where
  table := rfl
  view _ hv := Function.update_of_ne hv _ _
  manifestFile _ hp := by simp only [Disk.storeView, Function.update_of_ne hp]
  keysFile k hk := by
    rw [Disk.storeView]
    cases files.keys with
    | none => rfl
    | some text => exact Function.update_of_ne hk _ _
  index _ _ := rfl

/-- Building a view from its source touches the files that the options name, whether it returns or
fails. -/
private theorem stays_buildSource (env : ViewEnv) (args : ViewBuildArgs) (g : BadgeGather) :
    Stays args (buildSource env args g) := by
  intro disk
  rw [buildSource]
  cases args.keysStream with
  | some keysStream =>
    cases args.keysIn with
    | some keysIn => exact .refl _ _
    | none => exact touches_storeView _ _ _
  | none =>
    cases args.keysIn with
    | some keysIn =>
      dsimp only
      cases keysFromFile env args (disk.keysFile keysIn) with
      | error e => exact .refl _ _
      | ok keys => exact touches_storeView _ _ _
    | none => exact touches_storeView _ _ _

/-- Storing an index touches the directory that the options name. -/
theorem touches_updateIndex {dir : String} (hdir : args.slotIndex = some dir) (disk : Disk)
    (files : IndexDir) :
    Touches args disk { disk with index := Function.update disk.index dir files } where
  table := rfl
  view _ _ := rfl
  manifestFile _ _ := rfl
  keysFile _ _ := rfl
  index d hd := by
    refine Function.update_of_ne ?_ _ _
    rintro rfl
    exact hd hdir

/-- Storing a manifest touches the manifest of the view that the options name. -/
theorem touches_updateManifest (args : ViewBuildArgs) (disk : Disk) (m : Option Json.Value) :
    Touches args disk { disk with
      manifestFile := Function.update disk.manifestFile (manifestPath args.viewOut) m } where
  table := rfl
  view _ _ := rfl
  manifestFile _ hp := by simp only [Function.update_of_ne hp]
  keysFile _ _ := rfl
  index _ _ := rfl

/-- Building an index touches the directory that the options name, whether it returns or fails. -/
private theorem stays_buildIndex {dir : String} (hdir : args.slotIndex = some dir) (env : ViewEnv)
    (keysPath : String) (numBuckets : ℕ) (singleFile : Bool) :
    Stays args (buildIndex env keysPath dir numBuckets singleFile) := by
  intro disk
  rw [buildIndex]
  cases env.index with
  | some failed => exact touches_updateIndex hdir _ _
  | none => exact touches_updateIndex hdir _ _

/-- Entering the index into the manifest touches the manifest of the view that the options name. -/
private theorem stays_updateViewManifestSlotIndex (env : ViewEnv) (args : ViewBuildArgs)
    (dir : String) :
    Stays args (updateViewManifestSlotIndex env args.viewOut dir) := by
  intro disk
  rw [updateViewManifestSlotIndex]
  cases readManifest env disk args.viewOut with
  | error e => exact .refl _ _
  | ok m =>
    dsimp only
    cases setField "slot_index" (.string dir) m with
    | error e => exact .refl _ _
    | ok m =>
      dsimp only
      rw [writeManifest]
      cases env.manifest .open with
      | some e => exact .refl _ _
      | none =>
        cases env.manifest .write with
        | some e => exact touches_updateManifest _ _ _
        | none => exact touches_updateManifest _ _ _

/-- Indexing the view touches the directory and the manifest that the options name. -/
private theorem stays_indexView (env : ViewEnv) (args : ViewBuildArgs) :
    Stays args (indexView env args) := by
  rw [indexView]
  cases hdir : args.slotIndex with
  | none => exact fun disk => .refl _ _
  | some dir =>
    exact (stays_buildIndex hdir env args.keysOut DEFAULT_BUCKETS false).bind fun _ =>
      stays_updateViewManifestSlotIndex env args dir

/-- A verification changes nothing. -/
theorem verifyBuilt_snd (env : ViewEnv) (args : ViewBuildArgs) (g : BadgeGather) (disk : Disk) :
    (verifyBuilt env args g disk).2 = disk := by
  rw [verifyBuilt]
  split_ifs
  · cases readKeys (disk.keysFile args.keysOut) <;> rfl
  · rfl

/-- A build whose arguments are read (`hargs`) changes its own files only, whatever fails. -/
theorem cmdViewBuild_touches {argv : List String} (hargs : ViewBuildArgs.parse argv = .ok args)
    (env : ViewEnv) (disk : Disk) : Touches args disk (cmdViewBuild env argv disk).2 := by
  rw [cmdViewBuild, hargs]
  dsimp only
  cases openTable env disk args.rowsDir args.backend with
  | error e => exact .refl _ _
  | ok g =>
    refine (stays_buildSource env args g).bind (fun _ => (stays_indexView env args).bind
      fun _ disk => ?_) disk
    rw [verifyBuilt_snd]
    exact .refl _ _

/-! ### What is then in its files -/

section Fields

variable {m m' v : Json.Value} {key : String} {fields : List (String × Json.Value)}

/-- A field that was filtered out is not found. -/
private theorem lookup_filter_self :
    (fields.filter fun field => field.1 ≠ key).lookup key = none := by
  rw [List.lookup_eq_none_iff]
  intro field hfield
  have hne := (List.mem_filter.mp hfield).2
  exact bne_iff_ne.mpr (of_decide_eq_true hne).symm

/-- Filtering one field out leaves what is found of all others. -/
private theorem lookup_filter_of_ne {other : String} (hne : other ≠ key) :
    (fields.filter fun field => field.1 ≠ key).lookup other = fields.lookup other := by
  induction fields with
  | nil => rfl
  | cons field fields ih =>
    by_cases hfield : field.1 = key
    · rw [List.filter_cons_of_neg (by simp [hfield]), ih, List.lookup_cons,
        beq_false_of_ne (hfield ▸ hne)]
    · rw [List.filter_cons_of_pos (by simp [hfield]), List.lookup_cons, List.lookup_cons, ih]

/-- Setting a field of a document, which must be an object for that, changes this field only. -/
private theorem get_setField (h : setField key v m = .ok m') :
    (∃ fields, m' = .object fields) ∧ m'.get key = some v ∧
      ∀ other ≠ key, m'.get other = m.get other := by
  cases m with
  | object fields =>
    obtain rfl := Except.ok.inj h
    refine ⟨⟨_, rfl⟩, ?_, fun other hne => ?_⟩
    · show List.lookup key _ = _
      rw [List.lookup_append, lookup_filter_self, Option.none_or, List.lookup_cons_self]
    · show List.lookup other _ = List.lookup other fields
      rw [List.lookup_append, lookup_filter_of_ne hne, List.lookup_cons, beq_false_of_ne hne]
      exact Option.or_none
  | null =>
    obtain rfl := Except.ok.inj h
    refine ⟨⟨_, rfl⟩, List.lookup_cons_self, fun other hne => ?_⟩
    show List.lookup other _ = none
    rw [List.lookup_cons, beq_false_of_ne hne]
    rfl
  | bool b => cases h
  | posInt n => cases h
  | negInt n => cases h
  | float bits => cases h
  | string text => cases h
  | array vs => cases h

end Fields

/-- A keys file of row ids is read for an index as it is. -/
theorem indexKeys_ofText (env : ViewEnv) (text : List Char) :
    indexKeys env (.ofText text) = KeysFile.ofText text := by
  refine congrArg Except.ok ?_
  show List.map _ (List.map _ _) = _
  rw [List.map_map]
  rfl

/-- An index that was built from a keys file of whole grams, in a directory without files. -/
private theorem indexOf_of_build {keys : List UInt64} (hdvd : HEAD_W ∣ keys.length) {numBuckets : ℕ}
    (hbuckets : 1 ≤ numBuckets) {singleFile : Bool} {path : String} {stats : SlotIndex.BuildStats}
    {dir : IndexDir}
    (h : SlotIndex.buildFromKeysFileOpt (.ofText (keysText (keys.map UInt64.toNat))) numBuckets
      singleFile (.empty path) = (.ok stats, dir)) : IndexOf dir keys := by
  have hlines : ∀ line ∈ Text.lines (keysText (keys.map UInt64.toNat)),
      Text.trim line = [] ∨ (SlotIndex.lineNumber line).isSome := by
    intro line hline
    rw [lines_keysText, List.map_map] at hline
    obtain ⟨v, -, rfl⟩ := List.mem_map.mp hline
    exact .inr (by rw [Function.comp_apply, lineNumber_toDigits]; rfl)
  have hnumbers := numbers_keysText keys
  have hgrams : (KeysFile.ofText (keysText (keys.map UInt64.toNat))).grams = slots HEAD_W keys := by
    rw [KeysFile.grams, hnumbers]
    rfl
  intro cacheCapacity
  have hdenotes := (SlotIndex.build_denotes hlines (by rwa [hnumbers]) hbuckets singleFile path).2
    stats dir h cacheCapacity
  rwa [hgrams] at hdenotes

/-- The files of a build, when its manifest can be read. -/
structure Progress (args : ViewBuildArgs) (g : BadgeGather) (keys : List UInt64) (m : Json.Value)
    (disk : Disk) : Prop where
  /-- The view is written. -/
  built : ∃ files, BuiltFiles g args.slotBytes args.keysOut keys files ∧
    disk.view args.viewOut = files.view
  /-- This is the manifest. -/
  manifest_eq : disk.manifest args.viewOut = some m
  /-- It has the slot width. -/
  slotBytes_eq : m.get "slot_bytes" = some (.posInt args.slotBytes)
  /-- It has the number of grams. -/
  grans_eq : m.get "grans" = some (.posInt (.ofNat (keys.length / HEAD_W)))
  /-- It names the keys file. -/
  keysOut_eq : m.get "keys_out" = some (.string args.keysOut)
  /-- The keys file is written. -/
  keys_eq : disk.keysFile args.keysOut = .ofText (keysText (keys.map UInt64.toNat))
  /-- An index is named when it is written. -/
  index : ∀ v, m.get "slot_index" = some v →
    ∃ dir, v = .string dir ∧ args.slotIndex = some dir ∧ IndexOf (disk.index dir) keys

/-- A command failed and there is no manifest, or it cannot be read; or the files of the build are
there, and an index is named unless the command failed. -/
def Done {α : Type} (args : ViewBuildArgs) (g : BadgeGather) (out : Outcome String α × Disk) :
    Prop :=
  ((∃ e, out.1 = .error e) ∧
      (out.2.manifest args.viewOut = none ∨ out.2.manifest args.viewOut = some .null)) ∨
    ∃ keys m, Progress args g keys m out.2 ∧ ((∃ a, out.1 = .ok a) →
      ∀ dir, args.slotIndex = some dir → m.get "slot_index" = some (.string dir))

/-- The requirements of a build: the system is honest, a record fits into a slot, the table is
intact, and the files that are written are new. -/
structure Sound (env : ViewEnv) (args : ViewBuildArgs) (disk : Disk) : Prop where
  /-- What fails is noticed. -/
  honest : env.Honest
  /-- A record fits into a slot. -/
  slot_le : View.RECORD_BYTES ≤ args.slotBytes.toNat
  /-- The table is intact. -/
  intact : ∀ g, openTable env disk args.rowsDir args.backend = .ok g → Intact g
  /-- A keys file has less than `2 ^ 64` lines. -/
  lines_lt : ∀ path lines, args.keysStream = some path → disk.keysFile path = .ok lines →
    lines.length < 2 ^ 64
  /-- There is no manifest yet. -/
  newManifest : disk.manifest args.viewOut = none
  /-- There is no keys file yet. -/
  newKeys : ∃ e, disk.keysFile args.keysOut = .error e
  /-- There is no index yet. -/
  newIndex : ∀ dir, args.slotIndex = some dir → ∃ path, disk.index dir = .empty path

/-- After the view is built, there is no index yet. -/
theorem buildSource_progress (h : Sound env args disk) (hg : Intact g) :
    ((∃ e, (buildSource env args g disk).1 = .error e) ∧
      ((buildSource env args g disk).2.manifest args.viewOut = none ∨
        (buildSource env args g disk).2.manifest args.viewOut = some .null)) ∨
    ∃ keys m, Progress args g keys m (buildSource env args g disk).2 ∧
      m.get "slot_index" = none := by
  have hmanifest (files : ViewFiles) :
      (disk.storeView args.viewOut args.keysOut files).manifest args.viewOut = files.manifest := by
    simp only [Disk.manifest, Disk.storeView, Function.update_self]
  refine (buildSource_cases h.honest hg h.slot_le h.lines_lt).imp ?_ ?_
  · rintro ⟨hne, files, hdisk, hfiles⟩
    rw [hdisk, hmanifest]
    rw [h.newManifest] at hfiles
    refine ⟨?_, hfiles⟩
    cases hres : (buildSource env args g disk).1 with
    | error e => exact ⟨e, rfl⟩
    | ok u => exact absurd hres hne
  · rintro ⟨keys, files, hdisk, hbuilt⟩
    rw [hdisk]
    obtain ⟨m, hm, -, hwidth, hgrans, hkeys, hindex⟩ := hbuilt.get
    refine ⟨keys, m, ⟨⟨files, hbuilt, Function.update_self _ _ _⟩, (hmanifest files).trans hm,
      hwidth, hgrans, hkeys, ?_, fun v hv => ?_⟩, hindex⟩
    · simp only [Disk.storeView, hbuilt.keys_eq]
      exact Function.update_self _ _ _
    · rw [hindex] at hv
      cases hv

/-- The files of a build are there, but the command failed. -/
theorem done_of_error {α : Type} {keys : List UInt64} {m : Json.Value}
    (h : Progress args g keys m disk) (e : Fault String) :
    Done args g ((.error e : Outcome String α), disk) :=
  .inr ⟨keys, m, h, fun ⟨_, hok⟩ => nomatch hok⟩

/-- A build that has written its view (`h`) and the index in `dir` (`hindex`) is done when the
manifest names that index. -/
theorem updateViewManifestSlotIndex_progress {dir : String} {keys : List UInt64} {m : Json.Value}
    (hdir : args.slotIndex = some dir) (h : Progress args g keys m disk)
    (hindex : IndexOf (disk.index dir) keys) :
    Done args g (updateViewManifestSlotIndex env args.viewOut dir disk) := by
  have hwritten (m : Json.Value) :
      ({ disk with manifestFile :=
          Function.update disk.manifestFile (manifestPath args.viewOut) (some m) } :
        Disk).manifest args.viewOut = some m := by
    simp only [Disk.manifest, Function.update_self]
  rw [updateViewManifestSlotIndex]
  cases hread : readManifest env disk args.viewOut with
  | error e => exact done_of_error h _
  | ok m' =>
    -- what is read back is what the build has written
    have hm : m' = m := by
      rw [readManifest, h.manifest_eq] at hread
      cases hfails : env.manifest .read with
      | some e =>
        rw [hfails] at hread
        cases hread
      | none =>
        rw [hfails] at hread
        cases m <;> first | exact (Except.ok.inj hread).symm | cases hread
    subst hm
    dsimp only
    cases hset : setField "slot_index" (.string dir) m' with
    | error e => exact done_of_error h _
    | ok next =>
      dsimp only
      -- the index is named, and the other fields stay
      obtain ⟨-, hself, hother⟩ := get_setField hset
      rw [writeManifest]
      cases env.manifest .open with
      | some e => exact done_of_error h _
      | none =>
        cases env.manifest .write with
        | some e => exact .inl ⟨⟨_, rfl⟩, .inr (hwritten .null)⟩
        | none =>
          refine .inr ⟨keys, next, ⟨h.built, hwritten next, ?_, ?_, ?_, h.keys_eq,
            fun v hv => ?_⟩, fun _ dir' hdir' => ?_⟩
          · rw [hother _ (by decide), h.slotBytes_eq]
          · rw [hother _ (by decide), h.grans_eq]
          · rw [hother _ (by decide), h.keysOut_eq]
          · rw [hself] at hv
            exact ⟨dir, (Option.some.inj hv).symm, hdir, hindex⟩
          · rw [hself]
            obtain rfl := Option.some.inj (hdir.symm.trans hdir')
            rfl

/-- The files of a build that names no index yet, under other indexes. -/
theorem Progress.withIndex {keys : List UInt64} {m : Json.Value} (h : Progress args g keys m disk)
    (hindex : m.get "slot_index" = none) (index : String → IndexDir) :
    Progress args g keys m { disk with index := index } where
  built := h.built
  manifest_eq := h.manifest_eq
  slotBytes_eq := h.slotBytes_eq
  grans_eq := h.grans_eq
  keysOut_eq := h.keysOut_eq
  keys_eq := h.keys_eq
  index v hv := by
    rw [hindex] at hv
    cases hv

/-- When a build has got as far as its manifest (`h`), which names no index yet (`hnone`), and the
directory of the index is empty (`hnew`), indexing the view finishes it or fails. -/
theorem indexView_progress (env : ViewEnv) {keys : List UInt64} {m : Json.Value}
    (h : Progress args g keys m disk) (hnone : m.get "slot_index" = none)
    (hnew : ∀ dir, args.slotIndex = some dir → ∃ path, disk.index dir = .empty path) :
    Done args g (indexView env args disk) := by
  rw [indexView]
  cases hdir : args.slotIndex with
  | none =>
    refine .inr ⟨keys, m, h, fun _ dir hdir' => ?_⟩
    rw [hdir] at hdir'
    cases hdir'
  | some dir =>
    dsimp only
    cases hfails : env.index with
    | some failed =>
      have hbuild : buildIndex env args.keysOut dir DEFAULT_BUCKETS false disk =
          (.error (.error failed.1),
            { disk with index := Function.update disk.index dir failed.2 }) := by
        rw [buildIndex, hfails]
      rw [Effect.bind_of_error hbuild]
      exact done_of_error (h.withIndex hnone _) _
    | none =>
      rcases hres : SlotIndex.buildFromKeysFileOpt (indexKeys env (disk.keysFile args.keysOut))
        DEFAULT_BUCKETS false (disk.index dir) with ⟨e | stats, built⟩
      · have hbuild : buildIndex env args.keysOut dir DEFAULT_BUCKETS false disk =
            (.error (.error e), { disk with index := Function.update disk.index dir built }) := by
          rw [buildIndex, hfails, hres]
          rfl
        rw [Effect.bind_of_error hbuild]
        exact done_of_error (h.withIndex hnone _) _
      · have hbuild : buildIndex env args.keysOut dir DEFAULT_BUCKETS false disk =
            (.ok stats, { disk with index := Function.update disk.index dir built }) := by
          rw [buildIndex, hfails, hres]
          rfl
        rw [Effect.bind_of_ok hbuild]
        -- the index is built from the keys file of the view
        obtain ⟨path, hempty⟩ := hnew dir hdir
        obtain ⟨files, hbuilt, -⟩ := h.built
        rw [h.keys_eq, indexKeys_ofText, hempty] at hres
        refine updateViewManifestSlotIndex_progress hdir (h.withIndex hnone _) ?_
        show IndexOf (Function.update disk.index dir built dir) keys
        rw [Function.update_self]
        exact indexOf_of_build hbuilt.dvd (by decide) hres

/-- However far a build comes, it failed and its manifest is not there, or cannot be read; or its
files are complete. -/
theorem cmdViewBuild_done {argv : List String} (hargs : ViewBuildArgs.parse argv = .ok args)
    (h : Sound env args disk) :
    ((∃ e, (cmdViewBuild env argv disk).1 = .error e) ∧
      ((cmdViewBuild env argv disk).2.manifest args.viewOut = none ∨
        (cmdViewBuild env argv disk).2.manifest args.viewOut = some .null)) ∨
    ∃ g, openTable env disk args.rowsDir args.backend = .ok g ∧
      Done args g (cmdViewBuild env argv disk) := by
  cases hopen : openTable env disk args.rowsDir args.backend with
  | error e =>
    have hstop : cmdViewBuild env argv disk = (.error (.error e), disk) := by
      rw [cmdViewBuild, hargs]
      simp only [hopen]
    rw [hstop]
    exact .inl ⟨⟨_, rfl⟩, .inl h.newManifest⟩
  | ok g =>
    refine .inr ⟨g, rfl, ?_⟩
    -- the steps of the command one after another, each from what the one before has left
    have hsource := buildSource_progress h (h.intact g hopen)
    have hindex : (buildSource env args g disk).2.index = disk.index := by
      rcases buildSource_cases h.honest (h.intact g hopen) h.slot_le h.lines_lt with
        ⟨-, files, hdisk, -⟩ | ⟨keys, files, hdisk, -⟩ <;> rw [hdisk] <;> rfl
    rw [cmdViewBuild, hargs]
    simp only [hopen]
    rcases hres : buildSource env args g disk with ⟨e | u, disk₁⟩
    · rw [Effect.bind_of_error hres]
      rw [hres] at hsource
      rcases hsource with hfailed | ⟨keys, m, hprogress, -⟩
      · exact .inl ⟨⟨e, rfl⟩, hfailed.2⟩
      · exact done_of_error hprogress e
    · rw [Effect.bind_of_ok hres]
      rw [hres] at hsource hindex
      rcases hsource with ⟨⟨e, he⟩, -⟩ | ⟨keys, m, hprogress, hnone⟩
      · cases he
      have hindexed := indexView_progress env hprogress hnone (hindex ▸ h.newIndex)
      rcases hres' : indexView env args disk₁ with ⟨e | u, disk₂⟩
      · rw [Effect.bind_of_error hres']
        rwa [hres'] at hindexed
      · rw [Effect.bind_of_ok hres']
        rw [hres'] at hindexed
        -- the check of the new files writes nothing
        have hdisk := verifyBuilt_snd env args g disk₂
        generalize verifyBuilt env args g disk₂ = out at hdisk
        subst hdisk
        rcases hindexed with ⟨⟨e, he⟩, -⟩ | ⟨keys, m, hprogress, hnamed⟩
        · cases he
        · exact .inr ⟨keys, m, hprogress, fun _ => hnamed ⟨u, rfl⟩⟩

/-! ### Views that are published -/

/-- A table is opened by its files, so that two disks with the same table (`h`) open alike. -/
theorem openTable_congr (h : disk'.table = disk.table) (env : ViewEnv) (rowsDir : String)
    (backend : Option String) :
    openTable env disk' rowsDir backend = openTable env disk rowsDir backend := by
  rw [openTable, openTable, h]

/-- The view of a build whose manifest can be read is complete. -/
theorem Progress.published {keys : List UInt64} {m : Json.Value}
    (h : Progress args g keys m disk')
    (hopen : openTable env disk args.rowsDir args.backend = .ok g) (hg : Intact g)
    (hslot : View.RECORD_BYTES ≤ args.slotBytes.toNat) (htable : disk'.table = disk.table) :
    Published disk' args.rowsDir args.viewOut args.keysOut keys m := by
  obtain ⟨files, hbuilt, hview⟩ := h.built
  obtain ⟨r, hreader, hshows⟩ := hbuilt.shows hslot h.slotBytes_eq h.grans_eq none
  refine ⟨hbuilt.dvd, ⟨env, args.backend, g, args.slotBytes, r, ?_, hg, hbuilt.serves, hslot, ?_,
    hshows⟩, h.keysOut_eq, h.keys_eq, fun v hv => ?_⟩
  · rw [openTable_congr htable, hopen]
  · rw [Disk.viewFiles, hview, h.manifest_eq, hreader]
  · obtain ⟨dir, hv, -, hindex⟩ := h.index v hv
    exact ⟨dir, hv, hindex⟩

/-- A build that returns has published its view, with its index. -/
theorem published_of_cmdViewBuild {argv : List String}
    (hargs : ViewBuildArgs.parse argv = .ok args) (h : Sound env args disk)
    (hbuild : cmdViewBuild env argv disk = (.ok (), disk')) :
    ∃ keys m, disk'.manifest args.viewOut = some m ∧
      Published disk' args.rowsDir args.viewOut args.keysOut keys m ∧
        ∀ dir, args.slotIndex = some dir → m.get "slot_index" = some (.string dir) := by
  have htouches := cmdViewBuild_touches hargs env disk
  have hdone := cmdViewBuild_done hargs h
  rw [hbuild] at htouches hdone
  rcases hdone with ⟨⟨e, he⟩, -⟩ | ⟨g, hopen, hdone⟩
  · cases he
  rcases hdone with ⟨⟨e, he⟩, -⟩ | ⟨keys, m, hprogress, hnamed⟩
  · cases he
  · exact ⟨keys, m, hprogress.manifest_eq,
      hprogress.published hopen (h.intact g hopen) h.slot_le htouches.table, hnamed ⟨(), rfl⟩⟩

/-! ### A build that returns -/

/-- A document in which a field was found (`h`) is an object. -/
private theorem exists_object_of_get {m : Json.Value} {key : String} {v : Json.Value}
    (h : m.get key = some v) : ∃ fields, m = .object fields := by
  cases m with
  | object fields => exact ⟨fields, rfl⟩
  | null => cases h
  | bool b => cases h
  | posInt n => cases h
  | negInt n => cases h
  | float bits => cases h
  | string text => cases h
  | array vs => cases h

/-- When nothing fails, the index of a view is built from its keys file. -/
private theorem exists_indexView_eq_ok {args : ViewBuildArgs} {keys : List UInt64} {m : Json.Value}
    (hmanifest : ∀ call, env.manifest call = none) (hindex : env.index = none)
    (h : Progress args g keys m disk)
    (hroom : keys.length / HEAD_W * SlotIndex.RECORD_BYTES ≤ SlotIndex.maxFileBytes) :
    ∃ disk', indexView env args disk = (.ok (), disk') := by
  rw [indexView]
  cases args.slotIndex with
  | none => exact ⟨disk, rfl⟩
  | some dir =>
    dsimp only
    obtain ⟨files, hbuilt, -⟩ := h.built
    obtain ⟨fields, rfl⟩ := exists_object_of_get h.keysOut_eq
    -- the keys file has whole grams
    have hlines : ∀ line ∈ Text.lines (keysText (keys.map UInt64.toNat)),
        Text.trim line = [] ∨ (SlotIndex.lineNumber line).isSome := by
      intro line hline
      rw [lines_keysText, List.map_map] at hline
      obtain ⟨v, -, rfl⟩ := List.mem_map.mp hline
      exact .inr (by rw [Function.comp_apply, lineNumber_toDigits]; rfl)
    have hnumbers := numbers_keysText keys
    have hbuckets : 1 ≤ SlotIndex.DEFAULT_BUCKETS := by decide
    obtain ⟨⟨cs, offs, grouped⟩, hgroup⟩ := SlotIndex.groupRecords_isOk hlines
      (by rw [hnumbers]; exact hbuilt.dvd) (by rw [hnumbers]; exact hroom) hbuckets
    have hbuild : buildIndex env args.keysOut dir SlotIndex.DEFAULT_BUCKETS false disk =
        (.ok ⟨cs.sum, offs.getD SlotIndex.DEFAULT_BUCKETS 0⟩,
          { disk with index := Function.update disk.index dir (SlotIndex.emit
            SlotIndex.DEFAULT_BUCKETS false cs offs grouped (disk.index dir)) }) := by
      rw [buildIndex, hindex, h.keys_eq, indexKeys_ofText]
      simp only [SlotIndex.buildFromKeysFileOpt, hgroup]
      rfl
    rw [Effect.bind_of_ok hbuild]
    refine ⟨_, Prod.ext ?_ rfl⟩
    have hm : disk.manifestFile (manifestPath args.viewOut) = some (.object fields) := h.manifest_eq
    rw [updateViewManifestSlotIndex, readManifest]
    simp only [hmanifest, Disk.manifest, hm, setField, writeManifest]

/-- When nothing fails, a build from a keys file with rows of the table returns. -/
theorem exists_cmdViewBuild_eq_ok {argv : List String} {args : ViewBuildArgs} {path : String}
    {keys : List UInt64} (hargs : ViewBuildArgs.parse argv = .ok args) (h : Sound env args disk)
    (hbuild : env.build.Faultless) (hmanifest : ∀ call, env.manifest call = none)
    (hindex : env.index = none) (hopen : openTable env disk args.rowsDir args.backend = .ok g)
    (hstream : args.keysStream = none) (hin : args.keysIn = some path)
    (hkeys : keysFromFile env args (disk.keysFile path) = .ok (keys.map UInt64.toNat))
    (hdvd : HEAD_W ∣ keys.length) (hrange : ∀ k ∈ keys, g.layout.InRange k.toNat)
    (hroom : keys.length / HEAD_W * SlotIndex.RECORD_BYTES ≤ SlotIndex.maxFileBytes)
    (hverify : args.verify = false) :
    ∃ disk', cmdViewBuild env argv disk = (.ok (), disk') := by
  have hserves : View.Serves g (keys.map UInt64.toNat) := (h.intact g hopen).serves fun k hk => by
    obtain ⟨v, hv, rfl⟩ := List.mem_map.mp hk
    exact hrange v hv
  have hfiles := buildViewFromKeys_eq_ok hbuild h.slot_le hserves.toFits
    (by rwa [List.length_map]) (some args.keysOut) (disk.viewFiles args.viewOut)
  obtain ⟨disk₁, hsource, hkeysFile⟩ : ∃ disk₁, buildSource env args g disk = (.ok (), disk₁) ∧
      disk₁.keysFile args.keysOut = .ofText (keysText (keys.map UInt64.toNat)) := by
    rw [buildSource, hstream, hin]
    simp only [hkeys]
    refine ⟨_, Prod.ext (buildFiles_fst_eq_ok_iff.mpr (congrArg Prod.fst hfiles)) rfl, ?_⟩
    rw [buildFiles, hfiles]
    exact Function.update_self _ _ _
  have hprogress := buildSource_progress h (h.intact g hopen)
  rw [hsource] at hprogress
  obtain ⟨⟨e, he⟩, -⟩ | ⟨keys', m, hprogress, -⟩ := hprogress
  · cases he
  -- these are the row ids that were read
  have hlength : keys'.length = keys.length := by
    have hread := readKeys_keysText keys'
    rw [← hprogress.keys_eq, hkeysFile, readKeys_keysText] at hread
    have hlen := congrArg List.length (Except.ok.inj hread)
    rw [List.length_map, List.length_map] at hlen
    exact hlen.symm
  obtain ⟨disk₂, hindexed⟩ := exists_indexView_eq_ok hmanifest hindex hprogress
    (by rwa [hlength])
  refine ⟨disk₂, ?_⟩
  rw [cmdViewBuild, hargs]
  simp only [hopen]
  rw [Effect.bind_of_ok hsource, Effect.bind_of_ok hindexed, verifyBuilt, hverify]
  rfl

/-! ### An example -/

/-- Nothing fails. -/
def calmViewEnv : ViewEnv where
  build := faultlessEnv
  verify := calmEnv
  backend _ := preadvBackend fullPread
  describe _ := ""
  notJson := ""
  manifest _ := none
  index := none

/-- A directory with a shard of sevens. -/
def sevensDir : TableDir where
  shardFile i := if i = 0 then some (List.replicate (2500012 * 160) 7) else none
  badgeFile _ := none

/-- The table in it. -/
def sevensTable : BadgeGather where
  layout := Layout.new 1 2500012 160 1
  files := [List.replicate (2500012 * 160) 7]
  backend := preadvBackend fullPread
  files_length := rfl

/-- A disk with this table, a keys file of one gram, and nothing else. -/
def sevensDisk : Disk where
  table _ := sevensDir
  view _ := none
  manifestFile _ := none
  keysFile path :=
    if path = "in.txt" then .ofText sixteenLines else .error (.os 2)
  index path := .empty path

/-- A disk with the table of sevens opens as that table. -/
theorem openTable_sevens {disk : Disk} (h : disk.table = sevensDisk.table) :
    openTable calmViewEnv disk "rows" none = .ok sevensTable := by
  rw [openTable_congr h]
  rfl

/-- The table of sevens has all its rows, of one byte each. -/
theorem intact_sevensTable : Intact sevensTable where
  width_eq := rfl
  width_eq_rowBytes := rfl
  badgeRows_pos := by decide
  full := preadvBackend_full fullPread_full
  complete f hf := by
    rw [List.mem_singleton.mp hf]
    exact (List.length_replicate ..).ge

/-- The command line of a build. -/
def buildArgv (view keysOut dir : String) : List String :=
  ["rows", "1", view, keysOut, "--keys", "in.txt", "--slot-index", dir]

/-- What it says. -/
def buildArgs (view keysOut dir : String) : ViewBuildArgs :=
  ⟨"rows", 1, view, keysOut, 2560, none, some "in.txt", none, some dir, false⟩

/-- The options of the command line are parsed as the ones that are meant. -/
theorem parse_buildArgv (view keysOut dir : String) :
    ViewBuildArgs.parse (buildArgv view keysOut dir) = .ok (buildArgs view keysOut dir) := rfl

/-- A build from the table of sevens (`hopen`) on an honest disk (`henv`) is sound if its view, its
keys file and its index are all new (`hview`, `hkeys`, `hdir`). -/
theorem sound_buildArgs (henv : env.Honest)
    (hopen : openTable env disk "rows" none = .ok sevensTable) {view keysOut dir path : String}
    (hview : disk.manifest view = none) (hkeys : ∃ e, disk.keysFile keysOut = .error e)
    (hdir : disk.index dir = .empty path) : Sound env (buildArgs view keysOut dir) disk := by
  have hwidth : View.RECORD_BYTES ≤ (2560 : UInt64).toNat := by decide
  refine ⟨henv, hwidth, fun g hg => ?_, fun _ _ hstream _ => (nomatch hstream), hview, hkeys,
    fun dir' hdir' => ?_⟩
  · obtain rfl := Except.ok.inj (hopen.symm.trans hg)
    exact intact_sevensTable
  · obtain rfl := Option.some.inj hdir'
    exact ⟨path, hdir⟩

/-- When nothing fails, the view of this build is published. -/
theorem published_of_cmdViewBuild_sevensDisk : ∃ disk keys m, disk.manifest "a.bin" = some m ∧
    Published disk "rows" "a.bin" "a.txt" keys m ∧
      ∀ dir, some "a" = some dir → m.get "slot_index" = some (.string dir) := by
  have hargs := parse_buildArgv "a.bin" "a.txt" "a"
  have hopen : openTable calmViewEnv sevensDisk "rows" none = .ok sevensTable :=
    openTable_sevens rfl
  have hsound : Sound calmViewEnv (buildArgs "a.bin" "a.txt" "a") sevensDisk :=
    sound_buildArgs ⟨rfl, fun _ => rfl⟩ hopen rfl ⟨.os 2, rfl⟩ rfl
  have hkeys : keysFromFile calmViewEnv (buildArgs "a.bin" "a.txt" "a")
      (sevensDisk.keysFile "in.txt") = .ok ((List.replicate 16 (0 : UInt64)).map UInt64.toNat) :=
    rfl
  have hrange : ∀ k ∈ List.replicate 16 (0 : UInt64), sevensTable.layout.InRange k.toNat := by
    intro k hk
    rw [List.eq_of_mem_replicate hk]
    decide
  obtain ⟨disk, hbuild⟩ := exists_cmdViewBuild_eq_ok hargs hsound faultless_faultlessEnv
    (fun _ => rfl) rfl hopen rfl rfl hkeys (by decide) hrange (by decide) rfl
  obtain ⟨keys, m, hm, hpublished, hnamed⟩ := published_of_cmdViewBuild hargs hsound hbuild
  have hview : (buildArgs "a.bin" "a.txt" "a").viewOut = "a.bin" := rfl
  rw [hview] at hm
  exact ⟨disk, keys, m, hm, hpublished, hnamed⟩

end Cli

end EngramDB
