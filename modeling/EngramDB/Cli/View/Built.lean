import EngramDB.Cli.View
import EngramDB.Io.View.KeysFile
import EngramDB.Io.View.Rebuild
import EngramDB.Io.View.Verify

/-!
# What a build leaves, whatever fails

However far a build comes, it leaves the manifest as it was, or cut off, or it has written all of
its files (`buildSource_cases`). A chunk is written only if all its row ids are rows of the table,
so the files of an intact table then show the grams (`BuiltFiles.shows`).
-/

namespace EngramDB

open SlotBuffer Chunking

namespace View

variable {env : BuildEnv} {g : BadgeGather} {slotBytes : UInt64} {chunk keys : List ℕ}
  {w w' : Writer}

/-! ### Row ids that are written -/

/-- A chunk that was written has rows of the table only. -/
private theorem inRange_of_writeChunk (hseen : ∀ n, (env.sched n).panicSeen = true)
    (h : writeChunk env g slotBytes chunk w = (.ok (), w')) : ∀ k ∈ chunk, g.layout.InRange k := by
  obtain ⟨out, t, hgather, -⟩ := Effect.bind_eq_ok_iff.mp h
  rw [gatherChunk] at hgather
  cases hfail : env.fails (.gather w.records.length) with
  | some e =>
    rw [hfail] at hgather
    cases hgather
  | none =>
    rw [hfail] at hgather
    obtain ⟨hout, -⟩ := Prod.mk.inj hgather
    exact BadgeGather.inRange_of_gatherPp_ok (hseen _) (Outcome.mapErr_eq_ok_iff.mp hout)

/-- The rows of all chunks that a loop wrote (`h`) are in range, when the pool reports its panics
(`hseen`). -/
theorem inRange_of_writeChunks (hseen : ∀ n, (env.sched n).panicSeen = true)
    (h : forM (chunks CHUNK_ROWS keys) (writeChunk env g slotBytes) w = (.ok (), w')) :
    ∀ k ∈ keys, g.layout.InRange k := by
  intro k hk
  rw [← flatten_chunks CHUNK_ROWS_pos keys] at hk
  obtain ⟨c, hc, hk⟩ := List.mem_flatten.mp hk
  generalize chunks CHUNK_ROWS keys = cs at h hc
  induction cs generalizing w with
  | nil => cases hc
  | cons c' cs ih =>
    rw [List.forM_cons] at h
    obtain ⟨_, t, hfirst, hrest⟩ := Effect.bind_eq_ok_iff.mp h
    rcases List.mem_cons.mp hc with rfl | hc
    · exact inRange_of_writeChunk hseen hfirst k hk
    · exact ih hrest hc

/-! ### The files -/

/-- A build failed, and the manifest is the old one, or cut off. -/
def Unfinished (before : ViewFiles) (out : Outcome IoError Unit × ViewFiles) : Prop :=
  out.1 ≠ .ok () ∧ (out.2.manifest = before.manifest ∨ out.2.manifest = some .null)

/-- A build that fails before it opens the manifest leaves it alone. -/
theorem unfinished_of_eq {before after : ViewFiles} {fault : Fault IoError}
    (h : after.manifest = before.manifest) : Unfinished before (.error fault, after) :=
  ⟨fun hok => (nomatch hok), .inl h⟩

/-- What truncating a view and writing it leaves: it is not finished, or all files are written. -/
theorem writeFiles_cases (env : BuildEnv) (files : ViewFiles) (start : Writer) (body : Write ℕ)
    (manifest : ℕ → Json.Value) :
    Unfinished files (writeFiles env files start body manifest) ∨
      ∃ total w, body start = (.ok total, w) ∧ (writeFiles env files start body manifest).2 =
        ⟨some w.records.flatten, some (manifest total), keysAfter env w files.keys⟩ := by
  rw [writeFiles]
  cases env.fails .openView with
  | some e => exact .inl (unfinished_of_eq rfl)
  | none =>
    rcases hbody : body start with ⟨fault | total, w⟩
    · exact .inl (unfinished_of_eq rfl)
    · cases env.fails .openManifest with
      | some e => exact .inl (unfinished_of_eq rfl)
      | none =>
        cases env.fails .writeManifest with
        | some e => exact .inl ⟨fun hok => (by cases hok), .inr rfl⟩
        | none => exact .inr ⟨total, w, rfl, rfl⟩

/-- The files of a view of these row ids, with all of its grams. -/
structure BuiltFiles (g : BadgeGather) (slotBytes : UInt64) (keysOut : String)
    (keys : List UInt64) (files : ViewFiles) : Prop where
  /-- The row ids are those of whole grams. -/
  dvd : HEAD_W ∣ keys.length
  /-- Their number is a word. -/
  lt : keys.length / HEAD_W < 2 ^ 64
  /-- The table has the rows. -/
  serves : Serves g (keys.map UInt64.toNat)
  /-- The slots of the view are those of the grams. -/
  view_eq : files.view = some (viewRecords g slotBytes (keys.map UInt64.toNat)).flatten
  /-- The keys file has the row ids. -/
  keys_eq : files.keys = some (keysText (keys.map UInt64.toNat))
  /-- The manifest names the keys file, but no index. -/
  manifest_eq : ∃ source layout, files.manifest =
    some (.object (manifestFields (keys.length / HEAD_W) slotBytes source ++
      (layout ++ [keysOutField (some keysOut)]))) ∧
    ∀ field ∈ layout, field.1 = "layout"

/-- All of the writer's row ids reach the keys file when its last flush works. -/
theorem keysAfter_some (hkept : env.keysKept = none) (records : List Bytes) (keys : List ℕ)
    (before : Option (List Char)) :
    keysAfter env ⟨records, some keys⟩ before = some (keysText keys) := by
  simp only [keysAfter, hkept]

section Builders

variable {slotBytes : UInt64} {path : String} {before : ViewFiles}

/-- What a build of random grams leaves, over an intact table (`hg`), with a flush whose failure is
seen (`hkept`) and panics that are seen (`hseen`): the build is unfinished, or its files are those
of some keys. -/
private theorem buildView_cases (hkept : env.keysKept = none)
    (hseen : ∀ n, (env.sched n).panicSeen = true) (hg : Intact g)
    (hslot : RECORD_BYTES ≤ slotBytes.toNat) {n : ℕ} (hn : n < 2 ^ 64) :
    Unfinished before (buildView env g n slotBytes (some path) before) ∨ ∃ keys,
      BuiltFiles g slotBytes path keys (buildView env g n slotBytes (some path) before).2 := by
  cases hcreate : env.fails .createKeys with
  | some e =>
    -- without its keys file the build panics before it opens the view
    have hpanic : buildView env g n slotBytes (some path) before = (.error .panic, before) := by
      simp only [buildView, createKeys, hcreate]
    rw [hpanic]
    exact .inl (unfinished_of_eq rfl)
  | none =>
    rw [buildView_eq hcreate]
    refine (writeFiles_cases env before _ _ _).imp_right ?_
    rintro ⟨total, w, hbody, hafter⟩
    set ids := randomKeys n 0xDEADBEEF12345678 with hids
    have hwords : ((ids.map UInt64.ofNat).map UInt64.toNat) = ids := by
      rw [List.map_map]
      refine (List.map_congr_left fun k hk => ?_).trans (List.map_id _)
      have hlt := lt_of_mem_randomKeys hk
      exact UInt64.toNat_ofNat_of_lt' (Nat.lt_trans hlt (by decide))
    have hlen : (ids.map UInt64.ofNat).length = n * HEAD_W := by
      rw [List.length_map, hids, length_randomKeys]
    have hrange : ∀ k ∈ ids, g.layout.InRange k := by
      have hchunks := hbody
      rw [writeRandomView, writeRandom_eq env g slotBytes n n (Nat.le_refl n)] at hchunks
      obtain ⟨_, t, hchunks, -⟩ := Effect.bind_eq_ok_iff.mp hchunks
      exact inRange_of_writeChunks hseen hchunks
    have hserves : Serves g ids := hg.serves hrange
    -- the body made all its calls, so it left all records and row ids
    have hmakes : Effect.Makes env.Works (writeRandomView env g n slotBytes)
        ⟨[], (some path).map fun _ => []⟩ _ (n * HEAD_W)
        ⟨viewRecords g slotBytes ids, (some path).map fun _ => ids⟩ :=
      makes_writeRandomView hslot hserves.toFits
    obtain ⟨-, rfl⟩ := Prod.mk.inj (hbody.symm.trans (hmakes.returns (hmakes.works_of_ok hbody)))
    rw [hafter]
    refine ⟨ids.map UInt64.ofNat, hlen ▸ Dvd.intro_left n rfl, ?_, by rwa [hwords], by rw [hwords],
      ?_, s!"shards={g.layout.shards}", [], ?_, by simp⟩
    · rw [hlen, Nat.mul_div_cancel _ (by decide)]
      exact hn
    · rw [hwords]
      exact keysAfter_some hkept (viewRecords g slotBytes ids) ids before.keys
    · rw [hlen, Nat.mul_div_cancel _ (by decide)]
      rfl

/-- What a build from given row ids leaves, under the same conditions, when these are whole grams
(`hdvd`): the build is unfinished, or its files are those of the row ids. -/
theorem writeKeysView_cases (hkept : env.keysKept = none)
    (hseen : ∀ n, (env.sched n).panicSeen = true) (hg : Intact g)
    (hslot : RECORD_BYTES ≤ slotBytes.toNat) {keys : List UInt64} (hdvd : HEAD_W ∣ keys.length)
    (hlt : keys.length / HEAD_W < 2 ^ 64) (source : ℕ → String) :
    let out := writeFiles env before ⟨[], none⟩
      (writeKeysView env g (keys.map UInt64.toNat) slotBytes (some path))
      fun total => keysManifest slotBytes (source total) (some path) total
    Unfinished before out ∨ BuiltFiles g slotBytes path keys out.2 := by
  refine (writeFiles_cases env before _ _ _).imp_right ?_
  rintro ⟨total, w, hbody, hafter⟩
  have hrange : ∀ k ∈ keys.map UInt64.toNat, g.layout.InRange k := by
    have hchunks := hbody
    rw [writeKeysView] at hchunks
    obtain ⟨_, t, -, hchunks⟩ := Effect.bind_eq_ok_iff.mp hchunks
    obtain ⟨_, t', hchunks, -⟩ := Effect.bind_eq_ok_iff.mp hchunks
    exact inRange_of_writeChunks hseen hchunks
  have hserves := hg.serves hrange
  have hmakes := makes_writeKeysView env hslot hserves.toFits (some path)
  obtain ⟨htotal, rfl⟩ := Prod.mk.inj (hbody.symm.trans (hmakes.returns (hmakes.works_of_ok hbody)))
  obtain rfl := Except.ok.inj htotal
  rw [hafter]
  refine ⟨hdvd, hlt, hserves, rfl, ?_, source keys.length,
    [("layout", .string "access-order")], ?_, by simp⟩
  · exact keysAfter_some hkept (viewRecords g slotBytes (keys.map UInt64.toNat)) _ before.keys
  · rw [List.length_map]
    rfl

/-- The row ids of lines are words. -/
private theorem exists_words_linesKeys (lines : List (Except IoError (List Char))) :
    ∃ ids : List UInt64, linesKeys lines = ids.map UInt64.toNat ∧ ids.length ≤ lines.length := by
  induction lines with
  | nil => exact ⟨[], rfl, Nat.le_refl _⟩
  | cons line lines ih =>
    obtain ⟨ids, hids, hle⟩ := ih
    cases line with
    | error e => exact ⟨[], rfl, Nat.zero_le _⟩
    | ok cs =>
      rw [linesKeys]
      split_ifs
      · exact ⟨ids, hids, Nat.le_succ_of_le hle⟩
      · cases Text.parseU64 (Text.trim cs) with
        | error e => exact ⟨[], rfl, Nat.zero_le _⟩
        | ok v => exact ⟨v :: ids, congrArg (v.toNat :: ·) hids, Nat.succ_le_succ hle⟩

/-- What a build from a keys file that is streamed leaves. -/
private theorem buildViewFromKeysFile_cases (hkept : env.keysKept = none)
    (hseen : ∀ n, (env.sched n).panicSeen = true) (hg : Intact g)
    (hslot : RECORD_BYTES ≤ slotBytes.toNat) {keysIn : KeyLines}
    (hlines : ∀ lines, keysIn = .ok lines → lines.length < 2 ^ 64) :
    let out := buildViewFromKeysFile env g keysIn slotBytes (some path) before
    Unfinished before out ∨ ∃ keys, BuiltFiles g slotBytes path keys out.2 := by
  cases hin : keysIn with
  | error e => exact .inl (unfinished_of_eq rfl)
  | ok lines =>
    obtain ⟨ids, hids, hle⟩ := exists_words_linesKeys lines
    rw [buildViewFromKeysFile]
    rcases hbody : writeLinesView env g lines slotBytes (some path) ⟨[], none⟩ with ⟨fault | n, w⟩
    · -- the lines were not all written
      refine (writeFiles_cases env before _ _ _).imp_right ?_
      rintro ⟨total, w', hok, -⟩
      rw [hbody] at hok
      cases hok
    · -- lines that were all written are the row ids of whole grams
      obtain ⟨hread, hdvd, hpos⟩ := writeLinesView_ok hbody
      rw [writeLinesView_eq env g slotBytes (some path) hread hpos hdvd, hids]
      rw [hids, List.length_map] at hdvd
      have hlt : ids.length / HEAD_W < 2 ^ 64 := by
        have hlength := hlines lines hin
        exact Nat.lt_of_le_of_lt (Nat.div_le_self _ _) (Nat.lt_of_le_of_lt hle hlength)
      exact (writeKeysView_cases hkept hseen hg hslot hdvd hlt fun total =>
        s!"provided-keys-file:{total} shards={g.layout.shards}").imp_right fun h => ⟨ids, h⟩

end Builders

/-! ### The view -/

section Shows

variable {slotBytes : UInt64} {path : String} {keys : List UInt64} {files : ViewFiles}

/-- Opening a view depends on its bytes, the slot width and the number of grams. -/
private theorem openFiles_congr {files files' : ViewFiles} (hview : files.view = files'.view)
    (hslot : slotOf files = slotOf files') :
    ViewReader.openFiles files = ViewReader.openFiles files' := by
  rw [ViewReader.openFiles, ViewReader.openFiles, hview, hslot]

/-- A field other than the layout (`hkey`) of a manifest is not looked up in its layout fields,
which all have the key `layout` (`hlayout`). -/
theorem lookup_manifestFields {source : String} {layout rest : List (String × Json.Value)}
    (hlayout : ∀ field ∈ layout, field.1 = "layout") {key : String} (hkey : key ≠ "layout") :
    (manifestFields (keys.length / HEAD_W) slotBytes source ++ (layout ++ rest)).lookup key =
      (manifestFields (keys.length / HEAD_W) slotBytes source ++ rest).lookup key := by
  have hnone : layout.lookup key = none := by
    rw [List.lookup_eq_none_iff]
    intro field hfield
    rw [hlayout field hfield]
    exact bne_iff_ne.mpr hkey
  rw [List.lookup_append, List.lookup_append, List.lookup_append, hnone]
  rfl

/-- The slot width, the number of grams and the keys file that the manifest names. -/
theorem BuiltFiles.get (h : BuiltFiles g slotBytes path keys files) :
    ∃ m, files.manifest = some m ∧ (∃ fields, m = .object fields) ∧
      m.get "slot_bytes" = some (.posInt slotBytes) ∧
      m.get "grans" = some (.posInt (.ofNat (keys.length / HEAD_W))) ∧
      m.get "keys_out" = some (.string path) ∧ m.get "slot_index" = none := by
  obtain ⟨source, layout, hm, hlayout⟩ := h.manifest_eq
  refine ⟨_, hm, ⟨_, rfl⟩, ?_, ?_, ?_, ?_⟩
  · show List.lookup "slot_bytes" _ = _
    rw [lookup_manifestFields hlayout (by decide)]
    rfl
  · show List.lookup "grans" _ = _
    rw [lookup_manifestFields hlayout (by decide)]
    rfl
  · show List.lookup "keys_out" _ = _
    rw [lookup_manifestFields hlayout (by decide)]
    rfl
  · show List.lookup "slot_index" _ = _
    rw [lookup_manifestFields hlayout (by decide)]
    rfl

/-- A view that is opened under a manifest with the slot width and the number of grams of the build
shows the grams. -/
theorem BuiltFiles.shows (h : BuiltFiles g slotBytes path keys files)
    (hslot : RECORD_BYTES ≤ slotBytes.toNat) {m : Json.Value}
    (hwidth : m.get "slot_bytes" = some (.posInt slotBytes))
    (hgrans : m.get "grans" = some (.posInt (.ofNat (keys.length / HEAD_W))))
    (other : Option (List Char)) :
    ∃ r, ViewReader.openFiles ⟨files.view, some m, other⟩ = .ok r ∧
      Shows g slotBytes (keys.map UInt64.toNat) r := by
  -- a build from the same row ids in which nothing fails leaves a view that opens alike
  have hbuild := buildViewFromKeys_eq_ok faultless_faultlessEnv hslot h.serves.toFits
    (by rw [List.length_map]; exact h.dvd) (some path) noFiles
  obtain ⟨r, hopen, hshows⟩ := shows_of_build h.serves hslot
    (by rw [List.length_map]; exact h.lt) hbuild
  refine ⟨r, ?_, hshows⟩
  rw [← hopen]
  refine openFiles_congr h.view_eq ?_
  simp only [slotOf, hwidth, hgrans, List.length_map]
  rfl

end Shows

end View

namespace Cli

open View

variable {env : ViewEnv} {args : ViewBuildArgs} {g : BadgeGather}

/-- What the system does in a build goes well as far as it goes unnoticed: the last flush of the
keys file works, and a gather sees the panics of its jobs. -/
structure ViewEnv.Honest (env : ViewEnv) : Prop where
  /-- All of the keys file reaches it. -/
  keysKept : env.build.keysKept = none
  /-- Panics are seen. -/
  panicSeen : ∀ n, (env.build.sched n).panicSeen = true

/-- The row ids for `--keys` are words, and their number is one. -/
private theorem exists_words_of_keysFromFile {keysIn : KeyLines} {keys : List ℕ}
    (h : keysFromFile env args keysIn = .ok keys) :
    ∃ ids : List UInt64, keys = ids.map UInt64.toNat ∧ ids.length / HEAD_W < 2 ^ 64 := by
  obtain ⟨all, hall, h⟩ := Except.bind_eq_ok_iff.mp h
  dsimp only at h
  split_ifs at h
  · cases h
  · obtain rfl := Except.ok.inj h
    cases hread : readKeys keysIn with
    | error e =>
      rw [hread] at hall
      cases hall
    | ok read =>
      rw [hread] at hall
      obtain rfl := Except.ok.inj hall
      cases keysIn with
      | error e => cases hread
      | ok lines =>
        obtain ⟨numbers, -, hnumbers⟩ := Except.bind_eq_ok_iff.mp hread
        obtain rfl := Except.ok.inj hnumbers
        refine ⟨numbers.take (args.n.toNat * HEAD_W % 2 ^ 64), List.map_take.symm, ?_⟩
        have hlen : (numbers.take (args.n.toNat * HEAD_W % 2 ^ 64)).length < 2 ^ 64 :=
          Nat.lt_of_le_of_lt (List.length_take_le _ _) (Nat.mod_lt _ (by decide))
        exact Nat.lt_of_le_of_lt (Nat.div_le_self _ _) hlen

/-- A build on the files of a view returns when the build does. -/
theorem buildFiles_fst_eq_ok_iff {build : ViewFiles → Outcome IoError Unit × ViewFiles}
    {disk : Disk} : (buildFiles env args build disk).1 = .ok () ↔
      (build (disk.viewFiles args.viewOut)).1 = .ok () := Outcome.mapErr_eq_ok_iff

/-- Building the view failed, and the manifest is the old one, or cut off. -/
def BuildFails (args : ViewBuildArgs) (disk : Disk) (out : Outcome String Unit × Disk) : Prop :=
  out.1 ≠ .ok () ∧ ∃ files, out.2 = disk.storeView args.viewOut args.keysOut files ∧
    (files.manifest = disk.manifest args.viewOut ∨ files.manifest = some .null)

/-- A command that stops before the build changes nothing. -/
theorem buildFails_of_error (args : ViewBuildArgs) (disk : Disk) (e : Fault String) :
    BuildFails args disk (.error e, disk) := by
  refine ⟨fun hok => (nomatch hok), disk.viewFiles args.viewOut, ?_, .inl rfl⟩
  simp only [Disk.storeView, Disk.viewFiles, Disk.manifest, Function.update_eq_self]

/-- If building the files of a view leaves them unfinished or finishes them (`h`), then so does
building them on a disk: the command fails there, or the disk gets the files. -/
theorem buildFiles_cases {build : ViewFiles → Outcome IoError Unit × ViewFiles} {disk : Disk}
    (h : Unfinished (disk.viewFiles args.viewOut) (build (disk.viewFiles args.viewOut)) ∨
      ∃ keys, BuiltFiles g args.slotBytes args.keysOut keys
        (build (disk.viewFiles args.viewOut)).2) :
    BuildFails args disk (buildFiles env args build disk) ∨ ∃ keys files,
      (buildFiles env args build disk).2 = disk.storeView args.viewOut args.keysOut files ∧
        BuiltFiles g args.slotBytes args.keysOut keys files := by
  refine h.imp ?_ ?_
  · rintro ⟨hne, hmanifest⟩
    exact ⟨fun hok => hne (buildFiles_fst_eq_ok_iff.mp hok), _, rfl, hmanifest⟩
  · rintro ⟨keys, hbuilt⟩
    exact ⟨keys, _, rfl, hbuilt⟩

/-- What building the view leaves on an honest disk (`henv`), from any of the three sources: the
build fails, or the disk has the files of some keys. -/
theorem buildSource_cases (henv : env.Honest) (hg : Intact g)
    (hslot : View.RECORD_BYTES ≤ args.slotBytes.toNat) {disk : Disk}
    (hlines : ∀ path lines, args.keysStream = some path → disk.keysFile path = .ok lines →
      lines.length < 2 ^ 64) :
    BuildFails args disk (buildSource env args g disk) ∨ ∃ keys files,
      (buildSource env args g disk).2 = disk.storeView args.viewOut args.keysOut files ∧
        BuiltFiles g args.slotBytes args.keysOut keys files := by
  rw [buildSource]
  -- the source is a stream of keys, a file of keys, or random
  cases hstream : args.keysStream with
  | some keysStream =>
    cases args.keysIn with
    | some keysIn => exact .inl (buildFails_of_error _ _ _)
    | none =>
      refine buildFiles_cases (buildViewFromKeysFile_cases henv.keysKept henv.panicSeen hg hslot ?_)
      intro lines hok
      rw [Disk.streamed] at hok
      split_ifs at hok
      · -- there is nothing left to read
        cases hread : disk.keysFile keysStream with
        | error e =>
          rw [hread] at hok
          cases hok
        | ok _ =>
          rw [hread] at hok
          obtain rfl := Except.ok.inj hok
          exact Nat.two_pow_pos 64
      · exact hlines _ _ hstream hok
  | none =>
    cases args.keysIn with
    | some keysIn =>
      simp only
      cases hkeys : keysFromFile env args (disk.keysFile keysIn) with
      | error e => exact .inl (buildFails_of_error _ _ _)
      | ok keys =>
        -- the keys of a file are words, for the parser has read them as such
        obtain ⟨ids, rfl, hlt⟩ := exists_words_of_keysFromFile hkeys
        refine buildFiles_cases ?_
        rw [buildViewFromKeys]
        split_ifs with hdvd
        · rw [List.length_map] at hdvd
          exact (writeKeysView_cases henv.keysKept henv.panicSeen hg hslot hdvd hlt fun _ =>
            _).imp_right fun h => ⟨ids, h⟩
        · exact .inl (unfinished_of_eq rfl)
    | none =>
      exact buildFiles_cases
        (buildView_cases henv.keysKept henv.panicSeen hg hslot args.n.toNat_lt)

end Cli

end EngramDB
