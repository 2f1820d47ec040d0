import EngramDB.Cli.View.Published
import EngramDB.Foundations.Runs

/-!
# Runs of builds

In every run of builds into new files, whatever fails in them, every manifest that can be read is
that of a complete view (`Consistent`), and a view that is published stays as it is
(`runs_consistent`).
-/

namespace EngramDB

namespace Cli

open View
open SlotIndex (IndexDir)

/-- Every manifest that can be read is that of a view that is complete. -/
def Consistent (disk : Disk) : Prop :=
  ∀ path m, disk.manifestFile path = some m → m = .null ∨
    ∃ view rowsDir keysOut keys, manifestPath view = path ∧
      Published disk rowsDir view keysOut keys m

variable {env : ViewEnv} {args : ViewBuildArgs} {disk disk' : Disk}

/-- A directory without files is not an index. -/
theorem not_indexOf_empty (path : String) (keys : List UInt64) : ¬ IndexOf (.empty path) keys := by
  intro h
  obtain ⟨⟨r, hopen, -⟩, -⟩ := h 1
  cases hopen

/-- A view that is complete stays so when its files do not change. -/
theorem Published.congr {rowsDir view keysOut : String} {keys : List UInt64} {m : Json.Value}
    (h : Published disk rowsDir view keysOut keys m) (htable : disk'.table = disk.table)
    (hview : disk'.viewFiles view = disk.viewFiles view)
    (hkeys : disk'.keysFile keysOut = disk.keysFile keysOut)
    (hindex : ∀ dir, IndexOf (disk.index dir) keys → disk'.index dir = disk.index dir) :
    Published disk' rowsDir view keysOut keys m := by
  obtain ⟨env, backend, g, slotBytes, r, hopen, hrest⟩ := h.shows
  refine ⟨h.dvd, ⟨env, backend, g, slotBytes, r, ?_, ?_⟩, h.keysOut_eq, hkeys.trans h.keys_eq,
    fun v hv => ?_⟩
  · rw [openTable_congr htable, hopen]
  · rwa [hview]
  · obtain ⟨dir, hv, hdir⟩ := h.index v hv
    exact ⟨dir, hv, by rwa [hindex dir hdir]⟩

/-- A command that writes files. -/
inductive Event where
  /-- `view build`. -/
  | viewBuild (env : ViewEnv) (argv : List String)
  /-- `slot-index build`. -/
  | indexBuild (env : ViewEnv) (argv : List String)

/-- The disk after a command, which may have failed. -/
def step (disk : Disk) : Event → Option Disk
  | .viewBuild env argv => some (cmdViewBuild env argv disk).2
  | .indexBuild env argv => some (cmdSlotIndexBuild env argv disk).2

/-- A command writes new files. -/
def Event.Sound (disk : Disk) : Event → Prop
  | .viewBuild env argv => ∀ args, ViewBuildArgs.parse argv = .ok args → Cli.Sound env args disk
  | .indexBuild _ argv => ∀ args, IndexBuildArgs.parse argv = .ok args →
    ∃ path, disk.index args.outDir = .empty path

/-- A build into new files leaves the files of views that are published alone. -/
theorem Published.build {argv : List String} {rowsDir view keysOut : String} {keys : List UInt64}
    {m : Json.Value} (hargs : ViewBuildArgs.parse argv = .ok args) (hsound : Sound env args disk)
    (hm : disk.manifest view = some m) (h : Published disk rowsDir view keysOut keys m) :
    (cmdViewBuild env argv disk).2.manifest view = some m ∧
      Published (cmdViewBuild env argv disk).2 rowsDir view keysOut keys m := by
  have htouches := cmdViewBuild_touches hargs env disk
  have hpath : manifestPath view ≠ manifestPath args.viewOut := by
    intro hpath
    rw [Disk.manifest, hpath, ← Disk.manifest, hsound.newManifest] at hm
    cases hm
  have hview : view ≠ args.viewOut := fun h => hpath (congrArg manifestPath h)
  have hmanifest : (cmdViewBuild env argv disk).2.manifest view = disk.manifest view :=
    htouches.manifestFile _ hpath
  have hkeys : keysOut ≠ args.keysOut := by
    rintro rfl
    obtain ⟨e, he⟩ := hsound.newKeys
    rw [h.keys_eq] at he
    cases he
  refine ⟨by rw [hmanifest, hm], h.congr htouches.table ?_
    (htouches.keysFile keysOut hkeys) fun dir hdir => htouches.index dir fun hslot => ?_⟩
  · rw [Disk.viewFiles, Disk.viewFiles, htouches.view view hview, hmanifest]
  · obtain ⟨path, hempty⟩ := hsound.newIndex dir hslot
    rw [hempty] at hdir
    exact not_indexOf_empty path keys hdir

/-- What `slot-index build` leaves. -/
theorem cmdSlotIndexBuild_snd (env : ViewEnv) (argv : List String) (disk : Disk) :
    (cmdSlotIndexBuild env argv disk).2 = disk ∨ ∃ args files,
      IndexBuildArgs.parse argv = .ok args ∧ (cmdSlotIndexBuild env argv disk).2 =
        { disk with index := Function.update disk.index args.outDir files } := by
  rw [cmdSlotIndexBuild]
  cases hargs : IndexBuildArgs.parse argv with
  | error e => exact .inl rfl
  | ok args =>
    dsimp only
    rw [buildIndex]
    cases env.index with
    | some failed => exact .inr ⟨args, _, rfl, rfl⟩
    | none => exact .inr ⟨args, _, rfl, rfl⟩

/-- A view that is published stays so when a command writes new files. -/
theorem Published.step {event : Event} {rowsDir view keysOut : String} {keys : List UInt64}
    {m : Json.Value} (hsound : event.Sound disk) (hm : disk.manifest view = some m)
    (h : Published disk rowsDir view keysOut keys m) (hstep : step disk event = some disk') :
    disk'.manifest view = some m ∧ Published disk' rowsDir view keysOut keys m := by
  cases event with
  | viewBuild env argv =>
    obtain rfl := Option.some.inj hstep
    cases hargs : ViewBuildArgs.parse argv with
    | error e =>
      have hstop : (cmdViewBuild env argv disk).2 = disk := by
        rw [cmdViewBuild, hargs]
      rw [hstop]
      exact ⟨hm, h⟩
    | ok args => exact h.build hargs (hsound args hargs) hm
  | indexBuild env argv =>
    obtain rfl := Option.some.inj hstep
    rcases cmdSlotIndexBuild_snd env argv disk with hstop | ⟨args, files, hargs, hstop⟩
    · rw [hstop]
      exact ⟨hm, h⟩
    · rw [hstop]
      refine ⟨hm, h.congr rfl rfl rfl fun dir hdir => Function.update_of_ne ?_ _ _⟩
      rintro rfl
      obtain ⟨path, hempty⟩ := hsound args hargs
      rw [hempty] at hdir
      exact not_indexOf_empty path keys hdir

/-- All views that are published stay complete, and one that a command publishes is. -/
theorem Consistent.step {event : Event} (h : Consistent disk) (hsound : event.Sound disk)
    (hstep : step disk event = some disk') : Consistent disk' := by
  intro path m hm
  by_cases hnull : m = .null
  · exact .inl hnull
  -- a manifest that was there before
  have hold (hsame : disk'.manifestFile path = disk.manifestFile path) : m = .null ∨
      ∃ view rowsDir keysOut keys, manifestPath view = path ∧
        Published disk' rowsDir view keysOut keys m := by
    rw [hsame] at hm
    obtain ⟨view, rowsDir, keysOut, keys, rfl, hpublished⟩ := (h path m hm).resolve_left hnull
    exact .inr ⟨view, rowsDir, keysOut, keys, rfl, (hpublished.step hsound hm hstep).2⟩
  cases event with
  | viewBuild env argv =>
    obtain rfl := Option.some.inj hstep
    cases hargs : ViewBuildArgs.parse argv with
    | error e =>
      refine hold ?_
      rw [cmdViewBuild, hargs]
    | ok args =>
      by_cases hview : path = manifestPath args.viewOut
      · -- the view that is built
        subst hview
        have hbuild := hsound args hargs
        change (cmdViewBuild env argv disk).2.manifest args.viewOut = some m at hm
        have hunread : (cmdViewBuild env argv disk).2.manifest args.viewOut = none ∨
            (cmdViewBuild env argv disk).2.manifest args.viewOut = some .null → m = .null := by
          rw [hm]
          rintro (hnone | hcut)
          · cases hnone
          · exact Option.some.inj hcut
        rcases cmdViewBuild_done hargs hbuild with ⟨-, hfailed⟩ | ⟨g, hopen, hdone⟩
        · exact .inl (hunread hfailed)
        rcases hdone with ⟨-, hfailed⟩ | ⟨keys, m', hprogress, -⟩
        · exact .inl (hunread hfailed)
        · obtain rfl := Option.some.inj (hprogress.manifest_eq.symm.trans hm)
          exact .inr ⟨args.viewOut, args.rowsDir, args.keysOut, keys, rfl, hprogress.published hopen
            (hbuild.intact g hopen) hbuild.slot_le (cmdViewBuild_touches hargs env disk).table⟩
      · exact hold ((cmdViewBuild_touches hargs env disk).manifestFile path hview)
  | indexBuild env argv =>
    obtain rfl := Option.some.inj hstep
    refine hold ?_
    rcases cmdSlotIndexBuild_snd env argv disk with hstop | ⟨args, files, -, hstop⟩
    · rw [hstop]
    · rw [hstop]

/-- In every run of builds into new files, whatever fails in them and is noticed (`Sound`), every
manifest that can be read is that of a complete view, and a view that is published stays as it
is. -/
theorem runs_consistent {events : List Event} (h : Consistent disk)
    (hsound : Machine.AlongSteps step (fun disk event => event.Sound disk) disk events) :
    Machine.Along step Consistent disk events ∧
      ∀ view m rowsDir keysOut keys, disk.manifest view = some m →
        Published disk rowsDir view keysOut keys m →
          Machine.Along step (fun disk' => disk'.manifest view = some m ∧
            Published disk' rowsDir view keysOut keys m) disk events := by
  refine ⟨Machine.along_of_alongSteps (fun _ _ _ hs hevent hstep => hs.step hevent hstep) h hsound,
    fun view m rowsDir keysOut keys hm hpublished => ?_⟩
  exact Machine.along_of_alongSteps
    (fun _ _ _ hs hevent hstep => hs.2.step hevent hs.1 hstep) ⟨hm, hpublished⟩ hsound

/-- The disk is full when the manifest of the first view is written again. -/
def fullViewEnv : ViewEnv :=
  { calmViewEnv with manifest := fun call => if call = .write then some (.os 28) else none }

/-- A build of a view whose manifest is cut off, and a build of another view. -/
def twoBuilds : List Event :=
  [.viewBuild fullViewEnv (buildArgv "a.bin" "a.txt" "a"),
    .viewBuild calmViewEnv (buildArgv "b.bin" "b.txt" "b")]

/-- The second view is new after the first build, too. -/
private theorem sound_of_touches (h : Touches (buildArgs "a.bin" "a.txt" "a") sevensDisk disk) :
    Sound calmViewEnv (buildArgs "b.bin" "b.txt" "b") disk := by
  have hpath : manifestPath "b.bin" ≠ manifestPath "a.bin" := by decide
  have hmanifest : disk.manifestFile (manifestPath "b.bin") = none := h.manifestFile _ hpath
  exact sound_buildArgs ⟨rfl, fun _ => rfl⟩ (openTable_sevens h.table) hmanifest
    ⟨.os 2, h.keysFile "b.txt" (by decide)⟩ (h.index "b" (by decide))

theorem runs_consistent_twoBuilds :
    Machine.Along step Consistent sevensDisk twoBuilds ∧
      ∀ view m rowsDir keysOut keys, sevensDisk.manifest view = some m →
        Published sevensDisk rowsDir view keysOut keys m →
          Machine.Along step (fun disk => disk.manifest view = some m ∧
            Published disk rowsDir view keysOut keys m) sevensDisk twoBuilds := by
  refine runs_consistent (fun path m hm => by cases hm) ?_
  have hfull : openTable fullViewEnv sevensDisk "rows" none = .ok sevensTable := rfl
  intro disk hstep
  refine ⟨fun args hargs => ?_, ?_⟩
  · obtain rfl := Except.ok.inj (hargs.symm.trans (parse_buildArgv _ _ _))
    exact sound_buildArgs ⟨rfl, fun _ => rfl⟩ hfull rfl ⟨.os 2, rfl⟩ rfl
  intro disk' hstep'
  refine ⟨fun args hargs => ?_, trivial⟩
  obtain rfl := Except.ok.inj (hargs.symm.trans (parse_buildArgv _ _ _))
  obtain rfl := Option.some.inj hstep
  exact sound_of_touches
    (cmdViewBuild_touches (parse_buildArgv "a.bin" "a.txt" "a") fullViewEnv sevensDisk)

end Cli

end EngramDB
