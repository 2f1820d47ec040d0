import EngramDB.Cli.Options
import EngramDB.Io.Batch.Open
import EngramDB.Io.View.Verify
import EngramDB.SlotIndex.Reader

/-!
# The commands on views

`engramdb view build` builds a view of random grams, of grams from a keys file, or of a keys file
that is streamed. It then builds a slot index from the keys file that the view was built with, and
notes the directory of the index in the manifest of the view. `engramdb view verify` checks an
index, then the view.

The commands work on a `Disk`. Files of different kinds are distinct. The manifest of a view stands
beside it (`manifestPath`), so that views whose names differ in their extension share one. `ViewEnv`
stands for what the system does while a command runs.
-/

namespace EngramDB

/-- Buckets of an index, unless another number is asked for. -/
def SlotIndex.DEFAULT_BUCKETS : ℕ := 16384

namespace Cli

open View (HEAD_W KeyLines BuildEnv VerifyEnv)
open SlotIndex (KeysFile IndexDir BuildStats DEFAULT_BUCKETS)

/-- `view.with_extension("manifest.json")`, for a path that ends in the name of a file: what follows
the last dot of the name is replaced, unless the name starts with this dot. -/
def manifestPath (view : String) : String :=
  let name := view.toList.reverse.takeWhile (· ≠ '/')
  let folder := view.toList.take (view.toList.length - name.length)
  -- the name is reversed: its stem is behind its first dot
  let stem := (name.dropWhile (· ≠ '.')).drop 1
  String.ofList (folder ++ (if stem = [] then name else stem).reverse) ++ ".manifest.json"

example : manifestPath "views/a.b.bin" = "views/a.b.manifest.json" := by decide

/-- The files, by their paths. -/
structure Disk where
  /-- The directories of tables. -/
  table : String → TableDir
  /-- The views. -/
  view : String → Option Bytes
  /-- The manifests. A text that is not JSON counts as `null`. -/
  manifestFile : String → Option Json.Value
  /-- The keys files. -/
  keysFile : String → KeyLines
  /-- The directories of indexes. -/
  index : String → IndexDir

/-- The backends that have a name. -/
inductive BackendName where
  /-- `preadv`, which is the default. -/
  | preadv
  /-- `uring`. -/
  | uring
  /-- `uring-batch`. -/
  | uringBatch
deriving DecidableEq, Repr

/-- `backend_for`, on Linux. -/
def backendFor : Option String → Except String BackendName
  | none => .ok .preadv
  | some name =>
    if name = "preadv" then .ok .preadv
    else if name = "uring" then .ok .uring
    else if name = "uring-batch" then .ok .uringBatch
    else .error s!"unknown backend: {name}"

/-- A call on a manifest that may fail, besides those of a build. -/
inductive ManifestCall where
  /-- Reading it. -/
  | read
  /-- Opening it and truncating it. -/
  | open
  /-- Writing it. -/
  | write
deriving DecidableEq, Repr

/-- What the system does while a command runs. -/
structure ViewEnv where
  /-- A build of a view. -/
  build : BuildEnv
  /-- A verification of a view. -/
  verify : VerifyEnv
  /-- The backends. -/
  backend : BackendName → IoBackend
  /-- The text of an error. -/
  describe : IoError → String
  /-- The text of the error for a manifest that is not JSON. -/
  notJson : String
  /-- The error of a call on a manifest that fails. -/
  manifest : ManifestCall → Option IoError
  /-- If the build of an index fails at its files: the error, and what is then in the directory. -/
  index : Option (String × IndexDir)

/-- A command: it may fail or panic, and changes files. -/
abbrev Command (α : Type) := Effect (Fault String) Disk α

variable (env : ViewEnv)

/-! ### Tables -/

/-- `layout_for_dir`: the shards up to the first one without a file, at most those of the full
table. -/
def layoutForDir (path : String) (dir : TableDir) : Except String Layout :=
  let n := ((List.range 128).takeWhile fun i => (dir.file i).isSome).length
  if n = 0 then .error s!"目录 {path.quote} 中没有分片文件"
  else .ok (Layout.new n 2500012 160 1)

/-- Open the table in a directory. -/
def openTable (disk : Disk) (rowsDir : String) (backend : Option String) :
    Except String BadgeGather := do
  let layout ← layoutForDir rowsDir (disk.table rowsDir)
  let name ← backendFor backend
  (BadgeGather.openWithBackend (disk.table rowsDir) layout (env.backend name)).mapError env.describe

/-! ### `view build` -/

/-- The arguments of `view build`. -/
structure ViewBuildArgs where
  /-- The directory of the table. -/
  rowsDir : String
  /-- Number of grams. -/
  n : UInt64
  /-- The view. -/
  viewOut : String
  /-- The keys file to write. -/
  keysOut : String
  /-- Width of a slot. -/
  slotBytes : UInt64
  /-- Name of the backend. -/
  backend : Option String
  /-- The keys file to read as a whole. -/
  keysIn : Option String
  /-- The keys file to stream. -/
  keysStream : Option String
  /-- The directory of the index. -/
  slotIndex : Option String
  /-- Whether the view is verified. -/
  verify : Bool
deriving DecidableEq, Repr

/-- The options of `view build`. -/
def ViewBuildArgs.flag (a : String) : Option (Flag ViewBuildArgs) :=
  if a = "--slot" then
    some (.value "slot" fun v args => do return { args with slotBytes := ← parseWord v })
  else if a = "--backend" then
    some (.value "backend" fun v args => .ok { args with backend := some v })
  else if a = "--keys" then
    some (.value "keys 路径" fun v args => .ok { args with keysIn := some v })
  else if a = "--keys-stream" ∨ a = "--keys-file" then
    some (.value "keys 路径" fun v args => .ok { args with keysStream := some v })
  else if a = "--slot-index" then
    some (.value "slot-index 路径" fun v args => .ok { args with slotIndex := some v })
  else if a = "--verify" then some (.bare fun args => { args with verify := true })
  else if a = "--seed" then some .ignored
  else none

/-- Read the arguments of `view build`. -/
def ViewBuildArgs.parse (argv : List String) : Except String ViewBuildArgs := do
  let (rowsDir, argv) ← positional "rows_dir" argv
  let (n, argv) ← positional "n_grams" argv
  let n ← parseWord n
  let (viewOut, argv) ← positional "view.bin" argv
  let (keysOut, argv) ← positional "keys.txt" argv
  parseFlags ViewBuildArgs.flag
    ⟨rowsDir, n, viewOut, keysOut, 2560, none, none, none, none, false⟩ argv

namespace Disk

variable (disk : Disk)

/-- The manifest of a view. -/
def manifest (view : String) : Option Json.Value := disk.manifestFile (manifestPath view)

/-- The files of a view that is to be built. -/
def viewFiles (view : String) : ViewFiles := ⟨disk.view view, disk.manifest view, none⟩

/-- The files after a build. One that created no keys file leaves the file alone. -/
def storeView (view keysOut : String) (files : ViewFiles) : Disk where
  table := disk.table
  view := Function.update disk.view view files.view
  manifestFile := Function.update disk.manifestFile (manifestPath view) files.manifest
  keysFile :=
    match files.keys with
    | none => disk.keysFile
    | some text => Function.update disk.keysFile keysOut (.ofText text)
  index := disk.index

/-- The lines of a keys file that is streamed. The build creates its own keys file before it reads
the first line, so there is nothing to read when both are one file. -/
def streamed (keysStream keysOut : String) : KeyLines :=
  if keysStream = keysOut then (disk.keysFile keysStream).map fun _ => []
  else disk.keysFile keysStream

end Disk

/-- Run a build on the files of a view. -/
def buildFiles (args : ViewBuildArgs) (build : ViewFiles → Outcome IoError Unit × ViewFiles) :
    Command Unit := fun disk =>
  let (result, files) := build (disk.viewFiles args.viewOut)
  (result.mapErr env.describe, disk.storeView args.viewOut args.keysOut files)

/-- The row ids for `--keys`: the first `n_grams` grams of the file. -/
def keysFromFile (args : ViewBuildArgs) (keysIn : KeyLines) : Except String (List ℕ) := do
  let all ← (View.readKeys keysIn).mapError env.describe
  -- a product of machine words
  let need := args.n.toNat * HEAD_W % 2 ^ 64
  if all.length < need then
    throw (s!"--keys 文件只有 {all.length} 行，需要至少 {need} 行"
      ++ s!"（{args.n.toNat} grams × {HEAD_W} heads）")
  return all.take need

/-- Build the view. -/
def buildSource (args : ViewBuildArgs) (g : BadgeGather) : Command Unit := fun disk =>
  match args.keysStream, args.keysIn with
  | some _, some _ => (.error (.error "不能同时指定 --keys 与 --keys-stream"), disk)
  | some keysStream, none =>
    buildFiles env args (View.buildViewFromKeysFile env.build g
      (disk.streamed keysStream args.keysOut) args.slotBytes (some args.keysOut)) disk
  | none, some keysIn =>
    match keysFromFile env args (disk.keysFile keysIn) with
    | .error e => (.error (.error e), disk)
    | .ok keys =>
      buildFiles env args (View.buildViewFromKeys env.build g keys args.slotBytes
        (some args.keysOut)) disk
  | none, none =>
    buildFiles env args (View.buildView env.build g args.n.toNat args.slotBytes
      (some args.keysOut)) disk

/-- A keys file, as it is read for an index. -/
def indexKeys (keys : KeyLines) : KeysFile :=
  (keys.mapError env.describe).map fun lines => lines.map fun line => line.mapError env.describe

/-- Build an index from a keys file. -/
def buildIndex (keysPath dir : String) (numBuckets : ℕ) (singleFile : Bool) : Command BuildStats :=
  fun disk =>
    match env.index with
    | some (e, left) =>
      (.error (.error e), { disk with index := Function.update disk.index dir left })
    | none =>
      let (result, built) := SlotIndex.buildFromKeysFileOpt (indexKeys env (disk.keysFile keysPath))
        numBuckets singleFile (disk.index dir)
      (Outcome.ofExcept result, { disk with index := Function.update disk.index dir built })

/-- Read the manifest of a view. -/
def readManifest (disk : Disk) (view : String) : Except String Json.Value :=
  match env.manifest .read, disk.manifest view with
  | some e, _ => .error (env.describe e)
  | none, none => .error (env.describe (.os 2))
  | none, some .null => .error env.notJson
  | none, some m => .ok m

/-- `value[key] = v`: the field is replaced or put at the end. -/
def setField (key : String) (v : Json.Value) : Json.Value → Outcome String Json.Value
  | .object fields =>
    .ok (.object (fields.filter (fun field => field.1 ≠ key) ++ [(key, v)]))
  | .null => .ok (.object [(key, v)])
  | _ => .error .panic

/-- Write the manifest of a view, which is truncated first. -/
def writeManifest (view : String) (m : Json.Value) : Command Unit := fun disk =>
  match env.manifest .open, env.manifest .write with
  | some e, _ => (.error (.error (env.describe e)), disk)
  | none, some e =>
    (.error (.error (env.describe e)),
      { disk with
        manifestFile := Function.update disk.manifestFile (manifestPath view) (some .null) })
  | none, none =>
    (.ok (),
      { disk with manifestFile := Function.update disk.manifestFile (manifestPath view) (some m) })

/-- Note the directory of an index in the manifest of a view. -/
def updateViewManifestSlotIndex (view dir : String) : Command Unit := fun disk =>
  match readManifest env disk view with
  | .error e => (.error (.error e), disk)
  | .ok m =>
    match setField "slot_index" (.string dir) m with
    | .error e => (.error e, disk)
    | .ok m => writeManifest env view m disk

/-- Build the index of a view from the keys file of the view. -/
def indexView (args : ViewBuildArgs) : Command Unit :=
  match args.slotIndex with
  | none => pure ()
  | some dir => do
    let _ ← buildIndex env args.keysOut dir DEFAULT_BUCKETS false
    updateViewManifestSlotIndex env args.viewOut dir

/-- Verify the view that was built. -/
def verifyBuilt (args : ViewBuildArgs) (g : BadgeGather) : Command Unit := fun disk =>
  if args.verify then
    match View.readKeys (disk.keysFile args.keysOut) with
    | .error e => (.error (.error (env.describe e)), disk)
    | .ok keys =>
      ((View.verifyView env.verify g (disk.viewFiles args.viewOut) (some keys) 0).mapErr
        env.describe, disk)
  else (.ok (), disk)

/-- `engramdb view build`. -/
def cmdViewBuild (argv : List String) : Command Unit := fun disk =>
  match ViewBuildArgs.parse argv with
  | .error e => (.error (.error e), disk)
  | .ok args =>
    match openTable env disk args.rowsDir args.backend with
    | .error e => (.error (.error e), disk)
    | .ok g =>
      (do
        buildSource env args g
        indexView env args
        verifyBuilt env args g : Command Unit) disk

/-! ### `view verify` -/

/-- The arguments of `view verify`. -/
structure ViewVerifyArgs where
  /-- The directory of the table. -/
  rowsDir : String
  /-- The view. -/
  viewFile : String
  /-- The keys file. -/
  keys : Option String
  /-- The directory of the index. -/
  slotIndex : Option String
  /-- Number of grams to compare. -/
  subGrams : UInt64
  /-- Name of the backend. -/
  backend : Option String
deriving DecidableEq, Repr

/-- The options of `view verify`. -/
def ViewVerifyArgs.flag (a : String) : Option (Flag ViewVerifyArgs) :=
  if a = "--keys" then
    some (.value "keys 路径" fun v args => .ok { args with keys := some v })
  else if a = "--slot-index" then
    some (.value "slot-index 路径" fun v args => .ok { args with slotIndex := some v })
  else if a = "--sub" then
    some (.value "v" fun v args => do return { args with subGrams := ← parseWord v })
  else if a = "--backend" then
    some (.value "backend" fun v args => .ok { args with backend := some v })
  else none

/-- Read the arguments of `view verify`. -/
def ViewVerifyArgs.parse (argv : List String) : Except String ViewVerifyArgs := do
  let (rowsDir, argv) ← positional "rows_dir" argv
  let (viewFile, argv) ← positional "view.bin" argv
  parseFlags ViewVerifyArgs.flag ⟨rowsDir, viewFile, none, none, 0, none⟩ argv

/-- The keys file that the manifest of a view names. -/
def manifestKeysPath (disk : Disk) (view : String) : Except String String := do
  let m ← readManifest env disk view
  match (m.get "keys_out").bind Json.Value.asStr with
  | some path => return path
  | none => throw "view manifest missing keys_out"

/-- Verify an index of the view, if there is to be one. The keys file is the one that is given, or
the one that the manifest names. -/
def verifyIndex (disk : Disk) (args : ViewVerifyArgs) : Outcome String Unit :=
  match args.slotIndex with
  | none => .ok ()
  | some dir => do
    let path ← Outcome.ofExcept (args.keys.elim (manifestKeysPath env disk args.viewFile) .ok)
    let _ ← SlotIndex.verifyFromKeysFile (indexKeys env (disk.keysFile path)) (disk.index dir)
      SlotIndex.DEFAULT_CACHE_BUCKETS
    return ()

/-- `engramdb view verify`. It changes no file. -/
def cmdViewVerify (disk : Disk) (argv : List String) : Outcome String Unit := do
  let args ← Outcome.ofExcept (ViewVerifyArgs.parse argv)
  verifyIndex env disk args
  let g ← Outcome.ofExcept (openTable env disk args.rowsDir args.backend)
  let keys ← Outcome.ofExcept (args.keys.elim (.ok none) fun path =>
    ((View.readKeys (disk.keysFile path)).mapError env.describe).map some)
  (View.verifyView env.verify g (disk.viewFiles args.viewFile) keys args.subGrams.toNat).mapErr
    env.describe

/-! ### `slot-index build` and `slot-index verify` -/

/-- The arguments of `slot-index build`. -/
structure IndexBuildArgs where
  /-- The keys file. -/
  keys : String
  /-- The directory. -/
  outDir : String
  /-- Number of buckets. -/
  buckets : UInt64
  /-- Whether there is one file for all buckets. -/
  singleFile : Bool
deriving DecidableEq, Repr

/-- The options of `slot-index build`. -/
def IndexBuildArgs.flag (a : String) : Option (Flag IndexBuildArgs) :=
  if a = "--buckets" then
    some (.value "buckets 值" fun v args => do return { args with buckets := ← parseWord v })
  else if a = "--single-file" then some (.bare fun args => { args with singleFile := true })
  else none

/-- Read the arguments of `slot-index build`. -/
def IndexBuildArgs.parse (argv : List String) : Except String IndexBuildArgs := do
  let (keys, argv) ← positional "需要 <keys.txt>" argv
  let (outDir, argv) ← positional "需要 <out_dir>" argv
  parseFlags IndexBuildArgs.flag ⟨keys, outDir, .ofNat DEFAULT_BUCKETS, false⟩ argv

/-- `engramdb slot-index build`. -/
def cmdSlotIndexBuild (argv : List String) : Command BuildStats := fun disk =>
  match IndexBuildArgs.parse argv with
  | .error e => (.error (.error e), disk)
  | .ok args => buildIndex env args.keys args.outDir args.buckets.toNat args.singleFile disk

/-- The arguments of `slot-index verify`. -/
structure IndexVerifyArgs where
  /-- The keys file. -/
  keys : String
  /-- The directory. -/
  outDir : String
  /-- Buckets in the cache. -/
  cache : UInt64
deriving DecidableEq, Repr

/-- The options of `slot-index verify`. -/
def IndexVerifyArgs.flag (a : String) : Option (Flag IndexVerifyArgs) :=
  if a = "--cache" then
    some (.value "cache 值" fun v args => do return { args with cache := ← parseWord v })
  else none

/-- Read the arguments of `slot-index verify`. -/
def IndexVerifyArgs.parse (argv : List String) : Except String IndexVerifyArgs := do
  let (keys, argv) ← positional "需要 <keys.txt>" argv
  let (outDir, argv) ← positional "需要 <out_dir>" argv
  parseFlags IndexVerifyArgs.flag ⟨keys, outDir, .ofNat SlotIndex.DEFAULT_CACHE_BUCKETS⟩ argv

/-- `engramdb slot-index verify`: the number of grams. It changes no file. -/
def cmdSlotIndexVerify (disk : Disk) (argv : List String) : Outcome String ℕ := do
  let args ← Outcome.ofExcept (IndexVerifyArgs.parse argv)
  SlotIndex.verifyFromKeysFile (indexKeys env (disk.keysFile args.keys)) (disk.index args.outDir)
    args.cache.toNat

end Cli

end EngramDB
