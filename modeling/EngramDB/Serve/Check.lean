import EngramDB.Serve
import Mathlib.Data.List.Sort

/-!
# Checking the tables of a root directory

`list_tables` names the directories under a root that hold a manifest or data, and `check_root`
goes through the shard files of each. A table is checked by its manifest alone: every shard must
have a file, which must not be empty and must hold whole rows. How many rows it must hold is not
looked at.
-/

namespace EngramDB

open Json

namespace Serve

/-- The number of a shard in the name of its file, with three digits at least. -/
def shardDigits (i : ℕ) : List Char :=
  List.replicate (3 - (Nat.toDigits 10 i).length) '0' ++ Nat.toDigits 10 i

/-- `shard_NNN.bin`. -/
def shardName (i : ℕ) : String := String.ofList ("shard_".toList ++ shardDigits i ++ ".bin".toList)

/-- `badge_NNN.bin`. -/
def badgeName (i : ℕ) : String := String.ofList ("badge_".toList ++ shardDigits i ++ ".bin".toList)

/-- The directory of a table: its files by name. -/
structure Folder where
  /-- The files, in the order in which they are listed. -/
  files : List (String × Bytes)
  /-- A file has less than `2 ^ 63` bytes. -/
  length_lt : ∀ p ∈ files, p.2.length < 2 ^ 63

namespace Folder

/-- A file of the directory. -/
def file (folder : Folder) (name : String) : Option Bytes := folder.files.lookup name

/-- The shard files. -/
def tableDir (folder : Folder) : TableDir where
  shardFile i := folder.file (shardName i)
  badgeFile i := folder.file (badgeName i)

/-- The name of a file that holds rows. -/
def isDataName (name : String) : Bool :=
  ("shard_".toList.isPrefixOf name.toList && ".bin".toList.isSuffixOf name.toList) ||
    ("badge_".toList.isPrefixOf name.toList && ".bin".toList.isSuffixOf name.toList)

/-- Whether the directory has a manifest or data. -/
def tableIsDataDir (folder : Folder) : Bool :=
  (folder.file "manifest.json").isSome || folder.files.any fun p => isDataName p.1

/-- The manifest, if it is there and parses. -/
def loadManifest (parse : Bytes → Except String Value) (folder : Folder) : Option Value :=
  (folder.file "manifest.json").bind fun data => (parse data).toOption

private theorem file_tableDir {folder : Folder} {i : ℕ} {f : Bytes}
    (h : folder.tableDir.file i = some f) :
    ∃ name, (name, f) ∈ folder.files := by
  have hmem {name : String} (hf : folder.file name = some f) : (name, f) ∈ folder.files := by
    obtain ⟨before, after, hfiles, -⟩ := List.lookup_eq_some_iff.mp hf
    rw [hfiles]
    exact List.mem_append_right _ List.mem_cons_self
  rw [TableDir.file] at h
  split at h
  next f' hf =>
    obtain rfl := Option.some.inj h
    exact ⟨_, hmem hf⟩
  next => exact ⟨_, hmem h⟩

/-- The table in the directory, as the server opens it. -/
def entry (parse : Bytes → Except String Value) (folder : Folder) : TableEntry where
  manifest := folder.loadManifest parse
  files := folder.tableDir
  length_lt h := by
    obtain ⟨name, hmem⟩ := file_tableDir h
    exact folder.length_lt _ hmem

end Folder

/-- An entry of the root directory. -/
structure RootEntry where
  /-- Its name, if it is valid UTF-8. -/
  name : Option String
  /-- The directory, if it is one. -/
  folder : Option Folder

/-- A root directory. -/
structure RootDir where
  /-- Its entries, in the order in which they are listed, or an error. -/
  listing : Except String (List (Except String RootEntry))
  /-- The directory that a path under the root leads to. -/
  folder : String → Option Folder
  /-- The name of an entry leads to it. -/
  folder_eq : ∀ entries, listing = .ok entries → ∀ e, .ok e ∈ entries →
    ∀ name, e.name = some name → folder name = e.folder

/-! ### Listing -/

/-- The name of an entry that is a table. -/
def tableName (e : RootEntry) : Option String :=
  e.folder.bind fun folder => if folder.tableIsDataDir then e.name else none

/-- The tables under a root, sorted. An entry that cannot be read is an error. -/
def listTables (root : RootDir) : Except String (List String) := do
  let entries ← root.listing
  let entries ← entries.mapM id
  pure ((entries.filterMap tableName).mergeSort (· ≤ ·))

/-- The response to `list_tables`. -/
def tablesResponse (root : RootDir) : Value :=
  match listTables root with
  | .ok tables => .object [("ok", .bool true), ("tables", .array (tables.map .string))]
  | .error e => errorResponse e

/-- The server of the tables under a root. -/
def serverOf (root : RootDir) (srv : Server) : Server :=
  { srv with
    root := fun table => (root.folder table).map (Folder.entry srv.parseSlice)
    listTables := tablesResponse root }

/-! ### Checking a table -/

/-- What a check has found. -/
structure Findings where
  /-- How many shards have a file. -/
  shardsFound : ℕ
  /-- What is wrong. -/
  issues : List String

/-- Nothing found yet. -/
def Findings.none : Findings := ⟨0, []⟩

/-- Check the file of a shard. -/
def checkShard (folder : Folder) (L : Layout) (c : Findings) (i : ℕ) : Outcome String Findings :=
  match folder.tableDir.file i with
  | none => .ok { c with issues := c.issues ++ [s!"missing shard file {i}"] }
  | some f =>
    let found := c.shardsFound + 1
    if f.length = 0 then .ok ⟨found, c.issues ++ [s!"shard {i} is empty"]⟩
    -- the remainder by zero panics
    else if L.rowBytes = 0 then .error .panic
    else if f.length % L.rowBytes ≠ 0 then
      .ok ⟨found, c.issues ++
        [s!"shard {i} size {f.length} is not a multiple of row_bytes {L.rowBytes}"]⟩
    else .ok ⟨found, c.issues⟩

/-- The layout that a table is checked by. -/
def checkLayout (parse : Bytes → Except String Value) (folder : Folder) : Except String Layout :=
  match folder.loadManifest parse with
  | none => .error "missing or invalid manifest.json"
  | some manifest =>
    match layoutFromManifest manifest with
    | none => .error "manifest has no valid layout"
    | some L => .ok L

/-- Whether nothing is wrong. -/
def Findings.ok (c : Findings) (L : Layout) : Bool := c.shardsFound = L.shards ∧ c.issues = []

/-- The report on a table. -/
def Findings.report (c : Findings) (L : Layout) : Value :=
  .object [("ok", .bool (c.ok L)), ("shards_found", .posInt (.ofNat c.shardsFound)),
    ("shards_expected", .posInt (.ofNat L.shards)), ("row_bytes", .posInt (.ofNat L.rowBytes)),
    ("issues", .array (c.issues.map .string))]

/-- Check the shard files of a table against its manifest. -/
def checkTable (parse : Bytes → Except String Value) (folder : Folder) : Outcome String Value := do
  let L ← Outcome.ofExcept (checkLayout parse folder)
  let findings ← (List.range L.shards).foldlM (checkShard folder L) Findings.none
  pure (findings.report L)

/-! ### Checking all tables -/

/-- Whether a report says `"ok": true`. -/
def reportsOk (report : Value) : Bool :=
  match report.get "ok" with
  | some (.bool b) => b
  | _ => false

/-- A report with the name of its table. -/
def withTable (report : Value) (table : String) : Value :=
  match report with
  | .object fields => .object (fields ++ [("table", .string table)])
  | v => v

/-- The report on a table that could not be checked. -/
def failedReport (table e : String) : Value :=
  .object [("table", .string table), ("ok", .bool false), ("error", .string e)]

/-- Check the table of a name. A table that cannot be checked is reported, and the check goes on. -/
def checkNamed (parse : Bytes → Except String Value) (root : RootDir) (table : String) :
    Outcome String Value :=
  match root.folder table with
  | none => .ok (failedReport table "missing or invalid manifest.json")
  | some folder =>
    match checkTable parse folder with
    | .ok report => .ok (withTable report table)
    | .error (.error e) => .ok (failedReport table e)
    | .error .panic => .error .panic

/-- Check every table under a root. -/
def checkRoot (parse : Bytes → Except String Value) (root : RootDir) : Outcome String Value := do
  let tables ← Outcome.ofExcept (listTables root)
  let results ← tables.mapM (checkNamed parse root)
  pure (.object [("ok", .bool (results.all reportsOk)),
    ("table_count", .posInt (.ofNat tables.length)), ("tables", .array results)])

/-- `engramdb check`: the exit is an error unless all tables are in order. -/
def cmdCheck (parse : Bytes → Except String Value) (disk : String → RootDir) (argv : List String) :
    Outcome String Unit := do
  match argv with
  | [] => throw (.error "需要 <root>")
  | path :: _ =>
    let summary ← checkRoot parse (disk path)
    if reportsOk summary then pure ()
    else throw (.error "one or more tables failed integrity check")

end Serve

end EngramDB
