import EngramDB.Foundations.Effect
import EngramDB.Foundations.Text
import EngramDB.Io.View
import EngramDB.Keygen.Spec

/-!
# Building a view

The builders gather the rows of the grams chunk by chunk and write their slots to the view file,
which is truncated first. The manifest is written at the very end. `buildView` draws its grams at
random, `buildViewFromKeys` is given their row ids, and `buildViewFromKeysFile` reads them from a
file line by line.

`BuildEnv` stands for what the system does during a build: the order in which the jobs of a gather
finish, which calls fail, and how much of what a failed build has handed over reaches its files. The
files of a view and its keys are distinct.
-/

namespace EngramDB

open SlotBuffer Chunking

namespace View

/-- A call of a build that may fail. -/
inductive BuildCall where
  /-- Opening the view file and truncating it. -/
  | openView
  /-- Creating the keys file. -/
  | createKeys
  /-- The gather of a chunk, after this number of records. -/
  | gather (records : ℕ)
  /-- Writing the record with this index. -/
  | writeRecord (index : ℕ)
  /-- Writing the row id with this index to the keys file. -/
  | writeKey (index : ℕ)
  /-- Flushing the view file. -/
  | flush
  /-- Opening the manifest and truncating it. -/
  | openManifest
  /-- Writing the manifest. -/
  | writeManifest
deriving DecidableEq

/-- What the system does during a build. -/
structure BuildEnv where
  /-- The schedule of the gather after a number of records. -/
  sched : ℕ → Schedule JobResult
  /-- The error of a call that fails. -/
  fails : BuildCall → Option IoError
  /-- The text of an error. -/
  describe : IoError → String
  /-- Bytes handed over by a build that failed before its last flush, as far as they reach the
  view. -/
  viewKept : ℕ
  /-- Characters that reach the keys file if its last flush fails, which nobody is told. -/
  keysKept : Option ℕ

/-- What a build has handed to its files. -/
structure Writer where
  /-- The slots of the view. -/
  records : List Bytes
  /-- The row ids of the keys file, once it is created. -/
  keys : Option (List ℕ)

/-- Writing the files of a view. -/
abbrev Write (α : Type) := Effect (Fault IoError) Writer α

variable (env : BuildEnv)

/-- A call of the system. -/
def call (c : BuildCall) : Write Unit := fun w =>
  match env.fails c with
  | none => (.ok (), w)
  | some e => (.error (.error e), w)

/-- Create the keys file if there is to be one, or panic. -/
def createKeys (keysOut : Option String) : Write Unit := fun w =>
  match keysOut, env.fails .createKeys with
  | none, _ => (.ok (), w)
  | some _, some _ => (.error .panic, w)
  | some _, none => (.ok (), { w with keys := some [] })

/-- A record in its slot: the rest of the slot is zero. -/
def padded (slotBytes : UInt64) (rec : Bytes) : Bytes :=
  rec ++ List.replicate (slotBytes.toNat - rec.length) 0

/-- Write a record. One that does not fit into a slot panics. -/
def writeRecord (slotBytes : UInt64) (rec : Bytes) : Write Unit := fun w =>
  if slotBytes.toNat < rec.length then (.error .panic, w)
  else call env (.writeRecord w.records.length)
    { w with records := w.records ++ [padded slotBytes rec] }

/-- Write a row id to the keys file, if there is one. -/
def writeKey (key : ℕ) : Write Unit := fun w =>
  match w.keys with
  | none => (.ok (), w)
  | some keys => call env (.writeKey keys.length) { w with keys := some (keys ++ [key]) }

/-- Gather the rows of whole grams. An error of the gather keeps its text. -/
def gatherChunk (g : BadgeGather) (chunk : List ℕ) : Write Bytes := fun w =>
  match env.fails (.gather w.records.length) with
  | some e => (.error (.error (.other (env.describe e))), w)
  | none =>
    ((g.gatherPp (env.sched w.records.length) chunk (List.replicate (chunk.length * ROW_BYTES) 0)
      DEFAULT_GATHER_THREADS).mapErr fun e => .other (env.describe e), w)

/-- Gather the rows of whole grams and write their records, then their row ids. -/
def writeChunk (g : BadgeGather) (slotBytes : UInt64) (chunk : List ℕ) : Write Unit := do
  let out ← gatherChunk env g chunk
  forM (List.range (chunk.length / HEAD_W)) fun i =>
    writeRecord env slotBytes (slot RECORD_BYTES out i)
  forM chunk (writeKey env)

/-- The text of a keys file. -/
def keysText (keys : List ℕ) : List Char := Text.unlines (keys.map (Nat.toDigits 10))

/-- The keys file after a build: a build that creates none leaves it alone. -/
def keysAfter (w : Writer) (before : Option (List Char)) : Option (List Char) :=
  match w.keys with
  | none => before
  | some keys =>
    match env.keysKept with
    | none => some (keysText keys)
    | some kept => some ((keysText keys).take kept)

/-- Truncate the view file, write it, and write the manifest when that is done. The manifest is made
of the number of row ids. A manifest that is cut off is not JSON. -/
def writeFiles (files : ViewFiles) (start : Writer) (body : Write ℕ) (manifest : ℕ → Json.Value) :
    Outcome IoError Unit × ViewFiles :=
  match env.fails .openView with
  | some e => (.error (.error e), { files with keys := keysAfter env start files.keys })
  | none =>
    match body start with
    -- a failed body leaves the records that had reached the file
    | (.error fault, w) =>
      (.error fault,
        ⟨some (w.records.flatten.take env.viewKept), files.manifest, keysAfter env w files.keys⟩)
    | (.ok total, w) =>
      match env.fails .openManifest, env.fails .writeManifest with
      | some e, _ =>
        (.error (.error e), ⟨some w.records.flatten, files.manifest, keysAfter env w files.keys⟩)
      -- the manifest was truncated when it was opened
      | none, some e =>
        (.error (.error e), ⟨some w.records.flatten, some .null, keysAfter env w files.keys⟩)
      | none, none =>
        (.ok (), ⟨some w.records.flatten, some (manifest total), keysAfter env w files.keys⟩)

/-- The fields of every manifest: the number of grams, the geometry, and where the rows come
from. -/
def manifestFields (grans : ℕ) (slotBytes : UInt64) (source : String) :
    List (String × Json.Value) :=
  [("grans", .posInt (.ofNat grans)),
    ("heads", .posInt (.ofNat HEAD_W)),
    ("slot_bytes", .posInt slotBytes),
    ("record_bytes", .posInt (.ofNat RECORD_BYTES)),
    ("rows", .posInt (.ofNat (grans * HEAD_W))),
    ("source", .string source)]

/-- The path of the keys file in a manifest. -/
def keysOutField (keysOut : Option String) : String × Json.Value :=
  ("keys_out", keysOut.elim .null .string)

/-! ### Random grams -/

/-- The next state of the random number generator. -/
def lcgNext (state : UInt64) : UInt64 := state * 6364136223846793005 + 1442695040888963407

/-- The row ids of a random gram, and the state of the generator afterwards. -/
def lcgGram (state : UInt64) : Outcome IoError (List ℕ × UInt64) := do
  let s₁ := lcgNext state
  let s₂ := lcgNext s₁
  let s₃ := lcgNext s₂
  let ids ← PleSpec.real.rowidsForSeq
    [(s₁ % 248320).toUInt32, (s₂ % 248320).toUInt32, (s₃ % 248320).toUInt32]
  let first ← Outcome.index ids 0
  return (first.map UInt32.toNat, s₃)

/-- The row ids of `m` random grams. -/
def lcgGrams : ℕ → UInt64 → Outcome IoError (List ℕ × UInt64)
  | 0, state => .ok ([], state)
  | m + 1, state => do
    let (ids, state) ← lcgGram state
    let (rest, state) ← lcgGrams m state
    return (ids ++ rest, state)

/-- Write `left` random grams chunk by chunk. A round that goes on writes at least one. -/
def writeRandom (g : BadgeGather) (slotBytes : UInt64) : ℕ → ℕ → UInt64 → Write Unit
  | 0, _, _ => pure ()
  | fuel + 1, left, state =>
    if left = 0 then pure ()
    else do
      let (rowids, state) ← Effect.lift (lcgGrams (min CHUNK_G left) state)
      writeChunk env g slotBytes rowids
      writeRandom g slotBytes fuel (left - min CHUNK_G left) state

/-- Write a view of `n` random grams: the number of their row ids. -/
def writeRandomView (g : BadgeGather) (n : ℕ) (slotBytes : UInt64) : Write ℕ := do
  writeRandom env g slotBytes n n 0xDEADBEEF12345678
  call env .flush
  return n * HEAD_W

/-- Build a view of `n` random grams. The keys file is created before the view is opened. -/
def buildView (g : BadgeGather) (n : ℕ) (slotBytes : UInt64) (keysOut : Option String)
    (files : ViewFiles) : Outcome IoError Unit × ViewFiles :=
  match createKeys env keysOut ⟨[], none⟩ with
  | (.error fault, _) => (.error fault, files)
  | (.ok (), start) =>
    writeFiles env files start (writeRandomView env g n slotBytes)
      fun _ =>
        .object (manifestFields n slotBytes s!"shards={g.layout.shards}" ++ [keysOutField keysOut])

/-! ### Given row ids -/

/-- The manifest of a view of given row ids. -/
def keysManifest (slotBytes : UInt64) (source : String) (keysOut : Option String) (total : ℕ) :
    Json.Value :=
  .object (manifestFields (total / HEAD_W) slotBytes source ++
    [("layout", .string "access-order"), keysOutField keysOut])

/-- Write a view of grams with given row ids: their number. -/
def writeKeysView (g : BadgeGather) (keys : List ℕ) (slotBytes : UInt64) (keysOut : Option String) :
    Write ℕ := do
  createKeys env keysOut
  forM (chunks CHUNK_ROWS keys) (writeChunk env g slotBytes)
  call env .flush
  return keys.length

/-- Build a view of grams with given row ids. -/
def buildViewFromKeys (g : BadgeGather) (keys : List ℕ) (slotBytes : UInt64)
    (keysOut : Option String) (files : ViewFiles) : Outcome IoError Unit × ViewFiles :=
  if ¬ HEAD_W ∣ keys.length then
    (.error (.error (.invalidInput
      s!"keys length {keys.length} is not a multiple of heads {HEAD_W}")), files)
  else
    writeFiles env files ⟨[], none⟩ (writeKeysView env g keys slotBytes keysOut)
      (keysManifest slotBytes s!"provided-keys:{keys.length} shards={g.layout.shards}" keysOut)

/-- A keys file: an error when it is opened, or what reading each line gives. -/
abbrev KeyLines := Except IoError (List (Except IoError (List Char)))

/-- A keys file with a given text. -/
def KeyLines.ofText (text : List Char) : KeyLines := .ok ((Text.lines text).map .ok)

/-- Read a line: the row ids since the last complete chunk, and the number of those before. A
complete chunk is written. -/
def readLine (g : BadgeGather) (slotBytes : UInt64) (st : List ℕ × ℕ)
    (line : Except IoError (List Char)) : Write (List ℕ × ℕ) := do
  let t := Text.trim (← Effect.lift (Outcome.ofExcept line))
  if t = [] then return st
  match Text.parseU64 t with
  | .error e => throw (.error (.other e.message))
  | .ok v =>
    let chunk := st.1 ++ [v.toNat]
    -- the count is of the row ids that have been written
    if chunk.length = CHUNK_ROWS then
      writeChunk env g slotBytes chunk
      return ([], st.2 + chunk.length)
    else return (chunk, st.2)

/-- Write the rest after the last line: the number of all row ids. -/
def writeTail (g : BadgeGather) (slotBytes : UInt64) (st : List ℕ × ℕ) : Write ℕ := do
  if st.1 = [] then return st.2
  if ¬ HEAD_W ∣ st.1.length then
    throw (.error (.invalidInput
      s!"keys file has {st.1.length + st.2} rowids, not a multiple of heads {HEAD_W}"))
  writeChunk env g slotBytes st.1
  return st.2 + st.1.length

/-- Write a view of the grams whose row ids are on the lines: the number of row ids. -/
def writeLinesView (g : BadgeGather) (lines : List (Except IoError (List Char)))
    (slotBytes : UInt64) (keysOut : Option String) : Write ℕ := do
  createKeys env keysOut
  let total ← writeTail env g slotBytes (← lines.foldlM (readLine env g slotBytes) ([], 0))
  if total = 0 ∨ ¬ HEAD_W ∣ total then
    throw (.error (.invalidInput s!"keys file total {total} rowids not multiple of heads"))
  call env .flush
  return total

/-- Build a view of the grams whose row ids a file has, one on every line. -/
def buildViewFromKeysFile (g : BadgeGather) (keysIn : KeyLines) (slotBytes : UInt64)
    (keysOut : Option String) (files : ViewFiles) : Outcome IoError Unit × ViewFiles :=
  match keysIn with
  | .error e => (.error (.error e), files)
  | .ok lines =>
    writeFiles env files ⟨[], none⟩ (writeLinesView env g lines slotBytes keysOut)
      fun total =>
        keysManifest slotBytes s!"provided-keys-file:{total} shards={g.layout.shards}" keysOut
        total

/-- The row ids of a keys file: reading stops at the first line that cannot be read, without an
error. -/
def readKeys : KeyLines → Except IoError (List ℕ)
  | .error e => .error e
  | .ok lines => do
    let read := (lines.takeWhile fun line => line.isOk).filterMap Except.toOption
    let numbers ← ((read.map Text.trim).filter (· ≠ [])).mapM fun t =>
      (Text.parseU64 t).mapError fun e => .other e.message
    return numbers.map UInt64.toNat

end View

end EngramDB
