import EngramDB.Foundations.Effect
import EngramDB.Foundations.Safetensors
import EngramDB.Io.Batch.Exact
import EngramDB.Io.Batch.Open
import EngramDB.Python.Json

/-!
# The script that extracts the rows of a checkpoint

`extract_ple_rows.py` copies the 128 tensors of the table, one after another, out of the files of a
checkpoint into the shard files of a directory. A file that has the size of its tensor is left
alone, so that a run that was interrupted can be repeated.
-/

namespace EngramDB

namespace ExtractRows

/-- How the script ends when it does not return. -/
inductive ScriptError where
  /-- An exception, or the end of the process. -/
  | python (e : PyError)
  /-- An assertion that fails. -/
  | assertion (shard : ℕ)

/-- The directory of a checkpoint. -/
structure Checkpoint where
  /-- The document in `model.safetensors.index.json`. -/
  index : Py PyJson
  /-- Its other files, by name. -/
  file : String → Option Bytes
  /-- `json.loads`, of the header of a file. -/
  loads : Bytes → Py PyJson

/-- The directory that the rows are extracted to: the file of each shard. -/
abbrev Rows := ℕ → Option Bytes

/-- What a run of the script meets. -/
structure ExtractEnv where
  /-- Whether the run ends before it creates the file of a shard. -/
  opens : ℕ → Option ScriptError
  /-- Whether the run ends at a write to a file, and how many bytes are then written. -/
  writes : ℕ → ℕ → Option (ScriptError × ℕ)

/-! ### The tensors -/

/-- The name of the tensor of a shard. -/
def tensorName (i : ℕ) : String :=
  s!"model.language_model.layers.1.ple.ple_embedding.ngram_embedding.shard_{i}.weight"

/-- `a, b = value`. -/
def unpackTwo (v : PyJson) : Py (PyJson × PyJson) := do
  match ← v.items with
  | [a, b] => pure (a, b)
  | [] | [_] => throw (.valueError "not enough values to unpack (expected 2)")
  | _ => throw (.valueError "too many values to unpack (expected 2)")

/-- A number in a sum or a difference. -/
def number : PyJson → Py ℤ
  | .int n => .ok n
  | .bool b => .ok (if b then 1 else 0)
  | v => .error (.typeError s!"unsupported operand type(s): '{v.typeName}' and 'int'")

/-- The files of the tensors, in the order of the shards. -/
def shardFiles (ckpt : Checkpoint) : Py (List PyJson) := do
  let idx ← ckpt.index
  let wm ← idx.item "weight_map"
  (List.range 128).mapM fun i => wm.item (tensorName i)

/-- A file of the checkpoint. -/
def openFile (ckpt : Checkpoint) (name : PyJson) : Py Bytes :=
  match name with
  | .str s =>
    match ckpt.file s with
    | some file => .ok file
    | none => .error (.osError "No such file or directory")
  | v => .error (.typeError s!"unsupported operand type(s) for /: 'PosixPath' and '{v.typeName}'")

/-- The header of a file, and its length. -/
def loadHeader (ckpt : Checkpoint) (file : Bytes) : Py (PyJson × ℕ) :=
  match Safetensors.headerLength file with
  | none => .error .structError
  | some n =>
    if 2 ^ 63 ≤ n then .error .overflowError
    else do
      let h ← ckpt.loads (Safetensors.header file n)
      pure (h, n)

/-- Whether a value is this number. -/
def isNumber (n : ℤ) : PyJson → Bool
  | .int m => m == n
  | _ => false

/-- The range and the shape of a tensor. -/
def tensorEntry (h : PyJson) (i : ℕ) : Py ((PyJson × PyJson) × (PyJson × PyJson)) := do
  let entry ← h.item (tensorName i)
  let offsets ← entry.item "data_offsets"
  let range ← unpackTwo offsets
  let shape ← entry.item "shape"
  let shape ← unpackTwo shape
  pure (range, shape)

/-- Where a range starts, and its size. -/
def rangeSize (range : PyJson × PyJson) : Py (ℤ × ℤ) := do
  let stop ← number range.2
  let start ← number range.1
  pure (start, stop - start)

/-- The file of a shard, where its tensor starts in it, and the size of the tensor. -/
def tensorOf (ckpt : Checkpoint) (i : ℕ) (name : PyJson) : Except ScriptError (Bytes × ℤ × ℤ) := do
  let file ← (openFile ckpt name).mapError .python
  let (h, length) ← (loadHeader ckpt file).mapError .python
  let (range, rows, width) ← (tensorEntry h i).mapError .python
  if isNumber 2500012 rows && isNumber 160 width then
    let (start, nbytes) ← (rangeSize range).mapError .python
    pure (file, 8 + length + start, nbytes)
  else throw (.assertion i)

/-! ### Copying -/

/-- The bytes that are copied at a time. -/
def CHUNK : ℕ := 64 <<< 20

/-- Write to the file of a shard. A write that fails has written some of its bytes. -/
def write (fails : Option (ScriptError × ℕ)) (buf : Bytes) : Effect ScriptError Bytes Unit :=
  fun out =>
    match fails with
    | some (e, n) => (.error e, out ++ buf.take n)
    | none => (.ok (), out ++ buf)

/-- The loop that copies what remains, from the `n`-th write on. It ends early when the source
does. -/
def copyLoop (fails : ℕ → Option (ScriptError × ℕ)) :
    ℕ → ℕ → Bytes → ℕ → Effect ScriptError Bytes Unit
  | 0, _, _, _ => pure ()
  | fuel + 1, n, source, remaining =>
    if remaining = 0 then pure ()
    else
      let buf := source.take (min CHUNK remaining)
      if buf = [] then pure ()
      else do
        write (fails n) buf
        copyLoop fails fuel (n + 1) (source.drop buf.length) (remaining - buf.length)

/-- Copy a tensor into a new file. Every round but the last copies a byte. -/
def copy (fails : ℕ → Option (ScriptError × ℕ)) (source : Bytes) (nbytes : ℕ) :
    Except ScriptError Unit × Bytes :=
  copyLoop fails nbytes 0 source nbytes []

/-- Whether there is a file of a size. -/
def hasSize (file : Option Bytes) (nbytes : ℤ) : Bool := file.any fun f => (f.length : ℤ) = nbytes

/-- Go to the start of a tensor. -/
def seek (file : Bytes) (start : ℤ) : Except ScriptError Bytes :=
  if start < 0 then .error (.python (.valueError "negative seek value"))
  else if 2 ^ 63 ≤ start then .error (.python .overflowError)
  else .ok (file.drop start.toNat)

/-- Extract the tensor of a shard, unless its file is there. -/
def extractShard (env : ExtractEnv) (ckpt : Checkpoint) (p : ℕ × PyJson) :
    Effect ScriptError Rows Unit := fun dst =>
  match tensorOf ckpt p.1 p.2 with
  | .error e => (.error e, dst)
  | .ok (file, start, nbytes) =>
    if hasSize (dst p.1) nbytes then (.ok (), dst)
    else
      match seek file start with
      | .error e => (.error e, dst)
      | .ok source =>
        match env.opens p.1 with
        | some e => (.error e, dst)
        | none =>
          let (result, out) := copy (env.writes p.1) source nbytes.toNat
          (result, Function.update dst p.1 (some out))

/-- The script. -/
def main (env : ExtractEnv) (ckpt : Checkpoint) : Effect ScriptError Rows Unit :=
  Effect.lift ((shardFiles ckpt).mapError .python) >>= fun files =>
    ((List.range 128).zip files).forM (extractShard env ckpt)

end ExtractRows

end EngramDB
