import EngramDB.Foundations.Json
import EngramDB.Io.Batch

/-!
# Store-P views

A view holds the sixteen rows of every gram one after another, in slots of a fixed width. A manifest
next to it has the slot width and the number of grams. `ViewReader` opens a view and reads records
by their slot, one at a time or several at once.
-/

namespace EngramDB

open SlotBuffer Chunking

namespace View

def HEAD_W : ℕ := 16
def ROW_BYTES : ℕ := 160
def RECORD_BYTES : ℕ := HEAD_W * ROW_BYTES

/-- Grams in a chunk of the random builder. -/
def CHUNK_G : ℕ := 500000

/-- Rows in a chunk of the other builders. -/
def CHUNK_ROWS : ℕ := 500000 * HEAD_W

end View

/-- The files of a view. -/
structure ViewFiles where
  /-- The records. -/
  view : Option Bytes
  /-- `<view>.manifest.json`, as it is parsed: a text that is not JSON counts as `null`. -/
  manifest : Option Json.Value
  /-- The row ids of the records, one on every line. -/
  keys : Option (List Char)

namespace View

/-- No files. -/
def noFiles : ViewFiles := ⟨none, none, none⟩

/-- The slot width and the number of grams that the manifest gives, or their defaults. -/
def slotOf (files : ViewFiles) : UInt64 × UInt64 :=
  match files.manifest with
  | some m =>
    (((m.get "slot_bytes").bind Json.Value.asU64).getD (.ofNat RECORD_BYTES),
      ((m.get "grans").bind Json.Value.asU64).getD 0)
  | none => (.ofNat RECORD_BYTES, 0)

end View

/-- An open view: its file, the width of its slots and the number of its records. -/
structure ViewReader where
  /-- Contents of the view file. -/
  file : Bytes
  /-- Width of a slot. -/
  slotBytes : UInt64
  /-- Number of records. -/
  count : ℕ
  /-- The file has a slot for every record. -/
  count_le : count ≤ file.length / slotBytes.toNat

namespace ViewReader

/-- Records of a view: as many as the file has slots, but not more than the manifest has grams. -/
def countOf (file : Bytes) (slotBytes grans : UInt64) : ℕ :=
  let countFile := file.length / slotBytes.toNat
  if 0 < grans then min countFile grans.toNat else countFile

theorem countOf_le (file : Bytes) (slotBytes grans : UInt64) :
    countOf file slotBytes grans ≤ file.length / slotBytes.toNat := by
  rw [countOf]
  split_ifs
  · exact Nat.min_le_left _ _
  · exact Nat.le_refl _

/-- Open a view. -/
def openFiles (files : ViewFiles) : Except IoError ViewReader :=
  let (slotBytes, grans) := View.slotOf files
  match files.view with
  | none => .error (.os 2)
  | some file =>
    .ok ⟨file, slotBytes, countOf file slotBytes grans, countOf_le file slotBytes grans⟩

theorem openFiles_eq_ok {files : ViewFiles} {file : Bytes} (h : files.view = some file) :
    openFiles files = .ok ⟨file, (View.slotOf files).1,
      countOf file (View.slotOf files).1 (View.slotOf files).2, countOf_le _ _ _⟩ := by
  simp only [openFiles, h]

variable (os : Pread) (r : ViewReader)

/-- The message for a record that there is not. -/
def outOfRange (index : ℕ) : IoError :=
  .invalidInput s!"view record index {index} out of range (count {r.count})"

/-- The request of a read of `len` bytes at a slot. The offset lies in the file, so it does not wrap
around. -/
def slotReq (index len : ℕ) : ReadReq where
  call := (0, index)
  file := r.file
  off := index * r.slotBytes.toNat
  len := len

/-- Fill a buffer from a slot: what is then in the buffer, and the result. -/
def readSlot (index : ℕ) (buf : Bytes) (len : ℕ) : Except IoError Unit × Bytes :=
  let req := r.slotReq index len
  ((platformReadExactAt os req).2, req.fill buf (platformReadExactAt os req).1)

/-- Read a record, as far as the buffer goes. -/
def readRecord (index : ℕ) (buf : Bytes) : Except IoError ℕ × Bytes :=
  if r.count ≤ index then (.error (r.outOfRange index), buf)
  else
    let want := min r.slotBytes.toNat buf.length
    if want = 0 then (.ok 0, buf)
    else
      let (result, buf) := r.readSlot os index buf want
      (result.map fun _ => want, buf)

/-- Start of the `j`-th slot of an output, a product of machine words. -/
def slotStart (j : ℕ) : ℕ := j * r.slotBytes.toNat % 2 ^ 64

/-- Slicing `out[j * want..(j + 1) * want]`: the start and the bytes, or a panic. -/
def sliceSlot (out : Bytes) (j : ℕ) : Option (ℕ × Bytes) :=
  let lo := r.slotStart j
  let hi := r.slotStart (j + 1)
  if lo ≤ hi ∧ hi ≤ out.length then some (lo, (out.drop lo).take (hi - lo)) else none

/-- Read records one after another into the slots of an output, from slot `j` on. -/
def readSerial : ℕ → List ℕ → Bytes → Outcome IoError Unit × Bytes
  | _, [], out => (.ok (), out)
  | j, index :: indices, out =>
    match r.sliceSlot out j with
    | none => (.error .panic, out)
    | some (lo, buf) =>
      match r.readRecord os index buf with
      | (.ok _, buf) => readSerial (j + 1) indices (store out lo buf)
      | (.error e, buf) => (.error (.error e), store out lo buf)

/-- One job of a parallel read: its records into its part of the output, from slot `j` on. It pushes
the error of the first read that fails, and goes no further. -/
def readJob : ℕ → List ℕ → Bytes → Outcome IoError (Option IoError) × Bytes
  | _, [], out => (.ok none, out)
  | j, index :: indices, out =>
    match r.sliceSlot out j with
    | none => (.error .panic, out)
    | some (lo, buf) =>
      match r.readSlot os index buf buf.length with
      | (.ok (), buf) => readJob (j + 1) indices (store out lo buf)
      | (.error e, buf) => (.ok (some e), store out lo buf)

/-- Read records in jobs of `chunk` records each. The pool runs every job once. -/
def readChunks (sched : Schedule (Option IoError)) (chunk : ℕ) (indices : List ℕ) (out : Bytes) :
    Outcome IoError Unit × Bytes :=
  let chunkBytes := chunk * r.slotBytes.toNat % 2 ^ 64
  -- `chunks_mut` of no byte panics
  if chunkBytes = 0 then (.error .panic, out)
  else
    let outs := chunks chunkBytes out
    let jobs := ((chunks chunk indices).zip outs).map fun p => r.readJob os 0 p.1 p.2
    let out := (jobs.map Prod.snd).flatten ++ (outs.drop jobs.length).flatten
    match scopeRun sched (jobs.map Prod.fst) with
    | .error e => (.error e, out)
    | .ok pushed =>
      match pushed.filterMap id with
      | e :: _ => (.error (.error e), out)
      | [] => (.ok (), out)

/-- Read records by their slots on up to `threads` threads: the result, and what is then in the
output. -/
def readRecordsParallel (sched : Schedule (Option IoError)) (indices : List ℕ) (out : Bytes)
    (threads : ℕ) : Outcome IoError Unit × Bytes :=
  if out.length < r.slotStart indices.length then
    (.error (.error (.invalidInput "read_records: output buffer too small")), out)
  else
    match indices.find? fun i => r.count ≤ i with
    | some bad => (.error (.error (r.outOfRange bad)), out)
    | none =>
      let nt := min (max threads 1) (max indices.length 1)
      if nt ≤ 1 ∨ indices.length < 4 then r.readSerial os 0 indices out
      else r.readChunks os sched ((indices.length + nt - 1) / nt) indices out

/-- Read records by their slots. -/
def readRecords (sched : Schedule (Option IoError)) (indices : List ℕ) (out : Bytes) :
    Outcome IoError Unit × Bytes :=
  r.readRecordsParallel os sched indices out DEFAULT_GATHER_THREADS

end ViewReader

end EngramDB
