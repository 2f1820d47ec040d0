import EngramDB.Foundations.Chunks
import EngramDB.Foundations.Grouping
import EngramDB.Foundations.Slots
import EngramDB.Io.Backend
import Mathlib.Data.List.Sort

/-!
# Batched gather of Store-I rows

`BadgeGather.gatherPp` is the production read path. It groups the keys by shard, sorts each group,
reads the 4 KiB page of each key unless the previous key of the shard lies in the same page, takes
rows that straddle a page edge with a read of their own, and scatters the rows of every job back to
the positions of their keys.

The jobs run on a pool. `Schedule` stands for what the pool leaves open: the order in which jobs
finish, and whether a panic of a job is already recorded when the caller looks for one.
-/

namespace EngramDB

open SlotBuffer Chunking Grouping

/-- Number of jobs a gather is split into by default. -/
def DEFAULT_GATHER_THREADS : ℕ := 32

/-- Bytes in a page: the unit and the alignment of a page read. -/
def PAGE : ℕ := 4096

/-- What running a list of jobs on the pool leaves open. -/
structure Schedule (α : Type) where
  /-- The order in which the jobs finish. -/
  finish : List α → List α
  /-- Every job finishes once. -/
  finish_perm : ∀ l, (finish l).Perm l
  /-- Whether the caller finds the panic of a job recorded after all jobs finished. -/
  panicSeen : Bool

/-- The jobs finish in the order they were submitted in, and a panic is seen. -/
def Schedule.inOrder (α : Type) : Schedule α where
  finish l := l
  finish_perm l := List.Perm.refl l
  panicSeen := true

/-- Run jobs on the pool and collect what they push, in the order in which they finish. A job that
panics pushes nothing, and its panic resumes in the caller if it is seen. -/
def scopeRun {ε α : Type} (sched : Schedule α) (jobs : List (Outcome ε α)) :
    Outcome ε (List α) :=
  if sched.panicSeen ∧ jobs.any (fun j => j.toOption.isNone) then .error .panic
  else .ok (sched.finish (jobs.filterMap Except.toOption))

/-- Slicing `rows[lo..hi]`, which panics past the end. -/
def sliceRange {ε : Type} (rows : Bytes) (lo hi : ℕ) : Outcome ε Bytes :=
  if lo ≤ hi ∧ hi ≤ rows.length then .ok ((rows.drop lo).take (hi - lo)) else .error .panic

/-- `out[lo..hi].copy_from_slice(src)`, which panics past the end or on a length mismatch. -/
def copyFromSlice {ε : Type} (out : Bytes) (lo hi : ℕ) (src : Bytes) : Outcome ε Bytes :=
  if lo ≤ hi ∧ hi ≤ out.length ∧ src.length = hi - lo then .ok (store out lo src)
  else .error .panic

/-- An open table: its layout, its shard files and the backend that reads them. -/
structure BadgeGather where
  /-- Layout of the table. -/
  layout : Layout
  /-- Contents of the shard files. -/
  files : List Bytes
  /-- The backend all reads go through. -/
  backend : IoBackend
  /-- One file was opened for each shard. -/
  files_length : files.length = layout.shards

/-- The keys of one shard, each with its position in the request. -/
abbrev Task := ℕ × List (ℕ × ℕ)

/-- What a job pushes: the request positions of its rows, and the rows one after another. -/
abbrev JobResult := List ℕ × Bytes

/-- The page buffer of a shard and the page it was last read for. -/
structure PageBuf where
  /-- Start of the page the buffer was last read for. -/
  lastPage : Option ℕ
  /-- The buffer. -/
  page : Bytes

namespace BadgeGather

variable (g : BadgeGather)

/-- Offset of a row inside its shard file. -/
def byteOff (k : ℕ) : ℕ := k % g.layout.rowsPerShard * g.layout.rowBytes

/-- Start of the page that an offset lies in. -/
def pageId (off : ℕ) : ℕ := off / PAGE * PAGE

/-- Group the keys by shard, each with its position in the request, and sort the groups. -/
def groupKeys (keys : List ℕ) : Outcome IoError (List Task) := do
  let groups ← keys.zipIdx.foldlM (fun groups p => do
    let (shard, _, _) ← g.layout.locate p.1
    pure (push groups shard p)) []
  pure (groups.insertionSort fun a b => a.1 ≤ b.1)

/-- The request of a page read: a page and one row more, so that a row that starts in the page
lies in the buffer. -/
def pageReq (shard : ℕ) (f : Bytes) (n k : ℕ) : ReadReq where
  call := (shard, n)
  file := f
  off := pageId (g.byteOff k)
  len := PAGE + g.layout.rowBytes

/-- The request of the read of a single row. -/
def rowReq (shard : ℕ) (f : Bytes) (n k : ℕ) : ReadReq where
  call := (shard, n)
  file := f
  off := g.byteOff k
  len := g.layout.rowBytes

/-- Bytes stored by the page read for a key: a failed read counts as one of no bytes. -/
def pageGot (shard : ℕ) (f : Bytes) (n k : ℕ) : ℕ :=
  match g.backend.readAt (g.pageReq shard f n k) with
  | .ok got => got
  | .error _ => 0

/-- The page buffer after the page of key `k`, the `n`-th of its shard, was asked for: the page is
read unless the buffer is of that page already. The result of the read is discarded. -/
def loadPage (shard : ℕ) (f : Bytes) (c : PageBuf) (n k : ℕ) : PageBuf :=
  if c.lastPage ≠ some (pageId (g.byteOff k)) then
    { lastPage := some (pageId (g.byteOff k))
      page := (g.pageReq shard f n k).fill c.page (g.pageGot shard f n k) }
  else c

/-- The row of key `k`: taken from the page buffer, or read on its own when it crosses the page
edge. The result of that read is discarded, too. -/
def takeRow (shard : ℕ) (f : Bytes) (c : PageBuf) (n k : ℕ) : Bytes :=
  let inPage := g.byteOff k - pageId (g.byteOff k)
  if inPage + g.layout.rowBytes ≤ PAGE then (c.page.drop inPage).take g.layout.rowBytes
  else
    let r := g.rowReq shard f n k
    r.fill (List.replicate g.layout.rowBytes 0) (g.backend.readExactAt r).1

/-- Serve the keys of a shard one after another, from the `n`-th on. -/
def servePairs (shard : ℕ) (f : Bytes) : PageBuf → ℕ → List (ℕ × ℕ) → List (ℕ × Bytes)
  | _, _, [] => []
  | c, n, (k, oi) :: ps =>
    let c' := g.loadPage shard f c n k
    (oi, g.takeRow shard f c' n k) :: servePairs shard f c' (n + 1) ps

/-- The page buffer a shard starts with. -/
def freshPage : PageBuf := ⟨none, List.replicate (PAGE + 2 * g.layout.rowBytes) 0⟩

/-- Order of the `(key, position)` pairs of a shard. -/
def pairLe (a b : ℕ × ℕ) : Prop := a.1 < b.1 ∨ (a.1 = b.1 ∧ a.2 ≤ b.2)

instance : DecidableRel pairLe := fun a b =>
  inferInstanceAs (Decidable (a.1 < b.1 ∨ (a.1 = b.1 ∧ a.2 ≤ b.2)))

/-- Run one task: sort its pairs, and append the row of each key and its position. -/
def runTask (acc : JobResult) (t : Task) : Outcome IoError JobResult := do
  let pairs := t.2.insertionSort pairLe
  let f ← Outcome.index g.files t.1
  let served := g.servePairs t.1 f g.freshPage 0 pairs
  pure (acc.1 ++ served.map Prod.fst, acc.2 ++ served.flatMap Prod.snd)

/-- Run the tasks of a job one after another. -/
def runJob (tasks : List Task) : Outcome IoError JobResult :=
  tasks.foldlM g.runTask ([], [])

/-- Copy the rows of a job result into the output, `width` bytes each. -/
def scatterResult (out : Bytes) (r : JobResult) : Outcome IoError Bytes :=
  r.1.zipIdx.foldlM (fun out p => do
    let w := g.layout.width
    let row ← sliceRange r.2 (p.2 * w) ((p.2 + 1) * w)
    copyFromSlice out (p.1 * w) ((p.1 + 1) * w) row) out

/-- Number of jobs: one for each task, but at most `threads` and at least one. -/
def jobCount (threads tasks : ℕ) : ℕ := min (max threads 1) tasks

/-- Gather the rows of `keys` into `out` with up to `threads` jobs. -/
def gatherPp (sched : Schedule JobResult) (keys : List ℕ) (out : Bytes) (threads : ℕ) :
    Outcome IoError Bytes := do
  let tasks ← g.groupKeys keys
  let nt := jobCount threads tasks.length
  -- `div_ceil` by zero panics: there is no task to divide among the jobs
  if nt = 0 then throw .panic
  let chunk := (tasks.length + nt - 1) / nt
  let results ← scopeRun sched ((chunks chunk tasks).map g.runJob)
  results.foldlM g.scatterResult out

end BadgeGather

end EngramDB
