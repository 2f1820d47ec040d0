import EngramDB.Foundations.Machine
import EngramDB.Io.Batch

/-!
# The production gather, word for word

`gatherPp` computes with natural numbers and has all the memory it wants. `gatherPp64` is the same
code with the sums and products of a 64-bit machine (`Foundations.Machine`), the bounds checks of
every slice, and every buffer asked for. The numbers of a request come from outside and are not
checked, so this is where a request can crash the gather.
-/

namespace EngramDB

open SlotBuffer Chunking Grouping

namespace Layout

/-- The layout of a table of `width`-element rows of `elemBytes` bytes each. -/
def new64 (shards rowsPerShard width elemBytes : ℕ) : Layout :=
  { shards, rowsPerShard, width
    rowBytes := wordMul width elemBytes
    badgeRows := alignedBadgeRows (wordMul width elemBytes) 4096 }

/-- A badge holds at least one row. -/
theorem badgeRows_new64_pos (shards rowsPerShard width elemBytes : ℕ) :
    0 < (new64 shards rowsPerShard width elemBytes).badgeRows := by
  simp only [new64, alignedBadgeRows]
  omega

end Layout

namespace BadgeGather

variable (a : Allocator) (g : BadgeGather)

/-- Offset of a row inside its shard file. -/
def byteOff64 (k : ℕ) : ℕ := wordMul (k % g.layout.rowsPerShard) g.layout.rowBytes

/-- The request of a page read. -/
def pageReq64 (shard : ℕ) (f : Bytes) (n k : ℕ) : ReadReq where
  call := (shard, n)
  file := f
  off := pageId (g.byteOff64 k)
  len := wordAdd PAGE g.layout.rowBytes

/-- The request of the read of a single row. -/
def rowReq64 (shard : ℕ) (f : Bytes) (n k : ℕ) : ReadReq where
  call := (shard, n)
  file := f
  off := g.byteOff64 k
  len := g.layout.rowBytes

/-- Bytes stored by the page read for a key: a failed read counts as one of no bytes. -/
def pageGot64 (shard : ℕ) (f : Bytes) (n k : ℕ) : ℕ :=
  match g.backend.readAt (g.pageReq64 shard f n k) with
  | .ok got => got
  | .error _ => 0

/-- The page buffer after the page of key `k`, the `n`-th of its shard, was asked for. -/
def loadPage64 (shard : ℕ) (f : Bytes) (c : PageBuf) (n k : ℕ) : Outcome IoError PageBuf :=
  if c.lastPage ≠ some (pageId (g.byteOff64 k)) then
    -- `&mut page[..want]`
    if wordAdd PAGE g.layout.rowBytes ≤ c.page.length then
      .ok
        { lastPage := some (pageId (g.byteOff64 k))
          page := (g.pageReq64 shard f n k).fill c.page (g.pageGot64 shard f n k) }
    else .error .panic
  else .ok c

/-- The row of key `k`: taken from the page buffer, or read on its own when it crosses the page
edge. -/
def takeRow64 (shard : ℕ) (f : Bytes) (c : PageBuf) (n k : ℕ) : Outcome IoError Bytes :=
  let inPage := g.byteOff64 k - pageId (g.byteOff64 k)
  if wordAdd inPage g.layout.rowBytes ≤ PAGE then
    sliceRange c.page inPage (wordAdd inPage g.layout.rowBytes)
  else do
    let tmp ← a.zeros g.layout.rowBytes
    let r := g.rowReq64 shard f n k
    pure (r.fill tmp (g.backend.readExactAt r).1)

/-- Serve the keys of a shard one after another, from the `n`-th on, and append to what the job
has. -/
def servePairs64 (shard : ℕ) (f : Bytes) :
    PageBuf → ℕ → List (ℕ × ℕ) → JobResult → Outcome IoError JobResult
  | _, _, [], acc => .ok acc
  | c, n, (k, oi) :: ps, acc => do
    let c ← g.loadPage64 shard f c n k
    let row ← g.takeRow64 a shard f c n k
    let rows ← a.extend acc.2 row
    servePairs64 shard f c (n + 1) ps (acc.1 ++ [oi], rows)

/-- Run one task: sort its pairs, and append the row of each key and its position. -/
def runTask64 (acc : JobResult) (t : Task) : Outcome IoError JobResult := do
  let pairs := t.2.insertionSort pairLe
  let f ← Outcome.index g.files t.1
  let page ← a.zeros (wordAdd PAGE (wordMul 2 g.layout.rowBytes))
  g.servePairs64 a t.1 f ⟨none, page⟩ 0 pairs acc

/-- Run the tasks of a job one after another. -/
def runJob64 (tasks : List Task) : Outcome IoError JobResult :=
  tasks.foldlM (g.runTask64 a) ([], [])

/-- Copy row `p.2` of a job result to position `p.1` of the output. -/
def copyRow64 (rows : Bytes) (out : Bytes) (p : ℕ × ℕ) : Outcome IoError Bytes := do
  let w := g.layout.width
  let row ← sliceRange rows (wordMul p.2 w) (wordMul (p.2 + 1) w)
  copyFromSlice out (wordMul p.1 w) (wordMul (p.1 + 1) w) row

/-- Copy the rows of a job result into the output, `width` bytes each. -/
def scatterResult64 (out : Bytes) (r : JobResult) : Outcome IoError Bytes :=
  r.1.zipIdx.foldlM (g.copyRow64 r.2) out

/-- Gather the rows of `keys` into `out` with up to `threads` jobs. -/
def gatherPp64 (sched : Schedule JobResult) (keys : List ℕ) (out : Bytes) (threads : ℕ) :
    Outcome IoError Bytes := do
  let tasks ← g.groupKeys keys
  let nt := jobCount threads tasks.length
  -- `div_ceil` by zero panics: there is no task to divide among the jobs
  if nt = 0 then throw .panic
  let chunk := (tasks.length + nt - 1) / nt
  let results ← scopeRun sched ((chunks chunk tasks).map (g.runJob64 a))
  results.foldlM g.scatterResult64 out

end BadgeGather

end EngramDB
