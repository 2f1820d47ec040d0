import EngramDB.Io.Batch
import Mathlib.Data.List.Destutter

/-!
# Gathers that read whole badges

`BadgeGather` has four more read paths. They read a row together with the badge that it lies in:

* `gatherNaive` serves the keys in order and keeps the last badge;
* `gatherParallel` cuts the request into chunks, serves each with `gatherNaive` in a thread of its
  own, and discards their errors;
* `gatherPlanned` groups the keys by badge and reads every badge once, and discards the results of
  the reads;
* `gatherPlan` does the same for the badges of a plan, and reads the row of any other key directly.

A `PrefetchPlan` lists the badges to read, shard by shard. Its maps are hash maps: `IterOrder`
stands for the order in which the groups of a request are visited.
-/

namespace EngramDB

open SlotBuffer Chunking Grouping

/-- A badge: its shard and its number in the shard. -/
abbrev Badge := ℕ × ℕ

/-- The badges to read, by shard. -/
structure PrefetchPlan where
  /-- The badges of each shard. -/
  shardBadges : List (ℕ × List ℕ)
  /-- Number of badges. -/
  nBadges : ℕ

namespace PrefetchPlan

/-- The plan without badges. -/
def empty : PrefetchPlan := ⟨[], 0⟩

/-- The badges of each shard in order, adjacent duplicates removed. -/
def sortDedup (m : List (ℕ × List ℕ)) : List (ℕ × List ℕ) :=
  m.map fun group => (group.1, (group.2.insertionSort (· ≤ ·)).destutter (· ≠ ·))

/-- Number of badges of a map. -/
def count (m : List (ℕ × List ℕ)) : ℕ := (m.map fun group => group.2.length).sum

/-- The plan that reads the badges of some keys. -/
def build (keys : List ℕ) (L : Layout) : Outcome IoError PrefetchPlan := do
  let shardBadges ← keys.foldlM (fun m k => do
    let (shard, badge, _) ← L.locate k
    pure (push m shard badge)) []
  pure ⟨sortDedup shardBadges, count (sortDedup shardBadges)⟩

/-- The badges of a shard. -/
def badges (plan : PrefetchPlan) (shard : ℕ) : List ℕ := (plan.shardBadges.lookup shard).getD []

/-- The plan with one more badge. -/
def entry (plan : PrefetchPlan) (shard badge : ℕ) : PrefetchPlan :=
  ⟨push plan.shardBadges shard badge, plan.nBadges + 1⟩

/-- The plan in order, each badge once. -/
def settle (plan : PrefetchPlan) : PrefetchPlan :=
  ⟨sortDedup plan.shardBadges, count (sortDedup plan.shardBadges)⟩

end PrefetchPlan

/-- The badge buffer of `gatherNaive` and the badge that it was read for. -/
structure BadgeBuf where
  /-- The badge that the buffer was read for. -/
  last : Option Badge
  /-- The buffer. -/
  buf : Bytes

/-- The positions of the keys of a badge. -/
abbrev BadgeGroup := Badge × List ℕ

namespace BadgeGather

variable (g : BadgeGather)

/-- The request of the read of a badge. -/
def badgeReq (call : ℕ × ℕ) (f : Bytes) (badge : ℕ) : ReadReq where
  call := call
  file := f
  off := badge * g.layout.badgeBytes
  len := g.layout.badgeBytes

/-- Read a badge into a buffer, or fail. -/
def readBadge (call : ℕ × ℕ) (b : Badge) (buf : Bytes) : Outcome IoError Bytes := do
  let f ← Outcome.index g.files b.1
  let r := g.badgeReq call f b.2
  Outcome.ofExcept (g.backend.readExactAt r).2
  pure (r.fill buf (g.backend.readExactAt r).1)

/-- A badge buffer of zeros. -/
def zeroBadge : Bytes := List.replicate g.layout.badgeBytes 0

/-- Copy row `inBadge` of a badge buffer to position `i` of the output. -/
def copyRow (out : Bytes) (i : ℕ) (buf : Bytes) (inBadge : ℕ) : Outcome IoError Bytes := do
  let w := g.layout.width
  let src := inBadge * g.layout.rowBytes
  let row ← sliceRange buf src (src + w)
  copyFromSlice out (i * w) ((i + 1) * w) row

/-- Have the badge in the buffer: it is read unless the buffer is of this badge already. -/
def loadBadge (c : BadgeBuf) (call : ℕ × ℕ) (b : Badge) : Outcome IoError BadgeBuf :=
  if c.last ≠ some b then do
    let buf ← g.readBadge call b c.buf
    pure ⟨some b, buf⟩
  else pure c

/-- Serve key `k` at position `i`. -/
def naiveKey (thread : ℕ) (c : BadgeBuf) (out : Bytes) (i k : ℕ) :
    Outcome IoError (BadgeBuf × Bytes) := do
  let (shard, badge, inBadge) ← g.layout.locate k
  let c ← g.loadBadge c (thread, i) (shard, badge)
  let out ← g.copyRow out i c.buf inBadge
  pure (c, out)

/-- Serve keys one after another, from position `i` on, up to the first that fails. -/
def naiveFrom (thread : ℕ) : BadgeBuf → Bytes → ℕ → List ℕ → Bytes × Outcome IoError Unit
  | _, out, _, [] => (out, .ok ())
  | c, out, i, k :: ks =>
    match g.naiveKey thread c out i k with
    | .ok (c, out) => naiveFrom thread c out (i + 1) ks
    | .error e => (out, .error e)

/-- Gather the rows of `keys` into `out` on one thread: what is then in `out`, and the result. -/
def gatherNaive (thread : ℕ) (keys : List ℕ) (out : Bytes) : Bytes × Outcome IoError Unit :=
  g.naiveFrom thread ⟨none, g.zeroBadge⟩ out 0 keys

/-- Gather chunks of the keys into chunks of the output. A thread that fails leaves its chunk as it
is then; one that panics makes the scope panic. -/
def gatherChunks (chunkKeys : ℕ) (keys : List ℕ) (out : Bytes) : Bytes × Outcome IoError Unit :=
  let outs := chunks (chunkKeys * g.layout.width) out
  let parts := ((chunks chunkKeys keys).zip outs).zipIdx.map fun p =>
    g.gatherNaive p.2 p.1.1 p.1.2
  ((parts.map Prod.fst).flatten ++ (outs.drop parts.length).flatten,
    if parts.any fun part => part.2.isPanic then .error .panic else .ok ())

/-- Gather the rows of `keys` into `out` on several threads. -/
def gatherParallel (keys : List ℕ) (out : Bytes) (threads : ℕ) : Bytes × Outcome IoError Unit :=
  if threads ≤ 1 ∨ keys.length ≤ 1024 then g.gatherNaive 0 keys out
  else
    let chunkKeys := (keys.length + threads - 1) / threads
    -- chunks of no byte: `chunks_mut` panics
    if chunkKeys * g.layout.width = 0 then (out, .error .panic)
    else g.gatherChunks chunkKeys keys out

/-- Copy the rows of the keys at some positions out of the buffer of their badge. -/
def copyGroup (keys : List ℕ) (buf out : Bytes) (idxs : List ℕ) : Outcome IoError Bytes :=
  idxs.foldlM (fun out i => do
    let k ← Outcome.index keys i
    let (_, _, inBadge) ← g.layout.locate k
    g.copyRow out i buf inBadge) out

/-- Group the positions of the keys by badge. -/
def groupByBadge (keys : List ℕ) : Outcome IoError (List BadgeGroup) :=
  keys.zipIdx.foldlM (fun groups p => do
    let (shard, badge, _) ← g.layout.locate p.1
    pure (push groups (shard, badge) p.2)) []

/-- The buffer of a badge in the cache, or a new one. The result of the read is discarded. -/
def cachedBadge (cache : List (Badge × Bytes)) (b : Badge) :
    Outcome IoError (List (Badge × Bytes) × Bytes) :=
  match cache.lookup b with
  | some buf => pure (cache, buf)
  | none => do
    let f ← Outcome.index g.files b.1
    let r := g.badgeReq b f b.2
    let buf := r.fill g.zeroBadge (g.backend.readExactAt r).1
    pure ((b, buf) :: cache, buf)

/-- Serve the keys of a badge. -/
def plannedGroup (keys : List ℕ) (s : List (Badge × Bytes) × Bytes) (group : BadgeGroup) :
    Outcome IoError (List (Badge × Bytes) × Bytes) := do
  let (cache, buf) ← g.cachedBadge s.1 group.1
  let out ← g.copyGroup keys buf s.2 group.2
  pure (cache, out)

/-- Gather the rows of `keys` into `out`, badge by badge. -/
def gatherPlanned (order : IterOrder BadgeGroup) (keys : List ℕ) (out : Bytes) :
    Outcome IoError Bytes := do
  let _ ← PrefetchPlan.build keys g.layout
  let groups ← g.groupByBadge keys
  let (_, out) ← (order.list groups).foldlM (g.plannedGroup keys) ([], out)
  pure out

/-- The request of the read of a row at the offset of row `k` of a file. -/
def directReq (call : ℕ × ℕ) (f : Bytes) (k : ℕ) : ReadReq where
  call := call
  file := f
  off := k * g.layout.rowBytes
  len := g.layout.rowBytes

/-- Read the row of key `k` to position `i` of the output, at the offset of row `k` of the file. -/
def readDirect (shard i k : ℕ) (out : Bytes) : Outcome IoError Bytes := do
  let w := g.layout.width
  let f ← Outcome.index g.files shard
  let r := g.directReq (0, i) f k
  Outcome.ofExcept (g.backend.readExactAt r).2
  let tmp := r.fill (List.replicate g.layout.rowBytes 0) (g.backend.readExactAt r).1
  copyFromSlice out (i * w) ((i + 1) * w) tmp

/-- Put the key with its position into the group of its badge if the plan has the badge, and read
its row if not. -/
def planKey (plan : PrefetchPlan) (s : List BadgeGroup × Bytes) (p : ℕ × ℕ) :
    Outcome IoError (List BadgeGroup × Bytes) := do
  let (shard, badge, _) ← g.layout.locate p.1
  if badge ∈ plan.badges shard then pure (push s.1 (shard, badge) p.2, s.2)
  else do
    let out ← g.readDirect shard p.2 p.1 s.2
    pure (s.1, out)

/-- Read a badge of the plan and serve its keys. -/
def planGroup (keys : List ℕ) (out : Bytes) (group : BadgeGroup) : Outcome IoError Bytes := do
  let buf ← g.readBadge group.1 group.1 g.zeroBadge
  g.copyGroup keys buf out group.2

/-- Gather the rows of `keys` into `out` by a plan. -/
def gatherPlan (order : IterOrder BadgeGroup) (keys : List ℕ) (plan : PrefetchPlan) (out : Bytes) :
    Outcome IoError Bytes := do
  let (groups, out) ← keys.zipIdx.foldlM (g.planKey plan) ([], out)
  (order.list groups).foldlM (g.planGroup keys) out

end BadgeGather

end EngramDB
