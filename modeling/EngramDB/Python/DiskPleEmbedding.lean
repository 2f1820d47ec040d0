import EngramDB.Foundations.OrderedDict
import EngramDB.Foundations.Slots
import EngramDB.Core.Layout
import EngramDB.Python.Basic
import Mathlib.Data.Finset.Card

/-!
# The disk-backed embedding

`DiskPleEmbedding` looks rows up in three places: a bounded cache, rows that a background prefetch
has brought, and a synchronous fetch of what is missing. Prefetches finish, fail or run on while the
embedding waits for them; what happened to each of them is an input of `forward`.

The counters of the statistics are left out.
-/

namespace EngramDB

open SlotBuffer

/-- The arguments of the constructor that `prefetch` and `forward` use. -/
structure DiskPleEmbedding where
  /-- `store.fetch`. -/
  fetch : List ℤ → Py Bytes
  /-- Entries of one row. -/
  embeddingDim : ℕ
  /-- Bytes of one entry. -/
  itemsize : ℕ
  /-- Bound on the cache. Without a positive bound nothing is cached. -/
  cacheSize : ℤ
  /-- Whether there is a timeout for waiting on a prefetch. -/
  hasPrefetchTimeout : Bool

/-- The fields that change. -/
structure DiskPleState where
  /-- Cached rows. -/
  cache : OrderedDict ℤ Bytes
  /-- Rows that prefetches brought, when nothing is cached. -/
  prefetched : OrderedDict ℤ Bytes
  /-- The futures of the prefetches that are not settled, each named by the rows it fetches. -/
  pending : List (List ℤ)
  /-- The rows that the futures fetch. -/
  pendingRows : Finset ℤ
  /-- Whether the embedding was closed. -/
  closed : Bool

/-- What happens to the pending prefetches, by their places, before a `forward` settles them. -/
structure Settling where
  /-- The fetch fails. -/
  fails : ℕ → Bool
  /-- The fetch is not done when the timeout is over. Without a timeout, `forward` waits for it. -/
  late : ℕ → Bool

/-- State of a future. -/
inductive FutureState where
  /-- The fetch goes on. -/
  | running
  /-- The fetch raised. -/
  | failed
  /-- The fetch returned rows. -/
  | done (rows : OrderedDict ℤ Bytes)

namespace OrderedDict

/-- `d[k]`. -/
def item {κ ν : Type} [DecidableEq κ] (d : OrderedDict κ ν) (k : κ) : Py ν :=
  match d.get? k with
  | some v => .ok v
  | none => .error .keyError

end OrderedDict

/-- The rows that are not known, each once, in the order in which they are asked for first. -/
def freshRows (known : ℤ → Bool) : List ℤ → List ℤ → List ℤ
  | _, [] => []
  | seen, r :: rows =>
    if known r ∨ r ∈ seen then freshRows known seen rows
    else r :: freshRows known (r :: seen) rows

/-- `torch.frombuffer`, on the level of bytes: an empty buffer is refused. -/
def frombuffer (raw : Bytes) : Py Bytes :=
  if raw = [] then
    .error (.valueError "both buffer length (0) and count (-1) must not be 0")
  else .ok raw

namespace DiskPleEmbedding

variable (emb : DiskPleEmbedding)

/-- Bytes of one row. -/
def rowBytes : ℕ := emb.embeddingDim * emb.itemsize

/-- A new embedding has cached and prefetched nothing. -/
def new : DiskPleState :=
  { cache := .empty, prefetched := .empty, pending := [], pendingRows := ∅, closed := false }

/-- Fetch rows and cut the bytes into rows. -/
def fetchRows (missing : List ℤ) : Py (OrderedDict ℤ Bytes) := do
  let raw ← emb.fetch missing
  let expected := missing.length * emb.rowBytes
  if raw.length ≠ expected then
    throw (.runtimeError
      s!"EngramDB fetch returned {raw.length} bytes, expected {expected}")
  pure (OrderedDict.empty.update
    (missing.zipIdx.map fun (rowid, i) => (rowid, slot emb.rowBytes raw i)))

/-- Insert rows into the cache and drop the oldest rows beyond its bound. -/
def cacheRows (cache rows : OrderedDict ℤ Bytes) : OrderedDict ℤ Bytes :=
  (cache.update rows.entries).trim emb.cacheSize.toNat

/-- The state of the future at place `i` when it is settled. -/
def futureState (env : Settling) (i : ℕ) (missing : List ℤ) : FutureState :=
  if emb.hasPrefetchTimeout ∧ env.late i then .running
  else if env.fails i then .failed
  else
    match emb.fetchRows missing with
    | .ok rows => .done rows
    | .error _ => .failed

/-- Settle one future. It stays pending while it is running. -/
def settleOne (s : DiskPleState) (missing : List ℤ) : FutureState → DiskPleState
  | .running => { s with pending := s.pending ++ [missing] }
  | .failed => { s with pendingRows := s.pendingRows \ missing.toFinset }
  | .done rows =>
    let s := { s with pendingRows := s.pendingRows \ rows.keys.toFinset }
    if 0 < emb.cacheSize then { s with cache := emb.cacheRows s.cache rows }
    else { s with prefetched := s.prefetched.update rows.entries }

/-- Move the rows of completed prefetches into the cache, or into the buffer without a cache. -/
def settlePrefetches (s : DiskPleState) (env : Settling) : DiskPleState :=
  s.pending.zipIdx.foldl
    (fun s (missing, i) => emb.settleOne s missing (emb.futureState env i missing))
    { s with pending := [] }

/-- Start to fetch the rows that are neither cached nor on their way. -/
def prefetch (s : DiskPleState) (rowids : List ℤ) : Py Unit × DiskPleState :=
  if s.closed then (.error (.runtimeError "DiskPleEmbedding is closed"), s)
  else
    let missing := freshRows (fun r => r ∈ s.cache.keys ∨ r ∈ s.pendingRows) [] rowids
    if missing = [] then (.ok (), s)
    else
      (.ok (), { s with
        pendingRows := s.pendingRows ∪ missing.toFinset, pending := s.pending ++ [missing] })

/-- Settle the prefetches, and fetch the rows that are still missing. -/
def getMissing (s : DiskPleState) (flat : List ℤ) (env : Settling) :
    Py (OrderedDict ℤ Bytes) × DiskPleState :=
  let s := if s.pending = [] then s else emb.settlePrefetches s env
  let (fetched, s) :=
    -- without a cache what was prefetched is used up by this call
    if emb.cacheSize ≤ 0 then (s.prefetched, { s with prefetched := .empty })
    else (OrderedDict.empty, s)
  let missing := freshRows (fun r => r ∈ s.cache.keys ∨ r ∈ fetched.keys) [] flat
  if missing = [] then (.ok fetched, s)
  else
    match emb.fetchRows missing with
    | .error e => (.error e, s)
    | .ok rows =>
      let fetched := fetched.update rows.entries
      (.ok fetched,
        if 0 < emb.cacheSize then { s with cache := emb.cacheRows s.cache fetched } else s)

/-- The tensor of the requested rows, on the level of bytes. -/
def toTensor (flat : List ℤ) (raw : Bytes) : Py Bytes := do
  let expected := flat.length * emb.embeddingDim * emb.itemsize
  if raw.length ≠ expected then
    throw (.runtimeError
      s!"EngramDB fetch returned {raw.length} bytes, expected {expected}")
  frombuffer raw

/-- The bytes of the rows `flat`, one after another. Without a cache and without prefetches, they
are fetched at once. -/
def forward (s : DiskPleState) (flat : List ℤ) (env : Settling) : Py Bytes × DiskPleState :=
  if emb.cacheSize ≤ 0 ∧ s.pending = [] ∧ s.prefetched.entries = [] then
    (emb.fetch flat >>= emb.toTensor flat, s)
  else
    let (fetched, s) := emb.getMissing s flat env
    (do
      let fetched ← fetched
      let rows ← flat.mapM fun r =>
        if emb.cacheSize ≤ 0 then fetched.item r else s.cache.item r
      emb.toTensor flat rows.flatten, s)

end DiskPleEmbedding

/-- A call on the embedding. -/
inductive DiskPleCall where
  /-- `prefetch(rowids)`. -/
  | prefetch (rowids : List ℤ)
  /-- `forward(indices)`, with what happens to the pending prefetches. -/
  | forward (flat : List ℤ) (env : Settling)

namespace DiskPleCall

/-- The rows that a call asks for. -/
def rows : DiskPleCall → List ℤ
  | prefetch rowids => rowids
  | forward flat _ => flat

end DiskPleCall

namespace DiskPleEmbedding

/-- The state after a call. What an exception interrupts has changed the state as far as it got. -/
def step (emb : DiskPleEmbedding) (s : DiskPleState) : DiskPleCall → DiskPleState
  | .prefetch rowids => (prefetch s rowids).2
  | .forward flat env => (emb.forward s flat env).2

end DiskPleEmbedding

end EngramDB
