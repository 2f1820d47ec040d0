import EngramDB.Io.Batch.Machine

/-!
# The bindings

The Python extension and the C library each hand out an open table of one-byte elements
(`StoreHandle`) and a function that fetches rows: `Store.fetch` and `engramdbStoreFetch`. Both are
release builds.
-/

namespace EngramDB

namespace Native

/-- A buffer of the caller, which has less than `2 ^ 63` bytes. -/
abbrev Buffer := { b : Bytes // b.length < 2 ^ 63 }

/-- A table opened by a binding. -/
structure StoreHandle where
  /-- The open table. -/
  batch : BadgeGather
  /-- Bytes per row. -/
  width : UInt64
  /-- The elements of a row are single bytes. -/
  layout_eq : ∃ shards rowsPerShard : UInt64,
    batch.layout = .new64 shards.toNat rowsPerShard.toNat width.toNat 1

/-- The store of the Python extension. -/
structure Store extends StoreHandle where
  /-- Number of jobs of a gather. -/
  threads : ℕ

/-- Fetch rows. Without row ids there is nothing to gather. -/
def Store.fetch (a : Allocator) (s : Store) (sched : Schedule JobResult) (rowids : List UInt64) :
    Outcome IoError Bytes :=
  if rowids = [] then .ok []
  else do
    let out ← a.zeros (wordMul rowids.length s.width.toNat)
    s.batch.gatherPp64 a sched (rowids.map UInt64.toNat) out s.threads

/-- The status of a gather into the first `need` bytes of a buffer, and what the buffer then
holds. -/
def fetchStatus (buf : Bytes) (need : ℕ) : Outcome IoError Bytes → Outcome IoError (ℤ × Bytes)
  | .ok rows => .ok (0, rows ++ buf.drop need)
  | .error (.error _) => .ok (-3, buf)
  | .error .panic => .error .panic

/-- Fetch rows into a buffer: the status, and what the buffer then holds. A null pointer is
`none`. -/
def engramdbStoreFetch (a : Allocator) (sched : Schedule JobResult) (handle : Option StoreHandle)
    (rowids : Option (List UInt64)) (out : Option Buffer) : Outcome IoError (ℤ × Bytes) :=
  match handle, rowids, out with
  | some h, some ids, some buf =>
    let need := ids.length * h.width.toNat
    -- `checked_mul`
    if 2 ^ 64 ≤ need then .ok (-2, buf.1)
    else if need = 0 ∨ buf.1.length < need then .ok (-2, buf.1)
    else
      fetchStatus buf.1 need (h.batch.gatherPp64 a sched (ids.map UInt64.toNat) (buf.1.take need)
        DEFAULT_GATHER_THREADS)
  | _, _, some buf => .ok (-1, buf.1)
  | _, _, none => .ok (-1, [])

end Native

end EngramDB
