import EngramDB.Io.Batch

/-!
# Opening a table

The shards of a table are files of one directory: `shard_NNN.bin` as it comes from the checkpoint,
or `badge_NNN.bin` as `engramdb build` writes it. A directory with both is read through the first.
-/

namespace EngramDB

/-- The directory of a table. -/
structure TableDir where
  /-- `shard_NNN.bin`, for the number of the shard. -/
  shardFile : ℕ → Option Bytes
  /-- `badge_NNN.bin`, for the number of the shard. -/
  badgeFile : ℕ → Option Bytes

namespace TableDir

/-- The directory without files. -/
def empty : TableDir := ⟨fun _ => none, fun _ => none⟩

/-- The file that a shard is read from. -/
def file (dir : TableDir) (shard : ℕ) : Option Bytes :=
  match dir.shardFile shard with
  | some f => some f
  | none => dir.badgeFile shard

end TableDir

/-- Open the shards of a table. A shard without a file is an error, `ENOENT`. -/
def BadgeGather.openWithBackend (dir : TableDir) (L : Layout) (backend : IoBackend) :
    Except IoError BadgeGather :=
  if ∀ i < L.shards, (dir.file i).isSome then
    .ok
      { layout := L
        files := (List.range L.shards).map fun i => (dir.file i).getD []
        backend := backend
        files_length := by rw [List.length_map, List.length_range] }
  else .error (.os 2)

end EngramDB
