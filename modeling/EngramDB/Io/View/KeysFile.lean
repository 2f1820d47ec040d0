import EngramDB.Io.View.Built

/-!
# The keys file of a build that returns

A build that returns has written every row id that it gathered to its keys file, in order, whatever
the table is: `keys_of_buildView`. The row ids of `n` random grams are those of the first `m` and of
the others (`take_drop_randomKeys`).
-/

namespace EngramDB

open Chunking

namespace View

variable {env : BuildEnv} {g : BadgeGather} {slotBytes : UInt64}

theorem onReturn_call (c : BuildCall) : Effect.OnReturn Writer.keys (call env c) id :=
  Effect.onReturn_id fun w => by
    rw [call]
    cases env.fails c <;> rfl

private theorem onReturn_gatherChunk (chunk : List ℕ) :
    Effect.OnReturn Writer.keys (gatherChunk env g chunk) id :=
  Effect.onReturn_id fun w => by
    rw [gatherChunk]
    cases env.fails (.gather w.records.length) <;> rfl

private theorem onReturn_writeRecord (rec : Bytes) :
    Effect.OnReturn Writer.keys (writeRecord env slotBytes rec) id :=
  Effect.onReturn_id fun w => by
    rw [writeRecord]
    split_ifs
    · rfl
    · rw [call]
      cases env.fails (.writeRecord w.records.length) <;> rfl

/-- A row id that was written is in the file. -/
private theorem onReturn_writeKey (key : ℕ) :
    Effect.OnReturn Writer.keys (writeKey env key) (Option.map (· ++ [key])) := by
  intro w a w' h
  rw [writeKey] at h
  cases hkeys : w.keys with
  | none =>
    rw [hkeys] at h
    obtain ⟨-, rfl⟩ := Prod.mk.inj h
    exact hkeys
  | some keys =>
    rw [hkeys] at h
    exact onReturn_call (.writeKey keys.length) _ _ _ h

/-- Appending one list after another appends all of them. -/
theorem foldl_map_append {α : Type} (f : α → List ℕ) (as : List α) (keys : Option (List ℕ)) :
    as.foldl (fun keys a => keys.map (· ++ f a)) keys = keys.map (· ++ as.flatMap f) := by
  induction as generalizing keys with
  | nil =>
    cases keys with
    | none => rfl
    | some keys => exact congrArg some (List.append_nil keys).symm
  | cons a as ih =>
    rw [List.foldl_cons, ih, Option.map_map]
    refine congrArg (keys.map ·) (funext fun ks => ?_)
    rw [Function.comp_apply, List.append_assoc, List.flatMap_cons]

/-- A chunk that was written is in the file. -/
private theorem onReturn_writeChunk (chunk : List ℕ) :
    Effect.OnReturn Writer.keys (writeChunk env g slotBytes chunk) (Option.map (· ++ chunk)) := by
  have hrecords : ∀ out : Bytes, Effect.OnReturn Writer.keys
      (forM (List.range (chunk.length / HEAD_W)) fun i =>
        writeRecord env slotBytes (SlotBuffer.slot RECORD_BYTES out i)) id := fun out =>
    Effect.onReturn_forM_id fun i _ => onReturn_writeRecord _
  have hkeys : Effect.OnReturn Writer.keys (forM chunk (writeKey env)) _ :=
    Effect.onReturn_forM fun key _ => onReturn_writeKey key
  intro w a w' h
  have hsingle : (chunk.flatMap fun key => [key]) = chunk := List.flatMap_singleton' chunk
  rw [(onReturn_gatherChunk chunk).bind (fun out => (hrecords out).bind fun _ => hkeys) w a w' h]
  exact (foldl_map_append (fun key => [key]) chunk w.keys).trans (by rw [hsingle])

/-- The chunks of row ids that were written are in the file. -/
private theorem onReturn_writeChunks (keys : List ℕ) :
    Effect.OnReturn Writer.keys (forM (chunks CHUNK_ROWS keys) (writeChunk env g slotBytes))
      (Option.map (· ++ keys)) := by
  intro w a w' h
  rw [Effect.onReturn_forM (fun c _ => onReturn_writeChunk c) w a w' h]
  refine (foldl_map_append id (chunks CHUNK_ROWS keys) w.keys).trans ?_
  rw [List.flatMap_id, flatten_chunks CHUNK_ROWS_pos]

/-- Once its keys file is created, a build of random grams writes its files. -/
theorem buildView_eq {n : ℕ} {path : String} (hcreate : env.Works .createKeys)
    (before : ViewFiles) :
    buildView env g n slotBytes (some path) before =
      writeFiles env before ⟨[], some []⟩ (writeRandomView env g n slotBytes) fun _ =>
        .object (manifestFields n slotBytes s!"shards={g.layout.shards}" ++
          [keysOutField (some path)]) := by
  have hstart : createKeys env (some path) ⟨[], none⟩ = (.ok (), ⟨[], some []⟩) := by
    simp only [createKeys, hcreate]
  rw [buildView, hstart]

/-- A build of random grams that returns has written their row ids to its keys file. -/
theorem keys_of_buildView {n : ℕ} {path : String} {before after : ViewFiles}
    (hkept : env.keysKept = none)
    (h : buildView env g n slotBytes (some path) before = (.ok (), after)) :
    after.keys = some (keysText (randomKeys n 0xDEADBEEF12345678)) := by
  cases hcreate : env.fails .createKeys with
  | some e =>
    -- without a keys file the build panics
    simp only [buildView, createKeys, hcreate] at h
    cases h
  | none =>
    rw [buildView_eq hcreate] at h
    obtain ⟨total, w, hbody, rfl⟩ := eq_of_writeFiles_ok h
    rw [writeRandomView, writeRandom_eq env g slotBytes n n (Nat.le_refl n)] at hbody
    obtain ⟨_, t, hchunks, hflush⟩ := Effect.bind_eq_ok_iff.mp hbody
    obtain ⟨_, t', hcall, hreturn⟩ := Effect.bind_eq_ok_iff.mp hflush
    obtain ⟨-, rfl⟩ := Prod.mk.inj hreturn
    have hkeys : t'.keys = some (randomKeys n 0xDEADBEEF12345678) := by
      rw [onReturn_call .flush t _ _ hcall, onReturn_writeChunks _ _ _ t hchunks]
      rfl
    rw [keysAfter, hkeys]
    simp only [hkept]

/-- The row ids of grams in the middle are those drawn from the state that is reached before
them. -/
theorem take_drop_randomKeys {m k n : ℕ} (h : m + k ≤ n) (state : UInt64) :
    ((randomKeys n state).drop (16 * m)).take (16 * k) = randomKeys k (lcgNext^[3 * m] state) := by
  obtain ⟨rest, rfl⟩ := Nat.exists_eq_add_of_le h
  have hm : (randomKeys m state).length = 16 * m :=
    (length_randomKeys m state).trans (Nat.mul_comm _ _)
  have hk : (randomKeys k (lcgNext^[3 * m] state)).length = 16 * k :=
    (length_randomKeys k _).trans (Nat.mul_comm _ _)
  rw [Nat.add_assoc, randomKeys_add, List.drop_left' hm, randomKeys_add, List.take_left' hk]

end View

end EngramDB
