import EngramDB.Io.View.Written
import EngramDB.Keygen.Real

/-!
# Grams of a view

* `viewRecords_eq`: with full reads, the slots of a view hold the stored rows of the grams, sixteen
  each, and zeros after them;
* `writeRandom_eq`: drawing random grams chunk by chunk writes the chunks of the row ids of all of
  them.
-/

namespace EngramDB

open SlotBuffer Chunking

namespace View

/-- The rows of a gram. -/
def gramRows (g : BadgeGather) (gram : List ℕ) : Bytes := (gram.map g.storedRow).flatten

/-- A table of rows of 160 bytes that has the rows of all keys, and whose reads deliver them. -/
structure Serves (g : BadgeGather) (keys : List ℕ) : Prop extends Fits g keys where
  /-- A row is handed out whole. -/
  width_eq_rowBytes : g.layout.width = g.layout.rowBytes
  /-- No read is short. -/
  full : g.backend.Full
  /-- The files have the rows. -/
  holds : ∀ k ∈ keys, g.HoldsRow k

/-- A table that serves some keys (`h`) serves fewer of them (`hsub`). -/
theorem Serves.of_subset {g : BadgeGather} {keys keys' : List ℕ} (h : Serves g keys)
    (hsub : keys' ⊆ keys) : Serves g keys' :=
  ⟨h.toFits.of_subset hsub, h.width_eq_rowBytes, h.full, fun k hk => h.holds k (hsub hk)⟩

variable {env : BuildEnv} {g : BadgeGather} {slotBytes : UInt64} {chunk keys : List ℕ}

/-- A stored row of a table that serves it has the bytes of one head. -/
theorem Serves.length_storedRow (h : Serves g keys) {k : ℕ} (hk : k ∈ keys) :
    (g.storedRow k).length = ROW_BYTES := by
  rw [BadgeGather.length_storedRow (h.holds k hk), ← h.width_eq_rowBytes, h.width_eq]

/-- The rows of a chunk that is served (`h`) are the stored ones, in the order of the keys. -/
private theorem Serves.gathered_eq (h : Serves g chunk) :
    gathered g chunk = (chunk.map g.storedRow).flatten := by
  rcases eq_or_ne chunk [] with rfl | hne
  · have hpanic :
        g.gatherPp (Schedule.inOrder _) [] (List.replicate (([] : List ℕ).length * ROW_BYTES) 0)
          DEFAULT_GATHER_THREADS = .error .panic := rfl
    simp only [gathered, hpanic]
    rfl
  · have hout : (List.replicate (chunk.length * ROW_BYTES) (0 : UInt8)).length =
        chunk.length * g.layout.width := by
      rw [List.length_replicate, h.width_eq]
    have hok := BadgeGather.gatherPp_of_full h.full h.badgeRows_pos h.width_eq_rowBytes
      (Schedule.inOrder _) hne (fun k hk => ⟨h.inRange k hk, h.holds k hk⟩) hout
        DEFAULT_GATHER_THREADS
    simp only [gathered, hok]

/-- The slots of a chunk whose rows the table serves (`h`) hold its grams, padded with zeros up to
the slot width. -/
private theorem Serves.chunkRecords_eq (h : Serves g chunk) (slotBytes : UInt64) :
    chunkRecords g slotBytes chunk = (slots HEAD_W chunk).map fun gram =>
      padded slotBytes (gramRows g gram) := by
  rw [chunkRecords, slots, List.map_map]
  refine List.map_congr_left fun i _ => congrArg (padded slotBytes) ?_
  have hwide : ∀ p ∈ chunk.map g.storedRow, p.length = ROW_BYTES := by
    intro p hp
    obtain ⟨k, hk, rfl⟩ := List.mem_map.mp hp
    exact h.length_storedRow hk
  rw [h.gathered_eq, RECORD_BYTES, slot_mul_flatten hwide, gramRows]
  simp only [slot, List.map_take, List.map_drop]

/-- The slots of a view whose rows the table serves (`h`) hold its grams, padded with zeros up to
the slot width. -/
theorem viewRecords_eq (h : Serves g keys) (slotBytes : UInt64) :
    viewRecords g slotBytes keys = (slots HEAD_W keys).map fun gram =>
      padded slotBytes (gramRows g gram) := by
  induction hlen : keys.length using Nat.strongRecOn generalizing keys with
  | _ n ih =>
    subst hlen
    rcases eq_or_ne keys [] with rfl | hne
    · rfl
    · have hpos := List.length_pos_iff.mpr hne
      have hchunk := CHUNK_ROWS_pos
      rw [viewRecords, chunks_eq_cons CHUNK_ROWS_pos hne, List.flatMap_cons,
        (h.of_subset (List.take_subset _ _)).chunkRecords_eq]
      -- the first chunk, and the records of the keys behind it
      have hrest := ih (keys.drop CHUNK_ROWS).length (by rw [List.length_drop]; omega)
        (h.of_subset (List.drop_subset _ _)) rfl
      rw [viewRecords] at hrest
      rw [hrest, ← List.map_append]
      congr 1
      rcases Nat.le_total CHUNK_ROWS keys.length with hle | hle
      · -- a full chunk has whole grams
        have hdvd : HEAD_W ∣ (keys.take CHUNK_ROWS).length := by
          rw [List.length_take, Nat.min_eq_left hle]
          exact ⟨500000, Nat.mul_comm _ _⟩
        rw [← slots_append_of_dvd (by decide) hdvd, List.take_append_drop]
      · rw [List.take_of_length_le hle, List.drop_of_length_le hle]
        exact List.append_nil _

/-- The rows of a gram have the bytes of one record together. -/
theorem Serves.length_gramRows (h : Serves g keys) {gram : List ℕ}
    (hgram : gram ∈ slots HEAD_W keys) :
    (gramRows g gram).length = RECORD_BYTES := by
  have hrows : ∀ p ∈ gram.map g.storedRow, p.length = ROW_BYTES := by
    intro p hp
    obtain ⟨k, hk, rfl⟩ := List.mem_map.mp hp
    refine h.length_storedRow ?_
    obtain ⟨i, -, rfl⟩ := List.mem_map.mp hgram
    exact List.mem_of_mem_drop (List.mem_of_mem_take hk)
  rw [gramRows, length_flatten hrows, List.length_map, length_of_mem_slots hgram]
  rfl

/-- Every slot of a view is as wide as it is to be. -/
theorem Serves.length_of_mem_viewRecords (h : Serves g keys)
    (hslot : RECORD_BYTES ≤ slotBytes.toNat)
    {rec : Bytes} (hrec : rec ∈ viewRecords g slotBytes keys) : rec.length = slotBytes.toNat := by
  rw [viewRecords_eq h] at hrec
  obtain ⟨gram, hgram, rfl⟩ := List.mem_map.mp hrec
  have hlen := h.length_gramRows hgram
  rw [padded, List.length_append, List.length_replicate]
  omega

/-- There is one record for sixteen keys. -/
theorem length_viewRecords (g : BadgeGather) (slotBytes : UInt64) (keys : List ℕ) :
    (viewRecords g slotBytes keys).length = keys.length / HEAD_W := by
  induction hlen : keys.length using Nat.strongRecOn generalizing keys with
  | _ n ih =>
    subst hlen
    rcases eq_or_ne keys [] with rfl | hne
    · rfl
    · have hpos := List.length_pos_iff.mpr hne
      have hchunk := CHUNK_ROWS_pos
      have hrest := ih (keys.drop CHUNK_ROWS).length (by rw [List.length_drop]; omega) _ rfl
      rw [viewRecords] at hrest
      rw [viewRecords, chunks_eq_cons CHUNK_ROWS_pos hne, List.flatMap_cons, List.length_append,
        length_chunkRecords, hrest, List.length_take, List.length_drop]
      simp only [CHUNK_ROWS, HEAD_W]
      omega

/-! ### Random grams -/

/-- The tokens of a random gram. -/
def gramTokens (state : UInt64) : List UInt32 :=
  [(lcgNext state % 248320).toUInt32, (lcgNext (lcgNext state) % 248320).toUInt32,
    (lcgNext (lcgNext (lcgNext state)) % 248320).toUInt32]

/-- The row ids of the tokens of a random gram. -/
def gramTable (state : UInt64) : List (List UInt32) :=
  Ngram.rowsOf PLE_EOS PLE_NGRAM_SIZE PleSpec.realRowids
    (List.replicate (PLE_NGRAM_SIZE - 1) PLE_EOS)
    (gramTokens state)

/-- The row ids of a random gram: those of its first token. -/
def gramRowids (state : UInt64) : List ℕ := ((gramTable state).headD []).map UInt32.toNat

/-- A random gram has a first row of its table. -/
theorem gramTable_eq_cons (state : UInt64) :
    ∃ rest, gramTable state = (gramTable state).headD [] :: rest := by
  have hlen : (gramTable state).length = 3 := Ngram.length_rowsOf _ _ _ _ _
  cases htable : gramTable state with
  | nil =>
    rw [htable] at hlen
    cases hlen
  | cons first rest => exact ⟨rest, rfl⟩

/-- A random gram has sixteen row ids. -/
private theorem length_gramRowids (state : UInt64) : (gramRowids state).length = HEAD_W := by
  obtain ⟨rest, htable⟩ := gramTable_eq_cons state
  have hmem : (gramTable state).headD [] ∈ gramTable state := by
    rw [htable]
    exact List.mem_cons_self
  obtain ⟨i, -, hrow⟩ := List.mem_map.mp hmem
  rw [gramRowids, List.length_map, ← hrow]
  rfl

/-- The row ids of a random gram have 32 bits. -/
private theorem lt_of_mem_gramRowids {state : UInt64} {k : ℕ} (hk : k ∈ gramRowids state) :
    k < 2 ^ 32 := by
  obtain ⟨r, -, rfl⟩ := List.mem_map.mp hk
  exact r.toNat_lt

/-- A gram is drawn in three steps of the generator. -/
theorem lcgGram_eq (state : UInt64) :
    lcgGram state = .ok (gramRowids state, lcgNext^[3] state) := by
  obtain ⟨rest, htable⟩ := gramTable_eq_cons state
  have hids : PleSpec.real.rowidsForSeq (ε := IoError) (gramTokens state) = .ok (gramTable state) :=
    PleSpec.rowidsForSeqWithHistory_real _ _
  rw [gramTokens] at hids
  rw [htable] at hids
  simp only [lcgGram, hids, Except.ok_bind]
  rfl

/-- The row ids of `m` random grams. -/
def randomKeys (m : ℕ) (state : UInt64) : List ℕ :=
  match lcgGrams m state with
  | .ok (ids, _) => ids
  | .error _ => []

/-- Grams are drawn one after another, in three steps each. -/
theorem lcgGrams_eq (m : ℕ) (state : UInt64) :
    lcgGrams m state = .ok (randomKeys m state, lcgNext^[3 * m] state) := by
  have hok : ∃ ids, lcgGrams m state = .ok (ids, lcgNext^[3 * m] state) := by
    induction m generalizing state with
    | zero => exact ⟨[], rfl⟩
    | succ m ih =>
      obtain ⟨rest, hrest⟩ := ih (lcgNext^[3] state)
      refine ⟨gramRowids state ++ rest, ?_⟩
      rw [lcgGrams, lcgGram_eq, Except.ok_bind]
      dsimp only
      rw [hrest, Except.ok_bind, ← Function.iterate_add_apply]
      rfl
  obtain ⟨ids, hids⟩ := hok
  have hkeys : randomKeys m state = ids := by
    rw [randomKeys, hids]
  rw [hids, hkeys]

/-- One gram more is drawn first, and the others go on from the third state behind. -/
theorem randomKeys_succ (m : ℕ) (state : UInt64) :
    randomKeys (m + 1) state = gramRowids state ++ randomKeys m (lcgNext^[3] state) := by
  have h := lcgGrams_eq (m + 1) state
  rw [lcgGrams, lcgGram_eq, Except.ok_bind] at h
  dsimp only at h
  rw [lcgGrams_eq, Except.ok_bind] at h
  exact (Prod.mk.inj (Except.ok.inj h)).1.symm

/-- Random grams have sixteen keys each. -/
theorem length_randomKeys (m : ℕ) (state : UInt64) : (randomKeys m state).length = m * HEAD_W := by
  induction m generalizing state with
  | zero => rfl
  | succ m ih =>
    rw [randomKeys_succ, List.length_append, length_gramRowids, ih, Nat.succ_mul, Nat.add_comm]

/-- Random keys have 32 bits. -/
theorem lt_of_mem_randomKeys {m k : ℕ} {state : UInt64} (hk : k ∈ randomKeys m state) :
    k < 2 ^ 32 := by
  induction m generalizing state with
  | zero => cases hk
  | succ m ih =>
    rw [randomKeys_succ, List.mem_append] at hk
    exact hk.elim lt_of_mem_gramRowids ih

/-- Grams drawn in two parts. -/
theorem randomKeys_add (m k : ℕ) (state : UInt64) :
    randomKeys (m + k) state = randomKeys m state ++ randomKeys k (lcgNext^[3 * m] state) := by
  induction m generalizing state with
  | zero =>
    rw [Nat.zero_add]
    rfl
  | succ m ih =>
    rw [Nat.succ_add, randomKeys_succ, randomKeys_succ, ih, List.append_assoc,
      ← Function.iterate_add_apply]
    rfl

/-- Drawing grams chunk by chunk writes the chunks of the row ids of all of them. -/
theorem writeRandom_eq (env : BuildEnv) (g : BadgeGather) (slotBytes : UInt64) (fuel left : ℕ)
    (hfuel : left ≤ fuel) (state : UInt64) : writeRandom env g slotBytes fuel left state =
      forM (chunks CHUNK_ROWS (randomKeys left state)) (writeChunk env g slotBytes) := by
  induction fuel generalizing left state with
  | zero =>
    obtain rfl : left = 0 := by omega
    rfl
  | succ fuel ih =>
    rw [writeRandom]
    split_ifs with hzero
    · subst hzero
      rfl
    · have hmin : left = min CHUNK_G left + (left - min CHUNK_G left) := by omega
      have hlen := length_randomKeys (min CHUNK_G left) state
      have hkeys := randomKeys_add (min CHUNK_G left) (left - min CHUNK_G left) state
      rw [← hmin] at hkeys
      have hpos : 0 < min CHUNK_G left := Nat.lt_min.mpr ⟨by decide, by omega⟩
      have hne : randomKeys (min CHUNK_G left) state ≠ [] := by
        refine List.ne_nil_of_length_pos ?_
        rw [hlen]
        exact Nat.mul_pos hpos (by decide)
      rw [lcgGrams_eq, Effect.lift_ok_bind]
      dsimp only
      rw [ih _ (by omega), hkeys]
      -- the grams of one round are one chunk, full or the last
      have hcons : ∀ rest, (CHUNK_G ≤ left ∨ rest = []) →
          chunks CHUNK_ROWS (randomKeys (min CHUNK_G left) state ++ rest) =
            randomKeys (min CHUNK_G left) state :: chunks CHUNK_ROWS rest := by
        rintro rest (hge | rfl)
        · have hfull : (randomKeys (min CHUNK_G left) state).length = CHUNK_ROWS := by
            rw [hlen, Nat.min_eq_left hge]
            rfl
          rw [← hfull]
          exact chunks_append (List.length_pos_iff.mpr hne) _
        · have hle : (randomKeys (min CHUNK_G left) state).length ≤ CHUNK_ROWS := by
            rw [hlen]
            exact Nat.mul_le_mul_right _ (Nat.min_le_left _ _)
          rw [List.append_nil, chunks_of_length_le hne hle]
          rfl
      rw [hcons, List.forM_cons]
      rcases Nat.le_total CHUNK_G left with hge | hle
      · exact .inl hge
      · -- the last chunk
        rw [Nat.min_eq_right hle, Nat.sub_self]
        exact .inr rfl

end View

end EngramDB
