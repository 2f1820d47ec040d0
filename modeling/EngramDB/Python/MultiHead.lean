import EngramDB.Foundations.Tensor
import EngramDB.Python.DiskPleEmbedding.ReadThrough
import EngramDB.Python.PleSequenceStore.Batches

/-!
# The disk-backed embedding of several heads

`DiskMultiHeadEmbedding` looks the rows of a tensor of hash indices up. The tables of the heads
stand one behind the other, so the hash indices are shifted by the sizes of the tables before
theirs. Rows that are not cached are fetched, and inserted one by one; every insertion drops the
oldest rows beyond the bound of the cache. The result is joined from the cache after all insertions,
so a `forward` finds its rows iff the insertions drop none of them.

* `insertAll_singletons`: inserting rows one by one as one insertion;
* `fill_spec`: what a `forward` inserts;
* `forward_returns_iff`: one `forward` returns the stored rows iff they fit;
* `returnsRows_iff_allFit`: so it is along every run.
-/

namespace EngramDB

open SlotBuffer OrderedDict

namespace RowQueue

variable {cap : ℕ} {queue rows flat : List ℤ}

/-- Rows that are not in the queue are put behind it, each once. -/
theorem insertKeys_append {new : List ℤ} (h : ∀ r ∈ rows, r ∉ queue) :
    insertKeys (queue ++ new) rows = queue ++ insertKeys new rows := by
  induction rows generalizing new with
  | nil => rfl
  | cons r rows ih =>
    have hr : r ∉ queue := h r List.mem_cons_self
    have hrest : ∀ r ∈ rows, r ∉ queue := fun r' hr' => h r' (List.mem_cons_of_mem _ hr')
    rw [insertKeys, insertKeys, List.foldl_cons, List.foldl_cons]
    by_cases hnew : r ∈ new
    · rw [if_pos (List.mem_append_right _ hnew), if_pos hnew]
      exact ih hrest
    · rw [if_neg (List.not_mem_append hr hnew), if_neg hnew, List.append_assoc]
      exact ih hrest

/-- The last key is inserted into what the others gave, unless it is there. -/
theorem insertKeys_concat (ks : List ℤ) (r : ℤ) :
    insertKeys ks (rows ++ [r]) = if r ∈ insertKeys ks rows then insertKeys ks rows
      else insertKeys ks rows ++ [r] := by
  rw [insertKeys, List.foldl_append]
  rfl

/-- A queue within its bound stays so when batches are inserted. -/
private theorem length_insertAll_le {batches : List (List ℤ)} (hqueue : queue.length ≤ cap) :
    (insertAll cap queue batches).length ≤ cap := by
  induction batches generalizing queue with
  | nil => exact hqueue
  | cons batch batches ih => exact ih (length_insert_le cap queue batch)

/-- New rows that fit are inserted one by one as in one insertion: the rows that each of them drops
are older than all of them. -/
theorem insertAll_singletons (hqueue : queue.length ≤ cap) (hnew : ∀ r ∈ rows, r ∉ queue)
    (hfit : (insertKeys [] rows).length ≤ cap) :
    insertAll cap queue (rows.map fun r => [r]) = insert cap queue rows := by
  induction rows using List.reverseRecOn with
  | nil =>
    show queue = queue.drop (queue.length - cap)
    rw [Nat.sub_eq_zero_of_le hqueue, List.drop_zero]
  | append_singleton rows r ih =>
    have hrows : ∀ r ∈ rows, r ∉ queue := fun r' hr' => hnew r' (List.mem_append_left _ hr')
    have hr : r ∉ queue := hnew r (by simp)
    rw [insertKeys_concat] at hfit
    have hlen : (insertKeys [] rows).length ≤ cap := by
      split_ifs at hfit
      · exact hfit
      · rw [List.length_append] at hfit
        omega
    -- the new rows are appended, so the queue and the rows before this one stand side by side
    have hkeys : insertKeys queue rows = queue ++ insertKeys [] rows := by
      rw [← insertKeys_append hrows, List.append_nil]
    rw [List.map_append, insertAll, List.foldl_append]
    show insert cap (insertAll cap queue (rows.map fun r => [r])) [r] = _
    rw [ih hrows hlen]
    simp only [insert, insertKeys_concat, hkeys]
    show (if _ then _ else _ : List ℤ).drop ((if _ then _ else _ : List ℤ).length - cap) = _
    -- what is evicted comes from the old queue, as the new rows fit
    generalize insertKeys [] rows = new at *
    have hle : queue.length + new.length - cap ≤ queue.length := by omega
    by_cases hmem : r ∈ new
    · -- the row is still in the queue
      have hin : r ∈ (queue ++ new).drop ((queue ++ new).length - cap) := by
        rw [List.length_append, List.drop_append_of_le_length hle]
        exact List.mem_append_right _ hmem
      rw [if_pos hin, if_pos (List.mem_append_right queue hmem), List.drop_drop]
      congr 1
      rw [List.length_drop, List.length_append]
      omega
    · have hout : r ∉ queue ++ new := List.not_mem_append hr hmem
      rw [if_neg fun h => hout (List.mem_of_mem_drop h), if_neg hout,
        ← List.drop_append_of_le_length (Nat.sub_le _ _), List.drop_drop]
      congr 1
      simp only [List.length_append, List.length_drop, List.length_singleton]
      omega

/-- The rows of `flat` are all in the queue after those that were missing are inserted one by one
iff the missing rows fit, each counted once, and none of the rows is among the oldest, which are
dropped for them. -/
private theorem forall_mem_insertAll_iff (hnodup : queue.Nodup) (hqueue : queue.length ≤ cap) :
    (∀ r ∈ flat, r ∈ insertAll cap queue
        ((flat.filter fun r => r ∉ queue).map fun r => [r])) ↔
      (flat.toFinset \ queue.toFinset).card ≤ cap ∧
        ∀ r ∈ flat, r ∉ queue.take
          (queue.length + (flat.toFinset \ queue.toFinset).card - cap) := by
  generalize hrows : flat.filter (fun r => r ∉ queue) = rows
  have hmem : ∀ r, r ∈ insertKeys [] rows ↔ r ∈ flat ∧ r ∉ queue := by
    intro r
    rw [mem_insertKeys, ← hrows, List.mem_filter]
    simp
  have hfresh : (insertKeys [] rows).Nodup := nodup_insertKeys List.nodup_nil rows
  -- the missing rows, each once
  have hcard : (flat.toFinset \ queue.toFinset).card = (insertKeys [] rows).length := by
    rw [← List.toFinset_card_of_nodup hfresh]
    congr 1
    ext r
    rw [Finset.mem_sdiff, List.mem_toFinset, List.mem_toFinset, List.mem_toFinset, hmem]
  have hnew : ∀ r ∈ rows, r ∉ queue := fun r hr =>
    ((hmem r).mp (mem_insertKeys.mpr (.inr hr))).2
  rw [hcard]
  by_cases hfit : (insertKeys [] rows).length ≤ cap
  -- a row that is inserted again is in the queue already
  · have honce : insert cap queue rows = insert cap queue (insertKeys [] rows) := by
      have hall : (queue ++ insertKeys [] rows).Nodup := by
        rw [List.nodup_append]
        refine ⟨hnodup, hfresh, ?_⟩
        rintro r hr r' hr' rfl
        exact ((hmem r).mp hr').2 hr
      rw [insert, insert, insertKeys_of_nodup hall, ← insertKeys_append hnew, List.append_nil]
    rw [insertAll_singletons hqueue hnew hfit, honce]
    exact forall_mem_insert_iff hnodup hfresh hmem
  · -- a queue that has all of the missing rows is too long
    refine iff_of_false (fun h => hfit ?_) fun h => hfit h.1
    have hsub : insertKeys [] rows ⊆ insertAll cap queue (rows.map fun r => [r]) :=
      fun r hr => h r ((hmem r).mp hr).1
    exact (List.subperm_of_subset hfresh hsub).length_le.trans (length_insertAll_le hqueue)

end RowQueue

/-- The arguments of the constructor that `forward` uses. `scale` and `output_dtype` are left out:
`forward` applies them to the single entries of its result, and they do not change which rows it
reads or keeps. -/
structure DiskMultiHeadEmbedding where
  /-- Number of rows in the table of every head. -/
  primes : List ℕ
  /-- Entries of one row. -/
  embeddingDimPerHead : ℕ
  /-- `store.fetch`. -/
  fetch : List ℤ → Py Bytes
  /-- Bound on the cache. Without a positive bound nothing is dropped. -/
  cacheSize : ℤ

namespace DiskMultiHeadEmbedding

/-- The loop over `primes[:-1]`: every offset is the one before it and a prime. -/
def offsetsFrom (offset : ℤ) : List ℕ → List ℤ
  | [] => [offset]
  | p :: primes => offset :: offsetsFrom (offset + p) primes

/-- Where the tables of the heads start. -/
def offsets (primes : List ℕ) : List ℤ := offsetsFrom 0 primes.dropLast

/-- There is one offset more than there are heads. -/
theorem length_offsetsFrom (offset : ℤ) (primes : List ℕ) :
    (offsetsFrom offset primes).length = primes.length + 1 := by
  induction primes generalizing offset with
  | nil => rfl
  | cons p primes ih => rw [offsetsFrom, List.length_cons, ih, List.length_cons]

/-- The offset of head `k` is the first one and the primes of the heads in front. -/
theorem getElem?_offsetsFrom {offset : ℤ} {primes : List ℕ} {k : ℕ} (hk : k ≤ primes.length) :
    (offsetsFrom offset primes)[k]? = some (offset + ((primes.take k).sum : ℕ)) := by
  induction primes generalizing offset k with
  | nil =>
    obtain rfl : k = 0 := Nat.le_zero.mp hk
    simp [offsetsFrom]
  | cons p primes ih =>
    cases k with
    | zero => simp [offsetsFrom]
    | succ k =>
      rw [offsetsFrom, List.getElem?_cons_succ, ih (Nat.le_of_succ_le_succ hk), List.take_succ_cons,
        List.sum_cons, Nat.cast_add, add_assoc]

/-- The table of a head starts behind the tables of the heads before it. -/
theorem getElem?_offsets {primes : List ℕ} {k : ℕ} (hk : k < primes.length) :
    (offsets primes)[k]? = some ((primes.take k).sum : ℤ) := by
  have hle : k ≤ primes.length - 1 := by omega
  rw [offsets, getElem?_offsetsFrom (by rw [List.length_dropLast]; exact hle),
    List.dropLast_eq_take, List.take_take, Nat.min_eq_left hle, zero_add]

variable {α : Type} (emb : DiskMultiHeadEmbedding) (fmt : TensorFormat α)

/-- `hash_indices + self.offsets`. The offsets are broadcast along the last axis. -/
def shifted (hash : Tensor ℤ) : Py (Tensor ℤ) :=
  let offsets := offsets emb.primes
  let width := hash.shape.getLastD 1
  -- the axis is as long as the offsets, or one offset is stretched over it
  if width = offsets.length ∨ offsets.length = 1 then
    .ok {
      shape := hash.shape.dropLast ++ [width]
      entries := hash.entries.mapIdx fun i h => h + offsets.getD (i % offsets.length) 0
      length_entries := by
        rw [List.length_mapIdx, hash.length_entries, numel_concat]
        exact numel_eq_dropLast_mul hash.shape }
  -- an axis of one is stretched over the offsets
  else if hwidth : width = 1 then
    .ok {
      shape := hash.shape.dropLast ++ [offsets.length]
      entries := hash.entries.flatMap fun h => offsets.map fun offset => h + offset
      length_entries := by
        have hnumel : numel hash.shape = numel hash.shape.dropLast := by
          rw [numel_eq_dropLast_mul]
          exact (congrArg _ hwidth).trans (Nat.mul_one _)
        rw [List.length_flatMap, numel_concat, ← hnumel, ← hash.length_entries]
        simp }
  else
    .error (.runtimeError (s!"The size of tensor a ({width}) must match the size of tensor b "
      ++ s!"({offsets.length}) at non-singleton dimension {hash.shape.length - 1}"))

/-- `self._cache_size`. -/
def cap : ℕ := (max 0 emb.cacheSize).toNat

/-- Bytes of one row. -/
def rowLen : ℕ := emb.embeddingDimPerHead * fmt.itemsize

/-- One turn of the loop over the misses: the row is set, and the oldest rows are dropped. -/
def insertRow (cache : OrderedDict ℤ Bytes) (idx : ℤ) (bytes : Bytes) : OrderedDict ℤ Bytes :=
  let cache := cache.set idx bytes
  if 0 < emb.cap then cache.trim emb.cap else cache

/-- Fetch the rows that are not cached, and insert them. A row that is asked for twice is fetched
twice. -/
def fill (cache : OrderedDict ℤ Bytes) (flat : List ℤ) : Py (OrderedDict ℤ Bytes) := do
  let misses := flat.filter fun i => i ∉ cache.keys
  if misses = [] then
    return cache
  let raw ← emb.fetch misses
  if raw.length ≠ misses.length * emb.rowLen fmt then
    throw (.runtimeError s!"disk fetch returned {raw.length} bytes for {misses.length} rows")
  pure (misses.zipIdx.foldl
    (fun cache e => emb.insertRow cache e.1 (slot (emb.rowLen fmt) raw e.2)) cache)

/-- The tensor of the cached rows. -/
def join (shift : Tensor ℤ) (cache : OrderedDict ℤ Bytes) : Py (Tensor α) := do
  let rows ← shift.entries.mapM cache.item
  let raw := rows.flatten
  let expected := numel shift.shape * emb.embeddingDimPerHead
  if raw.length ≠ expected * fmt.itemsize then
    throw (.runtimeError
      s!"disk fetch returned {raw.length} bytes, expected {expected * fmt.itemsize}")
  -- an empty buffer passes the check, but not `frombuffer`
  let data ← fmt.frombuffer raw
  match Tensor.reshape data (shift.shape ++ [emb.embeddingDimPerHead]) with
  | some t => pure t
  | none =>
    throw (.runtimeError
      (s!"shape '{shift.shape ++ [emb.embeddingDimPerHead]}' is invalid for input "
      ++ s!"of size {data.length}"))

/-- The rows of a tensor of hash indices. The rows that were inserted stay in the cache when the
lookup raises. -/
def forward (cache : OrderedDict ℤ Bytes) (hash : Tensor ℤ) : Py (Tensor α) × OrderedDict ℤ Bytes :=
  match emb.shifted hash with
  | .error e => (.error e, cache)
  | .ok shift =>
    match emb.fill fmt cache shift.entries with
    | .error e => (.error e, cache)
    | .ok cache => (emb.join fmt shift cache, cache)

/-- The rows that the hash indices stand for: each hash index counts from the start of the table of
its head. -/
def rowids (primes : List ℕ) (hash : Tensor ℤ) : List ℤ :=
  hash.entries.mapIdx fun i h => h + ((primes.take (i % primes.length)).sum : ℕ)

/-- The last axis has a place for every head, and every hash index is in the table of its head. -/
structure InTables (primes : List ℕ) (hash : Tensor ℤ) : Prop where
  /-- There is one hash index for every head. -/
  shape : hash.shape.getLast? = some primes.length
  /-- A hash index is less than the number of rows of its head. -/
  entry : ∀ e ∈ hash.entries.zipIdx, 0 ≤ e.1 ∧ e.1 < primes.getD (e.2 % primes.length) 0

section Shifted

variable {emb : DiskMultiHeadEmbedding} {hash : Tensor ℤ}

/-- With one hash index for every head, the shifted hash indices are the rows. -/
private theorem shifted_eq (hshape : hash.shape.getLast? = some emb.primes.length) :
    ∃ shift, emb.shifted hash = .ok shift ∧ shift.shape = hash.shape ∧
      shift.entries = rowids emb.primes hash := by
  have hwidth : hash.shape.getLastD 1 = emb.primes.length := by
    rw [List.getLastD_eq_getLast?, hshape, Option.getD_some]
  have hlast : hash.shape.dropLast ++ [hash.shape.getLastD 1] = hash.shape := by
    rw [hwidth]
    exact List.dropLast_append_getLast? _ hshape
  have hlen : (offsets emb.primes).length = emb.primes.length - 1 + 1 := by
    rw [offsets, length_offsetsFrom, List.length_dropLast]
  have hbranch :
      hash.shape.getLastD 1 = (offsets emb.primes).length ∨ (offsets emb.primes).length = 1 := by
    rw [hwidth, hlen]
    omega
  have hentries : hash.entries.mapIdx (fun i h =>
      h + (offsets emb.primes).getD (i % (offsets emb.primes).length) 0) =
        rowids emb.primes hash := by
    refine List.mapIdx_eq_mapIdx_iff.mpr fun i hi => ?_
    -- an entry has a head, so the offsets are those of all heads
    have hpos : 0 < emb.primes.length := by
      rw [hash.length_entries, numel_eq_dropLast_mul, hwidth] at hi
      exact Nat.pos_of_lt_mul_left hi
    rw [hlen, Nat.sub_add_cancel hpos, List.getD_eq_getElem?_getD,
      getElem?_offsets (Nat.mod_lt _ hpos), Option.getD_some]
  exact ⟨_, if_pos hbranch, hlast, hentries⟩

/-- The primes in front of a head and its own are at most all primes together. -/
private theorem take_sum_add_le (primes : List ℕ) (k : ℕ) :
    (primes.take k).sum + primes.getD k 0 ≤ primes.sum := by
  induction primes generalizing k with
  | nil => simp
  | cons p primes ih =>
    cases k with
    | zero => simp
    | succ k =>
      have hih := ih k
      simp only [List.take_succ_cons, List.sum_cons, List.getD_cons_succ]
      omega

/-- Hash indices in the tables of their heads are rows of the store. -/
theorem InTables.inRange {n : ℕ} (h : InTables emb.primes hash) (hn : emb.primes.sum ≤ n) :
    ∀ r ∈ rowids emb.primes hash, InRange n r := by
  intro r hr
  obtain ⟨i, hi, rfl⟩ := List.mem_mapIdx.mp hr
  obtain ⟨hnonneg, hlt⟩ := h.entry (hash.entries[i], i) (List.mem_zipIdx_iff_getElem?.mpr
    (List.getElem?_eq_getElem hi))
  have hle := take_sum_add_le emb.primes (i % emb.primes.length)
  dsimp only at hnonneg hlt ⊢
  constructor
  · omega
  · omega

end Shifted

/-- The cached rows, the oldest in front, after the missing rows are inserted. -/
def filledQueue (queue flat : List ℤ) : List ℤ :=
  let misses := flat.filter fun r => r ∉ queue
  if 0 < emb.cap then RowQueue.insertAll emb.cap queue (misses.map fun r => [r])
  else insertKeys queue misses

/-- The requested rows fit, with the cached rows given, the oldest in front: without a bound always,
else if the rows that are not cached fit into the cache and push out no requested row. An empty
tensor never fits. -/
def Fits (queue : List ℤ) (hash : Tensor ℤ) : Prop :=
  let flat := rowids emb.primes hash
  flat ≠ [] ∧ 0 < emb.embeddingDimPerHead ∧
    (emb.cacheSize ≤ 0 ∨
      (flat.toFinset \ queue.toFinset).card ≤ emb.cacheSize.toNat ∧
        ∀ r ∈ flat, r ∉ queue.take
          (queue.length + (flat.toFinset \ queue.toFinset).card - emb.cacheSize.toNat))

/-- In every `forward` of a run, the requested rows fit. -/
def AllFit : List ℤ → List (Tensor ℤ) → Prop
  | _, [] => True
  | queue, hash :: calls =>
    emb.Fits queue hash ∧ AllFit (emb.filledQueue queue (rowids emb.primes hash)) calls

/-- A `forward` returns the stored rows: the entries of every hash index are those of its row. -/
def Returns (row : ℤ → Bytes) (cache : OrderedDict ℤ Bytes) (hash : Tensor ℤ) : Prop :=
  ∃ t, (emb.forward fmt cache hash).1 = .ok t ∧
    t.shape = hash.shape ++ [emb.embeddingDimPerHead] ∧
    t.entries = (rowids emb.primes hash).flatMap fun r => (slots fmt.itemsize (row r)).map fmt.entry

/-- Every `forward` of a run returns the stored rows. -/
def ReturnsRows (row : ℤ → Bytes) : OrderedDict ℤ Bytes → List (Tensor ℤ) → Prop
  | _, [] => True
  | cache, hash :: calls =>
    emb.Returns fmt row cache hash ∧ ReturnsRows row (emb.forward fmt cache hash).2 calls

/-- Cached rows are stored rows, and a bounded cache keeps its bound. -/
structure Inv (row : ℤ → Bytes) (cache : OrderedDict ℤ Bytes) : Prop where
  /-- The cache shows stored rows. -/
  agrees : cache.Agrees row
  /-- The cache is bounded. -/
  bounded : 0 < emb.cap → cache.keys.length ≤ emb.cap

section Steps

variable {emb : DiskMultiHeadEmbedding} {fmt : TensorFormat α} {n : ℕ} {row : ℤ → Bytes}
  {cache : OrderedDict ℤ Bytes} {flat : List ℤ}

/-- An empty cache is sound. -/
private theorem inv_empty : emb.Inv row OrderedDict.empty := ⟨agrees_empty, fun _ => Nat.zero_le _⟩

/-- Inserting a row into the cache inserts its key into the queue, and drops the oldest beyond the
bound if there is one. -/
theorem keys_insertRow (idx : ℤ) (bytes : Bytes) :
    (emb.insertRow cache idx bytes).keys =
      if 0 < emb.cap then RowQueue.insert emb.cap cache.keys [idx] else insertKeys
        cache.keys [idx] := by
  unfold insertRow
  split_ifs
  · rw [keys_trim, keys_set]
    rfl
  · exact keys_set

/-- Inserting the stored row of an index keeps the invariant of the cache (`hinv`). -/
theorem Inv.insertRow (hinv : emb.Inv row cache) (idx : ℤ) :
    emb.Inv row (emb.insertRow cache idx (row idx)) := by
  constructor
  · unfold DiskMultiHeadEmbedding.insertRow
    split_ifs
    · exact (hinv.agrees.set idx).trim _
    · exact hinv.agrees.set idx
  · intro hcap
    rw [keys_insertRow, if_pos hcap]
    exact RowQueue.length_insert_le _ _ _

/-- Stored rows (`hl`) that are inserted one after another keep the invariant (`hinv`), and use
their indices in order. -/
private theorem Inv.insertRows (hinv : emb.Inv row cache) {raw : Bytes} {width : ℕ}
    {l : List (ℤ × ℕ)} (hl : ∀ e ∈ l, slot width raw e.2 = row e.1) :
    emb.Inv row (l.foldl (fun cache e => emb.insertRow cache e.1 (slot width raw e.2)) cache) ∧
      (l.foldl (fun cache e => emb.insertRow cache e.1 (slot width raw e.2)) cache).keys =
        if 0 < emb.cap then RowQueue.insertAll emb.cap cache.keys (l.map fun e => [e.1])
        else insertKeys cache.keys (l.map Prod.fst) := by
  induction l generalizing cache with
  | nil => exact ⟨hinv, by split_ifs <;> rfl⟩
  | cons e l ih =>
    have hrow := hl e List.mem_cons_self
    have hinv' := hinv.insertRow e.1
    rw [← hrow] at hinv'
    obtain ⟨hrest, hkeys⟩ := ih hinv' fun e' he' => hl e' (List.mem_cons_of_mem _ he')
    refine ⟨hrest, ?_⟩
    rw [List.foldl_cons, hkeys, keys_insertRow]
    split_ifs
    · rfl
    · rfl

/-- The missing rows, all in range (`hrange`), are fetched from a table that serves them (`hserves`)
and inserted. -/
theorem fill_spec (hserves : Serves emb.fetch n row (emb.rowLen fmt)) (hinv : emb.Inv row cache)
    (hrange : ∀ r ∈ flat, InRange n r) :
    ∃ cache', emb.fill fmt cache flat = .ok cache' ∧ emb.Inv row cache' ∧
      cache'.keys = emb.filledQueue cache.keys flat := by
  simp only [fill, filledQueue]
  -- the misses are fetched with their repetitions
  generalize hmisses : flat.filter (fun r => decide (r ∉ cache.keys)) = misses
  by_cases hnil : misses = []
  · subst hnil
    refine ⟨cache, if_pos rfl, hinv, ?_⟩
    split_ifs <;> rfl
  · have hmem : ∀ r ∈ misses, InRange n r := by
      intro r hr
      rw [← hmisses] at hr
      exact hrange r (List.mem_of_mem_filter hr)
    obtain ⟨raw, hfetch, hlen, hslots⟩ := hserves.exists_fetch hnil hmem
    obtain ⟨hinv', hkeys⟩ := hinv.insertRows hslots
    refine ⟨_, ?_, hinv', ?_⟩
    · rw [if_neg hnil, hfetch]
      simp only [bind, Except.bind, hlen, ne_eq, not_true, if_false]
      rfl
    · rw [hkeys]
      have hfst : misses.zipIdx.map Prod.fst = misses := List.zipIdx_map_fst 0 misses
      have hsing : (misses.zipIdx.map fun e => [e.1]) = misses.map fun r => [r] := by
        conv_rhs => rw [← hfst, List.map_map]
        rfl
      rw [hfst, hsing]

/-- The result is the stored rows iff it is not empty and all of them are cached. -/
private theorem join_returns_iff (hagrees : cache.Agrees row) {shift : Tensor ℤ}
    (hrow : ∀ r ∈ shift.entries, (row r).length = emb.rowLen fmt) :
    (∃ t, emb.join fmt shift cache = .ok t ∧ t.shape = shift.shape ++ [emb.embeddingDimPerHead] ∧
        t.entries = shift.entries.flatMap fun r => (slots fmt.itemsize (row r)).map fmt.entry) ↔
      (shift.entries ≠ [] ∧ 0 < emb.embeddingDimPerHead) ∧ ∀ r ∈ shift.entries, r ∈ cache.keys := by
  have hwidth : ∀ p ∈ shift.entries.map row, p.length = emb.rowLen fmt := by
    intro p hp
    obtain ⟨r, hr, rfl⟩ := List.mem_map.mp hp
    exact hrow r hr
  have hlen : (shift.entries.map row).flatten.length =
      numel shift.shape * emb.embeddingDimPerHead * fmt.itemsize := by
    rw [length_flatten hwidth, List.length_map, shift.length_entries, rowLen, Nat.mul_assoc]
  have hentries : ∀ p ∈ shift.entries.map fun r => (slots fmt.itemsize (row r)).map fmt.entry,
      p.length = emb.embeddingDimPerHead := by
    intro p hp
    obtain ⟨r, hr, rfl⟩ := List.mem_map.mp hp
    exact fmt.length_entries_of_row (hrow r hr)
  have hdata : (shift.entries.flatMap fun r => (slots fmt.itemsize (row r)).map fmt.entry).length =
      numel (shift.shape ++ [emb.embeddingDimPerHead]) := by
    rw [List.flatMap_def, length_flatten hentries, List.length_map,
      shift.length_entries, numel_concat]
  unfold join
  rw [DiskPleEmbedding.mapM_item hagrees]
  -- a row id that is not in the cache is a `KeyError`
  by_cases hall : ∀ r ∈ shift.entries, r ∈ cache.keys
  · rw [if_pos hall]
    simp only [bind, Except.bind, hlen, ne_eq, not_true, if_false, fmt.frombuffer_rows hrow]
    -- and an empty buffer is a `ValueError` of `frombuffer`
    by_cases hne : shift.entries ≠ [] ∧ 0 < emb.embeddingDimPerHead
    · refine iff_of_true ?_ ⟨hne, hall⟩
      rw [if_pos hne]
      dsimp only
      rw [Tensor.reshape_eq_some hdata]
      exact ⟨_, rfl, rfl, rfl⟩
    · rw [if_neg hne]
      refine iff_of_false ?_ fun h => hne h.1
      rintro ⟨t, ht, -⟩
      cases ht
  · rw [if_neg hall]
    refine iff_of_false ?_ fun h => hall h.2
    rintro ⟨t, ht, -⟩
    cases ht

/-- The requested rows are all cached after the missing ones are inserted iff they fit. -/
private theorem forall_mem_filledQueue_iff (hinv : emb.Inv row cache) :
    (∀ r ∈ flat, r ∈ emb.filledQueue cache.keys flat) ↔
      emb.cacheSize ≤ 0 ∨
        (flat.toFinset \ cache.keys.toFinset).card ≤ emb.cacheSize.toNat ∧
          ∀ r ∈ flat, r ∉ cache.keys.take
            (cache.keys.length +
              (flat.toFinset \ cache.keys.toFinset).card - emb.cacheSize.toNat) := by
  have hcap : emb.cap = emb.cacheSize.toNat := by
    unfold cap
    omega
  unfold filledQueue
  by_cases hpos : 0 < emb.cap
  · have hsize : ¬ emb.cacheSize ≤ 0 := by omega
    have hnodup : cache.keys.Nodup := cache.nodup
    simp only [if_pos hpos, hsize, false_or]
    rw [← hcap]
    exact RowQueue.forall_mem_insertAll_iff hnodup (hinv.bounded hpos)
  · have hsize : emb.cacheSize ≤ 0 := by omega
    refine iff_of_true (fun r hr => ?_) (.inl hsize)
    simp only [if_neg hpos]
    rw [mem_insertKeys, List.mem_filter]
    by_cases hmem : r ∈ cache.keys
    · exact .inl hmem
    · exact .inr ⟨hr, by simpa using hmem⟩

/-- One `forward` returns the stored rows iff they fit. In any case it keeps the invariant and puts
the missing rows behind the cached ones. -/
theorem forward_returns_iff (hserves : Serves emb.fetch n row (emb.rowLen fmt))
    (hn : emb.primes.sum ≤ n) (hinv : emb.Inv row cache) {hash : Tensor ℤ}
    (hhash : InTables emb.primes hash) :
    (emb.Returns fmt row cache hash ↔ emb.Fits cache.keys hash) ∧
      emb.Inv row (emb.forward fmt cache hash).2 ∧
      (emb.forward fmt cache hash).2.keys =
        emb.filledQueue cache.keys (rowids emb.primes hash) := by
  obtain ⟨shift, hshift, hshape, hentries⟩ := shifted_eq hhash.shape
  -- a shifted id lies in the part of the table that its head has
  have hrange : ∀ r ∈ shift.entries, InRange n r := by
    rw [hentries]
    exact hhash.inRange hn
  obtain ⟨cache', hfill, hinv', hkeys⟩ := fill_spec hserves hinv hrange
  have hforward : emb.forward fmt cache hash = (emb.join fmt shift cache', cache') := by
    rw [forward, hshift]
    dsimp only
    rw [hfill]
  have hrow : ∀ r ∈ shift.entries, (row r).length = emb.rowLen fmt := fun r hr =>
    hserves.length_row r (hrange r hr)
  have hjoin := join_returns_iff hinv'.agrees hrow
  rw [hkeys, forall_mem_filledQueue_iff hinv, hshape, hentries, and_assoc] at hjoin
  refine ⟨?_, ?_, ?_⟩
  · rw [Returns, hforward]
    exact hjoin
  · rw [hforward]
    exact hinv'
  · rw [hforward, ← hentries]
    exact hkeys

/-- Along a run, every `forward` returns the stored rows iff the requested rows fit in each. -/
private theorem Inv.returnsRows_iff (hserves : Serves emb.fetch n row (emb.rowLen fmt))
    (hn : emb.primes.sum ≤ n) (hinv : emb.Inv row cache) {calls : List (Tensor ℤ)}
    (hcalls : ∀ hash ∈ calls, InTables emb.primes hash) :
    emb.ReturnsRows fmt row cache calls ↔ emb.AllFit cache.keys calls := by
  induction calls generalizing cache with
  | nil => exact Iff.rfl
  | cons hash calls ih =>
    obtain ⟨hiff, hinv', hkeys⟩ :=
      forward_returns_iff hserves hn hinv (hcalls hash List.mem_cons_self)
    rw [AllFit, ← hkeys]
    exact and_congr hiff (ih hinv' fun hash' h => hcalls hash' (List.mem_cons_of_mem _ h))

end Steps

/-- Over a store that serves the rows of all tables (`hserves`, `hn`), and calls whose hashes are in
their tables (`hcalls`), every `forward` along a run of a new embedding returns the stored rows iff
the rows that each asks for fit into what the cache keeps. -/
theorem returnsRows_iff_allFit {α : Type} (emb : DiskMultiHeadEmbedding)
    (fmt : TensorFormat α) {n : ℕ}
    {row : ℤ → Bytes} (hserves : Serves emb.fetch n row (emb.rowLen fmt)) (hn : emb.primes.sum ≤ n)
    {calls : List (Tensor ℤ)} (hcalls : ∀ hash ∈ calls, InTables emb.primes hash) :
    emb.ReturnsRows fmt row OrderedDict.empty calls ↔ emb.AllFit [] calls :=
  inv_empty.returnsRows_iff hserves hn hcalls

section Example

/-- Entries of one byte. -/
def bytesFormat : TensorFormat Bytes where
  itemsize := 1
  itemsize_pos := Nat.one_pos
  entry := id

/-- Two heads with tables of two and three rows of one byte, each its own number. -/
def twoHeads (cacheSize : ℤ) : DiskMultiHeadEmbedding where
  primes := [2, 3]
  embeddingDimPerHead := 1
  fetch ids := .ok (ids.map DiskPleEmbedding.byteRow).flatten
  cacheSize := cacheSize

/-- The table of the two heads serves its five rows. -/
private theorem serves_twoHeads (cacheSize : ℤ) :
    Serves (twoHeads cacheSize).fetch 5 DiskPleEmbedding.byteRow
      ((twoHeads cacheSize).rowLen bytesFormat) :=
  ⟨fun _ _ => rfl, fun _ _ _ => rfl⟩

/-- The hash indices of two tokens, which stand for the rows 0, 2, 1 and 4. -/
def twoTokens : Tensor ℤ := ⟨[2, 2], [0, 0, 1, 2], rfl⟩

/-- The hashes of the two tokens are within their tables. -/
theorem inTables_twoTokens : InTables [2, 3] twoTokens := ⟨rfl, by decide⟩

/-- The rows of two tokens, with a cache that has room for them, twice. -/
theorem returnsRows_iff_allFit_twice :
    (twoHeads 4).ReturnsRows bytesFormat DiskPleEmbedding.byteRow OrderedDict.empty
        [twoTokens, twoTokens] ↔
      (twoHeads 4).AllFit [] [twoTokens, twoTokens] :=
  returnsRows_iff_allFit (twoHeads 4) bytesFormat (serves_twoHeads 4) (by decide) (by
    intro hash hhash
    obtain rfl : hash = twoTokens := by simpa using hhash
    exact inTables_twoTokens)

/-- Four rows do not fit into a cache of two: the first was dropped when it is looked up. -/
theorem not_returnsRows_twoTokens :
    InTables (twoHeads 2).primes twoTokens ∧
      ¬ (twoHeads 2).ReturnsRows bytesFormat DiskPleEmbedding.byteRow OrderedDict.empty
        [twoTokens] := by
  refine ⟨inTables_twoTokens, fun h => ?_⟩
  obtain ⟨⟨t, ht, -⟩, -⟩ := h
  have hforward : ((twoHeads 2).forward bytesFormat OrderedDict.empty twoTokens).1 =
      .error .keyError := rfl
  cases hforward.symm.trans ht

end Example

end DiskMultiHeadEmbedding

end EngramDB
