import EngramDB.Python.DiskPleEmbedding

/-!
# The embedding as a read-through cache

The cache of the embedding is a queue of rows: rows are put behind, and the oldest are dropped
beyond the bound. A `forward` reads its rows from the cache after all missing rows were inserted, so
it finds them iff the insertions drop none of the requested rows.

* `freshRows_spec`: the rows that are fetched;
* `settlePrefetches_spec`, `getMissing_spec`: what one step does to the queue;
* `forward_eq_iff`: one `forward` returns the stored rows iff they fit;
* `correct_iff_fits`: so it is along every run.
-/

namespace EngramDB

open SlotBuffer OrderedDict

namespace RowQueue

/-- Put the rows that are not in the queue behind, and drop the oldest rows beyond `cap`. -/
def insert (cap : ℕ) (queue rows : List ℤ) : List ℤ :=
  (insertKeys queue rows).drop ((insertKeys queue rows).length - cap)

/-- The queue after the insertion of several batches. -/
def insertAll (cap : ℕ) (queue : List ℤ) (batches : List (List ℤ)) : List ℤ :=
  batches.foldl (insert cap) queue

variable {cap : ℕ} {queue fresh flat : List ℤ}

/-- The queue of the cache is never longer than its bound. -/
theorem length_insert_le (cap : ℕ) (queue rows : List ℤ) :
    (insert cap queue rows).length ≤ cap := by
  rw [insert, List.length_drop]
  omega

/-- The rows of `flat` are all in the queue after the fresh ones are put behind iff these fit and
none of the rows is among the oldest, which are dropped for them. -/
theorem forall_mem_insert_iff (hqueue : queue.Nodup) (hfresh : fresh.Nodup)
    (hmem : ∀ r, r ∈ fresh ↔ r ∈ flat ∧ r ∉ queue) :
    (∀ r ∈ flat, r ∈ insert cap queue fresh) ↔
      fresh.length ≤ cap ∧ ∀ r ∈ flat, r ∉ queue.take (queue.length + fresh.length - cap) := by
  have hall : (queue ++ fresh).Nodup := by
    rw [List.nodup_append]
    refine ⟨hqueue, hfresh, ?_⟩
    rintro r hr r' hr' rfl
    exact ((hmem r).mp hr').2 hr
  rw [insert, insertKeys_of_nodup hall]
  -- a row is among the youngest iff it is not among the oldest
  have hdrop : ∀ k, ∀ r ∈ flat, (r ∈ (queue ++ fresh).drop k ↔ r ∉ (queue ++ fresh).take k) := by
    intro k r hr
    have hin : r ∈ queue ++ fresh := by
      rw [List.mem_append, hmem]
      exact (em (r ∈ queue)).imp_right fun h => ⟨hr, h⟩
    have hsplit := List.take_append_drop k (queue ++ fresh)
    rw [← hsplit] at hin hall
    constructor
    · intro h1 h2
      exact (List.nodup_append.mp hall).2.2 r h2 r h1 rfl
    · exact fun h => (List.mem_append.mp hin).resolve_left h
  rw [List.length_append]
  constructor
  · intro h
    have hnot : ∀ r ∈ flat, r ∉ (queue ++ fresh).take (queue.length + fresh.length - cap) :=
      fun r hr => (hdrop _ r hr).mp (h r hr)
    have hle : fresh.length ≤ cap := by
      by_contra hgt
      obtain ⟨r, rest, hcons⟩ := List.exists_cons_of_length_pos (by omega : 0 < fresh.length)
      have hr : r ∈ fresh := by rw [hcons]; simp
      refine hnot r ((hmem r).mp hr).1 ?_
      rw [List.take_append, List.mem_append]
      obtain ⟨m, hm⟩ : ∃ m, queue.length + fresh.length - cap - queue.length = m + 1 :=
        ⟨fresh.length - cap - 1, by omega⟩
      rw [hm, hcons, List.take_succ_cons]
      exact .inr (by simp)
    refine ⟨hle, fun r hr hmem' => hnot r hr ?_⟩
    rw [List.take_append_of_le_length (by omega)]
    exact hmem'
  · rintro ⟨hle, hnot⟩ r hr
    rw [hdrop _ r hr, List.take_append_of_le_length (by omega)]
    exact hnot r hr

end RowQueue

section FreshRows

variable {known : ℤ → Bool}

/-- The rows that are fetched are those that are asked for, neither known nor seen before. -/
theorem mem_freshRows {seen rows : List ℤ} {r : ℤ} :
    r ∈ freshRows known seen rows ↔ r ∈ rows ∧ known r = false ∧ r ∉ seen := by
  induction rows generalizing seen with
  | nil => simp [freshRows]
  | cons x rows ih =>
    rw [freshRows]
    split_ifs with h
    · rw [ih, List.mem_cons]
      constructor
      · rintro ⟨h1, h2, h3⟩
        exact ⟨.inr h1, h2, h3⟩
      · rintro ⟨rfl | h1, h2, h3⟩
        · rcases h with h | h
          · rw [h] at h2
            cases h2
          · exact absurd h h3
        · exact ⟨h1, h2, h3⟩
    · rw [not_or, Bool.not_eq_true] at h
      rw [List.mem_cons, ih, List.mem_cons, List.mem_cons, not_or]
      constructor
      · rintro (rfl | ⟨h1, h2, -, h4⟩)
        · exact ⟨.inl rfl, h.1, h.2⟩
        · exact ⟨.inr h1, h2, h4⟩
      · rintro ⟨h1, h2, h3⟩
        rcases eq_or_ne r x with rfl | hne
        · exact .inl rfl
        · exact .inr ⟨h1.resolve_left hne, h2, hne, h3⟩

/-- No row is fetched twice at once. -/
theorem nodup_freshRows (seen rows : List ℤ) : (freshRows known seen rows).Nodup := by
  induction rows generalizing seen with
  | nil => simp [freshRows]
  | cons x rows ih =>
    rw [freshRows]
    split_ifs
    · exact ih seen
    · refine List.nodup_cons.mpr ⟨fun h => ?_, ih _⟩
      exact (mem_freshRows.mp h).2.2 (by simp)

/-- The number of fresh rows is that of the rows which are not known. -/
private theorem length_freshRows {queue rows : List ℤ} (hknown : ∀ r, known r = true ↔ r ∈ queue) :
    (freshRows known [] rows).length = (rows.toFinset \ queue.toFinset).card := by
  rw [← List.toFinset_card_of_nodup (nodup_freshRows [] rows)]
  congr 1
  ext r
  rw [List.mem_toFinset, mem_freshRows, Finset.mem_sdiff, List.mem_toFinset, List.mem_toFinset,
    ← hknown r, Bool.not_eq_true]
  simp

end FreshRows

/-- Rows of a table with `n` rows. -/
def InRange (n : ℕ) (r : ℤ) : Prop := 0 ≤ r ∧ r < n

instance (n : ℕ) (r : ℤ) : Decidable (InRange n r) :=
  inferInstanceAs (Decidable (0 ≤ r ∧ r < n))

/-- The store returns the row of every id it is asked for. -/
structure Serves (fetch : List ℤ → Py Bytes) (n : ℕ) (row : ℤ → Bytes) (width : ℕ) : Prop where
  /-- Every row has the width of the table. -/
  length_row : ∀ r, InRange n r → (row r).length = width
  /-- The rows are returned in the order of the ids. -/
  fetch_eq : ∀ ids ≠ [], (∀ r ∈ ids, InRange n r) → fetch ids = .ok (ids.map row).flatten

/-- The bytes of the rows that were asked for, cut into slots, are the rows. -/
theorem Serves.exists_fetch {fetch : List ℤ → Py Bytes} {n : ℕ} {row : ℤ → Bytes} {width : ℕ}
    (hserves : Serves fetch n row width) {ids : List ℤ} (hne : ids ≠ [])
    (hrange : ∀ r ∈ ids, InRange n r) :
    ∃ raw, fetch ids = .ok raw ∧ raw.length = ids.length * width ∧
      ∀ e ∈ ids.zipIdx, slot width raw e.2 = row e.1 := by
  have hwidth : ∀ p ∈ ids.map row, p.length = width := by
    intro p hp
    obtain ⟨r, hr, rfl⟩ := List.mem_map.mp hp
    exact hserves.length_row r (hrange r hr)
  refine ⟨_, hserves.fetch_eq ids hne hrange, ?_, ?_⟩
  · rw [length_flatten hwidth, List.length_map]
  · rintro ⟨r, i⟩ he
    apply slot_flatten hwidth
    rw [List.getElem?_map, List.mem_zipIdx_iff_getElem?.mp he, Option.map_some]

namespace DiskPleEmbedding

variable (emb : DiskPleEmbedding)

/-- The batches of the prefetches that are done when they are settled, and did not fail. -/
def finished (s : DiskPleState) (env : Settling) : List (List ℤ) :=
  (s.pending.zipIdx.filter fun (_, i) =>
    ¬ (emb.hasPrefetchTimeout ∧ env.late i) ∧ ¬ env.fails i).map Prod.fst

/-- The cached rows, the oldest in front, after the finished prefetches are inserted. -/
def settledQueue (s : DiskPleState) (env : Settling) : List ℤ :=
  RowQueue.insertAll emb.cacheSize.toNat s.cache.keys (emb.finished s env)

/-- The requested rows fit: without a cache always, with a cache if the rows that are not cached fit
into it and push out no requested row. An empty tensor never fits. -/
def Fits (s : DiskPleState) (flat : List ℤ) (env : Settling) : Prop :=
  flat ≠ [] ∧ 0 < emb.rowBytes ∧
    (emb.cacheSize ≤ 0 ∨
      (flat.toFinset \ (emb.settledQueue s env).toFinset).card ≤ emb.cacheSize.toNat ∧
        ∀ r ∈ flat, r ∉ (emb.settledQueue s env).take
          ((emb.settledQueue s env).length +
            (flat.toFinset \ (emb.settledQueue s env).toFinset).card - emb.cacheSize.toNat))

/-- Every `forward` of a run returns the stored rows. -/
def Correct (row : ℤ → Bytes) : DiskPleState → List DiskPleCall → Prop
  | _, [] => True
  | s, .prefetch rowids :: calls => Correct row (emb.step s (.prefetch rowids)) calls
  | s, .forward flat env :: calls =>
    (emb.forward s flat env).1 = .ok (flat.map row).flatten ∧
      Correct row (emb.step s (.forward flat env)) calls

/-- In every `forward` of a run, the requested rows fit. -/
def AllFit : DiskPleState → List DiskPleCall → Prop
  | _, [] => True
  | s, .prefetch rowids :: calls => AllFit (emb.step s (.prefetch rowids)) calls
  | s, .forward flat env :: calls =>
    emb.Fits s flat env ∧ AllFit (emb.step s (.forward flat env)) calls

/-- Cached and prefetched rows are stored rows, and pending prefetches fetch rows of the table. -/
structure Inv (n : ℕ) (row : ℤ → Bytes) (s : DiskPleState) : Prop where
  /-- The cache shows stored rows. -/
  cache : s.cache.Agrees row
  /-- The cache is bounded. -/
  bounded : s.cache.keys.length ≤ emb.cacheSize.toNat
  /-- So does the buffer of prefetched rows. -/
  prefetched : s.prefetched.Agrees row
  /-- A prefetch fetches at least one row, each row once, and only rows of the table. -/
  pending : ∀ missing ∈ s.pending, missing ≠ [] ∧ missing.Nodup ∧ ∀ r ∈ missing, InRange n r

section Steps

variable {emb : DiskPleEmbedding} {n : ℕ} {row : ℤ → Bytes}

/-- In a new embedding nothing is cached, and nothing is wrong. -/
theorem inv_new : emb.Inv n row new :=
  ⟨agrees_empty, by simp [new], agrees_empty, by simp [new]⟩

/-- Fetched rows are stored rows, in the order in which they were asked for. -/
theorem fetchRows_eq (hserves : Serves emb.fetch n row emb.rowBytes) {missing : List ℤ}
    (hne : missing ≠ []) (hnodup : missing.Nodup) (hrange : ∀ r ∈ missing, InRange n r) :
    ∃ rows, emb.fetchRows missing = .ok rows ∧ rows.keys = missing ∧ rows.Agrees row := by
  obtain ⟨raw, hfetch, hlen, hslots⟩ := hserves.exists_fetch hne hrange
  have hok : emb.fetchRows missing = .ok (OrderedDict.empty.update
      (missing.zipIdx.map fun p => (p.1, slot emb.rowBytes raw p.2))) := by
    rw [fetchRows, hfetch]
    simp only [bind, Except.bind, hlen, ne_eq, not_true, if_false]
    rfl
  refine ⟨_, hok, ?_, agrees_empty.update fun e he => ?_⟩
  · rw [keys_update, List.map_map, keys_empty, insertKeys_of_nodup]
    · simp [Function.comp_def]
    · simpa [Function.comp_def] using hnodup
  · obtain ⟨p, hp, rfl⟩ := List.mem_map.mp he
    exact hslots p hp

/-- Inserting rows into the cache inserts them into the queue. -/
theorem keys_cacheRows (cache rows : OrderedDict ℤ Bytes) :
    (emb.cacheRows cache rows).keys =
      RowQueue.insert emb.cacheSize.toNat cache.keys rows.keys := by
  rw [cacheRows, keys_trim, keys_update]
  rfl

/-- Inserting rows that are stored so (`hrows`) into the cache keeps the invariant. -/
theorem Inv.cacheRows {s : DiskPleState} (hinv : emb.Inv n row s) {rows : OrderedDict ℤ Bytes}
    (hrows : rows.Agrees row) : emb.Inv n row { s with cache := emb.cacheRows s.cache rows } where
  cache := (hinv.cache.update hrows).trim _
  bounded := by
    rw [keys_cacheRows]
    exact RowQueue.length_insert_le _ _ _
  prefetched := hinv.prefetched
  pending := hinv.pending

/-- Settling one prefetch inserts its rows if it is done. -/
theorem settleOne_spec (hserves : Serves emb.fetch n row emb.rowBytes) {s : DiskPleState}
    (hinv : emb.Inv n row s) {missing : List ℤ}
    (hmissing : missing ≠ [] ∧ missing.Nodup ∧ ∀ r ∈ missing, InRange n r)
    (env : Settling) (i : ℕ) :
    emb.Inv n row (emb.settleOne s missing (emb.futureState env i missing)) ∧
      (0 < emb.cacheSize →
        (emb.settleOne s missing (emb.futureState env i missing)).cache.keys =
          if ¬ (emb.hasPrefetchTimeout ∧ env.late i) ∧ ¬ env.fails i then
            RowQueue.insert emb.cacheSize.toNat s.cache.keys missing
          else s.cache.keys) := by
  obtain ⟨rows, hrows, hkeys, hagrees⟩ :=
    fetchRows_eq hserves hmissing.1 hmissing.2.1 hmissing.2.2
  -- a future that is late stays pending
  by_cases hlate : emb.hasPrefetchTimeout ∧ env.late i
  · have hstate : emb.futureState env i missing = .running := if_pos hlate
    rw [hstate, if_neg fun h => h.1 hlate]
    refine ⟨⟨hinv.cache, hinv.bounded, hinv.prefetched, fun m hm => ?_⟩, fun _ => rfl⟩
    rcases List.mem_append.mp hm with hm | hm
    · exact hinv.pending m hm
    · exact List.mem_singleton.mp hm ▸ hmissing
  -- one that failed is dropped
  · by_cases hfails : env.fails i
    · have hstate : emb.futureState env i missing = .failed := by
        rw [futureState, if_neg hlate, if_pos hfails]
      rw [hstate, if_neg fun h => h.2 hfails]
      exact ⟨⟨hinv.cache, hinv.bounded, hinv.prefetched, hinv.pending⟩, fun _ => rfl⟩
    · have hstate : emb.futureState env i missing = .done rows := by
        rw [futureState, if_neg hlate, if_neg hfails, hrows]
      rw [hstate, if_pos ⟨hlate, hfails⟩]
      -- and one that is done leaves its rows in the cache, or among the prefetched ones if there is
      -- no cache
      by_cases hsize : 0 < emb.cacheSize
      · simp only [settleOne, if_pos hsize]
        refine ⟨⟨(hinv.cacheRows hagrees).cache, (hinv.cacheRows hagrees).bounded, hinv.prefetched,
          hinv.pending⟩, fun _ => ?_⟩
        rw [keys_cacheRows, hkeys]
      · simp only [settleOne, if_neg hsize]
        exact ⟨⟨hinv.cache, hinv.bounded, hinv.prefetched.update hagrees, hinv.pending⟩,
          fun h => absurd h hsize⟩

/-- Settling the prefetches inserts the rows of those that are done. -/
theorem settlePrefetches_spec (hserves : Serves emb.fetch n row emb.rowBytes) {s : DiskPleState}
    (hinv : emb.Inv n row s) (env : Settling) :
    emb.Inv n row (emb.settlePrefetches s env) ∧
      (0 < emb.cacheSize → (emb.settlePrefetches s env).cache.keys = emb.settledQueue s env) := by
  -- in any state: the futures that are done enter the queue in their order
  have hloop : ∀ (l : List (List ℤ × ℕ)) (t : DiskPleState), emb.Inv n row t →
      (∀ p ∈ l, p.1 ≠ [] ∧ p.1.Nodup ∧ ∀ r ∈ p.1, InRange n r) →
      emb.Inv n row
          (l.foldl (fun t p => emb.settleOne t p.1 (emb.futureState env p.2 p.1)) t) ∧
        (0 < emb.cacheSize →
          (l.foldl (fun t p => emb.settleOne t p.1 (emb.futureState env p.2 p.1)) t).cache.keys =
            RowQueue.insertAll emb.cacheSize.toNat t.cache.keys
              ((l.filter fun p => ¬ (emb.hasPrefetchTimeout ∧ env.late p.2) ∧
                ¬ env.fails p.2).map Prod.fst)) := by
    intro l
    induction l with
    | nil => exact fun t ht _ => ⟨ht, fun _ => rfl⟩
    | cons p l ih =>
      intro t ht hl
      obtain ⟨hinv', hkeys'⟩ := settleOne_spec hserves ht (hl p (by simp)) env p.2
      obtain ⟨hinv'', hkeys''⟩ := ih _ hinv' fun q hq => hl q (by simp [hq])
      refine ⟨hinv'', fun hsize => ?_⟩
      rw [List.foldl_cons, hkeys'' hsize, hkeys' hsize, List.filter_cons]
      by_cases hdone : ¬ (emb.hasPrefetchTimeout ∧ env.late p.2) ∧ ¬ env.fails p.2
      · rw [if_pos hdone, if_pos (decide_eq_true hdone)]
        rfl
      · rw [if_neg hdone, if_neg fun h => hdone (of_decide_eq_true h)]
  have hstart : emb.Inv n row { s with pending := [] } :=
    ⟨hinv.cache, hinv.bounded, hinv.prefetched, by simp⟩
  refine hloop s.pending.zipIdx _ hstart fun p hp => hinv.pending p.1 ?_
  exact List.fst_mem_of_mem_zipIdx hp

/-- With nothing pending (`h`), settling inserts nothing into the queue of the cache. -/
private theorem settledQueue_of_pending_nil {s : DiskPleState} (h : s.pending = [])
    (env : Settling) :
    emb.settledQueue s env = s.cache.keys := by
  simp [settledQueue, finished, h, RowQueue.insertAll]

/-- The queue in which the rows of a `forward` are looked up: the settled queue, with the fresh rows
put behind. -/
def lookupQueue (emb : DiskPleEmbedding) (s : DiskPleState) (flat : List ℤ) (env : Settling) :
    List ℤ :=
  RowQueue.insert emb.cacheSize.toNat (emb.settledQueue s env)
    (freshRows (fun r => r ∈ emb.settledQueue s env) [] flat)

/-- Rows in range (`hrange`) that are not known, if there are any (`hne`), are fetched once each and
are the stored ones (`hserves`). -/
theorem fetchRows_freshRows (hserves : Serves emb.fetch n row emb.rowBytes) {known : ℤ → Bool}
    {flat : List ℤ} (hrange : ∀ r ∈ flat, InRange n r) (hne : freshRows known [] flat ≠ []) :
    ∃ rows, emb.fetchRows (freshRows known [] flat) = .ok rows ∧
      rows.keys = freshRows known [] flat ∧ rows.Agrees row :=
  fetchRows_eq hserves hne (nodup_freshRows [] flat) fun r hr => hrange r (mem_freshRows.mp hr).1

/-- The state in which the missing rows are looked for. -/
theorem exists_settled (hserves : Serves emb.fetch n row emb.rowBytes) {s : DiskPleState}
    (hinv : emb.Inv n row s) (env : Settling) :
    ∃ t, (if s.pending = [] then s else emb.settlePrefetches s env) = t ∧ emb.Inv n row t ∧
      (0 < emb.cacheSize → t.cache.keys = emb.settledQueue s env) := by
  split_ifs with hnil
  · exact ⟨s, rfl, hinv, fun _ => (settledQueue_of_pending_nil hnil env).symm⟩
  · exact ⟨_, rfl, settlePrefetches_spec hserves hinv env⟩

/-- With a cache, fetching the missing rows succeeds and inserts them. -/
private theorem getMissing_of_cache (hserves : Serves emb.fetch n row emb.rowBytes)
    {s : DiskPleState}
    (hinv : emb.Inv n row s) {flat : List ℤ} (hrange : ∀ r ∈ flat, InRange n r) (env : Settling)
    (hsize : 0 < emb.cacheSize) :
    ∃ fetched s', emb.getMissing s flat env = (.ok fetched, s') ∧ emb.Inv n row s' ∧
      s'.cache.keys = emb.lookupQueue s flat env := by
  obtain ⟨t, ht, hinvt, hqueue⟩ := exists_settled hserves hinv env
  -- with a cache nothing is prefetched beside it, so what is known is the queue
  have hknown :
      (fun r => decide (r ∈ t.cache.keys ∨ r ∈ (OrderedDict.empty : OrderedDict ℤ Bytes).keys)) =
        fun r => decide (r ∈ emb.settledQueue s env) := by
    funext r
    simp [hqueue hsize]
  simp only [getMissing, ht, if_neg (Int.not_le.mpr hsize), hknown, if_pos hsize]
  split_ifs with hnil
  · refine ⟨_, _, rfl, hinvt, ?_⟩
    have hbounded := hinvt.bounded
    rw [hqueue hsize] at hbounded ⊢
    rw [lookupQueue, hnil]
    show _ = (emb.settledQueue s env).drop ((emb.settledQueue s env).length - emb.cacheSize.toNat)
    rw [Nat.sub_eq_zero_of_le hbounded, List.drop_zero]
  · obtain ⟨rows, hrows, hkeys, hagrees⟩ := fetchRows_freshRows hserves hrange hnil
    have hkeys' : ((OrderedDict.empty : OrderedDict ℤ Bytes).update rows.entries).keys =
        freshRows (fun r => decide (r ∈ emb.settledQueue s env)) [] flat := by
      rw [keys_update, keys_empty, insertKeys_of_nodup]
      · exact hkeys
      · exact rows.nodup
    rw [hrows]
    refine ⟨_, _, rfl, hinvt.cacheRows (agrees_empty.update hagrees), ?_⟩
    rw [keys_cacheRows, hkeys', hqueue hsize, lookupQueue]

/-- Without a cache, fetching the missing rows returns all rows that are asked for. -/
private theorem getMissing_of_noCache (hserves : Serves emb.fetch n row emb.rowBytes)
    {s : DiskPleState}
    (hinv : emb.Inv n row s) {flat : List ℤ} (hrange : ∀ r ∈ flat, InRange n r) (env : Settling)
    (hsize : emb.cacheSize ≤ 0) :
    ∃ fetched s', emb.getMissing s flat env = (.ok fetched, s') ∧ emb.Inv n row s' ∧
      fetched.Agrees row ∧ ∀ r ∈ flat, r ∈ fetched.keys := by
  obtain ⟨t, ht, hinvt, -⟩ := exists_settled hserves hinv env
  have hinvt' : emb.Inv n row { t with prefetched := .empty } :=
    ⟨hinvt.cache, hinvt.bounded, agrees_empty, hinvt.pending⟩
  -- a cache without room is empty, so what is known was prefetched
  have hcache : t.cache.keys = [] := by
    have hbounded := hinvt.bounded
    rw [Int.toNat_of_nonpos hsize] at hbounded
    exact List.length_eq_zero_iff.mp (Nat.le_zero.mp hbounded)
  simp only [getMissing, ht, if_pos hsize, if_neg (Int.not_lt.mpr hsize)]
  split_ifs with hnil
  · refine ⟨_, _, rfl, hinvt', hinvt.prefetched, fun r hr => ?_⟩
    by_contra hnot
    have hmem :
        r ∈ freshRows (fun r => decide (r ∈ t.cache.keys ∨ r ∈ t.prefetched.keys)) [] flat :=
      mem_freshRows.mpr ⟨hr, by simp [hcache, hnot], by simp⟩
    rw [hnil] at hmem
    cases hmem
  · obtain ⟨rows, hrows, hkeys, hagrees⟩ := fetchRows_freshRows hserves hrange hnil
    rw [hrows]
    refine ⟨_, _, rfl, hinvt', hinvt.prefetched.update hagrees, fun r hr => ?_⟩
    rw [keys_update, mem_insertKeys]
    by_cases hknown : r ∈ t.prefetched.keys
    · exact .inl hknown
    · refine .inr ?_
      show r ∈ rows.keys
      rw [hkeys]
      exact mem_freshRows.mpr ⟨hr, by simp [hcache, hknown], by simp⟩

/-- Looking rows up succeeds iff all of them are there. -/
theorem mapM_item {d : OrderedDict ℤ Bytes} (hd : d.Agrees row) (flat : List ℤ) :
    flat.mapM d.item =
      if ∀ r ∈ flat, r ∈ d.keys then .ok (flat.map row) else .error PyError.keyError := by
  induction flat with
  | nil => rfl
  | cons r flat ih =>
    rw [List.mapM_cons, ih]
    by_cases hr : r ∈ d.keys
    · have hitem : d.item r = .ok (row r) := by rw [OrderedDict.item, hd.get? hr]
      rw [hitem]
      by_cases hflat : ∀ r ∈ flat, r ∈ d.keys
      · rw [if_pos hflat, if_pos (List.forall_mem_cons.mpr ⟨hr, hflat⟩)]
        rfl
      · rw [if_neg hflat, if_neg fun h => hflat (List.forall_mem_cons.mp h).2]
        rfl
    · have hitem : d.item r = .error .keyError := by rw [OrderedDict.item, get?_eq_none_iff.mpr hr]
      rw [hitem, if_neg fun h => hr (List.forall_mem_cons.mp h).1]
      rfl

/-- A tensor is made of a buffer of the right length that is not empty. -/
theorem toTensor_eq_ok_iff {flat : List ℤ} {raw out : Bytes} :
    emb.toTensor flat raw = .ok out ↔
      raw = out ∧ raw.length = flat.length * emb.rowBytes ∧ raw ≠ [] := by
  have hexpected : flat.length * emb.embeddingDim * emb.itemsize = flat.length * emb.rowBytes :=
    Nat.mul_assoc ..
  rw [toTensor, hexpected]
  by_cases hlen : raw.length = flat.length * emb.rowBytes
  · simp only [hlen, ne_eq, not_true, if_false, frombuffer, bind, Except.bind]
    by_cases hnil : raw = []
    · simp [hnil]
    · simp [hnil]
  · simp [hlen, throw, throwThe, MonadExceptOf.throw, bind, Except.bind]

/-- Rows in range have the bytes of one row each, in a store that serves them. -/
private theorem length_rows (hserves : Serves emb.fetch n row emb.rowBytes) {flat : List ℤ}
    (hrange : ∀ r ∈ flat, InRange n r) :
    (flat.map row).flatten.length = flat.length * emb.rowBytes := by
  rw [length_flatten, List.length_map]
  intro p hp
  obtain ⟨r, hr, rfl⟩ := List.mem_map.mp hp
  exact hserves.length_row r (hrange r hr)

/-- The tensor of the stored rows exists iff it is not empty. -/
theorem toTensor_rows_iff (hserves : Serves emb.fetch n row emb.rowBytes) {flat : List ℤ}
    (hrange : ∀ r ∈ flat, InRange n r) :
    emb.toTensor flat (flat.map row).flatten = .ok (flat.map row).flatten ↔
      flat ≠ [] ∧ 0 < emb.rowBytes := by
  have hlen := length_rows hserves hrange
  have hne : flat ≠ [] ∧ 0 < emb.rowBytes ↔ 0 < flat.length * emb.rowBytes := by
    simp only [← List.length_pos_iff, Nat.pos_iff_ne_zero, ne_eq, Nat.mul_eq_zero, not_or]
  rw [toTensor_eq_ok_iff, hne, ← List.length_pos_iff, hlen]
  exact ⟨fun h => h.2.2, fun h => ⟨rfl, rfl, h⟩⟩

/-- The requested rows are all in the lookup queue iff those that were not cached fit into the cache
and none of the requested rows is among the oldest, which were dropped for them. -/
private theorem forall_mem_lookupQueue_iff {s : DiskPleState} {flat : List ℤ} {env : Settling}
    (hnodup : (emb.settledQueue s env).Nodup) :
    (∀ r ∈ flat, r ∈ emb.lookupQueue s flat env) ↔
      (flat.toFinset \ (emb.settledQueue s env).toFinset).card ≤ emb.cacheSize.toNat ∧
        ∀ r ∈ flat, r ∉ (emb.settledQueue s env).take
          ((emb.settledQueue s env).length +
            (flat.toFinset \ (emb.settledQueue s env).toFinset).card - emb.cacheSize.toNat) := by
  rw [← @length_freshRows (fun r => r ∈ emb.settledQueue s env)
    (emb.settledQueue s env) flat (by simp)]
  refine RowQueue.forall_mem_insert_iff hnodup (nodup_freshRows [] flat) fun r => ?_
  rw [mem_freshRows]
  simp

/-- The queue of the cache has no row twice when the prefetches are settled. -/
private theorem nodup_settledQueue (s : DiskPleState) (env : Settling) :
    (emb.settledQueue s env).Nodup := by
  have hall : ∀ (batches : List (List ℤ)) (queue : List ℤ), queue.Nodup →
      (RowQueue.insertAll emb.cacheSize.toNat queue batches).Nodup := by
    intro batches
    induction batches with
    | nil => exact fun _ h => h
    | cons batch batches ih =>
      exact fun queue h =>
        ih _ ((nodup_insertKeys h batch).sublist (List.drop_sublist _ _))
  exact hall _ _ s.cache.nodup

/-- A `forward` without a cache (`hsize`) returns the stored rows (`hserves`) iff there are any and
they have bytes, and keeps the invariant. -/
private theorem forward_of_noCache (hserves : Serves emb.fetch n row emb.rowBytes)
    {s : DiskPleState} (hinv : emb.Inv n row s) {flat : List ℤ} (hrange : ∀ r ∈ flat, InRange n r)
    (env : Settling) (hsize : emb.cacheSize ≤ 0) :
    ((emb.forward s flat env).1 = .ok (flat.map row).flatten ↔ flat ≠ [] ∧ 0 < emb.rowBytes) ∧
      emb.Inv n row (emb.forward s flat env).2 := by
  unfold forward
  -- with nothing pending and nothing prefetched the rows are fetched as they stand, repetitions and
  -- all
  split_ifs with hfast
  · refine ⟨?_, hinv⟩
    rcases eq_or_ne flat [] with rfl | hne
    · refine iff_of_false (fun h => ?_) fun h => h.1 rfl
      obtain ⟨raw, -, hraw⟩ := Except.bind_eq_ok_iff.mp h
      obtain ⟨-, hlen, hnil⟩ := toTensor_eq_ok_iff.mp hraw
      exact hnil (List.length_eq_zero_iff.mp (by simpa using hlen))
    · rw [hserves.fetch_eq flat hne hrange]
      exact toTensor_rows_iff hserves hrange
  · obtain ⟨fetched, s', hmissing, hinv', hagrees, hall⟩ :=
      getMissing_of_noCache hserves hinv hrange env hsize
    rw [hmissing]
    refine ⟨?_, hinv'⟩
    simp only [bind, Except.bind]
    have hrows := mapM_item hagrees flat
    rw [if_pos hall] at hrows
    rw [hrows]
    exact toTensor_rows_iff hserves hrange

/-- A `forward` with a cache returns the stored rows iff all of them are cached in the end. -/
private theorem forward_of_cache (hserves : Serves emb.fetch n row emb.rowBytes) {s : DiskPleState}
    (hinv : emb.Inv n row s) {flat : List ℤ} (hrange : ∀ r ∈ flat, InRange n r) (env : Settling)
    (hsize : 0 < emb.cacheSize) :
    ((emb.forward s flat env).1 = .ok (flat.map row).flatten ↔
        (flat ≠ [] ∧ 0 < emb.rowBytes) ∧ ∀ r ∈ flat, r ∈ emb.lookupQueue s flat env) ∧
      emb.Inv n row (emb.forward s flat env).2 := by
  obtain ⟨fetched, s', hmissing, hinv', hkeys⟩ := getMissing_of_cache hserves hinv hrange env hsize
  have hnocache : ¬ emb.cacheSize ≤ 0 := Int.not_le.mpr hsize
  unfold forward
  rw [if_neg fun h => hnocache h.1, hmissing]
  refine ⟨?_, hinv'⟩
  simp only [if_neg hnocache, bind, Except.bind]
  rw [mapM_item hinv'.cache flat, hkeys]
  split_ifs with hall
  · rw [toTensor_rows_iff hserves hrange]
    exact (and_iff_left hall).symm
  · exact iff_of_false (by simp) fun h => hall h.2

/-- One `forward` returns the stored rows iff they fit, and keeps the invariant in any case. -/
theorem forward_eq_iff (hserves : Serves emb.fetch n row emb.rowBytes) {s : DiskPleState}
    (hinv : emb.Inv n row s) {flat : List ℤ} (hrange : ∀ r ∈ flat, InRange n r) (env : Settling) :
    ((emb.forward s flat env).1 = .ok (flat.map row).flatten ↔ emb.Fits s flat env) ∧
      emb.Inv n row (emb.forward s flat env).2 := by
  rcases Int.lt_or_le 0 emb.cacheSize with hsize | hsize
  · obtain ⟨hiff, hinv'⟩ := forward_of_cache hserves hinv hrange env hsize
    refine ⟨?_, hinv'⟩
    rw [hiff, forall_mem_lookupQueue_iff (nodup_settledQueue s env), Fits, and_assoc,
      or_iff_right (Int.not_le.mpr hsize)]
  · obtain ⟨hiff, hinv'⟩ := forward_of_noCache hserves hinv hrange env hsize
    refine ⟨?_, hinv'⟩
    rw [hiff, Fits]
    exact ⟨fun h => ⟨h.1, h.2, .inl hsize⟩, fun h => ⟨h.1, h.2.1⟩⟩

/-- A prefetch of rows in range (`hrange`) keeps the invariant, whether it starts a fetch or not. -/
theorem inv_prefetch {s : DiskPleState} (hinv : emb.Inv n row s) {rowids : List ℤ}
    (hrange : ∀ r ∈ rowids, InRange n r) : emb.Inv n row (prefetch s rowids).2 := by
  simp only [prefetch]
  split_ifs with hclosed hnil
  · exact hinv
  · exact hinv
  · refine ⟨hinv.cache, hinv.bounded, hinv.prefetched, fun missing hmissing => ?_⟩
    rcases List.mem_append.mp hmissing with h | h
    · exact hinv.pending missing h
    · obtain rfl := List.mem_singleton.mp h
      exact ⟨hnil, nodup_freshRows [] rowids, fun r hr => hrange r (mem_freshRows.mp hr).1⟩

/-- Along a run, every `forward` returns the stored rows iff the requested rows fit in each. -/
private theorem Inv.correct_iff (hserves : Serves emb.fetch n row emb.rowBytes) {s : DiskPleState}
    (hinv : emb.Inv n row s) {calls : List DiskPleCall}
    (hrange : ∀ call ∈ calls, ∀ r ∈ call.rows, InRange n r) :
    emb.Correct row s calls ↔ emb.AllFit s calls := by
  induction calls generalizing s with
  | nil => exact Iff.rfl
  | cons call calls ih =>
    have hcall := hrange call (by simp)
    have hrest : ∀ call ∈ calls, ∀ r ∈ call.rows, InRange n r :=
      fun call h => hrange call (by simp [h])
    cases call with
    | prefetch rowids => exact ih (inv_prefetch hinv hcall) hrest
    | forward flat env =>
      obtain ⟨hiff, hinv'⟩ := forward_eq_iff hserves hinv hcall env
      exact and_congr hiff (ih hinv' hrest)

end Steps

/-- Over a store that serves `n` rows (`hserves`), and calls whose rows are in range (`hrange`),
every `forward` along a run of a new embedding returns the stored rows iff the rows that each asks
for fit into what the cache keeps. -/
theorem correct_iff_fits (emb : DiskPleEmbedding) {n : ℕ} {row : ℤ → Bytes}
    (hserves : Serves emb.fetch n row emb.rowBytes) {calls : List DiskPleCall}
    (hrange : ∀ call ∈ calls, ∀ r ∈ call.rows, InRange n r) :
    emb.Correct row new calls ↔ emb.AllFit new calls :=
  inv_new.correct_iff hserves hrange

section Example

/-- A table of eight rows of one byte, each its own number. -/
def byteRow (r : ℤ) : Bytes := [UInt8.ofNat r.toNat]

/-- An embedding of that table with the given cache size. -/
def byteEmbedding (cacheSize : ℤ) : DiskPleEmbedding where
  fetch ids := .ok (ids.map byteRow).flatten
  embeddingDim := 1
  itemsize := 1
  cacheSize := cacheSize
  hasPrefetchTimeout := true

/-- The store of the example serves eight rows. -/
private theorem serves_byteEmbedding (cacheSize : ℤ) :
    Serves (byteEmbedding cacheSize).fetch 8 byteRow (byteEmbedding cacheSize).rowBytes :=
  ⟨fun _ _ => rfl, fun _ _ _ => rfl⟩

/-- A prefetch that is late, and a `forward` of two of its rows. -/
theorem correct_iff_fits_lateRow :
    (byteEmbedding 2).Correct byteRow new
        [.prefetch [2, 0], .forward [2, 0, 2] ⟨fun _ => false, fun _ => true⟩] ↔
      (byteEmbedding 2).AllFit new
        [.prefetch [2, 0], .forward [2, 0, 2] ⟨fun _ => false, fun _ => true⟩] :=
  correct_iff_fits (byteEmbedding 2) (serves_byteEmbedding 2)
    (List.forall_mem_cons.mpr ⟨by decide, List.forall_mem_cons.mpr ⟨by decide, by simp⟩⟩)

/-- Three rows do not fit into a cache of two: the first was dropped when it is looked up. -/
theorem not_correct_threeRows :
    ¬ (byteEmbedding 2).Correct byteRow new
      [.forward [0, 1, 2] ⟨fun _ => false, fun _ => false⟩] := by
  intro h
  have hforward : ((byteEmbedding 2).forward new [0, 1, 2]
      ⟨fun _ => false, fun _ => false⟩).1 = .error .keyError := by decide
  cases hforward.symm.trans h.1

end Example

end DiskPleEmbedding

end EngramDB
