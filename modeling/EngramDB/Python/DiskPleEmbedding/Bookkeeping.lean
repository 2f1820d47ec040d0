import EngramDB.Foundations.Runs
import EngramDB.Python.DiskPleEmbedding.ReadThrough
import Mathlib.Data.List.Pairwise
import Mathlib.Data.List.TakeWhile

/-!
# The books on pending prefetches

The embedding keeps three books on its prefetches: the futures, the list of rows of every future,
and the set of all rows that are on their way. `prefetch`, `forward` and `close` write them at
different times, and an exception between two writes leaves them different.

* `prefetch` marks its rows before it submits the fetch. When the submission raises, the rows stay
  marked, and no later `prefetch` asks for them.
* `forward` waits for the futures and settles them one after another. A fetch that ended in a panic
  raises out of either loop. When the loop that settles is left in this way, the rows of the futures
  that it has settled are not marked any more, but their futures are still on the lists.

What follows on the settling is that of `DiskPleEmbedding.forward` with nothing pending.

* `settleLoop_eq`, `settlePrefetches_eq`: what settling does to the books;
* `consistent_step_iff`: a call leaves the books consistent iff none of the two happens;
* `consistent_iff_calm`: so it is along every run.
-/

namespace EngramDB

open OrderedDict

/-- The rows of a fetch that returns (`h`) are those that were asked for. -/
private theorem DiskPleEmbedding.mem_keys_fetchRows {emb : DiskPleEmbedding} {missing : List ℤ}
    {rows : OrderedDict ℤ Bytes} (h : emb.fetchRows missing = .ok rows) (r : ℤ) :
    r ∈ rows.keys ↔ r ∈ missing := by
  unfold fetchRows at h
  obtain ⟨raw, -, h⟩ := Except.bind_eq_ok_iff.mp h
  dsimp only at h
  by_cases hlen : raw.length ≠ missing.length * emb.rowBytes
  · rw [if_pos hlen] at h
    cases h
  · rw [if_neg hlen] at h
    cases h
    rw [keys_update, List.map_map, mem_insertKeys]
    simp [Function.comp_def]

/-- The future of a fetch in the background. -/
structure PrefetchFuture where
  /-- The rows that are fetched. -/
  rows : List ℤ
  /-- What the fetch ended with, if it ended. -/
  result : Option (Py (OrderedDict ℤ Bytes))
  /-- A fetch returns the rows it was asked for. -/
  keys_result : ∀ fetched, result = some (.ok fetched) → ∀ r, r ∈ fetched.keys ↔ r ∈ rows

namespace PrefetchFuture

/-- `submit(self._fetch_rows, missing)`. -/
def submit (missing : List ℤ) : PrefetchFuture := ⟨missing, none, fun _ h => by cases h⟩

/-- `fut.done()`. -/
def done (f : PrefetchFuture) : Bool := f.result.isSome

/-- Whether `fut.result()` raises what `except Exception` lets through. -/
def panicked (f : PrefetchFuture) : Bool :=
  match f.result with
  | some (.error .panic) => true
  | _ => false

/-- The fetch ends, with what the store answers, unless it is late. -/
def finish (emb : DiskPleEmbedding) (store : List ℤ → Py Bytes) (late : Bool) (f : PrefetchFuture) :
    PrefetchFuture :=
  if f.done ∨ late then f
  else {
    rows := f.rows
    result := some ({ emb with fetch := store }.fetchRows f.rows)
    keys_result := fun _ h => DiskPleEmbedding.mem_keys_fetchRows (Option.some.inj h) }

/-- Ending a fetch does not change which rows it was for. -/
@[simp]
theorem rows_finish (emb : DiskPleEmbedding) (store : List ℤ → Py Bytes) (late : Bool)
    (f : PrefetchFuture) : (f.finish emb store late).rows = f.rows := by
  unfold finish
  split_ifs <;> rfl

end PrefetchFuture

/-- The fields of the embedding that change, with all its books. -/
structure DiskPleBooks where
  /-- Cached rows. -/
  cache : OrderedDict ℤ Bytes
  /-- Rows that prefetches brought, when nothing is cached. -/
  prefetched : OrderedDict ℤ Bytes
  /-- The futures of the prefetches. -/
  pending : List PrefetchFuture
  /-- For every future, the rows it fetches. -/
  pendingMissing : List (List ℤ)
  /-- The rows that are on their way. -/
  pendingRows : Finset ℤ
  /-- Whether the embedding was closed. -/
  closed : Bool

/-- What happens to the pending prefetches, by their places, during a `forward`. -/
structure Progress where
  /-- What the store answers to a fetch that ends. -/
  store : ℕ → List ℤ → Py Bytes
  /-- The fetch has not ended when the timeout for it is over. Without a timeout, `forward` waits
  on. -/
  late : ℕ → Bool
  /-- The fetch has not ended when its future is settled. -/
  later : ℕ → Bool

namespace DiskPleBooks

variable (emb : DiskPleEmbedding)

/-- The books of a new embedding are empty. -/
def new : DiskPleBooks :=
  { cache := .empty, prefetched := .empty, pending := [], pendingMissing := [], pendingRows := ∅
    closed := false }

/-- The rows of the embedding, with nothing pending. -/
def settledState (s : DiskPleBooks) : DiskPleState :=
  { cache := s.cache, prefetched := s.prefetched, pending := [], pendingRows := s.pendingRows
    closed := s.closed }

/-- The books with the rows that a lookup has left. -/
def withRows (s : DiskPleBooks) (t : DiskPleState) : DiskPleBooks :=
  { s with cache := t.cache, prefetched := t.prefetched }

/-- The loop that waits for the futures, one after another. -/
def waitFutures (env : Progress) : ℕ → List PrefetchFuture → Py Unit × List PrefetchFuture
  | _, [] => (.ok (), [])
  | i, f :: fs =>
    let f := f.finish emb (env.store i) (emb.hasPrefetchTimeout && env.late i)
    if f.panicked then (.error .panic, f :: fs)
    else ((waitFutures env (i + 1) fs).1, f :: (waitFutures env (i + 1) fs).2)

/-- Settle a future that is done. Its rows come from the result if there are any. -/
def settleOne (s : DiskPleBooks) (missing : List ℤ) : Py (OrderedDict ℤ Bytes) → DiskPleBooks
  | .error _ => { s with pendingRows := s.pendingRows \ missing.toFinset }
  | .ok fetched =>
    let s := { s with pendingRows := s.pendingRows \ fetched.keys.toFinset }
    if 0 < emb.cacheSize then { s with cache := emb.cacheRows s.cache fetched }
    else { s with prefetched := s.prefetched.update fetched.entries }

/-- The loop of `_settle_prefetches`, which collects the futures that are not done. A panic leaves
it. -/
def settleLoop : List (PrefetchFuture × List ℤ) → DiskPleBooks →
    Py (List (PrefetchFuture × List ℤ)) × DiskPleBooks
  | [], s => (.ok [], s)
  | (f, missing) :: rest, s =>
    match f.result with
    | none => ((settleLoop rest s).1.map fun alive => (f, missing) :: alive, (settleLoop rest s).2)
    | some (.error .panic) => (.error .panic, s)
    | some result => settleLoop rest (settleOne emb s missing result)

/-- Move the rows of completed prefetches into the cache, or into the buffer without a cache. -/
def settlePrefetches (s : DiskPleBooks) : Py Unit × DiskPleBooks :=
  match settleLoop emb (s.pending.zip s.pendingMissing) s with
  | (.error e, s) => (.error e, s)
  | (.ok alive, s) =>
    (.ok (), { s with pending := alive.map Prod.fst, pendingMissing := alive.map Prod.snd })

/-- The rows that a `prefetch` fetches. -/
def missing (s : DiskPleBooks) (rowids : List ℤ) : List ℤ :=
  freshRows (fun r => r ∈ s.cache.keys ∨ r ∈ s.pendingRows) [] rowids

/-- Start to fetch the rows that are neither cached nor on their way. The executor can refuse. -/
def prefetch (s : DiskPleBooks) (rowids : List ℤ) (submit : Py Unit) : Py Unit × DiskPleBooks :=
  if s.closed then (.error (.runtimeError "DiskPleEmbedding is closed"), s)
  else
    let missing := s.missing rowids
    if missing = [] then (.ok (), s)
    else
      -- marked before the job is submitted, and not unmarked if that fails
      let s := { s with pendingRows := s.pendingRows ∪ missing.toFinset }
      match submit with
      | .error e => (.error e, s)
      | .ok () =>
        (.ok (), { s with
          pending := s.pending ++ [PrefetchFuture.submit missing]
          pendingMissing := s.pendingMissing ++ [missing] })

/-- What follows on the settling: fetch what is missing, and join the requested rows. -/
def lookup (s : DiskPleState) (flat : List ℤ) : Py Bytes × DiskPleState :=
  let (fetched, s) := emb.getMissing s flat ⟨fun _ => false, fun _ => false⟩
  (do
    let fetched ← fetched
    let rows ← flat.mapM fun r =>
      if emb.cacheSize ≤ 0 then fetched.item r else s.cache.item r
    emb.toTensor flat rows.flatten, s)

/-- The futures when they are settled: more fetches have ended. -/
def finishLater (env : Progress) (s : DiskPleBooks) : DiskPleBooks :=
  { s with pending := s.pending.zipIdx.map fun p => p.1.finish emb (env.store p.2) (env.later p.2) }

/-- Wait for the prefetches, settle them, and look the rows up. -/
def forward (s : DiskPleBooks) (flat : List ℤ) (env : Progress) : Py Bytes × DiskPleBooks :=
  if s.pending = [] then
    let (raw, t) := emb.forward s.settledState flat ⟨fun _ => false, fun _ => false⟩
    (raw, s.withRows t)
  else
    match waitFutures emb env 0 s.pending with
    -- a wait that panics ends the call, with the futures after it not waited for
    | (.error e, pending) => (.error e, { s with pending })
    | (.ok (), pending) =>
      match settlePrefetches emb (finishLater emb env { s with pending }) with
      -- as does a result that panics, with every future still in the list
      | (.error e, s) => (.error e, s)
      | (.ok (), s) =>
        let (raw, t) := lookup emb s.settledState flat
        (raw, s.withRows t)

/-- Drop all prefetches. A fetch that has started runs on, but nothing waits for it. -/
def close (s : DiskPleBooks) : DiskPleBooks :=
  if s.closed then s
  else { s with
    prefetched := .empty, pending := [], pendingMissing := [], pendingRows := ∅, closed := true }

end DiskPleBooks

/-- A call on the embedding, with what happens to its background steps. -/
inductive BooksCall where
  /-- `prefetch(rowids)`, with what the submission raises or not. -/
  | prefetch (rowids : List ℤ) (submit : Py Unit)
  /-- `forward(indices)`. -/
  | forward (flat : List ℤ) (env : Progress)
  /-- `close()`. -/
  | close

namespace DiskPleBooks

/-- The state after a call. What an exception interrupts has changed the state as far as it got. -/
def step (emb : DiskPleEmbedding) (s : DiskPleBooks) : BooksCall → DiskPleBooks
  | .prefetch rowids submit => (s.prefetch rowids submit).2
  | .forward flat env => (s.forward emb flat env).2
  | .close => s.close

/-- The books are consistent: every future has its list, no row is on two lists, and the marked rows
are those of the lists. -/
structure Consistent (s : DiskPleBooks) : Prop where
  /-- The lists belong to the futures. -/
  length : s.pending.length = s.pendingMissing.length
  /-- No row is fetched twice at once. -/
  disjoint : s.pendingMissing.Pairwise List.Disjoint
  /-- A row is marked iff it is fetched. -/
  union : ∀ r, r ∈ s.pendingRows ↔ ∃ missing ∈ s.pendingMissing, r ∈ missing

/-- The books after every call of a run are consistent. -/
def StaysConsistent (emb : DiskPleEmbedding) : DiskPleBooks → List BooksCall → Prop :=
  Machine.Along (fun s call => some (s.step emb call)) Consistent

section Futures

variable {emb : DiskPleEmbedding} {env : Progress}

/-- A future, with its place, after `forward` has waited for it. -/
def waited (emb : DiskPleEmbedding) (env : Progress) (p : PrefetchFuture × ℕ) : PrefetchFuture :=
  p.1.finish emb (env.store p.2) (emb.hasPrefetchTimeout && env.late p.2)

/-- A future, with its place, when it is settled. -/
def settled (emb : DiskPleEmbedding) (env : Progress) (p : PrefetchFuture × ℕ) : PrefetchFuture :=
  (waited emb env p).finish emb (env.store p.2) (env.later p.2)

/-- A future that has been waited for is for the same rows. -/
@[simp]
theorem rows_settled (p : PrefetchFuture × ℕ) : (settled emb env p).rows = p.1.rows := by
  rw [settled, PrefetchFuture.rows_finish, waited, PrefetchFuture.rows_finish]

/-- If no fetch ends in a panic, `forward` waits for all of them. -/
private theorem waitFutures_eq_ok {i : ℕ} {fs : List PrefetchFuture}
    (h : ∀ p ∈ fs.zipIdx i, (waited emb env p).panicked = false) :
    waitFutures emb env i fs = (.ok (), (fs.zipIdx i).map (waited emb env)) := by
  induction fs generalizing i with
  | nil => rfl
  | cons f fs ih =>
    rw [List.zipIdx_cons, List.forall_mem_cons] at h
    obtain ⟨hf, hfs⟩ := h
    rw [waitFutures, if_neg (by exact Bool.eq_false_iff.mp hf), ih hfs]
    rfl

/-- A panic ends the waiting. The futures still fetch what they fetched. -/
private theorem waitFutures_eq_error {i : ℕ} {fs : List PrefetchFuture}
    (h : ∃ p ∈ fs.zipIdx i, (waited emb env p).panicked = true) :
    ∃ fs', waitFutures emb env i fs = (.error .panic, fs') ∧
      fs'.map PrefetchFuture.rows = fs.map PrefetchFuture.rows := by
  induction fs generalizing i with
  | nil =>
    obtain ⟨p, hp, -⟩ := h
    cases hp
  | cons f fs ih =>
    rw [waitFutures]
    by_cases hf : (waited emb env (f, i)).panicked = true
    · rw [if_pos (by exact hf)]
      refine ⟨_, rfl, ?_⟩
      rw [List.map_cons, List.map_cons, PrefetchFuture.rows_finish]
    · rw [List.zipIdx_cons] at h
      obtain ⟨p, hp, hpanic⟩ := h
      have hrest : p ∈ fs.zipIdx (i + 1) := by
        refine (List.mem_cons.mp hp).resolve_left ?_
        rintro rfl
        exact hf hpanic
      obtain ⟨fs', hfs', hrows⟩ := ih ⟨p, hrest, hpanic⟩
      rw [if_neg (by exact hf), hfs']
      refine ⟨_, rfl, ?_⟩
      rw [List.map_cons, List.map_cons, PrefetchFuture.rows_finish, hrows]

end Futures

section Settling

variable {emb : DiskPleEmbedding} {s : DiskPleBooks}

/-- One turn of the loop that settles, for a future that did not end in a panic. -/
def settleDone (emb : DiskPleEmbedding) (s : DiskPleBooks) (f : PrefetchFuture) : DiskPleBooks :=
  match f.result with
  | none => s
  | some result => settleOne emb s f.rows result

/-- Settling changes the marked rows alone, among the books. -/
private theorem settleDone_books (f : PrefetchFuture) :
    (settleDone emb s f).pending = s.pending ∧
      (settleDone emb s f).pendingMissing = s.pendingMissing ∧
      (settleDone emb s f).closed = s.closed := by
  unfold settleDone settleOne
  split
  · exact ⟨rfl, rfl, rfl⟩
  · split
    · exact ⟨rfl, rfl, rfl⟩
    · dsimp only
      split_ifs <;> exact ⟨rfl, rfl, rfl⟩

/-- The rows of a future that is done are not marked any more. -/
private theorem mem_pendingRows_settleDone (f : PrefetchFuture) (r : ℤ) :
    r ∈ (settleDone emb s f).pendingRows ↔ r ∈ s.pendingRows ∧ (f.done → r ∉ f.rows) := by
  unfold settleDone PrefetchFuture.done
  cases hresult : f.result with
  | none => simp
  | some result =>
    cases result with
    | error e => simp [settleOne]
    | ok fetched =>
      have hkeys := f.keys_result fetched hresult r
      simp only [settleOne]
      split_ifs <;> simp [hkeys]

/-- Settling several futures. -/
def settleAll (emb : DiskPleEmbedding) (s : DiskPleBooks) (fs : List PrefetchFuture) :
    DiskPleBooks :=
  fs.foldl (settleDone emb) s

/-- Settling futures changes neither the pending ones nor their lists, which the caller replaces
afterwards. -/
private theorem settleAll_books (fs : List PrefetchFuture) :
    (settleAll emb s fs).pending = s.pending ∧
      (settleAll emb s fs).pendingMissing = s.pendingMissing ∧
      (settleAll emb s fs).closed = s.closed := by
  induction fs generalizing s with
  | nil => exact ⟨rfl, rfl, rfl⟩
  | cons f fs ih =>
    obtain ⟨h1, h2, h3⟩ := @ih (settleDone emb s f)
    obtain ⟨h4, h5, h6⟩ := @settleDone_books emb s f
    exact ⟨h1.trans h4, h2.trans h5, h3.trans h6⟩

/-- After settling some futures, the rows are still marked that none of them has done. -/
theorem mem_pendingRows_settleAll (fs : List PrefetchFuture) (r : ℤ) :
    r ∈ (settleAll emb s fs).pendingRows ↔ r ∈ s.pendingRows ∧ ∀ f ∈ fs, f.done → r ∉ f.rows := by
  induction fs generalizing s with
  | nil => simp [settleAll]
  | cons f fs ih =>
    rw [settleAll, List.foldl_cons, List.forall_mem_cons, ← and_assoc, ← mem_pendingRows_settleDone]
    exact ih

/-- One turn of the loop for a future that ended in a panic. -/
theorem settleLoop_of_panicked {f : PrefetchFuture} (h : f.panicked = true)
    (rest : List (PrefetchFuture × List ℤ)) :
    settleLoop emb ((f, f.rows) :: rest) s = (.error .panic, s) := by
  unfold PrefetchFuture.panicked at h
  split at h
  · next hresult =>
    simp only [settleLoop, hresult]
  · cases h

/-- One turn of the loop over the futures, for one that has not panicked (`h`): it is settled when
done and kept otherwise. -/
theorem settleLoop_cons {f : PrefetchFuture} (h : f.panicked = false)
    (rest : List (PrefetchFuture × List ℤ)) :
    settleLoop emb ((f, f.rows) :: rest) s =
      ((settleLoop emb rest (settleDone emb s f)).1.map fun alive =>
          if f.done then alive else (f, f.rows) :: alive,
        (settleLoop emb rest (settleDone emb s f)).2) := by
  unfold PrefetchFuture.panicked at h
  rw [settleLoop, settleDone, PrefetchFuture.done]
  cases hresult : f.result with
  | none => rfl
  | some result =>
    have hmap : ∀ x : Py (List (PrefetchFuture × List ℤ)), x.map (fun alive => alive) = x := by
      intro x
      cases x <;> rfl
    rw [hresult] at h
    simp only [Option.isSome_some, if_true, hmap]
    split
    · next heq => cases heq
    · next heq =>
      cases heq
      cases h
    · next heq =>
      cases heq
      rfl

/-- The loop ends normally iff no future ended in a panic, and then collects those that are not
done. -/
private theorem settleLoop_fst (fs : List PrefetchFuture) :
    (settleLoop emb (fs.map fun f => (f, f.rows)) s).1 =
      if ∃ f ∈ fs, f.panicked then .error .panic
      else .ok ((fs.filter fun f => ¬ f.done).map fun f => (f, f.rows)) := by
  induction fs generalizing s with
  | nil => rfl
  | cons f fs ih =>
    rw [List.map_cons]
    cases hf : f.panicked with
    | true => rw [settleLoop_of_panicked hf, if_pos ⟨f, List.mem_cons_self, hf⟩]
    | false =>
      have hiff : (∃ g ∈ f :: fs, g.panicked) ↔ ∃ g ∈ fs, g.panicked := by simp [hf]
      rw [settleLoop_cons hf, ih]
      simp only [hiff]
      by_cases hpanic : ∃ g ∈ fs, g.panicked
      · simp only [if_pos hpanic]
        rfl
      · simp only [if_neg hpanic, List.filter_cons]
        cases hdone : f.done
        · rfl
        · rfl

/-- The loop settles the futures before the first panic. -/
private theorem settleLoop_snd (fs : List PrefetchFuture) :
    (settleLoop emb (fs.map fun f => (f, f.rows)) s).2 =
      settleAll emb s (fs.takeWhile fun f => ¬ f.panicked) := by
  induction fs generalizing s with
  | nil => rfl
  | cons f fs ih =>
    rw [List.map_cons]
    cases hf : f.panicked with
    | true =>
      rw [settleLoop_of_panicked hf, List.takeWhile_cons_of_neg (by simp [hf])]
      rfl
    | false =>
      rw [settleLoop_cons hf, List.takeWhile_cons_of_pos (by simp [hf]), settleAll, List.foldl_cons]
      exact ih

/-- The loop settles futures up to the first one that panicked and raises its panic; where none did,
it keeps those that are not done. -/
theorem settleLoop_eq (fs : List PrefetchFuture) :
    settleLoop emb (fs.map fun f => (f, f.rows)) s =
      (if ∃ f ∈ fs, f.panicked then .error .panic
        else .ok ((fs.filter fun f => ¬ f.done).map fun f => (f, f.rows)),
        settleAll emb s (fs.takeWhile fun f => ¬ f.panicked)) :=
  Prod.ext (settleLoop_fst fs) (settleLoop_snd fs)

end Settling

/-- What the books of a reachable state have in common, consistent or not: the lists are those of
the futures, and a prefetch fetches at least one row. -/
structure Linked (s : DiskPleBooks) : Prop where
  /-- The lists belong to the futures. -/
  missing_eq : s.pendingMissing = s.pending.map PrefetchFuture.rows
  /-- No list is empty. -/
  ne_nil : ∀ missing ∈ s.pendingMissing, missing ≠ []

/-- The futures of the pending prefetches when they are settled. -/
def settledFutures (emb : DiskPleEmbedding) (s : DiskPleBooks) (env : Progress) :
    List PrefetchFuture :=
  s.pending.zipIdx.map (settled emb env)

/-- The loop that settles is left by a panic after it has settled a future: the fetch that panics
ends between the waiting for it and its settling. -/
def Interrupted (emb : DiskPleEmbedding) (s : DiskPleBooks) (env : Progress) : Prop :=
  (∀ p ∈ s.pending.zipIdx, (waited emb env p).panicked = false) ∧
    (∃ f ∈ settledFutures emb s env, f.panicked) ∧
    ∃ f ∈ (settledFutures emb s env).takeWhile fun f => ¬ f.panicked, f.done

/-- The call does not leave the books different: the executor takes the fetch of a `prefetch`, if
there is one, and the loop that settles is not left after it has settled a future. -/
def Calm (emb : DiskPleEmbedding) (s : DiskPleBooks) : BooksCall → Prop
  | .prefetch rowids submit => s.closed ∨ s.missing rowids = [] ∨ submit = .ok ()
  | .forward _ env => ¬ Interrupted emb s env
  | .close => True

section Steps

variable {emb : DiskPleEmbedding} {s t : DiskPleBooks} {env : Progress}

/-- The books of a new embedding are consistent. -/
private theorem consistent_new : Consistent new := ⟨rfl, List.Pairwise.nil, by simp [new]⟩

/-- In the books of a new embedding every future has its own list. -/
theorem linked_new : Linked new := ⟨rfl, by simp [new]⟩

/-- Whether the books are consistent depends on the counts of pending futures and on the rows and
ids that are booked. -/
theorem consistent_congr (hpending : s.pending.length = t.pending.length)
    (hmissing : s.pendingMissing = t.pendingMissing) (hrows : s.pendingRows = t.pendingRows) :
    Consistent s ↔ Consistent t := by
  constructor
  · rintro ⟨h1, h2, h3⟩
    exact ⟨by rw [← hpending, ← hmissing, h1], hmissing ▸ h2, by rwa [← hrows, ← hmissing]⟩
  · rintro ⟨h1, h2, h3⟩
    exact ⟨by rw [hpending, hmissing, h1], hmissing ▸ h2, by rwa [hrows, hmissing]⟩

/-- The futures that have been waited for are for the rows of the pending ones. -/
theorem rows_settledFutures :
    (settledFutures emb s env).map PrefetchFuture.rows = s.pending.map PrefetchFuture.rows := by
  have hrows : (PrefetchFuture.rows ∘ settled emb env) = PrefetchFuture.rows ∘ Prod.fst := by
    funext p
    exact rows_settled p
  rw [settledFutures, List.map_map, hrows, ← List.map_map, List.zipIdx_map_fst]

/-- After the waiting, the fetches that have ended later are those that end before the settling. -/
private theorem finishLater_waited :
    (finishLater emb env { s with pending := s.pending.zipIdx.map (waited emb env) }).pending =
      settledFutures emb s env := by
  apply List.ext_getElem
  · simp [finishLater, settledFutures]
  · intro i hi hi'
    simp [finishLater, settledFutures, settled]

/-- Linked books (`h`) pair every future with the rows that it is for. -/
theorem Linked.zip_eq (h : Linked s) :
    s.pending.zip s.pendingMissing = s.pending.map fun f => (f, f.rows) := by
  rw [h.missing_eq, List.map_prod_left_eq_zip]

/-- Without a panic, settling leaves the futures that are not done. -/
theorem settlePrefetches_eq (hlinked : Linked s) (hpanic : ¬ ∃ f ∈ s.pending, f.panicked) :
    settlePrefetches emb s = (.ok (), { settleAll emb s s.pending with
      pending := s.pending.filter fun f => ¬ f.done
      pendingMissing := (s.pending.filter fun f => ¬ f.done).map PrefetchFuture.rows }) := by
  have hall : s.pending.takeWhile (fun f => ¬ f.panicked) = s.pending := by
    rw [List.takeWhile_eq_self_iff]
    intro f hf
    simpa using fun h => hpanic ⟨f, hf, h⟩
  rw [settlePrefetches, hlinked.zip_eq, settleLoop_eq, if_neg hpanic, hall]
  simp [Function.comp_def]

/-- Without a panic, the rows of the futures that are done are not marked any more. -/
private theorem settlePrefetches_of_calm (hlinked : Linked s)
    (hpanic : ¬ ∃ f ∈ s.pending, f.panicked) :
    ∃ t, settlePrefetches emb s = (.ok (), t) ∧
      t.pending = s.pending.filter (fun f => ¬ f.done) ∧
      t.pendingMissing = (s.pending.filter fun f => ¬ f.done).map PrefetchFuture.rows ∧
      ∀ r, r ∈ t.pendingRows ↔ r ∈ s.pendingRows ∧ ∀ f ∈ s.pending, f.done → r ∉ f.rows :=
  ⟨_, settlePrefetches_eq hlinked hpanic, rfl, rfl, mem_pendingRows_settleAll s.pending⟩

/-- A panic leaves the lists as they are, while the rows of the futures before it that are done are
not marked any more. -/
private theorem settlePrefetches_of_panic (hlinked : Linked s)
    (hpanic : ∃ f ∈ s.pending, f.panicked) :
    ∃ t, settlePrefetches emb s = (.error .panic, t) ∧
      t.pending = s.pending ∧ t.pendingMissing = s.pendingMissing ∧
      ∀ r, r ∈ t.pendingRows ↔
        r ∈ s.pendingRows ∧ ∀ f ∈ s.pending.takeWhile (fun f => ¬ f.panicked), f.done →
          r ∉ f.rows := by
  obtain ⟨hpending, hmissing, -⟩ :=
    @settleAll_books emb s (s.pending.takeWhile fun f => ¬ f.panicked)
  rw [settlePrefetches, hlinked.zip_eq, settleLoop_eq, if_pos hpanic]
  exact ⟨_, rfl, hpending, hmissing, mem_pendingRows_settleAll _⟩

/-- The books with other futures of the same fetches are linked as well. -/
theorem Linked.congr (h : Linked s)
    (hrows : t.pending.map PrefetchFuture.rows = s.pending.map PrefetchFuture.rows)
    (hmissing : t.pendingMissing = s.pendingMissing) : Linked t where
  missing_eq := by rw [hmissing, hrows, h.missing_eq]
  ne_nil := by
    rw [hmissing]
    exact h.ne_nil

/-- The lists of the futures that are left are lists from before. -/
theorem Linked.sublist (hlinked : Linked s)
    (hmissing : t.pendingMissing = (s.pending.filter fun f => ¬ f.done).map PrefetchFuture.rows) :
    t.pendingMissing.Sublist s.pendingMissing := by
  rw [hmissing, hlinked.missing_eq]
  exact List.filter_sublist.map _

/-- Settling without a panic, which leaves the futures that are not done (`hpending`) with their
rows (`hmissing`), keeps the books linked. -/
theorem linked_of_settled (hlinked : Linked s)
    (hpending : t.pending = s.pending.filter fun f => ¬ f.done)
    (hmissing : t.pendingMissing = (s.pending.filter fun f => ¬ f.done).map PrefetchFuture.rows) :
    Linked t where
  missing_eq := by rw [hmissing, hpending]
  ne_nil m hm := hlinked.ne_nil m ((hlinked.sublist hmissing).subset hm)

/-- Settling without a panic keeps the books consistent: a row on the list of a future that is left
is on no list of a future that is done. -/
private theorem consistent_of_settled (hlinked : Linked s) (hcons : Consistent s)
    (hpending : t.pending = s.pending.filter fun f => ¬ f.done)
    (hmissing : t.pendingMissing = (s.pending.filter fun f => ¬ f.done).map PrefetchFuture.rows)
    (hrows : ∀ r, r ∈ t.pendingRows ↔ r ∈ s.pendingRows ∧ ∀ f ∈ s.pending, f.done → r ∉ f.rows) :
    Consistent t := by
  have hdisjoint : s.pending.Pairwise fun f g => f.rows.Disjoint g.rows := by
    rw [← List.pairwise_map (f := PrefetchFuture.rows) (R := List.Disjoint), ← hlinked.missing_eq]
    exact hcons.disjoint
  refine ⟨?_, hcons.disjoint.sublist (hlinked.sublist hmissing), fun r => ?_⟩
  · rw [hmissing, hpending, List.length_map]
  · rw [hrows, hcons.union, hlinked.missing_eq, hmissing]
    simp only [List.mem_map, List.mem_filter]
    constructor
    · rintro ⟨⟨m, ⟨f, hf, rfl⟩, hr⟩, hnot⟩
      refine ⟨f.rows, ⟨f, ⟨hf, ?_⟩, rfl⟩, hr⟩
      simpa using fun hdone => hnot f hf hdone hr
    · rintro ⟨m, ⟨f, ⟨hf, hdone⟩, rfl⟩, hr⟩
      refine ⟨⟨f.rows, ⟨f, hf, rfl⟩, hr⟩, fun g hg hgdone hrg => ?_⟩
      have hne : f ≠ g := by
        rintro rfl
        simp [hgdone] at hdone
      have : Std.Symm fun f g : PrefetchFuture => f.rows.Disjoint g.rows := ⟨fun _ _ h => h.symm⟩
      exact hdisjoint.forall hf hg hne hr hrg

/-- After a settling that a panic has ended, the books are consistent iff no future was settled. -/
private theorem consistent_of_panic_iff (hlinked : Linked s) (hcons : Consistent s)
    {fs : List PrefetchFuture} (hfs : fs ⊆ s.pending) (hpending : t.pending = s.pending)
    (hmissing : t.pendingMissing = s.pendingMissing)
    (hrows : ∀ r, r ∈ t.pendingRows ↔ r ∈ s.pendingRows ∧ ∀ f ∈ fs, f.done → r ∉ f.rows) :
    Consistent t ↔ ¬ ∃ f ∈ fs, f.done := by
  constructor
  · rintro hcons' ⟨f, hf, hdone⟩
    -- a row of the settled future is on its list, but not marked
    have hmem : f.rows ∈ t.pendingMissing := by
      rw [hmissing, hlinked.missing_eq]
      exact List.mem_map_of_mem (hfs hf)
    obtain ⟨r, hr⟩ := List.exists_mem_of_ne_nil _ (hlinked.ne_nil _ (hmissing ▸ hmem))
    exact ((hrows r).mp ((hcons'.union r).mpr ⟨f.rows, hmem, hr⟩)).2 f hf hdone hr
  · intro hnone
    refine (consistent_congr (by rw [hpending]) hmissing ?_).mpr hcons
    ext r
    rw [hrows]
    exact and_iff_left fun f hf hdone => absurd ⟨f, hf, hdone⟩ hnone

/-- A `prefetch` keeps the books linked (`hlinked`), whether or not its submission is accepted. -/
theorem linked_prefetch (hlinked : Linked s) (rowids : List ℤ) (submit : Py Unit) :
    Linked (s.prefetch rowids submit).2 := by
  simp only [prefetch]
  split_ifs with hclosed hnil
  · exact hlinked
  · exact hlinked
  cases submit with
  | error e => exact ⟨hlinked.missing_eq, hlinked.ne_nil⟩
  | ok u =>
    refine ⟨?_, fun m hm => ?_⟩
    · rw [List.map_append, ← hlinked.missing_eq]
      rfl
    · rcases List.mem_append.mp hm with h | h
      · exact hlinked.ne_nil m h
      · rw [List.mem_singleton.mp h]
        exact hnil

/-- A `prefetch` leaves the books consistent iff the executor takes its fetch. -/
private theorem consistent_prefetch_iff (hcons : Consistent s) (rowids : List ℤ)
    (submit : Py Unit) :
    Consistent (s.prefetch rowids submit).2 ↔ Calm emb s (.prefetch rowids submit) := by
  simp only [prefetch, Calm]
  by_cases hclosed : s.closed = true
  · rw [if_pos hclosed]
    exact iff_of_true hcons (.inl hclosed)
  rw [if_neg hclosed, or_iff_right hclosed]
  by_cases hnil : s.missing rowids = []
  · rw [if_pos hnil]
    exact iff_of_true hcons (.inl hnil)
  rw [if_neg hnil, or_iff_right hnil]
  have hnew : ∀ r ∈ s.missing rowids, r ∉ s.pendingRows := by
    intro r hr
    have hknown := (mem_freshRows.mp hr).2.1
    rw [decide_eq_false_iff_not, not_or] at hknown
    exact hknown.2
  cases submit with
  | error e =>
    refine iff_of_false (fun h => ?_) (by simp)
    -- the rows are marked, but on no list
    obtain ⟨r, hr⟩ := List.exists_mem_of_ne_nil _ hnil
    have hlisted := (h.union r).mp (by simp [hr])
    exact hnew r hr ((hcons.union r).mpr hlisted)
  | ok u =>
    refine iff_of_true ⟨?_, ?_, ?_⟩ rfl
    · rw [List.length_append, List.length_append, hcons.length]
      rfl
    · refine List.pairwise_append.mpr ⟨hcons.disjoint, List.pairwise_singleton _ _, ?_⟩
      intro m hm m' hm' r hr hr'
      rw [List.mem_singleton.mp hm'] at hr'
      exact hnew r hr' ((hcons.union r).mpr ⟨m, hm, hr⟩)
    · intro r
      rw [Finset.mem_union, List.mem_toFinset, hcons.union]
      simp only [List.mem_append, List.mem_singleton, or_and_right, exists_or, exists_eq_left]

/-- Looking rows up leaves the books as they are. -/
theorem books_withRows (t : DiskPleState) :
    (Linked (s.withRows t) ↔ Linked s) ∧ (Consistent (s.withRows t) ↔ Consistent s) :=
  ⟨⟨fun h => ⟨h.missing_eq, h.ne_nil⟩, fun h => ⟨h.missing_eq, h.ne_nil⟩⟩,
    consistent_congr rfl rfl rfl⟩

/-- With nothing pending (`hnil`), a `forward` settles nothing and only changes the rows that are
cached. -/
private theorem forward_of_nil (emb : DiskPleEmbedding) (env : Progress) (hnil : s.pending = [])
    (flat : List ℤ) :
    ∃ t, (s.forward emb flat env).2 = s.withRows t := by
  rw [forward, if_pos hnil]
  exact ⟨_, rfl⟩

/-- After a panic in the waiting, a `forward` leaves the books as they are. -/
private theorem forward_of_waitPanic
    (hwait : ∃ p ∈ s.pending.zipIdx, (waited emb env p).panicked = true)
    (flat : List ℤ) :
    ∃ fs, (s.forward emb flat env).2 = { s with pending := fs } ∧
      fs.map PrefetchFuture.rows = s.pending.map PrefetchFuture.rows := by
  have hne : s.pending ≠ [] := by
    rintro hnil
    obtain ⟨p, hp, -⟩ := hwait
    rw [hnil] at hp
    cases hp
  obtain ⟨fs, hfs, hrows⟩ := waitFutures_eq_error hwait
  rw [forward, if_neg hne, hfs]
  exact ⟨fs, rfl, hrows⟩

/-- The books when the waiting is over, with the fetches that end before the settling. -/
def atSettling (emb : DiskPleEmbedding) (s : DiskPleBooks) (env : Progress) : DiskPleBooks :=
  { s with pending := settledFutures emb s env }

/-- Otherwise a `forward` settles the futures, and looks rows up if no panic ends the settling. -/
theorem forward_eq (hne : s.pending ≠ [])
    (hwait : ∀ p ∈ s.pending.zipIdx, (waited emb env p).panicked = false) (flat : List ℤ) :
    s.forward emb flat env =
      match settlePrefetches emb (atSettling emb s env) with
      | (.error e, u) => (.error e, u)
      | (.ok (), u) =>
        ((lookup emb u.settledState flat).1, u.withRows (lookup emb u.settledState flat).2) := by
  have hlater : finishLater emb env { s with pending := s.pending.zipIdx.map (waited emb env) } =
      atSettling emb s env := by
    rw [atSettling, ← finishLater_waited]
    rfl
  rw [forward, if_neg hne, waitFutures_eq_ok hwait]
  dsimp only
  rw [hlater]

/-- When there are futures (`hne`), and none of them panicked while it was waited for (`hwait`), a
`forward` leaves what the settling leaves, and the rows of its lookup if the settling returns. -/
private theorem forward_of_waited (hne : s.pending ≠ [])
    (hwait : ∀ p ∈ s.pending.zipIdx, (waited emb env p).panicked = false) (flat : List ℤ) :
    (∀ e u, settlePrefetches emb (atSettling emb s env) = (.error e, u) →
        (s.forward emb flat env).2 = u) ∧
      ∀ u, settlePrefetches emb (atSettling emb s env) = (.ok (), u) →
        ∃ t, (s.forward emb flat env).2 = u.withRows t := by
  rw [forward_eq hne hwait]
  constructor
  · intro e u hsettle
    rw [hsettle]
  · intro u hsettle
    rw [hsettle]
    exact ⟨_, rfl⟩

/-- A `forward` keeps the books linked, and leaves them consistent iff it is not interrupted. -/
private theorem consistent_forward_iff (hlinked : Linked s) (hcons : Consistent s) (flat : List ℤ)
    (env : Progress) :
    Linked (s.forward emb flat env).2 ∧
      (Consistent (s.forward emb flat env).2 ↔ Calm emb s (.forward flat env)) := by
  simp only [Calm, Interrupted]
  -- nothing is pending: nothing is settled
  by_cases hnil : s.pending = []
  · obtain ⟨t, ht⟩ := forward_of_nil emb env hnil flat
    obtain ⟨hl, hc⟩ := @books_withRows s t
    rw [ht, hl, hc]
    refine ⟨hlinked, iff_of_true hcons ?_⟩
    rintro ⟨-, ⟨f, hf, -⟩, -⟩
    rw [settledFutures, hnil] at hf
    cases hf
  -- a panic while waiting comes before any change to the books
  by_cases hwait : ∃ p ∈ s.pending.zipIdx, (waited emb env p).panicked = true
  · obtain ⟨fs, hfs, hrows⟩ := forward_of_waitPanic hwait flat
    have hlen : fs.length = s.pending.length := by simpa using congrArg List.length hrows
    rw [hfs]
    refine ⟨hlinked.congr hrows rfl, iff_of_true ?_ ?_⟩
    · exact (consistent_congr (t := { s with pending := fs }) hlen.symm rfl rfl).mp hcons
    · rintro ⟨hnot, -⟩
      obtain ⟨p, hp, hpanic⟩ := hwait
      rw [hnot p hp] at hpanic
      cases hpanic
  simp only [not_exists, not_and, Bool.not_eq_true] at hwait
  obtain ⟨herror, hok⟩ := forward_of_waited hnil hwait flat
  have hlinked' : Linked (atSettling emb s env) := hlinked.congr rows_settledFutures rfl
  have hcons' : Consistent (atSettling emb s env) := by
    refine (consistent_congr (s := s) (t := atSettling emb s env) ?_ rfl rfl).mp hcons
    simp [atSettling, settledFutures]
  rw [and_iff_right hwait]
  -- once all have been waited for, the first panic cuts the settling short
  by_cases hpanic : ∃ f ∈ settledFutures emb s env, f.panicked
  · obtain ⟨u, hsettle, hpending, hmissing, hrows⟩ := settlePrefetches_of_panic hlinked' hpanic
    rw [herror _ u hsettle, and_iff_right hpanic]
    refine ⟨hlinked'.congr (congrArg _ hpending) hmissing, ?_⟩
    exact consistent_of_panic_iff hlinked' hcons' (List.takeWhile_subset _) hpending hmissing hrows
  · obtain ⟨u, hsettle, hpending, hmissing, hrows⟩ := settlePrefetches_of_calm hlinked' hpanic
    obtain ⟨t, ht⟩ := hok u hsettle
    obtain ⟨hl, hc⟩ := @books_withRows u t
    rw [ht, hl, hc]
    refine ⟨linked_of_settled hlinked' hpending hmissing, iff_of_true ?_ fun h => hpanic h.1⟩
    exact consistent_of_settled hlinked' hcons' hpending hmissing hrows

/-- Closing leaves empty books, or those of an embedding that was closed before. -/
private theorem consistent_close (hlinked : Linked s) (hcons : Consistent s) :
    Linked s.close ∧ Consistent s.close := by
  unfold close
  split_ifs
  · exact ⟨hlinked, hcons⟩
  · exact ⟨⟨rfl, by simp⟩, ⟨rfl, List.Pairwise.nil, by simp⟩⟩

/-- From consistent books, a call keeps the books linked, and leaves them consistent iff it is
calm. -/
theorem consistent_step_iff (hlinked : Linked s) (hcons : Consistent s) (call : BooksCall) :
    Linked (s.step emb call) ∧ (Consistent (s.step emb call) ↔ Calm emb s call) := by
  cases call with
  | prefetch rowids submit =>
    exact ⟨linked_prefetch hlinked rowids submit, consistent_prefetch_iff hcons rowids submit⟩
  | forward flat env => exact consistent_forward_iff hlinked hcons flat env
  | close =>
    obtain ⟨hl, hc⟩ := consistent_close hlinked hcons
    exact ⟨hl, iff_of_true hc trivial⟩

end Steps

/-- Along every run of a new embedding, the books are consistent after every call iff every call is
calm. -/
theorem consistent_iff_calm (emb : DiskPleEmbedding) (calls : List BooksCall) :
    StaysConsistent emb new calls ↔
      Machine.AlongSteps (fun s call => some (s.step emb call)) (Calm emb) new calls := by
  refine Machine.along_iff_alongSteps (I := Linked) ?_ linked_new consistent_new
  intro s call t hlinked hcons hstep
  cases hstep
  exact consistent_step_iff hlinked hcons call

section Example

/-- A `prefetch` whose submission raises, as after a shutdown of the executor. -/
def refused : BooksCall :=
  .prefetch [0] (.error (.runtimeError "cannot schedule new futures after shutdown"))

/-- The row of a refused `prefetch` stays marked, and no fetch is on its way. -/
theorem not_consistent_refused :
    ¬ StaysConsistent (DiskPleEmbedding.byteEmbedding 2) new [refused] := by
  intro h
  have hcons : Consistent (new.step (DiskPleEmbedding.byteEmbedding 2) refused) := h.2 _ rfl
  have hmarked : (0 : ℤ) ∈ (new.step (DiskPleEmbedding.byteEmbedding 2) refused).pendingRows := by
    decide
  obtain ⟨m, hm, -⟩ := (hcons.union 0).mp hmarked
  cases hm

/-- Two fetches are late. The first ends well and the second in a panic, before they are settled. -/
example : Interrupted (DiskPleEmbedding.byteEmbedding 2)
    ([BooksCall.prefetch [0] (.ok ()), .prefetch [1] (.ok ())].foldl
      (step (DiskPleEmbedding.byteEmbedding 2)) new)
    { store := fun i ids =>
        if i = 0 then .ok (ids.map DiskPleEmbedding.byteRow).flatten else .error .panic
      late := fun _ => true
      later := fun _ => false } :=
  ⟨by decide, by decide, by decide⟩

end Example

end DiskPleBooks

end EngramDB
