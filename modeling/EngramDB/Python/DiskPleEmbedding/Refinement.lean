import EngramDB.Python.DiskPleEmbedding.Bookkeeping

/-!
# The embedding with all its books refines the embedding

`DiskPleEmbedding` names a future by the rows it fetches, and takes what happens to it as an input.
The books have the futures themselves, and two lists where the embedding has one. As long as the
executor takes every fetch and no fetch ends in a panic, both do the same.

* `forget`: the books as a state of the embedding;
* `settlePrefetches_refines`: settling the futures;
* `prefetch_refines`, `forward_refines`: the calls;
* `forward_eq_iff_fits`: after every such run, a `forward` returns the stored rows iff they fit.
-/

namespace EngramDB

/-- The state with other pending prefetches. -/
def DiskPleState.withPending (s : DiskPleState) (pending : List (List ℤ)) : DiskPleState :=
  { s with pending }

namespace DiskPleEmbedding

variable {emb : DiskPleEmbedding} {s t : DiskPleState} {env : Settling}

/-- What follows on the settling depends on the rows alone, and changes them alone. -/
theorem getMissing_eq {pending : List (List ℤ)} (hnil : t.pending = [])
    (hsettle : (if s.pending = [] then s else emb.settlePrefetches s env) = t.withPending pending)
    (flat : List ℤ) (env' : Settling) :
    ∃ fetched cache prefetched,
      emb.getMissing s flat env = (fetched, { t with cache, prefetched, pending }) ∧
        emb.getMissing t flat env' = (fetched, { t with cache, prefetched }) := by
  simp only [getMissing, hsettle, if_pos hnil, DiskPleState.withPending]
  by_cases hsize : emb.cacheSize ≤ 0
  · simp only [if_pos hsize, if_neg (show ¬ 0 < emb.cacheSize by omega)]
    split_ifs
    · exact ⟨_, _, _, rfl, rfl⟩
    · cases emb.fetchRows _ with
      | error e => exact ⟨_, _, _, rfl, rfl⟩
      | ok rows => exact ⟨_, _, _, rfl, rfl⟩
  · simp only [if_neg hsize, if_pos (show 0 < emb.cacheSize by omega)]
    split_ifs
    · exact ⟨_, _, _, rfl, rfl⟩
    · cases emb.fetchRows _ with
      | error e => exact ⟨_, _, _, rfl, rfl⟩
      | ok rows => exact ⟨_, _, _, rfl, rfl⟩

/-- With nothing pending, a `forward` depends on the rows alone, and changes them alone. -/
private theorem forward_of_pending_nil (hnil : t.pending = []) (flat : List ℤ)
    (env env' : Settling) :
    emb.forward t flat env = emb.forward t flat env' ∧
      ∃ cache prefetched, (emb.forward t flat env').2 = { t with cache, prefetched } := by
  have hsettle : ∀ e : Settling, (if t.pending = [] then t else emb.settlePrefetches t e) =
      t.withPending t.pending := fun e => if_pos hnil
  obtain ⟨fetched, cache, prefetched, h, h'⟩ := getMissing_eq hnil (hsettle env) flat env'
  rw [forward, forward, h, h']
  refine ⟨rfl, ?_⟩
  by_cases hshort : emb.cacheSize ≤ 0 ∧ t.pending = [] ∧ t.prefetched.entries = []
  · rw [if_pos hshort]
    exact ⟨_, _, rfl⟩
  · rw [if_neg hshort]
    exact ⟨_, _, rfl⟩

end DiskPleEmbedding

namespace PrefetchFuture

/-- Whether the fetch ended in an exception. -/
def failed (f : PrefetchFuture) : Bool :=
  match f.result with
  | some (.error _) => true
  | _ => false

/-- The state of a future when it is settled. -/
def state (f : PrefetchFuture) : FutureState :=
  match f.result with
  | none => .running
  | some (.error _) => .failed
  | some (.ok rows) => .done rows

end PrefetchFuture

/-- What the fetches in the background do, the store of the embedding would do as well, apart from
exceptions. -/
structure Progress.Honest (emb : DiskPleEmbedding) (env : Progress) : Prop where
  /-- The bytes that a fetch returns are those of the store. -/
  fetch_eq : ∀ i ids raw, env.store i ids = .ok raw → emb.fetch ids = .ok raw
  /-- No fetch ends in a panic. -/
  ne_panic : ∀ i ids, env.store i ids ≠ .error .panic

namespace Progress.Honest

variable {emb : DiskPleEmbedding} {env : Progress}

/-- The rows that a fetch in the background returns are those of the store. -/
theorem fetchRows_eq (h : env.Honest emb) {i : ℕ} {ids : List ℤ} {rows : OrderedDict ℤ Bytes}
    (hrows : { emb with fetch := env.store i }.fetchRows ids = .ok rows) :
    emb.fetchRows ids = .ok rows := by
  obtain ⟨raw, hraw, hrest⟩ := Except.bind_eq_ok_iff.mp hrows
  exact Except.bind_eq_ok_iff.mpr ⟨raw, h.fetch_eq i ids raw hraw, hrest⟩

/-- In an honest environment (`h`), the step in the background raises no panic, as the store raises
none. -/
private theorem fetchRows_ne_panic (h : env.Honest emb) (i : ℕ) (ids : List ℤ) :
    { emb with fetch := env.store i }.fetchRows ids ≠ .error .panic := by
  intro hpanic
  unfold DiskPleEmbedding.fetchRows at hpanic
  cases hraw : env.store i ids with
  | error e =>
    simp only [hraw] at hpanic
    cases hpanic
    exact h.ne_panic i ids hraw
  | ok raw =>
    simp only [hraw, Except.ok_bind] at hpanic
    split_ifs at hpanic
    · cases hpanic
    · cases hpanic

end Progress.Honest

namespace DiskPleBooks

variable {emb : DiskPleEmbedding} {s : DiskPleBooks} {env : Progress}

/-- The books, with every future named by its rows. -/
def forget (s : DiskPleBooks) : DiskPleState :=
  s.settledState.withPending (s.pending.map PrefetchFuture.rows)

/-- What happens to the pending prefetches, as an input of the embedding. -/
def settlingOf (emb : DiskPleEmbedding) (s : DiskPleBooks) (env : Progress) : Settling where
  fails i := ((settledFutures emb s env)[i]?).any PrefetchFuture.failed
  late i := env.late i && env.later i

/-- Linked books of which no fetch has ended. -/
structure Fresh (s : DiskPleBooks) : Prop extends Linked s where
  /-- Nothing is known of the fetches. -/
  result_eq : ∀ f ∈ s.pending, f.result = none

private theorem fresh_new : Fresh new := ⟨linked_new, fun _ h => by cases h⟩

/-- A future that was not done, when it is settled. -/
theorem result_settled {p : PrefetchFuture × ℕ} (hp : p.1.result = none) :
    (settled emb env p).result =
      if emb.hasPrefetchTimeout ∧ env.late p.2 ∧ env.later p.2 then none
      else some ({ emb with fetch := env.store p.2 }.fetchRows p.1.rows) := by
  have hdone : p.1.done = false := by rw [PrefetchFuture.done, hp, Option.isSome_none]
  unfold settled waited
  by_cases hlate : emb.hasPrefetchTimeout && env.late p.2
  · have hwait : p.1.finish emb (env.store p.2) (emb.hasPrefetchTimeout && env.late p.2) = p.1 := by
      rw [PrefetchFuture.finish, if_pos (.inr hlate)]
    obtain ⟨htimeout, hlate⟩ := Bool.and_eq_true_iff.mp hlate
    rw [hwait, PrefetchFuture.finish, hdone]
    cases hlater : env.later p.2
    · simp
    · simp [htimeout, hlate, hp]
  · have hwait : (p.1.finish emb (env.store p.2) (emb.hasPrefetchTimeout && env.late p.2)).result =
        some ({ emb with fetch := env.store p.2 }.fetchRows p.1.rows) := by
      rw [PrefetchFuture.finish, if_neg (by simp [hdone, hlate])]
    have hkeep : ∀ (g : PrefetchFuture) (late : Bool), g.done →
        g.finish emb (env.store p.2) late = g := by
      intro g late hg
      rw [PrefetchFuture.finish, if_pos (.inl hg)]
    rw [hkeep _ _ (by rw [PrefetchFuture.done, hwait]; rfl), hwait, if_neg]
    rintro ⟨htimeout, hl, -⟩
    exact hlate (by rw [htimeout, hl]; rfl)

/-- An honest fetch that has ended did not end in a panic. -/
theorem panicked_settled (henv : env.Honest emb) {p : PrefetchFuture × ℕ} (hp : p.1.result = none) :
    (settled emb env p).panicked = false := by
  rw [PrefetchFuture.panicked, result_settled hp]
  split_ifs
  · rfl
  · cases hrows : { emb with fetch := env.store p.2 }.fetchRows p.1.rows with
    | ok rows => rfl
    | error e =>
      have hne : e ≠ .panic := by
        rintro rfl
        exact henv.fetchRows_ne_panic p.2 p.1.rows hrows
      cases e <;> first | rfl | exact absurd rfl hne

/-- The embedding finds every future in the state in which the books find it. -/
private theorem futureState_settlingOf (henv : env.Honest emb) {p : PrefetchFuture × ℕ}
    (hmem : p ∈ s.pending.zipIdx) (hp : p.1.result = none) :
    emb.futureState (settlingOf emb s env) p.2 p.1.rows = (settled emb env p).state := by
  have hfails : (settlingOf emb s env).fails p.2 = (settled emb env p).failed := by
    obtain ⟨hlt, hget⟩ := List.getElem?_eq_some_iff.mp (List.mk_mem_zipIdx_iff_getElem?.mp hmem)
    have hplace : (settledFutures emb s env)[p.2]? = some (settled emb env p) := by
      rw [settledFutures, List.getElem?_map, List.getElem?_zipIdx,
        List.getElem?_eq_getElem hlt, hget]
      simp
    simp only [settlingOf, hplace, Option.any_some]
  rw [DiskPleEmbedding.futureState, hfails, PrefetchFuture.state, PrefetchFuture.failed,
    result_settled hp]
  simp only [settlingOf, Bool.and_eq_true]
  by_cases hlate : emb.hasPrefetchTimeout ∧ env.late p.2 ∧ env.later p.2
  · rw [if_pos hlate, if_pos hlate]
  · rw [if_neg hlate, if_neg hlate]
    cases hrows : { emb with fetch := env.store p.2 }.fetchRows p.1.rows with
    | error e => rfl
    | ok rows =>
      rw [henv.fetchRows_eq hrows]
      rfl

/-- Settling a future, in the books and in the embedding. -/
theorem settleOne_refines (f : PrefetchFuture) (pending : List (List ℤ)) :
    emb.settleOne (s.settledState.withPending pending) f.rows f.state =
      (settleDone emb s f).settledState.withPending
        (pending ++ if f.done then [] else [f.rows]) := by
  rw [settleDone, PrefetchFuture.state, PrefetchFuture.done]
  cases f.result with
  | none => rfl
  | some result =>
    rw [Option.isSome_some, if_pos rfl, List.append_nil]
    cases result with
    | error e => rfl
    | ok rows =>
      simp only [DiskPleEmbedding.settleOne, settleOne]
      split_ifs
      · rfl
      · rfl

/-- Settling several futures. -/
theorem settleAll_refines (fs : List PrefetchFuture) (pending : List (List ℤ)) :
    fs.foldl (fun t f => emb.settleOne t f.rows f.state) (s.settledState.withPending pending) =
      (settleAll emb s fs).settledState.withPending
        (pending ++ (fs.filter fun f => ¬ f.done).map PrefetchFuture.rows) := by
  induction fs generalizing s pending with
  | nil =>
    rw [List.filter_nil, List.map_nil, List.append_nil]
    rfl
  | cons f fs ih =>
    rw [List.foldl_cons, settleOne_refines, ih, List.append_assoc, List.filter_cons]
    cases f.done with
    | true => rfl
    | false => rfl

/-- The books when the waiting is over are linked, and no fetch has ended in a panic. -/
theorem Fresh.atSettling (hs : Fresh s) (henv : env.Honest emb) :
    Linked (atSettling emb s env) ∧ ¬ ∃ f ∈ (atSettling emb s env).pending, f.panicked := by
  refine ⟨hs.toLinked.congr rows_settledFutures rfl, ?_⟩
  rintro ⟨f, hf, hpanic⟩
  obtain ⟨p, hp, rfl⟩ := List.mem_map.mp hf
  rw [panicked_settled henv (hs.result_eq p.1 (List.fst_mem_of_mem_zipIdx hp))] at hpanic
  cases hpanic

/-- Settling honest fetches, in the books and in the embedding. -/
theorem settlePrefetches_refines (hs : Fresh s) (henv : env.Honest emb) :
    ∃ t, settlePrefetches emb (DiskPleBooks.atSettling emb s env) = (.ok (), t) ∧ Fresh t ∧
      emb.settlePrefetches (forget s) (settlingOf emb s env) = forget t := by
  obtain ⟨hlinked, hpanic⟩ := hs.atSettling henv
  refine ⟨_, settlePrefetches_eq hlinked hpanic, ⟨linked_of_settled hlinked rfl rfl, ?_⟩, ?_⟩
  · intro f hf
    simpa [PrefetchFuture.done] using (List.mem_filter.mp hf).2
  · have hfold : emb.settlePrefetches (forget s) (settlingOf emb s env) =
        (settledFutures emb s env).foldl (fun t f => emb.settleOne t f.rows f.state)
          (s.settledState.withPending []) := by
      rw [DiskPleEmbedding.settlePrefetches, forget, settledFutures]
      simp only [DiskPleState.withPending, List.zipIdx_map, List.foldl_map, Prod.map]
      refine List.foldl_ext _ _ _ fun t p hp => ?_
      have hresult := hs.result_eq p.1 (List.fst_mem_of_mem_zipIdx hp)
      rw [rows_settled, ← futureState_settlingOf henv hp hresult]
      rfl
    rw [hfold]
    exact settleAll_refines (s := DiskPleBooks.atSettling emb s env) _ []

/-- An honest fetch that has ended did not end in a panic when it was waited for either. -/
private theorem panicked_waited (henv : env.Honest emb) {p : PrefetchFuture × ℕ}
    (hp : p.1.result = none) :
    (waited emb env p).panicked = false := by
  rw [← Bool.not_eq_true]
  intro hpanic
  have hdone : (waited emb env p).done = true := by
    unfold PrefetchFuture.panicked at hpanic
    split at hpanic
    · next hresult => rw [PrefetchFuture.done, hresult, Option.isSome_some]
    · cases hpanic
  have hkeep : settled emb env p = waited emb env p := by
    rw [settled, PrefetchFuture.finish, if_pos (.inl hdone)]
  rw [← hkeep, panicked_settled henv hp] at hpanic
  cases hpanic

/-- A `forward` during which the fetches are honest returns what the embedding returns. -/
theorem forward_refines (hs : Fresh s) (henv : env.Honest emb) (flat : List ℤ) :
    emb.forward (forget s) flat (settlingOf emb s env) =
        ((s.forward emb flat env).1, forget (s.forward emb flat env).2) ∧
      Fresh (s.forward emb flat env).2 := by
  by_cases hnil : s.pending = []
  · have hforget : forget s = s.settledState := by
      rw [forget, hnil]
      rfl
    -- with nothing pending the progress of the workers does not matter
    have hquiet : s.settledState.pending = [] := rfl
    obtain ⟨hsame, cache, prefetched, hrows⟩ := emb.forward_of_pending_nil hquiet flat
      (settlingOf emb s env) ⟨fun _ => false, fun _ => false⟩
    rw [hforget, hsame, forward, if_pos hnil]
    refine ⟨Prod.ext rfl ?_, ⟨⟨hs.missing_eq, hs.ne_nil⟩, hs.result_eq⟩⟩
    dsimp only
    rw [hrows, forget, withRows, hnil]
    rfl
  -- otherwise both settle, and both fetch what is then missing
  · obtain ⟨u, hsettle, hfresh, hcoarse⟩ := settlePrefetches_refines hs henv
    have hwait : ∀ p ∈ s.pending.zipIdx, (waited emb env p).panicked = false := fun p hp =>
      panicked_waited henv (hs.result_eq p.1 (List.fst_mem_of_mem_zipIdx hp))
    have hne : (forget s).pending ≠ [] := by
      rw [forget]
      exact fun h => hnil (List.map_eq_nil_iff.mp h)
    have hquiet : u.settledState.pending = [] := rfl
    obtain ⟨fetched, cache, prefetched, h, h'⟩ := emb.getMissing_eq hquiet
      ((if_neg hne).trans hcoarse) flat ⟨fun _ => false, fun _ => false⟩
    rw [forward_eq hnil hwait, hsettle]
    refine ⟨?_, ⟨⟨hfresh.missing_eq, hfresh.ne_nil⟩, hfresh.result_eq⟩⟩
    rw [DiskPleEmbedding.forward, if_neg (fun hshort => hne hshort.2.1), h]
    dsimp only [lookup]
    rw [h']
    rfl

/-- A `prefetch` whose fetch the executor takes does what that of the embedding does. -/
theorem prefetch_refines (hs : Fresh s) {rowids : List ℤ} {submit : Py Unit}
    (hcalm : Calm emb s (.prefetch rowids submit)) :
    DiskPleEmbedding.prefetch (forget s) rowids =
        ((s.prefetch rowids submit).1, forget (s.prefetch rowids submit).2) ∧
      Fresh (s.prefetch rowids submit).2 := by
  refine ⟨?_, linked_prefetch hs.toLinked rowids submit, ?_⟩
  · unfold DiskPleEmbedding.prefetch prefetch
    by_cases hclosed : s.closed
    · rw [if_pos hclosed, if_pos (by exact hclosed)]
    rw [if_neg hclosed, if_neg (by exact hclosed)]
    by_cases hnil : s.missing rowids = []
    · simp only [hnil]
      rw [if_pos (by exact hnil)]
      rfl
    -- a calm call that gets this far has submitted its job
    obtain rfl : submit = .ok () := (hcalm.resolve_left hclosed).resolve_left hnil
    simp only [if_neg hnil]
    rw [if_neg (by exact hnil), forget, forget, List.map_append]
    rfl
  -- the new future has no result yet
  · simp only [prefetch]
    split_ifs with hclosed hnil
    · exact hs.result_eq
    · exact hs.result_eq
    cases submit with
    | error e => exact hs.result_eq
    | ok u =>
      intro f hf
      rcases List.mem_append.mp hf with h | h
      · exact hs.result_eq f h
      · rw [List.mem_singleton.mp h]
        rfl

/-- The call refines one on the embedding: the executor takes the fetch of a `prefetch`, and fetches
are honest. It asks for rows of the table. -/
def Faithful (emb : DiskPleEmbedding) (n : ℕ) (s : DiskPleBooks) : BooksCall → Prop
  | .prefetch rowids submit => Calm emb s (.prefetch rowids submit) ∧ ∀ r ∈ rowids, InRange n r
  | .forward flat env => env.Honest emb ∧ ∀ r ∈ flat, InRange n r
  | .close => True

section Steps

variable {n : ℕ} {row : ℤ → Bytes}

/-- Closing drops what was prefetched, which keeps fresh books fresh (`hs`) and the invariant of the
rows (`hinv`). -/
private theorem close_books (hs : Fresh s) (hinv : emb.Inv n row (forget s)) :
    Fresh s.close ∧ emb.Inv n row (forget s.close) := by
  unfold close
  split_ifs
  · exact ⟨hs, hinv⟩
  · refine ⟨⟨⟨rfl, by simp⟩, fun f hf => by cases hf⟩, hinv.cache, hinv.bounded, ?_,
      fun m hm => by cases hm⟩
    exact OrderedDict.agrees_empty

/-- A faithful call (`hcall`) on fresh books (`hs`) keeps the invariant of the embedding (`hinv`)
and the books fresh. -/
theorem inv_step (hserves : Serves emb.fetch n row emb.rowBytes) (hs : Fresh s)
    (hinv : emb.Inv n row (forget s)) {call : BooksCall} (hcall : Faithful emb n s call) :
    Fresh (s.step emb call) ∧ emb.Inv n row (forget (s.step emb call)) := by
  cases call with
  | prefetch rowids submit =>
    obtain ⟨hcalm, hrange⟩ := hcall
    obtain ⟨hprefetch, hfresh⟩ := prefetch_refines hs hcalm
    refine ⟨hfresh, ?_⟩
    have h := DiskPleEmbedding.inv_prefetch hinv hrange
    rwa [hprefetch] at h
  | forward flat env =>
    obtain ⟨henv, hrange⟩ := hcall
    obtain ⟨hforward, hfresh⟩ := forward_refines hs henv flat
    refine ⟨hfresh, ?_⟩
    have h := (DiskPleEmbedding.forward_eq_iff hserves hinv hrange (settlingOf emb s env)).2
    rwa [hforward] at h
  | close => exact close_books hs hinv

/-- After every run of faithful calls, a `forward` returns the stored rows iff the requested rows
fit. -/
theorem forward_eq_iff_fits (hserves : Serves emb.fetch n row emb.rowBytes) {calls : List BooksCall}
    (hcalls : Machine.AlongSteps (fun s call => some (s.step emb call)) (Faithful emb n) new calls)
    (hrun : Machine.run (fun s call => some (s.step emb call)) new calls = some s)
    (henv : env.Honest emb) {flat : List ℤ} (hrange : ∀ r ∈ flat, InRange n r) :
    (s.forward emb flat env).1 = .ok (flat.map row).flatten ↔
      emb.Fits (forget s) flat (settlingOf emb s env) := by
  have hsteps : Machine.Along (fun s call => some (s.step emb call))
      (fun s => Fresh s ∧ emb.Inv n row (forget s)) new calls := by
    refine Machine.along_of_alongSteps ?_ ⟨fresh_new, DiskPleEmbedding.inv_new⟩ hcalls
    rintro t call t' ⟨hs, hinv⟩ hcall hstep
    cases hstep
    exact inv_step hserves hs hinv hcall
  obtain ⟨hs, hinv⟩ := hsteps.run hrun
  rw [← (DiskPleEmbedding.forward_eq_iff hserves hinv hrange (settlingOf emb s env)).1,
    (forward_refines hs henv flat).1]

end Steps

end DiskPleBooks

end EngramDB
