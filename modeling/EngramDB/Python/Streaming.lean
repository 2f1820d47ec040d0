import EngramDB.Keygen.Spec
import EngramDB.Python.PleMemory
import Mathlib.Data.List.SplitLengths

/-!
# Streaming equals batch

A sequence that is fed chunk by chunk returns the row ids of the whole token list.

* `feedChunks` is what a run of `PleSequence.feed` computes of row ids (`feedAll_eq_ok`), and
  `feedChunks_eq` says that it is the row ids of the whole list, errors included;
* `feedResults_eq`: a run is the computation of the row ids of the whole list, followed by a fetch
  for every chunk, so that it raises what this computation or one of these fetches raises;
* `feedAll_streaming`: the law for `PleSequence` and for the keygen crate.
-/

namespace EngramDB

open Ngram

namespace PleMemory

variable {σ : Type} (mem : PleMemory σ)

/-- The row function of a memory. -/
def rowOf (column : List ℤ) : Py (List ℤ) :=
  PleMath.rowOf mem.multipliers (some mem.primeSizes) (some mem.offsets) mem.ngramSize
    mem.headsPerNgram column

theorem sameFault_rowOf (past past' : List ℤ) :
    Except.SameFault (mem.rowOf (lookBack mem.eos mem.ngramSize past))
      (mem.rowOf (lookBack mem.eos mem.ngramSize past')) :=
  PleMath.sameFault_rowOf past past'

/-- With a history, the rows are computed along the stream of the history and the tokens. -/
theorem rowidsForTokens_some {history : List ℤ} (hne : history ≠ []) (tokens : List ℤ) :
    mem.rowidsForTokens tokens (some history) =
      rowsFrom mem.eos mem.ngramSize mem.rowOf history tokens := by
  have hfilter : (some history).filter (· ≠ []) = some history := by simp [hne]
  rw [rowidsForTokens, hfilter, PleMath.pleRowids_eq]
  rfl

/-- Without a history, the stream starts after two separators. -/
theorem rowidsForTokens_none (tokens : List ℤ) :
    mem.rowidsForTokens tokens none =
      rowsFrom mem.eos mem.ngramSize mem.rowOf (List.replicate 2 mem.eos) tokens := by
  rw [rowidsForTokens, Option.filter_none, PleMath.pleRowids_eq]
  rfl

/-- A computation of row ids that returns (`h`) has a tuple of row ids for every token. -/
theorem length_rowidsForTokens {tokens history : List ℤ} {rows : List (List ℤ)}
    (h : mem.rowidsForTokens tokens (some history) = .ok rows) : rows.length = tokens.length := by
  rcases eq_or_ne history [] with rfl | hne
  · exact length_rowsFrom ((mem.rowidsForTokens_none tokens).symm.trans h)
  · exact length_rowsFrom ((mem.rowidsForTokens_some hne tokens).symm.trans h)

/-- The row ids that a sequence computes when it is fed `tokens` in one call: none for no tokens. -/
def feedRowids (history tokens : List ℤ) : Py (List (List ℤ)) :=
  if tokens = [] then pure [] else mem.rowidsForTokens tokens (some history)

/-- The row ids that a sequence computes when it is fed chunk by chunk. -/
def feedChunks : List ℤ → List (List ℤ) → Py (List (List ℤ))
  | _, [] => pure []
  | history, tok :: toks =>
    if tok = [] then feedChunks history toks
    else do
      let rows ← mem.rowidsForTokens tok (some history)
      let rest ← feedChunks (Py.lastItems (history ++ tok) (max 1 (mem.ngramSize - 1))) toks
      pure (rows ++ rest)

theorem lastItems_ne_nil {xs : List ℤ} (hne : xs ≠ []) {k : ℕ} (hk : k ≠ 0) :
    Py.lastItems xs k ≠ [] := by
  intro hnil
  have hlen := congrArg List.length hnil
  have hpos := List.length_pos_iff.mpr hne
  rw [Py.lastItems, if_neg hk, List.length_drop, List.length_nil] at hlen
  omega

/-- Chunk by chunk, the row ids are those of the whole list. -/
theorem feedChunks_eq {history : List ℤ} (hne : history ≠ []) (toks : List (List ℤ)) :
    mem.feedChunks history toks = mem.feedRowids history toks.flatten := by
  have hkeep : max 1 (mem.ngramSize - 1) ≠ 0 := by omega
  induction toks generalizing history with
  | nil => rfl
  | cons tok toks ih =>
    rw [feedChunks, List.flatten_cons]
    split_ifs with htok
    · rw [ih hne, htok, List.nil_append]
    · have hlast : Py.lastItems (history ++ tok) (max 1 (mem.ngramSize - 1)) ≠ [] :=
        lastItems_ne_nil (by simp [hne]) hkeep
      have hwhole : tok ++ toks.flatten ≠ [] := List.append_ne_nil_of_left_ne_nil htok _
      simp only [ih hlast, feedRowids, if_neg hwhole, rowidsForTokens_some _ hne,
        rowidsForTokens_some _ hlast]
      split_ifs with hrest
      · rw [hrest, List.append_nil]
        cases rowsFrom mem.eos mem.ngramSize mem.rowOf history tok <;>
          simp [bind, Except.bind, pure, Except.pure]
      · rw [Py.lastItems, if_neg hkeep,
          rowsFrom_drop_history mem.sameFault_rowOf (by omega) hkeep,
          rowsFrom_append mem.sameFault_rowOf hne]

end PleMemory

namespace PleSequence

variable {σ : Type} {mem : PleMemory σ}

/-- What feeding one batch can do when it returns (`h`): nothing for no tokens, else the row ids of
the tokens and a longer history. -/
theorem feed_eq_ok {seq seq' : PleSequence} {tok : List ℤ} {step : PleStep} {s s' : σ}
    (h : seq.feed mem tok s = (.ok (step, seq'), s')) :
    (tok = [] ∧ step.rowids = [] ∧ seq'.history = seq.history) ∨
      (tok ≠ [] ∧ mem.rowidsForTokens tok (some seq.history) = .ok step.rowids ∧
        seq'.history = Py.lastItems (seq.history ++ tok) (max 1 (mem.ngramSize - 1))) := by
  unfold feed at h
  split_ifs at h with htok
  · cases h
    exact .inl ⟨htok, rfl, rfl⟩
  · obtain ⟨rows, t, hrows, h⟩ := PyM.bind_eq_ok_iff.mp h
    obtain ⟨raw, t', -, h⟩ := PyM.bind_eq_ok_iff.mp h
    rw [PyM.lift_apply, Prod.mk.injEq] at hrows
    cases h
    exact .inr ⟨htok, hrows.1, rfl⟩

/-- A run that returns has computed the row ids that its steps carry. -/
theorem feedAll_eq_ok {toks : List (List ℤ)} {seq seq' : PleSequence} {s s' : σ}
    {steps : List PleStep} (h : feedAll mem seq toks s = (.ok (steps, seq'), s')) :
    mem.feedChunks seq.history toks = .ok (steps.flatMap PleStep.rowids) := by
  induction toks generalizing seq s steps with
  | nil =>
    cases h
    rfl
  | cons tok toks ih =>
    obtain ⟨⟨step, seq₁⟩, t, hfeed, h⟩ := PyM.bind_eq_ok_iff.mp h
    obtain ⟨⟨rest, seq₂⟩, t', hall, h⟩ := PyM.bind_eq_ok_iff.mp h
    cases h
    have hrest := ih hall
    rw [PleMemory.feedChunks, List.flatMap_cons]
    rcases feed_eq_ok hfeed with ⟨htok, hrows, hhist⟩ | ⟨htok, hrows, hhist⟩
    · rw [if_pos htok, ← hhist, hrest, hrows, List.nil_append]
    · rw [if_neg htok, hrows, ← hhist, hrest]
      rfl

end PleSequence

namespace PleMemory

variable {σ : Type} (mem : PleMemory σ)

/-- Row ids of a whole token list in one call; no tokens have no row ids. -/
def batchRowids (tokens : List ℤ) : Py (List (List ℤ)) :=
  if tokens = [] then pure [] else mem.rowidsForTokens tokens none

/-- A sequence starts out with the same context as a call without a history. -/
theorem feedRowids_replicate (tokens : List ℤ) :
    mem.feedRowids (List.replicate (mem.ngramSize - 1) mem.eos) tokens =
      mem.batchRowids tokens := by
  have hngram := mem.two_le_ngramSize
  have hne : List.replicate (mem.ngramSize - 1) mem.eos ≠ [] := by simp; omega
  rw [feedRowids, batchRowids, rowidsForTokens_some _ hne, rowidsForTokens_none,
    rowsFrom_replicate mem.sameFault_rowOf (by omega) (by omega : 2 ≠ 0)]

/-- Fetch pieces of row tuples one after another, each piece with its bytes. -/
def fetchPieces : List (List (List ℤ)) → PyM σ (List (List (List ℤ) × Bytes))
  | [] => return []
  | rows :: pieces => do
    let raw ← mem.fetchRaw rows
    let rest ← fetchPieces pieces
    return (rows, raw) :: rest

/-- What streaming is compared with: the row ids of the whole list are computed in one call, cut
where the chunks end, and the bytes of every piece are fetched. -/
def fetchBatch (toks : List (List ℤ)) : PyM σ (List (List (List ℤ) × Bytes)) := do
  let rows ← PyM.lift (mem.batchRowids toks.flatten)
  mem.fetchPieces ((toks.map List.length).splitLengths rows)

/-- No rows have no bytes, and nothing is read. -/
private theorem fetchRaw_nil (s : σ) : mem.fetchRaw [] s = (.ok [], s) := rfl

/-- When the row ids of some tokens can be computed, so can those of all tokens that follow: the
arithmetic of a row fails for every token or for none. -/
private theorem exists_feedRowids_eq_ok {history history' tok : List ℤ} (hne : history ≠ [])
    (hne' : history' ≠ []) {rows : List (List ℤ)}
    (h : mem.rowidsForTokens tok (some history) = .ok rows) (tokens : List ℤ) :
    ∃ rest, mem.feedRowids history' tokens = .ok rest := by
  rw [rowidsForTokens_some _ hne] at h
  rw [feedRowids, rowidsForTokens_some _ hne']
  split_ifs
  · exact ⟨[], rfl⟩
  rcases rowFunction_total_or_error mem.sameFault_rowOf with ⟨f, hf⟩ | ⟨e, he⟩
  · exact ⟨_, rowsFrom_eq_of_ok hf history' tokens⟩
  · rw [rowsFrom_eq_of_error he (by simp [hne])] at h
    cases h

/-- The row ids of a chunk and of what follows it are those of both together. -/
private theorem feedRowids_append {history tok : List ℤ} (hne : history ≠ []) (htok : tok ≠ [])
    (tokens : List ℤ) :
    mem.feedRowids history (tok ++ tokens) = (do
      let rows ← mem.rowidsForTokens tok (some history)
      let rest ← mem.feedRowids
        (Py.lastItems (history ++ tok) (max 1 (mem.ngramSize - 1))) tokens
      pure (rows ++ rest)) := by
  have hchunks := mem.feedChunks_eq hne [tok, tokens]
  have hlast : Py.lastItems (history ++ tok) (max 1 (mem.ngramSize - 1)) ≠ [] :=
    lastItems_ne_nil (by simp [hne]) (by omega)
  have hrest := mem.feedChunks_eq hlast [tokens]
  rw [feedChunks, if_neg htok, hrest] at hchunks
  simpa only [List.flatten_cons, List.flatten_nil, List.append_nil] using hchunks.symm

end PleMemory

namespace PleSequence

variable {σ : Type} {mem : PleMemory σ}

/-- The results of the steps of a run of feeds. -/
def feedResults (mem : PleMemory σ) (seq : PleSequence) (toks : List (List ℤ)) :
    PyM σ (List (List (List ℤ) × Bytes)) := do
  let (steps, _) ← feedAll mem seq toks
  return steps.map fun step => (step.rowids, step.raw)

/-- The results of a run are those of its first feed, and of a run from there. -/
private theorem feedResults_cons (seq : PleSequence) (tok : List ℤ) (toks : List (List ℤ)) :
    feedResults mem seq (tok :: toks) = (do
      let (step, seq) ← seq.feed mem tok
      let rest ← feedResults mem seq toks
      return (step.rowids, step.raw) :: rest) := by
  simp [feedResults, feedAll]

/-- A feed whose bytes are fetched returns, and keeps the newest tokens as its history. -/
private theorem exists_feed_eq_ok {seq : PleSequence} {tok : List ℤ} {rows : List (List ℤ)}
    {raw : Bytes}
    {s t : σ} (htok : tok ≠ []) (hrows : mem.rowidsForTokens tok (some seq.history) = .ok rows)
    (hraw : mem.fetchRaw rows s = (.ok raw, t)) :
    ∃ seq', seq.feed mem tok s = (.ok (⟨tok, rows, raw⟩, seq'), t) ∧
      seq'.history = Py.lastItems (seq.history ++ tok) (max 1 (mem.ngramSize - 1)) := by
  refine ⟨PleSequence.pushStep { seq with
    tokens := seq.tokens ++ tok
    history := Py.lastItems (seq.history ++ tok) (max 1 (mem.ngramSize - 1)) } ⟨tok, rows, raw⟩,
    ?_, rfl⟩
  rw [feed, if_neg htok, hrows]
  exact (PyM.bind_of_ok (PyM.lift_apply _ _)).trans (PyM.bind_of_ok hraw)

/-- A feed whose bytes are not fetched raises the error of the fetch. -/
private theorem feed_eq_error {seq : PleSequence} {tok : List ℤ} {rows : List (List ℤ)}
    {e : PyError}
    {s t : σ} (htok : tok ≠ []) (hrows : mem.rowidsForTokens tok (some seq.history) = .ok rows)
    (hraw : mem.fetchRaw rows s = (.error e, t)) : seq.feed mem tok s = (.error e, t) := by
  rw [feed, if_neg htok, hrows]
  exact (PyM.bind_of_ok (PyM.lift_apply _ _)).trans (PyM.bind_of_error hraw)

/-- A run of feeds, chunk by chunk, is the computation of the row ids of the whole list followed by
a fetch for every chunk. It returns when this does, with the same results, raises what this raises,
and leaves the storage in the same state. -/
theorem feedResults_eq {seq : PleSequence} (hne : seq.history ≠ []) (toks : List (List ℤ)) (s : σ) :
    feedResults mem seq toks s = (do
      let rows ← PyM.lift (mem.feedRowids seq.history toks.flatten)
      mem.fetchPieces ((toks.map List.length).splitLengths rows)) s := by
  induction toks generalizing seq s with
  | nil => rfl
  | cons tok toks ih =>
    rw [feedResults_cons, List.flatten_cons, List.map_cons]
    by_cases htok : tok = []
    · -- an empty chunk reads nothing, and the history stays
      subst htok
      have hfeed : seq.feed mem [] s = (.ok (⟨[], [], []⟩, seq.pushStep ⟨[], [], []⟩), s) := rfl
      have hrest := @ih (seq.pushStep ⟨[], [], []⟩) hne s
      change feedResults mem _ toks s = (PyM.lift (mem.feedRowids seq.history _) >>= _) s at hrest
      rw [PyM.bind_of_ok hfeed, List.nil_append]
      dsimp only
      rw [PyM.bind_congr_left hrest]
      cases mem.feedRowids seq.history toks.flatten with
      | error e => rfl
      | ok rows =>
        rw [PyM.bind_of_ok (PyM.lift_apply _ _), List.length_nil, List.splitLengths_cons,
          List.take_zero, List.drop_zero, PleMemory.fetchPieces,
          PyM.bind_of_ok (mem.fetchRaw_nil s)]
        exact PyM.bind_congr_left (PyM.bind_of_ok (PyM.lift_apply _ _)) _
    · have hlast : Py.lastItems (seq.history ++ tok) (max 1 (mem.ngramSize - 1)) ≠ [] :=
        PleMemory.lastItems_ne_nil (by simp [hne]) (by omega)
      rw [mem.feedRowids_append hne htok]
      cases hrows : mem.rowidsForTokens tok (some seq.history) with
      | error e =>
        have hfeed : seq.feed mem tok s = (.error e, s) := by
          rw [feed, if_neg htok, hrows]
          rfl
        rw [PyM.bind_of_error hfeed]
        rfl
      | ok rows =>
        -- the row ids of the later chunks are computed if those of this one are
        obtain ⟨later, hlater⟩ := mem.exists_feedRowids_eq_ok hne hlast hrows toks.flatten
        have hlength : rows.length = tok.length := mem.length_rowidsForTokens hrows
        have hwhole : PyM.lift (pure (rows ++ later)) s = (.ok (rows ++ later), s) := rfl
        rw [hlater, Except.ok_bind, Except.ok_bind, PyM.bind_of_ok hwhole, List.splitLengths_cons,
          List.take_left' hlength, List.drop_left' hlength, PleMemory.fetchPieces]
        rcases hraw : mem.fetchRaw rows s with ⟨e | raw, t⟩
        · rw [PyM.bind_of_error (feed_eq_error htok hrows hraw), PyM.bind_of_error hraw]
        · obtain ⟨seq', hfeed, hhistory⟩ := exists_feed_eq_ok htok hrows hraw
          have hrest := @ih seq' (hhistory ▸ hlast) t
          rw [hhistory, hlater] at hrest
          rw [PyM.bind_of_ok hfeed, PyM.bind_of_ok hraw]
          exact PyM.bind_congr_left (hrest.trans (PyM.bind_of_ok (PyM.lift_apply _ _))) _

/-- Streaming equals batch. For every memory, the chunks of a token list that is fed to a new
sequence return the row ids of the whole list: every run is the computation of these in one call,
followed by a fetch for every chunk, so that it raises only what this computation or one of its own
fetches raises. Tokens older than the last `ngramSize - 1` of a history change nothing. The keygen
crate has the same law with three tokens. -/
theorem feedAll_streaming :
    (∀ (mem : PleMemory σ) (keepSteps : ℤ) (toks : List (List ℤ)) (s : σ),
      feedResults mem (new mem none keepSteps) toks s = mem.fetchBatch toks s) ∧
    (∀ (mem : PleMemory σ) (keepSteps : ℤ) (toks : List (List ℤ)) (s s' : σ)
      (steps : List PleStep) (seq : PleSequence),
      feedAll mem (new mem none keepSteps) toks s = (.ok (steps, seq), s') →
        mem.batchRowids toks.flatten = .ok (steps.flatMap PleStep.rowids)) ∧
    (∀ (multipliers : List ℤ) (eos : ℤ) (sizes offsets : Option (List ℤ))
      (ngramSize headsPerNgram : ℕ) (older recent tokens : List ℤ),
      2 ≤ ngramSize → ngramSize - 1 ≤ recent.length →
        PleMath.pleRowids tokens multipliers eos sizes offsets ngramSize headsPerNgram
            (some (older ++ recent)) =
          PleMath.pleRowids tokens multipliers eos sizes offsets ngramSize headsPerNgram
            (some recent)) ∧
    (∀ (spec : PleSpec) (c : List UInt32) (cs : List (List UInt32)),
      chunkRows (spec.rowidsForSeqWithHistory (ε := Empty)) (PLE_NGRAM_SIZE - 1)
          (List.replicate (PLE_NGRAM_SIZE - 1) spec.eos) (c :: cs) =
        spec.rowidsForSeq (c ++ cs.flatten)) ∧
    (∀ (spec : PleSpec) (older recent tokens : List UInt32), PLE_NGRAM_SIZE - 1 ≤ recent.length →
      spec.rowidsForSeqWithHistory (ε := Empty) (older ++ recent) tokens =
        spec.rowidsForSeqWithHistory recent tokens) := by
  have hnew (mem : PleMemory σ) (keepSteps : ℤ) : (new mem none keepSteps).history ≠ [] := by
    have hngram := mem.two_le_ngramSize
    show List.replicate (mem.ngramSize - 1) mem.eos ≠ []
    simp
    omega
  refine ⟨fun mem keepSteps toks s => ?_, fun mem keepSteps toks s s' steps seq hrun => ?_, ?_, ?_,
    ?_⟩
  · rw [feedResults_eq (hnew mem keepSteps), PleMemory.fetchBatch, ← mem.feedRowids_replicate]
    rfl
  · rw [← mem.feedRowids_replicate, ← feedAll_eq_ok hrun]
    exact (mem.feedChunks_eq (hnew mem keepSteps) toks).symm
  · intro multipliers eos sizes offsets ngramSize headsPerNgram older recent tokens hngram hlen
    exact PleMath.pleRowids_append_history hngram older hlen tokens multipliers eos sizes offsets
      headsPerNgram
  · exact fun spec c cs => PleSpec.chunkRows_rowidsForSeqWithHistory c cs
  · exact fun spec older recent tokens hlen =>
      PleSpec.rowidsForSeqWithHistory_append older hlen tokens

/-- A memory of two heads over a store whose rows are four zero bytes each. -/
def smokeMemory : PleMemory Unit where
  source := .store ⟨.int 4, fun rows => pure (List.replicate (4 * rows.length) 0)⟩
  numHeads := 2
  headDim := 4
  ngramSize := 2
  headsPerNgram := 2
  eos := 0
  multipliers := PleMath.DEFAULT_MULTIPLIERS
  primeSizes := [2, 2]
  offsets := [0, 2]
  startSlot := 0
  headDim_pos := by decide
  two_le_ngramSize := by decide
  numHeads_eq := by decide
  length_primeSizes := by decide
  length_offsets := by decide

/-- A memory of two heads over a store, whose fetch raises once: after `k` fetches. -/
def faultyMemory (k : ℕ) : PleMemory ℕ :=
  { smokeMemory with
    source := .store ⟨.int 4, fun rows n =>
      if n = k then (.error (.osError "Input/output error"), n + 1)
      else (.ok (List.replicate (4 * rows.length) 0), n + 1)⟩ }

/-- The second chunk that reads raises the error of its read, and the third is not fed. -/
example : feedResults (faultyMemory 1) (new (faultyMemory 1) none 32) [[1], [], [2, 3], [4]] 0 =
    (.error (.osError "Input/output error"), 2) := by
  rfl

theorem feedAll_streaming_smokeMemory :
    feedResults (faultyMemory 1) (new (faultyMemory 1) none 32) [[1], [], [2, 3], [4]] 0 =
        (faultyMemory 1).fetchBatch [[1], [], [2, 3], [4]] 0 ∧
    (∃ steps : List PleStep,
      smokeMemory.batchRowids [1, 2, 3] = .ok (steps.flatMap PleStep.rowids)) ∧
      PleMath.pleRowids [3] [5, 7] 0 (some [2, 2]) (some [0, 2]) 2 2 (some ([9, 8] ++ [1])) =
        PleMath.pleRowids [3] [5, 7] 0 (some [2, 2]) (some [0, 2]) 2 2 (some [1]) ∧
      PleSpec.real.rowidsForSeqWithHistory (ε := Empty) ([9] ++ [8, 1]) [3] =
        PleSpec.real.rowidsForSeqWithHistory [8, 1] [3] :=
  ⟨(feedAll_streaming (σ := ℕ)).1 (faultyMemory 1) 32 [[1], [], [2, 3], [4]] 0,
    ⟨_, (feedAll_streaming (σ := Unit)).2.1 smokeMemory 32 [[1], [], [2, 3]] () () _ _ rfl⟩,
    (feedAll_streaming (σ := Unit)).2.2.1 [5, 7] 0 (some [2, 2]) (some [0, 2]) 2 2 [9, 8] [1] [3]
      (by decide) (by decide),
    (feedAll_streaming (σ := Unit)).2.2.2.2 PleSpec.real [9] [8, 1] [3] (by decide)⟩

end PleSequence

end EngramDB
