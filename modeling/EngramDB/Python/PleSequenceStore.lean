import EngramDB.Foundations.OrderedDict
import EngramDB.Python.Streaming

/-!
# The sequences of a server

`PleSequenceStore` keeps one `PleSequence` for each request id, in the order in which the ids were
used. When it is full, a new id drops the sequence that was used least recently. All sequences share
one memory.

* `held` is the order of the ids as it should be: a use puts an id at the end, and the newest stay;
* `stateless_feed`: what a sequence returns depends on its own state, if the memory fetches alike at
  all times;
* `Isolated.next`: one call keeps the bound, the order and the isolation of the sequences;
* `isolated_run`: so does any list of calls, and `sequences_isolated` says what a feed then returns.
-/

namespace EngramDB

/-- Sequences by their ids. -/
structure PleSequenceStore (κ : Type) where
  /-- How many sequences are kept, if there is a bound. -/
  maxSequences : Option ℤ
  /-- How many steps a sequence keeps. -/
  keepSteps : ℕ
  /-- The sequences, the least recently used in front. -/
  seqs : OrderedDict κ PleSequence

namespace PleSequenceStore

variable {κ σ : Type} [DecidableEq κ]

/-- A store without sequences. -/
def new (maxSequences : Option ℤ) (keepSteps : ℤ) : PleSequenceStore κ :=
  ⟨maxSequences, keepSteps.toNat, .empty⟩

/-- There are as many sequences as there may be. -/
def isFull (store : PleSequenceStore κ) : Bool :=
  match store.maxSequences with
  | some m => m ≤ store.seqs.keys.length
  | none => false

/-- The sequence of an id. A new id may drop the sequence that was used least recently. -/
def getOrCreate (mem : PleMemory σ) (store : PleSequenceStore κ) (seqId : κ)
    (history : Option (List ℤ)) (keepSteps : Option ℤ) : Py PleSequence × PleSequenceStore κ :=
  match store.seqs.get? seqId with
  | some seq => (.ok seq, { store with seqs := store.seqs.moveToEnd seqId })
  | none =>
    -- `popitem` of an empty dictionary
    if store.isFull ∧ store.seqs.keys = [] then (.error .keyError, store)
    else
      let seqs := if store.isFull then store.seqs.popFirst else store.seqs
      let seq := PleSequence.new mem history (keepSteps.getD store.keepSteps)
      (.ok seq, { store with seqs := seqs.set seqId seq })

/-- Feed tokens to the sequence of an id. A fetch that fails leaves the sequence as it was. -/
def feed (mem : PleMemory σ) (seqId : κ) (tokens : List ℤ) : PyM (σ × PleSequenceStore κ) PleStep :=
  fun (s, store) =>
    match store.getOrCreate mem seqId none none with
    | (.error e, store) => (.error e, (s, store))
    | (.ok seq, store) =>
      match seq.feed mem tokens s with
      | (.error e, s) => (.error e, (s, store))
      | (.ok (step, seq), s) => (.ok step, (s, { store with seqs := store.seqs.set seqId seq }))

/-- The sequence of an id that is there. -/
def get (seqId : κ) : PyM (σ × PleSequenceStore κ) PleSequence :=
  fun (s, store) =>
    match store.seqs.get? seqId with
    | some seq => (.ok seq, (s, { store with seqs := store.seqs.moveToEnd seqId }))
    | none => (.error .keyError, (s, store))

/-- Drop the sequence of an id, if it is there. -/
def remove (store : PleSequenceStore κ) (seqId : κ) : PleSequenceStore κ :=
  { store with seqs := store.seqs.erase seqId }

/-- Drop all sequences. -/
def clear (store : PleSequenceStore κ) : PleSequenceStore κ := { store with seqs := .empty }

end PleSequenceStore

/-- A call on a store of sequences. -/
inductive SequenceCall (κ : Type) where
  /-- `feed(seq_id, tokens)`. -/
  | feed (seqId : κ) (tokens : List ℤ)
  /-- `get(seq_id)`. -/
  | get (seqId : κ)
  /-- `remove(seq_id)`. -/
  | remove (seqId : κ)
  /-- `clear()`. -/
  | clear

/-- A store with its memory, and what the calls so far say of the ids. -/
structure SequenceRun (κ σ : Type) where
  /-- The state of the memory. -/
  memory : σ
  /-- The store. -/
  store : PleSequenceStore κ
  /-- The ids that were used and not removed since, the most recently used at the end. -/
  recent : List κ
  /-- The batches that were fed to an id since its sequence was created. -/
  own : κ → List (List ℤ)

namespace SequenceRun

variable {κ σ : Type} [DecidableEq κ]

/-- The start, before any call. -/
def init (maxSequences : Option ℤ) (keepSteps : ℤ) (s : σ) : SequenceRun κ σ :=
  ⟨s, .new maxSequences keepSteps, [], fun _ => []⟩

/-- The batches that the sequence of an id was fed: none if there is no sequence. -/
def fedTo (x : SequenceRun κ σ) (seqId : κ) : List (List ℤ) :=
  if seqId ∈ x.store.seqs.keys then x.own seqId else []

/-- The ids with one that is used now. -/
def touch (seqId : κ) (recent : List κ) : List κ := (recent.filter fun k => k ≠ seqId) ++ [seqId]

/-- The newest ids, as many as there may be. -/
def keepNewest (maxSequences : Option ℤ) (ids : List κ) : List κ :=
  match maxSequences with
  | some m => ids.drop (ids.length - m.toNat)
  | none => ids

/-- The ids that are held after another call, as a store of sequences should hold them: a use puts
the id at the end, and only the newest ids stay. -/
def held (maxSequences : Option ℤ) (ids : List κ) : SequenceCall κ → List κ
  | .feed seqId _ => keepNewest maxSequences (touch seqId ids)
  | .get seqId => if seqId ∈ ids then touch seqId ids else ids
  | .remove seqId => ids.filter fun k => k ≠ seqId
  | .clear => []

/-- The run after another call. A `get` that raises uses no sequence. -/
def next (mem : PleMemory σ) (x : SequenceRun κ σ) : SequenceCall κ → SequenceRun κ σ
  | .feed seqId tokens =>
    let (s, store) := (PleSequenceStore.feed mem seqId tokens (x.memory, x.store)).2
    { memory := s, store, recent := touch seqId x.recent
      own := Function.update x.own seqId (x.fedTo seqId ++ [tokens]) }
  | .get seqId =>
    let (s, store) := (PleSequenceStore.get seqId (x.memory, x.store)).2
    { x with
      memory := s, store
      recent := if seqId ∈ x.store.seqs.keys then touch seqId x.recent else x.recent }
  | .remove seqId =>
    { x with store := x.store.remove seqId, recent := x.recent.filter fun k => k ≠ seqId }
  | .clear => { x with store := x.store.clear, recent := [] }

/-- The run after calls, one after another. -/
def run (mem : PleMemory σ) (x : SequenceRun κ σ) (calls : List (SequenceCall κ)) :
    SequenceRun κ σ :=
  calls.foldl (next mem) x

end SequenceRun

namespace PleSequence

variable {σ : Type}

/-- A sequence after batches, and the memory. A batch whose fetch fails changes nothing. -/
def feedEach (mem : PleMemory σ) : PleSequence → List (List ℤ) → σ → PleSequence × σ
  | seq, [], s => (seq, s)
  | seq, tokens :: batches, s =>
    match seq.feed mem tokens s with
    | (.ok (_, seq), s) => feedEach mem seq batches s
    | (.error _, s) => feedEach mem seq batches s

variable {mem : PleMemory σ}

/-- What a sequence returns, and its state afterwards, depend on its own state, if the memory
fetches alike at all times. -/
theorem stateless_feed (hfetch : ∀ rows, (mem.fetchRaw rows).Stateless) (seq : PleSequence)
    (tokens : List ℤ) : (seq.feed mem tokens).Stateless := by
  unfold feed
  split_ifs
  · exact PyM.stateless_pure _
  · exact (PyM.stateless_lift _).bind fun rows => (hfetch rows).bind fun raw => PyM.stateless_pure _

/-- Feeding some batches and then others is feeding all of them. -/
private theorem feedEach_append (seq : PleSequence) (batches batches' : List (List ℤ)) (s : σ) :
    feedEach mem seq (batches ++ batches') s =
      feedEach mem (feedEach mem seq batches s).1 batches' (feedEach mem seq batches s).2 := by
  induction batches generalizing seq s with
  | nil => rfl
  | cons tokens batches ih =>
    rw [List.cons_append, feedEach, feedEach]
    rcases seq.feed mem tokens s with ⟨e | ⟨step, seq'⟩, s'⟩
    · exact ih seq s'
    · exact ih seq' s'

/-- The sequence after batches does not depend on the state of the memory. -/
private theorem feedEach_fst (hfetch : ∀ rows, (mem.fetchRaw rows).Stateless) (seq : PleSequence)
    (batches : List (List ℤ)) (s t : σ) :
    (feedEach mem seq batches s).1 = (feedEach mem seq batches t).1 := by
  induction batches generalizing seq s t with
  | nil => rfl
  | cons tokens batches ih =>
    have hst := stateless_feed hfetch seq tokens s t
    rw [feedEach, feedEach]
    rcases hs : seq.feed mem tokens s with ⟨e | ⟨step, seq'⟩, s'⟩ <;>
      rcases ht : seq.feed mem tokens t with ⟨e' | ⟨step', seq''⟩, t'⟩ <;> rw [hs, ht] at hst
    · exact ih seq s' t'
    · cases hst
    · cases hst
    · obtain ⟨rfl, rfl⟩ := Prod.mk.inj (Except.ok.inj hst)
      exact ih seq' s' t'

end PleSequence

namespace SequenceRun

variable {κ σ : Type} [DecidableEq κ] {mem : PleMemory σ} {x : SequenceRun κ σ}

/-- A fresh sequence that was fed batches, as the store creates it. -/
def freshSequence (mem : PleMemory σ) (keepSteps : ℕ) (batches : List (List ℤ)) (s : σ) :
    PleSequence × σ :=
  PleSequence.feedEach mem (.new mem none keepSteps) batches s

/-- The store keeps its bound, holds the ids that were used most recently, and has for every id the
sequence that its own batches give. -/
structure Isolated (mem : PleMemory σ) (x : SequenceRun κ σ) : Prop where
  bounded : ∀ m, x.store.maxSequences = some m → (x.store.seqs.keys.length : ℤ) ≤ m
  suffix : x.store.seqs.keys <:+ x.recent
  agrees : ∀ t, x.store.seqs.Agrees fun k => (freshSequence mem x.store.keepSteps (x.own k) t).1

omit [DecidableEq κ] in
/-- In a new store, with a bound of at least one if there is one, nothing interferes. -/
private theorem isolated_init (maxSequences : Option ℤ) (hmax : ∀ m, maxSequences = some m → 1 ≤ m)
    (keepSteps : ℤ) (s : σ) : Isolated mem (init maxSequences keepSteps s : SequenceRun κ σ) where
  bounded m hm := by
    have hpos := hmax m hm
    show (0 : ℤ) ≤ m
    omega
  suffix := List.suffix_refl _
  agrees _ := OrderedDict.agrees_empty

/-! ### Recency -/

section Recency

variable {ids recent : List κ} {k : κ}

/-- Using an id keeps the ids that are held the most recent ones. -/
theorem suffix_touch (h : ids <:+ recent) : touch k ids <:+ touch k recent := by
  obtain ⟨older, rfl⟩ := h
  rw [touch, touch, List.filter_append, List.append_assoc]
  exact List.suffix_append _ _

/-- Without the id itself, the ids are the others. -/
theorem filter_ne_eq_self (h : k ∉ ids) : (ids.filter fun k' => k' ≠ k) = ids :=
  List.filter_eq_self.mpr fun k' hk' => by
    simpa using fun heq : k' = k => h (heq ▸ hk')

/-- An id that is not held goes to the end. -/
private theorem touch_of_notMem (h : k ∉ ids) : touch k ids = ids ++ [k] := by
  rw [touch, filter_ne_eq_self h]

omit [DecidableEq κ] in
/-- The ids that are kept are the most recent ones. -/
private theorem keepNewest_suffix (maxSequences : Option ℤ) (ids : List κ) :
    keepNewest maxSequences ids <:+ ids := by
  cases maxSequences with
  | none => exact List.suffix_refl _
  | some m => exact List.drop_suffix _ _

omit [DecidableEq κ] in
/-- All ids stay when there is room for them (`h`), or no bound at all. -/
theorem keepNewest_of_le {maxSequences : Option ℤ}
    (h : ∀ m, maxSequences = some m → (ids.length : ℤ) ≤ m) :
    keepNewest maxSequences ids = ids := by
  cases maxSequences with
  | none => rfl
  | some m =>
    have hle := h m rfl
    have hdrop : ids.length - m.toNat = 0 := by omega
    rw [keepNewest, hdrop, List.drop_zero]

omit [DecidableEq κ] in
/-- At most as many ids are kept as the bound allows. -/
private theorem length_keepNewest_le {m : ℤ} (hm : 0 ≤ m) :
    ((keepNewest (some m) ids).length : ℤ) ≤ m := by
  rw [keepNewest, List.length_drop]
  omega

omit [DecidableEq κ] in
/-- The newest id stays, if the bound leaves room for one id (`h`). -/
private theorem mem_keepNewest {maxSequences : Option ℤ} (h : ∀ m, maxSequences = some m → 1 ≤ m) :
    k ∈ keepNewest maxSequences (ids ++ [k]) := by
  cases maxSequences with
  | none => exact List.mem_append_right _ (List.mem_singleton_self k)
  | some m =>
    have hpos := h m rfl
    have hle : (ids ++ [k]).length - m.toNat ≤ ids.length := by
      rw [List.length_append, List.length_singleton]
      omega
    rw [keepNewest, List.drop_append_of_le_length hle]
    exact List.mem_append_right _ (List.mem_singleton_self k)

end Recency

/-- The store finds or creates the sequence that the own batches of an id give. -/
theorem Isolated.getOrCreate (h : Isolated mem x)
    (hmax : ∀ m, x.store.maxSequences = some m → 1 ≤ m) (k : κ) (s : σ) :
    ∃ seqs, x.store.getOrCreate mem k none none =
        (.ok (freshSequence mem x.store.keepSteps (x.fedTo k) s).1, { x.store with seqs := seqs }) ∧
      seqs.keys = keepNewest x.store.maxSequences (touch k x.store.seqs.keys) ∧
      ∀ t, seqs.Agrees fun k' =>
        (freshSequence mem x.store.keepSteps (Function.update x.own k (x.fedTo k) k') t).1 := by
  rw [PleSequenceStore.getOrCreate, fedTo]
  cases hget : x.store.seqs.get? k with
  | some seq =>
    have hk : k ∈ x.store.seqs.keys := OrderedDict.get?_isSome_iff.mp (by rw [hget]; rfl)
    have hseq := (h.agrees s).eq_of_get? hget
    have hkeys : (x.store.seqs.moveToEnd k).keys = touch k x.store.seqs.keys :=
      OrderedDict.keys_moveToEnd hk
    refine ⟨x.store.seqs.moveToEnd k, ?_, ?_, fun t => ?_⟩
    · rw [if_pos hk, hseq]
    · rw [← hkeys]
      refine (keepNewest_of_le fun m hm => ?_).symm
      rw [OrderedDict.length_keys_moveToEnd hk]
      exact h.bounded m hm
    · rw [if_pos hk, Function.update_eq_self]
      exact (h.agrees t).moveToEnd k
  | none =>
    have hk : k ∉ x.store.seqs.keys := OrderedDict.get?_eq_none_iff.mp hget
    -- a full store has a sequence to drop
    have hfull : ¬ (x.store.isFull ∧ x.store.seqs.keys = []) := by
      rintro ⟨hfull, hnil⟩
      rw [PleSequenceStore.isFull] at hfull
      cases hm : x.store.maxSequences with
      | none => simp [hm] at hfull
      | some m =>
        have hpos := hmax m hm
        simp only [hm, hnil, List.length_nil, decide_eq_true_eq] at hfull
        omega
    obtain ⟨seqs, hseqs, hnotMem, hnewest, hagrees⟩ : ∃ seqs : OrderedDict κ PleSequence,
        (if x.store.isFull then x.store.seqs.popFirst else x.store.seqs) = seqs ∧
        k ∉ seqs.keys ∧
        seqs.keys ++ [k] = keepNewest x.store.maxSequences (x.store.seqs.keys ++ [k]) ∧
        ∀ t, seqs.Agrees fun k' => (freshSequence mem x.store.keepSteps (x.own k') t).1 := by
      refine ⟨_, rfl, ?_⟩
      split_ifs with hf
      · refine ⟨?_, ?_, fun t => (h.agrees t).popFirst⟩
        · rw [OrderedDict.keys_popFirst]
          exact fun hmem => hk (List.mem_of_mem_tail hmem)
        · cases hm : x.store.maxSequences with
          | none => simp [PleSequenceStore.isFull, hm] at hf
          | some m =>
            -- a store that is full holds as many as it may, so one more drops the first
            have hle := h.bounded m hm
            have hpos := hmax m hm
            simp only [PleSequenceStore.isFull, hm, decide_eq_true_eq] at hf
            have hdrop : (x.store.seqs.keys ++ [k]).length - m.toNat = 1 := by
              rw [List.length_append, List.length_singleton]
              omega
            rw [keepNewest, hdrop, OrderedDict.keys_popFirst,
              List.drop_append_of_le_length (by omega),
              List.drop_one]
      · refine ⟨hk, (keepNewest_of_le fun m hm => ?_).symm, h.agrees⟩
        simp only [PleSequenceStore.isFull, hm, decide_eq_true_eq, not_le] at hf
        rw [List.length_append, List.length_singleton]
        omega
    have hkeys : (seqs.set k (.new mem none x.store.keepSteps)).keys = seqs.keys ++ [k] := by
      rw [OrderedDict.keys_set, if_neg hnotMem]
    refine ⟨seqs.set k (.new mem none x.store.keepSteps), ?_, ?_, fun t => ?_⟩
    · rw [if_neg hfull, hseqs, if_neg hk]
      rfl
    · rw [hkeys, hnewest, touch_of_notMem hk]
    · rw [if_neg hk]
      have hset := (hagrees t).set_update k (.new mem none x.store.keepSteps)
      refine hset.congr fun k' => ?_
      rcases eq_or_ne k' k with rfl | hne
      · rw [Function.update_self, Function.update_self]
        rfl
      · rw [Function.update_of_ne hne, Function.update_of_ne hne]

/-- A batch more: the sequence that the feed leaves, or the same sequence when the feed raises. -/
private theorem freshSequence_append (hfetch : ∀ rows, (mem.fetchRaw rows).Stateless)
    (keepSteps : ℕ) (batches : List (List ℤ)) (tokens : List ℤ) (s t : σ) :
    (freshSequence mem keepSteps (batches ++ [tokens]) t).1 =
      match ((freshSequence mem keepSteps batches t).1.feed mem tokens s).1 with
      | .ok (_, seq) => seq
      | .error _ => (freshSequence mem keepSteps batches t).1 := by
  rw [freshSequence, PleSequence.feedEach_append, ← freshSequence, PleSequence.feedEach,
    PleSequence.stateless_feed hfetch _ tokens s (freshSequence mem keepSteps batches t).2]
  rcases (freshSequence mem keepSteps batches t).1.feed mem tokens
    (freshSequence mem keepSteps batches t).2 with ⟨e | ⟨step, seq⟩, s'⟩
  · rfl
  · rfl

/-- What a fresh sequence returns for a batch, after other batches. -/
def freshFeed (mem : PleMemory σ) (keepSteps : ℕ) (batches : List (List ℤ)) (tokens : List ℤ)
    (s : σ) : Py PleStep :=
  let fed := freshSequence mem keepSteps batches s
  (fed.1.feed mem tokens fed.2).1.map Prod.fst

/-- A feed returns what the feed of a fresh sequence returns, holds the newest ids, and leaves every
id the sequence that its own batches give. -/
theorem Isolated.feed (h : Isolated mem x) (hfetch : ∀ rows, (mem.fetchRaw rows).Stateless)
    (hmax : ∀ m, x.store.maxSequences = some m → 1 ≤ m) (k : κ) (tokens : List ℤ) :
    (∀ t, (PleSequenceStore.feed mem k tokens (x.memory, x.store)).1 =
      freshFeed mem x.store.keepSteps (x.fedTo k) tokens t) ∧
    ∃ seqs, (x.next mem (.feed k tokens)).store = { x.store with seqs := seqs } ∧
      seqs.keys = keepNewest x.store.maxSequences (touch k x.store.seqs.keys) ∧
      ∀ t, seqs.Agrees fun k' => (freshSequence mem x.store.keepSteps
        (Function.update x.own k (x.fedTo k ++ [tokens]) k') t).1 := by
  obtain ⟨seqs, hget, hkeys, hagrees⟩ := h.getOrCreate hmax k x.memory
  set seq := (freshSequence mem x.store.keepSteps (x.fedTo k) x.memory).1 with hseq
  have hk : k ∈ seqs.keys := by
    rw [hkeys]
    exact mem_keepNewest hmax
  have hfresh : ∀ t, (freshSequence mem x.store.keepSteps (x.fedTo k) t).1 = seq := fun t =>
    PleSequence.feedEach_fst hfetch _ _ t x.memory
  have hfst : ∀ t, (seq.feed mem tokens t).1 = (seq.feed mem tokens x.memory).1 := fun t =>
    PleSequence.stateless_feed hfetch seq tokens t x.memory
  have happend : ∀ t, (freshSequence mem x.store.keepSteps (x.fedTo k ++ [tokens]) t).1 =
      match (seq.feed mem tokens x.memory).1 with
      | .ok (_, seq) => seq
      | .error _ => seq := by
    intro t
    rw [freshSequence_append hfetch _ _ _ x.memory t, hfresh t]
  -- the sequences of the other ids are as they were
  have hothers : ∀ t k', k' ≠ k →
      (freshSequence mem x.store.keepSteps (Function.update x.own k (x.fedTo k) k') t).1 =
        (freshSequence mem x.store.keepSteps
          (Function.update x.own k (x.fedTo k ++ [tokens]) k') t).1 := by
    intro t k' hne
    rw [Function.update_of_ne hne, Function.update_of_ne hne]
  rcases hfeed : seq.feed mem tokens x.memory with ⟨e | ⟨step, seq'⟩, s'⟩
  · have hrun : PleSequenceStore.feed mem k tokens (x.memory, x.store) =
        (.error e, (s', { x.store with seqs := seqs })) := by
      simp only [PleSequenceStore.feed, hget, hfeed]
    refine ⟨fun t => ?_, seqs, ?_, hkeys, fun t => (hagrees t).congr fun k' => ?_⟩
    · rw [hrun, freshFeed, hfresh t, hfst, hfeed]
      rfl
    · rw [next, hrun]
    · rcases eq_or_ne k' k with rfl | hne
      · simp only [Function.update_self]
        rw [hfresh t, happend t, hfeed]
      · exact hothers t k' hne
  · have hrun : PleSequenceStore.feed mem k tokens (x.memory, x.store) =
        (.ok step, (s', { x.store with seqs := seqs.set k seq' })) := by
      simp only [PleSequenceStore.feed, hget, hfeed]
    refine ⟨fun t => ?_, seqs.set k seq', ?_, ?_, fun t => ?_⟩
    · rw [hrun, freshFeed, hfresh t, hfst, hfeed]
      rfl
    · rw [next, hrun]
    · rw [OrderedDict.keys_set, if_pos hk, hkeys]
    · refine ((hagrees t).set_update k seq').congr fun k' => ?_
      rcases eq_or_ne k' k with rfl | hne
      · simp only [Function.update_self]
        rw [happend t, hfeed]
      · rw [Function.update_of_ne hne]
        exact hothers t k' hne

/-- One call keeps the settings, holds the ids that should be held, and keeps the bound, the order
and the isolation of the sequences. -/
theorem Isolated.next (h : Isolated mem x) (hfetch : ∀ rows, (mem.fetchRaw rows).Stateless)
    (hmax : ∀ m, x.store.maxSequences = some m → 1 ≤ m) (call : SequenceCall κ) :
    Isolated mem (x.next mem call) ∧
    (x.next mem call).store.maxSequences = x.store.maxSequences ∧
    (x.next mem call).store.keepSteps = x.store.keepSteps ∧
    (x.next mem call).store.seqs.keys = held x.store.maxSequences x.store.seqs.keys call := by
  cases call with
  | feed k tokens =>
    obtain ⟨-, seqs, hstore, hkeys, hagrees⟩ := h.feed hfetch hmax k tokens
    have hseqs : (x.next mem (.feed k tokens)).store.seqs = seqs := by rw [hstore]
    refine ⟨⟨fun m hm => ?_, ?_, fun t => ?_⟩, by rw [hstore], by rw [hstore],
      by rw [hseqs, hkeys, held]⟩
    · rw [hstore] at hm
      have hpos := hmax m hm
      rw [hseqs, hkeys, hm]
      exact length_keepNewest_le (by omega)
    · rw [hseqs, hkeys]
      exact (keepNewest_suffix _ _).trans (suffix_touch h.suffix)
    · rw [hstore]
      exact hagrees t
  | get k =>
    rw [SequenceRun.next, PleSequenceStore.get, held]
    cases hget : x.store.seqs.get? k with
    | some seq =>
      have hk : k ∈ x.store.seqs.keys := OrderedDict.get?_isSome_iff.mp (by rw [hget]; rfl)
      have hkeys : (x.store.seqs.moveToEnd k).keys = touch k x.store.seqs.keys :=
        OrderedDict.keys_moveToEnd hk
      rw [if_pos hk, if_pos hk]
      refine ⟨⟨fun m hm => ?_, ?_, fun t => (h.agrees t).moveToEnd k⟩, rfl, rfl, hkeys⟩
      · show ((x.store.seqs.moveToEnd k).keys.length : ℤ) ≤ m
        rw [OrderedDict.length_keys_moveToEnd hk]
        exact h.bounded m hm
      · show (x.store.seqs.moveToEnd k).keys <:+ touch k x.recent
        rw [hkeys]
        exact suffix_touch h.suffix
    | none =>
      -- the call raises and uses no sequence
      have hk : k ∉ x.store.seqs.keys := OrderedDict.get?_eq_none_iff.mp hget
      rw [if_neg hk, if_neg hk]
      exact ⟨⟨h.bounded, h.suffix, h.agrees⟩, rfl, rfl, rfl⟩
  | remove k =>
    refine ⟨⟨fun m hm => ?_, ?_, fun t => (h.agrees t).erase k⟩, rfl, rfl, OrderedDict.keys_erase⟩
    · show ((x.store.seqs.erase k).keys.length : ℤ) ≤ m
      have hle := h.bounded m hm
      have hfilter := List.length_filter_le (fun k' => decide (k' ≠ k)) x.store.seqs.keys
      rw [OrderedDict.keys_erase]
      omega
    · show (x.store.seqs.erase k).keys <:+ x.recent.filter fun k' => k' ≠ k
      rw [OrderedDict.keys_erase]
      exact h.suffix.filter _
  | clear =>
    refine ⟨⟨fun m hm => ?_, List.suffix_refl _, fun t => OrderedDict.agrees_empty⟩, rfl, rfl, rfl⟩
    have hpos := hmax m hm
    show (0 : ℤ) ≤ m
    omega

/-- Any calls keep the settings, hold the ids that should be held, and keep the bound, the order and
the isolation of the sequences. -/
theorem isolated_run (h : Isolated mem x) (hfetch : ∀ rows, (mem.fetchRaw rows).Stateless)
    (hmax : ∀ m, x.store.maxSequences = some m → 1 ≤ m) (calls : List (SequenceCall κ)) :
    Isolated mem (x.run mem calls) ∧
    (x.run mem calls).store.maxSequences = x.store.maxSequences ∧
    (x.run mem calls).store.keepSteps = x.store.keepSteps ∧
    (x.run mem calls).store.seqs.keys =
      calls.foldl (held x.store.maxSequences) x.store.seqs.keys := by
  induction calls generalizing x with
  | nil => exact ⟨h, rfl, rfl, rfl⟩
  | cons call calls ih =>
    obtain ⟨hnext, hmaxSeqs, hkeep, hkeys⟩ := h.next hfetch hmax call
    have hrun := ih hnext (by rwa [hmaxSeqs])
    rw [hmaxSeqs, hkeep, hkeys] at hrun
    exact hrun

/-- The sequences of a store do not interfere: after any calls, the store holds at most as many
sequences as it may, those of the ids that were used most recently and not removed since, and a feed
returns the row ids and the bytes that a fresh sequence returns which was fed the batches of this id
alone. -/
theorem sequences_isolated (mem : PleMemory σ) (hfetch : ∀ rows, (mem.fetchRaw rows).Stateless)
    (maxSequences : Option ℤ) (hmax : ∀ m, maxSequences = some m → 1 ≤ m) (keepSteps : ℤ) (s : σ)
    (calls : List (SequenceCall κ)) :
    let x := (init maxSequences keepSteps s).run mem calls
    (∀ m, maxSequences = some m → (x.store.seqs.keys.length : ℤ) ≤ m) ∧
    x.store.seqs.keys <:+ x.recent ∧
    x.store.seqs.keys = calls.foldl (held maxSequences) [] ∧
    ∀ k tokens t, (PleSequenceStore.feed mem k tokens (x.memory, x.store)).1 =
      freshFeed mem keepSteps.toNat (x.fedTo k) tokens t := by
  intro x
  have hinit : Isolated mem (init maxSequences keepSteps s : SequenceRun κ σ) :=
    isolated_init maxSequences hmax keepSteps s
  obtain ⟨hisolated, hmaxSeqs, hkeep, hkeys⟩ := isolated_run hinit hfetch hmax calls
  have hsettings : x.store.maxSequences = maxSequences := hmaxSeqs
  refine ⟨fun m hm => hisolated.bounded m (hsettings.trans hm), hisolated.suffix, hkeys,
    fun k tokens t => ?_⟩
  have hfed := (hisolated.feed hfetch (by rwa [hmaxSeqs]) k tokens).1 t
  rw [hkeep] at hfed
  exact hfed

/-- The third id drops the first, which starts again when it is fed once more. -/
theorem sequences_isolated_smokeMemory :
    ((init (some 2) 32 ()).run PleSequence.smokeMemory
        [.feed 1 [1], .feed 2 [5], .feed 3 [6], .feed 1 [2], .get 3]).store.seqs.keys = [1, 3] ∧
      (PleSequenceStore.feed PleSequence.smokeMemory 1 [3]
        (((init (some 2) 32 ()).run PleSequence.smokeMemory
            [.feed 1 [1], .feed 2 [5], .feed 3 [6], .feed 1 [2], .get 3]).memory,
          ((init (some 2) 32 ()).run PleSequence.smokeMemory
            [.feed 1 [1], .feed 2 [5], .feed 3 [6], .feed 1 [2], .get 3]).store)).1 =
        freshFeed PleSequence.smokeMemory 32 [[2]] [3] () := by
  have hisolated := sequences_isolated PleSequence.smokeMemory (fun _ _ _ => rfl) (some 2)
    (fun m hm => by cases hm; decide) 32 ()
      [.feed 1 [1], .feed 2 [5], .feed 3 [6], .feed 1 [2], .get 3]
  refine ⟨hisolated.2.2.1.trans (by decide), (hisolated.2.2.2 1 [3] ()).trans ?_⟩
  rfl

end SequenceRun

end EngramDB
