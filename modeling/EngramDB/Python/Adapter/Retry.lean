import EngramDB.Python.Adapter

/-!
# Batches that fail

A batch that fails at one row has fed the rows before it, and has used the id of the failing row. So
the sequences are as before only if all this left them so.

* `Alike.forward`: what a batch returns depends on the ids and the histories;
* `sameSequences_iff`: the sequences are as before iff the trace of the batch restores them;
* `retryable_iff`: so a failed batch can be repeated iff its trace restores the sequences;
* `restores_iff_of_unbounded`: in a store without a bound, that is iff the first row failed and its
  id was the one used last.
-/

namespace EngramDB

open PleSequenceStore

/-- The last tokens of a list of which an older part was cut. -/
private theorem Py.lastItems_append {α : Type} {k : ℕ} (hk : k ≠ 0) (xs ys : List α) :
    lastItems (lastItems xs k ++ ys) k = lastItems (xs ++ ys) k := by
  rw [lastItems, lastItems, lastItems, if_neg hk, if_neg hk, if_neg hk]
  rcases Nat.lt_or_ge xs.length k with hlt | hge
  · have hall : xs.length - k = 0 := by omega
    rw [hall, List.drop_zero]
  · -- what was cut is cut again
    have hlen : (xs.drop (xs.length - k) ++ ys).length - k = ys.length := by
      rw [List.length_append, List.length_drop]
      omega
    have hlen' : (xs ++ ys).length - k = (xs.length - k) + ys.length := by
      rw [List.length_append]
      omega
    have hle : xs.length - k ≤ xs.length := Nat.sub_le _ _
    rw [hlen, hlen', ← List.drop_drop, List.drop_append_of_le_length hle]

/-- A list of at most `k` items has these as its last `k`, if `k` is not 0. -/
private theorem Py.lastItems_of_length_le {α : Type} {k : ℕ} (hk : k ≠ 0) {xs : List α}
    (h : xs.length ≤ k) :
    lastItems xs k = xs := by
  rw [lastItems, if_neg hk, Nat.sub_eq_zero_of_le h, List.drop_zero]

section Contexts

variable {σ : Type} {mem : PleMemory σ}

/-- The context of a sequence that was fed some rows. -/
private theorem PleSequence.foldl_feedTokens (rows : List (List ℤ)) {c : List ℤ × List ℤ}
    (hc : c.1.length ≤ max 1 (mem.ngramSize - 1)) :
    rows.foldl (feedTokens mem) c =
      (Py.lastItems (c.1 ++ rows.flatten) (max 1 (mem.ngramSize - 1)), c.2 ++ rows.flatten) := by
  have hkeep : max 1 (mem.ngramSize - 1) ≠ 0 := by omega
  induction rows generalizing c with
  | nil =>
    rw [List.flatten_nil, List.append_nil, List.append_nil, Py.lastItems_of_length_le hkeep hc]
    rfl
  | cons tok rows ih =>
    -- the history is cut again after every row
    have hnext : (feedTokens mem c tok).1.length ≤ max 1 (mem.ngramSize - 1) := by
      unfold feedTokens
      split_ifs
      · exact hc
      · show (Py.lastItems (c.1 ++ tok) _).length ≤ _
        rw [Py.lastItems, if_neg hkeep, List.length_drop]
        omega
    rw [List.foldl_cons, ih hnext, List.flatten_cons]
    unfold feedTokens
    split_ifs with htok
    · rw [htok, List.nil_append, List.append_nil]
    · rw [Py.lastItems_append hkeep, List.append_assoc, List.append_assoc]

/-- The history of a new sequence that was fed some tokens. -/
def PleMemory.historyOf (mem : PleMemory σ) (tokens : List ℤ) : List ℤ :=
  Py.lastItems (List.replicate (mem.ngramSize - 1) mem.eos ++ tokens) (mem.ngramSize - 1)

/-- A new sequence that was fed some rows has the history and the tokens of the rows together. -/
theorem PleSequence.foldl_feedTokens_new (keepSteps : ℤ) (rows : List (List ℤ)) :
    rows.foldl (feedTokens mem) (PleSequence.new mem none keepSteps).context =
      (mem.historyOf rows.flatten, rows.flatten) := by
  have hkeep : max 1 (mem.ngramSize - 1) = mem.ngramSize - 1 := by
    have := mem.two_le_ngramSize
    omega
  have hnew :
      (PleSequence.new mem none keepSteps).context.1.length ≤ max 1 (mem.ngramSize - 1) := by
    show (List.replicate (mem.ngramSize - 1) mem.eos).length ≤ _
    rw [List.length_replicate]
    exact Nat.le_max_right ..
  rw [foldl_feedTokens rows hnew, hkeep]
  rfl

/-- Rows with tokens make a sequence longer. -/
private theorem PleSequence.snd_foldl_feedTokens (mem : PleMemory σ) (rows : List (List ℤ))
    (c : List ℤ × List ℤ) :
    (rows.foldl (feedTokens mem) c).2 = c.2 ++ rows.flatten := by
  induction rows generalizing c with
  | nil => rw [List.flatten_nil, List.append_nil]; rfl
  | cons tok rows ih => rw [List.foldl_cons, ih, List.flatten_cons, feedTokens, List.append_assoc]

end Contexts

/-- The same ids in the same order, with the same histories and numbers of tokens. -/
structure SameSequences {κ : Type} [DecidableEq κ] (store store' : PleSequenceStore κ) : Prop where
  /-- The ids. -/
  keys : store'.seqs.keys = store.seqs.keys
  /-- The sequences. -/
  seqs : ∀ k seq seq', store.seqs.get? k = some seq → store'.seqs.get? k = some seq' →
    seq'.history = seq.history ∧ seq'.tokens.length = seq.tokens.length

namespace BatchTrace

variable {σ κ : Type} [DecidableEq κ] {mem : PleMemory σ} {store store' : PleSequenceStore κ}
  {x : BatchTrace κ}

/-- A batch restores the sequences: the ids have their order, a sequence that was kept has been fed
nothing, and a sequence that was dropped and created again has got its history and its number of
tokens. -/
structure Restores (mem : PleMemory σ) (store : PleSequenceStore κ) (x : BatchTrace κ) : Prop where
  /-- The ids. -/
  ids : x.ids = store.seqs.keys
  /-- The sequences that were kept. -/
  kept : ∀ k ∈ store.seqs.keys, x.created k = false → x.fed k = []
  /-- The sequences that were created again. -/
  created : ∀ k seq, store.seqs.get? k = some seq → x.created k = true →
    mem.historyOf (x.fed k).flatten = seq.history ∧ (x.fed k).flatten.length = seq.tokens.length

/-- Rows with tokens that have no tokens together are none. -/
private theorem eq_nil_of_flatten {rows : List (List ℤ)} (hrows : ∀ row ∈ rows, row ≠ [])
    (h : rows.flatten = []) :
    rows = [] := by
  rw [List.flatten_eq_nil_iff] at h
  exact List.eq_nil_iff_forall_not_mem.mpr fun row hrow => hrows row hrow (h row hrow)

/-- The sequences are as before iff the trace restores them. -/
theorem Traces.sameSequences_iff (h : x.Traces mem store store')
    (hfed : ∀ k, ∀ row ∈ x.fed k, row ≠ []) : SameSequences store store' ↔
      Restores mem store x := by
  constructor
  · rintro ⟨hkeys, hseqs⟩
    have hids : x.ids = store.seqs.keys := by rw [← h.keys, hkeys]
    -- an id that is held has a sequence before and after
    have hafter : ∀ k ∈ store.seqs.keys, ∃ seq', store'.seqs.get? k = some seq' := fun k hk =>
      Option.isSome_iff_exists.mp (OrderedDict.get?_isSome_iff.mpr (by rwa [hkeys]))
    refine ⟨hids, fun k hk hkept => ?_, fun k seq hseq hcreated => ?_⟩
    · obtain ⟨seq', hseq'⟩ := hafter k hk
      obtain ⟨first, hfirst, hcontext⟩ := h.context k seq' hseq'
      rw [Begins, hkept, if_neg Bool.false_ne_true] at hfirst
      have hlen := (hseqs k first seq' hfirst hseq').2
      have htokens : seq'.tokens = first.tokens ++ (x.fed k).flatten := by
        have hsnd := PleSequence.snd_foldl_feedTokens mem (x.fed k) first.context
        rw [← hcontext] at hsnd
        exact hsnd
      rw [htokens, List.length_append] at hlen
      apply eq_nil_of_flatten (hfed k)
      exact List.length_eq_zero_iff.mp (by omega)
    · have hk : k ∈ store.seqs.keys := OrderedDict.get?_isSome_iff.mp (by rw [hseq]; rfl)
      obtain ⟨seq', hseq'⟩ := hafter k hk
      obtain ⟨first, hfirst, hcontext⟩ := h.context k seq' hseq'
      rw [Begins, hcreated, if_pos rfl] at hfirst
      rw [hfirst, PleSequence.foldl_feedTokens_new] at hcontext
      obtain ⟨hhistory, htokens⟩ := Prod.mk.inj hcontext
      obtain ⟨hsame, hlen⟩ := hseqs k seq seq' hseq hseq'
      exact ⟨hhistory.symm.trans hsame, by rw [← hlen, ← htokens]⟩
  · rintro ⟨hids, hkept, hcreated⟩
    refine ⟨by rw [h.keys, hids], fun k seq seq' hseq hseq' => ?_⟩
    have hk : k ∈ store.seqs.keys := OrderedDict.get?_isSome_iff.mp (by rw [hseq]; rfl)
    obtain ⟨first, hfirst, hcontext⟩ := h.context k seq' hseq'
    cases hx : x.created k with
    | false =>
      rw [Begins, hx, if_neg Bool.false_ne_true] at hfirst
      obtain rfl : seq = first := Option.some.inj (hseq.symm.trans hfirst)
      rw [hkept k hk hx] at hcontext
      obtain ⟨hhistory, htokens⟩ := Prod.mk.inj hcontext
      exact ⟨hhistory, congrArg List.length htokens⟩
    | true =>
      rw [Begins, hx, if_pos rfl] at hfirst
      rw [hfirst, PleSequence.foldl_feedTokens_new] at hcontext
      obtain ⟨hhistory, htokens⟩ := Prod.mk.inj hcontext
      obtain ⟨hsame, hlen⟩ := hcreated k seq hseq hx
      exact ⟨hhistory.trans hsame, by rw [htokens, hlen]⟩

/-- What a sequence was fed are rows of the batch. -/
private theorem mem_fed_feedRows {maxSequences : Option ℤ} {rows : List (κ × List ℤ)} {k : κ}
    {row : List ℤ}
    (h : row ∈ (x.feedRows maxSequences rows).fed k) : row ∈ x.fed k ∨ ∃ r ∈ rows, row = r.2 := by
  induction rows generalizing x with
  | nil => exact .inl h
  | cons r rows ih =>
    rcases ih (x := x.use maxSequences r.1 [r.2]) h with hx | ⟨r', hr', hrow⟩
    · rcases eq_or_ne k r.1 with rfl | hne
      · rw [fed_use_self, List.mem_append, List.mem_singleton] at hx
        rcases hx with hx | hx
        · split_ifs at hx
          · exact .inl hx
          · cases hx
        · exact .inr ⟨r, List.mem_cons_self, hx⟩
      · rw [fed_use_of_ne hne] at hx
        exact .inl hx
    · exact .inr ⟨r', List.mem_cons_of_mem _ hr', hrow⟩

end BatchTrace

/-! ### What a batch returns -/

section Alike

variable {α β σ κ : Type} [DecidableEq κ]

/-- Stores with the same ids in the same order, and the same histories. -/
structure Alike (store store' : PleSequenceStore κ) : Prop where
  /-- The bound. -/
  maxSequences : store'.maxSequences = store.maxSequences
  /-- The ids. -/
  keys : store'.seqs.keys = store.seqs.keys
  /-- The histories. -/
  history :
    ∀ k, (store'.seqs.get? k).map PleSequence.history = (store.seqs.get? k).map PleSequence.history

/-- A computation that returns the same on stores that are alike, and leaves them alike. -/
def RunsAlike (f : PyM (σ × PleSequenceStore κ) β) : Prop :=
  ∀ s store store', Alike store store' → (f (s, store')).1 = (f (s, store)).1 ∧
    (f (s, store')).2.1 = (f (s, store)).2.1 ∧ Alike (f (s, store)).2.2 (f (s, store')).2.2

/-- A pure result is the same from all stores that are alike. -/
theorem runsAlike_lift (r : Py β) : RunsAlike (PyM.lift r : PyM (σ × PleSequenceStore κ) β) :=
  fun _ _ _ h => ⟨rfl, rfl, h⟩

/-- Two parts that run alike from stores that are alike do so one after the other. -/
theorem RunsAlike.bind {γ : Type} {f : PyM (σ × PleSequenceStore κ) β}
    {g : β → PyM (σ × PleSequenceStore κ) γ} (hf : RunsAlike f) (hg : ∀ b, RunsAlike (g b)) :
    RunsAlike (f >>= g) := by
  intro s store store' h
  obtain ⟨hresult, hmemory, hstores⟩ := hf s store store' h
  rcases hrun : f (s, store) with ⟨e | b, t, store₁⟩ <;>
    rcases hrun' : f (s, store') with ⟨e' | b', t', store₁'⟩ <;>
    rw [hrun, hrun'] at hresult hmemory hstores <;> cases hresult <;> cases hmemory
  · rw [PyM.bind_of_error hrun, PyM.bind_of_error hrun']
    exact ⟨rfl, rfl, hstores⟩
  · rw [PyM.bind_of_ok hrun, PyM.bind_of_ok hrun']
    exact hg b t store₁ store₁' hstores

/-- If what is done for one item runs alike from stores that are alike, so does what is done for a
list of them. -/
theorem RunsAlike.mapM {γ : Type} {g : β → PyM (σ × PleSequenceStore κ) γ}
    (hg : ∀ b, RunsAlike (g b)) (bs : List β) : RunsAlike (bs.mapM g) := by
  induction bs with
  | nil => exact fun _ _ _ h => ⟨rfl, rfl, h⟩
  | cons b bs ih =>
    rw [List.mapM_cons]
    exact (hg b).bind fun c => ih.bind fun cs => fun _ _ _ h => ⟨rfl, rfl, h⟩

variable {mem : PleMemory σ} {fmt : TensorFormat α} {asTensor : Bool}
  {store store' : PleSequenceStore κ}

/-- Of two stores that are alike, both have room for a sequence or none has. -/
theorem Alike.noRoom_iff (h : Alike store store') : store'.NoRoom ↔ store.NoRoom := by
  rw [NoRoom, NoRoom, h.maxSequences, h.keys]

/-- Stores that are alike find sequences with the same history for an id. -/
theorem Alike.history_find (h : Alike store store') (k : κ) :
    (store'.find mem k).history = (store.find mem k).history := by
  have hk := h.history k
  unfold find
  cases hget : store.seqs.get? k <;> cases hget' : store'.seqs.get? k <;> rw [hget, hget'] at hk
  · rfl
  · cases hk
  · cases hk
  · exact Option.some.inj hk

/-- Uses of one id that leave it one history leave stores alike. -/
theorem Alike.leaves (h : Alike store store') {k : κ} {seq seq' : PleSequence}
    {store₁ store₁' : PleSequenceStore κ} (hleaves : Leaves store k seq store₁)
    (hleaves' : Leaves store' k seq' store₁') (hseq : seq'.history = seq.history) :
    Alike store₁ store₁' where
  maxSequences := by rw [hleaves.maxSequences, hleaves'.maxSequences, h.maxSequences]
  keys := by rw [hleaves.keys, hleaves'.keys, h.maxSequences, h.keys]
  history k' := by
    rcases eq_or_ne k' k with rfl | hne
    · rw [hleaves.get?_self, hleaves'.get?_self]
      exact congrArg some hseq
    · rw [hleaves.get?_of_ne k' hne, hleaves'.get?_of_ne k' hne, h.maxSequences, h.keys]
      split_ifs
      · exact h.history k'
      · rfl

/-- A feed returns the same on stores that are alike. -/
private theorem runsAlike_feedAs (k : κ) (tok : List ℤ) :
    RunsAlike (PleSequenceStore.feedAs mem fmt asTensor k tok) := by
  intro s store store' h
  by_cases hroom : store.NoRoom
  · rw [feedAs_of_noRoom hroom, feedAs_of_noRoom (h.noRoom_iff.mpr hroom)]
    exact ⟨rfl, rfl, h⟩
  obtain ⟨store₁, hleaves, hfeed⟩ := feedAs_of_room mem fmt asTensor k tok s hroom
  obtain ⟨store₁', hleaves', hfeed'⟩ :=
    feedAs_of_room mem fmt asTensor k tok s (mt h.noRoom_iff.mp hroom)
  rw [hfeed, hfeed', h.history_find]
  rcases PleSequence.answer mem fmt asTensor (store.find mem k).history tok s with ⟨e | a, t⟩
  · exact ⟨rfl, rfl, h.leaves hleaves hleaves' (h.history_find k)⟩
  · refine ⟨rfl, rfl, h.leaves (hleaves.set _) (hleaves'.set _) ?_⟩
    rw [PleSequence.history_after, PleSequence.history_after, h.history_find]

/-- Feeding a row runs alike from stores that are alike. -/
private theorem runsAlike_feedRow (row : ℤ × List ℤ) :
    RunsAlike (PleMemoryAdapter.feedRow mem fmt asTensor row) :=
  (runsAlike_feedAs row.1 row.2).bind fun _ => runsAlike_lift _

/-- A batch returns the same on stores that are alike. -/
private theorem runsAlike_forward (mem : PleMemory σ) (fmt : TensorFormat α) (input : InputIds)
    (seqIds : Option (List ℤ)) (asTensor : Bool) :
    RunsAlike (PleMemoryAdapter.forward mem fmt input seqIds asTensor) :=
  (runsAlike_lift _).bind fun rows =>
    (RunsAlike.mapM runsAlike_feedRow rows).bind fun _ => runsAlike_lift _

/-- Stores with the same sequences and the same bound are alike. -/
theorem SameSequences.alike (h : SameSequences store store')
    (hmax : store'.maxSequences = store.maxSequences) : Alike store store' where
  maxSequences := hmax
  keys := h.keys
  history k := by
    cases hget : store.seqs.get? k with
    | none =>
      rw [OrderedDict.get?_eq_none_iff, ← h.keys, ← OrderedDict.get?_eq_none_iff] at hget
      rw [hget]
    | some seq =>
      have hk : k ∈ store'.seqs.keys := by
        rw [h.keys]
        exact OrderedDict.get?_isSome_iff.mp (by rw [hget]; rfl)
      obtain ⟨seq', hget'⟩ := Option.isSome_iff_exists.mp (OrderedDict.get?_isSome_iff.mpr hk)
      rw [hget']
      exact congrArg some (h.seqs k seq seq' hget hget').1

end Alike

namespace BatchTrace

variable {σ κ : Type} [DecidableEq κ] {mem : PleMemory σ} {store : PleSequenceStore κ}
  {x : BatchTrace κ}

/-- Without a bound, no id is dropped. -/
theorem mem_useId_none {ids : List κ} {k k' : κ} : k' ∈ useId none ids k ↔ k' = k ∨ k' ∈ ids := by
  have hfull : fullOf none ids = false := rfl
  rw [useId, hfull, if_neg Bool.false_ne_true]
  by_cases hk : k ∈ ids
  · rw [if_pos hk, List.mem_append, List.mem_singleton, List.mem_filter, decide_eq_true_eq]
    constructor
    · rintro (⟨h, -⟩ | rfl)
      · exact .inr h
      · exact .inl rfl
    · rintro (rfl | h)
      · exact .inr rfl
      · exact (eq_or_ne k' k).symm.imp (fun hne => ⟨h, hne⟩) id
  · rw [if_neg hk, List.mem_append, List.mem_singleton, or_comm]

/-- Without a bound, a sequence that was there is not created again, and keeps the rows it was
fed. -/
theorem use_none_of_mem {k : κ} (k' : κ) (rows : List (List ℤ)) (hk : k ∈ x.ids) :
    k ∈ (x.use none k' rows).ids ∧ (x.use none k' rows).created k = x.created k ∧
      ∀ row ∈ x.fed k, row ∈ (x.use none k' rows).fed k := by
  refine ⟨mem_useId_none.mpr (.inr hk), ?_, fun row hrow => ?_⟩
  · rcases eq_or_ne k k' with rfl | hne
    · exact created_use_of (.inr hk)
    · exact created_use_of (.inl hne)
  · rcases eq_or_ne k k' with rfl | hne
    · rw [fed_use_self, if_pos hk]
      exact List.mem_append_left _ hrow
    · rwa [fed_use_of_ne hne]

/-- Without a bound, rows that are fed leave an id held and as it was created, and leave it the rows
that it was fed before. -/
theorem feedRows_none_of_mem {k : κ} (rows : List (κ × List ℤ)) (hk : k ∈ x.ids) :
    k ∈ (x.feedRows none rows).ids ∧ (x.feedRows none rows).created k = x.created k ∧
      ∀ row ∈ x.fed k, row ∈ (x.feedRows none rows).fed k := by
  induction rows generalizing x with
  | nil => exact ⟨hk, rfl, fun _ h => h⟩
  | cons r rows ih =>
    obtain ⟨hmem, hcreated, hfed⟩ := use_none_of_mem r.1 [r.2] hk
    obtain ⟨hmem', hcreated', hfed'⟩ := ih hmem
    exact ⟨hmem', hcreated'.trans hcreated, fun row hrow => hfed' row (hfed row hrow)⟩

/-- In a store without a bound, a batch restores the sequences iff the first row fails, and its id
is the one that was used last. -/
theorem restores_iff_of_unbounded {before : List (κ × List ℤ)} {k : κ} :
    Restores mem store (((start store.seqs.keys).feedRows none before).use none k []) ↔
      before = [] ∧ store.seqs.keys.getLast? = some k := by
  constructor
  · rintro ⟨hids, hkept, -⟩
    rcases before with _ | ⟨r, before⟩
    · refine ⟨rfl, ?_⟩
      -- the sequence used last stands at the end
      have hlast : (useId none store.seqs.keys k).getLast? = some k := by
        unfold useId
        split_ifs <;> exact List.getLast?_concat
      rwa [show useId none store.seqs.keys k = store.seqs.keys from hids] at hlast
    · -- the first row has fed a sequence, which is still there
      exfalso
      set first := (start store.seqs.keys).use none r.1 [r.2] with hfirst
      have hmem : r.1 ∈ first.ids := mem_useId_none.mpr (.inl rfl)
      have hrow : r.2 ∈ first.fed r.1 := by
        rw [hfirst, fed_use_self]
        exact List.mem_append_right _ (List.mem_singleton_self _)
      obtain ⟨hheld, -, hfed⟩ := feedRows_none_of_mem before hmem
      obtain ⟨hheld', -, hfed'⟩ := use_none_of_mem k [] hheld
      have hk : r.1 ∈ store.seqs.keys := by
        rw [← hids]
        exact hheld'
      -- an unbounded store evicts nothing, so the failed call has left a row in a sequence it did
      -- not create
      have hcreated :
          (((start store.seqs.keys).feedRows none (r :: before)).use none k []).created r.1 =
            false := by
        obtain ⟨hstart, hcreated, -⟩ :=
          feedRows_none_of_mem (x := start store.seqs.keys) (r :: before) hk
        rw [(use_none_of_mem _ _ hstart).2.1, hcreated]
        rfl
      have hnil := hkept r.1 hk hcreated
      have hstill := hfed' r.2 (hfed r.2 hrow)
      change r.2 ∈
        (((start store.seqs.keys).feedRows none (r :: before)).use none k []).fed r.1 at hstill
      rw [hnil] at hstill
      cases hstill
  · rintro ⟨rfl, hlast⟩
    have hk : k ∈ store.seqs.keys := List.mem_of_getLast? hlast
    have hnotCreated : ∀ k', ((start store.seqs.keys).use none k []).created k' = false :=
      fun k' => created_use_of (.inr hk)
    refine ⟨?_, fun k' _ _ => ?_, fun k' _ _ hcreated => ?_⟩
    -- a failed first row moves its sequence to the end, where it was
    · obtain ⟨older, holder⟩ := List.getLast?_eq_some_iff.mp hlast
      have hnodup : store.seqs.keys.Nodup := store.seqs.nodup
      show useId none store.seqs.keys k = store.seqs.keys
      rw [useId, if_pos hk]
      rw [holder] at hnodup ⊢
      have hnot : k ∉ older :=
        fun h => (List.nodup_append.mp hnodup).2.2 k h k (List.mem_singleton_self k) rfl
      rw [List.filter_append, SequenceRun.filter_ne_eq_self hnot]
      simp
    · show ((start store.seqs.keys).use none k []).fed k' = []
      rcases eq_or_ne k' k with rfl | hne
      · rw [fed_use_self]
        split_ifs <;> rfl
      · rw [fed_use_of_ne hne]
        rfl
    · have hfalse := hnotCreated k'
      rw [show ((start store.seqs.keys).use none k []).created k' = true from hcreated] at hfalse
      cases hfalse

end BatchTrace

namespace PleMemoryAdapter

open PleSequence (faultyMemory)

variable {α σ : Type} {mem : PleMemory σ} {fmt : TensorFormat α} {asTensor : Bool} {s : σ}
  {store : PleSequenceStore ℤ} {before after : List (ℤ × List ℤ)} {row : ℤ × List ℤ} {e : PyError}
  {stop : σ × PleSequenceStore ℤ}

/-- The rows before one give something. Then there is a sequence for this row, and feeding it
raises. -/
def RaisesAt (mem : PleMemory σ) (fmt : TensorFormat α) (asTensor : Bool)
    (before : List (ℤ × List ℤ)) (row : ℤ × List ℤ) (start : σ × PleSequenceStore ℤ) (e : PyError)
    (stop : σ × PleSequenceStore ℤ) :
    Prop :=
  ∃ outputs s₁ store₁, before.mapM (feedRow mem fmt asTensor) start = (.ok outputs, (s₁, store₁)) ∧
    ¬ store₁.NoRoom ∧
    PleSequenceStore.feedAs mem fmt asTensor row.1 row.2 (s₁, store₁) = (.error e, stop)

/-- A failed batch can be repeated: the sequences are as before, and the batch returns, whatever the
memory is by then, what it would have returned. -/
def Retryable (fmt : TensorFormat α) (input : InputIds) (seqIds : Option (List ℤ)) (asTensor : Bool)
    (store store' : PleSequenceStore ℤ) : Prop :=
  SameSequences store store' ∧ ∀ (mem : PleMemory σ) (t : σ),
    (forward mem fmt input seqIds asTensor (t, store')).1 =
      (forward mem fmt input seqIds asTensor (t, store)).1

/-- A batch whose rows go well up to a row that raises raises the error of this row, and stops in
its state. -/
private theorem forward_of_raisesAt {input : InputIds} {seqIds : Option (List ℤ)}
    (hbatch : batch input seqIds = .ok (before ++ row :: after))
    (h : RaisesAt mem fmt asTensor before row (s, store) e stop) :
    forward mem fmt input seqIds asTensor (s, store) = (.error e, stop) := by
  obtain ⟨outputs, s₁, store₁, hbefore, -, hfeed⟩ := h
  have hrow : feedRow mem fmt asTensor row (s₁, store₁) = (.error e, stop) :=
    PyM.bind_of_error hfeed
  have hrows :
      (before ++ row :: after).mapM (feedRow mem fmt asTensor) (s, store) = (.error e, stop) := by
    rw [List.mapM_append, PyM.bind_of_ok hbefore, List.mapM_cons]
    exact PyM.bind_of_error (PyM.bind_of_error hrow)
  unfold forward
  rw [hbatch, PyM.bind_of_ok (PyM.lift_apply _ _)]
  exact PyM.bind_of_error hrows

/-- The failing row has tokens, and the store is what the trace of the batch says. -/
private theorem traces_of_raisesAt (h : RaisesAt mem fmt asTensor before row (s, store) e stop) :
    row.2 ≠ [] ∧
      (((BatchTrace.start store.seqs.keys).feedRows store.maxSequences before).use
        store.maxSequences row.1 []).Traces mem store stop.2 := by
  obtain ⟨outputs, s₁, store₁, hbefore, hroom, hfeed⟩ := h
  have htraces := mapM_feedRow_traces (BatchTrace.traces_start store) hbefore
  obtain ⟨store₂, hleaves, heq⟩ := feedAs_of_room mem fmt asTensor row.1 row.2 s₁ hroom
  rw [heq] at hfeed
  rcases hanswer : PleSequence.answer mem fmt asTensor (store₁.find mem row.1).history row.2 s₁ with
    ⟨e' | a, t⟩
  · rw [hanswer] at hfeed
    cases hfeed
    refine ⟨fun hnil => ?_, htraces.use hleaves rfl⟩
    rw [hnil, PleSequence.answer_nil] at hanswer
    cases hanswer
  · rw [hanswer] at hfeed
    cases hfeed

/-- A batch whose rows `before` go well and whose next row raises (`hraises`) can be repeated, in
the sense that the sequences are as before it, iff the rows before and the use of the id of the
failing row restore the sequences. -/
theorem retryable_iff {input : InputIds} {seqIds : Option (List ℤ)}
    (hbatch : batch input seqIds = .ok (before ++ row :: after))
    (hraises : RaisesAt mem fmt asTensor before row (s, store) e stop) :
    Retryable (σ := σ) fmt input seqIds asTensor store
        (forward mem fmt input seqIds asTensor (s, store)).2.2 ↔
      BatchTrace.Restores mem store
        (((BatchTrace.start store.seqs.keys).feedRows store.maxSequences before).use
          store.maxSequences
          row.1 []) := by
  obtain ⟨hne, htraces⟩ := traces_of_raisesAt hraises
  -- all rows are as long as the failing row
  have hrows : ∀ r ∈ before, r.2 ≠ [] := by
    intro r hr hnil
    have hmem := mem_rows_of_batch hbatch (List.mem_append_left _ hr)
    have hmem' := mem_rows_of_batch hbatch (List.mem_append_right before List.mem_cons_self)
    have hlen := InputIds.length_eq hmem' hmem
    rw [hnil, List.length_nil, List.length_eq_zero_iff] at hlen
    exact hne hlen
  have hfed :
      ∀ k, ∀ r ∈ (((BatchTrace.start store.seqs.keys).feedRows store.maxSequences before).use
        store.maxSequences row.1 []).fed k, r ≠ [] := by
    intro k r hr
    have hbefore :
        r ∈ ((BatchTrace.start store.seqs.keys).feedRows store.maxSequences before).fed k := by
      rcases eq_or_ne k row.1 with rfl | hk
      · rw [BatchTrace.fed_use_self, List.append_nil] at hr
        split_ifs at hr
        · exact hr
        · cases hr
      · rwa [BatchTrace.fed_use_of_ne hk] at hr
    rcases BatchTrace.mem_fed_feedRows hbefore with hstart | ⟨r', hr', rfl⟩
    · cases hstart
    · exact hrows r' hr'
  rw [forward_of_raisesAt hbatch hraises, Retryable, ← htraces.sameSequences_iff hfed]
  constructor
  · rintro ⟨hsame, -⟩
    exact hsame
  · intro hsame
    refine ⟨hsame, fun mem' t => ?_⟩
    exact (runsAlike_forward mem' fmt input seqIds asTensor t store stop.2
      (hsame.alike htraces.maxSequences)).1

/-- A store of one sequence, which was fed one token. -/
def fedStore : PleSequenceStore ℤ :=
  ⟨some 1, 32, OrderedDict.empty.set 10 ⟨[1], [1], [], none, 32⟩⟩

/-- The first row evicts the sequence, the second row creates it again and feeds it its token, and
the third row, of the same id, fails. -/
theorem retryable_iff_fedStore :
    Retryable (σ := ℕ) byteFormat (.two 1 [[5], [1], [3]] (by decide)) (some [20, 10, 10]) false
      fedStore
      (forward (faultyMemory 2) byteFormat (.two 1 [[5], [1], [3]] (by decide))
        (some [20, 10, 10]) false (0, fedStore)).2.2 := by
  have hbatch : batch (.two 1 [[5], [1], [3]] (by decide)) (some [20, 10, 10]) =
      .ok ([(20, [5]), (10, [1])] ++ (10, [3]) :: []) := rfl
  have hraises : RaisesAt (faultyMemory 2) byteFormat false [(20, [5]), (10, [1])] (10, [3])
      (0, fedStore) (.osError "Input/output error") _ :=
    ⟨_, _, _, rfl, fun hroom : NoRoom _ => List.cons_ne_nil _ _ hroom.2, rfl⟩
  refine (retryable_iff hbatch hraises).mpr ⟨rfl, fun k hk hkept => ?_, fun k seq hseq hnew => ?_⟩
  · -- the only sequence was created by the batch
    obtain rfl := List.mem_singleton.mp hk
    cases hkept
  · have hk := OrderedDict.get?_isSome_iff.mp (Option.isSome_of_eq_some hseq)
    obtain rfl := List.mem_singleton.mp hk
    obtain rfl := Option.some.inj hseq
    exact ⟨rfl, rfl⟩

/-- The second row fails, after the first row was fed: both ids have sequences, where there were
none. -/
theorem not_retryable_secondRow :
    let input : InputIds := .two 1 [[1], [2]] (by decide)
    let store : PleSequenceStore ℤ := .new none 32
    let failed := forward (faultyMemory 1) byteFormat input (some [10, 20]) false (0, store)
    failed.1 = .error (.osError "Input/output error") ∧ failed.2.2.seqs.keys = [10, 20] ∧
      ¬ Retryable (σ := ℕ) byteFormat input (some [10, 20]) false store failed.2.2 := by
  intro input store failed
  have hkeys : failed.2.2.seqs.keys = [10, 20] := by rfl
  refine ⟨rfl, hkeys, ?_⟩
  rintro ⟨hsame, -⟩
  have hsame := hsame.keys
  rw [hkeys] at hsame
  cases hsame

end PleMemoryAdapter

end EngramDB
