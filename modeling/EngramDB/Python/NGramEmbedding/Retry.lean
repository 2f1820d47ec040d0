import EngramDB.Python.NGramEmbedding

/-!
# Repeating a call whose read failed

`forward` advances the context of every row of the batch while it computes the row ids, and reads
the table afterwards. When the read raises, the contexts stay advanced: a call that is repeated sees
its own tokens as those before.

* `drop_append_eq_self_iff`: when a window does not move;
* `keep_eq_self_iff`: the context of a row stays iff it repeats the tokens of the row;
* `advance_context`: what the loop over the batch does to the contexts;
* `retryable_iff_repeats`: a call whose read failed can be repeated iff the contexts of all rows
  stay.
-/

namespace EngramDB

/-- A window of a fixed length on a stream shows the same after some tokens iff it repeats them. -/
theorem drop_append_eq_self_iff {α : Type} {h q : List α} :
    (h ++ q).drop q.length = h ↔ q = [] ∨ ∃ k, h <:+ (List.replicate k q).flatten := by
  constructor
  · intro hdrop
    rcases eq_or_ne q [] with hq | hq
    · exact .inl hq
    refine .inr ?_
    have hpos : 0 < q.length := List.length_pos_iff.mpr hq
    induction hn : h.length using Nat.strong_induction_on generalizing h with
    | _ n ih =>
      rcases Nat.le_total h.length q.length with hle | hle
      · -- the window is the end of the tokens
        refine ⟨1, ?_⟩
        rw [List.drop_append, List.drop_of_length_le hle, List.nil_append] at hdrop
        rw [← hdrop]
        simpa using List.drop_suffix _ q
      · -- the window ends with the tokens, and what is before them is such a window again
        rw [List.drop_append_of_le_length hle] at hdrop
        have hshort : (h.drop q.length).length < n := by
          rw [List.length_drop]
          omega
        obtain ⟨k, hk⟩ := ih _ hshort (by rw [hdrop]) rfl
        refine ⟨k + 1, ?_⟩
        rw [List.replicate_succ', List.flatten_append, List.flatten_singleton]
        nth_rewrite 1 [← hdrop]
        obtain ⟨t, ht⟩ := hk
        exact ⟨t, by rw [← List.append_assoc, ht]⟩
  · rintro (rfl | ⟨k, t, ht⟩)
    · rw [List.append_nil, List.length_nil, List.drop_zero]
    -- the tokens repeated end with the tokens as they begin with them
    · have hshift : t ++ (h ++ q) = q ++ (t ++ h) := by
        rw [ht, ← List.append_assoc, ht, ← List.flatten_cons, ← List.replicate_succ,
          List.replicate_succ', List.flatten_append, List.flatten_singleton]
      calc (h ++ q).drop q.length = (t ++ (h ++ q)).drop (t.length + q.length) :=
            (List.drop_length_add_append ..).symm
        _ = (q ++ t ++ h).drop (t.length + q.length) := by rw [hshift, List.append_assoc]
        _ = h := List.drop_left' (by rw [List.length_append, Nat.add_comm])

namespace DiskPleNGramEmbedding

section Contexts

variable {mod : DiskPleNGramEmbedding}

/-- The separators that a new row of a batch has as its context. -/
def separators (mod : DiskPleNGramEmbedding) : List ℤ :=
  List.replicate (mod.ngramSize - 1).toNat mod.eos

/-- The context of row `b` of a batch: the one that is kept, or separators. -/
def contextOf (mod : DiskPleNGramEmbedding) (s : NGramState) (b : ℕ) : List ℤ :=
  s.context.getD b mod.separators

/-- Tokens that the slice drops when a row has been read. It keeps a context at its length, except
that `-(ngram_size - 1)` is no negative index for n-grams of one token. -/
def dropped (mod : DiskPleNGramEmbedding) (seq : List ℤ) : ℕ :=
  if 2 ≤ mod.ngramSize then seq.length else (1 - mod.ngramSize).toNat

/-- The context repeats the tokens of the row, so that it stays when it is advanced by them. -/
def Repeats (mod : DiskPleNGramEmbedding) (context seq : List ℤ) : Prop :=
  (seq.length = mod.dropped seq ∧ (seq = [] ∨ ∃ k, context <:+ (List.replicate k seq).flatten)) ∨
    (context = [] ∧ seq.length ≤ mod.dropped seq)

/-- Contexts have one token less than the n-grams. -/
def Fitted (mod : DiskPleNGramEmbedding) (context : List (List ℤ)) : Prop :=
  2 ≤ mod.ngramSize → ∀ c ∈ context, c.length = (mod.ngramSize - 1).toNat

/-- Without a context there is none of the wrong length. -/
theorem fitted_nil : mod.Fitted [] := fun _ _ h => by cases h

/-- Advancing a context of its full length (`h`) drops as many of the oldest tokens as the sequence
says. -/
theorem keep_eq_drop {history : List ℤ} (seq : List ℤ)
    (h : 2 ≤ mod.ngramSize → history.length = (mod.ngramSize - 1).toNat) :
    mod.keep history seq = (history ++ seq).drop (mod.dropped seq) := by
  unfold keep dropped Py.sliceFrom
  by_cases hn : 2 ≤ mod.ngramSize
  · have hlen := h hn
    rw [if_pos (by omega), if_pos hn, neg_neg, List.length_append, hlen]
    congr 1
    omega
  · rw [if_neg (by omega), if_neg hn, neg_sub]

private theorem length_keep {history : List ℤ} (seq : List ℤ)
    (h : 2 ≤ mod.ngramSize → history.length = (mod.ngramSize - 1).toNat) (hn : 2 ≤ mod.ngramSize) :
    (mod.keep history seq).length = (mod.ngramSize - 1).toNat := by
  rw [keep_eq_drop seq h, dropped, if_pos hn, List.length_drop, List.length_append, h hn]
  omega

/-- A context stays when it is advanced iff it repeats the tokens. -/
theorem keep_eq_self_iff {history : List ℤ} (seq : List ℤ)
    (h : 2 ≤ mod.ngramSize → history.length = (mod.ngramSize - 1).toNat) :
    mod.keep history seq = history ↔ mod.Repeats history seq := by
  rw [keep_eq_drop seq h, Repeats]
  generalize mod.dropped seq = d
  by_cases hlen : seq.length = d
  · subst hlen
    rw [drop_append_eq_self_iff]
    constructor
    · exact fun hq => .inl ⟨rfl, hq⟩
    · rintro (⟨-, hq⟩ | ⟨rfl, -⟩)
      · exact hq
      · exact .inr ⟨0, List.suffix_refl _⟩
  · constructor
    · intro hdrop
      have hcount := congrArg List.length hdrop
      rw [List.length_drop, List.length_append] at hcount
      -- another number of tokens is dropped than is read, so nothing is left
      exact .inr ⟨List.length_eq_zero_iff.mp (by omega), by omega⟩
    · rintro (⟨heq, -⟩ | ⟨rfl, hle⟩)
      · exact absurd heq hlen
      · rw [List.nil_append, List.drop_of_length_le hle]

theorem length_pad (context : List (List ℤ)) (batchSize : ℕ) :
    (mod.pad context batchSize).length = max context.length batchSize := by
  rw [pad, List.length_append, List.length_replicate]
  omega

/-- Padding does not change the context of a row. -/
theorem getElem?_pad (context : List (List ℤ)) {batchSize b : ℕ}
    (hb : b < max context.length batchSize) :
    (mod.pad context batchSize)[b]? = some (context.getD b mod.separators) := by
  rw [List.getD_eq_getElem?_getD, pad]
  rcases Nat.lt_or_ge b context.length with h | h
  · rw [List.getElem?_append_left h, List.getElem?_eq_getElem h, Option.getD_some]
  · rw [List.getElem?_append_right h, List.getElem?_replicate, if_pos (by omega),
      List.getElem?_eq_none h, Option.getD_none]
    rfl

/-- Padded contexts are not padded again. -/
private theorem pad_pad (context : List (List ℤ)) (batchSize : ℕ) :
    mod.pad (mod.pad context batchSize) batchSize = mod.pad context batchSize := by
  have hzero : batchSize - (mod.pad context batchSize).length = 0 := by
    rw [length_pad]
    omega
  conv_lhs => rw [pad, hzero]
  rw [List.replicate_zero, List.append_nil]

theorem Fitted.pad {context : List (List ℤ)} (h : mod.Fitted context) (batchSize : ℕ) :
    mod.Fitted (mod.pad context batchSize) := by
  intro hn c hc
  rcases List.mem_append.mp hc with hc | hc
  · exact h hn c hc
  · rw [(List.mem_replicate.mp hc).2, List.length_replicate]

/-- The loop over the batch advances the contexts of its rows, as far as it gets. -/
theorem advance_context {b : ℕ} {rows context : List (List ℤ)}
    (hlen : b + rows.length ≤ context.length) (hfitted : mod.Fitted context) :
    (mod.advance b rows context).2.length = context.length ∧
      mod.Fitted (mod.advance b rows context).2 ∧
      ∀ batchRows, (mod.advance b rows context).1 = .ok batchRows →
        ∀ i, (mod.advance b rows context).2[i]? =
          if i < b then context[i]?
          else match rows[i - b]?, context[i]? with
            | some seq, some history => some (mod.keep history seq)
            | _, c => c := by
  induction rows generalizing b context with
  | nil =>
    refine ⟨rfl, hfitted, fun _ _ i => ?_⟩
    simp [advance]
  | cons seq rest ih =>
    rw [List.length_cons] at hlen
    have hb : b < context.length := by omega
    have hhistory : context.getD b [] = context[b] := by
      rw [List.getD_eq_getElem?_getD, List.getElem?_eq_getElem hb, Option.getD_some]
    have hhist : 2 ≤ mod.ngramSize → context[b].length = (mod.ngramSize - 1).toNat :=
      fun hn => hfitted hn _ (List.getElem_mem hb)
    rw [advance]
    simp only [hhistory]
    -- a row that fails leaves the context as the rows before it did
    cases hrows : mod.rowsFor seq context[b] with
    | error e =>
      refine ⟨rfl, hfitted, fun _ h => ?_⟩
      cases h
    | ok rows =>
      have hset : mod.Fitted (context.set b (mod.keep context[b] seq)) := by
        intro hn c hc
        rcases List.mem_or_eq_of_mem_set hc with hc | rfl
        · exact hfitted hn c hc
        · exact length_keep seq hhist hn
      have hroom : b + 1 + rest.length ≤ (context.set b (mod.keep context[b] seq)).length := by
        rw [List.length_set]
        omega
      obtain ⟨hlen', hfit', hget⟩ := ih hroom hset
      rw [List.length_set] at hlen'
      refine ⟨hlen', hfit', fun batchRows h i => ?_⟩
      dsimp only at h ⊢
      obtain ⟨rest', hrest'⟩ : ∃ rest', (mod.advance (b + 1) rest
          (context.set b (mod.keep context[b] seq))).1 = .ok rest' := by
        cases hres : (mod.advance (b + 1) rest (context.set b (mod.keep context[b] seq))).1 with
        | error e =>
          rw [hres] at h
          cases h
        | ok rest' => exact ⟨rest', rfl⟩
      rw [hget rest' hrest' i]
      -- the rest of the rows change the entries after `b`, and this row the entry at `b`
      rcases Nat.lt_trichotomy i b with hi | rfl | hi
      · rw [if_pos (by omega), if_pos hi, List.getElem?_set_ne (by omega)]
      · rw [if_pos (by omega), if_neg (Nat.lt_irrefl i), Nat.sub_self, List.getElem?_set_self hb,
          List.getElem?_cons_zero, List.getElem?_eq_getElem hb]
      · have hsub : i - b = i - (b + 1) + 1 := by omega
        rw [if_neg (by omega), if_neg (by omega), hsub, List.getElem?_cons_succ,
          List.getElem?_set_ne (by omega)]

end Contexts

section Calls

variable {mod : DiskPleNGramEmbedding} {s : NGramState} {input : InputIds}
  {fetch : List ℤ → Py Bytes}
  {env : Progress}

/-- Whatever happens, a `forward` leaves the contexts that its loop has left. -/
theorem forward_context :
    (mod.forward s input fetch env).2.context =
      (mod.advance 0 input.rows (mod.pad s.context input.rows.length)).2 := by
  unfold forward
  dsimp only
  rcases mod.advance 0 input.rows
    (mod.pad s.context input.rows.length) with ⟨e | batchRows, context⟩
  · rfl
  · dsimp only
    cases rids batchRows
    · rfl
    · rfl

private theorem prefetch_context (submit : Py Unit) :
    (mod.prefetch s input submit).2.context = mod.pad s.context input.rows.length := by
  unfold prefetch
  dsimp only
  split
  · rfl
  · rfl

/-- The loop over a batch whose contexts were padded keeps their number and their length
(`hfitted`). -/
theorem advance_padded {context : List (List ℤ)} (hfitted : mod.Fitted context) (input : InputIds) :
    (mod.advance 0 input.rows (mod.pad context input.rows.length)).2.length =
        (mod.pad context input.rows.length).length ∧
      mod.Fitted (mod.advance 0 input.rows (mod.pad context input.rows.length)).2 ∧
      ∀ batchRows,
        (mod.advance 0 input.rows (mod.pad context input.rows.length)).1 = .ok batchRows →
        ∀ i : ℕ, (mod.advance 0 input.rows (mod.pad context input.rows.length)).2[i]? =
          match input.rows[i]?, (mod.pad context input.rows.length)[i]? with
            | some seq, some history => some (mod.keep history seq)
            | _, c => c := by
  have hroom : 0 + input.rows.length ≤ (mod.pad context input.rows.length).length := by
    rw [length_pad]
    omega
  obtain ⟨hlen, hfit, hget⟩ := advance_context hroom (hfitted.pad input.rows.length)
  refine ⟨hlen, hfit, fun batchRows hrows i => ?_⟩
  rw [hget batchRows hrows i, if_neg (Nat.not_lt_zero i), Nat.sub_zero]

/-- In every state that is reached, the contexts have one token less than the n-grams. -/
private theorem Reachable.fitted (h : mod.Reachable s) : mod.Fitted s.context := by
  obtain ⟨calls, rfl⟩ := h
  induction calls using List.reverseRecOn with
  | nil => exact fitted_nil
  | append_singleton calls call ih =>
    rw [List.foldl_append]
    show mod.Fitted (mod.step (calls.foldl mod.step start) call).context
    generalize calls.foldl mod.step start = s at *
    cases call with
    | prefetch input submit =>
      show mod.Fitted (mod.prefetch s input submit).2.context
      rw [prefetch_context]
      exact ih.pad _
    | forward input fetch env =>
      show mod.Fitted (mod.forward s input fetch env).2.context
      rw [forward_context]
      exact (advance_padded ih input).2.1
    | resetHistory => exact fitted_nil
    | close => exact ih

/-- The row ids of the batch were computed, and then the `forward` raised: the store raised or
returned a buffer of the wrong length, or the path through the cache and the prefetches raised, or a
row id did not fit the tensor. -/
def ReadFails (mod : DiskPleNGramEmbedding) (s : NGramState) (input : InputIds)
    (fetch : List ℤ → Py Bytes) (env : Progress) : Prop :=
  (∃ batchRows, (mod.advance 0 input.rows (mod.pad s.context input.rows.length)).1 =
    .ok batchRows) ∧
    ∃ e, (mod.forward s input fetch env).1 = .error e

/-- The call can be repeated in the state `t` that it left: the context of every row of the batch is
what it was before, and with a table in any state and a store that answers anything, the repeated
call returns what a first call would have returned. -/
structure Retryable (mod : DiskPleNGramEmbedding) (s t : NGramState) (input : InputIds) : Prop where
  /-- The contexts of the batch. -/
  context : ∀ b < input.rows.length, mod.contextOf t b = mod.contextOf s b
  /-- The repeated call. -/
  repeated : ∀ fetch env table, (mod.forward { t with table } input fetch env).1 =
    (mod.forward { s with table } input fetch env).1

/-- What a `forward` returns depends on the padded contexts and the table. -/
private theorem forward_congr {t : NGramState}
    (h : mod.pad t.context input.rows.length = mod.pad s.context input.rows.length)
    (table : DiskPleBooks) :
    (mod.forward { t with table } input fetch env).1 =
      (mod.forward { s with table } input fetch env).1 := by
  unfold forward
  dsimp only
  rw [h]

/-- After the loop over the batch, every row has its context advanced. -/
theorem contextOf_forward (hfitted : mod.Fitted s.context) {batchRows : List (List (List ℤ))}
    (hrows : (mod.advance 0 input.rows (mod.pad s.context input.rows.length)).1 = .ok batchRows)
    {b : ℕ} {seq : List ℤ} (hseq : input.rows[b]? = some seq) :
    mod.contextOf (mod.forward s input fetch env).2 b = mod.keep (mod.contextOf s b) seq := by
  have hb : b < input.rows.length := (List.getElem?_eq_some_iff.mp hseq).1
  obtain ⟨-, -, hget⟩ := advance_padded hfitted input
  have hcontext := hget batchRows hrows b
  rw [hseq, getElem?_pad s.context (by omega)] at hcontext
  rw [contextOf, forward_context, List.getD_eq_getElem?_getD, hcontext, Option.getD_some]
  rfl

/-- If the contexts of the batch are as before, the padded contexts are. -/
private theorem pad_forward (hfitted : mod.Fitted s.context) {batchRows : List (List (List ℤ))}
    (hrows : (mod.advance 0 input.rows (mod.pad s.context input.rows.length)).1 = .ok batchRows)
    (hstay : ∀ b seq, input.rows[b]? = some seq →
      mod.keep (mod.contextOf s b) seq = mod.contextOf s b) :
    mod.pad (mod.forward s input fetch env).2.context input.rows.length =
      mod.pad s.context input.rows.length := by
  obtain ⟨hlen, -, hget⟩ := advance_padded hfitted input
  have hsame : (mod.forward s input fetch env).2.context = mod.pad s.context input.rows.length := by
    rw [forward_context]
    apply List.ext_getElem?
    intro i
    rw [hget batchRows hrows i]
    cases hseq : input.rows[i]? with
    | none => rfl
    | some seq =>
      have hi : i < input.rows.length := (List.getElem?_eq_some_iff.mp hseq).1
      rw [getElem?_pad s.context (by omega)]
      exact congrArg some (hstay i seq hseq)
  rw [hsame, pad_pad]

/-- In every state that is reached from a new module (`hs`), a call whose read failed (`hfail`) can
be repeated iff the context of every row of the batch repeats the tokens of the row, so that feeding
them a second time leaves it where it was. -/
theorem retryable_iff_repeats (hs : mod.Reachable s) (hfail : mod.ReadFails s input fetch env) :
    mod.Retryable s (mod.forward s input fetch env).2 input ↔
      ∀ b seq, input.rows[b]? = some seq → mod.Repeats (mod.contextOf s b) seq := by
  obtain ⟨⟨batchRows, hrows⟩, -⟩ := hfail
  have hfitted := hs.fitted
  have hlen : ∀ b, 2 ≤ mod.ngramSize → (mod.contextOf s b).length = (mod.ngramSize - 1).toNat := by
    intro b hn
    rw [contextOf, List.getD_eq_getElem?_getD]
    rcases Nat.lt_or_ge b s.context.length with h | h
    · rw [List.getElem?_eq_getElem h, Option.getD_some]
      exact hfitted hn _ (List.getElem_mem h)
    · rw [List.getElem?_eq_none h, Option.getD_none, separators, List.length_replicate]
  constructor
  · rintro ⟨hcontext, -⟩ b seq hseq
    have hb : b < input.rows.length := (List.getElem?_eq_some_iff.mp hseq).1
    rw [← keep_eq_self_iff seq (hlen b), ← contextOf_forward hfitted hrows hseq, hcontext b hb]
  · intro hrepeats
    have hstay : ∀ b seq, input.rows[b]? = some seq →
        mod.keep (mod.contextOf s b) seq = mod.contextOf s b := fun b seq hseq =>
      (keep_eq_self_iff seq (hlen b)).mpr (hrepeats b seq hseq)
    refine ⟨fun b hb => ?_, fun fetch' env' table => ?_⟩
    · have hseq := List.getElem?_eq_getElem hb
      rw [contextOf_forward hfitted hrows hseq, hstay b _ hseq]
    · exact forward_congr (pad_forward hfitted hrows hstay) table

end Calls

section Example

/-- Pairs of tokens, in one table of seven rows of one byte, without a cache. -/
def pairs : DiskPleNGramEmbedding where
  primeSizes := [7]
  headOffsets := [0]
  ngramSize := 2
  headsPerNgram := 1
  layerMultipliers := [1, 3]
  eos := 0
  table := DiskPleEmbedding.byteEmbedding 0

/-- A store that raises. -/
def unreachable (_ : List ℤ) : Py Bytes := .error (.osError "Input/output error")

/-- Nothing is pending. -/
def idle : Progress := ⟨fun _ => unreachable, fun _ => false, fun _ => false⟩

theorem readFails_pairs (token : ℤ) (h : token = 0 ∨ token = 1) :
    pairs.ReadFails start (.one [token]) unreachable idle := by
  rcases h with rfl | rfl
  · exact ⟨⟨_, rfl⟩, _, rfl⟩
  · exact ⟨⟨_, rfl⟩, _, rfl⟩

/-- A separator at the start: the context has one separator, before and after. -/
theorem retryable_iff_repeats_separator :
    pairs.Retryable start (pairs.forward start (.one [0]) unreachable idle).2 (.one [0]) ↔
      ∀ b seq, (InputIds.one [0]).rows[b]? = some seq →
        pairs.Repeats (pairs.contextOf start b) seq :=
  retryable_iff_repeats ⟨[], rfl⟩ (readFails_pairs 0 (.inl rfl))

/-- Another token at the start takes the place of the separator in the context. -/
theorem not_retryable_token :
    pairs.Reachable start ∧ pairs.ReadFails start (.one [1]) unreachable idle ∧
      ¬ pairs.Retryable start (pairs.forward start (.one [1]) unreachable idle).2 (.one [1]) := by
  refine ⟨⟨[], rfl⟩, readFails_pairs 1 (.inr rfl), fun h => ?_⟩
  have hcontext := h.context 0 (by decide)
  revert hcontext
  decide

end Example

end DiskPleNGramEmbedding

end EngramDB
