import EngramDB.Python.NGramEmbedding

/-!
# The native row ids of the n-gram embedding

With the parameters of the released checkpoint, `_rows_for` takes the row ids from the native
function. The native function has the offsets of the checkpoint, whatever offsets the module has,
and it hashes with words of 64 bits, where `ple_rowids` has unbounded integers.

* `mod_eq_add_wrapOff`, `wrapOff_eq_zero_iff`: what the wrap-around takes off a residue;
* `toNat_mix_mod`: the wrapping mix is the exact one, reduced;
* `rowsOf_native_eq_iff`: the native rows are those of some offsets iff the differences of the
  offsets make up for the wrap-around;
* `rowsFor_eq_iff`: so it is for `_rows_for`;
* `rowsFor_eq_iff_of_offsets`, `rowsFor_eq_iff_of_new`: with the offsets of the checkpoint, as the
  constructor computes them.
-/

namespace EngramDB

open Ngram

section WrapOff

variable {p mix : ℕ}

/-- What the residue of a mix loses by `p` when the mix is reduced to 64 bits. -/
def wrapOff (p mix : ℕ) : ℤ :=
  let high := mix / 2 ^ 64 * 2 ^ 64 % p
  if mix % 2 ^ 64 % p + high < p then high else high - p

theorem mod_eq_add_wrapOff (hp : 0 < p) (mix : ℕ) :
    ((mix % p : ℕ) : ℤ) = ((mix % 2 ^ 64 % p : ℕ) : ℤ) + wrapOff p mix := by
  have hsplit : mix % p = (mix % 2 ^ 64 % p + mix / 2 ^ 64 * 2 ^ 64 % p) % p := by
    rw [← Nat.add_mod, Nat.mul_comm, Nat.mod_add_div]
  have hlow := Nat.mod_lt (mix % 2 ^ 64) hp
  have hhigh := Nat.mod_lt (mix / 2 ^ 64 * 2 ^ 64) hp
  rw [hsplit, wrapOff]
  split_ifs with h
  · rw [Nat.mod_eq_of_lt h, Nat.cast_add]
  · have hge : p ≤ mix % 2 ^ 64 % p + mix / 2 ^ 64 * 2 ^ 64 % p := Nat.le_of_not_lt h
    rw [Nat.mod_eq_sub_mod hge, Nat.mod_eq_of_lt (by omega), Nat.cast_sub hge, Nat.cast_add]
    ring

/-- Nothing is lost iff the mix has no bits beyond 64, as long as these are too few for `p`. -/
theorem wrapOff_eq_zero_iff (hcop : Nat.Coprime p (2 ^ 64)) (hlt : mix / 2 ^ 64 < p) :
    wrapOff p mix = 0 ↔ mix / 2 ^ 64 = 0 := by
  have hp : 0 < p := Nat.zero_lt_of_lt hlt
  have hhigh := Nat.mod_lt (mix / 2 ^ 64 * 2 ^ 64) hp
  have hlow := Nat.mod_lt (mix % 2 ^ 64) hp
  constructor
  · intro hzero
    have hmod : mix / 2 ^ 64 * 2 ^ 64 % p = 0 := by
      unfold wrapOff at hzero
      dsimp only at hzero
      split_ifs at hzero <;> omega
    -- `p` divides the bits beyond 64, which are less than `p`
    have hdvd := hcop.dvd_of_dvd_mul_right (Nat.dvd_of_mod_eq_zero hmod)
    exact Nat.eq_zero_of_dvd_of_lt hdvd hlt
  · intro hzero
    rw [wrapOff, hzero, Nat.zero_mul, Nat.zero_mod, Nat.add_zero, if_pos hlow]
    rfl

end WrapOff

/-- The crate's mix is the mix on natural numbers, reduced to 64 bits. -/
theorem PleSpec.toNat_mix_mod {ngramOrder : ℕ} (hngram : ngramOrder = 2 ∨ ngramOrder = 3)
    (a b c : UInt32) :
    (real.mix [a, b, c] ngramOrder).toNat =
      exactMix realMultipliers (([a, b, c].take ngramOrder).map UInt32.toNat) % 2 ^ 64 := by
  have hprod :
      ∀ (t : UInt32) (m : UInt64), (t.toUInt64 * m).toNat = t.toNat * m.toNat % 2 ^ 64 := by
    intro t m
    rw [UInt64.toNat_mul, UInt32.toNat_toUInt64]
  have h0 := hprod a 23703573157769
  have h1 := hprod b 20109073645365
  have h2 := hprod c 8052911324071
  rcases hngram with rfl | rfl
  · show (a.toUInt64 * 23703573157769 ^^^ b.toUInt64 * 20109073645365).toNat = _
    rw [UInt64.toNat_xor, h0, h1, ← Nat.xor_mod_two_pow]
    simp [exactMix, realMultipliers]
  · show (a.toUInt64 * 23703573157769 ^^^ b.toUInt64 * 20109073645365 ^^^
      c.toUInt64 * 8052911324071).toNat = _
    rw [UInt64.toNat_xor, UInt64.toNat_xor, h0, h1, h2, ← Nat.xor_mod_two_pow,
      ← Nat.xor_mod_two_pow]
    simp [exactMix, realMultipliers, Nat.xor_assoc]

section Rows

variable {offsets : List ℤ} {history tokens : List UInt32}

/-- The row ids of a column, over unbounded integers and with some offsets. -/
def offsetRow (offsets : List ℤ) (column : List UInt32) : List ℤ :=
  (List.range PLE_HEADS).map fun gi =>
    ((exactMix realMultipliers ((column.take (2 + gi / PLE_HEADS_PER_NGRAM)).map UInt32.toNat) %
      realPrimes.getD gi 1 : ℕ) : ℤ) + offsets.getD gi 0

/-- With an offset for every head, the row of a column. -/
private theorem pleRow_offsetRow (hlen : PLE_HEADS ≤ offsets.length) (a b c : UInt32) :
    pleRow PleMath.DEFAULT_MULTIPLIERS (castColumn realPrimes) offsets PLE_NGRAM_SIZE
        PLE_HEADS_PER_NGRAM (pyInts [a, b, c]) = .ok (offsetRow offsets [a, b, c]) := by
  simp only [offsetRow, List.map_take]
  exact pleRow_offsets hlen a.toNat b.toNat c.toNat

/-- Without an offset for every head, no column has a row. -/
private theorem pleRow_ne_ok (hlen : offsets.length < PLE_HEADS) (a b c : UInt32) (row : List ℤ) :
    pleRow PleMath.DEFAULT_MULTIPLIERS (castColumn realPrimes) offsets PLE_NGRAM_SIZE
        PLE_HEADS_PER_NGRAM (pyInts [a, b, c]) ≠ .ok row := by
  intro hrow
  obtain ⟨blocks, hblocks, -⟩ := Except.bind_eq_ok_iff.mp hrow
  obtain ⟨heads, hheads⟩ := Except.forall_of_mapM_eq_ok hblocks 3 (by decide)
  replace hheads := (pleBlock_offsets a.toNat b.toNat c.toNat (.inr rfl)).symm.trans hheads
  -- the last head is in the block of the triples
  obtain ⟨rid, hrid⟩ := Except.forall_of_mapM_eq_ok hheads 15 (by decide)
  have hnone : offsets[15]? = none := List.getElem?_eq_none (Nat.le_of_lt_succ hlen)
  rw [Py.item, hnone] at hrid
  cases hrid

/-- The mix of head `gi` for the token at a place, over unbounded integers. -/
def mixAt (history tokens : List UInt32) (i gi : ℕ) : ℕ :=
  exactMix realMultipliers
    (((lookBack PLE_EOS PLE_NGRAM_SIZE ((tokens.take (i + 1)).reverse ++ history.reverse)).take
      (2 + gi / PLE_HEADS_PER_NGRAM)).map UInt32.toNat)

/-- The offsets make up for what the native function does otherwise: there is one for every head,
and for every token and head the offset of the checkpoint is larger by what the wrap-around takes
off the mix. -/
def MakesUp (offsets : List ℤ) (history tokens : List UInt32) : Prop :=
  PLE_HEADS ≤ offsets.length ∧ ∀ i < tokens.length, ∀ gi ∈ List.range PLE_HEADS,
    (realOffsets.getD gi 0 : ℤ) =
      offsets.getD gi 0 + wrapOff (realPrimes.getD gi 1) (mixAt history tokens i gi)

/-- The native row id of a head, as an integer. -/
private theorem toNat_realRowid_mix {ngramOrder : ℕ} (hngram : ngramOrder = 2 ∨ ngramOrder = 3)
    (a b c : UInt32) {gi : ℕ} (hgi : gi ∈ List.range PLE_HEADS) :
    ((PleSpec.realRowid (PleSpec.real.mix [a, b, c] ngramOrder) gi).toNat : ℤ) +
        wrapOff (realPrimes.getD gi 1)
          (exactMix realMultipliers (([a, b, c].take ngramOrder).map UInt32.toNat)) =
      ((exactMix realMultipliers (([a, b, c].take ngramOrder).map UInt32.toNat) %
        realPrimes.getD gi 1 : ℕ) : ℤ) + realOffsets.getD gi 0 := by
  obtain ⟨-, -, hpos, -⟩ := real_heads gi hgi
  rw [PleSpec.toNat_realRowid _ hgi, PleSpec.toNat_mix_mod hngram,
    mod_eq_add_wrapOff hpos, Nat.cast_add]
  ring

/-- The native row of a column is the row with some offsets iff these make up for the
wrap-around. -/
private theorem native_row_eq_iff (a b c : UInt32) :
    pyInts (PleSpec.realRowids [a, b, c]) = offsetRow offsets [a, b, c] ↔
      ∀ gi ∈ List.range PLE_HEADS, (realOffsets.getD gi 0 : ℤ) = offsets.getD gi 0 +
        wrapOff (realPrimes.getD gi 1) (exactMix realMultipliers
          (([a, b, c].take (2 + gi / PLE_HEADS_PER_NGRAM)).map UInt32.toNat)) := by
  rw [PleSpec.realRowids, offsetRow, pyInts, castColumn, List.map_map, List.map_map,
    List.map_inj_left]
  refine forall₂_congr fun gi hgi => ?_
  have hngram : 2 + gi / PLE_HEADS_PER_NGRAM = 2 ∨ 2 + gi / PLE_HEADS_PER_NGRAM = 3 := by
    simp only [List.mem_range, PLE_HEADS, PLE_HEADS_PER_NGRAM] at hgi ⊢
    omega
  have hnative := toNat_realRowid_mix hngram a b c hgi
  rw [Function.comp_apply, Function.comp_apply]
  constructor
  · intro h
    omega
  · intro h
    omega

/-- The native rows of a stream are the rows with some offsets iff these make up for the
wrap-around. -/
theorem rowsOf_native_eq_iff (hlen : PLE_HEADS ≤ offsets.length) :
    pyTable (rowsOf PLE_EOS PLE_NGRAM_SIZE PleSpec.realRowids history tokens) =
        rowsOf PLE_EOS PLE_NGRAM_SIZE (offsetRow offsets) history tokens ↔
      MakesUp offsets history tokens := by
  rw [MakesUp, and_iff_right hlen, pyTable, map_rowsOf, rowsOf, rowsOf, List.map_inj_left]
  simp only [List.mem_range (n := tokens.length)]
  exact forall₂_congr fun i _ => native_row_eq_iff _ _ _

end Rows

/-- Words of 32 bits. -/
def Words (xs : List ℤ) : Prop := ∀ x ∈ xs, 0 ≤ x ∧ x < 2 ^ 32

instance (xs : List ℤ) : Decidable (Words xs) :=
  inferInstanceAs (Decidable (∀ x ∈ xs, 0 ≤ x ∧ x < 2 ^ 32))

theorem words_cons {x : ℤ} {xs : List ℤ} : Words (x :: xs) ↔ (0 ≤ x ∧ x < 2 ^ 32) ∧ Words xs :=
  List.forall_mem_cons

/-- Python integers as words of 32 bits. -/
def toWords (xs : List ℤ) : List UInt32 := xs.map fun x => UInt32.ofNat x.toNat

/-- Integers are converted iff all of them are words. -/
theorem Py.mapM_word32 (xs : List ℤ) :
    xs.mapM word32 = if Words xs then .ok (toWords xs) else .error .overflowError := by
  induction xs with
  | nil => rfl
  | cons x xs ih =>
    rw [List.mapM_cons, ih, word32]
    by_cases hx : 0 ≤ x ∧ x < 2 ^ 32
    · by_cases hxs : Words xs
      · rw [if_pos hx, if_pos hxs, if_pos (words_cons.mpr ⟨hx, hxs⟩)]
        rfl
      · rw [if_pos hx, if_neg hxs, if_neg fun h => hxs (words_cons.mp h).2]
        rfl
    · rw [if_neg hx, if_neg fun h => hx (words_cons.mp h).1]
      rfl

/-- Words are the integers they were converted from. -/
theorem pyInts_toWords {xs : List ℤ} (h : Words xs) : pyInts (toWords xs) = xs := by
  have hword : ∀ x ∈ xs, (((UInt32.ofNat x.toNat).toNat : ℕ) : ℤ) = x := by
    intro x hx
    obtain ⟨hnonneg, hlt⟩ := h x hx
    rw [UInt32.toNat_ofNat', Nat.mod_eq_of_lt (by omega), Int.toNat_of_nonneg hnonneg]
  rw [pyInts, castColumn, toWords, List.map_map, List.map_map]
  exact (List.map_congr_left hword).trans (List.map_id' xs)

namespace DiskPleNGramEmbedding

variable {mod : DiskPleNGramEmbedding} {seq history : List ℤ}

/-- `_native_standard`, with the sizes of the tables evaluated. -/
theorem nativeStandard_iff :
    mod.nativeStandard ↔ mod.layerMultipliers = DEFAULT_MULTIPLIERS ∧ mod.ngramSize = 3 ∧
      mod.headsPerNgram = 8 ∧ mod.eos = 248044 ∧ mod.primeSizes = castColumn realPrimes := by
  have hsizes : PleAdapter.headVocabSizes PleAdapter.PLE_BASE PleAdapter.PLE_HEADS =
      castColumn realPrimes := PleMath.headVocabSizes_real
  rw [nativeStandard, decide_eq_true_iff, hsizes]
  rfl

/-- The offsets that `ple_rowids` uses: those of the module, or the default ones if it has none. -/
def offsetsUsed (mod : DiskPleNGramEmbedding) : List ℤ :=
  Py.orDefault (some mod.headOffsets) (castColumn realOffsets)

/-- The native function is taken: the parameters are those of the checkpoint, and all tokens are
words. -/
def TakesNative (mod : DiskPleNGramEmbedding) (seq history : List ℤ) : Prop :=
  mod.nativeStandard ∧ Words history ∧ Words seq

/-- What `_rows_for` returns when it does not take the native function. -/
private theorem rowsFor_of_not_takesNative (h : ¬ mod.TakesNative seq history) :
    mod.rowsFor seq history = mod.ownRowids seq history := by
  unfold rowsFor
  by_cases hstd : mod.nativeStandard
  · have hwords : rowidsForSeqWithHistory history seq = .error .overflowError := by
      unfold rowidsForSeqWithHistory
      rw [Py.mapM_word32, Py.mapM_word32]
      by_cases hhist : Words history
      · rw [if_pos hhist, if_neg fun hseq => h ⟨hstd, hhist, hseq⟩]
        rfl
      · rw [if_neg hhist]
        rfl
    rw [if_pos hstd, hwords]
  · rw [if_neg hstd]

/-- What `rows_for` returns when it takes the native path (`h`): the table of the words, as
integers. -/
private theorem rowsFor_of_takesNative (h : mod.TakesNative seq history) :
    mod.rowsFor seq history = .ok (pyTable
      (rowsOf PLE_EOS PLE_NGRAM_SIZE PleSpec.realRowids (toWords history) (toWords seq))) := by
  obtain ⟨hstd, hhist, hseq⟩ := h
  have hnative : rowidsForSeqWithHistory history seq = .ok (pyTable
      (rowsOf PLE_EOS PLE_NGRAM_SIZE PleSpec.realRowids (toWords history) (toWords seq))) := by
    unfold rowidsForSeqWithHistory
    rw [Py.mapM_word32, Py.mapM_word32, if_pos hhist, if_pos hseq]
    simp only [bind, Except.bind, PleSpec.rowidsForSeqWithHistory_real]
    rfl
  unfold rowsFor
  rw [if_pos hstd, hnative]

/-- `ple_rowids`, with the parameters of the checkpoint and some offsets, along a stream of
words. -/
theorem ownRowids_of_takesNative (h : mod.TakesNative seq history) :
    mod.ownRowids seq history = rowsFrom (248044 : ℤ) PLE_NGRAM_SIZE
      (pleRow PleMath.DEFAULT_MULTIPLIERS (castColumn realPrimes) mod.offsetsUsed PLE_NGRAM_SIZE
        PLE_HEADS_PER_NGRAM) (pyInts (toWords history)) (pyInts (toWords seq)) := by
  obtain ⟨hstd, hhist, hseq⟩ := h
  obtain ⟨hmult, hsize, hheads, heos, hprimes⟩ := nativeStandard_iff.mp hstd
  have hsizes : Py.orDefault (some (castColumn realPrimes))
      (PleAdapter.headVocabSizes PleAdapter.PLE_BASE PleAdapter.PLE_HEADS) =
        castColumn realPrimes := rfl
  have hoffsets : PleAdapter.headOffsets (some (castColumn realPrimes)) = castColumn realOffsets :=
    PleMath.headOffsets_real
  rw [ownRowids, PleAdapter.pleRowids, EngramDB.pleRowids_eq, hprimes, hsizes, hoffsets,
    pyInts_toWords hhist, pyInts_toWords hseq, hmult, hsize, hheads, heos]
  rfl

/-- The condition under which the native function makes no difference: there are no tokens at all,
or the offsets make up for what it does otherwise. -/
def Agrees (mod : DiskPleNGramEmbedding) (seq history : List ℤ) : Prop :=
  (history = [] ∧ seq = []) ∨ MakesUp mod.offsetsUsed (toWords history) (toWords seq)

/-- Words as integers, word by word. -/
theorem pyInts_eq_map (xs : List UInt32) :
    pyInts xs = xs.map fun t : UInt32 => ((t.toNat : ℕ) : ℤ) := by
  rw [pyInts, castColumn, List.map_map]
  rfl

theorem cast_toNat_injective : Function.Injective fun t : UInt32 => ((t.toNat : ℕ) : ℤ) :=
  Nat.cast_injective.comp toNat_injective

/-- Looking back on words as integers. -/
private theorem lookBack_pyInts (past : List UInt32) :
    lookBack (248044 : ℤ) PLE_NGRAM_SIZE (pyInts past) =
      pyInts (lookBack PLE_EOS PLE_NGRAM_SIZE past) := by
  rw [pyInts_eq_map, pyInts_eq_map]
  exact lookBack_map cast_toNat_injective PLE_EOS PLE_NGRAM_SIZE past

/-- With an offset for every head, `ple_rowids` returns the rows of the stream. -/
private theorem ownRowids_eq_ok (h : mod.TakesNative seq history)
    (hlen : PLE_HEADS ≤ mod.offsetsUsed.length) :
    mod.ownRowids seq history = .ok (rowsOf PLE_EOS PLE_NGRAM_SIZE (offsetRow mod.offsetsUsed)
      (toWords history) (toWords seq)) := by
  have heos : (248044 : ℤ) = ((PLE_EOS.toNat : ℕ) : ℤ) := rfl
  rw [ownRowids_of_takesNative h, pyInts_eq_map, pyInts_eq_map, heos]
  refine rowsFrom_map cast_toNat_injective (fun past => ?_) _ _
  rw [← pyInts_eq_map]
  exact pleRow_offsetRow hlen _ _ _

/-- Without one, it raises as soon as there is a token. -/
private theorem ownRowids_ne_ok (h : mod.TakesNative seq history)
    (hlen : mod.offsetsUsed.length < PLE_HEADS)
    (hne : history ++ seq ≠ []) (rows : List (List ℤ)) : mod.ownRowids seq history ≠ .ok rows := by
  have happend :
      pyInts (toWords history) ++ pyInts (toWords seq) = pyInts (toWords (history ++ seq)) := by
    rw [pyInts_eq_map, pyInts_eq_map, pyInts_eq_map, toWords, toWords, toWords, List.map_append,
      List.map_append]
  rw [ownRowids_of_takesNative h, rowsFrom]
  intro hrows
  obtain ⟨all, hall, -⟩ := Except.bind_eq_ok_iff.mp hrows
  have hpos : 0 ∈ List.range (pyInts (toWords history) ++ pyInts (toWords seq)).length := by
    rw [happend, List.mem_range, pyInts_eq_map, toWords, List.length_map, List.length_map]
    exact List.length_pos_iff.mpr hne
  -- the first column has no row
  obtain ⟨row, hrow⟩ := Except.forall_of_mapM_eq_ok hall 0 hpos
  rw [happend, pyInts_eq_map, ← List.map_take, ← List.map_reverse, ← pyInts_eq_map,
    lookBack_pyInts] at hrow
  exact pleRow_ne_ok hlen _ _ _ row hrow

/-- When `_rows_for` takes the native function, it returns what `ple_rowids` returns iff the offsets
make up for what the native function does otherwise. -/
theorem rowsFor_eq_iff_of_takesNative (h : mod.TakesNative seq history) :
    mod.rowsFor seq history = mod.ownRowids seq history ↔ mod.Agrees seq history := by
  rw [rowsFor_of_takesNative h]
  by_cases hempty : history = [] ∧ seq = []
  · obtain ⟨rfl, rfl⟩ := hempty
    refine iff_of_true ?_ (.inl ⟨rfl, rfl⟩)
    rw [ownRowids_of_takesNative h]
    rfl
  rw [Agrees, or_iff_right hempty]
  rcases Nat.lt_or_ge mod.offsetsUsed.length PLE_HEADS with hlen | hlen
  · have hne : history ++ seq ≠ [] := fun hnil => hempty (List.append_eq_nil_iff.mp hnil)
    exact iff_of_false (fun heq => ownRowids_ne_ok h hlen hne _ heq.symm)
      fun hmakes => absurd hmakes.1 (Nat.not_le.mpr hlen)
  · rw [ownRowids_eq_ok h hlen, ← rowsOf_native_eq_iff hlen]
    exact ⟨Except.ok.inj, congrArg Except.ok⟩

/-- `_rows_for` returns what `ple_rowids` returns with the parameters of the module iff it does not
take the native function, or the native function makes no difference: its own offsets make up for
what its words of 64 bits lose. -/
theorem rowsFor_eq_iff (mod : DiskPleNGramEmbedding) (seq history : List ℤ) :
    mod.rowsFor seq history = mod.ownRowids seq history ↔
      (mod.TakesNative seq history → mod.Agrees seq history) := by
  by_cases h : mod.TakesNative seq history
  · rw [rowsFor_eq_iff_of_takesNative h]
    exact ⟨fun hagrees _ => hagrees, fun hagrees => hagrees h⟩
  · exact iff_of_true (rowsFor_of_not_takesNative h) fun htakes => absurd htakes h

/-- A prime of a head has no factor in common with a power of two, and is larger than what a mix can
have beyond 64 bits. -/
private theorem wrapOff_mixAt_eq_zero_iff (past tokens : List UInt32) (i : ℕ) {gi : ℕ}
    (hgi : gi ∈ List.range PLE_HEADS) :
    wrapOff (realPrimes.getD gi 1) (mixAt past tokens i gi) = 0 ↔
      mixAt past tokens i gi / 2 ^ 64 = 0 := by
  have hprimes : ∀ gi ∈ List.range PLE_HEADS,
      Nat.Coprime (realPrimes.getD gi 1) (2 ^ 64) ∧ 2 ^ 13 < realPrimes.getD gi 1 := by decide
  obtain ⟨hcop, hlarge⟩ := hprimes gi hgi
  have hlt : mixAt past tokens i gi < 2 ^ 77 := by
    -- a word has 32 bits and a multiplier 45
    refine exactMix_lt_two_pow (by norm_num : 2 ^ 32 * 23703573157769 < 2 ^ 77)
      (by decide) fun t ht => ?_
    obtain ⟨u, -, rfl⟩ := List.mem_map.mp ht
    exact Nat.le_of_lt u.toNat_lt
  exact wrapOff_eq_zero_iff hcop (by omega)

/-- With the offsets of the checkpoint, `_rows_for` returns what `ple_rowids` returns iff no mix of
the tokens has bits beyond 64. -/
theorem rowsFor_eq_iff_of_offsets (h : mod.TakesNative seq history)
    (hoffsets : mod.offsetsUsed = castColumn realOffsets) :
    mod.rowsFor seq history = mod.ownRowids seq history ↔
      ∀ i < seq.length, ∀ gi ∈ List.range PLE_HEADS,
        mixAt (toWords history) (toWords seq) i gi / 2 ^ 64 = 0 := by
  have hlen : (toWords seq).length = seq.length := List.length_map _
  rw [rowsFor_eq_iff_of_takesNative h, Agrees, MakesUp, hoffsets, hlen]
  have hiff : (PLE_HEADS ≤ (castColumn realOffsets).length ∧ ∀ i < seq.length,
      ∀ gi ∈ List.range PLE_HEADS,
        (realOffsets.getD gi 0 : ℤ) = (castColumn realOffsets).getD gi 0 +
        wrapOff (realPrimes.getD gi 1) (mixAt (toWords history) (toWords seq) i gi)) ↔
      ∀ i < seq.length, ∀ gi ∈ List.range PLE_HEADS,
        mixAt (toWords history) (toWords seq) i gi / 2 ^ 64 = 0 := by
    rw [and_iff_right (by decide)]
    refine forall₂_congr fun i _ => forall₂_congr fun gi hgi => ?_
    rw [getD_castColumn, left_eq_add, wrapOff_mixAt_eq_zero_iff _ _ i hgi]
  rw [hiff]
  refine or_iff_right_of_imp ?_
  rintro ⟨-, rfl⟩ i hi
  cases hi

/-- Without offsets of its own, the constructor computes those of the sizes. -/
private theorem headOffsets_of_new {args : NGramArgs} (hnew : new args = .ok mod)
    (hoffsets : args.offsets = none) :
    mod.headOffsets = PleAdapter.headOffsets (some mod.primeSizes) := by
  unfold new at hnew
  dsimp only at hnew
  rw [hoffsets] at hnew
  -- a constructor that raises leaves no module
  split at hnew
  · cases hnew
  split at hnew
  · cases hnew
  cases hnew
  rfl

/-- With the parameters of the checkpoint, these are the offsets of the checkpoint. -/
private theorem offsetsUsed_of_new {args : NGramArgs} (hnew : new args = .ok mod)
    (hoffsets : args.offsets = none)
    (hstd : mod.nativeStandard) : mod.offsetsUsed = castColumn realOffsets := by
  obtain ⟨-, -, -, -, hprimes⟩ := nativeStandard_iff.mp hstd
  have hreal : PleAdapter.headOffsets (some (castColumn realPrimes)) = castColumn realOffsets :=
    PleMath.headOffsets_real
  rw [offsetsUsed, headOffsets_of_new hnew hoffsets, hprimes, hreal]
  rfl

/-- A module that was given no offsets, and takes the row ids from the native function, hashes as
`ple_rowids` does iff no mix of the tokens has bits beyond the lower 64. -/
theorem rowsFor_eq_iff_of_new {args : NGramArgs} (hnew : new args = .ok mod)
    (hoffsets : args.offsets = none) (h : mod.TakesNative seq history) :
    mod.rowsFor seq history = mod.ownRowids seq history ↔
      ∀ i < seq.length, ∀ gi ∈ List.range PLE_HEADS,
        mixAt (toWords history) (toWords seq) i gi / 2 ^ 64 = 0 :=
  rowsFor_eq_iff_of_offsets h (offsetsUsed_of_new hnew hoffsets h.1)

section Example

/-- The parameters of the checkpoint, with some offsets. -/
def checkpoint (offsets : List ℤ) : DiskPleNGramEmbedding where
  primeSizes := castColumn realPrimes
  headOffsets := offsets
  ngramSize := 3
  headsPerNgram := 8
  layerMultipliers := DEFAULT_MULTIPLIERS
  eos := 248044
  table := DiskPleEmbedding.byteEmbedding 0

private theorem takesNative_checkpoint (offsets : List ℤ) {seq history : List ℤ} (hseq : Words seq)
    (hhistory : Words history) : (checkpoint offsets).TakesNative seq history :=
  ⟨nativeStandard_iff.mpr ⟨rfl, rfl, rfl, rfl, rfl⟩, hhistory, hseq⟩

/-- In a table whose tables of the heads start one row later, the native function reads the row
before. -/
theorem not_rowsFor_eq_laterOffsets :
    (checkpoint (castColumn (realOffsets.map (· + 1)))).rowsFor [0] [] ≠
      (checkpoint (castColumn (realOffsets.map (· + 1)))).ownRowids [0] [] := by
  intro heq
  have htakes :=
    @takesNative_checkpoint (castColumn (realOffsets.map (· + 1))) [0] [] (by decide) (by decide)
  rcases (rowsFor_eq_iff_of_takesNative htakes).mp heq with ⟨-, hnil⟩ | ⟨-, hmakes⟩
  · cases hnil
  · have hfirst := hmakes 0 (by decide) 0 (by decide)
    revert hfirst
    decide

/-- With the offsets of the checkpoint, the largest token has a product beyond 64 bits. -/
example : mixAt [] [4294967295] 0 0 / 2 ^ 64 ≠ 0 := by decide

end Example

end DiskPleNGramEmbedding

end EngramDB
