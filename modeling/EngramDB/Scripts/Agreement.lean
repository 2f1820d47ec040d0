import EngramDB.Scripts.RefPleHash

/-!
# Agreement of the row-id implementations

The crate hashes with wrapping `u64` products, the two Python modules with unbounded integers, the
reference with signed 64-bit arrays. Over the vocabulary they return one table: the largest product
stays below `2 ^ 63` (`headroom`).

`rowids_agree_iff`: the one exception is an empty token list after two separators, where the slice
`ids[-0:]` of the reference is not empty.
-/

namespace EngramDB

open Ngram

/-- Tokens of the vocabulary of the model. -/
def Vocabulary (tokens : List UInt32) : Prop := ∀ t ∈ tokens, t.toNat < VOCAB_SIZE

instance (tokens : List UInt32) : Decidable (Vocabulary tokens) :=
  List.decidableBAll (fun t : UInt32 => t.toNat < VOCAB_SIZE) tokens

/-- Tokens or row ids as Python integers. -/
def pyInts (xs : List UInt32) : List ℤ := castColumn (xs.map UInt32.toNat)

/-- A table of row ids as Python integers. -/
def pyTable (table : List (List UInt32)) : List (List ℤ) := table.map pyInts

/-- Every implementation returns `table` for the tokens after the history; the reference has only
the history of two separators. -/
structure SameTable (history tokens : List UInt32) (table : List (List UInt32)) : Prop where
  /-- The crate. -/
  keygen : PleSpec.real.rowidsForSeqWithHistory (ε := Empty) history tokens = .ok table
  /-- `ple_math` with its defaults. -/
  math : PleMath.pleRowids (pyInts tokens) PleMath.DEFAULT_MULTIPLIERS PleMath.PLE_EOS none none
    PleMath.PLE_NGRAM_SIZE PleMath.PLE_HEADS_PER_NGRAM (some (pyInts history)) = .ok (pyTable table)
  /-- `ple_adapter` with its defaults. -/
  adapter : PleAdapter.pleRowids (pyInts tokens) PleMath.DEFAULT_MULTIPLIERS PleAdapter.PLE_EOS none
    none PleAdapter.PLE_NGRAM_SIZE PleAdapter.PLE_HEADS_PER_NGRAM (some (pyInts history)) =
      .ok (pyTable table)
  /-- The reference. -/
  reference : history = [PLE_EOS, PLE_EOS] →
    RefPleHash.pleRowids (pyInts tokens) PleMath.DEFAULT_MULTIPLIERS none = .ok (pyTable table)

/-- The column of the tokens that the crate hashes at a position. -/
def columnAt (hist : List UInt32) (pos : ℕ) : List UInt32 :=
  ((List.range PLE_NGRAM_SIZE).map fun shift => shiftRightIgnoreEos hist shift PLE_EOS).map
    fun row => row.getD pos 0

/-- No computation on the tokens of `hist` leaves the range of a signed 64-bit integer. -/
structure Headroom (hist : List UInt32) : Prop where
  /-- No product reaches `2 ^ 63`. -/
  product : ∀ t ∈ PLE_EOS :: hist, ∀ m ∈ realMultipliers, t.toNat * m < 2 ^ 63
  /-- The wrapping mix of every position is the exact one, and does not reach `2 ^ 63`. -/
  mix : ∀ pos < hist.length, ∀ ngramOrder ∈ [2, 3],
    (PleSpec.real.mix (columnAt hist pos) ngramOrder).toNat =
        exactMix realMultipliers (((columnAt hist pos).take ngramOrder).map UInt32.toNat) ∧
      exactMix realMultipliers (((columnAt hist pos).take ngramOrder).map UInt32.toNat) < 2 ^ 63
  /-- The cast to a row id loses nothing. -/
  cast : ∀ gi ∈ List.range PLE_HEADS, ∀ mixed r, PleSpec.real.rowid (ε := Empty) mixed gi = .ok r →
    r.toNat = mixed.toNat % realPrimes.getD gi 1 + realOffsets.getD gi 0

section Tables

variable {history tokens : List UInt32}

theorem toNat_injective : Function.Injective UInt32.toNat := fun _ _ h => UInt32.toNat_inj.mp h

/-- The Python rows of vocabulary tokens are those of the crate. -/
theorem rowsOf_realRow (hhistory : Vocabulary history) (htokens : Vocabulary tokens) :
    rowsOf 248044 PLE_NGRAM_SIZE (fun column => castColumn (realRow column))
        (history.map UInt32.toNat) (tokens.map UInt32.toNat) =
      pyTable (rowsOf PLE_EOS PLE_NGRAM_SIZE PleSpec.realRowids history tokens) := by
  rw [pyTable, map_rowsOf]
  refine (rowsOf_map toNat_injective PLE_EOS _ _ _ _).trans ?_
  refine rowsOf_congr (P := fun t => t.toNat < VOCAB_SIZE) (by decide) hhistory htokens
    fun past hpast => ?_
  exact congrArg castColumn (PleSpec.map_toNat_realRowids hpast).symm

/-- The rows that the Python modules return for natural numbers. -/
private theorem rowsFrom_rowOf (history tokens : List ℕ) :
    rowsFrom PleMath.PLE_EOS PleMath.PLE_NGRAM_SIZE
        (PleMath.rowOf PleMath.DEFAULT_MULTIPLIERS none none PleMath.PLE_NGRAM_SIZE
          PleMath.PLE_HEADS_PER_NGRAM) (castColumn history) (castColumn tokens) =
      .ok (rowsOf 248044 PLE_NGRAM_SIZE (fun column => castColumn (realRow column)) history
        tokens) := by
  have hrow : ∀ past : List ℕ,
      PleMath.rowOf PleMath.DEFAULT_MULTIPLIERS none none PleMath.PLE_NGRAM_SIZE
          PleMath.PLE_HEADS_PER_NGRAM ((lookBack 248044 PLE_NGRAM_SIZE past).map Nat.cast) =
        .ok (castColumn (realRow (lookBack 248044 PLE_NGRAM_SIZE past))) :=
    fun past => PleMath.rowOf_real _ _ _
  have heos : PleMath.PLE_EOS = ((248044 : ℕ) : ℤ) := rfl
  rw [heos]
  exact rowsFrom_map Nat.cast_injective hrow history tokens

/-- The table of the crate. -/
def realTable (history tokens : List UInt32) : List (List UInt32) :=
  rowsOf PLE_EOS PLE_NGRAM_SIZE PleSpec.realRowids history tokens

/-- `ple_math` and `ple_adapter` return the table of the crate, for tokens and a history of the
vocabulary (`htokens`, `hhistory`). -/
theorem pleRowids_realTable (hhistory : Vocabulary history) (htokens : Vocabulary tokens) :
    PleMath.pleRowids (pyInts tokens) PleMath.DEFAULT_MULTIPLIERS PleMath.PLE_EOS none none
        PleMath.PLE_NGRAM_SIZE PleMath.PLE_HEADS_PER_NGRAM (some (pyInts history)) =
      .ok (pyTable (realTable history tokens)) := by
  rw [PleMath.pleRowids_eq, Option.getD_some, pyInts, pyInts, rowsFrom_rowOf,
    rowsOf_realRow hhistory htokens, realTable]

/-- For tokens after two separators, the reference returns the table of the crate. -/
private theorem refRowids_realTable (htokens : Vocabulary tokens) (hne : tokens ≠ []) :
    RefPleHash.pleRowids (pyInts tokens) PleMath.DEFAULT_MULTIPLIERS none =
      .ok (pyTable (realTable [PLE_EOS, PLE_EOS] tokens)) := by
  have hvocab : ∀ t ∈ tokens.map UInt32.toNat, t < VOCAB_SIZE := by
    intro t ht
    obtain ⟨u, hu, rfl⟩ := List.mem_map.mp ht
    exact htokens u hu
  have hpos : (tokens.map UInt32.toNat).length ≠ 0 := by simpa using hne
  have hrows := @rowsOf_realRow [PLE_EOS, PLE_EOS] _ (by decide) htokens
  rw [pyInts, RefPleHash.pleRowids_eq hvocab, Py.lastItems, if_neg hpos, List.length_map,
    List.length_range,
    drop_map_lookBack 248044 _ (fun column => castColumn (realRow column)), realTable, ← hrows]
  rfl

/-- Without tokens, the reference returns the rows of the two separators. -/
private theorem length_refRowids_nil : ∃ rows,
    RefPleHash.pleRowids [] PleMath.DEFAULT_MULTIPLIERS none = .ok rows ∧ rows.length = 2 :=
  ⟨_, @RefPleHash.pleRowids_eq [] (by simp), by simp [Py.lastItems]⟩

/-- Without tokens, the other implementations return no rows, so that a table on which all agree
(`h`) is empty. -/
theorem SameTable.eq_nil {table : List (List UInt32)} (h : SameTable history [] table) :
    table = [] := by
  have hkeygen := h.keygen
  rw [PleSpec.rowidsForSeqWithHistory_real] at hkeygen
  exact (Except.ok.inj hkeygen).symm

/-- Without tokens after two separators, the reference and the crate differ. -/
theorem not_sameTable_nil (table : List (List UInt32)) :
    ¬ SameTable [PLE_EOS, PLE_EOS] [] table := by
  intro htable
  obtain ⟨rows, hrows, hlen⟩ := length_refRowids_nil
  have href := htable.reference rfl
  rw [htable.eq_nil] at href
  obtain rfl : rows = [] := Except.ok.inj (hrows.symm.trans href)
  simp at hlen

/-- Over the vocabulary (`hvocab`) no implementation leaves the range of its numbers. -/
theorem headroom {hist : List UInt32} (hvocab : Vocabulary hist) : Headroom hist where
  product := by
    intro t ht m hm
    have hlt : t.toNat < VOCAB_SIZE := by
      rcases List.mem_cons.mp ht with rfl | ht
      · decide
      · exact hvocab t ht
    have hm' : ∀ m ∈ realMultipliers, m ≤ 23703573157769 := by decide
    have hle : t.toNat * m ≤ 248319 * 23703573157769 :=
      Nat.mul_le_mul (Nat.le_of_lt_succ hlt) (hm' m hm)
    omega
  mix := by
    intro pos hpos ngramOrder hngram
    have hcolumn : columnAt hist pos = lookBack PLE_EOS 3 (hist.take (pos + 1)).reverse :=
      map_getD_shiftRightIgnoreEos (List.mem_range.mpr hpos)
    -- a shifted column holds tokens of the history and the end of sequence
    have hlt : ∀ t ∈ columnAt hist pos, t.toNat < VOCAB_SIZE := by
      rw [hcolumn]
      intro t ht
      obtain ⟨s, -, rfl⟩ := List.mem_map.mp ht
      rcases before_mem PLE_EOS s (hist.take (pos + 1)).reverse with h | h
      · rw [h]
        decide
      · exact hvocab _ (List.mem_of_mem_take (List.mem_reverse.mp h))
    have hngram' : ngramOrder = 2 ∨ ngramOrder = 3 := by simpa using hngram
    refine ⟨PleSpec.toNat_mix hngram' hlt, exactMix_lt (by decide) fun t ht => ?_⟩
    obtain ⟨u, hu, rfl⟩ := List.mem_map.mp ht
    exact hlt u (List.mem_of_mem_take hu)
  cast := by
    intro gi hgi mixed r hr
    rw [PleSpec.rowid_real mixed hgi] at hr
    rw [← Except.ok.inj hr, PleSpec.toNat_realRowid mixed hgi]

/-- Over the vocabulary (`hhistory`, `htokens`), the implementations of the row ids return one table
unless there are no tokens after two separators: the script then returns the rows of the
separators. -/
theorem rowids_agree_iff (hhistory : Vocabulary history) (htokens : Vocabulary tokens) :
    ((∃ table, SameTable history tokens table) ∧ Headroom (history ++ tokens)) ↔
      (history ≠ [PLE_EOS, PLE_EOS] ∨ tokens ≠ []) := by
  have hhist : Vocabulary (history ++ tokens) := by
    intro t ht
    exact (List.mem_append.mp ht).elim (hhistory t) (htokens t)
  constructor
  · rintro ⟨⟨table, htable⟩, -⟩
    by_contra hcontra
    rw [not_or, not_not, not_not] at hcontra
    obtain ⟨rfl, rfl⟩ := hcontra
    exact not_sameTable_nil table htable
  · intro h
    refine ⟨⟨realTable history tokens, ?_⟩, headroom hhist⟩
    have hmath := pleRowids_realTable hhistory htokens
    refine ⟨PleSpec.rowidsForSeqWithHistory_real history tokens, hmath, hmath, ?_⟩
    rintro rfl
    exact refRowids_realTable htokens (h.resolve_left fun hne => hne rfl)

theorem rowids_agree_iff_twoTokens : (Vocabulary [PLE_EOS, PLE_EOS] ∧ Vocabulary [248319, 7]) ∧
    (((∃ table, SameTable [PLE_EOS, PLE_EOS] [248319, 7] table) ∧
        Headroom ([PLE_EOS, PLE_EOS] ++ [248319, 7])) ↔
      ([PLE_EOS, PLE_EOS] ≠ [PLE_EOS, PLE_EOS] ∨ [(248319 : UInt32), 7] ≠ [])) :=
  ⟨by decide, rowids_agree_iff (by decide) (by decide)⟩

/-- Without tokens, the reference returns two rows and the crate none. -/
theorem not_sameTable_noTokens :
    Vocabulary [PLE_EOS, PLE_EOS] ∧ Vocabulary [] ∧
      ¬ ∃ table, SameTable [PLE_EOS, PLE_EOS] [] table :=
  ⟨by decide, by decide, fun ⟨table, htable⟩ => not_sameTable_nil table htable⟩

end Tables

end EngramDB
