import EngramDB.Foundations.Slots
import EngramDB.Foundations.Text
import EngramDB.Keygen.Real

/-!
# The keys of a token stream

`engramdb prep` writes sixteen lines for every position of a token stream. It hashes the window of
the last three tokens by itself, and takes the row of the first token of the window, which is the
row of a token after separators. `bench-real` derives its keys in the same way.

* `windowRow_eq`: the row that is written for a position;
* `realRowids_eq_iff`: rows of the released table coincide iff the mixes of their pairs and their
  third tokens do, by the Chinese remainder theorem;
* `keysAreRowids_iff`: so the keys are the row ids of the stream only if the tokens are aligned in
  this way everywhere.
-/

namespace EngramDB

open Ngram SlotBuffer

namespace Cli

/-- The row ids that are written for position `t`. -/
def windowRow {ε : Type} (spec : PleSpec) (tokens : List UInt32) (t : ℕ) :
    Outcome ε (List UInt32) := do
  let first ← Outcome.index tokens (t - 2)
  let second ← Outcome.index tokens (t - 1)
  let third ← Outcome.index tokens t
  let ids ← spec.rowidsForSeq [first, second, third]
  Outcome.index ids 0

/-- The text of the keys file of `prep`: one row id on every line. -/
def prepKeys {ε : Type} (tokens : List UInt32) : Outcome ε (List Char) := do
  let rows ← (List.range tokens.length).mapM (windowRow PleSpec.real tokens)
  pure (Text.unlines (rows.flatten.map fun r => Nat.toDigits 10 r.toUInt64.toNat))

/-- The keys of `bench-real`. -/
def benchRealKeys {ε : Type} (tokens : List UInt32) : Outcome ε (List UInt64) := do
  let rows ← (List.range tokens.length).mapM (windowRow PleSpec.real tokens)
  pure (rows.flatten.map UInt32.toUInt64)

/-- The keys are the row ids of the stream: the sixteen lines of every position show its row. -/
structure KeysAreRowids (tokens : List UInt32) : Prop where
  /-- The lines of `prep`. -/
  prep : ∃ table text, PleSpec.real.rowidsForSeq (ε := Empty) tokens = .ok table ∧
    prepKeys (ε := Empty) tokens = .ok text ∧
      ∀ t < tokens.length, ((Text.lines text).drop (t * 16)).take 16 =
        (table.getD t []).map fun r => Nat.toDigits 10 r.toNat
  /-- The keys of `bench-real`. -/
  bench : ∃ table, PleSpec.real.rowidsForSeq (ε := Empty) tokens = .ok table ∧
    benchRealKeys (ε := Empty) tokens = .ok (table.flatten.map UInt32.toUInt64)

/-- The mix of a token and the token before it. -/
def pairMix (token previous : UInt32) : UInt64 :=
  token.toUInt64 * PLE_MULTIPLIERS.get 0 ^^^ previous.toUInt64 * PLE_MULTIPLIERS.get 1

/-- After the first position, every window has a separator among its first two tokens or only one
token before the last, and its last two tokens mix like its first token after a separator. -/
def Aligned (tokens : List UInt32) : Prop :=
  ∀ t < tokens.length, 1 ≤ t →
    (t = 1 ∨ tokens.getD (t - 1) 0 = PLE_EOS ∨ tokens.getD (t - 2) 0 = PLE_EOS) ∧
      pairMix (tokens.getD t 0) (tokens.getD (t - 1) 0) = pairMix (tokens.getD (t - 2) 0) PLE_EOS

instance (tokens : List UInt32) : Decidable (Aligned tokens) :=
  inferInstanceAs (Decidable (∀ t < tokens.length, 1 ≤ t → _ ∧ _))

section Columns

/-- Looking back over the last two tokens of a stream. -/
theorem lookBack_cons_cons (c b : UInt32) (past : List UInt32) :
    lookBack PLE_EOS 3 (c :: b :: past) =
      [c, b, if b = PLE_EOS then PLE_EOS else before PLE_EOS 1 (b :: past)] := by
  have hb : (if b = PLE_EOS then PLE_EOS else b) = b := by
    split_ifs with h
    · exact h.symm
    · rfl
  show [c, if b = PLE_EOS then PLE_EOS else b, _] = _
  rw [hb]
  rfl

/-- Looking back over a token after a separator. -/
theorem lookBack_cons_eos (c : UInt32) (past : List UInt32) :
    lookBack PLE_EOS 3 (c :: PLE_EOS :: past) = [c, PLE_EOS, PLE_EOS] := by
  rw [lookBack_cons_cons, if_pos rfl]

/-- Multiplying by the third multiplier loses nothing, since it is odd. -/
private theorem mul_multiplier_injective {x y : UInt64}
    (h : x * 8052911324071 = y * 8052911324071) :
    x = y := by
  have hinv : (8052911324071 : UInt64) * 5910162730099784727 = 1 := by decide
  have h' := congrArg (· * (5910162730099784727 : UInt64)) h
  simpa only [UInt64.mul_assoc, hinv, UInt64.mul_one] using h'

/-- Mixes with equal remainders for the heads of one order are equal. -/
theorem mix_eq_of_mod {x y : UInt64} {s : ℕ} (hs : s = 0 ∨ s = PLE_HEADS_PER_NGRAM)
    (h : ∀ i < PLE_HEADS_PER_NGRAM,
      x.toNat % realPrimes.getD (s + i) 1 = y.toNat % realPrimes.getD (s + i) 1) : x = y := by
  have hx := x.toNat_lt
  have hy := y.toNat_lt
  -- three of the primes are coprime with a product above `2 ^ 64`, so they determine a word
  have hcrt : ∀ p q r : ℕ, Nat.Coprime p q → Nat.Coprime (p * q) r → 2 ^ 64 ≤ p * q * r →
      x.toNat ≡ y.toNat [MOD p] → x.toNat ≡ y.toNat [MOD q] → x.toNat ≡ y.toNat [MOD r] →
        x = y := by
    intro p q r hpq hpqr hle h0 h1 h2
    have h01 := (Nat.modEq_and_modEq_iff_modEq_mul hpq).mp ⟨h0, h1⟩
    have h012 := (Nat.modEq_and_modEq_iff_modEq_mul hpqr).mp ⟨h01, h2⟩
    exact UInt64.toNat_inj.mp (h012.eq_of_lt_of_lt (by omega) (by omega))
  have h0 := h 0 (by decide)
  have h1 := h 1 (by decide)
  have h2 := h 2 (by decide)
  rcases hs with rfl | rfl
  · exact hcrt 20000003 20000023 20000033 (by decide) (by decide) (by decide) h0 h1 h2
  · exact hcrt 20000081 20000093 20000107 (by decide) (by decide) (by decide) h0 h1 h2

/-- Two columns have the same row iff their pairs mix alike and their third tokens are equal. -/
theorem realRowids_eq_iff {c b z c' b' z' : UInt32} :
    PleSpec.realRowids [c, b, z] = PleSpec.realRowids [c', b', z'] ↔
      z = z' ∧ pairMix c b = pairMix c' b' := by
  -- the mix of the pair, and the mix of the triple that extends it
  have hpair : ∀ x y z : UInt32, PleSpec.real.mix [x, y, z] 2 = pairMix x y := fun _ _ _ => rfl
  have htriple : ∀ x y z : UInt32, PleSpec.real.mix [x, y, z] 3 =
      PleSpec.real.mix [x, y, z] 2 ^^^ z.toUInt64 * 8052911324071 := fun _ _ _ => rfl
  constructor
  · intro h
    have hhead : ∀ gi ∈ List.range PLE_HEADS,
        (PleSpec.real.mix [c, b, z] (2 + gi / PLE_HEADS_PER_NGRAM)).toNat % realPrimes.getD gi 1 =
          (PleSpec.real.mix [c', b', z'] (2 + gi / PLE_HEADS_PER_NGRAM)).toNat %
            realPrimes.getD gi 1 := by
      intro gi hgi
      have hrow := congrArg UInt32.toNat (List.map_inj_left.mp h gi hgi)
      rw [PleSpec.toNat_realRowid _ hgi, PleSpec.toNat_realRowid _ hgi] at hrow
      exact Nat.add_right_cancel hrow
    have hmix2 : PleSpec.real.mix [c, b, z] 2 = PleSpec.real.mix [c', b', z'] 2 := by
      refine mix_eq_of_mod (.inl rfl) fun i hi => ?_
      have := hhead (0 + i)
        (by simp only [List.mem_range, PLE_HEADS, PLE_HEADS_PER_NGRAM] at hi ⊢; omega)
      rwa [show (0 + i) / PLE_HEADS_PER_NGRAM = 0 from Nat.div_eq_of_lt (by omega)] at this
    have hmix3 : PleSpec.real.mix [c, b, z] 3 = PleSpec.real.mix [c', b', z'] 3 := by
      refine mix_eq_of_mod (.inr rfl) fun i hi => ?_
      have := hhead (PLE_HEADS_PER_NGRAM + i)
        (by simp only [List.mem_range, PLE_HEADS, PLE_HEADS_PER_NGRAM] at hi ⊢; omega)
      rwa [show (PLE_HEADS_PER_NGRAM + i) / PLE_HEADS_PER_NGRAM = 1 by
        simp only [PLE_HEADS_PER_NGRAM] at hi ⊢; omega] at this
    rw [htriple, htriple, hmix2, UInt64.xor_right_inj] at hmix3
    refine ⟨?_, hmix2⟩
    have hz := congrArg UInt64.toNat (mul_multiplier_injective hmix3)
    rw [UInt32.toNat_toUInt64, UInt32.toNat_toUInt64] at hz
    exact UInt32.toNat_inj.mp hz
  · rintro ⟨rfl, hmix⟩
    refine List.map_congr_left fun gi hgi => ?_
    have hngram : 2 + gi / PLE_HEADS_PER_NGRAM = 2 ∨ 2 + gi / PLE_HEADS_PER_NGRAM = 3 := by
      simp only [List.mem_range, PLE_HEADS, PLE_HEADS_PER_NGRAM] at hgi ⊢
      omega
    rcases hngram with hngram | hngram <;> rw [hngram]
    · rw [hpair, hpair, hmix]
    · rw [htriple, htriple, hpair, hpair, hmix]

end Columns

section Windows

variable {ε : Type} {tokens : List UInt32}

/-- The row of a window is that of its first token after separators. -/
theorem windowRow_eq {t : ℕ} (ht : t < tokens.length) :
    windowRow (ε := ε) PleSpec.real tokens t =
      .ok (PleSpec.realRowids [tokens.getD (t - 2) 0, PLE_EOS, PLE_EOS]) := by
  have hindex : ∀ i < tokens.length, (Outcome.index tokens i : Outcome ε UInt32) =
      .ok (tokens.getD i 0) := by
    intro i hi
    refine Outcome.index_eq_ok ?_
    rw [List.getD_eq_getElem?_getD, List.getElem?_eq_getElem hi, Option.getD_some]
  let window := [tokens.getD (t - 2) 0, tokens.getD (t - 1) 0, tokens.getD t 0]
  have hids := PleSpec.rowidsForSeqWithHistory_real (ε := ε) [PLE_EOS, PLE_EOS] window
  have hback : lookBack PLE_EOS PLE_NGRAM_SIZE [tokens.getD (t - 2) 0, PLE_EOS, PLE_EOS] =
      [tokens.getD (t - 2) 0, PLE_EOS, PLE_EOS] := lookBack_cons_eos _ _
  have hfirst := getElem?_rowsOf PLE_EOS PLE_NGRAM_SIZE PleSpec.realRowids [PLE_EOS, PLE_EOS]
    (show 0 < window.length from Nat.succ_pos 2)
  exact Except.bind_eq_ok_iff.mpr ⟨_, hindex _ (by omega), Except.bind_eq_ok_iff.mpr
    ⟨_, hindex _ (by omega), Except.bind_eq_ok_iff.mpr ⟨_, hindex _ ht, Except.bind_eq_ok_iff.mpr
      ⟨_, hids, Outcome.index_eq_ok (hfirst.trans (congrArg _ (congrArg _ hback)))⟩⟩⟩⟩

/-- The rows that are written. -/
theorem mapM_windowRow :
    (List.range tokens.length).mapM (windowRow (ε := ε) PleSpec.real tokens) =
      .ok ((List.range tokens.length).map fun t =>
        PleSpec.realRowids [tokens.getD (t - 2) 0, PLE_EOS, PLE_EOS]) :=
  Except.mapM_eq_ok fun _ ht => windowRow_eq (List.mem_range.mp ht)

theorem reverse_take_succ {t : ℕ} (ht : t < tokens.length) :
    (tokens.take (t + 1)).reverse = tokens.getD t 0 :: (tokens.take t).reverse := by
  rw [List.take_add_one, List.getElem?_eq_getElem ht, Option.toList_some, List.reverse_append,
    List.getD_eq_getElem?_getD, List.getElem?_eq_getElem ht]
  rfl

/-- The third token that the stream shows at a position. -/
def thirdToken (tokens : List UInt32) (t : ℕ) : UInt32 :=
  if t ≤ 1 ∨ tokens.getD (t - 1) 0 = PLE_EOS then PLE_EOS else tokens.getD (t - 2) 0

/-- The row of the stream at a position inside it (`ht`) is computed from the token there and the
two before it, where separators stand in for those that are missing. -/
private theorem getElem?_rowsOf_real {t : ℕ} (ht : t < tokens.length) :
    (rowsOf PLE_EOS PLE_NGRAM_SIZE PleSpec.realRowids [PLE_EOS, PLE_EOS] tokens)[t]? =
      some (PleSpec.realRowids
        [tokens.getD t 0, if t = 0 then PLE_EOS else tokens.getD (t - 1) 0,
          thirdToken tokens t]) := by
  have hsep : ∀ x : UInt32, before PLE_EOS 1 [x, PLE_EOS, PLE_EOS] = PLE_EOS := fun _ => rfl
  have hself : ∀ (x y : UInt32) past, before PLE_EOS 1 (x :: y :: past) = y := by
    intro x y past
    rw [before_succ_cons_cons, before_zero_cons]
    split_ifs with h
    · exact h.symm
    · rfl
  rw [getElem?_rowsOf _ _ _ _ ht, reverse_take_succ ht]
  refine congrArg (fun column => some (PleSpec.realRowids column)) ?_
  -- the first two positions look back into the history, which is separators
  match t, ht with
  | 0, _ => exact lookBack_cons_eos _ _
  | 1, ht =>
    rw [reverse_take_succ (Nat.lt_of_succ_lt ht)]
    refine (lookBack_cons_cons _ _ _).trans ?_
    simp [hself, thirdToken]
  | t + 2, ht =>
    rw [reverse_take_succ (Nat.lt_of_succ_lt ht), reverse_take_succ (by omega)]
    refine (lookBack_cons_cons _ _ _).trans ?_
    simp [hself, thirdToken]

/-- At a position, the row that is written is the row of the stream iff the position is aligned. -/
theorem row_eq_iff {t : ℕ} (ht : t < tokens.length) :
    PleSpec.realRowids [tokens.getD (t - 2) 0, PLE_EOS, PLE_EOS] =
        PleSpec.realRowids
          [tokens.getD t 0, if t = 0 then PLE_EOS else tokens.getD (t - 1) 0, thirdToken tokens t] ↔
      (1 ≤ t → (t = 1 ∨ tokens.getD (t - 1) 0 = PLE_EOS ∨ tokens.getD (t - 2) 0 = PLE_EOS) ∧
        pairMix (tokens.getD t 0) (tokens.getD (t - 1) 0) =
          pairMix (tokens.getD (t - 2) 0) PLE_EOS) := by
  rcases Nat.eq_zero_or_pos t with rfl | hpos
  · exact iff_of_true (by simp [thirdToken]) fun h => absurd h (by decide)
  -- the third column is the separator at the start of a sequence, or behind one
  · have hthird : PLE_EOS = thirdToken tokens t ↔
        t = 1 ∨ tokens.getD (t - 1) 0 = PLE_EOS ∨ tokens.getD (t - 2) 0 = PLE_EOS := by
      rw [thirdToken]
      split_ifs with h
      · refine iff_of_true rfl (h.imp (fun h => by omega) .inl)
      · rw [not_or] at h
        constructor
        · exact fun heq => .inr (.inr heq.symm)
        · rintro (h1 | h1 | h1)
          · omega
          · exact absurd h1 h.2
          · exact h1.symm
    rw [realRowids_eq_iff, hthird, if_neg (Nat.ne_of_gt hpos),
      eq_comm (a := pairMix (tokens.getD (t - 2) 0) PLE_EOS)]
    exact ⟨fun h _ => h, fun h => h hpos⟩

/-- The lines of the sixteen row ids of a position. -/
theorem lines_unlines_slot {rows : List (List UInt32)} (hrows : ∀ row ∈ rows, row.length = 16)
    {t : ℕ} {row : List UInt32} (hrow : rows[t]? = some row) :
    ((Text.lines (Text.unlines (rows.flatten.map fun r => Nat.toDigits 10 r.toUInt64.toNat))).drop
        (t * 16)).take 16 = row.map fun r => Nat.toDigits 10 r.toNat := by
  have hnewline : ∀ line ∈ rows.flatten.map fun r => Nat.toDigits 10 r.toUInt64.toNat,
      '\n' ∉ line := by
    intro line hline
    obtain ⟨r, -, rfl⟩ := List.mem_map.mp hline
    exact Text.newline_notMem_toDigits _
  have hslot := slot_flatten hrows hrow
  rw [slot] at hslot
  rw [Text.lines_unlines hnewline, ← List.map_drop, ← List.map_take, hslot]
  simp only [UInt32.toNat_toUInt64]

theorem length_realRowids (column : List UInt32) : (PleSpec.realRowids column).length = 16 := by
  simp [PleSpec.realRowids, PLE_HEADS]

/-- The row ids of the stream, and the row of each position. -/
theorem rowidsForSeq_real (tokens : List UInt32) :
    ∃ table, PleSpec.real.rowidsForSeq (ε := ε) tokens = .ok table ∧
      table.length = tokens.length ∧ ∀ t < tokens.length, table[t]? = some (PleSpec.realRowids
        [tokens.getD t 0, if t = 0 then PLE_EOS else tokens.getD (t - 1) 0, thirdToken tokens t]) :=
  ⟨_, PleSpec.rowidsForSeqWithHistory_real _ tokens, length_rowsOf ..,
    fun _ => getElem?_rowsOf_real⟩

/-- If the lines of `prep` are the row ids, the stream is aligned. -/
theorem aligned_of_keysAreRowids (h : KeysAreRowids tokens) : Aligned tokens := by
  obtain ⟨table, text, htable, htext, hlines⟩ := h.prep
  obtain ⟨table', htable', -, hrow'⟩ := rowidsForSeq_real (ε := Empty) tokens
  obtain rfl := Except.ok.inj (htable'.symm.trans htable)
  rw [prepKeys, mapM_windowRow] at htext
  obtain rfl := Except.ok.inj htext
  intro t ht
  have hrow : ((List.range tokens.length).map fun t =>
      PleSpec.realRowids [tokens.getD (t - 2) 0, PLE_EOS, PLE_EOS])[t]? =
        some (PleSpec.realRowids [tokens.getD (t - 2) 0, PLE_EOS, PLE_EOS]) := by
    rw [List.getElem?_map, List.getElem?_range ht, Option.map_some]
  have hrows : ∀ row ∈ (List.range tokens.length).map fun t =>
      PleSpec.realRowids [tokens.getD (t - 2) 0, PLE_EOS, PLE_EOS], row.length = 16 := by
    intro row hmem
    obtain ⟨t, -, rfl⟩ := List.mem_map.mp hmem
    exact length_realRowids _
  -- the lines of the two rows are equal, so the rows are
  have heq := hlines t ht
  have hgetD : table'.getD t [] = _ := congrArg (Option.getD · []) (hrow' t ht)
  rw [lines_unlines_slot hrows hrow, hgetD] at heq
  refine (row_eq_iff ht).mp (List.map_injective_iff.mpr (fun x y hxy => ?_) heq)
  exact UInt32.toNat_inj.mp (Text.toDigits_injective hxy)

/-- If the stream is aligned, the rows that are written are its rows. -/
private theorem keysAreRowids_of_aligned (h : Aligned tokens) : KeysAreRowids tokens := by
  obtain ⟨table, htable, hlen, hrow⟩ := rowidsForSeq_real (ε := Empty) tokens
  have hall : ((List.range tokens.length).map fun t =>
      PleSpec.realRowids [tokens.getD (t - 2) 0, PLE_EOS, PLE_EOS]) = table := by
    apply List.ext_getElem?
    intro t
    rcases Nat.lt_or_ge t tokens.length with ht | ht
    · rw [List.getElem?_map, List.getElem?_range ht, Option.map_some, hrow t ht,
        (row_eq_iff ht).mpr (h t ht)]
    · rw [List.getElem?_eq_none (by simpa using ht), List.getElem?_eq_none (by omega)]
  have hrows : ∀ row ∈ table, row.length = 16 := by
    rw [← hall]
    intro row hmem
    obtain ⟨t, -, rfl⟩ := List.mem_map.mp hmem
    exact length_realRowids _
  refine ⟨⟨table, _, htable, by rw [prepKeys, mapM_windowRow, hall]; rfl, fun t ht => ?_⟩,
    table, htable, by rw [benchRealKeys, mapM_windowRow, hall]; rfl⟩
  have hgetD : table.getD t [] = _ := congrArg (Option.getD · []) (hrow t ht)
  rw [lines_unlines_slot hrows (hrow t ht), hgetD]
  rfl

end Windows

/-- The keys of `prep` and `bench-real` are the row ids of the stream iff it is aligned. -/
theorem keysAreRowids_iff (tokens : List UInt32) : KeysAreRowids tokens ↔ Aligned tokens :=
  ⟨aligned_of_keysAreRowids, keysAreRowids_of_aligned⟩

/-- A stream of separators is aligned. -/
example : Aligned [PLE_EOS, PLE_EOS, PLE_EOS] := by decide

/-- Of the stream `1, 2`, the second position is not aligned: its keys are those of the token
`1`. -/
theorem not_keysAreRowids_twoTokens : ¬ KeysAreRowids [1, 2] :=
  fun h => absurd (aligned_of_keysAreRowids h) (by decide)

end Cli

end EngramDB
