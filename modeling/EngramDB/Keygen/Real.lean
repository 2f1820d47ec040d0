import EngramDB.Keygen.Spec

/-!
# The real specification

The primes of the sixteen heads, the offsets they give, and the row of a column on natural numbers.

* `realSizes_eq`, `real_headOffsets`: the tables of `PleSpec.real`, and `real_grid`: the assertions
  of its constructor hold;
* `exactMix_lt`: over the vocabulary no product and no mix reaches `2 ^ 63`;
* `row_real`: the crate computes `realRow` whenever no product wraps around.
-/

namespace EngramDB

open Ngram

/-- The first sixteen primes from `PLE_BASE` on. -/
def realPrimes : List ℕ :=
  [20000003, 20000023, 20000033, 20000047, 20000059, 20000063, 20000069, 20000077, 20000081,
    20000093, 20000107, 20000147, 20000153, 20000159, 20000161, 20000171]

/-- The offsets of the sixteen heads: the running sums of the primes. -/
def realOffsets : List ℕ := List.scanl (· + ·) 0 realPrimes.dropLast

/-- Number of tokens in the vocabulary of the model. -/
def VOCAB_SIZE : ℕ := 248320

private theorem prime_of_mem_realPrimes {p : ℕ} (hp : p ∈ realPrimes) : p.Prime := by
  have hcop : Nat.Coprime realPrimes.prod (rangeProd 13 2 4471) := by decide +kernel
  have hbounds : ∀ p ∈ realPrimes, 20000003 ≤ p ∧ p ≤ 20000171 := by decide
  have hp' := hbounds p hp
  exact prime_of_coprime_rangeProd (by omega) (by decide) (by omega)
    (Nat.Coprime.coprime_dvd_left (List.dvd_prod hp) hcop)

private theorem isRun_realPrimes : IsRun (PLE_BASE - 1) realPrimes :=
  isRun_of_gapsChecked (fun _ hp => prime_of_mem_realPrimes hp) (by decide +kernel)

/-- The heads search for the primes of the list. -/
theorem map_nthPrimeAfter :
    (List.range PLE_HEADS).map (fun i => nthPrimeAfter (PLE_BASE - 1) (i + 1)) =
    realPrimes := by
  apply List.ext_getElem?
  intro i
  rcases Nat.lt_or_ge i 16 with hi | hi
  · have hp : realPrimes[i]? = some (realPrimes.getD i 0) := by
      rw [List.getD_eq_getElem?_getD, List.getElem?_eq_getElem (by exact hi)]
      rfl
    have hnth := @nthPrimeAfter_eq_of_isRun _ _ 0 isRun_realPrimes _ _ hp
    rw [List.getElem?_map, List.getElem?_range (by exact hi), Option.map_some, hp, ← hnth]
    simp only [Nat.zero_add]
  · rw [List.getElem?_eq_none (by simpa [PLE_HEADS] using hi),
      List.getElem?_eq_none (by simpa [realPrimes] using hi)]

namespace PleSpec

theorem realSizes_eq : realSizes = realPrimes.map UInt64.ofNat := by
  rw [← map_nthPrimeAfter, List.map_map]
  rfl

theorem real_headOffsets : real.headOffsets = realOffsets.map UInt64.ofNat := by
  rw [real, realSizes_eq]
  decide

private theorem real_divisors : real.divisors = realPrimes.map UInt64.ofNat := realSizes_eq

/-- The assertions of the constructor hold: the shards have as many rows as the padded table. -/
theorem real_grid : real.rowsPerShard * real.shards = real.padded ∧ real.padded = 320001536 := by
  have hpadded : real.padded = roundUp (realPrimes.map UInt64.ofNat).sum PLE_DIVISOR := by
    rw [← realSizes_eq]
    rfl
  rw [hpadded]
  decide

end PleSpec

/-- The multipliers as natural numbers. -/
def realMultipliers : List ℕ := [23703573157769, 20109073645365, 8052911324071]

/-- The mix of a column on natural numbers: the products of tokens and multipliers, xored. -/
def exactMix : List ℕ → List ℕ → ℕ
  | m :: ms, t :: ts => t * m ^^^ exactMix ms ts
  | _, _ => 0

/-- The row of a column on natural numbers. -/
def realRow (column : List ℕ) : List ℕ :=
  (List.range PLE_HEADS).map fun gi =>
    exactMix realMultipliers (column.take (2 + gi / PLE_HEADS_PER_NGRAM)) % realPrimes.getD gi 1 +
      realOffsets.getD gi 0

/-- A mix has no more bits than its largest product. -/
theorem exactMix_lt_two_pow {k bound : ℕ} (hbound : bound * 23703573157769 < 2 ^ k) {ms : List ℕ}
    (hms : ∀ m ∈ ms, m ≤ 23703573157769) {column : List ℕ} (hcolumn : ∀ t ∈ column, t ≤ bound) :
    exactMix ms column < 2 ^ k := by
  induction ms generalizing column with
  | nil => simp [exactMix]
  | cons m ms ih =>
    cases column with
    | nil => simp [exactMix]
    | cons t ts =>
      obtain ⟨ht, hts⟩ := List.forall_mem_cons.mp hcolumn
      obtain ⟨hm, hms'⟩ := List.forall_mem_cons.mp hms
      exact Nat.xor_lt_two_pow (Nat.lt_of_le_of_lt (Nat.mul_le_mul ht hm) hbound) (ih hms' hts)

/-- Over the vocabulary no product and no mix reaches `2 ^ 63`. -/
theorem exactMix_lt {ms : List ℕ} (hms : ∀ m ∈ ms, m ≤ 23703573157769) {column : List ℕ}
    (hcolumn : ∀ t ∈ column, t < VOCAB_SIZE) : exactMix ms column < 2 ^ 63 :=
  exactMix_lt_two_pow (by norm_num : 248319 * 23703573157769 < 2 ^ 63) hms
    fun t ht => Nat.le_of_lt_succ (hcolumn t ht)

/-- The tables have an entry for every head, and a head's rows end below `320001536`. -/
theorem real_heads : ∀ gi ∈ List.range PLE_HEADS,
    realPrimes[gi]? = some (realPrimes.getD gi 1) ∧
      realOffsets[gi]? = some (realOffsets.getD gi 0) ∧
      0 < realPrimes.getD gi 1 ∧ realPrimes.getD gi 1 + realOffsets.getD gi 0 < 320001536 := by
  decide

/-- Every row id of a head of the sixteen (`hgi`) lies in the padded table, whatever the mix of its
tokens is. -/
theorem headRow_lt {gi : ℕ} (hgi : gi ∈ List.range PLE_HEADS) (mixed : ℕ) :
    mixed % realPrimes.getD gi 1 + realOffsets.getD gi 0 < 320001536 := by
  obtain ⟨-, -, hpos, hlt⟩ := real_heads gi hgi
  have := Nat.mod_lt mixed hpos
  omega

namespace PleSpec

variable {ε : Type}

/-- The crate's mix is the mix on natural numbers, as far as no product wraps around. -/
theorem toNat_mix {a b c : UInt32} {ngramOrder : ℕ} (hngram : ngramOrder = 2 ∨ ngramOrder = 3)
    (hcolumn : ∀ t ∈ [a, b, c], t.toNat < VOCAB_SIZE) :
    (real.mix [a, b, c] ngramOrder).toNat =
      exactMix realMultipliers (([a, b, c].take ngramOrder).map UInt32.toNat) := by
  have hprod : ∀ t ∈ [a, b, c], ∀ m : UInt64, m.toNat ≤ 23703573157769 →
      (t.toUInt64 * m).toNat = t.toNat * m.toNat := by
    intro t ht m hm
    have hle : t.toNat * m.toNat ≤ 248319 * 23703573157769 :=
      Nat.mul_le_mul (Nat.le_of_lt_succ (hcolumn t ht)) hm
    rw [UInt64.toNat_mul, UInt32.toNat_toUInt64]
    exact Nat.mod_eq_of_lt (by omega)
  have h0 := hprod a (by simp) 23703573157769 (by decide)
  have h1 := hprod b (by simp) 20109073645365 (by decide)
  have h2 := hprod c (by simp) 8052911324071 (by decide)
  rcases hngram with rfl | rfl
  · show (a.toUInt64 * 23703573157769 ^^^ b.toUInt64 * 20109073645365).toNat = _
    rw [UInt64.toNat_xor, h0, h1]
    simp [exactMix, realMultipliers]
  · show (a.toUInt64 * 23703573157769 ^^^ b.toUInt64 * 20109073645365 ^^^
      c.toUInt64 * 8052911324071).toNat = _
    rw [UInt64.toNat_xor, UInt64.toNat_xor, h0, h1, h2]
    simp [exactMix, realMultipliers, Nat.xor_assoc]

/-- The row id of head `gi` for a mix. -/
def realRowid (mixed : UInt64) (gi : ℕ) : UInt32 :=
  UInt32.ofNat (mixed.toNat % realPrimes.getD gi 1 + realOffsets.getD gi 0)

/-- The cast of the row of a head (`hgi`) to 32 bits loses nothing, for the row lies in the
table. -/
theorem toNat_realRowid (mixed : UInt64) {gi : ℕ} (hgi : gi ∈ List.range PLE_HEADS) :
    (realRowid mixed gi).toNat =
      mixed.toNat % realPrimes.getD gi 1 + realOffsets.getD gi 0 := by
  have hlt := headRow_lt hgi mixed.toNat
  rw [realRowid, UInt32.toNat_ofNat']
  exact Nat.mod_eq_of_lt (by omega)

/-- The crate reduces a mix by the prime of the head and adds the offset of the head. -/
theorem rowid_real (mixed : UInt64) {gi : ℕ} (hgi : gi ∈ List.range PLE_HEADS) :
    real.rowid (ε := ε) mixed gi = .ok (realRowid mixed gi) := by
  obtain ⟨hprime, hoffset, hpos, hbound⟩ := real_heads gi hgi
  have hlt := headRow_lt hgi mixed.toNat
  have hsize : (UInt64.ofNat (realPrimes.getD gi 1)).toNat = realPrimes.getD gi 1 := by
    rw [UInt64.toNat_ofNat']
    exact Nat.mod_eq_of_lt (by omega)
  have hoff : (UInt64.ofNat (realOffsets.getD gi 0)).toNat = realOffsets.getD gi 0 := by
    rw [UInt64.toNat_ofNat']
    exact Nat.mod_eq_of_lt (by omega)
  -- the sum is a row of the table, so neither the word nor the cast wraps
  have hsum : (mixed % UInt64.ofNat (realPrimes.getD gi 1) +
      UInt64.ofNat (realOffsets.getD gi 0)).toUInt32 = realRowid mixed gi := by
    apply UInt32.toNat_inj.mp
    rw [toNat_realRowid mixed hgi, UInt64.toNat_toUInt32, UInt64.toNat_add, UInt64.toNat_mod, hsize,
      hoff, Nat.mod_eq_of_lt (by omega : _ < 2 ^ 64), Nat.mod_eq_of_lt (by omega)]
  have hne : UInt64.ofNat (realPrimes.getD gi 1) ≠ 0 := by
    intro h
    rw [h] at hsize
    exact hpos.ne hsize
  have hidx₁ : (Outcome.index real.divisors gi : Outcome ε _) =
      .ok (UInt64.ofNat (realPrimes.getD gi 1)) :=
    Outcome.index_eq_ok (by rw [real_divisors, List.getElem?_map, hprime]; rfl)
  have hidx₂ : (Outcome.index real.headOffsets gi : Outcome ε _) =
      .ok (UInt64.ofNat (realOffsets.getD gi 0)) :=
    Outcome.index_eq_ok (by rw [real_headOffsets, List.getElem?_map, hoffset]; rfl)
  simp only [rowid, hidx₁, hidx₂, bind, Except.bind, if_neg hne]
  rw [← hsum]
  rfl

/-- The sixteen row ids of a column. -/
def realRowids (column : List UInt32) : List UInt32 :=
  (List.range PLE_HEADS).map fun gi =>
    realRowid (real.mix column (2 + gi / PLE_HEADS_PER_NGRAM)) gi

/-- Every column has its row. -/
theorem row_real (column : List UInt32) :
    real.row (ε := ε) column = .ok (realRowids column) := by
  have hblock : ∀ ngramOrder ∈ [2, 3],
      ((List.range PLE_HEADS_PER_NGRAM).mapM fun h => real.rowid (ε := ε)
        (real.mix column ngramOrder) ((ngramOrder - 2) * PLE_HEADS_PER_NGRAM + h)) =
      .ok ((List.range PLE_HEADS_PER_NGRAM).map fun h =>
        realRowid (real.mix column ngramOrder) ((ngramOrder - 2) * PLE_HEADS_PER_NGRAM + h)) := by
    intro ngramOrder hngram
    refine Except.mapM_eq_ok fun h hh => rowid_real _ ?_
    simp only [List.mem_cons, List.not_mem_nil, or_false] at hngram
    simp only [List.mem_range, PLE_HEADS_PER_NGRAM, PLE_HEADS] at hh ⊢
    rcases hngram with rfl | rfl <;> omega
  rw [row, Except.mapM_eq_ok hblock]
  rfl

/-- The rows of every sequence are computed. -/
theorem rowidsForSeqWithHistory_real (history tokens : List UInt32) :
    real.rowidsForSeqWithHistory (ε := ε) history tokens =
      .ok (rowsOf PLE_EOS PLE_NGRAM_SIZE realRowids history tokens) := by
  rw [rowidsForSeqWithHistory_eq]
  exact rowsFrom_eq_of_ok (fun _ => row_real _) history tokens

/-- Over the vocabulary, the row of a column is the row on natural numbers. -/
theorem map_toNat_realRowids {a b c : UInt32} (hcolumn : ∀ t ∈ [a, b, c], t.toNat < VOCAB_SIZE) :
    (realRowids [a, b, c]).map UInt32.toNat = realRow [a.toNat, b.toNat, c.toNat] := by
  rw [realRowids, realRow, List.map_map]
  refine List.map_congr_left fun gi hgi => ?_
  have hngram : 2 + gi / PLE_HEADS_PER_NGRAM = 2 ∨ 2 + gi / PLE_HEADS_PER_NGRAM = 3 := by
    simp only [List.mem_range, PLE_HEADS, PLE_HEADS_PER_NGRAM] at hgi ⊢
    omega
  rw [Function.comp_apply, toNat_realRowid _ hgi, toNat_mix hngram hcolumn, List.map_take]
  rfl

end PleSpec

end EngramDB
