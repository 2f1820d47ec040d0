import EngramDB.Keygen.Real
import EngramDB.Python.Rowids

/-!
# Row ids of the Python modules with their defaults

With the default table sizes, the Python modules compute `realRow` for every column of natural
numbers: their integers are unbounded, so nothing depends on the vocabulary
(`PleMath.pleRowids_real`).
-/

namespace EngramDB

open Ngram

/-- A column of natural numbers as Python integers. -/
def castColumn (column : List ℕ) : List ℤ := column.map Nat.cast

theorem getD_castColumn (column : List ℕ) (i : ℕ) :
    (castColumn column).getD i 0 = ((column.getD i 0 : ℕ) : ℤ) := by
  rw [castColumn, List.getD_eq_getElem?_getD, List.getD_eq_getElem?_getD, List.getElem?_map]
  cases column[i]?
  · rfl
  · rfl

theorem xor_natCast (m n : ℕ) : Int.xor (m : ℤ) (n : ℤ) = ((m ^^^ n : ℕ) : ℤ) := rfl

/-- The mix of natural numbers is the mix on natural numbers. -/
private theorem pleMix_natCast {a b c : ℕ} {ngram : ℕ} (hngram : ngram = 2 ∨ ngram = 3) :
    pleMix PleMath.DEFAULT_MULTIPLIERS (castColumn [a, b, c]) ngram =
      .ok ((exactMix realMultipliers ([a, b, c].take ngram) : ℕ) : ℤ) := by
  have hprod : ∀ t m : ℕ, (t : ℤ) * (m : ℤ) = ((t * m : ℕ) : ℤ) :=
    fun t m => (Nat.cast_mul t m).symm
  rcases hngram with rfl | rfl
  · show Except.ok
      (Int.xor ((a : ℤ) * ((23703573157769 : ℕ) : ℤ)) (b * ((20109073645365 : ℕ) : ℤ))) = _
    rw [hprod, hprod, xor_natCast]
    simp [exactMix, realMultipliers]
  · show Except.ok (Int.xor (Int.xor ((a : ℤ) * ((23703573157769 : ℕ) : ℤ))
      (b * ((20109073645365 : ℕ) : ℤ))) (c * ((8052911324071 : ℕ) : ℤ))) = _
    rw [hprod, hprod, hprod, xor_natCast, xor_natCast]
    simp [exactMix, realMultipliers, Nat.xor_assoc]

section Offsets

variable {offsets : List ℤ}

/-- A row id is the remainder of the mix by the prime of the head, plus the offset of the head. -/
private theorem pleHead_offsets (mixed : ℕ) {h : ℕ} (hh : h ∈ List.range PLE_HEADS) :
    pleHead (castColumn realPrimes) offsets (mixed : ℤ) h =
      (Py.item offsets h).map fun off => ((mixed % realPrimes.getD h 1 : ℕ) : ℤ) + off := by
  obtain ⟨hprime, -, hpos, -⟩ := real_heads h hh
  have hsize : Py.item (castColumn realPrimes) h = .ok ((realPrimes.getD h 1 : ℕ) : ℤ) :=
    Py.item_eq_ok (by rw [castColumn, List.getElem?_map, hprime]; rfl)
  have hne : ((realPrimes.getD h 1 : ℕ) : ℤ) ≠ 0 := by omega
  have hmod : ((mixed : ℤ)).fmod (realPrimes.getD h 1 : ℕ) =
      ((mixed % realPrimes.getD h 1 : ℕ) : ℤ) := by
    rw [Int.fmod_eq_emod_of_nonneg _ (by omega), Int.natCast_mod]
  simp only [pleHead, hsize, Py.mod, if_neg hne, hmod, bind, Except.bind]
  cases Py.item offsets h
  · rfl
  · rfl

/-- The heads of the n-grams of one length, two or three (`hngram`), are among the sixteen. -/
theorem mem_range_heads {ngram h : ℕ} (hngram : ngram = 2 ∨ ngram = 3)
    (hh : h ∈ List.range' ((ngram - 2) * PLE_HEADS_PER_NGRAM) PLE_HEADS_PER_NGRAM) :
    h ∈ List.range PLE_HEADS := by
  simp only [List.mem_range'_1, List.mem_range, PLE_HEADS_PER_NGRAM, PLE_HEADS] at hh ⊢
  rcases hngram with rfl | rfl <;> omega

/-- The row ids of the heads of one n-gram length (`hngram`), as the loop of the source computes
them. -/
theorem pleBlock_offsets (a b c : ℕ) {ngram : ℕ} (hngram : ngram = 2 ∨ ngram = 3) :
    (do
      let mixed ← pleMix PleMath.DEFAULT_MULTIPLIERS (castColumn [a, b, c]) ngram
      (List.range' ((ngram - 2) * PLE_HEADS_PER_NGRAM) PLE_HEADS_PER_NGRAM).mapM
        (pleHead (castColumn realPrimes) offsets mixed)) =
      (List.range' ((ngram - 2) * PLE_HEADS_PER_NGRAM) PLE_HEADS_PER_NGRAM).mapM fun h =>
        (Py.item offsets h).map fun off =>
          ((exactMix realMultipliers ([a, b, c].take ngram) % realPrimes.getD h 1 : ℕ) : ℤ) +
            off := by
  rw [pleMix_natCast hngram]
  exact Except.mapM_congr fun h hh => pleHead_offsets _ (mem_range_heads hngram hh)

/-- With an offset for every head, the row of a column of natural numbers. -/
theorem pleRow_offsets (hlen : PLE_HEADS ≤ offsets.length) (a b c : ℕ) :
    pleRow PleMath.DEFAULT_MULTIPLIERS (castColumn realPrimes) offsets PLE_NGRAM_SIZE
        PLE_HEADS_PER_NGRAM (castColumn [a, b, c]) =
      .ok ((List.range PLE_HEADS).map fun h =>
        ((exactMix realMultipliers ([a, b, c].take (2 + h / PLE_HEADS_PER_NGRAM)) %
          realPrimes.getD h 1 : ℕ) : ℤ) + offsets.getD h 0) := by
  have hitem : ∀ h ∈ List.range PLE_HEADS, Py.item offsets h = .ok (offsets.getD h 0) := by
    intro h hh
    have hlt : h < offsets.length := Nat.lt_of_lt_of_le (List.mem_range.mp hh) hlen
    apply Py.item_eq_ok
    rw [List.getD_eq_getElem?_getD, List.getElem?_eq_getElem hlt, Option.getD_some]
  -- the heads of one order; the loop over the orders puts the blocks together
  have hblock : ∀ ngram ∈ List.range' 2 (PLE_NGRAM_SIZE - 1), (do
      let mixed ← pleMix PleMath.DEFAULT_MULTIPLIERS (castColumn [a, b, c]) ngram
      (List.range' ((ngram - 2) * PLE_HEADS_PER_NGRAM) PLE_HEADS_PER_NGRAM).mapM
        (pleHead (castColumn realPrimes) offsets mixed)) =
      .ok ((List.range' ((ngram - 2) * PLE_HEADS_PER_NGRAM) PLE_HEADS_PER_NGRAM).map fun h =>
        ((exactMix realMultipliers ([a, b, c].take ngram) % realPrimes.getD h 1 : ℕ) : ℤ) +
          offsets.getD h 0) := by
    intro ngram hngram
    have hcases : ngram = 2 ∨ ngram = 3 := by
      simp only [List.mem_range'_1, PLE_NGRAM_SIZE] at hngram
      omega
    rw [pleBlock_offsets a b c hcases]
    refine Except.mapM_eq_ok fun h hh => ?_
    rw [hitem h (mem_range_heads hcases hh)]
    rfl
  rw [pleRow, Except.mapM_eq_ok hblock]
  rfl

end Offsets

/-- The row of a column of natural numbers. -/
private theorem pleRow_natCast (a b c : ℕ) :
    pleRow PleMath.DEFAULT_MULTIPLIERS (castColumn realPrimes) (castColumn realOffsets)
        PLE_NGRAM_SIZE PLE_HEADS_PER_NGRAM (castColumn [a, b, c]) =
      .ok (castColumn (realRow [a, b, c])) := by
  rw [pleRow_offsets (by decide)]
  refine congrArg Except.ok ?_
  unfold castColumn realRow
  rw [List.map_map]
  refine List.map_congr_left fun h hh => ?_
  exact (congrArg _ (getD_castColumn realOffsets h)).trans (Nat.cast_add _ _).symm

namespace PleMath

theorem headVocabSizes_real : headVocabSizes PLE_BASE PLE_HEADS = castColumn realPrimes := by
  rw [castColumn, ← map_nthPrimeAfter, List.map_map]
  rfl

theorem headOffsets_real : headOffsets (some (castColumn realPrimes)) = castColumn realOffsets := by
  decide

/-- With the defaults, the row function is `realRow`. -/
theorem rowOf_real (a b c : ℕ) :
    rowOf DEFAULT_MULTIPLIERS none none PLE_NGRAM_SIZE PLE_HEADS_PER_NGRAM (castColumn [a, b, c]) =
      .ok (castColumn (realRow [a, b, c])) := by
  have hsizes : Py.orDefault none (headVocabSizes PLE_BASE PLE_HEADS) = castColumn realPrimes :=
    headVocabSizes_real
  rw [rowOf, hsizes, headOffsets_real]
  exact pleRow_natCast a b c

end PleMath

end EngramDB
