import EngramDB.Python.RealRows
import Mathlib.Data.Nat.Sqrt

/-!
# The numpy reference of the row ids

`scripts/ref_ple_hash.py` computes the row ids with signed 64-bit arrays, from which the golden
files of the other implementations are generated. An array is a list of integers; every product and
every sum of array entries wraps around to 64 bits.

* `getElem?_shiftRightIgnoreEos`: an array shifted to the right looks back from every position, as
  the lists of the other implementations do;
* `pleRowids_eq`: over the vocabulary nothing wraps around, and the rows are those of the stream
  that starts with two separators, except that no tokens give the rows of the two separators.
-/

namespace EngramDB

namespace RefPleHash

open Ngram

def EOS : ℤ := 248044
def NGramSize : ℕ := 3
def HEADS_PER : ℕ := 8
def HEADS : ℕ := 16
def BASE : ℕ := 20000000

/-- Primality by trial division with the odd numbers up to the square root. -/
def isPrime (v : ℕ) : Bool :=
  if v < 2 then false
  else if v % 2 = 0 then v = 2
  else (List.range' 3 ((v.sqrt - 1) / 2) 2).all fun d => v % d ≠ 0

/-- Table sizes of `n` heads: the primes from `BASE` on. -/
def headVocabSizes (n : ℕ) : List ℤ :=
  (List.range n).map fun i => (nthPrimeAfterBy isPrime (BASE - 1) (i + 1) : ℤ)

section Arrays

/-- The value of an `int64` after wrapping around. -/
def wrap64 (x : ℤ) : ℤ := x.bmod (2 ^ 64)

/-- `np.array(xs, dtype=np.int64)`: an entry that does not fit is an error. For the arrays without
an explicit type the model keeps to entries that fit, for which numpy picks the same type. -/
def int64Array (xs : List ℤ) : Py (List ℤ) :=
  if xs.all fun x => -2 ^ 63 ≤ x ∧ x < 2 ^ 63 then .ok xs else .error .overflowError

/-- `np.remainder`: the sign is that of the divisor, and a zero divisor gives zero. -/
def remainder (a b : ℤ) : ℤ := if b = 0 then 0 else a.fmod b

/-- The running maximum of `xs` and the entries before it, of which `last` is the largest. -/
def accumulateFrom (last : ℤ) : List ℤ → List ℤ
  | [] => []
  | x :: xs => max last x :: accumulateFrom (max last x) xs

/-- `np.maximum.accumulate`. -/
def maximumAccumulate : List ℤ → List ℤ
  | [] => []
  | x :: xs => x :: accumulateFrom x xs

/-- `np.concatenate(blocks, axis=-1)` for a list of matrices with the same number of rows. -/
def concatenateRows {α : Type} : List (List (List α)) → List (List α)
  | [] => []
  | [block] => block
  | block :: blocks => List.zipWith (· ++ ·) block (concatenateRows blocks)

end Arrays

/-- The entries of an array moved `shift` places to the right within their segments. -/
def shiftRightIgnoreEos (hist : List ℤ) (shift : ℕ) : List ℤ :=
  if shift = 0 then hist
  else
    let positions : List ℤ := (List.range hist.length).map Nat.cast
    let eosPos := List.zipWith (fun x p => if x = EOS then p else -1) hist positions
    let prevIncl := maximumAccumulate eosPos
    -- a separator belongs to the segment that it ends
    let prev := -1 :: prevIncl.dropLast
    let segStart := prev.map (· + 1)
    let posInSeg := List.zipWith (· - ·) positions segStart
    let srcPos := positions.map (· - (shift : ℤ))
    -- a source before the start is read at the start, and masked out below
    let gatherPos := srcPos.map (max · 0)
    let shifted := gatherPos.map fun p => hist.getD p.toNat 0
    let valid := List.zipWith (fun p src => decide ((shift : ℤ) ≤ p ∧ 0 ≤ src)) posInSeg srcPos
    List.zipWith (fun v x => if v then x else EOS) valid shifted

/-- The products of the shifted array `pos` with its multiplier. -/
def term (shifted : List (List ℤ)) (mult : List ℤ) (pos : ℕ) : Py (List ℤ) := do
  let row ← Py.item shifted pos
  let m ← Py.item mult pos
  pure (row.map fun x => wrap64 (x * m))

/-- The mixes of the first `ngram` shifted arrays. -/
def mixes (shifted : List (List ℤ)) (mult : List ℤ) (ngram : ℕ) : Py (List ℤ) := do
  let first ← term shifted mult 0
  (List.range' 1 (ngram - 1)).foldlM (fun mixed pos => do
    let t ← term shifted mult pos
    pure (List.zipWith Int.xor mixed t)) first

/-- The row ids of one position in the block of heads with the given sizes and offsets. -/
def blockRow (sizes offsets : List ℤ) (mixed : ℤ) : List ℤ :=
  List.zipWith (fun size off => wrap64 (remainder mixed size + off)) sizes offsets

/-- The row ids of an array of tokens that starts after two separators. -/
def pleRowids (tokens multipliers : List ℤ) (primeSizes : Option (List ℤ)) :
    Py (List (List ℤ)) := do
  let sizes ← int64Array (Py.orDefault primeSizes (headVocabSizes HEADS))
  let offsets := (runningOffsets sizes).map wrap64
  let mult ← int64Array multipliers
  let ctx := [EOS, EOS] ++ tokens
  let shifted := (List.range NGramSize).map (shiftRightIgnoreEos ctx)
  let blocks ← (List.range' 2 (NGramSize - 1)).mapM fun ngram => do
    let s0 := (ngram - 2) * HEADS_PER
    let mixed ← mixes shifted mult ngram
    pure (mixed.map (blockRow ((sizes.drop s0).take HEADS_PER) ((offsets.drop s0).take HEADS_PER)))
  pure (Py.lastItems (concatenateRows blocks) tokens.length)

section Primes

/-- The divisors of the trial division are the odd numbers from three to the square root. -/
private theorem mem_divisors {v d : ℕ} :
    d ∈ List.range' 3 ((v.sqrt - 1) / 2) 2 ↔ 3 ≤ d ∧ d % 2 = 1 ∧ d * d ≤ v := by
  rw [List.mem_range', ← Nat.le_sqrt]
  constructor
  · rintro ⟨i, hi, rfl⟩
    omega
  · rintro ⟨h3, hodd, hle⟩
    exact ⟨(d - 3) / 2, by omega, by omega⟩

/-- Both trial divisions decide primality. -/
private theorem isPrime_eq : isPrime = EngramDB.isPrime := by
  funext v
  rw [isPrime, EngramDB.isPrime]
  split_ifs with h2 heven
  · rfl
  · rfl
  · have hodd : v % 2 = 1 := by omega
    rw [Bool.eq_iff_iff, trialDivision_iff hodd v 3 (by omega) (by omega) (by nlinarith)]
    simp only [List.all_eq_true, mem_divisors, decide_eq_true_eq]
    constructor
    · rintro h e hle hsq ⟨q, rfl⟩
      have heodd : e % 2 = 1 := by
        rcases Nat.mod_two_eq_zero_or_one e with he | he
        · rw [Nat.mul_mod, he] at hodd
          simp at hodd
        · exact he
      exact h e ⟨hle, heodd, hsq⟩ (Nat.mul_mod_right e q)
    · rintro h d ⟨h3, -, hsq⟩ hmod
      exact h d h3 hsq (Nat.dvd_of_mod_eq_zero hmod)

theorem headVocabSizes_real : headVocabSizes HEADS = castColumn realPrimes := by
  rw [headVocabSizes, isPrime_eq]
  exact PleMath.headVocabSizes_real

end Primes

section Shift

/-- The running maximum of the separator positions is the record of the other implementations. -/
private theorem accumulateFrom_eosPos (hist : List ℤ) {i : ℕ} {last : ℤ} (hge : -1 ≤ last)
    (hlt : last < i) :
    accumulateFrom last
        (List.zipWith (fun x p => if x = EOS then p else -1) hist
          ((List.range' i hist.length).map Nat.cast)) =
      prevInclFrom EOS i last hist := by
  induction hist generalizing i last with
  | nil => rfl
  | cons x hist ih =>
    have hmax : max last (if x = EOS then (i : ℤ) else -1) = if x = EOS then (i : ℤ) else last := by
      split_ifs <;> omega
    rw [List.length_cons, List.range'_succ, List.map_cons, List.zipWith_cons_cons, accumulateFrom,
      hmax, prevInclFrom]
    congr 1
    refine ih ?_ ?_ <;> split_ifs <;> omega

private theorem maximumAccumulate_eosPos (hist : List ℤ) :
    maximumAccumulate (List.zipWith (fun x p => if x = EOS then p else -1) hist
      ((List.range hist.length).map Nat.cast)) = prevIncl EOS hist := by
  have hstart : ∀ xs : List ℤ, (∀ x ∈ xs, -1 ≤ x) →
      maximumAccumulate xs = accumulateFrom (-1) xs := by
    intro xs hxs
    cases xs with
    | nil => rfl
    | cons x xs => rw [maximumAccumulate, accumulateFrom, max_eq_right (hxs x (by simp))]
  rw [hstart, List.range_eq_range', prevIncl, accumulateFrom_eosPos hist (by omega) (by simp)]
  intro p hp
  obtain ⟨i, hi, rfl⟩ := List.mem_iff_getElem.mp hp
  rw [List.getElem_zipWith]
  split_ifs <;> simp

@[simp]
theorem length_prevInclFrom (hist : List ℤ) (i : ℕ) (last : ℤ) :
    (prevInclFrom EOS i last hist).length = hist.length := by
  induction hist generalizing i last with
  | nil => rfl
  | cons x hist ih => simp [prevInclFrom, ih]

/-- Shifting the record by one position gives the latest separator strictly before each position. -/
private theorem getElem_prev (hist : List ℤ) {i : ℕ}
    (hi : i < (-1 :: (prevIncl EOS hist).dropLast).length) :
    (-1 :: (prevIncl EOS hist).dropLast)[i] + 1 =
      if i = 0 then 0 else (prevIncl EOS hist).getD (i - 1) (-1) + 1 := by
  cases i with
  | zero => rfl
  | succ i =>
    have hlt : i < (prevIncl EOS hist).length := by
      simp only [List.length_cons, List.length_dropLast] at hi
      omega
    rw [List.getElem_cons_succ, List.getElem_dropLast, if_neg (Nat.succ_ne_zero i),
      Nat.add_sub_cancel, List.getD_eq_getElem?_getD, List.getElem?_eq_getElem hlt,
        Option.getD_some]

/-- Both shifts are the same. -/
private theorem shiftRightIgnoreEos_eq (hist : List ℤ) (shift : ℕ) :
    shiftRightIgnoreEos hist shift = EngramDB.shiftRightIgnoreEos hist shift EOS := by
  unfold shiftRightIgnoreEos EngramDB.shiftRightIgnoreEos
  split_ifs with h0
  · rfl
  · simp only [maximumAccumulate_eosPos]
    have hlen : (prevIncl EOS hist).length = hist.length := length_prevInclFrom hist 0 (-1)
    apply List.ext_getElem
    · simp only [List.length_zipWith, List.length_map, List.length_range, List.length_cons,
        List.length_dropLast, hlen]
      omega
    · intro i h1 h2
      have hi : i < hist.length := by simpa using h2
      simp only [List.getElem_zipWith, List.getElem_map, List.getElem_range, getElem_prev,
        decide_eq_true_eq]
      refine ite_congr rfl (fun hvalid => ?_) fun _ => rfl
      -- in a valid place the source lies in the array, where the default of the read is not used
      rw [max_eq_left hvalid.2, List.getD_eq_getElem?_getD, List.getD_eq_getElem?_getD,
        List.getElem?_eq_getElem (by omega)]
      rfl

end Shift

section Rows

/-- Nothing wraps around below `2 ^ 63` (`h`). -/
theorem wrap64_natCast {x : ℕ} (h : x < 2 ^ 63) : wrap64 (x : ℤ) = x :=
  Int.bmod_eq_of_le (by omega) (by omega)

/-- The mixes of three arrays of vocabulary tokens are the mixes on natural numbers. -/
private theorem mixes_natCast {N : ℕ} {a b c : ℕ → ℕ} (ha : ∀ i, a i < VOCAB_SIZE)
    (hb : ∀ i, b i < VOCAB_SIZE) (hc : ∀ i, c i < VOCAB_SIZE) {ngram : ℕ}
    (hngram : ngram = 2 ∨ ngram = 3) :
    mixes [(List.range N).map fun i => (a i : ℤ), (List.range N).map fun i => (b i : ℤ),
        (List.range N).map fun i => (c i : ℤ)] PleMath.DEFAULT_MULTIPLIERS ngram =
      .ok ((List.range N).map fun i =>
        ((exactMix realMultipliers ([a i, b i, c i].take ngram) : ℕ) : ℤ)) := by
  -- a product of a token and a multiplier is far from overflow
  have hterm : ∀ (t : ℕ → ℕ) (m : ℕ), (∀ i, t i < VOCAB_SIZE) → m ≤ 23703573157769 →
      (((List.range N).map fun i => (t i : ℤ)).map fun x => wrap64 (x * (m : ℤ))) =
        (List.range N).map fun i => ((t i * m : ℕ) : ℤ) := by
    intro t m ht hm
    rw [List.map_map]
    refine List.map_congr_left fun i _ => ?_
    have hle : t i * m ≤ 248319 * 23703573157769 :=
      Nat.mul_le_mul (Nat.le_of_lt_succ (ht i)) hm
    rw [Function.comp_apply, ← Nat.cast_mul]
    exact wrap64_natCast (by omega)
  have h0 := hterm a 23703573157769 ha (by omega)
  have h1 := hterm b 20109073645365 hb (by omega)
  have h2 := hterm c 8052911324071 hc (by omega)
  simp only [Nat.cast_ofNat] at h0 h1 h2
  rcases hngram with rfl | rfl
  · show Except.ok (List.zipWith Int.xor _ _) = _
    rw [h0, h1, List.zipWith_map, List.zipWith_self]
    refine congrArg _ (List.map_congr_left fun i _ => ?_)
    rw [xor_natCast]
    simp [exactMix, realMultipliers]
  · show Except.ok (List.zipWith Int.xor (List.zipWith Int.xor _ _) _) = _
    rw [h0, h1, h2, List.zipWith_map, List.zipWith_self, List.zipWith_map, List.zipWith_self]
    refine congrArg _ (List.map_congr_left fun i _ => ?_)
    rw [xor_natCast, xor_natCast, Nat.xor_assoc]
    simp [exactMix, realMultipliers]

/-- The row ids of a block of heads whose rows end below `2 ^ 63`. -/
private theorem blockRow_natCast {sizes offsets : List ℕ}
    (h : ∀ p ∈ sizes.zip offsets, 0 < p.1 ∧ p.1 + p.2 < 2 ^ 63) (mixed : ℕ) :
    blockRow (castColumn sizes) (castColumn offsets) (mixed : ℤ) =
      castColumn (List.zipWith (fun size off => mixed % size + off) sizes offsets) := by
  induction sizes generalizing offsets with
  | nil => rfl
  | cons size sizes ih =>
    cases offsets with
    | nil => rfl
    | cons off offsets =>
      obtain ⟨hpos, hlt⟩ := h (size, off) (by simp)
      have hmod : mixed % size < size := Nat.mod_lt mixed hpos
      have hhead : wrap64 (remainder (mixed : ℤ) (size : ℤ) + (off : ℤ)) =
          ((mixed % size + off : ℕ) : ℤ) := by
        rw [remainder, if_neg (by omega), Int.fmod_eq_emod_of_nonneg _ (by omega),
          ← Int.natCast_mod, ← Nat.cast_add]
        exact wrap64_natCast (by omega)
      have htail := @ih offsets fun p hp => h p (by simp [hp])
      simp only [blockRow, castColumn, List.map_cons, List.zipWith_cons_cons] at htail ⊢
      rw [hhead, htail]

/-- What a shifted array shows is what is seen looking back from every position. -/
theorem shiftRightIgnoreEos_natCast (hist : List ℕ) (shift : ℕ) :
    shiftRightIgnoreEos (castColumn hist) shift = (List.range hist.length).map fun pos =>
      ((before 248044 shift (hist.take (pos + 1)).reverse : ℕ) : ℤ) := by
  rw [shiftRightIgnoreEos_eq]
  apply List.ext_getElem?
  intro pos
  rcases Nat.lt_or_ge pos hist.length with hpos | hpos
  · rw [getElem?_shiftRightIgnoreEos (by simpa [castColumn] using hpos), List.getElem?_map,
      List.getElem?_range hpos, castColumn, ← List.map_take, ← List.map_reverse]
    exact congrArg _ (before_map Nat.cast_injective 248044 _ _)
  · rw [List.getElem?_eq_none (by simpa [castColumn] using hpos),
      List.getElem?_eq_none (by simpa using hpos)]

/-- Looking back over tokens of the vocabulary (`hvocab`) shows tokens of the vocabulary, the
separator included. -/
private theorem before_lt {past : List ℕ} (hvocab : ∀ t ∈ past, t < VOCAB_SIZE) (shift : ℕ) :
    before 248044 shift past < VOCAB_SIZE := by
  rcases before_mem 248044 shift past with h | h
  · rw [h]
    decide
  · exact hvocab _ h

/-- The block of an order: at every position, the remainders of the mix of what is seen looking back
from it. -/
private theorem block_natCast {hist : List ℕ} (hvocab : ∀ t ∈ hist, t < VOCAB_SIZE) {ngram : ℕ}
    (hngram : ngram ∈ List.range' 2 (NGramSize - 1)) :
    (do
      let mixed ← mixes ((List.range NGramSize).map (shiftRightIgnoreEos (castColumn hist)))
        PleMath.DEFAULT_MULTIPLIERS ngram
      pure (mixed.map (blockRow
        (((castColumn realPrimes).drop ((ngram - 2) * HEADS_PER)).take HEADS_PER)
        (((castColumn realOffsets).drop ((ngram - 2) * HEADS_PER)).take HEADS_PER)))) =
      Except.ok ((List.range hist.length).map fun pos => castColumn
        (List.zipWith (fun size off => exactMix realMultipliers
            ((lookBack 248044 NGramSize (hist.take (pos + 1)).reverse).take ngram) % size + off)
          ((realPrimes.drop ((ngram - 2) * HEADS_PER)).take HEADS_PER)
          ((realOffsets.drop ((ngram - 2) * HEADS_PER)).take HEADS_PER))) := by
  have hlt : ∀ shift pos, before 248044 shift (hist.take (pos + 1)).reverse < VOCAB_SIZE :=
    fun shift pos => before_lt
      (fun t ht => hvocab t (List.mem_of_mem_take (List.mem_reverse.mp ht))) shift
  -- a head size with its offset does not overflow either
  have hheads : ∀ ngram ∈ List.range' 2 (NGramSize - 1),
      ∀ p ∈ ((realPrimes.drop ((ngram - 2) * HEADS_PER)).take HEADS_PER).zip
        ((realOffsets.drop ((ngram - 2) * HEADS_PER)).take HEADS_PER),
        0 < p.1 ∧ p.1 + p.2 < 2 ^ 63 := by decide
  have hcases : ngram = 2 ∨ ngram = 3 := by
    simp only [List.mem_range'_1, NGramSize] at hngram
    omega
  have hshifted : (List.range NGramSize).map (shiftRightIgnoreEos (castColumn hist)) =
      [shiftRightIgnoreEos (castColumn hist) 0, shiftRightIgnoreEos (castColumn hist) 1,
        shiftRightIgnoreEos (castColumn hist) 2] := rfl
  -- the three shifted columns are the last three tokens before each position
  rw [hshifted, shiftRightIgnoreEos_natCast, shiftRightIgnoreEos_natCast,
    shiftRightIgnoreEos_natCast, mixes_natCast (hlt 0) (hlt 1) (hlt 2) hcases]
  refine congrArg Except.ok ?_
  rw [List.map_map]
  refine List.map_congr_left fun pos _ => ?_
  rw [Function.comp_apply, castColumn, castColumn, ← List.map_drop, ← List.map_take,
    ← List.map_drop, ← List.map_take]
  exact blockRow_natCast (hheads ngram hngram) _

/-- The row ids of an array of vocabulary tokens: the last rows among those of all positions of the
array and of the two separators before it. -/
theorem pleRowids_eq {tokens : List ℕ} (hvocab : ∀ t ∈ tokens, t < VOCAB_SIZE) :
    pleRowids (castColumn tokens) PleMath.DEFAULT_MULTIPLIERS none =
      .ok (Py.lastItems ((List.range ([248044, 248044] ++ tokens).length).map fun pos =>
        castColumn (realRow (lookBack 248044 NGramSize
          (([248044, 248044] ++ tokens).take (pos + 1)).reverse))) tokens.length) := by
  have hlen : (castColumn tokens).length = tokens.length := List.length_map ..
  have hcast : [EOS, EOS] ++ castColumn tokens = castColumn ([248044, 248044] ++ tokens) := rfl
  have hvocab' : ∀ t ∈ [248044, 248044] ++ tokens, t < VOCAB_SIZE := by
    intro t ht
    simp only [List.cons_append, List.nil_append, List.mem_cons] at ht
    rcases ht with rfl | rfl | ht
    · decide
    · decide
    · exact hvocab t ht
  have hsizes : int64Array (Py.orDefault none (headVocabSizes HEADS)) =
      .ok (castColumn realPrimes) := by
    show int64Array (headVocabSizes HEADS) = _
    rw [headVocabSizes_real]
    rfl
  -- the offsets are sums of the primes, which do not wrap
  have hoffsets : (runningOffsets (castColumn realPrimes)).map wrap64 = castColumn realOffsets := by
    decide
  have hmult : int64Array PleMath.DEFAULT_MULTIPLIERS = .ok PleMath.DEFAULT_MULTIPLIERS := rfl
  have hblocks := Except.mapM_eq_ok fun ngram => @block_natCast _ hvocab' ngram
  rw [pleRowids, hsizes, hmult, hcast, hlen]
  simp only [bind, Except.bind, hoffsets] at hblocks ⊢
  rw [hblocks]
  refine congrArg (fun rows => Except.ok (Py.lastItems rows tokens.length)) ?_
  -- one block for the bigrams and one for the trigrams, side by side
  show List.zipWith (· ++ ·) (List.map _ _) (List.map _ _) = _
  rw [List.zipWith_map, List.zipWith_self]
  refine List.map_congr_left fun pos _ => ?_
  exact (List.map_append ..).symm

end Rows

end RefPleHash

end EngramDB
