import EngramDB.Keygen.Search

/-!
# The bucket layout of the V4.1 hash tables

A position is hashed as one n-gram for every size from two on, each split over heads, and every
(layer, n-gram size, head) has a bucket range of its own prime size. `EngramLayout.from_args` draws
the primes in order: every n-gram size starts again at the vocabulary size, and a prime that was
handed out before is passed over. `isprime` is the test of the `sympy` package.

* `collect_eq`: what a counted loop collects, from what one round does;
* `findNextPrime_isLeast`: the search finds the least unused prime;
* `primes_eq`, `flatten_primes_eq`: read in order, the moduli are the successive primes from the
  vocabulary size on;
* `moduli_distinct`: no two heads of any layers share a modulus.
-/

namespace EngramDB

namespace V41

/-! ### Counted loops -/

section Collect

variable {σ α : Type}

/-- The results of `count` rounds of a loop and the state after them. -/
def collect (round : σ → α × σ) : ℕ → σ → List α × σ
  | 0, s => ([], s)
  | count + 1, s =>
    let (a, s) := round s
    let (as, s) := collect round count s
    (a :: as, s)

/-- When the round that starts in the `k`-th kind of state gives the `k`-th result and leads to the
next kind of state, the loop collects the results in order. -/
theorem collect_eq {round : σ → α × σ} {At : ℕ → σ → Prop} {out : ℕ → α}
    (hround : ∀ k s, At k s → (round s).1 = out k ∧ At (k + 1) (round s).2) (count : ℕ) {k : ℕ}
    {s : σ} (hs : At k s) :
    (collect round count s).1 = (List.range' k count).map out ∧
      At (k + count) (collect round count s).2 := by
  induction count generalizing k s with
  | zero => exact ⟨rfl, hs⟩
  | succ count ih =>
    obtain ⟨hout, hnext⟩ := hround k s hs
    obtain ⟨hrest, hlast⟩ := ih hnext
    rw [Nat.add_right_comm] at hlast
    refine ⟨?_, hlast⟩
    show (round s).1 :: (collect round count (round s).2).1 = _
    rw [hout, hrest, List.range'_succ, List.map_cons]

end Collect

/-! ### The search for unused primes -/

/-- `find_next_prime`: the smallest prime above `start` that has not been handed out yet. There is a
prime between a number and its double, so the search ends before the double of all of them. -/
def findNextPrime (isprime : ℕ → Bool) (start : ℕ) (seenPrimes : List ℕ) : ℕ :=
  seekPrime (fun candidate => isprime candidate && !seenPrimes.contains candidate)
    (2 * ((start :: seenPrimes).foldr max 0 + 1)) (start + 1)

/-- The test decides primality. -/
def DecidesPrimes (isprime : ℕ → Bool) : Prop := ∀ n, isprime n = true ↔ n.Prime

/-- Trial division decides primality. -/
theorem decidesPrimes_isPrime : DecidesPrimes isPrime := fun _ => isPrime_iff

/-- With enough rounds the search stops at the first number from `p` on that passes the test. -/
private theorem seekPrime_isLeast {test : ℕ → Bool} {q : ℕ} (hq : test q = true) {fuel p : ℕ}
    (hpq : p ≤ q)
    (hfuel : q < p + fuel) : IsLeast {r | p ≤ r ∧ test r = true} (seekPrime test fuel p) := by
  induction fuel generalizing p with
  | zero => omega
  | succ fuel ih =>
    rw [seekPrime]
    split_ifs with hp
    · exact ⟨⟨Nat.le_refl p, hp⟩, fun r hr => hr.1⟩
    · have hne : p ≠ q := fun h => hp (h ▸ hq)
      have hnext : p + 1 ≤ q := by omega
      obtain ⟨⟨hle, htest⟩, hleast⟩ := ih hnext (by omega)
      refine ⟨⟨by omega, htest⟩, fun r hr => ?_⟩
      have hpr : p ≠ r := fun h => hp (h ▸ hr.2)
      have := hr.1
      exact hleast ⟨by omega, hr.2⟩

/-- A number of a list is at most the maximum of the list. -/
theorem le_foldr_max {x : ℕ} {l : List ℕ} (h : x ∈ l) : x ≤ l.foldr max 0 := by
  induction l with
  | nil => exact absurd h List.not_mem_nil
  | cons y l ih =>
    rw [List.foldr_cons]
    rcases List.mem_cons.mp h with rfl | h
    · exact Nat.le_max_left _ _
    · exact (ih h).trans (Nat.le_max_right _ _)

/-- The search finds the least prime above `start` that is not in use. -/
theorem findNextPrime_isLeast {isprime : ℕ → Bool} (hprime : DecidesPrimes isprime) (start : ℕ)
    (seenPrimes : List ℕ) :
    IsLeast {q | PrimeAfter start q ∧ q ∉ seenPrimes}
      (findNextPrime isprime start seenPrimes) := by
  set bound := (start :: seenPrimes).foldr max 0
  obtain ⟨q, hq, hlt, hle⟩ := Nat.exists_prime_lt_and_le_two_mul (bound + 1) (Nat.succ_ne_zero _)
  have hstart : start ≤ bound := le_foldr_max List.mem_cons_self
  have hunused : q ∉ seenPrimes := fun h => by
    have := le_foldr_max (List.mem_cons_of_mem start h)
    omega
  have htest : (isprime q && !seenPrimes.contains q) = true := by
    simp [(hprime q).mpr hq, hunused]
  have hleast : IsLeast _ (findNextPrime isprime start seenPrimes) :=
    seekPrime_isLeast htest (by omega) (by omega)
  -- the two ways of saying which numbers are looked for
  have hset : {r | start + 1 ≤ r ∧ (isprime r && !seenPrimes.contains r) = true} =
      {q | PrimeAfter start q ∧ q ∉ seenPrimes} := by
    ext r
    simp [PrimeAfter, hprime r, and_assoc]
  rw [hset] at hleast
  exact hleast

/-! ### The layout -/

/-- The arguments of the model that the layout and the hash state are made of. -/
structure EngramArgs where
  engramLayerIds : List ℕ
  engramMaxNgramSize : ℕ
  engramNHeads : ℕ
  engramVocabSize : ℕ
  engramNumEmbeddings : List ℕ
  engramHeadDim : ℕ
  engramCompressedVocabSize : ℕ
  engramPadId : ℕ
  maxBatchSize : ℕ
  maxSeqLen : ℕ
deriving DecidableEq, Repr

/-- `EngramLayout`: the bucket layout of the n-gram hash tables. -/
structure EngramLayout where
  maxNgramSize : ℕ
  layerIds : List ℕ
  /-- The rows of every layer's table. -/
  numEmbeddings : List ℕ
  /-- The bucket moduli of every layer, by n-gram size and head. -/
  primes : List (List (List ℕ))
  nHeads : ℕ
  headDim : ℕ
deriving DecidableEq, Repr

/-- The next head: the prime above the one before it, which is handed out. -/
def headRound (isprime : ℕ → Bool) : ℕ × List ℕ → ℕ × ℕ × List ℕ
  | (current, seen) =>
    let current := findNextPrime isprime current seen
    (current, current, current :: seen)

/-- The heads of one n-gram size. The search starts at the vocabulary size again, where a vocabulary
size of zero looks for the primes from zero on, which are the same ones. -/
def ngramRound (isprime : ℕ → Bool) (args : EngramArgs) (seen : List ℕ) : List ℕ × List ℕ :=
  let (sizes, _, seen) :=
    collect (headRound isprime) args.engramNHeads (args.engramVocabSize - 1, seen)
  (sizes, seen)

/-- The n-gram sizes of one layer. -/
def layerRound (isprime : ℕ → Bool) (args : EngramArgs) (seen : List ℕ) :
    List (List ℕ) × List ℕ :=
  collect (ngramRound isprime args) (args.engramMaxNgramSize - 1) seen

/-- The moduli of all layers. -/
def layoutPrimes (isprime : ℕ → Bool) (args : EngramArgs) : List (List (List ℕ)) :=
  (collect (layerRound isprime args) args.engramLayerIds.length []).1

/-- `EngramLayout.from_args`. -/
def EngramLayout.fromArgs (isprime : ℕ → Bool) (args : EngramArgs) : Option EngramLayout :=
  if args.engramLayerIds = [] then none
  else some {
    maxNgramSize := args.engramMaxNgramSize
    layerIds := args.engramLayerIds
    numEmbeddings := args.engramNumEmbeddings
    primes := layoutPrimes isprime args
    nHeads := args.engramNHeads
    headDim := args.engramHeadDim }

section Draws

variable {isprime : ℕ → Bool} {base : ℕ}

/-- The first `k` primes above `base` are in use. -/
def Used (base k : ℕ) (seen : List ℕ) : Prop :=
  ∀ q, q ∈ seen ↔ ∃ i < k, q = nthPrimeAfter base (i + 1)

/-- Before the first head no prime is used. -/
private theorem used_zero (base : ℕ) : Used base 0 [] := fun q => by simp

/-- Every number of the enumeration is a prime after the base. -/
theorem primeAfter_nthPrimeAfter (base i : ℕ) : PrimeAfter base (nthPrimeAfter base (i + 1)) := by
  obtain ⟨hprime, -, -⟩ := nthPrimeAfter_succ_spec base i
  exact ⟨nthPrimeAfter_strictMono base (Nat.succ_pos i), hprime⟩

/-- The primes above `base` (`hq`) are the values of `nthPrimeAfter`, which skips none. -/
theorem exists_of_primeAfter {q : ℕ} (hq : PrimeAfter base q) :
    ∃ i, q = nthPrimeAfter base (i + 1) := by
  have hmem : q ∈ Set.range (Nat.nth (PrimeAfter base)) := by
    rw [Nat.range_nth_of_infinite (infinite_primeAfter base)]
    exact hq
  obtain ⟨i, hi⟩ := hmem
  exact ⟨i, by rw [nthPrimeAfter_eq_nth, hi]⟩

/-- From a start that no unused prime has reached, the search finds the next prime in order. -/
private theorem findNextPrime_eq (hprime : DecidesPrimes isprime) {k current : ℕ} {seen : List ℕ}
    (hused : Used base k seen) (hle : base ≤ current)
    (hlt : current < nthPrimeAfter base (k + 1)) :
    findNextPrime isprime current seen = nthPrimeAfter base (k + 1) := by
  have hmono := nthPrimeAfter_strictMono base
  refine (findNextPrime_isLeast hprime current seen).unique ⟨⟨⟨hlt, ?_⟩, fun hmem => ?_⟩, ?_⟩
  · exact (primeAfter_nthPrimeAfter base k).2
  · obtain ⟨i, hi, heq⟩ := (hused _).mp hmem
    have := hmono.injective heq
    omega
  · rintro q ⟨⟨hcurrent, hq⟩, hunused⟩
    have hafter : PrimeAfter base q := ⟨by omega, hq⟩
    obtain ⟨i, rfl⟩ := exists_of_primeAfter hafter
    refine hmono.monotone ?_
    by_contra hcon
    exact hunused ((hused _).mpr ⟨i, by omega, rfl⟩)

/-- When head `k` has used the first `k` primes after the base, the next one uses the prime
behind. -/
theorem Used.cons {k : ℕ} {seen : List ℕ} (h : Used base k seen) :
    Used base (k + 1) (nthPrimeAfter base (k + 1) :: seen) := by
  intro q
  rw [List.mem_cons, h q]
  constructor
  · rintro (rfl | ⟨i, hi, rfl⟩)
    · exact ⟨k, Nat.lt_succ_self k, rfl⟩
    · exact ⟨i, by omega, rfl⟩
  · rintro ⟨i, hi, rfl⟩
    rcases Nat.lt_succ_iff_lt_or_eq.mp hi with hi | rfl
    · exact .inr ⟨i, hi, rfl⟩
    · exact .inl rfl

/-- The state of the search before the `k`-th head. -/
def AtHead (base k : ℕ) (s : ℕ × List ℕ) : Prop :=
  Used base k s.2 ∧ base ≤ s.1 ∧ s.1 < nthPrimeAfter base (k + 1)

/-- With a test that decides primality, round `k` of the heads of an order takes the next prime
after the base that is not used yet, and leaves the state of the next round. -/
theorem headRound_spec (hprime : DecidesPrimes isprime) (k : ℕ) (s : ℕ × List ℕ)
    (hs : AtHead base k s) :
    (headRound isprime s).1 = nthPrimeAfter base (k + 1) ∧
      AtHead base (k + 1) (headRound isprime s).2 := by
  obtain ⟨current, seen⟩ := s
  obtain ⟨hused, hle, hlt⟩ := hs
  have hnext := findNextPrime_eq hprime hused hle hlt
  simp only [headRound, hnext]
  refine ⟨trivial, hused.cons, ?_, nthPrimeAfter_strictMono base (Nat.lt_succ_self _)⟩
  exact (primeAfter_nthPrimeAfter base k).1.le

variable {args : EngramArgs}

/-- One n-gram size takes the next primes, one for each head. -/
theorem ngramRound_spec (hprime : DecidesPrimes isprime) (j : ℕ) (seen : List ℕ)
    (hs : Used (args.engramVocabSize - 1) (j * args.engramNHeads) seen) :
    (ngramRound isprime args seen).1 = (List.range args.engramNHeads).map (fun head =>
        nthPrimeAfter (args.engramVocabSize - 1) (j * args.engramNHeads + head + 1)) ∧
      Used (args.engramVocabSize - 1) ((j + 1) * args.engramNHeads)
        (ngramRound isprime args seen).2 := by
  have hstart : AtHead (args.engramVocabSize - 1) (j * args.engramNHeads)
      (args.engramVocabSize - 1, seen) :=
    ⟨hs, Nat.le_refl _, (primeAfter_nthPrimeAfter _ _).1⟩
  obtain ⟨hout, hused, -⟩ := collect_eq (headRound_spec hprime) args.engramNHeads hstart
  refine ⟨?_, ?_⟩
  · refine hout.trans ?_
    rw [List.range'_eq_map_range, List.map_map]
    rfl
  · rw [Nat.succ_mul]
    exact hused

/-- One layer takes the next primes, one for each n-gram size and head. -/
theorem layerRound_spec (hprime : DecidesPrimes isprime) (l : ℕ) (seen : List ℕ)
    (hs : Used (args.engramVocabSize - 1)
      (l * (args.engramMaxNgramSize - 1) * args.engramNHeads) seen) :
    (layerRound isprime args seen).1 = (List.range (args.engramMaxNgramSize - 1)).map (fun order =>
        (List.range args.engramNHeads).map fun head => nthPrimeAfter (args.engramVocabSize - 1)
          ((l * (args.engramMaxNgramSize - 1) + order) * args.engramNHeads + head + 1)) ∧
      Used (args.engramVocabSize - 1)
        ((l + 1) * (args.engramMaxNgramSize - 1) * args.engramNHeads)
        (layerRound isprime args seen).2 := by
  obtain ⟨hout, hused⟩ := collect_eq (ngramRound_spec hprime) (args.engramMaxNgramSize - 1) hs
  refine ⟨?_, ?_⟩
  · refine hout.trans ?_
    rw [List.range'_eq_map_range, List.map_map]
    rfl
  · rw [Nat.succ_mul]
    exact hused

end Draws

section Moduli

variable {isprime : ℕ → Bool} {args : EngramArgs} {layout : EngramLayout}

/-- The modulus of every head, by its place in the order in which the primes are drawn. -/
theorem primes_eq (hprime : DecidesPrimes isprime)
    (hlayout : EngramLayout.fromArgs isprime args = some layout) :
    layout.primes = (List.range args.engramLayerIds.length).map fun layer =>
      (List.range (args.engramMaxNgramSize - 1)).map fun order =>
        (List.range args.engramNHeads).map fun head => nthPrimeAfter (args.engramVocabSize - 1)
          ((layer * (args.engramMaxNgramSize - 1) + order) * args.engramNHeads + head + 1) := by
  rw [EngramLayout.fromArgs] at hlayout
  split_ifs at hlayout with hnone
  obtain rfl := Option.some.inj hlayout
  have hstart : Used (args.engramVocabSize - 1)
      (0 * (args.engramMaxNgramSize - 1) * args.engramNHeads) [] := by
    rw [Nat.zero_mul, Nat.zero_mul]
    exact used_zero _
  obtain ⟨hout, -⟩ := collect_eq (layerRound_spec hprime) args.engramLayerIds.length hstart
  refine hout.trans ?_
  rw [← List.range_eq_range']

/-- Rows of equal length, one after another. -/
theorem flatten_map_range {α : Type} (a b : ℕ) (f : ℕ → α) :
    ((List.range a).map fun i => (List.range b).map fun j => f (i * b + j)).flatten =
      (List.range (a * b)).map f := by
  induction a with
  | zero => simp
  | succ a ih =>
    rw [List.range_succ, List.map_append, List.flatten_append, ih, Nat.succ_mul, List.range_add,
      List.map_append, List.map_singleton, List.flatten_singleton, List.map_map]
    rfl

/-- Read layer by layer, n-gram size by n-gram size and head by head, the moduli are the successive
primes from the vocabulary size on. -/
theorem flatten_primes_eq (hprime : DecidesPrimes isprime)
    (hlayout : EngramLayout.fromArgs isprime args = some layout) :
    layout.primes.flatten.flatten =
      (List.range (args.engramLayerIds.length * (args.engramMaxNgramSize - 1) *
        args.engramNHeads)).map fun i => nthPrimeAfter (args.engramVocabSize - 1) (i + 1) := by
  rw [primes_eq hprime hlayout,
    flatten_map_range _ _ fun j => (List.range args.engramNHeads).map fun head =>
      nthPrimeAfter (args.engramVocabSize - 1) (j * args.engramNHeads + head + 1),
    flatten_map_range _ _ fun i => nthPrimeAfter (args.engramVocabSize - 1) (i + 1)]

/-- No two heads of any layers share a modulus, and every modulus is the prime that follows the one
drawn before it, the first the least prime that is not below the vocabulary size. -/
theorem moduli_distinct (hprime : DecidesPrimes isprime)
    (hlayout : EngramLayout.fromArgs isprime args = some layout) :
    layout.primes.flatten.flatten.Nodup ∧
      ∀ i q, layout.primes.flatten.flatten[i]? = some q →
        IsLeast {p | args.engramVocabSize ≤ p ∧ p.Prime ∧
          p ∉ layout.primes.flatten.flatten.take i} q := by
  have hmono := nthPrimeAfter_strictMono (args.engramVocabSize - 1)
  rw [flatten_primes_eq hprime hlayout]
  refine ⟨?_, fun i q hq => ?_⟩
  · exact List.nodup_range.map fun i j hij => Nat.succ_injective (hmono.injective hij)
  · rw [List.getElem?_map, Option.map_eq_some_iff] at hq
    obtain ⟨i', hi', rfl⟩ := hq
    obtain ⟨hlt, rfl⟩ := List.getElem?_eq_some_iff.mp hi'
    rw [List.length_range] at hlt
    rw [List.getElem_range, ← List.map_take, List.take_range, Nat.min_eq_left hlt.le]
    -- the primes after the number below the vocabulary are those from the vocabulary on
    have hafter : ∀ p, PrimeAfter (args.engramVocabSize - 1) p ↔
        args.engramVocabSize ≤ p ∧ p.Prime := by
      intro p
      refine and_congr_left fun hp => ?_
      have := hp.pos
      omega
    refine ⟨?_, ?_⟩
    · obtain ⟨hle, hq⟩ := (hafter _).mp (primeAfter_nthPrimeAfter (args.engramVocabSize - 1) i)
      refine ⟨hle, hq, fun hmem => ?_⟩
      obtain ⟨j, hj, heq⟩ := List.mem_map.mp hmem
      have := hmono.injective heq
      rw [List.mem_range] at hj
      omega
    · rintro p ⟨hle, hp, hunused⟩
      obtain ⟨j, rfl⟩ := exists_of_primeAfter ((hafter p).mpr ⟨hle, hp⟩)
      -- a smaller prime would have been used by a head in front
      refine hmono.monotone (Nat.succ_le_succ ?_)
      by_contra hcon
      exact hunused (List.mem_map.mpr ⟨j, List.mem_range.mpr (by omega), rfl⟩)

end Moduli

/-- Two layers of two heads each, for n-grams of two and three tokens. -/
def smallArgs : EngramArgs where
  engramLayerIds := [1, 14]
  engramMaxNgramSize := 3
  engramNHeads := 2
  engramVocabSize := 10
  engramNumEmbeddings := [60, 120]
  engramHeadDim := 1
  engramCompressedVocabSize := 3
  engramPadId := 0
  maxBatchSize := 2
  maxSeqLen := 8

/-- The layout of `smallArgs`. -/
def smallLayout : EngramLayout where
  maxNgramSize := 3
  layerIds := [1, 14]
  numEmbeddings := [60, 120]
  primes := [[[11, 13], [17, 19]], [[23, 29], [31, 37]]]
  nHeads := 2
  headDim := 1

/-- The small arguments make the small layout. -/
theorem fromArgs_smallArgs : EngramLayout.fromArgs isPrime smallArgs = some smallLayout := by
  decide

theorem moduli_distinct_smallLayout :
    smallLayout.primes.flatten.flatten.Nodup ∧
      ∀ i q, smallLayout.primes.flatten.flatten[i]? = some q →
        IsLeast {p | smallArgs.engramVocabSize ≤ p ∧ p.Prime ∧
          p ∉ smallLayout.primes.flatten.flatten.take i} q :=
  moduli_distinct decidesPrimes_isPrime fromArgs_smallArgs

end V41

end EngramDB
