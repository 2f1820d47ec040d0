import EngramDB.Foundations.Machine
import EngramDB.Keygen.Real
import Mathlib.Data.Nat.Nth

/-!
# The prime search on machine words

The crate searches primes in `u64`. Here the square of the trial divisor, the next divisor, the next
candidate and the sums of the offset loop are checked: an overflow panics, so a value that is
returned was computed without one. Both loops end, since what they count up is a word.

* `nthPrimeAfter_eq_nth`: `nthPrimeAfter` counts the primes after `start`;
* `isPrimeWord_eq`, `nthPrimeAfterWord_eq`: the search finds what `isPrime` and `nthPrimeAfter` say,
  up to the square of `2 ^ 32 - 1`, and panics from there on;
* `headOffsets_eq`: the offset loop computes the prefix sums.
-/

namespace EngramDB

/-! ### The primes after a number -/

/-- `q` is a prime after `start`. -/
def PrimeAfter (start q : ℕ) : Prop := start < q ∧ q.Prime

/-- There are infinitely many primes after every start. -/
theorem infinite_primeAfter (start : ℕ) : (Set.ofPred (PrimeAfter start)).Infinite := by
  refine Set.infinite_of_not_bddAbove ?_
  rintro ⟨bound, hbound⟩
  obtain ⟨q, hle, hq⟩ := Nat.exists_infinite_primes (start + bound + 1)
  have hmem : q ∈ Set.ofPred (PrimeAfter start) := ⟨by omega, hq⟩
  have := hbound hmem
  omega

/-- The primes after a start are enumerated in increasing order. -/
theorem nthPrimeAfter_strictMono (start : ℕ) : StrictMono (nthPrimeAfter start) :=
  strictMono_nat_of_lt_succ fun count => (nthPrimeAfter_succ_spec start count).2.1

/-- The values of `nthPrimeAfter` are all the primes after `start`, in order. -/
theorem nthPrimeAfter_eq_nth (start count : ℕ) :
    nthPrimeAfter start (count + 1) = Nat.nth (PrimeAfter start) count := by
  induction count using Nat.strong_induction_on with
  | _ count ih =>
    obtain ⟨hprime, hlt, hfirst⟩ := nthPrimeAfter_succ_spec start count
    have hafter : start < nthPrimeAfter start (count + 1) :=
      nthPrimeAfter_strictMono start (Nat.succ_pos count)
    -- it is the least prime after `start` that is larger than the ones before
    have hleast : IsLeast {q | PrimeAfter start q ∧ ∀ k < count, Nat.nth (PrimeAfter start) k < q}
        (nthPrimeAfter start (count + 1)) := by
      refine ⟨⟨⟨hafter, hprime⟩, fun k hk => ?_⟩, fun q hq => ?_⟩
      · rw [← ih k hk]
        exact nthPrimeAfter_strictMono start (Nat.succ_lt_succ hk)
      · obtain ⟨⟨hstart, hq⟩, hlarger⟩ := hq
        have hprev : nthPrimeAfter start count < q := by
          cases count with
          | zero => exact hstart
          | succ n =>
            rw [ih n (Nat.lt_succ_self n)]
            exact hlarger n (Nat.lt_succ_self n)
        exact Nat.le_of_not_lt fun h => hfirst q hprev h hq
    exact hleast.unique (Nat.isLeast_nth_of_infinite (infinite_primeAfter start) count)

/-! ### Trial division -/

variable {ε : Type}

/-- The loop of `is_prime` from the divisor `d` on. -/
def trialWord (v d : ℕ) : Outcome ε Bool := do
  if (← checkedMul d d) ≤ v then
    if v % d = 0 then pure false
    else if _h : d + 2 < 2 ^ 64 then trialWord v (d + 2)
    else throw .panic
  else pure true
termination_by 2 ^ 64 - d

/-- `is_prime`. -/
def isPrimeWord (v : ℕ) : Outcome ε Bool :=
  if v < 2 then pure false
  else if v % 2 = 0 then pure (v = 2)
  else trialWord v 3

/-- The square of the largest word that has a square. A divisor beyond it is not reached without an
overflow. -/
def wordSquare : ℕ := (2 ^ 32 - 1) * (2 ^ 32 - 1)

section Trial

variable {v d : ℕ}

/-- The square of a number of 32 bits is a word. -/
theorem mul_self_lt (hd : d < 2 ^ 32) : d * d < 2 ^ 64 := by
  have := Nat.mul_self_lt_mul_self hd
  omega

/-- The trial division ends, with a prime, when the square of the divisor has passed the number. -/
theorem trialWord_of_lt (hd : d < 2 ^ 32) (hv : v < d * d) :
    (trialWord v d : Outcome ε Bool) = .ok true := by
  rw [trialWord, checkedMul_eq_ok (mul_self_lt hd), Except.ok_bind, if_neg (Nat.not_le.mpr hv)]
  rfl

/-- A divisor whose square is at most `v` is tried. -/
theorem trialWord_of_le (hd : d < 2 ^ 32) (hv : d * d ≤ v) :
    (trialWord v d : Outcome ε Bool) = if v % d = 0 then .ok false else trialWord v (d + 2) := by
  rw [trialWord, checkedMul_eq_ok (mul_self_lt hd), Except.ok_bind, if_pos hv,
    dif_pos (show d + 2 < 2 ^ 64 by omega)]
  rfl

/-- The trial division panics when the square of the divisor is no word any more. -/
private theorem trialWord_of_overflow (hd : ¬ d < 2 ^ 32) :
    (trialWord v d : Outcome ε Bool) = .error .panic := by
  have hsq : ¬ d * d < 2 ^ 64 := by
    have := Nat.mul_self_le_mul_self (Nat.le_of_not_lt hd)
    omega
  rw [trialWord, checkedMul_eq_panic hsq]
  rfl

/-- A divisor is found, wherever the search starts below it. -/
private theorem trialWord_eq_false (hv : v < 2 ^ 64) {k : ℕ} (hsq : (d + 2 * k) * (d + 2 * k) ≤ v)
    (hdvd : d + 2 * k ∣ v) : (trialWord v d : Outcome ε Bool) = .ok false := by
  induction k generalizing d with
  | zero =>
    have hd : d < 2 ^ 32 := by
      by_contra hge
      have := Nat.mul_self_le_mul_self (Nat.le_of_not_lt hge)
      rw [Nat.mul_zero, Nat.add_zero] at hsq
      omega
    exact (trialWord_of_le hd hsq).trans (if_pos (Nat.mod_eq_zero_of_dvd hdvd))
  | succ k ih =>
    -- the divisor is reached before its square is, so nothing overflows on the way
    have hle : d * d ≤ v := (Nat.mul_self_le_mul_self (by omega)).trans hsq
    have hd : d < 2 ^ 32 := by
      by_contra hge
      have := Nat.mul_self_le_mul_self (Nat.le_of_not_lt hge)
      omega
    rw [trialWord_of_le hd hle]
    split_ifs
    · rfl
    · have hshift : d + 2 * (k + 1) = d + 2 + 2 * k := by omega
      rw [hshift] at hsq hdvd
      exact ih hsq hdvd

/-- Without a divisor the loop ends behind the root of `v`. -/
private theorem trialWord_eq_true (hv : v < wordSquare) {k : ℕ} (hk : d + 2 * k = 2 ^ 32 - 1)
    (hnone : ∀ e, d ≤ e → e * e ≤ v → ¬ e ∣ v) : (trialWord v d : Outcome ε Bool) = .ok true := by
  induction k generalizing d with
  | zero =>
    obtain rfl : d = 2 ^ 32 - 1 := hk
    exact trialWord_of_lt (by omega) hv
  | succ k ih =>
    by_cases hle : d * d ≤ v
    · rw [trialWord_of_le (by omega) hle,
        if_neg fun h => hnone d (Nat.le_refl d) hle (Nat.dvd_of_mod_eq_zero h)]
      exact ih (by omega) fun e he => hnone e (by omega)
    · exact trialWord_of_lt (by omega) (Nat.lt_of_not_le hle)

/-- Without a divisor of a number that is too large the square of the next divisor overflows. -/
private theorem trialWord_eq_panic (hv : wordSquare ≤ v) {k : ℕ} (hk : d + 2 * k = 2 ^ 32 + 1)
    (hnone : ∀ e, d ≤ e → e * e ≤ v → ¬ e ∣ v) :
    (trialWord v d : Outcome ε Bool) = .error .panic := by
  induction k generalizing d with
  | zero => exact trialWord_of_overflow (by omega)
  | succ k ih =>
    have hle : d * d ≤ v := by
      have hd : d ≤ 2 ^ 32 - 1 := by omega
      exact (Nat.mul_self_le_mul_self hd).trans hv
    rw [trialWord_of_le (by omega) hle,
      if_neg fun h => hnone d (Nat.le_refl d) hle (Nat.dvd_of_mod_eq_zero h)]
    exact ih (by omega) fun e he => hnone e (by omega)

/-- An odd prime has no divisor up to its root. -/
private theorem not_dvd_of_prime (hp : v.Prime) {e : ℕ} (he : 3 ≤ e) (hsq : e * e ≤ v) :
    ¬ e ∣ v := by
  intro hdvd
  rcases hp.eq_one_or_self_of_dvd e hdvd with rfl | rfl
  · omega
  · nlinarith

/-- An odd number that is not prime has an odd divisor up to its root. -/
private theorem exists_dvd_of_not_prime (hodd : v % 2 = 1) (htwo : 2 ≤ v) (hp : ¬ v.Prime) :
    ∃ k, (3 + 2 * k) * (3 + 2 * k) ≤ v ∧ 3 + 2 * k ∣ v := by
  have hdvd := Nat.minFac_dvd v
  have hodd' : v.minFac % 2 = 1 := by
    rcases Nat.mod_two_eq_zero_or_one v.minFac with h0 | h1
    · have := Nat.mod_eq_zero_of_dvd ((Nat.dvd_of_mod_eq_zero h0).trans hdvd)
      omega
    · exact h1
  have hge := (Nat.minFac_prime (show v ≠ 1 by omega)).two_le
  have hsq : v.minFac * v.minFac ≤ v := by
    rw [← Nat.pow_two]
    exact Nat.minFac_sq_le_self (by omega) hp
  refine ⟨(v.minFac - 3) / 2, ?_⟩
  have heq : 3 + 2 * ((v.minFac - 3) / 2) = v.minFac := by omega
  rw [heq]
  exact ⟨hsq, hdvd⟩

/-- Trial division decides primality, unless it overflows, and it does at the primes from
`wordSquare` on. -/
theorem isPrimeWord_eq (hv : v < 2 ^ 64) : (isPrimeWord v : Outcome ε Bool) =
    if v.Prime ∧ wordSquare ≤ v then .error .panic else .ok (decide v.Prime) := by
  unfold isPrimeWord
  by_cases hsmall : v < 2
  · have hp : ¬ v.Prime := fun h => absurd h.two_le (by omega)
    rw [if_pos hsmall, if_neg fun h => hp h.1, decide_eq_false hp]
    rfl
  rw [if_neg hsmall]
  by_cases heven : v % 2 = 0
  · have hiff : v.Prime ↔ v = 2 := by
      constructor
      · intro h
        exact ((Nat.prime_dvd_prime_iff_eq Nat.prime_two h).mp (Nat.dvd_of_mod_eq_zero heven)).symm
      · rintro rfl
        exact Nat.prime_two
    -- two is the only even prime, and small enough
    have hfits : ¬ (v.Prime ∧ wordSquare ≤ v) := by
      rintro ⟨h, hlarge⟩
      rw [hiff.mp h] at hlarge
      exact absurd hlarge (by decide)
    rw [if_pos heven, if_neg hfits, decide_eq_decide.mpr hiff]
    rfl
  · rw [if_neg heven]
    -- the divisions of a prime end when the square of the divisor is larger, or overflow before
    by_cases hp : v.Prime
    · have hnone : ∀ e, 3 ≤ e → e * e ≤ v → ¬ e ∣ v := fun e he hsq => not_dvd_of_prime hp he hsq
      by_cases hlarge : wordSquare ≤ v
      · rw [if_pos ⟨hp, hlarge⟩]
        exact trialWord_eq_panic (k := 2 ^ 31 - 1) hlarge (by omega) hnone
      · rw [if_neg fun h => hlarge h.2, decide_eq_true hp]
        exact trialWord_eq_true (k := 2 ^ 31 - 2) (Nat.lt_of_not_le hlarge) (by omega) hnone
    -- any other number has a divisor before that
    · obtain ⟨k, hsq, hdvd⟩ := exists_dvd_of_not_prime (by omega) (by omega) hp
      rw [if_neg fun h => hp h.1, decide_eq_false hp]
      exact trialWord_eq_false hv hsq hdvd

end Trial

/-! ### The search -/

/-- The inner loop of `nth_prime_after`: the first prime from `p` on. -/
def seekWord (p : ℕ) : Outcome ε ℕ := do
  if ← isPrimeWord p then pure p
  else if _h : p + 1 < 2 ^ 64 then seekWord (p + 1)
  else throw .panic
termination_by 2 ^ 64 - p

/-- `nth_prime_after`. -/
def nthPrimeAfterWord (start : ℕ) : ℕ → Outcome ε ℕ
  | 0 => pure start
  | count + 1 => do
    let p ← nthPrimeAfterWord start count
    let p ← checkedAdd p 1
    seekWord p

section Search

/-- The last square that is a word. -/
theorem wordSquare_lt : wordSquare < 2 ^ 64 := by decide

/-- The search passes a number that is not prime (`hp`), unless the next one leaves the word
(`hlt`). -/
theorem seekWord_of_not_prime {p : ℕ} (hlt : p + 1 < 2 ^ 64) (hp : ¬ p.Prime) :
    (seekWord p : Outcome ε ℕ) = seekWord (p + 1) := by
  rw [seekWord, isPrimeWord_eq (by omega), if_neg fun h => hp h.1, Except.ok_bind,
    decide_eq_false hp, dif_pos hlt]
  rfl

/-- The search from `p` stops at the first prime from there on (`hq`, `hnone`), if this is below
`wordSquare` (`hlt`). -/
private theorem seekWord_eq_ok {p k : ℕ} (hq : (p + k).Prime) (hlt : p + k < wordSquare)
    (hnone : ∀ r, p ≤ r → r < p + k → ¬ r.Prime) : (seekWord p : Outcome ε ℕ) = .ok (p + k) := by
  have hword := wordSquare_lt
  induction k generalizing p with
  | zero =>
    rw [Nat.add_zero] at hq hlt ⊢
    rw [seekWord, isPrimeWord_eq (by omega),
      if_neg fun h => absurd hlt (Nat.not_lt.mpr h.2), Except.ok_bind, decide_eq_true hq]
    rfl
  | succ k ih =>
    have hshift : p + (k + 1) = p + 1 + k := by omega
    rw [seekWord_of_not_prime (by omega) (hnone p (Nat.le_refl p) (by omega)), hshift]
    rw [hshift] at hq hlt
    exact ih hq hlt fun r h1 h2 => hnone r (by omega) (by omega)

/-- Without a prime from `p` up to `wordSquare` (`hnone`) the search runs into the overflow of its
own addition or of a square. -/
private theorem seekWord_eq_panic {p k : ℕ} (hp : p + k = 2 ^ 64 - 1)
    (hnone : ∀ r, p ≤ r → r < wordSquare → ¬ r.Prime) :
    (seekWord p : Outcome ε ℕ) = .error .panic := by
  induction k generalizing p with
  | zero =>
    have hlast : ¬ p + 1 < 2 ^ 64 := by omega
    rw [seekWord, isPrimeWord_eq (by omega), dif_neg hlast]
    by_cases hprime : p.Prime ∧ wordSquare ≤ p
    · rw [if_pos hprime]
      rfl
    · have hp : ¬ p.Prime := fun h =>
        hprime ⟨h, Nat.le_of_not_lt fun hlt => hnone p (Nat.le_refl p) hlt h⟩
      rw [if_neg hprime, decide_eq_false hp]
      rfl
  | succ k ih =>
    by_cases hprime : p.Prime
    · have hlarge : wordSquare ≤ p := Nat.le_of_not_lt fun hlt => hnone p (Nat.le_refl p) hlt hprime
      rw [seekWord, isPrimeWord_eq (by omega), if_pos ⟨hprime, hlarge⟩]
      rfl
    · rw [seekWord_of_not_prime (by omega) hprime]
      exact ih (by omega) fun r hr => hnone r (by omega)

/-- The search finds the primes below `wordSquare`. From the first prime after `start` that is not
below it on it overflows. -/
theorem nthPrimeAfterWord_eq (start count : ℕ) :
    (nthPrimeAfterWord start (count + 1) : Outcome ε ℕ) =
    if nthPrimeAfter start (count + 1) < wordSquare then .ok (nthPrimeAfter start (count + 1))
    else .error .panic := by
  have hword := wordSquare_lt
  -- one more step, from the prime before
  have hstep : ∀ n, (nthPrimeAfterWord start n : Outcome ε ℕ) = .ok (nthPrimeAfter start n) →
      (nthPrimeAfterWord start (n + 1) : Outcome ε ℕ) =
        if nthPrimeAfter start (n + 1) < wordSquare then .ok (nthPrimeAfter start (n + 1))
        else .error .panic := by
    intro n hn
    obtain ⟨hprime, hlt, hfirst⟩ := nthPrimeAfter_succ_spec start n
    rw [nthPrimeAfterWord, hn, Except.ok_bind]
    split_ifs with hfits
    · obtain ⟨k, hk⟩ := Nat.exists_eq_add_of_lt hlt
      have hk' : nthPrimeAfter start (n + 1) = nthPrimeAfter start n + 1 + k := by omega
      rw [hk'] at hprime hfits hfirst ⊢
      rw [checkedAdd_eq_ok (by omega), Except.ok_bind]
      exact seekWord_eq_ok hprime hfits fun r h1 h2 => hfirst r (by omega) h2
    · by_cases hadd : nthPrimeAfter start n + 1 < 2 ^ 64
      · rw [checkedAdd_eq_ok hadd, Except.ok_bind]
        refine seekWord_eq_panic (k := 2 ^ 64 - 1 - (nthPrimeAfter start n + 1))
          (by omega) fun r h1 h2 => ?_
        exact hfirst r (by omega) (by omega)
      · rw [checkedAdd_eq_panic hadd]
        rfl
  induction count with
  | zero => exact hstep 0 rfl
  | succ count ih =>
    by_cases hfits : nthPrimeAfter start (count + 1) < wordSquare
    · rw [if_pos hfits] at ih
      exact hstep (count + 1) ih
    · have hlt : nthPrimeAfter start (count + 1) < nthPrimeAfter start (count + 1 + 1) :=
        nthPrimeAfter_strictMono start (Nat.lt_succ_self (count + 1))
      rw [if_neg hfits] at ih
      rw [nthPrimeAfterWord, ih, if_neg (by omega)]
      rfl

end Search

/-! ### The heads -/

/-- The loop of `PleSpec::real` over the heads: as many rows as the prime of the head. -/
def headSizes (base heads : ℕ) : Outcome ε (List ℕ) :=
  (List.range heads).mapM fun i => do
    let lo ← checkedSub base 1
    nthPrimeAfterWord lo (i + 1)

/-- The loop of `PleSpec::real` over the sizes: the offset of every head, and the total. -/
def headOffsets (sizes : List ℕ) : Outcome ε (List ℕ × ℕ) :=
  sizes.foldlM (fun s size => do
    let acc ← checkedAdd s.2 size
    pure (s.1 ++ [s.2], acc)) ([], 0)

section Heads

variable {base heads : ℕ} {sizes : List ℕ}

/-- Every head gets its prime, if the primes are found. -/
theorem headSizes_eq_ok (hbase : 1 ≤ base)
    (hfits : ∀ i < heads, nthPrimeAfter (base - 1) (i + 1) < wordSquare) :
    (headSizes base heads : Outcome ε (List ℕ)) =
      .ok ((List.range heads).map fun i => nthPrimeAfter (base - 1) (i + 1)) := by
  refine Except.mapM_eq_ok fun i hi => ?_
  rw [checkedSub_eq_ok hbase, Except.ok_bind, nthPrimeAfterWord_eq,
    if_pos (hfits i (List.mem_range.mp hi))]

/-- Sizes that are returned are the primes of the heads. -/
private theorem eq_of_headSizes (h : (headSizes base heads : Outcome ε (List ℕ)) = .ok sizes) :
    sizes = (List.range heads).map fun i => nthPrimeAfter (base - 1) (i + 1) := by
  cases heads with
  | zero => exact (Except.ok.inj h).symm
  | succ heads =>
    -- the loop has returned, so each of its steps has
    have hhead := Except.forall_of_mapM_eq_ok h
    have hbase : 1 ≤ base := by
      by_contra hzero
      obtain ⟨size, hsize⟩ := hhead 0 (List.mem_range.mpr (Nat.succ_pos heads))
      rw [checkedSub_eq_panic hzero] at hsize
      cases hsize
    have hfits : ∀ i < heads + 1, nthPrimeAfter (base - 1) (i + 1) < wordSquare := by
      intro i hi
      obtain ⟨size, hsize⟩ := hhead i (List.mem_range.mpr hi)
      rw [checkedSub_eq_ok hbase, Except.ok_bind, nthPrimeAfterWord_eq] at hsize
      by_contra hlarge
      rw [if_neg hlarge] at hsize
      cases hsize
    rw [headSizes_eq_ok hbase hfits] at h
    exact (Except.ok.inj h).symm

/-- The sizes are primes from the base on, in order. -/
private theorem headSizes_ordered (base heads : ℕ) :
    ((List.range heads).map fun i => nthPrimeAfter (base - 1) (i + 1)).Pairwise (· < ·) ∧
      ∀ p ∈ (List.range heads).map fun i =>
        nthPrimeAfter (base - 1) (i + 1), p.Prime ∧ base ≤ p := by
  constructor
  · rw [List.pairwise_map]
    exact List.pairwise_lt_range.imp fun hij =>
      nthPrimeAfter_strictMono (base - 1) (Nat.succ_lt_succ hij)
  · intro p hp
    obtain ⟨i, -, rfl⟩ := List.mem_map.mp hp
    have hlt : base - 1 < nthPrimeAfter (base - 1) (i + 1) :=
      nthPrimeAfter_strictMono (base - 1) (Nat.succ_pos i)
    exact ⟨(nthPrimeAfter_succ_spec (base - 1) i).1, by omega⟩

/-- The offset of every head: the sizes of the heads before it. -/
def prefixSums (sizes : List ℕ) : List ℕ :=
  (List.range sizes.length).map fun i => (sizes.take i).sum

/-- The prefix sums start with 0, and the size in front is in all of the others. -/
private theorem prefixSums_cons (size : ℕ) (sizes : List ℕ) :
    prefixSums (size :: sizes) = 0 :: (prefixSums sizes).map (size + ·) := by
  rw [prefixSums, List.length_cons, List.range_succ_eq_map, List.map_cons, List.map_map,
    prefixSums, List.map_map]
  refine congrArg (List.cons 0) (List.map_congr_left fun i _ => ?_)
  exact List.sum_cons

/-- The offset loop, from a sum that is a word (`hacc`) and the offsets that are done: it puts the
sums of the sizes behind, or panics if the total is no word. -/
private theorem offsetLoop_eq (sizes done : List ℕ) {acc : ℕ} (hacc : acc < 2 ^ 64) :
    (sizes.foldlM (fun s size => do
      let acc ← checkedAdd s.2 size
      pure (s.1 ++ [s.2], acc)) (done, acc) : Outcome ε (List ℕ × ℕ)) =
      if acc + sizes.sum < 2 ^ 64 then
        .ok (done ++ (prefixSums sizes).map (acc + ·), acc + sizes.sum)
      else .error .panic := by
  induction sizes generalizing done acc with
  | nil =>
    rw [List.sum_nil, Nat.add_zero, if_pos hacc]
    exact congrArg Except.ok (Prod.ext (List.append_nil done).symm rfl)
  | cons size sizes ih =>
    rw [List.foldlM_cons, List.sum_cons, ← Nat.add_assoc]
    by_cases hadd : acc + size < 2 ^ 64
    · rw [checkedAdd_eq_ok hadd, Except.ok_bind]
      refine (ih (done ++ [acc]) hadd).trans ?_
      rw [prefixSums_cons, List.map_cons, List.map_map, List.append_assoc]
      have hshift : ((acc + ·) ∘ (size + ·) : ℕ → ℕ) = (acc + size + ·) :=
        funext fun n => (Nat.add_assoc acc size n).symm
      rw [hshift]
      rfl
    · rw [checkedAdd_eq_panic hadd, if_neg (by omega)]
      rfl

/-- The offsets are the prefix sums of the sizes, unless the total overflows. -/
theorem headOffsets_eq (sizes : List ℕ) : (headOffsets sizes : Outcome ε (List ℕ × ℕ)) =
    if sizes.sum < 2 ^ 64 then .ok (prefixSums sizes, sizes.sum) else .error .panic := by
  have hloop := offsetLoop_eq (ε := ε) sizes [] (Nat.two_pow_pos 64)
  simp only [Nat.zero_add, List.nil_append, List.map_id'] at hloop
  exact hloop

/-- The sixteen heads of the released checkpoint: no search and no sum overflows. -/
theorem headSizes_real : (headSizes PLE_BASE PLE_HEADS : Outcome ε (List ℕ)) = .ok realPrimes ∧
    (headOffsets realPrimes : Outcome ε (List ℕ × ℕ)) = .ok (realOffsets, realPrimes.sum) := by
  constructor
  · rw [← map_nthPrimeAfter]
    refine headSizes_eq_ok (by decide) fun i hi => ?_
    have hmem : nthPrimeAfter (PLE_BASE - 1) (i + 1) ∈ realPrimes := by
      rw [← map_nthPrimeAfter]
      exact List.mem_map.mpr ⟨i, List.mem_range.mpr hi, rfl⟩
    have hsmall : ∀ p ∈ realPrimes, p < wordSquare := by decide
    exact hsmall _ hmem
  · have hoffsets : prefixSums realPrimes = realOffsets := by decide
    rw [headOffsets_eq, if_pos (by decide), hoffsets]

end Heads

/-- The prime search is correct. `is_prime` judges every word below `2 ^ 62` and every word that is
not prime, and where it returns it is right. `nth_prime_after` returns its start for a count of
zero, and the `(count + 1)`-st prime after its start if this is below `2 ^ 62`. The sizes that are
returned for a base and a number of heads are primes from the base on, strictly increasing, and the
offsets that are returned for them are their prefix sums; they are returned if the primes are below
`2 ^ 62` and the total is a word. -/
theorem primeSearch_correct (ε : Type) :
    (∀ v < 2 ^ 64,
      (v < 2 ^ 62 ∨ ¬ v.Prime → (isPrimeWord v : Outcome ε Bool) = .ok (decide v.Prime)) ∧
      ∀ b, (isPrimeWord v : Outcome ε Bool) = .ok b → (b = true ↔ v.Prime)) ∧
    (∀ start, (nthPrimeAfterWord start 0 : Outcome ε ℕ) = .ok start) ∧
    (∀ start count, Nat.nth (PrimeAfter start) count < 2 ^ 62 →
      (nthPrimeAfterWord start (count + 1) : Outcome ε ℕ) =
        .ok (Nat.nth (PrimeAfter start) count)) ∧
    (∀ base heads sizes, (headSizes base heads : Outcome ε (List ℕ)) = .ok sizes →
      sizes.length = heads ∧ sizes.Pairwise (· < ·) ∧ sizes.Nodup ∧
        (∀ p ∈ sizes, p.Prime ∧ base ≤ p) ∧
        ∀ offsets total, (headOffsets sizes : Outcome ε (List ℕ × ℕ)) = .ok (offsets, total) →
          offsets = prefixSums sizes) ∧
    ∀ base heads, 1 ≤ base → (∀ i < heads, Nat.nth (PrimeAfter (base - 1)) i < 2 ^ 62) →
      ∃ sizes, (headSizes base heads : Outcome ε (List ℕ)) = .ok sizes ∧
        (sizes.sum < 2 ^ 64 → ∃ s, (headOffsets sizes : Outcome ε (List ℕ × ℕ)) = .ok s) := by
  -- a prime below 2^62 is decided before a square of the trial division overflows
  have hbound : 2 ^ 62 < wordSquare := by decide
  refine ⟨fun v hv => ⟨fun hfits => ?_, fun b hb => ?_⟩, fun start => rfl,
    fun start count hnth => ?_, fun base heads sizes hsizes => ?_, fun base heads hbase hfits => ?_⟩
  · refine (isPrimeWord_eq hv).trans (if_neg ?_)
    rintro ⟨hp, hlarge⟩
    exact hfits.elim (fun h => by omega) (fun h => h hp)
  · rw [isPrimeWord_eq hv] at hb
    split_ifs at hb
    rw [← Except.ok.inj hb, decide_eq_true_iff]
  · rw [← nthPrimeAfter_eq_nth] at hnth ⊢
    rw [nthPrimeAfterWord_eq, if_pos (hnth.trans hbound)]
  -- whatever is returned are the primes after the base, in order
  · obtain rfl := eq_of_headSizes hsizes
    obtain ⟨hordered, hprimes⟩ := headSizes_ordered base heads
    refine ⟨by rw [List.length_map, List.length_range], hordered,
      hordered.imp Nat.ne_of_lt, hprimes, ?_⟩
    intro offsets total hoffsets
    rw [headOffsets_eq] at hoffsets
    split_ifs at hoffsets
    exact (congrArg Prod.fst (Except.ok.inj hoffsets)).symm
  · refine ⟨_, headSizes_eq_ok hbase fun i hi => ?_,
      fun hsum => ⟨_, (headOffsets_eq _).trans (if_pos hsum)⟩⟩
    rw [nthPrimeAfter_eq_nth]
    exact (hfits i hi).trans hbound

end EngramDB
