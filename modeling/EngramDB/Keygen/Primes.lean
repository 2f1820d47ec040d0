import Mathlib.NumberTheory.Bertrand

/-!
# The primes of the hash heads

Every head of the hash reduces by its own prime: head `i` by the `(i + 1)`-st prime after a base.
The crate and the Python modules find it by trial division.

* `isPrime_iff`: trial division decides primality;
* `nthPrimeAfter_succ_spec`: one more step of `nthPrimeAfter` goes to the next prime;
* `nthPrimeAfter_eq_of_isRun`: a run of successive primes lists the values of `nthPrimeAfter`;
* `prime_of_coprime_rangeProd`, `isRun_of_gapsChecked`: how a given list is checked to be a run.
-/

namespace EngramDB

/-- Trial division of `v` by `d`, `d + 2`, … as long as the square of the divisor is at most `v`. -/
def trialDivision (v : ℕ) : ℕ → ℕ → Bool
  | 0, _ => true
  | fuel + 1, d =>
    if d * d ≤ v then
      if v % d = 0 then false else trialDivision v fuel (d + 2)
    else true

/-- Primality by trial division. The divisors grow, so `v` rounds are enough. -/
def isPrime (v : ℕ) : Bool :=
  if v < 2 then false
  else if v % 2 = 0 then v = 2
  else trialDivision v v 3

/-- The search for the first number from `p` on that passes the primality test. -/
def seekPrime (test : ℕ → Bool) : ℕ → ℕ → ℕ
  | 0, p => p
  | fuel + 1, p => if test p then p else seekPrime test fuel (p + 1)

/-- The `count`-th prime after `start` by a primality test. There is a prime between `p` and
`2 * p`, so `p + 1` rounds of the search are enough. -/
def nthPrimeAfterBy (test : ℕ → Bool) (start : ℕ) : ℕ → ℕ
  | 0 => start
  | count + 1 =>
    let p := nthPrimeAfterBy test start count + 1
    seekPrime test (p + 1) p

/-- The `count`-th prime after `start`. -/
def nthPrimeAfter (start count : ℕ) : ℕ := nthPrimeAfterBy isPrime start count

@[simp] theorem nthPrimeAfter_zero (start : ℕ) : nthPrimeAfter start 0 = start := rfl

private theorem nthPrimeAfter_succ (start count : ℕ) :
    nthPrimeAfter start (count + 1) =
      seekPrime isPrime (nthPrimeAfter start count + 1 + 1) (nthPrimeAfter start count + 1) := rfl

section Trial

/-- A run of the trial division finds no divisor iff no odd number from `d` on divides `v`, up to
the square root of `v`. -/
theorem trialDivision_iff {v : ℕ} (hodd : v % 2 = 1) :
    ∀ fuel d, 3 ≤ d → d % 2 = 1 → v < (d + 2 * fuel) * (d + 2 * fuel) →
      (trialDivision v fuel d = true ↔ ∀ e, d ≤ e → e * e ≤ v → ¬ e ∣ v) := by
  intro fuel
  induction fuel with
  | zero =>
    intro d hd hdodd hfuel
    refine iff_of_true rfl fun e hle he _ => ?_
    have := Nat.mul_le_mul hle hle
    simp only [Nat.mul_zero, Nat.add_zero] at hfuel
    omega
  | succ fuel ih =>
    intro d hd hdodd hfuel
    rw [trialDivision]
    have hrest := ih (d + 2) (by omega) (by omega)
      (by rw [show d + 2 + 2 * fuel = d + 2 * (fuel + 1) by ring]; exact hfuel)
    split_ifs with hsq hdvd
    · simp only [false_iff, not_forall, not_not]
      exact ⟨d, Nat.le_refl d, hsq, Nat.dvd_of_mod_eq_zero hdvd⟩
    · rw [hrest]
      constructor
      · intro h e hle he hev
        have hne : e ≠ d := fun heq => hdvd (Nat.mod_eq_zero_of_dvd (heq ▸ hev))
        -- an even divisor of an odd number is excluded, so the next candidate is `d + 2`
        have heodd : e % 2 = 1 := by
          obtain ⟨q, rfl⟩ := hev
          rcases Nat.mod_two_eq_zero_or_one e with h0 | h1
          · rw [Nat.mul_mod, h0, Nat.zero_mul] at hodd
            omega
          · exact h1
        exact h e (by omega) he hev
      · intro h e hle
        exact h e (by omega)
    · refine iff_of_true rfl fun e hle he _ => hsq ?_
      exact (Nat.mul_le_mul hle hle).trans he

/-- Trial division decides primality. -/
theorem isPrime_iff {v : ℕ} : isPrime v = true ↔ Nat.Prime v := by
  unfold isPrime
  split_ifs with hsmall heven
  · refine iff_of_false (by simp) fun hp => ?_
    exact absurd hp.two_le (by omega)
  · rw [decide_eq_true_eq]
    constructor
    · rintro rfl
      exact Nat.prime_two
    · intro hp
      exact ((Nat.prime_dvd_prime_iff_eq Nat.prime_two hp).mp (Nat.dvd_of_mod_eq_zero heven)).symm
  -- odd numbers are tried with the odd divisors up to the root
  · have hodd : v % 2 = 1 := by omega
    rw [trialDivision_iff hodd v 3 (by omega) (by omega) (by nlinarith)]
    constructor
    · intro h
      rw [Nat.prime_def_le_sqrt]
      refine ⟨by omega, fun m hm hsqrt hdvd => ?_⟩
      have hsq : m * m ≤ v := Nat.le_sqrt.mp hsqrt
      have hne : m ≠ 2 := by
        rintro rfl
        exact heven (Nat.mod_eq_zero_of_dvd hdvd)
      exact h m (by omega) hsq hdvd
    · intro hp e hle he hdvd
      rcases hp.eq_one_or_self_of_dvd e hdvd with rfl | rfl
      · omega
      · nlinarith

end Trial

section Search

/-- With enough rounds, the search stops at the first prime from `p` on. -/
theorem seekPrime_spec {q : ℕ} (hq : Nat.Prime q) :
    ∀ fuel p, p ≤ q → q < p + fuel →
      (seekPrime isPrime fuel p).Prime ∧ p ≤ seekPrime isPrime fuel p ∧
      ∀ r, p ≤ r → r < seekPrime isPrime fuel p → ¬ r.Prime := by
  intro fuel
  induction fuel with
  | zero => intro p _ _; omega
  | succ fuel ih =>
    intro p hpq hfuel
    rw [seekPrime]
    split_ifs with hp
    · exact ⟨isPrime_iff.mp hp, Nat.le_refl p, fun r h1 h2 => by omega⟩
    · have hnot : ¬ p.Prime := fun h => hp (isPrime_iff.mpr h)
      have hne : p ≠ q := fun h => hnot (h ▸ hq)
      obtain ⟨h1, h2, h3⟩ := ih (p + 1) (by omega) (by omega)
      refine ⟨h1, by omega, fun r hr1 hr2 => ?_⟩
      rcases Nat.lt_or_ge p r with hlt | hge
      · exact h3 r hlt hr2
      · obtain rfl : r = p := by omega
        exact hnot

/-- One more step goes to the next prime. -/
theorem nthPrimeAfter_succ_spec (start count : ℕ) :
    (nthPrimeAfter start (count + 1)).Prime ∧
      nthPrimeAfter start count < nthPrimeAfter start (count + 1) ∧
      ∀ r, nthPrimeAfter start count < r → r < nthPrimeAfter start (count + 1) → ¬ r.Prime := by
  obtain ⟨q, hq, hlt, hle⟩ :=
    Nat.exists_prime_lt_and_le_two_mul (nthPrimeAfter start count + 1) (Nat.succ_ne_zero _)
  rw [nthPrimeAfter_succ]
  exact seekPrime_spec hq _ _ (by omega) (by omega)

/-- `ps` lists the primes after `lo` one after another. -/
def IsRun : ℕ → List ℕ → Prop
  | _, [] => True
  | lo, p :: ps => lo < p ∧ p.Prime ∧ (∀ r, lo < r → r < p → ¬ r.Prime) ∧ IsRun p ps

/-- A run of successive primes lists the values of `nthPrimeAfter`. -/
theorem nthPrimeAfter_eq_of_isRun {start : ℕ} {ps : List ℕ} {count : ℕ}
    (h : IsRun (nthPrimeAfter start count) ps) {i p : ℕ} (hp : ps[i]? = some p) :
    nthPrimeAfter start (count + i + 1) = p := by
  induction ps generalizing count i with
  | nil => simp at hp
  | cons q ps ih =>
    obtain ⟨hlt, hprime, hbetween, hrun⟩ := h
    obtain ⟨hnext, hgt, hfirst⟩ := nthPrimeAfter_succ_spec start count
    have hq : nthPrimeAfter start (count + 1) = q := by
      rcases Nat.lt_trichotomy (nthPrimeAfter start (count + 1)) q with h | h | h
      · exact absurd hnext (hbetween _ hgt h)
      · exact h
      · exact absurd hprime (hfirst q hlt h)
    cases i with
    | zero => simpa [hq] using hp
    | succ i =>
      rw [List.getElem?_cons_succ] at hp
      rw [show count + (i + 1) + 1 = count + 1 + i + 1 by omega]
      exact ih (by rw [hq]; exact hrun) hp

end Search

section Runs

/-- The product of the `n` numbers from `lo` on, multiplied in halves. -/
def rangeProd : ℕ → ℕ → ℕ → ℕ
  | 0, lo, _ => lo
  | depth + 1, lo, n =>
    if n ≤ 1 then lo
    else rangeProd depth lo (n / 2) * rangeProd depth (lo + n / 2) (n - n / 2)

private theorem dvd_rangeProd {depth lo n d : ℕ} (hn : n ≤ 2 ^ depth) (hlo : lo ≤ d)
    (hd : d < lo + n) :
    d ∣ rangeProd depth lo n := by
  induction depth generalizing lo n with
  | zero =>
    obtain rfl : d = lo := by
      simp only [Nat.pow_zero] at hn
      omega
    exact Nat.dvd_refl d
  | succ depth ih =>
    rw [Nat.pow_succ] at hn
    rw [rangeProd]
    split_ifs with h1
    · obtain rfl : d = lo := by omega
      exact Nat.dvd_refl d
    · rcases Nat.lt_or_ge d (lo + n / 2) with hlt | hge
      · exact Nat.dvd_mul_right_of_dvd (ih (by omega) hlo hlt) _
      · exact Nat.dvd_mul_left_of_dvd (ih (by omega) hge (by omega)) _

/-- A number that has no factor in common with the numbers up to its square root is prime. -/
theorem prime_of_coprime_rangeProd {p depth n : ℕ} (hp : 2 ≤ p) (hn : n ≤ 2 ^ depth)
    (hsq : p < (n + 2) * (n + 2)) (hcop : Nat.Coprime p (rangeProd depth 2 n)) : p.Prime := by
  rw [Nat.prime_def_le_sqrt]
  refine ⟨hp, fun m hm hsqrt hdvd => ?_⟩
  have hmsq : m * m ≤ p := Nat.le_sqrt.mp hsqrt
  have hmn : m < 2 + n := by
    by_contra hge
    have := Nat.mul_le_mul (Nat.le_of_not_lt hge) (Nat.le_of_not_lt hge)
    have hcomm : (2 + n) * (2 + n) = (n + 2) * (n + 2) := by ring
    omega
  have hgcd := Nat.dvd_gcd hdvd (dvd_rangeProd hn hm hmn)
  rw [hcop] at hgcd
  exact absurd (Nat.le_of_dvd Nat.one_pos hgcd) (by omega)

/-- Trial division finds no prime between successive numbers of the list, which ascends from
`lo`. -/
def gapsChecked : ℕ → List ℕ → Bool
  | _, [] => true
  | lo, p :: ps =>
    lo < p && (List.range' (lo + 1) (p - lo - 1)).all (fun r => !isPrime r) && gapsChecked p ps

/-- Primes (`hprime`) between which the check finds no other prime (`hgaps`) are a run of
consecutive primes. -/
theorem isRun_of_gapsChecked {lo : ℕ} {ps : List ℕ} (hprime : ∀ p ∈ ps, p.Prime)
    (hgaps : gapsChecked lo ps = true) : IsRun lo ps := by
  induction ps generalizing lo with
  | nil => trivial
  | cons p ps ih =>
    simp only [gapsChecked, Bool.and_eq_true, decide_eq_true_eq, List.all_eq_true,
      List.mem_range'_1, Bool.not_eq_true', Bool.eq_false_iff, ne_eq] at hgaps
    obtain ⟨⟨hlt, hbetween⟩, hrest⟩ := hgaps
    refine ⟨hlt, hprime p (by simp), fun r h1 h2 hr => ?_,
      ih (fun q hq => hprime q (by simp [hq])) hrest⟩
    exact hbetween r ⟨h1, by omega⟩ (isPrime_iff.mpr hr)

end Runs

end EngramDB
