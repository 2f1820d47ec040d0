import EngramDB.Foundations.Outcome
import Mathlib.Data.List.Basic
import Mathlib.Tactic.Ring

/-!
# Words and memory of a 64-bit machine

Sums and products of machine words wrap, as a release build computes them (`wordAdd`, `wordMul`);
they are the true ones as long as these are below `2 ^ 64`. A build that checks its arithmetic
panics where a sum, a difference or a product leaves the words (`checkedAdd`, `checkedSub`,
`checkedMul`).

An `Allocator` says which requests for memory are met. One that is not met ends the program, or the
thread, which counts as a panic. No vector has more than `2 ^ 63 - 1` bytes.
-/

/-- The sum of two words. -/
def wordAdd (a b : ℕ) : ℕ := (a + b) % 2 ^ 64

/-- The product of two words. -/
def wordMul (a b : ℕ) : ℕ := a * b % 2 ^ 64

/-- A wrapping sum that fits into a word is exact. -/
theorem wordAdd_eq {a b : ℕ} (h : a + b < 2 ^ 64) : wordAdd a b = a + b := Nat.mod_eq_of_lt h

/-- A wrapping product that fits into a word is exact. -/
theorem wordMul_eq {a b : ℕ} (h : a * b < 2 ^ 64) : wordMul a b = a * b := Nat.mod_eq_of_lt h

/-- A wrapping product fits into a word. -/
theorem wordMul_lt (a b : ℕ) : wordMul a b < 2 ^ 64 := Nat.mod_lt _ (by decide)

section Checked

variable {ε : Type} {a b : ℕ}

/-- The sum of two words, or a panic. -/
def checkedAdd (a b : ℕ) : Outcome ε ℕ := if a + b < 2 ^ 64 then .ok (a + b) else .error .panic

/-- The difference of two words, or a panic. -/
def checkedSub (a b : ℕ) : Outcome ε ℕ := if b ≤ a then .ok (a - b) else .error .panic

/-- The product of two words, or a panic. -/
def checkedMul (a b : ℕ) : Outcome ε ℕ := if a * b < 2 ^ 64 then .ok (a * b) else .error .panic

/-- A checked sum that fits into a word is returned. -/
theorem checkedAdd_eq_ok (h : a + b < 2 ^ 64) :
    (checkedAdd a b : Outcome ε ℕ) = .ok (a + b) := if_pos h

/-- A checked sum that does not fit into a word panics. -/
theorem checkedAdd_eq_panic (h : ¬ a + b < 2 ^ 64) :
    (checkedAdd a b : Outcome ε ℕ) = .error .panic :=
  if_neg h

/-- A checked difference of a smaller number from a greater one is returned. -/
theorem checkedSub_eq_ok (h : b ≤ a) : (checkedSub a b : Outcome ε ℕ) = .ok (a - b) := if_pos h

/-- A checked difference below zero panics. -/
theorem checkedSub_eq_panic (h : ¬ b ≤ a) :
    (checkedSub a b : Outcome ε ℕ) = .error .panic := if_neg h

/-- A checked product that fits into a word is returned. -/
theorem checkedMul_eq_ok (h : a * b < 2 ^ 64) :
    (checkedMul a b : Outcome ε ℕ) = .ok (a * b) := if_pos h

/-- A checked product that does not fit into a word panics. -/
theorem checkedMul_eq_panic (h : ¬ a * b < 2 ^ 64) :
    (checkedMul a b : Outcome ε ℕ) = .error .panic :=
  if_neg h

end Checked

/-- Which requests for memory are met. -/
structure Allocator where
  /-- Whether a vector of so many bytes can be allocated. -/
  allocates : ℕ → Bool
  /-- Whether a vector can grow to so many bytes. -/
  grows : ℕ → Bool
  /-- A vector has less than `2 ^ 63` bytes. -/
  lt_of_allocates : ∀ {n}, allocates n → n < 2 ^ 63
  /-- A smaller vector needs no more memory. -/
  allocates_of_le : ∀ {m n}, m ≤ n → allocates n → allocates m
  /-- A vector has less than `2 ^ 63` bytes. -/
  lt_of_grows : ∀ {n}, grows n → n < 2 ^ 63
  /-- A smaller vector needs no more memory. -/
  grows_of_le : ∀ {m n}, m ≤ n → grows n → grows m

namespace Allocator

variable {ε : Type} (a : Allocator)

/-- Memory that lasts for every vector of at most `size` bytes. -/
def upTo (size : ℕ) (h : size < 2 ^ 63) : Allocator where
  allocates n := n ≤ size
  grows n := n ≤ size
  lt_of_allocates hn := Nat.lt_of_le_of_lt (of_decide_eq_true hn) h
  allocates_of_le hle hn := decide_eq_true (Nat.le_trans hle (of_decide_eq_true hn))
  lt_of_grows hn := Nat.lt_of_le_of_lt (of_decide_eq_true hn) h
  grows_of_le hle hn := decide_eq_true (Nat.le_trans hle (of_decide_eq_true hn))

/-- A vector of `n` zero bytes. -/
def zeros (n : ℕ) : Outcome ε (List UInt8) :=
  if a.allocates n then .ok (List.replicate n 0) else .error .panic

/-- Append to a vector of bytes. -/
def extend (v src : List UInt8) : Outcome ε (List UInt8) :=
  if a.grows (v.length + src.length) then .ok (v ++ src) else .error .panic

/-- A buffer of zeros that the allocator grants is returned. -/
theorem zeros_eq_ok {n : ℕ} (h : a.allocates n) :
    (a.zeros n : Outcome ε _) = .ok (List.replicate n 0) :=
  if_pos h

/-- A buffer of zeros that the allocator refuses panics. -/
theorem zeros_eq_panic {n : ℕ} (h : ¬ a.allocates n) : (a.zeros n : Outcome ε _) = .error .panic :=
  if_neg h

/-- A vector is extended if the allocator grants the space for both parts. -/
theorem extend_eq_ok {v src : List UInt8} (h : a.grows (v.length + src.length)) :
    (a.extend v src : Outcome ε _) = .ok (v ++ src) :=
  if_pos h

/-- Extending a vector panics if the allocator refuses the space for both parts. -/
theorem extend_eq_panic {v src : List UInt8} (h : ¬ a.grows (v.length + src.length)) :
    (a.extend v src : Outcome ε _) = .error .panic :=
  if_neg h

end Allocator
