import EngramDB.Foundations.Ngram

/-!
# Shifting a token list to the right inside its segments

`shiftRightIgnoreEos hist shift eos` moves every token `shift` places to the right; a token that
would come from another segment, or from before the list, is `eos`. The keygen crate and two Python
modules each have this function, written alike. It makes one pass that records the position of the
latest separator, and a second one that compares the place of each position within its segment with
the shift.

`getElem?_shiftRightIgnoreEos`: entry `i` of the result looks `shift` places back from position `i`.
-/

namespace EngramDB

open Ngram

section Shift

variable {α : Type} [DecidableEq α]

/-- The first pass, from position `i` on: the position of the latest separator up to and including
each position, where `last` is the latest one before `i`. -/
def prevInclFrom (eos : α) : ℕ → ℤ → List α → List ℤ
  | _, _, [] => []
  | i, last, x :: xs =>
    let last := if x = eos then (i : ℤ) else last
    last :: prevInclFrom eos (i + 1) last xs

/-- The position of the latest separator up to and including each position, or `-1`. -/
def prevIncl (eos : α) (hist : List α) : List ℤ := prevInclFrom eos 0 (-1) hist

/-- Every token moved `shift` places to the right within its segment. -/
def shiftRightIgnoreEos (hist : List α) (shift : ℕ) (eos : α) : List α :=
  if shift = 0 then hist
  else
    (List.range hist.length).map fun i =>
      let segStart : ℤ := if i = 0 then 0 else (prevIncl eos hist).getD (i - 1) (-1) + 1
      let posInSeg : ℤ := i - segStart
      let src : ℤ := i - shift
      if (shift : ℤ) ≤ posInSeg ∧ 0 ≤ src then hist.getD src.toNat eos else eos

@[simp]
theorem length_shiftRightIgnoreEos (hist : List α) (shift : ℕ) (eos : α) :
    (shiftRightIgnoreEos hist shift eos).length = hist.length := by
  unfold shiftRightIgnoreEos
  split_ifs <;> simp

/-- The first pass keeps a record of the latest separator. -/
private theorem lastBefore_prevInclFrom {eos : α} (done : List α) {last : ℤ} (hist : List α)
    (hlast : LastBefore eos (done ++ hist) done.length last) {i : ℕ} (hi : i < hist.length) :
    LastBefore eos (done ++ hist) (done.length + i + 1)
      ((prevInclFrom eos done.length last hist).getD i (-1)) := by
  induction hist generalizing done last i with
  | nil => simp at hi
  | cons x xs ih =>
    have hge := hlast.ge
    have hlt := hlast.lt
    have hx : (done ++ x :: xs)[done.length]? = some x := by simp
    have hsplit : done ++ x :: xs = (done ++ [x]) ++ xs := by simp
    -- the record after `x`: its own position if it is a separator, the old record otherwise
    have hnext : LastBefore eos (done ++ x :: xs) (done ++ [x]).length
        (if x = eos then (done.length : ℤ) else last) := by
      rw [List.length_append, List.length_singleton]
      split_ifs with heos
      · refine ⟨by omega, by omega, fun _ => ?_, fun j h1 h2 => by omega⟩
        rw [Int.toNat_natCast, hx, heos]
      · refine ⟨hge, by omega, hlast.isEos, fun j h1 h2 => ?_⟩
        rcases Nat.lt_or_ge j done.length with hj | hj
        · exact hlast.latest j h1 hj
        · obtain rfl : j = done.length := by omega
          rw [hx]
          exact fun h => heos (Option.some.inj h)
    cases i with
    | zero => simpa [prevInclFrom] using hnext
    | succ i =>
      rw [hsplit] at hnext
      have hrest := ih (done ++ [x]) hnext (Nat.lt_of_succ_lt_succ hi)
      rw [← hsplit] at hrest
      simp only [prevInclFrom, List.getD_cons_succ]
      rw [List.length_append, List.length_singleton] at hrest
      rwa [show done.length + (i + 1) + 1 = done.length + 1 + i + 1 by omega]

private theorem lastBefore_prevIncl {eos : α} {hist : List α} {i : ℕ} (hi : i < hist.length) :
    LastBefore eos hist (i + 1) ((prevIncl eos hist).getD i (-1)) := by
  have hstart : LastBefore eos hist 0 (-1) :=
    ⟨Int.le_refl _, by omega, fun h => by omega, fun j _ h => by omega⟩
  simpa [prevIncl] using lastBefore_prevInclFrom [] hist hstart hi

/-- The record of the latest separator strictly before a position. -/
private theorem lastBefore_segStart {eos : α} {hist : List α} {i : ℕ} (hi : i < hist.length) :
    LastBefore eos hist i
      ((if i = 0 then 0 else (prevIncl eos hist).getD (i - 1) (-1) + 1) - 1) := by
  cases i with
  | zero => exact ⟨by simp, by simp, fun h => by simp at h, fun j _ h => by omega⟩
  | succ i =>
    rw [if_neg (Nat.succ_ne_zero i), Nat.add_sub_cancel, Int.add_sub_cancel]
    exact lastBefore_prevIncl (by omega)

/-- Entry `i` of a shifted list is what is seen looking `shift` places back from position `i`. -/
theorem getElem?_shiftRightIgnoreEos {hist : List α} {i : ℕ} (hi : i < hist.length) (shift : ℕ)
    (eos : α) : (shiftRightIgnoreEos hist shift eos)[i]? =
      some (before eos shift (hist.take (i + 1)).reverse) := by
  have hrecord := @lastBefore_segStart _ _ eos _ _ hi
  have hlook := ite_lastBefore_eq hi hrecord shift
  unfold shiftRightIgnoreEos
  split_ifs with h0
  · subst h0
    rw [List.take_add_one, List.getElem?_eq_getElem hi, Option.toList_some, List.reverse_append]
    rfl
  · have hidx : ((i : ℤ) - shift).toNat = i - shift := by omega
    rw [List.getElem?_map, List.getElem?_range hi, Option.map_some, ← hlook]
    simp only [Int.sub_add_cancel, hidx]

/-- Reading a position of all shifts of a list looks back from the position. -/
theorem map_getD_shiftRightIgnoreEos {hist : List α} {pos : ℕ}
    (hpos : pos ∈ List.range hist.length) {n : ℕ} {eos default : α} :
    (((List.range n).map fun shift => shiftRightIgnoreEos hist shift eos).map
      fun row => row.getD pos default) = lookBack eos n (hist.take (pos + 1)).reverse := by
  rw [List.map_map, lookBack]
  refine List.map_congr_left fun shift _ => ?_
  simp only [Function.comp_apply, List.getD_eq_getElem?_getD,
    getElem?_shiftRightIgnoreEos (List.mem_range.mp hpos), Option.getD_some]

end Shift

end EngramDB
