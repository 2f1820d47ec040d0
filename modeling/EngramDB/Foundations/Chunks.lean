import Mathlib.Data.List.Basic
import Mathlib.Tactic.Common

/-!
# Consecutive chunks of a list

`chunks n l` cuts `l` into consecutive pieces of `n` entries, the last one possibly shorter. For
`0 < n` the pieces concatenate back to `l` (`flatten_chunks`), none is empty
(`ne_nil_of_mem_chunks`) and none is longer than `n` (`length_le_of_mem_chunks`).
-/

namespace Chunking

variable {α : Type}

/-- The cutting loop: at most `fuel` pieces of `n` entries. -/
def chunksAux (n : ℕ) : ℕ → List α → List (List α)
  | 0, _ => []
  | _ + 1, [] => []
  | fuel + 1, a :: l => (a :: l).take n :: chunksAux n fuel ((a :: l).drop n)

/-- Consecutive pieces of `n` entries each, the last one possibly shorter. -/
def chunks (n : ℕ) (l : List α) : List (List α) :=
  chunksAux n l.length l

@[simp]
theorem chunks_nil (n : ℕ) : chunks n ([] : List α) = [] := rfl

theorem flatten_chunksAux {n : ℕ} (hn : 0 < n) (fuel : ℕ) (l : List α) (h : l.length ≤ fuel) :
    (chunksAux n fuel l).flatten = l := by
  induction fuel generalizing l with
  | zero =>
    have hnil : l = [] := List.length_eq_zero_iff.mp (by omega)
    simp [chunksAux, hnil]
  | succ fuel ih =>
    cases l with
    | nil => rfl
    | cons a l =>
      have hlen : ((a :: l).drop n).length ≤ fuel := by
        simp only [List.length_drop, List.length_cons] at h ⊢
        omega
      rw [chunksAux, List.flatten_cons, ih _ hlen, List.take_append_drop]

/-- The pieces of a positive size (`hn`), put together again, are the list. -/
theorem flatten_chunks {n : ℕ} (hn : 0 < n) (l : List α) : (chunks n l).flatten = l :=
  flatten_chunksAux hn l.length l (Nat.le_refl _)

/-- Fuel beyond the length of the list (`h`, `h'`) changes nothing, for every piece takes at least
one entry (`hn`). -/
theorem chunksAux_of_le {n : ℕ} (hn : 0 < n) {fuel fuel' : ℕ} {l : List α} (h : l.length ≤ fuel)
    (h' : l.length ≤ fuel') : chunksAux n fuel l = chunksAux n fuel' l := by
  induction fuel generalizing fuel' l with
  | zero =>
    have hnil : l = [] := List.length_eq_zero_iff.mp (by omega)
    cases fuel' <;> simp [chunksAux, hnil]
  | succ fuel ih =>
    cases l with
    | nil => cases fuel' <;> rfl
    | cons a l =>
      cases fuel' with
      | zero => simp at h'
      | succ fuel' =>
        have hdrop : ((a :: l).drop n).length ≤ l.length := by
          simp only [List.length_drop, List.length_cons]
          omega
        rw [List.length_cons] at h h'
        rw [chunksAux, chunksAux, ih (by omega) (by omega : ((a :: l).drop n).length ≤ fuel')]

/-- The first piece of a list that is long enough, and the others. -/
theorem chunks_append {piece : List α} (hpos : 0 < piece.length) (l : List α) :
    chunks piece.length (piece ++ l) = piece :: chunks piece.length l := by
  obtain ⟨a, rest, rfl⟩ := List.exists_cons_of_length_pos hpos
  have hfirst : chunks (a :: rest).length ((a :: rest) ++ l) =
      ((a :: rest) ++ l).take (a :: rest).length ::
        chunksAux (a :: rest).length (rest ++ l).length
          (((a :: rest) ++ l).drop (a :: rest).length) := rfl
  rw [hfirst, List.take_left, List.drop_left]
  congr 1
  exact chunksAux_of_le hpos (by rw [List.length_append]; omega) (Nat.le_refl _)

/-- The pieces of a concatenation of `w`-wide pieces are these. -/
theorem chunks_flatten {w : ℕ} (hw0 : 0 < w) {pieces : List (List α)}
    (hw : ∀ p ∈ pieces, p.length = w) : chunks w pieces.flatten = pieces := by
  induction pieces with
  | nil => rfl
  | cons p ps ih =>
    obtain rfl : p.length = w := hw p (by simp)
    rw [List.flatten_cons, chunks_append hw0, ih fun q hq => hw q (by simp [hq])]

/-- A list that is not longer than a piece is one piece. -/
theorem chunks_of_length_le {n : ℕ} {l : List α} (hne : l ≠ []) (h : l.length ≤ n) :
    chunks n l = [l] := by
  cases l with
  | nil => exact absurd rfl hne
  | cons a l =>
    rw [chunks, List.length_cons, chunksAux, List.take_of_length_le h, List.drop_of_length_le h]
    cases l.length <;> rfl

/-- The first piece of a list that is not empty, and the others. -/
theorem chunks_eq_cons {n : ℕ} (hn : 0 < n) {l : List α} (hne : l ≠ []) :
    chunks n l = l.take n :: chunks n (l.drop n) := by
  cases l with
  | nil => exact absurd rfl hne
  | cons a l =>
    rw [chunks, List.length_cons, chunksAux, chunks]
    congr 1
    refine chunksAux_of_le hn ?_ (Nat.le_refl _)
    rw [List.length_drop, List.length_cons]
    omega

theorem mem_chunksAux {n fuel : ℕ} {l c : List α} (hc : c ∈ chunksAux n fuel l) :
    ∃ k, k < l.length ∧ c = (l.drop k).take n ∧ n ∣ k := by
  induction fuel generalizing l with
  | zero => cases hc
  | succ fuel ih =>
    cases l with
    | nil => cases hc
    | cons a l =>
      rcases List.mem_cons.mp hc with rfl | hc
      · exact ⟨0, by simp, rfl, Nat.dvd_zero n⟩
      · obtain ⟨k, hk, rfl, hdvd⟩ := ih hc
        rw [List.length_drop] at hk
        refine ⟨n + k, by omega, ?_, Nat.dvd_add (Nat.dvd_refl n) hdvd⟩
        rw [List.drop_drop]

/-- Every piece is the run of up to `n` entries from some multiple of `n` on. -/
theorem mem_chunks {n : ℕ} {l c : List α} (hc : c ∈ chunks n l) :
    ∃ k, k < l.length ∧ c = (l.drop k).take n ∧ n ∣ k :=
  mem_chunksAux hc

/-- No piece of a positive size (`hn`) is empty. -/
theorem ne_nil_of_mem_chunks {n : ℕ} (hn : 0 < n) {l c : List α} (hc : c ∈ chunks n l) :
    c ≠ [] := by
  obtain ⟨k, hk, rfl, -⟩ := mem_chunks hc
  intro hnil
  have hlen := congrArg List.length hnil
  simp only [List.length_take, List.length_drop, List.length_nil] at hlen
  omega

/-- The entries of the pieces are the entries of the list. -/
theorem mem_of_mem_chunks {n : ℕ} (hn : 0 < n) {l c : List α} (hc : c ∈ chunks n l) {a : α}
    (ha : a ∈ c) : a ∈ l := by
  rw [← flatten_chunks hn l]
  exact List.mem_flatten.mpr ⟨c, hc, ha⟩

/-- Cutting a list and a buffer of `w` entries for each of its entries gives pieces that belong
together. -/
theorem forall₂_chunksAux {β : Type} {n w : ℕ} (hn : 0 < n) (hw : 0 < w) (fuel fuel' : ℕ)
    (l : List α) (buf : List β) (hfuel : l.length ≤ fuel) (hfuel' : buf.length ≤ fuel')
    (hbuf : buf.length = l.length * w) :
    List.Forall₂ (fun c b => b.length = c.length * w) (chunksAux n fuel l)
      (chunksAux (n * w) fuel' buf) := by
  -- both lists are cut in step; neither runs out of fuel before it is empty
  induction fuel generalizing fuel' l buf with
  | zero =>
    obtain rfl : l = [] := List.length_eq_zero_iff.mp (by omega)
    obtain rfl : buf = [] := List.length_eq_zero_iff.mp (by simpa using hbuf)
    cases fuel' <;> exact .nil
  | succ fuel ih =>
    cases l with
    | nil =>
      obtain rfl : buf = [] := List.length_eq_zero_iff.mp (by simpa using hbuf)
      cases fuel' <;> exact .nil
    | cons a l =>
      have hpos : 0 < buf.length := by
        rw [hbuf]
        exact Nat.mul_pos (by simp) hw
      cases buf with
      | nil => cases hpos
      | cons b buf =>
        cases fuel' with
        | zero => simp at hfuel'
        | succ fuel' =>
          have hnw : 0 < n * w := Nat.mul_pos hn hw
          refine .cons ?_ (ih fuel' _ _ ?_ ?_ ?_)
          · rw [List.length_take, List.length_take, hbuf, ← Nat.mul_min_mul_right]
          · simp only [List.length_drop, List.length_cons] at hfuel ⊢
            omega
          · simp only [List.length_drop, List.length_cons] at hfuel' ⊢
            omega
          · rw [List.length_drop, List.length_drop, hbuf, Nat.sub_mul]

theorem forall₂_chunks {β : Type} {n w : ℕ} (hn : 0 < n) (hw : 0 < w) {l : List α} {buf : List β}
    (hbuf : buf.length = l.length * w) :
    List.Forall₂ (fun c b => b.length = c.length * w) (chunks n l) (chunks (n * w) buf) :=
  forall₂_chunksAux hn hw _ _ _ _ (Nat.le_refl _) (Nat.le_refl _) hbuf

/-- A list and a buffer with at least `w` entries for each of its entries are cut and worked on
piece by piece. Every piece fits into its part of the buffer, and if the work on it puts `g` of it
to the start of the part, then the whole buffer starts with `g` of all pieces, and its rest is as it
was. -/
theorem flatten_map_zip_chunks {β : Type} {n w : ℕ} (hn : 0 < n) (hw : 0 < w) (g : List α → List β)
    (l : List α) (buf : List β) (hbuf : l.length * w ≤ buf.length) :
    (∀ p ∈ (chunks n l).zip (chunks (n * w) buf), p.1.length * w ≤ p.2.length) ∧
      (((chunks n l).zip (chunks (n * w) buf)).map fun p =>
        g p.1 ++ p.2.drop (p.1.length * w)).flatten ++
        ((chunks (n * w) buf).drop ((chunks n l).zip (chunks (n * w) buf)).length).flatten =
      ((chunks n l).map g).flatten ++ buf.drop (l.length * w) := by
  have hnw : 0 < n * w := Nat.mul_pos hn hw
  induction hlen : l.length using Nat.strongRecOn generalizing l buf with
  | _ m ih =>
    subst hlen
    rcases eq_or_ne l [] with rfl | hne
    · simp [flatten_chunks hnw]
    have hpos := List.length_pos_iff.mpr hne
    have hbne : buf ≠ [] := by
      have hlt := Nat.mul_pos hpos hw
      exact List.ne_nil_of_length_pos (by omega)
    -- what the first piece has of the buffer
    have htake : (l.take n).length * w ≤ (buf.take (n * w)).length := by
      rw [List.length_take, List.length_take, ← Nat.mul_min_mul_right]
      omega
    obtain ⟨hfit, heq⟩ := ih (l.drop n).length (by rw [List.length_drop]; omega) (l.drop n)
      (buf.drop (n * w)) (by
        rw [List.length_drop, List.length_drop, Nat.sub_mul]
        exact Nat.sub_le_sub_right hbuf _) rfl
    rw [chunks_eq_cons hn hne, chunks_eq_cons hnw hbne, List.zip_cons_cons]
    refine ⟨fun p hp => ?_, ?_⟩
    · rcases List.mem_cons.mp hp with rfl | hp
      · exact htake
      · exact hfit p hp
    · rw [List.map_cons, List.flatten_cons, List.length_cons, List.drop_succ_cons,
        List.append_assoc, heq,
        List.map_cons, List.flatten_cons, List.append_assoc, List.append_assoc]
      congr 1
      rcases Nat.le_total n l.length with hle | hle
      · -- the piece is full, and so is its part of the buffer
        rw [List.length_take, Nat.min_eq_left hle,
          List.drop_of_length_le (by rw [List.length_take]; exact Nat.min_le_left _ _),
            List.nil_append,
          List.drop_drop, List.length_drop, ← Nat.add_mul, Nat.add_sub_cancel' hle]
      · -- the last piece
        rw [List.drop_of_length_le hle, List.take_of_length_le hle]
        simp only [chunks_nil, List.map_nil, List.flatten_nil, List.nil_append, List.length_nil,
          Nat.zero_mul, List.drop_zero]
        have hlw : l.length * w ≤ n * w := Nat.mul_le_mul_right w hle
        conv_rhs => rw [← List.take_append_drop (n * w) buf]
        rw [List.drop_append_of_le_length]
        rw [List.length_take]
        exact Nat.le_min.mpr ⟨hlw, hbuf⟩

end Chunking
