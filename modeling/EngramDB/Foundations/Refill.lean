import EngramDB.Foundations.Slots

/-!
# Filling a buffer from a source of short reads

A read takes as many entries as it likes of what is left, at least one unless nothing is left or
there is no room (`Splits`). `fill` repeats the read until the buffer is full or nothing is left,
and `blocks` fills one buffer again and again, and pads the last block:

* `fill_eq`: however the reads are split, the buffer begins with what was left, as far as it fits;
* `blocks_eq`: the blocks, one after another, are the source and its padding.
-/

namespace Refill

open SlotBuffer

variable {α : Type}

/-- How many entries a read takes, when `left` are left and there is room for `room`. Every read
that takes any changes `left`, so that reads at different positions are split independently. -/
structure Splits where
  /-- The number of entries taken. -/
  take : ℕ → ℕ → ℕ
  /-- No more are taken than are left and fit. -/
  take_le : ∀ left room, take left room ≤ min left room
  /-- At least one is taken, if possible. -/
  take_pos : ∀ {left room}, 0 < left → 0 < room → 0 < take left room

/-- Every read takes all it can. -/
def Splits.whole : Splits where
  take := min
  take_le _ _ := Nat.le_refl _
  take_pos h h' := Nat.lt_min.mpr ⟨h, h'⟩

/-- Fill a buffer of `size` entries from position `got` on: the position reached, the buffer, and
what is left. -/
def fill (s : Splits) (size : ℕ) : ℕ → ℕ → List α → List α → ℕ × List α × List α
  | 0, got, buf, left => (got, buf, left)
  | fuel + 1, got, buf, left =>
    if got < size then
      let n := s.take left.length (size - got)
      if n = 0 then (got, buf, left)
      else fill s size fuel (got + n) (store buf got (left.take n)) (left.drop n)
    else (got, buf, left)

/-- Storing two runs one after the other is storing them at once. -/
theorem store_store_append (buf a b : List α) (pos : ℕ)
    (h : pos + (a ++ b).length ≤ buf.length) :
    store (store buf pos a) (pos + a.length) b = store buf pos (a ++ b) := by
  rw [List.length_append] at h
  have hpos : (buf.take pos ++ a).length = pos + a.length := by
    rw [List.length_append, List.length_take]
    omega
  simp only [store, List.length_append]
  rw [List.take_left' hpos, ← Nat.add_assoc, ← List.drop_drop (i := b.length), List.drop_left' hpos,
    List.drop_drop]
  simp only [List.append_assoc]

/-- However the reads are split, the buffer takes what is left, as far as it fits. -/
theorem fill_eq (s : Splits) {size fuel got : ℕ} {buf left : List α} (hbuf : buf.length = size)
    (hgot : got ≤ size) (hfuel : size ≤ got + fuel) :
    fill s size fuel got buf left =
      (got + min left.length (size - got), store buf got (left.take (size - got)),
        left.drop (size - got)) := by
  induction fuel generalizing got buf left with
  | zero =>
    obtain rfl : got = size := by omega
    simp [fill, store]
  | succ fuel ih =>
    rw [fill]
    split_ifs with hlt
    · have hle := s.take_le left.length (size - got)
      simp only
      split_ifs with hzero
      · -- nothing is left
        have hnil : left = [] := by
          by_contra hne
          have := s.take_pos (List.length_pos_iff.mpr hne) (Nat.sub_pos_of_lt hlt)
          omega
        simp [hnil, store]
      · have htake : (left.take (s.take left.length (size - got))).length =
            s.take left.length (size - got) := by
          rw [List.length_take]
          omega
        -- what is taken now and what is taken later
        have hsplit : left.take (s.take left.length (size - got)) ++
            (left.drop (s.take left.length (size - got))).take
              (size - (got + s.take left.length (size - got))) = left.take (size - got) := by
          rw [← List.take_add]
          congr 1
          omega
        rw [ih (by rw [length_store (by omega), hbuf]) (by omega) (by omega)]
        refine Prod.ext ?_ (Prod.ext ?_ ?_)
        · simp only [List.length_drop]
          omega
        · have hstore := store_store_append buf (left.take (s.take left.length (size - got)))
            ((left.drop (s.take left.length (size - got))).take
              (size - (got + s.take left.length (size - got)))) got
            (by rw [hsplit, List.length_take]; omega)
          rw [htake, hsplit] at hstore
          exact hstore
        · simp only [List.drop_drop]
          congr 1
          omega
    · obtain rfl : got = size := by omega
      simp [store]

/-- The blocks that one buffer is filled with, one after another, the last one padded with `z`. -/
def blocks (s : Splits) (size : ℕ) (z : α) : ℕ → List α → List α → List α → List α
  | 0, _, _, out => out
  | fuel + 1, buf, left, out =>
    let (got, buf, left) := fill s size size 0 buf left
    if got = 0 then out
    else
      let buf := if got < size then buf.take got ++ List.replicate (size - got) z else buf
      blocks s size z fuel buf left (out ++ buf)

/-- A list and as many `z` as make its length a multiple of `size`. -/
def padded (size : ℕ) (z : α) (l : List α) : List α :=
  l ++ List.replicate ((size - l.length % size) % size) z

theorem dvd_length_padded {size : ℕ} (hsize : 0 < size) (z : α) (l : List α) :
    size ∣ (padded size z l).length := by
  rw [padded, List.length_append, List.length_replicate, Nat.dvd_iff_mod_eq_zero, Nat.add_mod,
    Nat.mod_mod]
  rcases Nat.eq_zero_or_pos (l.length % size) with h | h
  · simp [h]
  · have hlt := Nat.mod_lt l.length hsize
    rw [Nat.mod_eq_of_lt (a := size - l.length % size) (by omega),
      show l.length % size + (size - l.length % size) = size by omega, Nat.mod_self]

/-- Padding a list of at least one block (`h`) leaves the first block and pads the rest. -/
theorem padded_eq_append {size : ℕ} (z : α) {l : List α} (h : size ≤ l.length) :
    padded size z l = l.take size ++ padded size z (l.drop size) := by
  have hmod : (l.length - size) % size = l.length % size := (Nat.mod_eq_sub_mod h).symm
  rw [padded, padded, List.length_drop, hmod, ← List.append_assoc, List.take_append_drop]

/-- However the reads are split, the blocks are the source and its padding. -/
theorem blocks_eq (s : Splits) {size : ℕ} (hsize : 0 < size) (z : α) {fuel : ℕ} {buf left : List α}
    (hbuf : buf.length = size) (hfuel : left.length < fuel) (out : List α) :
    blocks s size z fuel buf left out = out ++ padded size z left := by
  induction fuel generalizing buf left out with
  | zero => omega
  | succ fuel ih =>
    rw [blocks, fill_eq s hbuf (Nat.zero_le _) (by omega), Nat.zero_add, Nat.sub_zero]
    simp only
    split_ifs with hzero hlt
    · -- the end of the source
      obtain rfl : left = [] := List.length_eq_zero_iff.mp (by omega)
      simp [padded, Nat.mod_self]
    · -- the last block, which is not full
      have hshort : left.length < size := by omega
      have hmin : min left.length size = left.length := by omega
      have htake : (store buf 0 (left.take size)).take left.length = left := by
        rw [store, List.take_of_length_le (Nat.le_of_lt hshort), List.take_zero, List.nil_append]
        exact List.take_left' rfl
      rw [hmin, htake, List.drop_of_length_le (Nat.le_of_lt hshort),
        ih (by rw [List.length_append, List.length_replicate]; omega)
          (by rw [List.length_nil]; omega)]
      have hpad : padded size z left = left ++ List.replicate (size - left.length) z := by
        rw [padded, Nat.mod_eq_of_lt hshort, Nat.mod_eq_of_lt (by omega)]
      rw [hpad]
      simp [padded, Nat.mod_self]
    · -- a full block
      have hfull : size ≤ left.length := by omega
      have hstore : store buf 0 (left.take size) = left.take size := by
        rw [store, List.take_zero, List.nil_append, List.length_take, Nat.min_eq_left hfull,
          Nat.zero_add, List.drop_of_length_le (Nat.le_of_eq hbuf), List.append_nil]
      rw [hstore, ih (by rw [List.length_take]; omega) (by rw [List.length_drop]; omega),
        List.append_assoc, ← padded_eq_append z hfull]

end Refill
