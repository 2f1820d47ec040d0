import Mathlib.Data.List.Basic
import Mathlib.Data.List.Perm.Basic
import Mathlib.Data.List.TakeDrop
import Mathlib.Tactic.Ring

/-!
# Buffers of fixed-width slots

A flat buffer of `n * w` entries is a row of `n` slots of width `w`. This module reads and
overwrites such a buffer slot by slot:

* `slot w buf i` reads slot `i`, and `store buf pos src` overwrites the buffer from `pos`;
* `slot_store_self` and `slot_store_of_ne`: overwriting one slot changes that slot alone;
* `slot_flatten`: the slots of a concatenation of `w`-wide pieces are the pieces;
* `ext_slots`: two buffers of `n` slots with the same slots are equal;
* `slots w buf` lists the complete slots, and inverts concatenation (`slots_flatten`,
  `flatten_slots`);
* `slot_scatter`: writing a list of indexed pieces with distinct indices puts every piece into its
  own slot, in whatever order the list is in.
-/

namespace SlotBuffer

variable {α : Type}

/-- Slot `i` of a buffer of `w`-wide slots: the `w` entries from position `i * w`. -/
def slot (w : ℕ) (buf : List α) (i : ℕ) : List α :=
  (buf.drop (i * w)).take w

/-- The buffer with the entries from position `pos` overwritten by `src`. -/
def store (buf : List α) (pos : ℕ) (src : List α) : List α :=
  buf.take pos ++ src ++ buf.drop (pos + src.length)

/-- Two buffers of `n` entries are equal iff they agree entry by entry. -/
theorem eq_iff_getElem? {n : ℕ} {a b : List α} (ha : a.length = n) (hb : b.length = n) :
    a = b ↔ ∀ x < n, a[x]? = b[x]? := by
  constructor
  · rintro rfl x _
    rfl
  · intro h
    apply List.ext_getElem?
    intro x
    rcases Nat.lt_or_ge x n with hx | hx
    · exact h x hx
    · rw [List.getElem?_eq_none (by omega), List.getElem?_eq_none (by omega)]

/-- Overwriting inside a buffer, where there is room for all of it (`h`), keeps the length of the
buffer. -/
theorem length_store {buf src : List α} {pos : ℕ} (h : pos + src.length ≤ buf.length) :
    (store buf pos src).length = buf.length := by
  simp only [store, List.length_append, List.length_take, List.length_drop]
  omega

/-- Entry by entry, a store inside the buffer replaces exactly the entries it covers. -/
theorem getElem?_store {buf src : List α} {pos : ℕ} (h : pos + src.length ≤ buf.length) (j : ℕ) :
    (store buf pos src)[j]? =
      if pos ≤ j ∧ j < pos + src.length then src[j - pos]? else buf[j]? := by
  have hpos : (buf.take pos).length = pos := by simp; omega
  rw [store, List.append_assoc, List.getElem?_append, List.getElem?_append, hpos]
  split_ifs with h1 h2 h3 h3 h3
  · omega
  · rw [List.getElem?_take_of_lt h1]
  · rfl
  · omega
  · omega
  · rw [List.getElem?_drop]
    congr 1
    omega

/-- Entry by entry, a slot shows the entries of the buffer from its start. -/
theorem getElem?_slot (w : ℕ) (buf : List α) (i x : ℕ) :
    (slot w buf i)[x]? = if x < w then buf[i * w + x]? else none := by
  split_ifs with h
  · rw [slot, List.getElem?_take_of_lt h, List.getElem?_drop]
  · rw [slot, List.getElem?_eq_none]
    simp only [List.length_take, List.length_drop]
    omega

/-- A slot that lies inside the buffer has its full width. -/
theorem length_slot {w : ℕ} {buf : List α} {i : ℕ} (h : (i + 1) * w ≤ buf.length) :
    (slot w buf i).length = w := by
  have hmul : (i + 1) * w = i * w + w := by ring
  simp only [slot, List.length_take, List.length_drop]
  omega

/-- The slot that is overwritten holds what was written, when that is one slot long (`hsrc`) and the
slot lies in the buffer (`h`). -/
theorem slot_store_self {w : ℕ} {buf src : List α} {i : ℕ} (hsrc : src.length = w)
    (h : (i + 1) * w ≤ buf.length) : slot w (store buf (i * w) src) i = src := by
  have hmul : (i + 1) * w = i * w + w := by ring
  apply List.ext_getElem?
  intro x
  rw [getElem?_slot, getElem?_store (by omega)]
  split_ifs with h1 h2
  · congr 1
    omega
  · omega
  · rw [List.getElem?_eq_none (by omega)]

/-- Overwriting slot `i` leaves every other slot as it was. -/
theorem slot_store_of_ne {w : ℕ} {buf src : List α} {i j : ℕ} (hsrc : src.length = w)
    (h : (i + 1) * w ≤ buf.length) (hij : i ≠ j) :
    slot w (store buf (i * w) src) j = slot w buf j := by
  have hmul : (i + 1) * w = i * w + w := by ring
  apply List.ext_getElem?
  intro x
  rw [getElem?_slot, getElem?_slot]
  split_ifs with hx
  · rw [getElem?_store (by omega), if_neg]
    rintro ⟨h1, h2⟩
    rcases Nat.lt_or_gt_of_ne hij with hlt | hgt
    · have : (i + 1) * w ≤ j * w := Nat.mul_le_mul_right w hlt
      omega
    · have : (j + 1) * w ≤ i * w := Nat.mul_le_mul_right w hgt
      have hmul' : (j + 1) * w = j * w + w := by ring
      omega
  · rfl

/-- A slot of `B` slots, cut into slots itself: slot `j` of it (`hj`) is slot `i * B + j` of the
buffer. -/
theorem slot_slot {w B j : ℕ} (buf : List α) (i : ℕ) (hj : j < B) :
    slot w (slot (B * w) buf i) j = slot w buf (i * B + j) := by
  have hle : (j + 1) * w ≤ B * w := Nat.mul_le_mul_right w hj
  have hmul : (j + 1) * w = j * w + w := by ring
  apply List.ext_getElem?
  intro x
  rw [getElem?_slot w (slot (B * w) buf i), getElem?_slot w buf]
  split_ifs with hx
  · rw [getElem?_slot, if_pos (by omega)]
    congr 1
    ring
  · rfl

/-- The length of a concatenation of pieces that are all `w` wide (`hw`). -/
theorem length_flatten {w : ℕ} {pieces : List (List α)} (hw : ∀ p ∈ pieces, p.length = w) :
    pieces.flatten.length = pieces.length * w := by
  induction pieces with
  | nil => simp
  | cons p ps ih =>
    have hp : p.length = w := hw p (by simp)
    have hps : ps.flatten.length = ps.length * w := ih fun q hq => hw q (by simp [hq])
    rw [List.flatten_cons, List.length_append, hp, hps, List.length_cons]
    ring

/-- Dropping `i` whole pieces from a concatenation drops `i` pieces from the list. -/
theorem drop_flatten {w : ℕ} {pieces : List (List α)} (hw : ∀ p ∈ pieces, p.length = w)
    (i : ℕ) : pieces.flatten.drop (i * w) = (pieces.drop i).flatten := by
  induction pieces generalizing i with
  | nil => simp
  | cons p ps ih =>
    cases i with
    | zero => simp
    | succ i =>
      have hp : p.length = w := hw p (by simp)
      have hi : (i + 1) * w = p.length + i * w := by rw [hp]; ring
      rw [List.flatten_cons, hi, List.drop_append, List.drop_succ_cons]
      simp only [List.drop_of_length_le (Nat.le_add_right _ _), List.nil_append,
        Nat.add_sub_cancel_left]
      exact ih (fun q hq => hw q (by simp [hq])) i

/-- Taking `n` whole pieces from a concatenation takes `n` pieces from the list. -/
theorem take_flatten {w : ℕ} {pieces : List (List α)} (hw : ∀ p ∈ pieces, p.length = w) (n : ℕ) :
    pieces.flatten.take (n * w) = (pieces.take n).flatten := by
  induction pieces generalizing n with
  | nil => simp
  | cons p ps ih =>
    cases n with
    | zero => simp
    | succ n =>
      have hp : p.length = w := hw p (by simp)
      have hn : (n + 1) * w = p.length + n * w := by rw [hp]; ring
      rw [List.flatten_cons, hn, List.take_length_add_append, ih fun q hq => hw q (by simp [hq]),
        List.take_succ_cons, List.flatten_cons]

/-- A slot of `n` whole pieces is the concatenation of `n` pieces. -/
theorem slot_mul_flatten {w : ℕ} {pieces : List (List α)}
    (hw : ∀ p ∈ pieces, p.length = w) (n i : ℕ) :
    slot (n * w) pieces.flatten i = (slot n pieces i).flatten := by
  rw [slot, ← Nat.mul_assoc, drop_flatten hw,
    take_flatten fun p hp => hw p (List.mem_of_mem_drop hp)]
  rfl

/-- The slots of a concatenation of `w`-wide pieces are the pieces. -/
theorem slot_flatten {w : ℕ} {pieces : List (List α)} (hw : ∀ p ∈ pieces, p.length = w)
    {i : ℕ} {p : List α} (hp : pieces[i]? = some p) : slot w pieces.flatten i = p := by
  have hi : i < pieces.length := (List.getElem?_eq_some_iff.mp hp).1
  have hpi : pieces[i] = p := (List.getElem?_eq_some_iff.mp hp).2
  have hlen : p.length = w := hw p (hpi ▸ List.getElem_mem hi)
  rw [slot, drop_flatten hw, List.drop_eq_getElem_cons hi, List.flatten_cons, hpi, ← hlen,
    List.take_left]

/-- Entry `q` of a concatenation of `w`-wide pieces is entry `q % w` of piece `q / w`. -/
theorem getElem?_flatten {w : ℕ} {pieces : List (List α)} (hw : ∀ p ∈ pieces, p.length = w)
    (q : ℕ) : pieces.flatten[q]? = pieces[q / w]?.bind (·[q % w]?) := by
  induction pieces generalizing q with
  | nil => simp
  | cons p ps ih =>
    have hp : p.length = w := hw p (by simp)
    have hps := ih (fun r hr => hw r (by simp [hr]))
    rw [List.flatten_cons, List.getElem?_append, hp]
    split_ifs with hq
    · rw [Nat.div_eq_of_lt hq, Nat.mod_eq_of_lt hq]
      simp
    -- pieces without entries: the list is empty, and so is every piece
    · rcases Nat.eq_zero_or_pos w with rfl | hw0
      · rw [hps]
        simp only [Nat.div_zero, Nat.mod_zero, List.getElem?_cons_zero, Option.bind_some]
        rw [List.getElem?_eq_none (l := p) (by omega)]
        cases ps with
        | nil => simp
        | cons r rs =>
          have hr : r.length = 0 := hw r (by simp)
          simp [List.length_eq_zero_iff.mp hr]
      · have hdiv : q / w = (q - w) / w + 1 := by
          rw [Nat.div_eq_sub_div hw0 (by omega)]
        have hmod : q % w = (q - w) % w := Nat.mod_eq_sub_mod (by omega)
        rw [hps, hdiv, hmod, List.getElem?_cons_succ]

/-- Two buffers of `n` slots that agree slot by slot are equal. -/
theorem ext_slots {w n : ℕ} {a b : List α} (ha : a.length = n * w) (hb : b.length = n * w)
    (h : ∀ i < n, slot w a i = slot w b i) : a = b := by
  apply List.ext_getElem?
  intro q
  rcases Nat.lt_or_ge q (n * w) with hq | hq
  · have hw : 0 < w := Nat.pos_of_ne_zero fun h0 => by simp [h0] at hq
    have hi : q / w < n := Nat.div_lt_of_lt_mul (by rwa [Nat.mul_comm])
    have hslot := congrArg (·[q % w]?) (h (q / w) hi)
    simp only [getElem?_slot, Nat.mod_lt q hw, if_true] at hslot
    rwa [Nat.div_add_mod'] at hslot
  · rw [List.getElem?_eq_none (by omega), List.getElem?_eq_none (by omega)]

/-- The complete `w`-wide slots of a buffer, first to last; an incomplete rest is left out. -/
def slots (w : ℕ) (buf : List α) : List (List α) :=
  (List.range (buf.length / w)).map (slot w buf)

@[simp]
theorem length_slots (w : ℕ) (buf : List α) : (slots w buf).length = buf.length / w := by
  simp [slots]

/-- Every slot of a buffer has its full width `w`, for a rest that is shorter is dropped. -/
theorem length_of_mem_slots {w : ℕ} {buf p : List α} (hp : p ∈ slots w buf) : p.length = w := by
  obtain ⟨i, hi, rfl⟩ := List.mem_map.mp hp
  rw [List.mem_range] at hi
  apply length_slot
  calc (i + 1) * w ≤ buf.length / w * w := Nat.mul_le_mul_right w hi
    _ ≤ buf.length := Nat.div_mul_le_self _ _

theorem getElem?_slots {w : ℕ} {buf : List α} {i : ℕ} (hi : i < buf.length / w) :
    (slots w buf)[i]? = some (slot w buf i) := by
  simp [slots, hi]

/-- The slots of a buffer whose entries are mapped. -/
theorem slots_map {β : Type} (f : α → β) (w : ℕ) (buf : List α) :
    slots w (buf.map f) = (slots w buf).map (List.map f) := by
  simp [slots, slot, List.map_take, List.map_drop]

/-- Cutting a concatenation of `w`-wide pieces gives the pieces back. -/
theorem slots_flatten {w : ℕ} (hw0 : 0 < w) {pieces : List (List α)}
    (hw : ∀ p ∈ pieces, p.length = w) : slots w pieces.flatten = pieces := by
  have hcount : pieces.flatten.length / w = pieces.length := by
    rw [length_flatten hw, Nat.mul_div_cancel _ hw0]
  apply List.ext_getElem?
  intro i
  rcases Nat.lt_or_ge i pieces.length with hi | hi
  · rw [getElem?_slots (by omega), slot_flatten hw (List.getElem?_eq_getElem hi),
      List.getElem?_eq_getElem hi]
  · rw [List.getElem?_eq_none (by rw [length_slots]; omega), List.getElem?_eq_none hi]

/-- The first slot of a buffer that begins with a `w`-wide piece, and the others. -/
theorem slots_append {w : ℕ} (hw0 : 0 < w) {piece : List α} (hw : piece.length = w) (buf : List α) :
    slots w (piece ++ buf) = piece :: slots w buf := by
  have hcount : (piece ++ buf).length / w = buf.length / w + 1 := by
    rw [List.length_append, hw, Nat.add_comm, Nat.add_div_right _ hw0]
  rw [slots, hcount, List.range_succ_eq_map, List.map_cons, List.map_map, slots]
  congr 1
  · rw [slot, Nat.zero_mul, List.drop_zero, List.take_left' hw]
  · refine List.map_congr_left fun i _ => ?_
    have hi : i.succ * w = piece.length + i * w := by rw [hw, Nat.succ_mul, Nat.add_comm]
    rw [Function.comp_apply, slot, slot, hi, List.drop_append, List.drop_of_length_le (by omega),
      List.nil_append, Nat.add_sub_cancel_left]

/-- The slots of a buffer that begins with `w`-wide pieces begin with the pieces. -/
theorem slots_flatten_append {w : ℕ} (hw0 : 0 < w) {pieces : List (List α)}
    (hw : ∀ p ∈ pieces, p.length = w) (buf : List α) :
    slots w (pieces.flatten ++ buf) = pieces ++ slots w buf := by
  induction pieces with
  | nil => rfl
  | cons p ps ih =>
    rw [List.flatten_cons, List.append_assoc, slots_append hw0 (hw p (by simp)),
      ih fun q hq => hw q (by simp [hq]), List.cons_append]

/-- A buffer that consists of whole slots is the concatenation of its slots. -/
theorem flatten_slots {w : ℕ} {buf : List α} (h : w ∣ buf.length) :
    (slots w buf).flatten = buf := by
  obtain ⟨n, hn⟩ := h
  rcases Nat.eq_zero_or_pos w with rfl | hw
  · have hnil : buf = [] := List.length_eq_zero_iff.mp (by simpa using hn)
    simp [hnil, slots]
  · have hdiv : buf.length / w = n := by rw [hn, Nat.mul_div_cancel_left _ hw]
    have hwide : ∀ p ∈ slots w buf, p.length = w := fun p hp => length_of_mem_slots hp
    refine ext_slots (w := w) (n := n) ?_ (by rw [hn, Nat.mul_comm]) fun i hi => ?_
    · rw [length_flatten hwide, length_slots, hdiv]
    · exact slot_flatten hwide (getElem?_slots (by omega))

/-- The slots of a buffer that begins with whole slots begin with those. -/
theorem slots_append_of_dvd {w : ℕ} (hw0 : 0 < w) {buf : List α} (h : w ∣ buf.length)
    (rest : List α) :
    slots w (buf ++ rest) = slots w buf ++ slots w rest := by
  have hwide : ∀ p ∈ slots w buf, p.length = w := fun p hp => length_of_mem_slots hp
  have hflat := slots_flatten_append hw0 hwide rest
  rwa [flatten_slots h] at hflat

/-- Pieces of whole slots (`h`) are cut piece by piece, for slots of a positive width (`hw0`). -/
theorem slots_flatten_of_dvd {w : ℕ} (hw0 : 0 < w) {pieces : List (List α)}
    (h : ∀ p ∈ pieces, w ∣ p.length) : slots w pieces.flatten = pieces.flatMap (slots w) := by
  induction pieces with
  | nil => simp [slots]
  | cons p pieces ih =>
    rw [List.flatten_cons, slots_append_of_dvd hw0 (h p List.mem_cons_self), List.flatMap_cons,
      ih fun q hq => h q (List.mem_cons_of_mem _ hq)]

/-- Write the pieces `(i, piece)` of a list into slot `i` each, first to last. -/
def scatter (w : ℕ) (buf : List α) (pieces : List (ℕ × List α)) : List α :=
  pieces.foldl (fun b p => store b (p.1 * w) p.2) buf

@[simp]
theorem scatter_nil (w : ℕ) (buf : List α) : scatter w buf [] = buf := rfl

@[simp]
theorem scatter_cons (w : ℕ) (buf : List α) (p : ℕ × List α) (ps : List (ℕ × List α)) :
    scatter w buf (p :: ps) = scatter w (store buf (p.1 * w) p.2) ps := rfl

theorem scatter_append (w : ℕ) (buf : List α) (ps qs : List (ℕ × List α)) :
    scatter w buf (ps ++ qs) = scatter w (scatter w buf ps) qs := by
  simp [scatter]

section Scatter

variable {w n : ℕ} {buf : List α} {pieces : List (ℕ × List α)}

/-- Scattering pieces that fit keeps the length of the buffer. -/
theorem length_scatter (hbuf : buf.length = n * w)
    (hfit : ∀ p ∈ pieces, p.1 < n ∧ p.2.length = w) :
    (scatter w buf pieces).length = n * w := by
  induction pieces generalizing buf with
  | nil => simpa using hbuf
  | cons p ps ih =>
    obtain ⟨hp, hlen⟩ := hfit p (by simp)
    have hle : (p.1 + 1) * w ≤ n * w := Nat.mul_le_mul_right w hp
    have hmul : (p.1 + 1) * w = p.1 * w + w := by ring
    refine ih ?_ fun q hq => hfit q (by simp [hq])
    rw [length_store (by omega), hbuf]

/-- A slot that no piece is for keeps its contents. -/
theorem slot_scatter_of_notMem (hbuf : buf.length = n * w)
    (hfit : ∀ p ∈ pieces, p.1 < n ∧ p.2.length = w) {i : ℕ}
    (hi : i ∉ pieces.map Prod.fst) : slot w (scatter w buf pieces) i = slot w buf i := by
  induction pieces generalizing buf with
  | nil => rfl
  | cons p ps ih =>
    obtain ⟨hp, hlen⟩ := hfit p (by simp)
    have hle : (p.1 + 1) * w ≤ n * w := Nat.mul_le_mul_right w hp
    have hmul : (p.1 + 1) * w = p.1 * w + w := by ring
    simp only [List.map_cons, List.mem_cons, not_or] at hi
    rw [scatter_cons, ih (by rw [length_store (by omega), hbuf])
      (fun q hq => hfit q (by simp [hq])) hi.2]
    exact slot_store_of_ne hlen (by omega) (Ne.symm hi.1)

/-- When the indices are distinct, every piece ends up in the slot it is for. -/
theorem slot_scatter (hbuf : buf.length = n * w)
    (hfit : ∀ p ∈ pieces, p.1 < n ∧ p.2.length = w) (hnodup : (pieces.map Prod.fst).Nodup)
    {i : ℕ} {piece : List α} (hmem : (i, piece) ∈ pieces) :
    slot w (scatter w buf pieces) i = piece := by
  induction pieces generalizing buf with
  | nil => cases hmem
  | cons p ps ih =>
    obtain ⟨hp, hlen⟩ := hfit p (by simp)
    have hle : (p.1 + 1) * w ≤ n * w := Nat.mul_le_mul_right w hp
    have hmul : (p.1 + 1) * w = p.1 * w + w := by ring
    have hstore : (store buf (p.1 * w) p.2).length = n * w := by
      rw [length_store (by omega), hbuf]
    have hfit' : ∀ q ∈ ps, q.1 < n ∧ q.2.length = w := fun q hq => hfit q (by simp [hq])
    rw [List.map_cons, List.nodup_cons] at hnodup
    rw [scatter_cons]
    rcases List.mem_cons.mp hmem with rfl | hmem
    · rw [slot_scatter_of_notMem hstore hfit' hnodup.1]
      exact slot_store_self hlen (by omega)
    · exact ih hstore hfit' hnodup.2 hmem

/-- When all pieces for a slot are the same, the slot ends up with it. -/
theorem slot_scatter_of_forall (hbuf : buf.length = n * w)
    (hfit : ∀ p ∈ pieces, p.1 < n ∧ p.2.length = w) {i : ℕ} {piece : List α}
    (hsame : ∀ p ∈ pieces, p.1 = i → p.2 = piece) (hi : i ∈ pieces.map Prod.fst) :
    slot w (scatter w buf pieces) i = piece := by
  induction pieces generalizing buf with
  | nil => cases hi
  | cons p ps ih =>
    obtain ⟨hp, hlen⟩ := hfit p (by simp)
    have hle : (p.1 + 1) * w ≤ n * w := Nat.mul_le_mul_right w hp
    have hmul : (p.1 + 1) * w = p.1 * w + w := by ring
    have hstore : (store buf (p.1 * w) p.2).length = n * w := by
      rw [length_store (by omega), hbuf]
    have hfit' : ∀ q ∈ ps, q.1 < n ∧ q.2.length = w := fun q hq => hfit q (by simp [hq])
    rw [scatter_cons]
    by_cases hps : i ∈ ps.map Prod.fst
    · exact ih hstore hfit' (fun q hq => hsame q (by simp [hq])) hps
    · -- the head is the last piece for the slot
      have hpi : p.1 = i := by
        rw [List.map_cons, List.mem_cons] at hi
        exact (hi.resolve_right hps).symm
      rw [slot_scatter_of_notMem hstore hfit' hps, ← hsame p (by simp) hpi, ← hpi]
      exact slot_store_self hlen (by omega)

end Scatter

/-- Pieces that are rows of a list, each at its own index, leave the rows one after another, if
every row is among them. -/
theorem scatter_eq_flatten {w : ℕ} {buf : List α} {rows : List (List α)}
    {pieces : List (ℕ × List α)} (hw : ∀ row ∈ rows, row.length = w)
    (hbuf : buf.length = rows.length * w) (hrows : ∀ p ∈ pieces, rows[p.1]? = some p.2)
    (hcover : ∀ i < rows.length, i ∈ pieces.map Prod.fst) :
    scatter w buf pieces = rows.flatten := by
  have hfit : ∀ p ∈ pieces, p.1 < rows.length ∧ p.2.length = w := by
    intro p hp
    have hp' := hrows p hp
    exact ⟨(List.getElem?_eq_some_iff.mp hp').1, hw _ (List.mem_of_getElem? hp')⟩
  refine ext_slots (length_scatter hbuf hfit) (length_flatten hw) fun i hi => ?_
  have hrow : rows[i]? = some rows[i] := List.getElem?_eq_getElem hi
  rw [slot_flatten hw hrow]
  refine slot_scatter_of_forall hbuf hfit (fun p hp hpi => ?_) (hcover i hi)
  have hp' := hrows p hp
  rw [hpi, hrow] at hp'
  exact (Option.some.inj hp').symm

end SlotBuffer
