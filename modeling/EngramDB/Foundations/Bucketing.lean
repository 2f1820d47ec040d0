import EngramDB.Foundations.Slots
import Mathlib.Algebra.BigOperators.Group.List.Lemmas
import Mathlib.Algebra.BigOperators.Ring.List

/-!
# Distributing pieces over buckets

A list of `w`-wide pieces is distributed over `n` buckets in three passes: the pieces of every
bucket are counted, the running sums of the counts give every bucket a region of one flat buffer,
and each piece is stored behind the pieces that its bucket already has.

* `counts_append_singleton`: counting goes piece by piece;
* `getElem?_offsets_counts`: the region of a bucket begins behind the pieces of the buckets before;
* `region_scatter`: at the end the region of a bucket holds its pieces in their order;
* `region_flatten`: the regions of a concatenation, for buckets that are written one after another;
* `foldl_update_apply`, `foldl_concat`: loops that write the buckets, each to a place of its own or
  one after another.
-/

namespace Bucketing

open SlotBuffer

variable {α β : Type}

/-- The number of items in each of `n` buckets. -/
def counts (n : ℕ) (f : β → ℕ) (xs : List β) : List ℕ :=
  (List.range n).map fun b => xs.countP fun x => f x = b

/-- The positions at which regions of the given sizes begin and end, from `o` on. -/
def offsetsFrom (o : ℕ) : List ℕ → List ℕ
  | [] => [o]
  | s :: sizes => o :: offsetsFrom (o + s) sizes

/-- The positions at which regions of the given sizes begin and end. -/
def offsets (sizes : List ℕ) : List ℕ := offsetsFrom 0 sizes

/-- The entries from position `start` to position `stop`. -/
def region (buf : List α) (start stop : ℕ) : List α := (buf.drop start).take (stop - start)

/-- A buffer, and how many pieces every bucket has got. -/
structure Scatter (α : Type) where
  /-- The buffer with the regions of all buckets. -/
  buffer : List α
  /-- The pieces stored so far in the region of each bucket. -/
  cursors : List ℕ

/-- Store a piece behind those that its bucket already has. -/
def place (w : ℕ) (f : List α → ℕ) (offs : List ℕ) (st : Scatter α) (piece : List α) :
    Scatter α where
  buffer := store st.buffer (offs.getD (f piece) 0 + st.cursors.getD (f piece) 0 * w) piece
  cursors := st.cursors.modify (f piece) (· + 1)

/-- The number of items in the buckets before `b`. -/
def before (f : β → ℕ) (xs : List β) (b : ℕ) : ℕ := xs.countP fun x => f x < b

section Counting

variable {n b : ℕ} {f : β → ℕ} {xs : List β}

/-- There is a count for every bucket. -/
@[simp]
theorem length_counts : (counts n f xs).length = n := by
  simp [counts]

/-- The count of a bucket is the number of pieces that go there. -/
theorem getElem?_counts (hb : b < n) :
    (counts n f xs)[b]? = some (xs.countP fun x => f x = b) := by
  simp [counts, hb]

/-- Without pieces all counts are 0. -/
theorem counts_nil : counts n f ([] : List β) = List.replicate n 0 := by
  simp [counts]

/-- Counting goes piece by piece. -/
theorem counts_append_singleton (x : β) :
    counts n f (xs ++ [x]) = (counts n f xs).modify (f x) (· + 1) := by
  apply List.ext_getElem?
  intro b
  rcases Nat.lt_or_ge b n with hb | hb
  · rw [List.getElem?_modify, getElem?_counts hb, getElem?_counts hb, List.countP_append]
    by_cases h : f x = b
    · simp [h]
    · simp [h]
  · rw [List.getElem?_eq_none (by simpa using hb), List.getElem?_eq_none (by simpa using hb)]

/-- In front of the next bucket are the pieces in front of this one and its own. -/
theorem before_succ (f : β → ℕ) (xs : List β) (b : ℕ) :
    before f xs (b + 1) = before f xs b + xs.countP fun x => f x = b := by
  induction xs with
  | nil => rfl
  | cons x xs ih =>
    simp only [before, List.countP_cons, decide_eq_true_eq] at ih ⊢
    rw [ih]
    split_ifs <;> omega

/-- In front of a later bucket are no fewer pieces. -/
theorem before_mono (f : β → ℕ) (xs : List β) {b c : ℕ} (h : b ≤ c) :
    before f xs b ≤ before f xs c :=
  List.countP_mono_left fun x _ hx => by
    rw [decide_eq_true_eq] at hx ⊢
    omega

/-- All items are in the buckets before the last, when each falls into one of the `n` buckets
(`h`). -/
theorem before_eq_length (h : ∀ x ∈ xs, f x < n) : before f xs n = xs.length :=
  List.countP_eq_length.mpr fun x hx => by simpa using h x hx

/-- The counts of the first `b` buckets add up to the pieces in front of bucket `b`. -/
theorem sum_take_counts (hb : b ≤ n) : ((counts n f xs).take b).sum = before f xs b := by
  induction b with
  | zero => simp [before]
  | succ b ih =>
    rw [List.take_add_one, getElem?_counts (by omega), List.sum_append, ih (by omega), before_succ]
    simp

/-- If every item goes to one of the `n` buckets (`h`), the counts add up to the number of items. -/
theorem sum_counts (h : ∀ x ∈ xs, f x < n) : (counts n f xs).sum = xs.length := by
  have hsum : ((counts n f xs).take n).sum = _ := sum_take_counts (Nat.le_refl n)
  rwa [List.take_of_length_le (by simp), before_eq_length h] at hsum

end Counting

section Offsets

/-- The offset of a bucket is the start and the sizes of the buckets in front of it. -/
theorem getElem?_offsetsFrom {sizes : List ℕ} (o : ℕ) {b : ℕ} (hb : b ≤ sizes.length) :
    (offsetsFrom o sizes)[b]? = some (o + (sizes.take b).sum) := by
  induction sizes generalizing o b with
  | nil =>
    obtain rfl : b = 0 := by simpa using hb
    rfl
  | cons s sizes ih =>
    cases b with
    | zero => rfl
    | succ b =>
      rw [offsetsFrom, List.getElem?_cons_succ, ih _ (by simpa using hb), List.take_succ_cons,
        List.sum_cons, Nat.add_assoc]

/-- A region begins where the regions before it end, also the empty one behind the last (`hb`). -/
theorem getElem?_offsets {sizes : List ℕ} {b : ℕ} (hb : b ≤ sizes.length) :
    (offsets sizes)[b]? = some (sizes.take b).sum := by
  rw [offsets, getElem?_offsetsFrom 0 hb, Nat.zero_add]

/-- There is one offset more than there are buckets. -/
theorem length_offsetsFrom (o : ℕ) (sizes : List ℕ) :
    (offsetsFrom o sizes).length = sizes.length + 1 := by
  induction sizes generalizing o with
  | nil => rfl
  | cons s sizes ih => rw [offsetsFrom, List.length_cons, ih, List.length_cons]

/-- There is one offset more than there are buckets, the end of the last one. -/
@[simp]
theorem length_offsets (sizes : List ℕ) : (offsets sizes).length = sizes.length + 1 :=
  length_offsetsFrom 0 sizes

/-- One more bucket adds the offset of its end. -/
theorem offsetsFrom_append_singleton (o : ℕ) (sizes : List ℕ) (s : ℕ) :
    offsetsFrom o (sizes ++ [s]) = offsetsFrom o sizes ++ [o + sizes.sum + s] := by
  induction sizes generalizing o with
  | nil => rfl
  | cons t sizes ih =>
    rw [List.cons_append, offsetsFrom, offsetsFrom, ih, List.cons_append, List.sum_cons]
    congr 3
    omega

/-- The last offset is the start and the sizes of all buckets. -/
theorem getLast?_offsetsFrom (o : ℕ) (sizes : List ℕ) :
    (offsetsFrom o sizes).getLast? = some (o + sizes.sum) := by
  rw [List.getLast?_eq_getElem?, length_offsetsFrom, Nat.add_sub_cancel,
    getElem?_offsetsFrom o (Nat.le_refl _), List.take_length]

/-- No region begins or ends behind the end of the last. -/
theorem le_sum_of_mem_offsets {sizes : List ℕ} {o : ℕ} (h : o ∈ offsets sizes) : o ≤ sizes.sum := by
  obtain ⟨b, hb⟩ := List.mem_iff_getElem?.mp h
  have hlt := (List.getElem?_eq_some_iff.mp hb).1
  rw [length_offsets] at hlt
  rw [getElem?_offsets (by omega), Option.some.injEq] at hb
  rw [← hb, ← List.sum_take_add_sum_drop sizes b]
  exact Nat.le_add_right _ _

/-- The region of a bucket of `w`-wide pieces begins behind the pieces of the buckets before. -/
theorem getElem?_offsets_counts {n b : ℕ} {f : β → ℕ} {xs : List β} (w : ℕ) (hb : b ≤ n) :
    (offsets ((counts n f xs).map (· * w)))[b]? = some (before f xs b * w) := by
  have hsum := List.sum_map_mul_right ((counts n f xs).take b) id w
  rw [List.map_id, sum_take_counts hb] at hsum
  rw [getElem?_offsets (by simpa using hb), ← List.map_take]
  exact congrArg some hsum

/-- The region of part `b` (`hpart`) in a concatenation, from the lengths of the parts before it on,
is the part. -/
theorem region_flatten {parts : List (List α)} {b : ℕ} {part : List α}
    (hpart : parts[b]? = some part) :
    region parts.flatten ((parts.map List.length).take b).sum
      ((parts.map List.length).take (b + 1)).sum = part := by
  obtain ⟨hb, rfl⟩ := List.getElem?_eq_some_iff.mp hpart
  rw [region, List.take_drop, ← List.drop_take_succ_flatten_eq_getElem parts b hb]
  congr 2
  have hle : ((parts.map List.length).take b).sum ≤ ((parts.map List.length).take (b + 1)).sum := by
    rw [List.take_add_one, List.sum_append]
    exact Nat.le_add_right _ _
  omega

end Offsets

section Writing

variable {p : ℕ → Prop} [DecidablePred p]

/-- A loop over buckets that sets an entry for each bucket that it does not skip. -/
theorem foldl_update_apply (files : ℕ → Option β) (v : ℕ → β) (n b : ℕ) :
    (List.range n).foldl
      (fun files b => if p b then files else Function.update files b (some (v b)))
        files b =
      if b < n ∧ ¬ p b then some (v b) else files b := by
  induction n with
  | zero => simp
  | succ n ih =>
    rw [List.range_succ, List.foldl_append, List.foldl_cons, List.foldl_nil]
    by_cases hskip : p n
    · rw [if_pos hskip, ih]
      refine if_congr ⟨fun hc => ⟨by omega, hc.2⟩, fun hc => ⟨?_, hc.2⟩⟩ rfl rfl
      have hne : b ≠ n := fun hbn => hc.2 (hbn ▸ hskip)
      omega
    · rw [if_neg hskip]
      rcases eq_or_ne b n with rfl | hne
      · rw [Function.update_self, if_pos ⟨Nat.lt_succ_self b, hskip⟩]
      · rw [Function.update_of_ne hne, ih]
        exact if_congr (and_congr_left fun _ => by omega) rfl rfl

/-- A loop that writes the parts of the buckets one after another and notes where each ends. A part
that is skipped is empty. -/
theorem foldl_concat {v : ℕ → List α} {n : ℕ} (hv : ∀ b < n, p b → v b = []) :
    (List.range n).foldl (fun out b =>
        if p b then (out.1, out.2 ++ [out.2.getLast?.getD 0])
        else (out.1 ++ v b, out.2 ++ [out.2.getLast?.getD 0 + (v b).length])) ([], [0]) =
      (((List.range n).map v).flatten, offsets (((List.range n).map v).map List.length)) := by
  induction n with
  | zero => rfl
  | succ n ih =>
    rw [List.range_succ, List.foldl_append, List.foldl_cons, List.foldl_nil,
      ih fun b hb => hv b (Nat.lt_succ_of_lt hb), offsets, getLast?_offsetsFrom, offsets,
      List.map_append, List.map_append, List.map_singleton, List.map_singleton,
      offsetsFrom_append_singleton, List.flatten_append, List.flatten_singleton, Nat.zero_add,
      Option.getD_some]
    split_ifs with hskip
    · rw [hv n (Nat.lt_succ_self n) hskip, List.append_nil, List.length_nil, Nat.add_zero]
    · rfl

/-- Where the part of a bucket stands among parts that are written one after another. -/
theorem exists_region_flatten {parts : List (List α)} {b : ℕ} {part : List α}
    (hpart : parts[b]? = some part) :
    ∃ start stop, (offsets (parts.map List.length))[b]? = some start ∧
      (offsets (parts.map List.length))[b + 1]? = some stop ∧ start ≤ stop ∧
      stop ≤ parts.flatten.length ∧ region parts.flatten start stop = part := by
  have hlt := (List.getElem?_eq_some_iff.mp hpart).1
  have hstop : (offsets (parts.map List.length))[b + 1]? = _ :=
    getElem?_offsets (by rw [List.length_map]; exact hlt)
  refine ⟨_, _, getElem?_offsets (by rw [List.length_map]; exact Nat.le_of_lt hlt), hstop, ?_, ?_,
    region_flatten hpart⟩
  · rw [List.take_add_one, List.sum_append]
    exact Nat.le_add_right _ _
  · rw [List.length_flatten]
    exact le_sum_of_mem_offsets (List.mem_of_getElem? hstop)

end Writing

section Scattering

variable {w n : ℕ} {f : List α → ℕ} {xs done : List (List α)} {st : Scatter α}

/-- The pieces of `done` are stored, each in the region of its bucket. -/
structure Placed (w n : ℕ) (f : List α → ℕ) (xs done : List (List α)) (st : Scatter α) : Prop where
  length_buffer : st.buffer.length = xs.length * w
  cursors_eq : st.cursors = counts n f done
  slot_eq : ∀ b < n, ∀ j piece, (done.filter fun x => f x = b)[j]? = some piece →
    slot w st.buffer (before f xs b + j) = piece

/-- A bucket has room for another of its pieces while the pieces that were placed are a prefix of
all (`h`). -/
theorem room_of_prefix {x : List α} (h : done ++ [x] <+: xs) :
    before f xs (f x) + (done.countP fun y => f y = f x) < before f xs (f x + 1) := by
  obtain ⟨rest, rfl⟩ := h
  rw [before_succ, List.countP_append, List.countP_append]
  simp only [List.countP_singleton, decide_true, if_true]
  omega

/-- Storing the next piece behind those of its bucket disturbs no other piece. -/
theorem Placed.step (hw : ∀ x ∈ xs, x.length = w) (hf : ∀ x ∈ xs, f x < n)
    (h : Placed w n f xs done st) {x : List α} (hx : done ++ [x] <+: xs) :
    Placed w n f xs (done ++ [x])
      (place w f (offsets ((counts n f xs).map (· * w))) st x) := by
  have hmem : x ∈ xs := hx.subset (by simp)
  have hfx := hf x hmem
  have hpos : (offsets ((counts n f xs).map (· * w))).getD (f x) 0 + st.cursors.getD (f x) 0 * w =
      (before f xs (f x) + done.countP fun y => f y = f x) * w := by
    rw [List.getD_eq_getElem?_getD, List.getD_eq_getElem?_getD,
      getElem?_offsets_counts w (Nat.le_of_lt hfx), h.cursors_eq, getElem?_counts hfx,
      Option.getD_some, Option.getD_some, Nat.add_mul]
  have hroom := room_of_prefix (f := f) hx
  have hle : (before f xs (f x) + (done.countP fun y => f y = f x) + 1) * w ≤ st.buffer.length := by
    rw [h.length_buffer, ← before_eq_length hf]
    exact Nat.mul_le_mul_right w (Nat.le_trans hroom (before_mono f xs hfx))
  have hmul := Nat.add_mul (before f xs (f x) + done.countP fun y => f y = f x) 1 w
  refine ⟨?_, ?_, fun b hb j piece hpiece => ?_⟩
  · rw [place, hpos, length_store (by rw [hw x hmem]; omega), h.length_buffer]
  · rw [place, h.cursors_eq, counts_append_singleton]
  · rw [place, hpos]
    rw [List.filter_append, List.filter_singleton] at hpiece
    -- the slot of the new piece, or a slot that it does not touch
    by_cases hnew : b = f x ∧ j = (done.filter fun y => f y = b).length
    · obtain ⟨rfl, rfl⟩ := hnew
      rw [List.getElem?_append_right (Nat.le_refl _), Nat.sub_self] at hpiece
      simp only [decide_true, cond_true, List.getElem?_cons_zero, Option.some.injEq] at hpiece
      subst hpiece
      rw [← List.countP_eq_length_filter]
      exact slot_store_self (hw x hmem) hle
    · have hold : (done.filter fun y => f y = b)[j]? = some piece := by
        rcases Nat.lt_or_ge j (done.filter fun y => f y = b).length with hj | hj
        · rwa [List.getElem?_append_left hj] at hpiece
        · rw [List.getElem?_append_right hj] at hpiece
          by_cases hbx : f x = b
          · have hj' : j ≠ (done.filter fun y => f y = b).length := fun he => hnew ⟨hbx.symm, he⟩
            rw [List.getElem?_eq_none (by simp [hbx]; omega)] at hpiece
            cases hpiece
          · simp [hbx] at hpiece
      have hj : j < done.countP fun y => f y = b := by
        rw [List.countP_eq_length_filter]
        exact (List.getElem?_eq_some_iff.mp hold).1
      rw [slot_store_of_ne (hw x hmem) hle, h.slot_eq b hb j piece hold]
      -- the slots of different buckets lie in different regions
      intro heq
      rcases Nat.lt_trichotomy (f x) b with hlt | rfl | hgt
      · have hregion : before f xs (f x + 1) ≤ before f xs b := before_mono f xs hlt
        omega
      · rw [List.countP_eq_length_filter] at heq
        exact hnew ⟨rfl, by omega⟩
      · have hsub : (done.countP fun y => f y = b) ≤ xs.countP fun y => f y = b := by
          obtain ⟨rest, rfl⟩ := hx
          rw [List.countP_append, List.countP_append]
          omega
        have hregion : before f xs (b + 1) ≤ before f xs (f x) := before_mono f xs hgt
        rw [before_succ] at hregion
        omega

/-- After all pieces are stored, every one of them stands in the region of its bucket. -/
theorem placed_foldl (hw : ∀ x ∈ xs, x.length = w) (hf : ∀ x ∈ xs, f x < n) {buf : List α}
    (hbuf : buf.length = xs.length * w) :
    Placed w n f xs xs
      (xs.foldl (place w f (offsets ((counts n f xs).map (· * w)))) ⟨buf, List.replicate n 0⟩) := by
  -- `done` has been placed and `rest` is to come
  suffices hrun : ∀ rest done st, done ++ rest = xs → Placed w n f xs done st →
      Placed w n f xs xs (rest.foldl (place w f (offsets ((counts n f xs).map (· * w)))) st) by
    refine hrun xs [] _ rfl ⟨hbuf, counts_nil.symm, fun b _ j piece h => ?_⟩
    simp at h
  intro rest
  induction rest with
  | nil =>
    rintro done st rfl h
    rw [List.append_nil] at h ⊢
    exact h
  | cons x rest ih =>
    intro done st hsplit h
    refine ih (done ++ [x]) _ (by rw [List.append_assoc, List.singleton_append, hsplit]) ?_
    exact h.step hw hf ⟨rest, by rw [List.append_assoc, List.singleton_append, hsplit]⟩

/-- After the pass, the region of a bucket holds its pieces in their order. -/
theorem region_scatter (hw : ∀ x ∈ xs, x.length = w) (hf : ∀ x ∈ xs, f x < n) {buf : List α}
    (hbuf : buf.length = xs.length * w) {b : ℕ} (hb : b < n) :
    region (xs.foldl (place w f (offsets ((counts n f xs).map (· * w))))
        ⟨buf, List.replicate n 0⟩).buffer (before f xs b * w) (before f xs (b + 1) * w) =
      (xs.filter fun x => f x = b).flatten := by
  have h := placed_foldl hw hf hbuf
  generalize (xs.foldl _ _) = st at h ⊢
  -- the region is as long as the items of its bucket
  have hsub : before f xs (b + 1) * w - before f xs b * w =
      (xs.filter fun x => f x = b).length * w := by
    rw [← Nat.sub_mul, before_succ, Nat.add_sub_cancel_left, List.countP_eq_length_filter]
  have hle : before f xs (b + 1) * w ≤ st.buffer.length := by
    rw [h.length_buffer, ← before_eq_length hf]
    exact Nat.mul_le_mul_right w (before_mono f xs hb)
  have hmono : before f xs b * w ≤ before f xs (b + 1) * w :=
    Nat.mul_le_mul_right w (before_mono f xs (Nat.le_succ b))
  have hwide : ∀ x ∈ xs.filter fun x => f x = b, x.length = w :=
    fun x hx => hw x (List.mem_of_mem_filter hx)
  -- slot by slot it holds the items in their order
  refine ext_slots (w := w) (n := (xs.filter fun x => f x = b).length) ?_ (length_flatten hwide)
    fun j hj => ?_
  · rw [region, List.length_take, List.length_drop, hsub]
    omega
  · have hpiece := List.getElem?_eq_getElem hj
    rw [slot_flatten hwide hpiece, ← h.slot_eq b hb j _ hpiece, region, hsub]
    have hmul : (j + 1) * w ≤ (xs.filter fun x => f x = b).length * w := Nat.mul_le_mul_right w hj
    rw [Nat.add_mul, Nat.one_mul] at hmul
    rw [slot, slot, List.drop_take, List.drop_drop, List.take_take, Nat.add_mul,
      Nat.min_eq_left (by omega)]

end Scattering

end Bucketing
