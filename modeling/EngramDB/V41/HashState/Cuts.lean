import EngramDB.Foundations.Refill
import EngramDB.V41.HashState

/-!
# Cutting a batch into calls

A prompt may be hashed in one call or in several, one column at a time or a few.

* `compress_eq_ok_iff_parts`: the ids of a batch are compressed part by part;
* `forward_eq_ok_iff_parts`: one call returns iff the two calls for its parts do, with the same ids
  and the same cache;
* `forwardCut_eq_ok_iff`: so it is however the batch is cut;
* `forward_drop_eq`: behind a masked token the ids are those of a sequence that starts there.
-/

namespace EngramDB

namespace V41

open SlotBuffer LiveWindow

/-- The columns of a batch before column `n`. -/
def HashInput.take (input : HashInput) (n : ℕ) : HashInput where
  inputIds := input.inputIds.map (List.take n)
  seqlen := min n input.seqlen
  rect := by
    intro row hrow
    obtain ⟨whole, hwhole, rfl⟩ := List.mem_map.mp hrow
    rw [List.length_take, input.rect whole hwhole]
  tokenMask := input.tokenMask.map (List.map (List.take n))
  maskRect := by
    intro mask hmask
    obtain ⟨whole, hwhole, rfl⟩ := Option.map_eq_some_iff.mp hmask
    have h := congrArg (List.map (min n)) (input.maskRect whole hwhole)
    simp only [List.map_map] at h
    simpa [List.map_map, Function.comp_def] using h

/-- The columns of a batch from column `n` on. -/
def HashInput.drop (input : HashInput) (n : ℕ) : HashInput where
  inputIds := input.inputIds.map (List.drop n)
  seqlen := input.seqlen - n
  rect := by
    intro row hrow
    obtain ⟨whole, hwhole, rfl⟩ := List.mem_map.mp hrow
    rw [List.length_drop, input.rect whole hwhole]
  tokenMask := input.tokenMask.map (List.map (List.drop n))
  maskRect := by
    intro mask hmask
    obtain ⟨whole, hwhole, rfl⟩ := Option.map_eq_some_iff.mp hmask
    have h := congrArg (List.map (· - n)) (input.maskRect whole hwhole)
    simp only [List.map_map] at h
    simpa [List.map_map, Function.comp_def] using h

/-- The mask of the first columns is cut as the columns are. -/
theorem HashInput.tokenMask_take (input : HashInput) (n : ℕ) :
    (input.take n).tokenMask = input.tokenMask.map (List.map (List.take n)) := rfl

/-- The mask of the last columns is cut as the columns are. -/
theorem HashInput.tokenMask_drop (input : HashInput) (n : ℕ) :
    (input.drop n).tokenMask = input.tokenMask.map (List.map (List.drop n)) := rfl

section Cut

variable {tokenMap : List ℤ} {input : HashInput} {n : ℕ}

/-- A row can be looked up iff its two parts can. -/
theorem mapM_eq_ok_iff_parts {α β : Type} {f : α → Py β} {l : List α} {bs : List β} (n : ℕ) :
    l.mapM f = .ok bs ↔
      ∃ a b, (l.take n).mapM f = .ok a ∧ (l.drop n).mapM f = .ok b ∧ bs = a ++ b := by
  conv_lhs => rw [← List.take_append_drop n l, List.mapM_append]
  rw [Except.bind_eq_ok_iff]
  constructor
  · rintro ⟨a, ha, h⟩
    obtain ⟨b, hb, h⟩ := Except.bind_eq_ok_iff.mp h
    exact ⟨a, b, ha, hb, (Except.ok.inj h).symm⟩
  · rintro ⟨a, b, ha, hb, rfl⟩
    refine ⟨a, ha, ?_⟩
    rw [hb]
    rfl

/-- The rows of a batch can be looked up iff their two parts can. -/
private theorem mapM_mapM_eq_ok_iff_parts {α β : Type} {f : α → Py β} {rows : List (List α)}
    {c : List (List β)} (n : ℕ) :
    rows.mapM (fun row => row.mapM f) = .ok c ↔
      ∃ a b, (rows.map (List.take n)).mapM (fun row => row.mapM f) = .ok a ∧
        (rows.map (List.drop n)).mapM (fun row => row.mapM f) = .ok b ∧
        c = List.zipWith (· ++ ·) a b := by
  induction rows generalizing c with
  | nil =>
    constructor
    · intro h
      exact ⟨[], [], rfl, rfl, (Except.ok.inj h).symm⟩
    · rintro ⟨a, b, ha, hb, rfl⟩
      obtain rfl := Except.ok.inj ha
      rfl
  | cons row rows ih =>
    simp only [List.map_cons, List.mapM_cons, Except.bind_eq_ok_iff]
    constructor
    · rintro ⟨r, hr, c', hc', h⟩
      obtain ⟨x, y, hx, hy, rfl⟩ := (mapM_eq_ok_iff_parts n).mp hr
      obtain ⟨a, b, ha, hb, rfl⟩ := ih.mp hc'
      exact ⟨x :: a, y :: b, ⟨x, hx, a, ha, rfl⟩, ⟨y, hy, b, hb, rfl⟩, (Except.ok.inj h).symm⟩
    · rintro ⟨a, b, ⟨x, hx, a', ha, h⟩, ⟨y, hy, b', hb, h'⟩, rfl⟩
      obtain rfl := Except.ok.inj h
      obtain rfl := Except.ok.inj h'
      exact ⟨x ++ y, (mapM_eq_ok_iff_parts n).mpr ⟨x, y, hx, hy, rfl⟩, _,
        ih.mpr ⟨a', b', ha, hb, rfl⟩, rfl⟩

/-- The mask of a batch that is cut into `a` and `b` is cut alike, at the length of `a` (`h`). -/
theorem zipWith_mask_parts {α β γ : Type} (g : α → β → γ) {mask : List (List α)}
    {a b : List (List β)} {n : ℕ}
    (h : mask.map (fun row => (row.take n).length) = a.map List.length) :
    List.zipWith (List.zipWith g) mask (List.zipWith (· ++ ·) a b) =
      List.zipWith (· ++ ·) (List.zipWith (List.zipWith g) (mask.map (List.take n)) a)
        (List.zipWith (List.zipWith g) (mask.map (List.drop n)) b) := by
  induction mask generalizing a b with
  | nil => rfl
  | cons m mask ih =>
    match a, b with
    | [], _ => simp
    | x :: a, [] => simp
    | x :: a, y :: b =>
      simp only [List.map_cons, List.cons.injEq] at h
      have hrow : List.zipWith g m (x ++ y) =
          List.zipWith g (m.take n) x ++ List.zipWith g (m.drop n) y := by
        conv_lhs => rw [← List.take_append_drop n m, List.zipWith_append h.1]
      simp only [List.map_cons, List.zipWith_cons_cons, hrow, ih h.2]

/-- A batch can be compressed iff its two parts can. -/
theorem compress_eq_ok_iff_parts {c : List (List ℤ)} (n : ℕ) :
    compress tokenMap input = .ok c ↔
      ∃ a b, compress tokenMap (input.take n) = .ok a ∧ compress tokenMap (input.drop n) = .ok b ∧
        c = List.zipWith (· ++ ·) a b := by
  simp only [compress, Except.bind_eq_ok_iff]
  have hparts : ∀ ids,
      input.inputIds.mapM (fun row => row.mapM (itemFrom tokenMap)) = .ok ids ↔ _ :=
    fun ids => mapM_mapM_eq_ok_iff_parts n
  cases hmask : input.tokenMask with
  | none =>
    simp only [HashInput.tokenMask_take, HashInput.tokenMask_drop, hmask, Option.map_none]
    constructor
    · rintro ⟨ids, hids, h⟩
      obtain ⟨a, b, ha, hb, rfl⟩ := (hparts ids).mp hids
      exact ⟨a, b, ⟨a, ha, rfl⟩, ⟨b, hb, rfl⟩, (Except.ok.inj h).symm⟩
    · rintro ⟨a, b, ⟨a', ha, h⟩, ⟨b', hb, h'⟩, rfl⟩
      obtain rfl := Except.ok.inj h
      obtain rfl := Except.ok.inj h'
      exact ⟨_, (hparts _).mpr ⟨a', b', ha, hb, rfl⟩, rfl⟩
  | some mask =>
    simp only [HashInput.tokenMask_take, HashInput.tokenMask_drop, hmask, Option.map_some]
    -- the mask has the shape of the ids that are found
    have hshape : ∀ a, (input.take n).inputIds.mapM (fun row => row.mapM (itemFrom tokenMap)) =
        .ok a → mask.map (fun row => (row.take n).length) = a.map List.length := by
      intro a ha
      have htake : (input.take n).tokenMask = some (mask.map (List.take n)) := by
        rw [HashInput.tokenMask_take, hmask, Option.map_some]
      rw [map_length_of_mapM_mapM ha, ← (input.take n).maskRect _ htake, List.map_map]
      rfl
    constructor
    · rintro ⟨ids, hids, h⟩
      obtain ⟨a, b, ha, hb, rfl⟩ := (hparts ids).mp hids
      refine ⟨_, _, ⟨a, ha, rfl⟩, ⟨b, hb, rfl⟩, ?_⟩
      rw [← zipWith_mask_parts _ (hshape a ha)]
      exact (Except.ok.inj h).symm
    · rintro ⟨a, b, ⟨a', ha, h⟩, ⟨b', hb, h'⟩, rfl⟩
      obtain rfl := Except.ok.inj h
      obtain rfl := Except.ok.inj h'
      refine ⟨_, (hparts _).mpr ⟨a', b', ha, hb, rfl⟩, ?_⟩
      rw [zipWith_mask_parts _ (hshape a' ha)]
      rfl

end Cut

/-- Writing two parts one after the other is writing them at once. -/
private theorem store_parts {row x y : List ℤ} {startPos : ℕ}
    (h : 0 < x.length + y.length → startPos + (x.length + y.length) ≤ row.length) :
    store (store row startPos x) (startPos + x.length) y = store row startPos (x ++ y) := by
  rcases Nat.eq_zero_or_pos (x.length + y.length) with hzero | hpos
  · obtain rfl : x = [] := List.length_eq_zero_iff.mp (by omega)
    obtain rfl : y = [] := List.length_eq_zero_iff.mp (by omega)
    simp [store]
  · exact Refill.store_store_append row x y startPos (by rw [List.length_append]; exact h hpos)

/-- Writing the rows of two parts one after the other is writing them at once. -/
theorem writeRows_parts {rows a b : List (List ℤ)} {startPos n m width : ℕ}
    (hrect : ∀ row ∈ rows, row.length = width) (hlen : a.length = b.length)
    (ha : ∀ x ∈ a, x.length = n) (hb : ∀ y ∈ b, y.length = m)
    (hfit : 0 < n + m → startPos + (n + m) ≤ width) :
    writeRows (writeRows rows startPos a) (startPos + n) b =
      writeRows rows startPos (List.zipWith (· ++ ·) a b) := by
  induction a generalizing rows b with
  | nil =>
    obtain rfl : b = [] := List.length_eq_zero_iff.mp hlen.symm
    simp [writeRows]
  | cons x a ih =>
    match rows, b with
    | _, [] => simp at hlen
    | [], y :: b => simp [writeRows]
    | row :: rows, y :: b =>
      have hx : x.length = n := ha x (by simp)
      have hy : y.length = m := hb y (by simp)
      have hrow : row.length = width := hrect row (by simp)
      -- the second part is stored right behind the first
      have hstore :
          store (store row startPos x) (startPos + n) y = store row startPos (x ++ y) := by
        rw [← hx]
        exact store_parts (by rw [hx, hy, hrow]; exact hfit)
      have hrest := ih (fun row h => hrect row (List.mem_cons_of_mem _ h)) (by simpa using hlen)
        (fun x h => ha x (List.mem_cons_of_mem _ h)) fun y h => hb y (List.mem_cons_of_mem _ h)
      show store (store row startPos x) (startPos + n) y ::
        writeRows (writeRows rows startPos a) (startPos + n) b = _
      rw [hstore, hrest]
      rfl

/-- What is read off a row depends on the part before the end of the call alone. -/
private theorem rowIds_congr (state : NgramHashState) {row row' : List ℤ} {startPos seqlen : ℕ}
    (hrow : startPos + seqlen ≤ row.length)
    (h : row.take (startPos + seqlen) = row'.take (startPos + seqlen)) :
    state.rowIds startPos seqlen row = state.rowIds startPos seqlen row' := by
  have hlen : startPos + seqlen ≤ row'.length := by
    have := congrArg List.length h
    rw [List.length_take, List.length_take] at this
    omega
  refine List.map_congr_left fun p hp => ?_
  have hp' := List.mem_range'_1.mp hp
  have htake : row.take (p + 1) = row'.take (p + 1) := by
    have hle : p + 1 ≤ startPos + seqlen := by omega
    rw [← Nat.min_eq_left hle, ← List.take_take, ← List.take_take, h]
  rw [scan_eq_window (by omega), scan_eq_window (by omega), htake]

/-- The ids of `n + m` places are those of the first `n` and those of the others. -/
theorem rowIds_append (state : NgramHashState) (row : List ℤ) (startPos n m : ℕ) :
    state.rowIds startPos (n + m) row =
      state.rowIds startPos n row ++ state.rowIds (startPos + n) m row := by
  rw [NgramHashState.rowIds, ← List.range'_append_1, List.map_append]
  rfl

/-- The rows of a batch that is not larger than the cache (`h`), after a call has written them. -/
theorem take_writeRows {rows compressed : List (List ℤ)} {startPos : ℕ}
    (h : compressed.length ≤ rows.length) :
    (writeRows rows startPos compressed).take compressed.length =
      List.zipWith (fun row new => store row startPos new) rows compressed :=
  List.take_left' (by rw [List.length_zipWith, Nat.min_eq_right h])

section Parts

variable (state : NgramHashState) {rows a b : List (List ℤ)} {startPos n m width : ℕ}

/-- What the first part of a batch reads is what it reads when the whole batch was written. -/
private theorem map_rowIds_parts (hrect : ∀ row ∈ rows, row.length = width)
    (hlen : a.length = b.length) (ha : ∀ x ∈ a, x.length = n) (hb : ∀ y ∈ b, y.length = m)
    (hfit : 0 < n + m → startPos + (n + m) ≤ width) :
    (List.zipWith (fun row new => store row startPos new) rows a).map (state.rowIds startPos n) =
      (List.zipWith (fun row new => store row startPos new) rows
        (List.zipWith (· ++ ·) a b)).map (state.rowIds startPos n) := by
  refine List.ext_getElem ?_ fun i hi hi' => ?_
  · simp only [List.length_map, List.length_zipWith, hlen, Nat.min_self]
  · rw [List.length_map, List.length_zipWith] at hi
    rw [List.getElem_map, List.getElem_map, List.getElem_zipWith, List.getElem_zipWith,
      List.getElem_zipWith]
    have hrow : rows[i].length = width := hrect _ (List.getElem_mem _)
    have hx : a[i].length = n := ha _ (List.getElem_mem _)
    have hy : b[i].length = m := hb _ (List.getElem_mem _)
    rcases Nat.eq_zero_or_pos n with rfl | hpos
    · rfl
    · have hle := hfit (by omega)
      refine rowIds_congr state ?_ ?_
      · rw [length_store (by omega)]
        omega
      · -- both rows were written alike up to the end of the first part
        have hlength : (rows[i].take startPos ++ a[i]).length = startPos + n := by
          rw [List.length_append, List.length_take, hx]
          omega
        rw [store, store, ← List.append_assoc (rows[i].take startPos), List.append_assoc _ b[i],
          List.take_left' hlength, List.take_left' hlength]

/-- The ids of a batch are those of its first part followed by those of its second. -/
theorem map_rowIds_append (hrect : ∀ row ∈ rows, row.length = width)
    (hrows : a.length ≤ rows.length) (hlen : a.length = b.length)
    (ha : ∀ x ∈ a, x.length = n) (hb : ∀ y ∈ b, y.length = m)
    (hfit : 0 < n + m → startPos + (n + m) ≤ width) :
    ((writeRows rows startPos (List.zipWith (· ++ ·) a b)).take
        (List.zipWith (· ++ ·) a b).length).map (state.rowIds startPos (n + m)) =
      List.zipWith (· ++ ·)
        (((writeRows rows startPos a).take a.length).map (state.rowIds startPos n))
        (((writeRows (writeRows rows startPos a) (startPos + n) b).take b.length).map
          (state.rowIds (startPos + n) m)) := by
  have hc : (List.zipWith (· ++ ·) a b).length = a.length := by
    rw [List.length_zipWith, ← hlen, Nat.min_self]
  rw [writeRows_parts hrect hlen ha hb hfit, take_writeRows hrows,
    map_rowIds_parts state hrect hlen ha hb hfit, ← take_writeRows (hc ▸ hrows), ← hlen, hc]
  generalize (writeRows rows startPos (List.zipWith (· ++ ·) a b)).take a.length = batch
  rw [List.zipWith_map, List.zipWith_self]
  exact List.map_congr_left fun row _ => rowIds_append state row startPos n m

end Parts

section Forward

variable {state state' : NgramHashState} {input : HashInput} {startPos n : ℕ}
  {out : List (List (List (List ℤ)))}

/-- One call returns iff the two calls for its parts do, with the same ids and the same state at the
end. -/
theorem forward_eq_ok_iff_parts (hn : n ≤ input.seqlen) :
    state.forward input startPos = (.ok out, state') ↔
      ∃ first middle second, state.forward (input.take n) startPos = (.ok first, middle) ∧
        middle.forward (input.drop n) (startPos + n) = (.ok second, state') ∧
        out = List.zipWith (· ++ ·) first second := by
  have htake : (input.take n).seqlen = n := Nat.min_eq_left hn
  have hdrop : (input.drop n).seqlen = input.seqlen - n := rfl
  have hsum : n + (input.seqlen - n) = input.seqlen := Nat.add_sub_cancel' hn
  -- the parts of a batch that can be compressed, and what is known of their shapes
  have hshape : ∀ a b, compress state.tokenMap (input.take n) = .ok a →
      compress state.tokenMap (input.drop n) = .ok b →
      a.length = b.length ∧ (∀ x ∈ a, x.length = n) ∧ ∀ y ∈ b, y.length = input.seqlen - n := by
    intro a b ha hb
    refine ⟨?_, fun x hx => (cols_compress ha x hx).trans htake, cols_compress hb⟩
    rw [length_compress ha, length_compress hb]
    simp [HashInput.take, HashInput.drop]
  simp only [forward_eq_ok_iff, htake, hdrop]
  constructor
  · rintro ⟨c, hc, hfits, hsize, rfl, rfl⟩
    obtain ⟨a, b, ha, hb, rfl⟩ := (compress_eq_ok_iff_parts n).mp hc
    obtain ⟨hlen, hacols, hbcols⟩ := hshape a b ha hb
    obtain ⟨hrows, hccols, hfit⟩ := hfits
    have hrows' : a.length ≤ state.cache.rows.length := by
      rwa [List.length_zipWith, ← hlen, Nat.min_self] at hrows
    have hfit' : 0 < n + (input.seqlen - n) →
        startPos + (n + (input.seqlen - n)) ≤ state.cache.width := by rwa [hsum]
    have hfirst : state.cache.Fits startPos n a := ⟨hrows', hacols, fun h => by
      have := hfit' (by omega)
      omega⟩
    have hsecond : (state.cache.write hfirst).Fits (startPos + n) (input.seqlen - n) b := by
      refine ⟨?_, hbcols, fun h => ?_⟩
      · rw [← hlen]
        exact hrows'.trans (length_writeRows hrows').ge
      · have := hfit' (by omega)
        show startPos + n + (input.seqlen - n) ≤ state.cache.width
        omega
    refine ⟨_, _, _, ⟨a, ha, hfirst, hsize, rfl, rfl⟩, ⟨b, hb, hsecond, hsize, rfl, ?_⟩, ?_⟩
    · congr 1
      exact Cache.ext (writeRows_parts state.cache.rect hlen hacols hbcols hfit').symm rfl
    · have hout := map_rowIds_append state state.cache.rect hrows' hlen hacols hbcols hfit'
      rw [hsum] at hout
      exact hout
  · rintro ⟨_, _, _, ⟨a, ha, hfirst, hsize, rfl, rfl⟩, ⟨b, hb, hsecond, -, rfl, rfl⟩, rfl⟩
    obtain ⟨hlen, hacols, hbcols⟩ := hshape a b ha hb
    have hrows := hfirst.1
    have hfit : 0 < n + (input.seqlen - n) →
        startPos + (n + (input.seqlen - n)) ≤ state.cache.width := by
      intro hpos
      rcases Nat.eq_zero_or_pos (input.seqlen - n) with hzero | hpos'
      · have := hfirst.2.2 (by omega)
        omega
      · have hle : startPos + n + (input.seqlen - n) ≤ state.cache.width := hsecond.2.2 hpos'
        omega
    have hout := map_rowIds_append state state.cache.rect hrows hlen hacols hbcols hfit
    have hwhole : compress state.tokenMap input = .ok (List.zipWith (· ++ ·) a b) :=
      (compress_eq_ok_iff_parts n).mpr ⟨a, b, ha, hb, rfl⟩
    have hfits : state.cache.Fits startPos input.seqlen (List.zipWith (· ++ ·) a b) := by
      refine ⟨?_, cols_compress hwhole, by rwa [hsum] at hfit⟩
      rwa [List.length_zipWith, ← hlen, Nat.min_self]
    rw [hsum] at hout
    refine ⟨_, hwhole, hfits, hsize, hout.symm, ?_⟩
    congr 1
    exact Cache.ext (writeRows_parts state.cache.rect hlen hacols hbcols hfit) rfl

/-- A call of the module as a computation that may raise. -/
def forwardM (input : HashInput) (startPos : ℕ) :
    PyM NgramHashState (List (List (List (List ℤ)))) :=
  fun state => state.forward input startPos

/-- The batch in calls for so many columns each, and a last call for the columns that are left. -/
def forwardCut (input : HashInput) (startPos : ℕ) :
    List ℕ → PyM NgramHashState (List (List (List (List ℤ))))
  | [] => forwardM input startPos
  | n :: ns => do
    let first ← forwardM (input.take n) startPos
    let rest ← forwardCut (input.drop n) (startPos + n) ns
    pure (List.zipWith (· ++ ·) first rest)

/-- However a batch is cut into calls, they return what one call returns and leave the same
state. -/
theorem forwardCut_eq_ok_iff {ns : List ℕ} (hns : ns.sum ≤ input.seqlen) :
    forwardCut input startPos ns state = (.ok out, state') ↔
      state.forward input startPos = (.ok out, state') := by
  induction ns generalizing state input startPos out with
  | nil => rfl
  | cons n ns ih =>
    rw [List.sum_cons] at hns
    have hrest : ns.sum ≤ (input.drop n).seqlen := by
      show ns.sum ≤ input.seqlen - n
      omega
    rw [forwardCut, PyM.bind_eq_ok_iff, forward_eq_ok_iff_parts (by omega : n ≤ input.seqlen)]
    refine exists_congr fun first => exists_congr fun middle => ?_
    rw [PyM.bind_eq_ok_iff]
    constructor
    · rintro ⟨hfirst, rest, last, hcut, h⟩
      obtain ⟨hok, rfl⟩ := Prod.mk.inj h
      obtain rfl := Except.ok.inj hok
      exact ⟨rest, hfirst, (ih hrest).mp hcut, rfl⟩
    · rintro ⟨rest, hfirst, hsecond, rfl⟩
      exact ⟨hfirst, rest, state', (ih hrest).mpr hsecond, rfl⟩

end Forward

/-- The ids of `smallInput`. -/
def smallIds : List (List (List (List ℤ))) :=
  [[[[9, 19, 35, 43], [18, 50, 60, 101]], [[7, 19, 31, 46], [14, 24, 72, 118]],
      [[10, 21, 38, 56], [16, 26, 66, 114]]],
    [[[7, 14, 29, 45], [13, 48, 68, 119]], [[0, 11, 24, 41], [0, 23, 52, 83]],
      [[9, 19, 35, 43], [18, 50, 60, 101]]]]

/-- The ids of the small input, computed. -/
theorem forward_smallInput : (smallState.forward smallInput 0).1 = .ok smallIds := by
  rfl

theorem forwardCut_smallInput :
    forwardCut smallInput 0 [1, 1] smallState =
      (.ok smallIds, (smallState.forward smallInput 0).2) :=
  (forwardCut_eq_ok_iff (by decide)).mpr (Prod.ext forward_smallInput rfl)

/-! ### Behind a masked token -/

section Masked

variable {state fresh : NgramHashState}

/-- Behind a dead token, what a row shows is what it shows of a sequence that starts there. -/
private theorem drop_rowIds_store (htables : fresh.toHashTables = state.toHashTables)
    {row row' x y : List ℤ} {startPos n m : ℕ} (hx : x.length = n + 1)
    (hdead : x.getLast? = some DEAD) (hy : y.length = m)
    (hfit : startPos + (n + 1 + m) ≤ row.length) (hfit' : m ≤ row'.length) :
    (state.rowIds startPos (n + 1 + m) (store row startPos (x ++ y))).drop (n + 1) =
      fresh.rowIds 0 m (store row' 0 y) := by
  have hlen : (state.rowIds startPos (n + 1) (store row startPos (x ++ y))).length = n + 1 := by
    rw [NgramHashState.rowIds, List.length_map, List.length_range']
  rw [rowIds_append, List.drop_left' hlen, NgramHashState.rowIds, NgramHashState.rowIds,
    List.range'_eq_map_range, List.range'_eq_map_range, List.map_map, List.map_map, htables]
  refine List.map_congr_left fun i hi => ?_
  rw [List.mem_range] at hi
  rw [Function.comp_apply, Function.comp_apply]
  have hstore : (store row startPos (x ++ y)).length = row.length :=
    length_store (by rw [List.length_append]; omega)
  have hstore' : (store row' 0 y).length = row'.length := length_store (by omega)
  rw [scan_eq_window (by omega), scan_eq_window (by omega)]
  refine congrArg state.columns ?_
  -- the tokens up to the position, oldest first
  obtain ⟨older, hx'⟩ : ∃ older, x = older ++ [DEAD] :=
    ⟨x.dropLast, (List.dropLast_append_getLast? _ hdead).symm⟩
  have hprefix : (row.take startPos ++ x).length = startPos + (n + 1) := by
    rw [List.length_append, List.length_take, hx]
    omega
  have htake : (store row startPos (x ++ y)).take (startPos + (n + 1) + i + 1) =
      row.take startPos ++ x ++ y.take (i + 1) := by
    rw [store, ← List.append_assoc (row.take startPos), List.append_assoc _ y, List.take_append,
      List.take_of_length_le (by omega), hprefix,
      show startPos + (n + 1) + i + 1 - (startPos + (n + 1)) = i + 1 by omega,
      List.take_append_of_le_length (by omega)]
  have htake' : (store row' 0 y).take (0 + i + 1) = y.take (i + 1) := by
    rw [store, List.take_zero, List.nil_append, Nat.zero_add,
      List.take_append_of_le_length (by omega)]
  rw [htake, htake', hx', List.reverse_append, List.reverse_append, List.reverse_append,
    List.reverse_singleton, List.singleton_append, List.cons_append]
  exact window_append_dead

variable {state' fresh' : NgramHashState} {input : HashInput} {startPos n b : ℕ}

/-- A token that is masked is compressed to a dead one. -/
private theorem getElem?_compress_masked {tokenMap : List ℤ} {compressed : List (List ℤ)}
    (h : compress tokenMap input = .ok compressed) {mask : List (List Bool)}
    (hmask : input.tokenMask = some mask) {row : List Bool} (hrow : mask[b]? = some row)
    (hn : row[n]? = some false) {new : List ℤ} (hnew : compressed[b]? = some new) :
    new[n]? = some DEAD := by
  have hrect := cols_compress h new (List.mem_of_getElem? hnew)
  have hlen : row.length = input.seqlen := by
    have hmem : row.length ∈ input.inputIds.map List.length := by
      rw [← input.maskRect mask hmask]
      exact List.mem_map_of_mem (List.mem_of_getElem? hrow)
    obtain ⟨ids, hids, heq⟩ := List.mem_map.mp hmem
    rw [← heq, input.rect ids hids]
  rw [compress, Except.bind_eq_ok_iff] at h
  obtain ⟨ids, -, h⟩ := h
  rw [hmask] at h
  obtain rfl := Except.ok.inj h
  -- the mask is laid over the ids after they were compressed
  rw [List.getElem?_zipWith, hrow] at hnew
  obtain ⟨idRow, -, rfl⟩ : ∃ idRow, ids[b]? = some idRow ∧
      List.zipWith (fun m x => if m then x else DEAD) row idRow = new := by
    cases hids : ids[b]? with
    | none => simp [hids] at hnew
    | some idRow => exact ⟨idRow, rfl, by simpa [hids] using hnew⟩
  obtain ⟨hlt, hget⟩ := List.getElem?_eq_some_iff.mp hn
  have hid : n < idRow.length := by
    rw [List.length_zipWith] at hrect
    omega
  rw [List.getElem?_zipWith, hn, List.getElem?_eq_getElem hid]
  rfl

/-- Where the mask has a dead token in column `n` of a row, the part of the row up to the column
ends in a dead token, and the rest is what is behind it. -/
private theorem parts_of_masked {tokenMap : List ℤ} {x y : List (List ℤ)}
    (hc : compress tokenMap input = .ok (List.zipWith (· ++ ·) x y))
    (hx : compress tokenMap (input.take (n + 1)) = .ok x)
    (hy : compress tokenMap (input.drop (n + 1)) = .ok y)
    {mask : List (List Bool)} (hmask : input.tokenMask = some mask) {row : List Bool}
    (hrow : mask[b]? = some row) (hn : row[n]? = some false) {xb yb : List ℤ}
    (hxb : x[b]? = some xb) (hyb : y[b]? = some yb) :
    n < input.seqlen ∧ xb.length = n + 1 ∧ xb.getLast? = some DEAD ∧
      yb.length = input.seqlen - (n + 1) := by
  have hcb : (List.zipWith (· ++ ·) x y)[b]? = some (xb ++ yb) := by
    rw [List.getElem?_zipWith, hxb, hyb]
  have hdead := getElem?_compress_masked hc hmask hrow hn hcb
  have hwide := cols_compress hc _ (List.mem_of_getElem? hcb)
  have hnlt : n < input.seqlen := hwide ▸ (List.getElem?_eq_some_iff.mp hdead).1
  have hxrow : xb.length = n + 1 := by
    rw [cols_compress hx _ (List.mem_of_getElem? hxb)]
    exact Nat.min_eq_left hnlt
  refine ⟨hnlt, hxrow, ?_, cols_compress hy _ (List.mem_of_getElem? hyb)⟩
  rw [List.getElem?_append_left (by omega)] at hdead
  rw [List.getLast?_eq_getElem?, hxrow]
  exact hdead

/-- In a row whose token in column `n` is masked, the ids behind it are those of a sequence that
starts there, in whatever cache. -/
theorem forward_drop_eq (htables : fresh.toHashTables = state.toHashTables)
    {out out' : List (List (List (List ℤ)))}
    (h : state.forward input startPos = (.ok out, state'))
    (hfresh : fresh.forward (input.drop (n + 1)) 0 = (.ok out', fresh'))
    {mask : List (List Bool)} (hmask : input.tokenMask = some mask) {row : List Bool}
    (hrow : mask[b]? = some row) (hn : row[n]? = some false) :
    out'[b]? = out[b]?.map (List.drop (n + 1)) := by
  obtain ⟨c, hc, hfits, -, rfl, -⟩ := forward_eq_ok_iff.mp h
  obtain ⟨y, hy, hfits', -, rfl, -⟩ := forward_eq_ok_iff.mp hfresh
  obtain ⟨x, y', hx, hy', rfl⟩ := (compress_eq_ok_iff_parts (n + 1)).mp hc
  -- both machines compress the last columns to the same tokens
  have hmap : fresh.tokenMap = state.tokenMap := congrArg HashTables.tokenMap htables
  rw [hmap, hy'] at hy
  obtain rfl := Except.ok.inj hy
  have hxlen : x.length = input.inputIds.length := by
    rw [length_compress hx]
    exact List.length_map _
  have hylen : y'.length = input.inputIds.length := by
    rw [length_compress hy']
    exact List.length_map _
  have hb : b < input.inputIds.length := by
    have hlen : mask.length = input.inputIds.length := by
      simpa using congrArg List.length (input.maskRect mask hmask)
    rw [← hlen]
    exact (List.getElem?_eq_some_iff.mp hrow).1
  have hclen : (List.zipWith (· ++ ·) x y').length = input.inputIds.length := by
    rw [List.length_zipWith, hxlen, hylen, Nat.min_self]
  -- the masked column is dead, so no look back goes beyond it
  obtain ⟨hnlt, hxrow, hlast, hyrow⟩ := parts_of_masked hc hx hy' hmask hrow hn
    (List.getElem?_eq_getElem (by omega)) (List.getElem?_eq_getElem (by omega))
  have hsum : n + 1 + (input.seqlen - (n + 1)) = input.seqlen := by omega
  have hrows := hfits.1
  have hrows' := hfits'.1
  rw [hclen] at hrows
  rw [hylen] at hrows'
  -- the rows fit into both caches
  have hfit := hfits.2.2 (by omega)
  have hrowlen := state.cache.rect state.cache.rows[b] (List.getElem_mem _)
  have hrowlen' := fresh.cache.rect fresh.cache.rows[b] (List.getElem_mem _)
  have hfit' : input.seqlen - (n + 1) ≤ fresh.cache.rows[b].length := by
    rcases Nat.eq_zero_or_pos (input.seqlen - (n + 1)) with hzero | hpos
    · omega
    · have hle : 0 + (input.seqlen - (n + 1)) ≤ fresh.cache.width := hfits'.2.2 hpos
      omega
  have hrowIds := drop_rowIds_store htables hxrow hlast hyrow
    (by rw [hsum, hrowlen]; exact hfit) hfit'
  rw [hsum] at hrowIds
  rw [take_writeRows (by omega), take_writeRows (by omega), List.getElem?_map, List.getElem?_map,
    List.getElem?_eq_getElem (by simp; omega), List.getElem?_eq_getElem (by simp; omega),
    List.getElem_zipWith, List.getElem_zipWith, List.getElem_zipWith, Option.map_some,
    Option.map_some, Option.map_some, hrowIds]
  rfl

end Masked

/-- The ids of the third column of `smallInput` as a batch of its own. -/
def smallTail : List (List (List (List ℤ))) :=
  [[[[0, 11, 24, 41], [0, 23, 52, 83]]], [[[9, 19, 35, 43], [18, 50, 60, 101]]]]

/-- The ids of the small input without its first two columns, computed. -/
private theorem forward_smallTail :
    (smallState.forward (smallInput.drop 2) 0).1 = .ok smallTail := by
  rfl

theorem forward_drop_eq_smallInput : smallTail[1]? = smallIds[1]?.map (List.drop 2) := by
  have h : smallState.forward smallInput 0 = (.ok smallIds, (smallState.forward smallInput 0).2) :=
    Prod.ext forward_smallInput rfl
  have hfresh : smallState.forward (smallInput.drop 2) 0 =
      (.ok smallTail, (smallState.forward (smallInput.drop 2) 0).2) :=
    Prod.ext forward_smallTail rfl
  exact forward_drop_eq rfl h hfresh rfl rfl rfl

end V41

end EngramDB
