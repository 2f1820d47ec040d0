import EngramDB.Foundations.LiveWindow
import EngramDB.Foundations.Slots
import EngramDB.Scripts.RefPleHash
import EngramDB.V41.Layout
import EngramDB.V41.TokenMap

/-!
# The V4.1 hash state

`NgramHashState` maps each position to the hash ids of the n-grams that end there. The compressed
ids of a batch are written into a cache, from which every position looks back; the look-back stops
at the start of the sequence and at a dead token. Products and sums are those of 64-bit tensors.

`forward_eq`: what a call computes from the cache.
-/

namespace EngramDB

namespace V41

open RefPleHash (wrap64)
open SlotBuffer LiveWindow

/-- The token of an image span. -/
def DEAD : ℤ := -1

/-- The cache of compressed ids: one row of `width` entries for every sequence of a batch. -/
@[ext]
structure Cache where
  rows : List (List ℤ)
  width : ℕ
  /-- It is a tensor of two dimensions. -/
  rect : ∀ row ∈ rows, row.length = width

/-- A batch of token ids, with the mask of the tokens that take part in n-grams. -/
structure HashInput where
  inputIds : List (List ℤ)
  seqlen : ℕ
  /-- It is a tensor of two dimensions. -/
  rect : ∀ row ∈ inputIds, row.length = seqlen
  tokenMask : Option (List (List Bool))
  /-- The mask has the shape of the ids. -/
  maskRect : ∀ mask ∈ tokenMask, mask.map List.length = inputIds.map List.length

/-- `xs[i]`, where a negative index counts from the end. -/
def itemFrom {α : Type} (xs : List α) (i : ℤ) : Py α :=
  if 0 ≤ i then Py.item xs i.toNat
  else if -i ≤ xs.length then Py.item xs (xs.length - (-i).toNat)
  else .error .indexError

/-- `self.token_map[input_ids]`, with the masked tokens replaced by `DEAD`. -/
def compress (tokenMap : List ℤ) (input : HashInput) : Py (List (List ℤ)) := do
  let compressed ← input.inputIds.mapM fun row => row.mapM (itemFrom tokenMap)
  pure (match input.tokenMask with
    | none => compressed
    | some mask => List.zipWith (List.zipWith fun m x => if m then x else DEAD) mask compressed)

/-- `self.cache[:batch, start_pos : start_pos + seqlen] = compressed` -/
def writeRows (rows : List (List ℤ)) (startPos : ℕ) (compressed : List (List ℤ)) :
    List (List ℤ) :=
  List.zipWith (fun row new => store row startPos new) rows compressed ++
    rows.drop compressed.length

/-- The ids of one layer: the running xor of the products, reduced by the moduli of every n-gram
size. -/
def hashes : ℤ → List ℤ → List (List ℕ) → List ℤ
  | rolling, product :: products, sizes :: primes =>
    let rolling := Int.xor rolling product
    sizes.map (fun p : ℕ => rolling.fmod p) ++ hashes rolling products primes
  | _, _, _ => []

/-- The ids of one layer for the tokens seen from a position, newest first. -/
def layerIds (multipliers : List ℤ) (primes : List (List ℕ)) (offsets : List ℤ)
    (tokens : List ℤ) : List ℤ :=
  match List.zipWith (fun t m => wrap64 (t * m)) tokens multipliers with
  | [] => []
  | product :: products =>
    List.zipWith (fun h off => wrap64 (h + off)) (hashes product products primes) offsets

theorem length_writeRows {rows compressed : List (List ℤ)} {startPos : ℕ}
    (h : compressed.length ≤ rows.length) :
    (writeRows rows startPos compressed).length = rows.length := by
  rw [writeRows, List.length_append, List.length_zipWith, List.length_drop]
  omega

/-- The tensor that is written has `seqlen` columns, and the part of the cache has its shape. -/
def Cache.Fits (cache : Cache) (startPos seqlen : ℕ) (compressed : List (List ℤ)) : Prop :=
  compressed.length ≤ cache.rows.length ∧ (∀ new ∈ compressed, new.length = seqlen) ∧
    (0 < seqlen → startPos + seqlen ≤ cache.width)

instance (cache : Cache) (startPos seqlen : ℕ) (compressed : List (List ℤ)) :
    Decidable (cache.Fits startPos seqlen compressed) := by
  unfold Cache.Fits
  infer_instance

/-- Overwriting a part that lies in the row (`hfit`) keeps its length. -/
private theorem length_store_row {row new : List ℤ} {startPos seqlen width : ℕ}
    (hrow : row.length = width)
    (hnew : new.length = seqlen) (hfit : 0 < seqlen → startPos + seqlen ≤ width) :
    (store row startPos new).length = width := by
  rcases Nat.eq_zero_or_pos seqlen with rfl | hpos
  · obtain rfl : new = [] := List.length_eq_zero_iff.mp hnew
    rw [store, List.append_nil, List.length_nil, Nat.add_zero, List.take_append_drop, hrow]
  · have := hfit hpos
    rw [length_store (by omega), hrow]

/-- The cache with a part overwritten. -/
def Cache.write (cache : Cache) {startPos seqlen : ℕ} {compressed : List (List ℤ)}
    (h : cache.Fits startPos seqlen compressed) : Cache where
  rows := writeRows cache.rows startPos compressed
  width := cache.width
  rect := by
    obtain ⟨-, hcols, hfit⟩ := h
    intro row hrow
    rw [writeRows, List.mem_append] at hrow
    rcases hrow with hrow | hrow
    · obtain ⟨b, hb, rfl⟩ := List.mem_iff_getElem.mp hrow
      rw [List.getElem_zipWith]
      exact length_store_row (cache.rect _ (List.getElem_mem _)) (hcols _ (List.getElem_mem _)) hfit
    · exact cache.rect row (List.mem_of_mem_drop hrow)

/-- What the module is made with and never changes. -/
structure HashTables where
  layout : EngramLayout
  padId : ℤ
  /-- The first bucket of every head, by layer. -/
  offsets : List (List ℤ)
  /-- One multiplier for every layer and place looked back to. -/
  multipliers : List (List ℤ)
  tokenMap : List ℤ

/-- The state of the module. -/
structure NgramHashState extends HashTables where
  cache : Cache

/-- Tensors whose shapes do not fit. -/
def sizeError : PyError := .runtimeError "tensor sizes do not match"

/-- The ids of all layers for the tokens seen from a position. -/
def HashTables.columns (tables : HashTables) (tokens : List ℤ) : List (List ℤ) :=
  (List.zip tables.multipliers (List.zip tables.layout.primes tables.offsets)).map
    fun (multipliers, primes, offsets) => layerIds multipliers primes offsets tokens

namespace NgramHashState

/-- The ids of the positions that a call covers, read off a row of the cache. -/
def rowIds (state : NgramHashState) (startPos seqlen : ℕ) (row : List ℤ) : List (List (List ℤ)) :=
  (List.range' startPos seqlen).map fun p =>
    state.columns (scan DEAD state.padId row p 0 state.layout.maxNgramSize false)

/-- `forward`: the ids of every position of the batch, and the state with the batch in the cache.
Without two tokens to look at there is nothing to concatenate. -/
def forward (state : NgramHashState) (input : HashInput) (startPos : ℕ) :
    Py (List (List (List (List ℤ)))) × NgramHashState :=
  match compress state.tokenMap input with
  | .error e => (.error e, state)
  | .ok compressed =>
    if h : state.cache.Fits startPos input.seqlen compressed then
      let state := { state with cache := state.cache.write h }
      if state.layout.maxNgramSize < 2 then (.error sizeError, state)
      else (.ok ((state.cache.rows.take compressed.length).map
        (state.rowIds startPos input.seqlen)), state)
    else (.error sizeError, state)

end NgramHashState

section Compress

/-- The rows that are found have the lengths of the rows that are looked up. -/
theorem map_length_of_mapM_mapM {α β : Type} {f : α → Py β} {rows : List (List α)}
    {c : List (List β)} (h : rows.mapM (fun row => row.mapM f) = .ok c) :
    c.map List.length = rows.map List.length := by
  induction rows generalizing c with
  | nil =>
    obtain rfl := Except.ok.inj h
    rfl
  | cons row rows ih =>
    rw [List.mapM_cons] at h
    obtain ⟨r, hr, h⟩ := Except.bind_eq_ok_iff.mp h
    obtain ⟨c', hc', h⟩ := Except.bind_eq_ok_iff.mp h
    obtain rfl := Except.ok.inj h
    rw [List.map_cons, List.map_cons, ih hc', Except.length_of_mapM_eq_ok hr]

/-- A masked batch has the shape of the batch, when the mask has it (`h`). -/
private theorem map_length_zipWith_mask {α β γ : Type} (g : α → β → γ) {mask : List (List α)}
    {ids : List (List β)} (h : mask.map List.length = ids.map List.length) :
    (List.zipWith (List.zipWith g) mask ids).map List.length = ids.map List.length := by
  induction mask generalizing ids with
  | nil =>
    obtain rfl : ids = [] := by simpa using h.symm
    rfl
  | cons m mask ih =>
    match ids with
    | [] => rfl
    | row :: ids =>
      simp only [List.map_cons, List.cons.injEq] at h
      rw [List.zipWith_cons_cons, List.map_cons, List.map_cons, ih h.2, List.length_zipWith, h.1,
        Nat.min_self]

variable {tokenMap : List ℤ} {input : HashInput} {compressed : List (List ℤ)}

/-- A compressed batch has the shape of the batch of ids. -/
theorem map_length_compress (h : compress tokenMap input = .ok compressed) :
    compressed.map List.length = input.inputIds.map List.length := by
  rw [compress, Except.bind_eq_ok_iff] at h
  obtain ⟨ids, hids, h⟩ := h
  have hshape := map_length_of_mapM_mapM hids
  cases hmask : input.tokenMask with
  | none =>
    rw [hmask] at h
    obtain rfl := Except.ok.inj h
    exact hshape
  | some mask =>
    rw [hmask] at h
    obtain rfl := Except.ok.inj h
    have hmaskRect := input.maskRect mask hmask
    rw [← hshape] at hmaskRect
    exact (map_length_zipWith_mask _ hmaskRect).trans hshape

theorem length_compress (h : compress tokenMap input = .ok compressed) :
    compressed.length = input.inputIds.length := by
  simpa using congrArg List.length (map_length_compress h)

/-- Every row of a compressed batch has one id for each column. -/
theorem cols_compress (h : compress tokenMap input = .ok compressed) :
    ∀ row ∈ compressed, row.length = input.seqlen := by
  intro row hrow
  have hmem : row.length ∈ input.inputIds.map List.length := by
    rw [← map_length_compress h]
    exact List.mem_map_of_mem hrow
  obtain ⟨ids, hids, heq⟩ := List.mem_map.mp hmem
  rw [← heq, input.rect ids hids]

end Compress

/-- What it takes for a call to return, and what it then does. -/
theorem forward_eq_ok_iff {state state' : NgramHashState} {input : HashInput} {startPos : ℕ}
    {out : List (List (List (List ℤ)))} :
    state.forward input startPos = (.ok out, state') ↔
      ∃ compressed, compress state.tokenMap input = .ok compressed ∧
        ∃ h : state.cache.Fits startPos input.seqlen compressed,
          2 ≤ state.layout.maxNgramSize ∧
          out = ((writeRows state.cache.rows startPos compressed).take compressed.length).map
            (state.rowIds startPos input.seqlen) ∧
          state' = { state with cache := state.cache.write h } := by
  rw [NgramHashState.forward]
  cases hc : compress state.tokenMap input with
  | error e => simp
  | ok compressed =>
    simp only [Except.ok.injEq, exists_eq_left']
    split_ifs with hfits hsize
    · refine iff_of_false (by simp) ?_
      rintro ⟨-, hle, -⟩
      exact absurd hsize (Nat.not_lt.mpr hle)
    · simp only [Prod.mk.injEq, Except.ok.injEq]
      constructor
      · rintro ⟨rfl, rfl⟩
        exact ⟨hfits, Nat.le_of_not_lt hsize, rfl, rfl⟩
      · rintro ⟨-, -, rfl, rfl⟩
        exact ⟨rfl, rfl⟩
    · refine iff_of_false (by simp) ?_
      rintro ⟨hfits', -⟩
      exact hfits hfits'

/-- The memory in which the small module is made. -/
def smallMemory : Cache where
  rows := [[7, 7, 7, 7, 7, 7], [9, 9, 9, 9, 9, 9]]
  width := 6
  rect := by decide

/-- A module for a tokenizer of four tokens, two of which share an id. -/
def smallState : NgramHashState where
  layout := smallLayout
  padId := 0
  offsets := [[0, 11, 24, 41], [0, 23, 52, 83]]
  multipliers := [[2531209220471544413, 159864333946207753, 1187771949822987911],
    [2236731403258295683, 1701436289172122773, 1021352712337358253]]
  tokenMap := [0, 0, 1, 2]
  cache := smallMemory

/-- A batch of two sequences, in the second of which a token is masked. -/
def smallInput : HashInput where
  inputIds := [[2, 3, 1], [3, 2, 2]]
  seqlen := 3
  rect := by decide
  tokenMask := some [[true, true, true], [true, false, true]]
  maskRect := by
    intro mask hmask
    obtain rfl := Option.some.inj hmask
    rfl

/-- A batch of one token. -/
def smallStep : HashInput where
  inputIds := [[3]]
  seqlen := 1
  rect := by decide
  tokenMask := none
  maskRect := by
    intro mask hmask
    cases hmask

end V41

end EngramDB
