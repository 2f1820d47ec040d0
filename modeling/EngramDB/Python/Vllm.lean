import EngramDB.Python.DiskPleEmbedding.ReadThrough
import EngramDB.Python.PleSequenceStore.Batches

/-!
# Gathering rows for an inference engine

`fetch_e_t_tensor` returns the rows of a flat list of row ids as one tensor, which has a place for
every head of every token. With `dedup`, every row is read once, in the order in which the rows are
asked for first, and the rows are expanded through a map from row ids to places. Without a
`head_dim` nothing is reshaped, and the expansion takes single entries out instead of rows.

* `uniqueRows_spec`: which rows are read;
* `exists_gatherUnique_eq_ok`, `gatherAll_eq`: both ways gather the stored rows in the order of the
  request, the first one if the rows can be told apart;
* `transparent_iff`: so they return the same tensor exactly when `head_dim` suits the rows.
-/

namespace EngramDB

open SlotBuffer

/-- The arguments of `fetch_e_t_tensor` besides the row ids and `dedup`. -/
structure ETFetch (α β : Type) where
  /-- `store.fetch`. -/
  fetch : List ℤ → Py Bytes
  /-- Number of heads. -/
  numHeads : ℕ
  /-- Entries of one row. Where it is `None`, the code skips its reshapes. -/
  headDim : Option ℕ
  /-- How the store keeps an entry. -/
  dtype : TensorFormat α
  /-- `.to(out_dtype)`, on one entry. -/
  outDtype : α → β
  /-- Multiplication by the scale, unless this is `1.0`. -/
  scale : Option (β → β)

/-- `t.reshape(shape)`. -/
def reshaped {α : Type} (t : Tensor α) (shape : List ℕ) : Py (Tensor α) :=
  match Tensor.reshape t.entries shape with
  | some u => .ok u
  | none =>
    .error (.runtimeError s!"shape '{shape}' is invalid for input of size {t.entries.length}")

namespace ETFetch

variable {α β : Type} (args : ETFetch α β)

/-- `int(num_heads or 1)`. -/
def nHeads : ℕ := if args.numHeads = 0 then 1 else args.numHeads

/-- `t.reshape(*axes, head_dim)`, if there is a `head_dim`. -/
def reshapedRows (t : Tensor β) (axes : List ℕ) : Py (Tensor β) :=
  match args.headDim with
  | some headDim => reshaped t (axes ++ [headDim])
  | none => .ok t

/-- `torch.empty((0, n_heads, head_dim))`, which needs a number for every axis. -/
def emptyRows : Py (Tensor β) :=
  match args.headDim with
  | some headDim => .ok ⟨[0, args.nHeads, headDim], [], (Nat.zero_mul _).symm⟩
  | none => .error (.typeError "empty() received an invalid combination of arguments")

/-- The rows that are read with `dedup`, each once. -/
def uniqueRows (rowids : List ℤ) : List ℤ := freshRows (fun _ => false) [] rowids

/-- With `dedup`: the unique rows are read and converted, and `batch[idx]` expands them. -/
def gatherUnique (rowids : List ℤ) : Py (Tensor β) := do
  let unique := uniqueRows rowids
  let raw ← args.fetch unique
  let entries ← args.dtype.frombuffer raw
  let batch ← args.reshapedRows (Tensor.flat (entries.map args.outDtype)) [unique.length]
  let indexOf := OrderedDict.empty.update unique.zipIdx
  let idx ← rowids.mapM indexOf.item
  match batch.indexSelect idx with
  | some arr => pure arr
  | none => throw .indexError

/-- Without `dedup`: all rows are read as they are asked for, and converted. -/
def gatherAll (rowids : List ℤ) : Py (Tensor β) := do
  let raw ← args.fetch rowids
  let entries ← args.dtype.frombuffer raw
  pure (Tensor.flat (entries.map args.outDtype))

/-- The rows as a tensor of tokens and heads. -/
def fetchETTensor (rowids : List ℤ) (dedup : Bool) : Py (Tensor β) := do
  let nRows := rowids.length
  if nRows = 0 then
    return ← args.emptyRows
  if nRows % args.nHeads ≠ 0 then
    throw (.valueError s!"rowids length {nRows} is not divisible by num_heads={args.nHeads}")
  let nTokens := nRows / args.nHeads
  let arr ← if dedup then args.gatherUnique rowids else args.gatherAll rowids
  let arr :=
    match args.scale with
    | some mul => arr.map mul
    | none => arr
  args.reshapedRows arr [nTokens, args.nHeads]

/-- What the tensor shows for a stored entry. -/
def value (x : α) : β := (args.scale.getD id) (args.outDtype x)

/-- The entries of a stored row, as they are read. -/
def stored (bytes : Bytes) : List α := (slots args.dtype.itemsize bytes).map args.dtype.entry

/-- With and without `dedup` the same tensor is returned: entry by entry the stored rows in the
order of the request, on the axes of tokens, heads and entries if there is a `head_dim`. -/
def Transparent (row : ℤ → Bytes) (rowids : List ℤ) : Prop :=
  ∃ t, (∀ dedup, args.fetchETTensor rowids dedup = .ok t) ∧
    t.entries = (rowids.flatMap fun r => (args.stored (row r)).map args.value) ∧
    ∀ headDim, args.headDim = some headDim →
      t.shape = [rowids.length / args.nHeads, args.nHeads, headDim]

/-- The `head_dim` suits a request for rows of `dim` entries. For no rows, any number does; else it
is the width of the rows, which may be left out where a row is a single entry. -/
def Suits (dim : ℕ) (rowids : List ℤ) : Prop :=
  if rowids = [] then args.headDim ≠ none else 0 < dim ∧ args.headDim.getD 1 = dim

section Reshape

variable {args : ETFetch α β}

/-- A reshape that returns has kept the entries. -/
private theorem reshaped_eq_ok_iff {t u : Tensor β} {shape : List ℕ} :
    reshaped t shape = .ok u ↔ u.entries = t.entries ∧ u.shape = shape := by
  unfold reshaped
  constructor
  · intro h
    rcases Tensor.reshape_eq_none_or t.entries shape with hnone | ⟨v, hv, hspec⟩
    · simp [hnone] at h
    · rw [hv] at h
      cases h
      exact hspec
  · rintro ⟨hentries, rfl⟩
    have hlen : t.entries.length = numel u.shape := by rw [← hentries, u.length_entries]
    rw [Tensor.reshape_eq_some hlen]
    exact congrArg Except.ok (Tensor.ext rfl hentries.symm)

/-- The entries stay, and the axes change if there is a `head_dim`. -/
theorem reshapedRows_eq_ok_iff {t u : Tensor β} {axes : List ℕ} :
    args.reshapedRows t axes = .ok u ↔
      u.entries = t.entries ∧ u.shape = args.headDim.elim t.shape fun d => axes ++ [d] := by
  unfold reshapedRows
  cases args.headDim with
  | none =>
    rw [Except.ok.injEq]
    exact ⟨fun h => h ▸ ⟨rfl, rfl⟩, fun h => Tensor.ext h.2.symm h.1.symm⟩
  | some d => exact reshaped_eq_ok_iff

theorem numel_toList_headDim : numel args.headDim.toList = args.headDim.getD 1 := by
  cases args.headDim with
  | none => rfl
  | some d => exact Nat.mul_one d

/-- As many rows of the expected width as there are can be told apart. -/
private theorem exists_reshapedRows (args : ETFetch α β) {entries : List β} {k : ℕ}
    (hlen : entries.length = k * args.headDim.getD 1) :
    ∃ batch, args.reshapedRows (Tensor.flat entries) [k] = .ok batch ∧
      batch.shape = k :: args.headDim.toList ∧ batch.entries = entries := by
  have hnumel : entries.length = numel (k :: args.headDim.toList) := by
    rw [hlen, ← numel_toList_headDim]
    rfl
  refine ⟨⟨_, entries, hnumel⟩, reshapedRows_eq_ok_iff.mpr ⟨rfl, ?_⟩, rfl, rfl⟩
  show k :: args.headDim.toList = args.headDim.elim [entries.length] fun d => [k] ++ [d]
  rw [hlen]
  cases args.headDim with
  | none => exact congrArg (fun m => [m]) (Nat.mul_one k).symm
  | some d => rfl

end Reshape

section Gather

variable {args : ETFetch α β} {n dim : ℕ} {row : ℤ → Bytes} {rowids : List ℤ}

/-- The unique rows are those that are asked for. -/
theorem uniqueRows_spec (rowids : List ℤ) :
    (uniqueRows rowids).Nodup ∧ ∀ r, r ∈ uniqueRows rowids ↔ r ∈ rowids := by
  refine ⟨nodup_freshRows [] rowids, fun r => ?_⟩
  rw [uniqueRows, mem_freshRows]
  simp

/-- Rows that are fetched are read entry by entry, unless there are no entries. -/
theorem fetch_frombuffer (hserves : Serves args.fetch n row (dim * args.dtype.itemsize))
    (hne : rowids ≠ []) (hrange : ∀ r ∈ rowids, InRange n r) :
    args.fetch rowids >>= args.dtype.frombuffer =
      if 0 < dim then .ok (rowids.flatMap fun r => args.stored (row r))
      else .error (.valueError "both buffer length (0) and count (-1) must not be 0") := by
  have hrow : ∀ r ∈ rowids, (row r).length = dim * args.dtype.itemsize := fun r hr =>
    hserves.length_row r (hrange r hr)
  rw [hserves.fetch_eq rowids hne hrange]
  show args.dtype.frombuffer (rowids.map row).flatten = _
  rw [args.dtype.frombuffer_rows hrow]
  simp only [hne, ne_eq, not_false_eq_true, true_and]
  rfl

/-- Without `dedup`, the rows are gathered as they are asked for, unless there are no entries. -/
theorem gatherAll_eq (hserves : Serves args.fetch n row (dim * args.dtype.itemsize))
    (hne : rowids ≠ []) (hrange : ∀ r ∈ rowids, InRange n r) :
    args.gatherAll rowids =
      if 0 < dim then
        .ok (Tensor.flat (rowids.flatMap fun r => (args.stored (row r)).map args.outDtype))
      else .error (.valueError "both buffer length (0) and count (-1) must not be 0") := by
  unfold gatherAll
  rw [← bind_assoc, fetch_frombuffer hserves hne hrange, ← List.map_flatMap]
  split_ifs <;> rfl

/-- The entries of some rows in range (`hrange`) of a table that serves them (`hserves`): `dim` of
each, one row after another. -/
theorem length_flatMap_stored (hserves : Serves args.fetch n row (dim * args.dtype.itemsize))
    (f : α → β) (hrange : ∀ r ∈ rowids, InRange n r) :
    (∀ r ∈ rowids, ((args.stored (row r)).map f).length = dim) ∧
      (rowids.flatMap fun r => (args.stored (row r)).map f).length = rowids.length * dim := by
  have hrow : ∀ r ∈ rowids, ((args.stored (row r)).map f).length = dim := by
    intro r hr
    rw [List.length_map]
    exact args.dtype.length_entries_of_row (hserves.length_row r (hrange r hr))
  refine ⟨hrow, ?_⟩
  have hpieces : ∀ p ∈ rowids.map fun r => (args.stored (row r)).map f, p.length = dim := by
    intro p hp
    obtain ⟨r, hr, rfl⟩ := List.mem_map.mp hp
    exact hrow r hr
  rw [List.flatMap_def, length_flatten hpieces, List.length_map]

/-- The unique rows, expanded through their places, are the rows of the request, if the places of
the first axis are rows. -/
theorem exists_gatherUnique_eq_ok (hserves : Serves args.fetch n row (dim * args.dtype.itemsize))
    (hdim : 0 < dim) (hheadDim : args.headDim.getD 1 = dim) (hne : rowids ≠ [])
    (hrange : ∀ r ∈ rowids, InRange n r) :
    ∃ arr, args.gatherUnique rowids = .ok arr ∧
      arr.shape = rowids.length :: args.headDim.toList ∧
      arr.entries = rowids.flatMap fun r => (args.stored (row r)).map args.outDtype := by
  obtain ⟨hnodup, hmem⟩ := uniqueRows_spec rowids
  unfold gatherUnique
  generalize uniqueRows rowids = unique at hnodup hmem
  have hunique : unique ≠ [] := by
    obtain ⟨r, hr⟩ := List.exists_mem_of_ne_nil rowids hne
    exact List.ne_nil_of_mem ((hmem r).mpr hr)
  have hin : ∀ r ∈ unique, InRange n r := fun r hr => hrange r ((hmem r).mp hr)
  obtain ⟨hrow, hlen⟩ := length_flatMap_stored hserves args.outDtype hin
  obtain ⟨batch, hbatch, hshape, hentries⟩ :=
    args.exists_reshapedRows (hlen.trans (congrArg _ hheadDim.symm))
  -- every row of the request is found at its place among the unique rows
  have hidx : rowids.mapM (OrderedDict.empty.update unique.zipIdx).item =
      .ok (rowids.map fun r => unique.idxOf r) := by
    apply Except.mapM_eq_ok
    intro r hr
    rw [OrderedDict.item, OrderedDict.get?_update_zipIdx hnodup ((hmem r).mpr hr)]
  have hwide : ∀ r ∈ unique, ((args.stored (row r)).map args.outDtype).length =
      numel args.headDim.toList := fun r hr => by rw [hrow r hr, numel_toList_headDim, hheadDim]
  have hrequest : ∀ r ∈ rowids, r ∈ unique := fun r hr => (hmem r).mpr hr
  obtain ⟨arr, harr, hresult⟩ := Tensor.indexSelect_rows hwide hrequest hshape hentries
  refine ⟨arr, ?_, hresult⟩
  rw [← bind_assoc, fetch_frombuffer hserves hunique hin, if_pos hdim, Except.ok_bind,
    List.map_flatMap, hbatch, Except.ok_bind]
  simp only [hidx, Except.ok_bind, harr]
  rfl

/-- Without a `head_dim`, single entries are taken out: one for every row that was asked for. -/
private theorem shape_of_gatherUnique {arr : Tensor β} (hnone : args.headDim = none)
    (h : args.gatherUnique rowids = .ok arr) : arr.shape = [rowids.length] := by
  obtain ⟨raw, -, h⟩ := Except.bind_eq_ok_iff.mp h
  obtain ⟨entries, -, h⟩ := Except.bind_eq_ok_iff.mp h
  obtain ⟨batch, hbatch, h⟩ := Except.bind_eq_ok_iff.mp h
  obtain ⟨idx, hidx, h⟩ := Except.bind_eq_ok_iff.mp h
  have hshape := (reshapedRows_eq_ok_iff.mp hbatch).2
  rw [hnone, Option.elim_none] at hshape
  cases hselect : batch.indexSelect idx with
  | none =>
    rw [hselect] at h
    cases h
  | some u =>
    rw [hselect] at h
    cases h
    rw [Tensor.shape_of_indexSelect hshape hselect, Except.length_of_mapM_eq_ok hidx]

/-- The gathered rows are scaled, and laid on the axes of tokens, heads and entries. -/
theorem fetchETTensor_eq_ok_iff (hne : rowids ≠ []) (hdvd : args.nHeads ∣ rowids.length)
    {dedup : Bool} {t : Tensor β} :
    args.fetchETTensor rowids dedup = .ok t ↔
      ∃ arr, (if dedup then args.gatherUnique rowids else args.gatherAll rowids) = .ok arr ∧
        t.entries = arr.entries.map (args.scale.getD id) ∧
        t.shape = args.headDim.elim arr.shape fun d =>
          [rowids.length / args.nHeads, args.nHeads, d] := by
  have hnRows : rowids.length ≠ 0 := fun h => hne (List.length_eq_zero_iff.mp h)
  have hmod : ¬ rowids.length % args.nHeads ≠ 0 := not_not.mpr (Nat.mod_eq_zero_of_dvd hdvd)
  unfold fetchETTensor
  have hscaled (arr : Tensor β) : args.reshapedRows (match args.scale with
      | some mul => arr.map mul
      | none => arr) [rowids.length / args.nHeads, args.nHeads] = .ok t ↔
        t.entries = arr.entries.map (args.scale.getD id) ∧
          t.shape = args.headDim.elim arr.shape fun d =>
            [rowids.length / args.nHeads, args.nHeads, d] := by
    rw [reshapedRows_eq_ok_iff]
    cases args.scale with
    | none => simp
    | some mul => rfl
  cases dedup <;>
    simp only [if_neg hnRows, if_neg hmod, if_true, Bool.false_eq_true, if_false,
      Except.bind_eq_ok_iff, hscaled]

/-- Nothing is read for no rows, but the empty tensor needs its axes. -/
private theorem transparent_nil_iff : args.Transparent row [] ↔ args.headDim ≠ none := by
  have hempty (dedup : Bool) : args.fetchETTensor [] dedup = args.emptyRows := rfl
  constructor
  · rintro ⟨t, ht, -⟩ hnone
    have hok := (hempty false).symm.trans (ht false)
    simp [emptyRows, hnone] at hok
  · intro hsome
    obtain ⟨d, hd⟩ := Option.ne_none_iff_exists'.mp hsome
    refine ⟨⟨[0, args.nHeads, d], [], (Nat.zero_mul _).symm⟩, fun dedup => ?_, rfl, ?_⟩
    · rw [hempty, emptyRows, hd]
    · rintro d' hd'
      obtain rfl := Option.some.inj (hd.symm.trans hd')
      rw [List.length_nil, Nat.zero_div]

/-- A tensor on the axes of tokens, heads and entries has room for rows of the `head_dim`. -/
theorem numel_axes (hdvd : args.nHeads ∣ rowids.length) (d : ℕ) :
    numel [rowids.length / args.nHeads, args.nHeads, d] = rowids.length * d := by
  show rowids.length / args.nHeads * (args.nHeads * (d * 1)) = _
  rw [Nat.mul_one, ← Nat.mul_assoc, Nat.div_mul_cancel hdvd]

/-- Where both ways return the stored rows, the `head_dim` is the width of the rows. -/
theorem Transparent.headDim_eq (hserves : Serves args.fetch n row (dim * args.dtype.itemsize))
    (hne : rowids ≠ []) (hrange : ∀ r ∈ rowids, InRange n r) (hdvd : args.nHeads ∣ rowids.length)
    (h : args.Transparent row rowids) : 0 < dim ∧ args.headDim.getD 1 = dim := by
  obtain ⟨t, ht, hentries, -⟩ := h
  obtain ⟨arr, harr, -, hshape⟩ := (fetchETTensor_eq_ok_iff hne hdvd).mp (ht true)
  obtain ⟨arr', harr', -⟩ := (fetchETTensor_eq_ok_iff hne hdvd).mp (ht false)
  constructor
  · -- rows without entries are an empty buffer
    by_contra hdim
    rw [if_neg Bool.false_ne_true, gatherAll_eq hserves hne hrange, if_neg hdim] at harr'
    cases harr'
  · -- the tensor has the entries of all rows, and places for rows of the `head_dim`
    have hlen := t.length_entries
    rw [hentries, (length_flatMap_stored hserves args.value hrange).2, hshape] at hlen
    refine (Nat.eq_of_mul_eq_mul_left (List.length_pos_iff.mpr hne) ?_).symm
    rw [hlen]
    cases hdim : args.headDim with
    | none =>
      rw [Option.elim_none, shape_of_gatherUnique hdim harr]
      rfl
    | some d => exact numel_axes hdvd d

/-- Where the `head_dim` is the width of the rows, both ways return the stored rows. -/
private theorem transparent_of_headDim_eq
    (hserves : Serves args.fetch n row (dim * args.dtype.itemsize))
    (hdim : 0 < dim) (hheadDim : args.headDim.getD 1 = dim) (hne : rowids ≠ [])
    (hrange : ∀ r ∈ rowids, InRange n r) (hdvd : args.nHeads ∣ rowids.length) :
    args.Transparent row rowids := by
  obtain ⟨arr, harr, hshape, hentries⟩ :=
    exists_gatherUnique_eq_ok hserves hdim hheadDim hne hrange
  have hall := gatherAll_eq hserves hne hrange
  rw [if_pos hdim] at hall
  have hvalue : (rowids.flatMap fun r => (args.stored (row r)).map args.outDtype).map
      (args.scale.getD id) = rowids.flatMap fun r => (args.stored (row r)).map args.value := by
    simp only [List.map_flatMap, List.map_map]
    rfl
  -- without a `head_dim`, the rows are single entries, and there is one axis either way
  have haxes (f : ℕ → List ℕ) :
      args.headDim.elim [rowids.length * dim] f = args.headDim.elim arr.shape f := by
    rw [hshape]
    cases hd : args.headDim with
    | none =>
      rw [hd, Option.getD_none] at hheadDim
      rw [← hheadDim, Nat.mul_one]
      rfl
    | some d => rfl
  have hnumel : (rowids.flatMap fun r => (args.stored (row r)).map args.value).length =
      numel (args.headDim.elim [rowids.length * dim] fun d =>
        [rowids.length / args.nHeads, args.nHeads, d]) := by
    rw [(length_flatMap_stored hserves args.value hrange).2]
    cases hd : args.headDim with
    | none => exact (Nat.mul_one _).symm
    | some d =>
      rw [hd, Option.getD_some] at hheadDim
      rw [Option.elim_some, numel_axes hdvd, hheadDim]
  refine ⟨⟨_, _, hnumel⟩, fun dedup => (fetchETTensor_eq_ok_iff hne hdvd).mpr ?_, rfl, ?_⟩
  · cases dedup with
    | false =>
      refine ⟨_, hall, hvalue.symm, ?_⟩
      show args.headDim.elim [rowids.length * dim] _ = args.headDim.elim [_] _
      rw [(length_flatMap_stored hserves args.outDtype hrange).2]
    | true => exact ⟨arr, harr, by rw [hentries, hvalue], haxes _⟩
  · intro d hd
    show args.headDim.elim _ _ = _
    rw [hd]
    rfl

end Gather

section Example

/-- Rows of two bytes: the number of the row, and its square. The entries are doubled. -/
def doubledRows (headDim : Option ℕ) : ETFetch ℕ ℕ where
  fetch ids := .ok (ids.map fun r => [r.toNat.toUInt8, (r * r).toNat.toUInt8]).flatten
  numHeads := 2
  headDim := headDim
  dtype := ⟨1, Nat.one_pos, fun bytes => (bytes.headD 0).toNat⟩
  outDtype := id
  scale := some fun x => x * 2

example : (doubledRows (some 2)).fetchETTensor [3, 1, 1, 0] true =
    .ok ⟨[2, 2, 2], [6, 18, 2, 2, 2, 2, 0, 0], rfl⟩ := rfl

end Example

end ETFetch

end EngramDB
