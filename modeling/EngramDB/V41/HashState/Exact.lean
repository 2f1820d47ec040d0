import EngramDB.V41.HashState.Runs

/-!
# The hash ids are exact and lie in their buckets

The multipliers are drawn below a bound that is derived from the size of the compressed vocabulary,
so that no product of a token id and a multiplier overflows 64 bits. `isprime`, the random generator
and the tokenizer are those of other packages.

* `mul_multiplier_lt`: a compressed id times a multiplier fits;
* `run_eq_exact`: the ids of a run are those computed from the sequences with unbounded integers;
* `run_inBuckets`: every id of every run lies in the bucket range of its own head, and the ranges
  fill the layer's table.
-/

namespace EngramDB

namespace V41

open RefPleHash (wrap64)
open LiveWindow

/-! ### How the module is made -/

/-- `np.random.default_rng(seed).integers(low=0, high=high, size=(size,), dtype=np.int64)`. -/
structure Generator where
  integers : ℕ → ℕ → ℕ → List ℕ
  /-- So many values are drawn. -/
  length_integers : ∀ seed high size, (integers seed high size).length = size
  /-- The values are below the upper end. -/
  lt_of_mem : ∀ {seed high size v}, 0 < high → v ∈ integers seed high size → v < high

/-- `compute_hash_multipliers`: one odd multiplier for every layer and place looked back to. -/
def computeHashMultipliers (generator : Generator) (layerIds : List ℕ) (maxNgramSize : ℕ)
    (tokenizerVocabSize : ℕ) : Py (List (List ℤ)) :=
  if tokenizerVocabSize = 0 then .error .zeroDivisionError
  else if layerIds = [] then .error (.runtimeError "stack expects a non-empty TensorList")
  else
    let multiplierBound := max 1 ((2 ^ 63 - 1) / tokenizerVocabSize / 2)
    .ok (layerIds.map fun layerId =>
      (generator.integers (10007 * layerId) multiplierBound maxNgramSize).map
        fun v : ℕ => (v : ℤ) * 2 + 1)

/-- What making the module raises. -/
inductive InitError where
  /-- `AssertionError`: the compressed vocabulary does not have the size that is expected. -/
  | assertionError (vocabSize expected : ℕ)
  /-- What one of the steps raises. -/
  | raised (e : PyError)

/-- `NgramHashState.__init__`, for a tokenizer of `vocab` tokens, in memory that holds anything. -/
def NgramHashState.new (generator : Generator) (args : EngramArgs) (layout : EngramLayout)
    (tokenizer : Tokenizer) (vocab : ℕ) (memory : Cache) : Except InitError NgramHashState :=
  let (tokenMap, vocabSize) := buildCompressedTokenMap tokenizer vocab
  if vocabSize = args.engramCompressedVocabSize then do
    let padId ← (Py.item tokenMap args.engramPadId).mapError .raised
    let multipliers ← (computeHashMultipliers generator layout.layerIds layout.maxNgramSize
      vocabSize).mapError .raised
    -- a number that does not fit the type of a tensor is refused
    if (∀ t ∈ tokenMap, t < 2 ^ 63) ∧ ∀ p ∈ layout.primes.flatten.flatten, p < 2 ^ 63 then
      pure {
        layout
        padId
        offsets := layout.primes.map fun layer =>
          (runningOffsets (layer.flatten.map Nat.cast)).map wrap64
        multipliers
        tokenMap := tokenMap.map Nat.cast
        cache := memory }
    else throw (.raised .overflowError)
  else throw (.assertionError vocabSize args.engramCompressedVocabSize)

/-! ### Exact ids -/

/-- The ids of one layer, computed with unbounded integers. -/
def exactLayerIds (multipliers : List ℤ) (primes : List (List ℕ)) (tokens : List ℤ) : List ℤ :=
  match List.zipWith (· * ·) tokens multipliers with
  | [] => []
  | product :: products =>
    List.zipWith (· + ·) (hashes product products primes)
      (runningOffsets (primes.flatten.map Nat.cast))

/-- The ids of all layers, computed with unbounded integers. -/
def HashTables.exactColumns (tables : HashTables) (tokens : List ℤ) : List (List ℤ) :=
  List.zipWith (fun multipliers primes => exactLayerIds multipliers primes tokens)
    tables.multipliers tables.layout.primes

/-- What holds of the tables of a module that was made: ids below the size of the vocabulary,
multipliers that keep the products inside 64 bits, and the offsets of the moduli. -/
structure HashTables.Sound (tables : HashTables) : Prop where
  pad : tables.padId ∈ tables.tokenMap
  products : ∀ t ∈ tables.tokenMap, ∀ row ∈ tables.multipliers, ∀ m ∈ row,
    0 ≤ t * m ∧ t * m < 2 ^ 63
  offsets : tables.offsets = tables.layout.primes.map fun layer =>
    (runningOffsets (layer.flatten.map Nat.cast)).map wrap64

/-- A compressed id below the size of the vocabulary (`ht`), times a multiplier that was drawn below
its bound (`hv`), fits into 63 bits. -/
theorem mul_multiplier_lt {vocab t v : ℕ} (hvocab : vocab ≤ 2 ^ 63) (ht : t < vocab)
    (hv : v < max 1 ((2 ^ 63 - 1) / vocab / 2)) : t * (v * 2 + 1) < 2 ^ 63 := by
  rcases Nat.eq_zero_or_pos v with rfl | hpos
  · omega
  · have hbound : v < (2 ^ 63 - 1) / vocab / 2 := by omega
    have hmult : v * 2 + 1 ≤ (2 ^ 63 - 1) / vocab := by omega
    have hle : t * (v * 2 + 1) ≤ (2 ^ 63 - 1) / vocab * vocab := by
      rw [Nat.mul_comm]
      exact Nat.mul_le_mul hmult ht.le
    have := Nat.div_mul_le_self (2 ^ 63 - 1) vocab
    omega

/-- Renaming the errors of a computation does not change when it returns. -/
private theorem mapError_eq_ok_iff {α : Type} {x : Py α} {a : α} :
    x.mapError InitError.raised = .ok a ↔ x = .ok a := by
  cases x with
  | error e => simp [Except.mapError]
  | ok b => simp [Except.mapError]

section New

variable {generator : Generator} {args : EngramArgs} {layout : EngramLayout} {tokenizer : Tokenizer}
  {vocab : ℕ} {memory : Cache} {state : NgramHashState}

/-- What holds of a module that was made (`h`): its tables are sound, and it has the layout and the
memory that it was given, with a multiplier for every layer and place. -/
theorem sound_new
    (h : NgramHashState.new generator args layout tokenizer vocab memory = .ok state) :
    state.toHashTables.Sound ∧ state.layout = layout ∧ state.cache = memory ∧
      state.multipliers.length = layout.layerIds.length ∧
      ∀ row ∈ state.multipliers, row.length = layout.maxNgramSize := by
  have hrange := (buildCompressedTokenMap_spec tokenizer vocab).2.1
  rcases hmap : buildCompressedTokenMap tokenizer vocab with ⟨tokenMap, vocabSize⟩
  rw [hmap] at hrange
  rw [NgramHashState.new, hmap] at h
  simp only [Except.ite_throw_eq_ok_iff, Except.bind_eq_ok_iff, mapError_eq_ok_iff] at h
  obtain ⟨-, padId, hpad, multipliers, hmult, ⟨hfits, -⟩, h⟩ := h
  obtain rfl := Except.ok.inj h
  rw [computeHashMultipliers] at hmult
  split_ifs at hmult with hzero hnone
  obtain rfl := Except.ok.inj hmult
  -- the ids are the numbers below the size of the vocabulary, and each of them fits
  have hvocab : vocabSize ≤ 2 ^ 63 := by
    have := hfits _ ((hrange (vocabSize - 1)).mpr (by omega))
    omega
  refine ⟨⟨?_, ?_, rfl⟩, rfl, rfl, List.length_map _, ?_⟩
  · have hmem : padId ∈ tokenMap := by
      rw [Py.item] at hpad
      split at hpad
      · next a ha =>
        obtain rfl := Except.ok.inj hpad
        exact List.mem_of_getElem? ha
      · cases hpad
    exact List.mem_map_of_mem hmem
  · intro t ht row hrow m hm
    obtain ⟨id, hid, rfl⟩ := List.mem_map.mp ht
    obtain ⟨layerId, -, rfl⟩ := List.mem_map.mp hrow
    obtain ⟨v, hv, rfl⟩ := List.mem_map.mp hm
    have hlt := mul_multiplier_lt hvocab ((hrange id).mp hid)
      (generator.lt_of_mem (Nat.lt_of_lt_of_le Nat.one_pos (Nat.le_max_left _ _)) hv)
    have hcast : (id : ℤ) * ((v : ℤ) * 2 + 1) = ((id * (v * 2 + 1) : ℕ) : ℤ) := by push_cast; rfl
    rw [hcast]
    omega
  · intro row hrow
    obtain ⟨layerId, -, rfl⟩ := List.mem_map.mp hrow
    rw [List.length_map, generator.length_integers]

end New

section Buckets

/-- The `c`-th running offset is the sum of the first `c` sizes. -/
private theorem getElem?_scanl_add (sizes : List ℤ) (a : ℤ) {c : ℕ} (hc : c ≤ sizes.length) :
    (List.scanl (· + ·) a sizes)[c]? = some (a + (sizes.take c).sum) := by
  induction sizes generalizing a c with
  | nil =>
    obtain rfl : c = 0 := by simpa using hc
    simp
  | cons x sizes ih =>
    cases c with
    | zero => simp
    | succ c =>
      rw [List.scanl_cons, List.getElem?_cons_succ, ih _ (by simpa using hc), List.take_succ_cons,
        List.sum_cons, add_assoc]

/-- The running offset of column `c` is the sum of the sizes in front of it. -/
theorem getElem?_runningOffsets (sizes : List ℕ) {c : ℕ} (hc : c < sizes.length) :
    (runningOffsets (sizes.map Nat.cast))[c]? = some (((sizes.take c).sum : ℕ) : ℤ) := by
  have hdrop : c ≤ (sizes.map (Nat.cast : ℕ → ℤ)).dropLast.length := by
    rw [List.length_dropLast, List.length_map]
    omega
  rw [runningOffsets, getElem?_scanl_add _ _ hdrop, zero_add]
  refine congrArg some ?_
  rw [List.dropLast_eq_take, List.take_take, List.length_map, Nat.min_eq_left (by omega),
    ← List.map_take]
  exact (Nat.cast_list_sum _).symm

/-- Wrapping leaves the numbers of 63 bits as they are. -/
theorem wrap64_of_lt {x : ℤ} (h0 : 0 ≤ x) (h : x < 2 ^ 63) : wrap64 x = x := by
  lift x to ℕ using h0
  exact RefPleHash.wrap64_natCast (by exact_mod_cast h)

/-- Every id is reduced by the modulus of its column. -/
theorem getElem?_hashes {rolling : ℤ} {products : List ℤ} {primes : List (List ℕ)} {c p : ℕ} {h : ℤ}
    (hh : (hashes rolling products primes)[c]? = some h) (hp : primes.flatten[c]? = some p)
    (hpos : 0 < p) : 0 ≤ h ∧ h < p := by
  induction primes generalizing rolling products c with
  | nil => simp at hp
  | cons sizes primes ih =>
    cases products with
    | nil => simp [hashes] at hh
    | cons product products =>
      rw [hashes] at hh
      rw [List.flatten_cons] at hp
      rcases Nat.lt_or_ge c sizes.length with hc | hc
      · rw [List.getElem?_append_left (by rwa [List.length_map]), List.getElem?_map] at hh
        rw [List.getElem?_append_left hc] at hp
        rw [hp] at hh
        obtain rfl := Option.some.inj hh
        have hpos' : (0 : ℤ) < p := by exact_mod_cast hpos
        exact ⟨Int.fmod_nonneg_of_pos _ hpos', Int.fmod_lt_of_pos _ hpos'⟩
      · rw [List.getElem?_append_right (by rwa [List.length_map]), List.length_map] at hh
        rw [List.getElem?_append_right hc] at hp
        exact ih hh hp

/-- There are at most as many hashes as primes. -/
theorem length_hashes_le (rolling : ℤ) (products : List ℤ) (primes : List (List ℕ)) :
    (hashes rolling products primes).length ≤ primes.flatten.length := by
  fun_induction hashes rolling products primes with
  | case1 rolling product products sizes primes rolling' ih =>
    rw [List.length_append, List.length_map, List.flatten_cons, List.length_append]
    exact Nat.add_le_add_left ih _
  | case2 => exact Nat.zero_le _

/-- With a product for every n-gram size there is an id for every head. -/
private theorem length_hashes {rolling : ℤ} {products : List ℤ} {primes : List (List ℕ)}
    (h : products.length = primes.length) :
    (hashes rolling products primes).length = primes.flatten.length := by
  induction primes generalizing rolling products with
  | nil =>
    cases products <;> rfl
  | cons sizes primes ih =>
    cases products with
    | nil => simp at h
    | cons product products =>
      rw [hashes, List.length_append, List.length_map, ih (by simpa using h), List.flatten_cons,
        List.length_append]

/-- The sizes before a head and its own are part of all sizes. -/
theorem sum_take_add_le {sizes : List ℕ} {c p : ℕ} (hp : sizes[c]? = some p) :
    (sizes.take c).sum + p ≤ sizes.sum := by
  obtain ⟨hlt, rfl⟩ := List.getElem?_eq_some_iff.mp hp
  have hsum := List.sum_take_add_sum_drop sizes (c + 1)
  rw [List.sum_take_succ _ _ hlt] at hsum
  omega

end Buckets

section Columns

variable {tables : HashTables}

/-- Products of tokens and multipliers that all fit (`h`) are exact. -/
private theorem zipWith_wrap64_mul {tokens multipliers : List ℤ}
    (h : ∀ t ∈ tokens, ∀ m ∈ multipliers, 0 ≤ t * m ∧ t * m < 2 ^ 63) :
    List.zipWith (fun t m => wrap64 (t * m)) tokens multipliers =
      List.zipWith (· * ·) tokens multipliers := by
  refine List.ext_getElem (by simp) fun i hi hi' => ?_
  rw [List.getElem_zipWith, List.getElem_zipWith]
  obtain ⟨h0, hlt⟩ := h _ (List.getElem_mem _) _ (List.getElem_mem _)
  exact wrap64_of_lt h0 hlt

/-- Every id is moved by the sizes of the heads before its own. -/
theorem getElem?_zipWith_offsets (rolling : ℤ) (products : List ℤ) (primes : List (List ℕ))
    (f : ℤ → ℤ → ℤ) (g : ℤ → ℤ) (c : ℕ) :
    (List.zipWith f (hashes rolling products primes)
        ((runningOffsets (primes.flatten.map Nat.cast)).map g))[c]? =
      (hashes rolling products primes)[c]?.map fun h =>
        f h (g ((primes.flatten.take c).sum : ℕ)) := by
  rw [List.getElem?_zipWith, List.getElem?_map]
  cases hh : (hashes rolling products primes)[c]? with
  | none => rfl
  | some h =>
    have hlt := (List.getElem?_eq_some_iff.mp hh).1
    rw [getElem?_runningOffsets _ (hlt.trans_le (length_hashes_le rolling products primes))]
    rfl

/-- An id and the sizes before its head fit together. -/
theorem wrap64_add_offset {rolling : ℤ} {products : List ℤ} {primes : List (List ℕ)} {c : ℕ} {h : ℤ}
    (hpos : ∀ p ∈ primes.flatten, 0 < p) (hsum : primes.flatten.sum < 2 ^ 63)
    (hh : (hashes rolling products primes)[c]? = some h) :
    wrap64 (h + wrap64 ((primes.flatten.take c).sum : ℕ)) = h + (primes.flatten.take c).sum := by
  have hlt := (List.getElem?_eq_some_iff.mp hh).1
  have hp := List.getElem?_eq_getElem (hlt.trans_le (length_hashes_le rolling products primes))
  obtain ⟨h0, hmod⟩ := getElem?_hashes hh hp (hpos _ (List.getElem_mem _))
  have hle := sum_take_add_le hp
  have hoff : wrap64 ((primes.flatten.take c).sum : ℕ) = (primes.flatten.take c).sum :=
    wrap64_of_lt (by omega) (by omega)
  rw [hoff]
  exact wrap64_of_lt (by omega) (by omega)

/-- The ids of one layer are exact if the products fit (`hprod`), the moduli are positive (`hpos`)
and their sum fits (`hsum`). -/
private theorem layerIds_eq_exactLayerIds {multipliers tokens : List ℤ} {primes : List (List ℕ)}
    (hprod : ∀ t ∈ tokens, ∀ m ∈ multipliers, 0 ≤ t * m ∧ t * m < 2 ^ 63)
    (hpos : ∀ p ∈ primes.flatten, 0 < p) (hsum : primes.flatten.sum < 2 ^ 63) :
    layerIds multipliers primes ((runningOffsets (primes.flatten.map Nat.cast)).map wrap64) tokens =
      exactLayerIds multipliers primes tokens := by
  rw [layerIds, exactLayerIds, zipWith_wrap64_mul hprod]
  cases List.zipWith (· * ·) tokens multipliers with
  | nil => rfl
  | cons product products =>
    ext c : 1
    have hexact := getElem?_zipWith_offsets product products primes (· + ·) id c
    rw [List.map_id] at hexact
    rw [getElem?_zipWith_offsets, hexact]
    refine Option.map_congr fun h hh => ?_
    exact wrap64_add_offset hpos hsum hh

/-- With products and sums that fit, the ids of all layers are exact. -/
private theorem columns_eq_exactColumns (h : tables.Sound)
    (hpos : ∀ layer ∈ tables.layout.primes, ∀ p ∈ layer.flatten, 0 < p)
    (hrows : ∀ layer ∈ tables.layout.primes, layer.flatten.sum < 2 ^ 63) {tokens : List ℤ}
    (ht : ∀ t ∈ tokens, t ∈ tables.tokenMap) :
    tables.columns tokens = tables.exactColumns tokens := by
  rw [HashTables.columns, HashTables.exactColumns, h.offsets, List.zip, List.zip,
    List.zipWith_map_right, List.zipWith_self, List.map_zipWith, List.zipWith_map_right]
  refine List.ext_getElem (by simp) fun l hl hl' => ?_
  simp only [List.getElem_zipWith]
  refine layerIds_eq_exactLayerIds (fun t htok m hm => ?_) (fun p hp => ?_) ?_
  · exact h.products t (ht t htok) _ (List.getElem_mem _) m hm
  · exact hpos _ (List.getElem_mem _) p hp
  · exact hrows _ (List.getElem_mem _)

end Columns

section Streams

variable {tables : HashTables} {streams : List (List ℤ)} {input : HashInput} {startPos width : ℕ}

/-- The tokens of the sequences are compressed ids and dead tokens. -/
def HashTables.Compressed (tables : HashTables) (streams : List (List ℤ)) : Prop :=
  ∀ stream ∈ streams, ∀ t ∈ stream, t = DEAD ∨ t ∈ tables.tokenMap

/-- An item that was looked up, from the front or from the end, is in the list. -/
private theorem mem_of_itemFrom_eq_ok {α : Type} {xs : List α} {i : ℤ} {a : α}
    (h : itemFrom xs i = .ok a) : a ∈ xs := by
  have hitem : ∀ j, Py.item xs j = .ok a → a ∈ xs := by
    intro j hj
    rw [Py.item] at hj
    split at hj
    · next b hb =>
      obtain rfl := Except.ok.inj hj
      exact List.mem_of_getElem? hb
    · cases hj
  rw [itemFrom] at h
  split_ifs at h
  · exact hitem _ h
  · exact hitem _ h

/-- Compressing an input gives values of the token map only. -/
private theorem compressed_compress {compressed : List (List ℤ)}
    (h : compress tables.tokenMap input = .ok compressed) : tables.Compressed compressed := by
  rw [compress, Except.bind_eq_ok_iff] at h
  obtain ⟨ids, hids, h⟩ := h
  have hrow : ∀ row ∈ ids, ∀ t ∈ row, t ∈ tables.tokenMap := by
    intro row hrow t ht
    obtain ⟨_, -, hrow⟩ := Except.exists_of_mem_mapM hids hrow
    obtain ⟨_, -, ht⟩ := Except.exists_of_mem_mapM hrow ht
    exact mem_of_itemFrom_eq_ok ht
  cases hmask : input.tokenMask with
  | none =>
    rw [hmask] at h
    obtain rfl := Except.ok.inj h
    exact fun row hmem t ht => .inr (hrow row hmem t ht)
  | some mask =>
    rw [hmask] at h
    obtain rfl := Except.ok.inj h
    intro row hmem t ht
    obtain ⟨b, hb, rfl⟩ := List.mem_iff_getElem.mp hmem
    rw [List.getElem_zipWith] at ht
    obtain ⟨i, hi, rfl⟩ := List.mem_iff_getElem.mp ht
    rw [List.getElem_zipWith]
    split_ifs
    · exact .inr (hrow _ (List.getElem_mem _) _ (List.getElem_mem _))
    · exact .inl rfl

/-- A cache of compressed tokens stays one when its end is replaced by compressed tokens. -/
theorem HashTables.Compressed.replaceFrom (h : tables.Compressed streams)
    {compressed : List (List ℤ)} (hnew : tables.Compressed compressed) (startPos : ℕ) :
    tables.Compressed (V41.replaceFrom streams startPos compressed) := by
  intro stream hmem t ht
  rw [V41.replaceFrom, List.mem_append] at hmem
  rcases hmem with hmem | hmem
  · obtain ⟨b, hb, rfl⟩ := List.mem_iff_getElem.mp hmem
    rw [List.getElem_zipWith, List.mem_append] at ht
    rcases ht with ht | ht
    · exact h _ (List.getElem_mem _) t (List.mem_of_mem_take ht)
    · exact hnew _ (List.getElem_mem _) t ht
  · exact h stream (List.mem_of_mem_drop hmem) t ht

/-- What is seen from a position of a sequence are compressed ids. -/
private theorem mem_tokenMap_of_mem_window {stream past : List ℤ} {n : ℕ} {t : ℤ}
    (hpad : tables.padId ∈ tables.tokenMap)
    (hstream : ∀ t ∈ stream, t = DEAD ∨ t ∈ tables.tokenMap) (hpast : ∀ t ∈ past, t ∈ stream)
    (ht : t ∈ window DEAD tables.padId n past) : t ∈ tables.tokenMap := by
  rcases eq_pad_or_mem_of_mem_window ht with rfl | ⟨hmem, hne⟩
  · exact hpad
  · exact (hstream t (hpast t hmem)).resolve_left hne

/-- Two ways of computing the ids that agree on compressed ids give the same machine. -/
private theorem feed_congr {columns columns' : List ℤ → List (List ℤ)}
    (hpad : tables.padId ∈ tables.tokenMap)
    (hcolumns : ∀ tokens : List ℤ, (∀ t ∈ tokens, t ∈ tables.tokenMap) →
      columns tokens = columns' tokens) (h : tables.Compressed streams) :
    tables.feed columns width streams input startPos =
        tables.feed columns' width streams input startPos ∧
      tables.Compressed (tables.feed columns width streams input startPos).2 := by
  rw [HashTables.feed, HashTables.feed]
  cases hcompress : compress tables.tokenMap input with
  | error e => exact ⟨rfl, h⟩
  | ok compressed =>
    have hnext := h.replaceFrom (compressed_compress hcompress) startPos
    simp only
    split_ifs
    · exact ⟨rfl, hnext⟩
    · refine ⟨?_, hnext⟩
      refine congrArg (fun ids => (Except.ok ids, _)) (List.map_congr_left fun stream hmem => ?_)
      refine List.map_congr_left fun p _ => hcolumns _ fun t ht => ?_
      refine mem_tokenMap_of_mem_window hpad (hnext stream (List.mem_of_mem_take hmem)) ?_ ht
      exact fun t ht => List.mem_of_mem_take (List.mem_reverse.mp ht)
    · exact ⟨rfl, h⟩

/-- Two machines whose columns agree on the values of the token map run alike, if the padding is
such a value and the cache has no other. -/
theorem run_congr {columns columns' : List ℤ → List (List ℤ)}
    (hpad : tables.padId ∈ tables.tokenMap)
    (hcolumns : ∀ tokens : List ℤ, (∀ t ∈ tokens, t ∈ tables.tokenMap) →
      columns tokens = columns' tokens) {calls : List (HashInput × ℕ)}
    (h : tables.Compressed streams) :
    tables.run columns width streams calls = tables.run columns' width streams calls := by
  induction calls generalizing streams with
  | nil => rfl
  | cons call calls ih =>
    obtain ⟨input, startPos⟩ := call
    obtain ⟨hfeed, hnext⟩ := feed_congr hpad hcolumns h
    rw [HashTables.run, HashTables.run, ← hfeed]
    exact congrArg _ (ih hnext)

end Streams

section Layout

variable {args : EngramArgs} {layout : EngramLayout} {isprime : ℕ → Bool}

/-- The moduli of a layout that was made with a test that decides primality (`hprime`, `hlayout`)
are positive. -/
theorem pos_of_mem_primes (hprime : DecidesPrimes isprime)
    (hlayout : EngramLayout.fromArgs isprime args = some layout) :
    ∀ layer ∈ layout.primes, ∀ p ∈ layer.flatten, 0 < p := by
  intro layer hlayer p hp
  obtain ⟨sizes, hsizes, hp⟩ := List.mem_flatten.mp hp
  have hmem : p ∈ layout.primes.flatten.flatten :=
    List.mem_flatten.mpr ⟨sizes, List.mem_flatten.mpr ⟨layer, hlayer, hsizes⟩, hp⟩
  rw [flatten_primes_eq hprime hlayout, List.mem_map] at hmem
  obtain ⟨i, -, rfl⟩ := hmem
  exact (primeAfter_nthPrimeAfter _ i).2.pos

end Layout

section Ranges

/-- One id for every head, each inside the bucket range of its own head. -/
def InBuckets (sizes : List ℕ) (ids : List ℤ) : Prop :=
  ids.length = sizes.length ∧ ∀ (c p : ℕ) (id : ℤ), sizes[c]? = some p → ids[c]? = some id →
    (sizes.take c).sum ≤ id ∧ id < (sizes.take c).sum + p

variable {sizes : List ℕ} {ids : List ℤ}

/-- The bucket ranges lie one after another: the one of column `c` ends where a later one begins, or
before. -/
private theorem sum_take_le_of_lt {c c' p : ℕ} (hp : sizes[c]? = some p) (hlt : c < c') :
    (sizes.take c).sum + p ≤ (sizes.take c').sum := by
  have htake : (sizes.take c').take c = sizes.take c := by
    rw [List.take_take, Nat.min_eq_left hlt.le]
  have hp' : (sizes.take c')[c]? = some p := by rwa [List.getElem?_take_of_lt hlt]
  have h := sum_take_add_le hp'
  rwa [htake] at h

/-- Ids that lie each in the bucket of its own head (`h`) are different. -/
theorem InBuckets.nodup (h : InBuckets sizes ids) : ids.Nodup := by
  obtain ⟨hlen, hids⟩ := h
  refine List.pairwise_iff_getElem.mpr fun c c' hc hc' hlt => ?_
  obtain ⟨-, hhi⟩ :=
    hids c sizes[c] ids[c] (List.getElem?_eq_getElem _) (List.getElem?_eq_getElem _)
  obtain ⟨hlo, -⟩ :=
    hids c' sizes[c'] ids[c'] (List.getElem?_eq_getElem _) (List.getElem?_eq_getElem _)
  have := sum_take_le_of_lt (List.getElem?_eq_getElem (hlen ▸ hc)) hlt
  omega

/-- Ids that lie each in the bucket of its own head (`h`) are rows of the table. -/
theorem InBuckets.mem_range (h : InBuckets sizes ids) : ∀ id ∈ ids, 0 ≤ id ∧ id < sizes.sum := by
  obtain ⟨hlen, hids⟩ := h
  intro id hid
  obtain ⟨c, hc, rfl⟩ := List.mem_iff_getElem.mp hid
  have hp := List.getElem?_eq_getElem (hlen ▸ hc)
  obtain ⟨hlo, hhi⟩ := hids c _ _ hp (List.getElem?_eq_getElem hc)
  have := sum_take_add_le hp
  omega

/-- Whatever tokens are seen, the ids of a layer lie in their bucket ranges. -/
private theorem inBuckets_layerIds {multipliers tokens : List ℤ} {primes : List (List ℕ)}
    (hpos : ∀ p ∈ primes.flatten, 0 < p) (hsum : primes.flatten.sum < 2 ^ 63)
    (htokens : tokens.length = primes.length + 1)
    (hmult : multipliers.length = primes.length + 1) :
    InBuckets primes.flatten (layerIds multipliers primes
      ((runningOffsets (primes.flatten.map Nat.cast)).map wrap64) tokens) := by
  rw [layerIds]
  cases hproducts : List.zipWith (fun t m => wrap64 (t * m)) tokens multipliers with
  | nil =>
    have := congrArg List.length hproducts
    rw [List.length_zipWith, htokens, hmult, Nat.min_self] at this
    cases this
  | cons product products =>
    have hlen : products.length = primes.length := by
      have := congrArg List.length hproducts
      rw [List.length_zipWith, htokens, hmult, Nat.min_self, List.length_cons] at this
      omega
    refine ⟨?_, fun c p id hp hid => ?_⟩
    · rw [List.length_zipWith, length_hashes hlen, List.length_map, runningOffsets,
        List.length_scanl, List.length_dropLast, List.length_map]
      omega
    · rw [getElem?_zipWith_offsets, Option.map_eq_some_iff] at hid
      obtain ⟨h, hh, rfl⟩ := hid
      rw [wrap64_add_offset hpos hsum hh]
      obtain ⟨h0, hmod⟩ := getElem?_hashes hh hp (hpos _ (List.mem_of_getElem? hp))
      omega

variable {tables : HashTables}

/-- Whatever tokens are seen, the ids of every layer lie in their bucket ranges. -/
private theorem forall₂_inBuckets_columns {tokens : List ℤ} {n : ℕ} (h : tables.Sound)
    (hpos : ∀ layer ∈ tables.layout.primes, ∀ p ∈ layer.flatten, 0 < p)
    (hrows : ∀ layer ∈ tables.layout.primes, layer.flatten.sum < 2 ^ 63)
    (hlayers : tables.multipliers.length = tables.layout.primes.length)
    (hsizes : ∀ layer ∈ tables.layout.primes, layer.length + 1 = n)
    (hmult : ∀ row ∈ tables.multipliers, row.length = n) (htokens : tokens.length = n) :
    List.Forall₂ (fun layer ids => InBuckets layer.flatten ids) tables.layout.primes
      (tables.columns tokens) := by
  rw [HashTables.columns, h.offsets, List.forall₂_iff_get]
  refine ⟨by simp [hlayers], fun l hl hl' => ?_⟩
  have hlayer := hsizes _ (List.getElem_mem hl)
  have hrow := hmult _ (List.getElem_mem (hlayers ▸ hl : l < tables.multipliers.length))
  simp only [List.get_eq_getElem, List.getElem_map, List.getElem_zip]
  exact inBuckets_layerIds (hpos _ (List.getElem_mem hl)) (hrows _ (List.getElem_mem hl))
    (htokens.trans hlayer.symm) (hrow.trans hlayer.symm)

/-- A look back over `n` places gives `n` tokens. -/
private theorem length_scan {α : Type} [DecidableEq α] (dead pad : α) (record : List α) (p s n : ℕ)
    (blocked : Bool) : (scan dead pad record p s n blocked).length = n := by
  induction n generalizing s blocked with
  | zero => rfl
  | succ n ih => rw [scan, List.length_cons, ih]

variable {state : NgramHashState} {input : HashInput} {startPos : ℕ}

/-- A call changes the cache only, and leaves the tables. -/
private theorem toHashTables_forward (state : NgramHashState) (input : HashInput) (startPos : ℕ) :
    (state.forward input startPos).2.toHashTables = state.toHashTables := by
  rw [NgramHashState.forward]
  cases compress state.tokenMap input with
  | error e => rfl
  | ok compressed =>
    simp only
    split_ifs <;> rfl

/-- Whatever the tables say of all windows of tokens holds of all ids that a run returns. -/
theorem forall_run {P : List (List ℤ) → Prop}
    (h : 2 ≤ state.layout.maxNgramSize →
      ∀ tokens, tokens.length = state.layout.maxNgramSize → P (state.columns tokens))
    {calls : List (HashInput × ℕ)} {out : List (List (List (List ℤ)))}
    (hout : .ok out ∈ state.run calls) : ∀ row ∈ out, ∀ ids ∈ row, P ids := by
  induction calls generalizing state with
  | nil => cases hout
  | cons call calls ih =>
    obtain ⟨input, startPos⟩ := call
    have htables := toHashTables_forward state input startPos
    rcases List.mem_cons.mp hout with hout | hout
    · have hforward : state.forward input startPos =
          (.ok out, (state.forward input startPos).2) := Prod.ext hout.symm rfl
      obtain ⟨compressed, -, -, hsize, rfl, -⟩ := forward_eq_ok_iff.mp hforward
      intro row hrow ids hids
      obtain ⟨cached, -, rfl⟩ := List.mem_map.mp hrow
      obtain ⟨p, -, rfl⟩ := List.mem_map.mp hids
      exact h hsize _ (length_scan _ _ _ _ _ _ _)
    · exact ih (htables.symm ▸ h) hout

end Ranges

section Runs

variable {generator : Generator} {args : EngramArgs} {layout : EngramLayout} {tokenizer : Tokenizer}
  {vocab : ℕ} {memory : Cache} {state : NgramHashState} {isprime : ℕ → Bool}

/-- With tables of less than 2^63 rows, a run of a module that was made gives the ids that are
computed from the sequences with unbounded integers: nothing overflows. -/
theorem run_eq_exact
    (hnew : NgramHashState.new generator args layout tokenizer vocab memory = .ok state)
    (hprime : DecidesPrimes isprime) (hlayout : EngramLayout.fromArgs isprime args = some layout)
    (hrows : ∀ layer ∈ layout.primes, layer.flatten.sum < 2 ^ 63) (calls : List (HashInput × ℕ))
    (hcont : state.toHashTables.ContinuesAlong state.columns memory.width
      (List.replicate memory.rows.length []) calls) :
    state.run calls = state.toHashTables.run state.exactColumns memory.width
      (List.replicate memory.rows.length []) calls := by
  obtain ⟨hsound, rfl, rfl, -, -⟩ := sound_new hnew
  rw [run_eq state calls hcont]
  refine run_congr hsound.pad (fun tokens ht => ?_) fun stream hmem t ht => ?_
  · exact columns_eq_exactColumns hsound (pos_of_mem_primes hprime hlayout) hrows ht
  · rw [List.eq_of_mem_replicate hmem] at ht
    cases ht

/-- Whatever calls are made, also ones that read what no call has written: the ids of a position are
one for every head of every layer, each in the range of its own head, so that no two of a layer are
equal and all are rows of its table. -/
theorem run_inBuckets
    (hnew : NgramHashState.new generator args layout tokenizer vocab memory = .ok state)
    (hprime : DecidesPrimes isprime) (hlayout : EngramLayout.fromArgs isprime args = some layout)
    (hrows : ∀ layer ∈ layout.primes, layer.flatten.sum < 2 ^ 63) (calls : List (HashInput × ℕ))
    {out : List (List (List (List ℤ)))} (hout : .ok out ∈ state.run calls) :
    ∀ row ∈ out, ∀ ids ∈ row, List.Forall₂ (fun layer columns =>
      InBuckets layer.flatten columns ∧ columns.Nodup ∧
        ∀ id ∈ columns, 0 ≤ id ∧ id < layer.flatten.sum) layout.primes ids := by
  obtain ⟨hsound, rfl, -, hlayers, hmult⟩ := sound_new hnew
  have hprimes := primes_eq hprime hlayout
  have hshape : state.layout.layerIds = args.engramLayerIds ∧
      state.layout.maxNgramSize = args.engramMaxNgramSize := by
    rw [EngramLayout.fromArgs] at hlayout
    split_ifs at hlayout
    obtain heq := Option.some.inj hlayout
    exact ⟨heq ▸ rfl, heq ▸ rfl⟩
  refine forall_run (fun hsize tokens htokens => ?_) hout
  have hbuckets := forall₂_inBuckets_columns (n := state.layout.maxNgramSize) hsound
    (pos_of_mem_primes hprime hlayout) hrows ?_ (fun layer hlayer => ?_) hmult htokens
  · exact hbuckets.imp fun layer columns h => ⟨h, h.nodup, h.mem_range⟩
  · rw [hlayers, hprimes, List.length_map, List.length_range, hshape.1]
  · rw [hprimes, List.mem_map] at hlayer
    obtain ⟨l, -, rfl⟩ := hlayer
    rw [List.length_map, List.length_range, ← hshape.2]
    omega

end Runs

/-- What the random generator draws for the layers of `smallLayout`. -/
def smallGenerator : Generator where
  integers seed high size :=
    if seed = 10007 ∧ high = 1537228672809129301 ∧ size = 3 then
      [1265604610235772206, 79932166973103876, 593885974911493955]
    else if seed = 140098 ∧ high = 1537228672809129301 ∧ size = 3 then
      [1118365701629147841, 850718144586061386, 510676356168679126]
    else List.replicate size 0
  length_integers := by
    intro seed high size
    split_ifs with h h
    · exact h.2.2.symm
    · exact h.2.2.symm
    · exact List.length_replicate
  lt_of_mem := by
    intro seed high size v hhigh hv
    split_ifs at hv with h h
    · obtain ⟨-, rfl, -⟩ := h
      revert v
      decide
    · obtain ⟨-, rfl, -⟩ := h
      revert v
      decide
    · rwa [List.eq_of_mem_replicate hv]

/-- Four tokens, the first two of which differ in case only. -/
def smallTokenizer : Tokenizer where
  decode i := ["a", "A", "b", "c"].getD i ""
  idToToken i := some (["a", "A", "b", "c"].getD i "")
  normalizeStr s := if s = "A" then "a" else s

/-- The small arguments make the small state. -/
theorem new_smallArgs :
    NgramHashState.new smallGenerator smallArgs smallLayout smallTokenizer 4 smallMemory =
      .ok smallState := by
  rfl

theorem run_eq_exact_smallCalls :
    smallState.run smallCalls = smallState.toHashTables.run smallState.exactColumns 6 [[], []]
      smallCalls :=
  run_eq_exact new_smallArgs decidesPrimes_isPrime fromArgs_smallArgs (by decide) smallCalls
    (by decide)

/-- The ids of the step that goes back. -/
theorem run_inBuckets_smallCalls :
    List.Forall₂ (fun layer columns => InBuckets layer.flatten columns ∧ columns.Nodup ∧
      ∀ id ∈ columns, 0 ≤ id ∧ id < layer.flatten.sum) smallLayout.primes
      [[7, 19, 31, 46], [14, 24, 72, 118]] :=
  run_inBuckets new_smallArgs decidesPrimes_isPrime fromArgs_smallArgs (by decide) smallCalls
    (List.mem_of_getElem? (i := 2) rfl) _ (List.mem_singleton_self _) _
    (List.mem_singleton_self _)

end V41

end EngramDB
