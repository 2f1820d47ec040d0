import EngramDB.Core.Layout
import EngramDB.Python.Rowids

/-!
# Per-sequence memory of the serving layer

`PleMemory` owns a Store-I table or a Store-P view with a slot index, computes row ids and fetches
their bytes. `PleSequence` keeps the state of one request: the newest tokens as n-gram history, and
the steps fed so far.

The store, the view and the index are objects with a state `σ`, for an index keeps a cache.
Conversion of the bytes to tensors is left out.
-/

namespace EngramDB

/-- A native `Store` object: the attribute and the method that the memory uses. -/
structure PyStore (σ : Type) where
  /-- The attribute `width`. -/
  width : PyAttr
  /-- `fetch(rowids)`. -/
  fetch : List ℤ → PyM σ Bytes

/-- A native `View` object: the attribute and the method that the memory uses. -/
structure PyView (σ : Type) where
  /-- The attribute `slot_bytes`. -/
  slotBytes : PyAttr
  /-- `read_records(slots)`. -/
  readRecords : List ℤ → PyM σ Bytes

/-- A slot index: `lookup(row)`. -/
abbrev PyLookup (σ : Type) := List ℤ → PyM σ ℤ

/-- Where the bytes of a memory come from. -/
inductive PleSource (σ : Type) where
  /-- Rows of a Store-I table. -/
  | store (store : PyStore σ)
  /-- Records of a Store-P view, found by a slot index or read in sequence. -/
  | view (view : PyView σ) (slotIndex : Option (PyLookup σ))

/-- A memory that passed the checks of its constructor. -/
structure PleMemory (σ : Type) where
  /-- Store or view. -/
  source : PleSource σ
  /-- Heads of one row tuple. -/
  numHeads : ℕ
  /-- Bytes of one head row. -/
  headDim : ℕ
  /-- Tokens in the longest n-gram. -/
  ngramSize : ℕ
  /-- Heads of every n-gram order. -/
  headsPerNgram : ℕ
  /-- The separator token. -/
  eos : ℤ
  /-- Multiplier of the token at each distance. -/
  multipliers : List ℤ
  /-- Table size of each head. -/
  primeSizes : List ℤ
  /-- First row of each head. -/
  offsets : List ℤ
  /-- First slot of a view that is read in sequence. -/
  startSlot : ℤ
  /-- `head_dim` is positive. -/
  headDim_pos : 0 < headDim
  /-- `ngram_size` is at least two. -/
  two_le_ngramSize : 2 ≤ ngramSize
  /-- Every n-gram order has its heads. -/
  numHeads_eq : numHeads = (ngramSize - 1) * headsPerNgram
  /-- Every head has a table size. -/
  length_primeSizes : primeSizes.length = numHeads
  /-- Every head has an offset. -/
  length_offsets : offsets.length = numHeads

namespace PleMemory

variable {σ : Type}

/-- Arguments of the constructor; those without a value are `None`. -/
structure Args (σ : Type) where
  /-- `store=`. -/
  store : Option (PyStore σ) := none
  /-- `view=`. -/
  view : Option (PyView σ) := none
  /-- `slot_index=`. -/
  slotIndex : Option (PyLookup σ) := none
  /-- `head_dim=`. -/
  headDim : Option ℤ := none
  /-- `num_heads=`. -/
  numHeads : Option ℤ := none
  /-- `ngram_size=`. -/
  ngramSize : Option ℤ := none
  /-- `heads_per_ngram=`. -/
  headsPerNgram : Option ℤ := none
  /-- `multipliers=`. -/
  multipliers : Option (List ℤ) := none
  /-- `eos=`. -/
  eos : Option ℤ := none
  /-- `prime_sizes=`. -/
  primeSizes : Option (List ℤ) := none
  /-- `offsets=`. -/
  offsets : Option (List ℤ) := none
  /-- `sequential_view=`. -/
  sequentialView : Bool := false
  /-- `start_slot=`. -/
  startSlot : ℤ := 0

/-- `int(value or default)`: zero counts as absent. -/
def intOr (value : Option ℤ) (default : ℤ) : ℤ :=
  match value with
  | some v => if v = 0 then default else v
  | none => default

/-- The head size when none is given: the width of the store, or the slot of the view divided
among the heads. -/
def defaultHeadDim (source : PleSource σ) (numHeads : ℤ) : Py ℤ :=
  match source with
  | .store store => store.width.toInt
  | .view view _ => do
    let slotBytes ← view.slotBytes.toInt
    let heads := intOr (some numHeads) 16
    if (← Py.mod slotBytes heads) ≠ 0 then
      throw (.valueError
        s!"view slot_bytes {slotBytes} is not divisible by num_heads {heads}")
    pure (slotBytes.fdiv heads)

private theorem toNat_heads {numHeads ngramSize headsPerNgram : ℤ} (hngram : 2 ≤ ngramSize)
    (h : numHeads = (ngramSize - 1) * headsPerNgram) :
    numHeads.toNat = (ngramSize.toNat - 1) * headsPerNgram.toNat := by
  obtain ⟨n, rfl⟩ := Int.eq_ofNat_of_zero_le (by omega : 0 ≤ ngramSize)
  rcases Int.le_total 0 headsPerNgram with hpos | hneg
  · obtain ⟨m, rfl⟩ := Int.eq_ofNat_of_zero_le hpos
    have hcast : ((n : ℤ) - 1) * m = ((n - 1) * m : ℕ) := by
      push_cast [Nat.cast_sub (by omega : 1 ≤ n)]
      rfl
    rw [h, hcast, Int.toNat_natCast, Int.toNat_natCast, Int.toNat_natCast]
  · have hle : numHeads ≤ 0 := h ▸ Int.mul_nonpos_of_nonneg_of_nonpos (by omega) hneg
    rw [Int.toNat_of_nonpos hle, Int.toNat_of_nonpos hneg, Nat.mul_zero]

private theorem toNat_pos {x : ℤ} (h : 0 < x) : 0 < x.toNat := by
  omega

private theorem two_le_toNat {x : ℤ} (h : 2 ≤ x) : 2 ≤ x.toNat := by
  omega

theorem length_eq_toNat {l : List ℤ} {n : ℤ} (h : (l.length : ℤ) = n) : l.length = n.toNat := by
  omega

/-- The constructor. -/
def new (args : Args σ) : Py (PleMemory σ) := do
  let source ← match args.store, args.view with
    | some store, none => pure (PleSource.store store)
    | none, some view => pure (PleSource.view view args.slotIndex)
    | _, _ => throw (PyError.valueError "provide exactly one of store= or view=")
  let numHeads := intOr args.numHeads 16
  let headDim ← match args.headDim with
    | some headDim => pure headDim
    | none => defaultHeadDim source numHeads
  -- the checks, in the order of the constructor
  if hdim : 0 < headDim then
    let ngramSize := intOr args.ngramSize 3
    let headsPerNgram := intOr args.headsPerNgram 8
    if hngram : 2 ≤ ngramSize then
      if hheads : numHeads = (ngramSize - 1) * headsPerNgram then
        let primeSizes := args.primeSizes.getD
          (PleMath.headVocabSizes PleMath.PLE_BASE numHeads.toNat)
        let offsets := args.offsets.getD (PleMath.headOffsets (some primeSizes))
        if hsizes : (primeSizes.length : ℤ) = numHeads then
          if hoffsets : (offsets.length : ℤ) = numHeads then
            -- a record of a view is found by its slot, so something must give the slots
            if args.view.isSome ∧ args.slotIndex.isNone ∧ ¬ args.sequentialView then
              throw (.valueError "Store-P mode requires slot_index= (or sequential_view=True)")
            pure {
              source, multipliers := args.multipliers.getD PleMath.DEFAULT_MULTIPLIERS, primeSizes,
              offsets, numHeads := numHeads.toNat, headDim := headDim.toNat,
              ngramSize := ngramSize.toNat, headsPerNgram := headsPerNgram.toNat,
              eos := args.eos.getD PleMath.PLE_EOS, startSlot := args.startSlot,
              headDim_pos := toNat_pos hdim
              two_le_ngramSize := two_le_toNat hngram
              numHeads_eq := toNat_heads hngram hheads
              length_primeSizes := length_eq_toNat hsizes
              length_offsets := length_eq_toNat hoffsets }
          else
            throw (.valueError s!"offsets length {offsets.length} != num_heads {numHeads}")
        else
          throw (.valueError
            s!"prime_sizes length {primeSizes.length} != num_heads {numHeads}")
      else
        throw (.valueError (s!"num_heads={numHeads} does not match ngram_size={ngramSize} "
          ++ s!"* heads_per_ngram={headsPerNgram} => {(ngramSize - 1) * headsPerNgram}"))
    else throw (.valueError "ngram_size must be >= 2")
  else throw (.valueError "head_dim must be positive")

/-- The source that the arguments name. -/
def chosenSource (args : Args σ) : Py (PleSource σ) :=
  match args.store, args.view with
  | some store, none => .ok (.store store)
  | none, some view => .ok (.view view args.slotIndex)
  | _, _ => .error (.valueError "provide exactly one of store= or view=")

/-- The head size that the arguments name, or the default of the source. -/
def chosenHeadDim (args : Args σ) (source : PleSource σ) : Py ℤ :=
  match args.headDim with
  | some headDim => .ok headDim
  | none => defaultHeadDim source (intOr args.numHeads 16)

/-- What the constructor makes of its arguments when it returns. -/
structure MadeFrom (args : Args σ) (mem : PleMemory σ) : Prop where
  /-- The store or the view. -/
  source : chosenSource args = .ok mem.source
  /-- The head size, given or derived. -/
  headDim : chosenHeadDim args mem.source = .ok (mem.headDim : ℤ)
  /-- Heads, sixteen by default. -/
  numHeads : mem.numHeads = (intOr args.numHeads 16).toNat
  /-- Tokens in the longest n-gram, three by default. -/
  ngramSize : mem.ngramSize = (intOr args.ngramSize 3).toNat
  /-- Heads of every n-gram order, eight by default. -/
  headsPerNgram : mem.headsPerNgram = (intOr args.headsPerNgram 8).toNat
  /-- The table sizes, the released ones by default. -/
  primeSizes : mem.primeSizes =
    args.primeSizes.getD (PleMath.headVocabSizes PleMath.PLE_BASE (intOr args.numHeads 16).toNat)
  /-- The offsets, running sums by default. -/
  offsets : mem.offsets = args.offsets.getD (PleMath.headOffsets (some mem.primeSizes))
  /-- A view comes with an index or is read in sequence. -/
  indexed : ¬ (args.view.isSome ∧ args.slotIndex.isNone ∧ ¬ args.sequentialView)

/-- The constructor settles the head size, and goes on as if it had been given. -/
theorem new_eq (args : Args σ) : new args = (do
    let source ← chosenSource args
    let headDim ← chosenHeadDim args source
    new { args with headDim := some headDim }) := by
  obtain ⟨store, view, slotIndex, headDim⟩ := args
  cases store <;> cases view <;> cases headDim <;> rfl

/-- What the checks of the constructor leave, when the head size is given. -/
private theorem madeFrom_of_headDim {args : Args σ} {mem : PleMemory σ} {headDim : ℤ}
    (hdim : args.headDim = some headDim) (hnew : new args = .ok mem) : MadeFrom args mem := by
  obtain ⟨store, view, slotIndex, _⟩ := args
  obtain rfl := hdim
  rcases store with _ | store <;> rcases view with _ | view
  any_goals cases hnew
  -- a store alone, or a view alone
  all_goals
    obtain ⟨hpos, hnew⟩ := Except.dite_throw_eq_ok_iff.mp hnew
    obtain ⟨hngram, hnew⟩ := Except.dite_throw_eq_ok_iff.mp hnew
    obtain ⟨hheads, hnew⟩ := Except.dite_throw_eq_ok_iff.mp hnew
    obtain ⟨hsizes, hnew⟩ := Except.dite_throw_eq_ok_iff.mp hnew
    obtain ⟨hoffsets, hnew⟩ := Except.dite_throw_eq_ok_iff.mp hnew
    have hcast := Int.toNat_of_nonneg (Int.le_of_lt hpos)
    dsimp only at hnew
    split_ifs at hnew with hindexed
    · cases hnew
    · cases hnew
      exact ⟨rfl, congrArg Except.ok hcast.symm, rfl, rfl, rfl, rfl, rfl, hindexed⟩

/-- What a constructor that returns (`hnew`) makes of its arguments. -/
theorem madeFrom_of_new {args : Args σ} {mem : PleMemory σ} (hnew : new args = .ok mem) :
    MadeFrom args mem := by
  rw [new_eq] at hnew
  obtain ⟨source, hsource, hnew⟩ := Except.bind_eq_ok_iff.mp hnew
  obtain ⟨headDim, hdim, hnew⟩ := Except.bind_eq_ok_iff.mp hnew
  obtain ⟨hsource', hdim', hheads, hngram, hper, hsizes, hoffsets, hindexed⟩ :=
    madeFrom_of_headDim rfl hnew
  obtain rfl : source = mem.source := Except.ok.inj (hsource.symm.trans hsource')
  obtain rfl : headDim = mem.headDim := Except.ok.inj hdim'
  exact ⟨hsource, hdim, hheads, hngram, hper, hsizes, hoffsets, hindexed⟩

variable (mem : PleMemory σ)

/-- Bytes of the record of one token. -/
def recordBytes : ℕ := mem.numHeads * mem.headDim

/-- Row ids of `tokens`. An empty history counts as absent. -/
def rowidsForTokens (tokens : List ℤ) (history : Option (List ℤ)) : Py (List (List ℤ)) :=
  PleMath.pleRowids tokens mem.multipliers mem.eos (some mem.primeSizes) (some mem.offsets)
    mem.ngramSize mem.headsPerNgram (history.filter (· ≠ []))

/-- Check that every row tuple has as many row ids as there are heads. -/
def coerceRows (rows : List (List ℤ)) : Py (List (List ℤ)) :=
  rows.mapM fun r =>
    if r.length ≠ mem.numHeads then
      throw (.valueError s!"rowid tuple has {r.length} heads, expected {mem.numHeads}")
    else pure r

/-- Raw bytes of row tuples: rows of the store, or records of the view. -/
def fetchRaw (rowidTuples : List (List ℤ)) : PyM σ Bytes := do
  let rows ← PyM.lift (mem.coerceRows rowidTuples)
  if rows = [] then return []
  let expected := rows.length * mem.recordBytes
  match mem.source with
  | .view view slotIndex => do
    let slots ← match slotIndex with
      | some lookup => rows.mapM lookup
      -- a sequential view: the records of the batch lie one after another
      | none => pure ((List.range rows.length).map fun i => mem.startSlot + i)
    let raw ← view.readRecords slots
    if raw.length ≠ expected then
      throw (.runtimeError (s!"view returned {raw.length} bytes for {rows.length} records, "
        ++ s!"expected {expected}"))
    return raw
  | .store store => do
    let raw ← store.fetch rows.flatten
    if raw.length ≠ expected then
      throw (.runtimeError (s!"store returned {raw.length} bytes for {rows.length} tokens, "
        ++ s!"expected {expected}"))
    return raw

section Fetch

variable {σ : Type} {mem : PleMemory σ} {rows : List (List ℤ)} {raw : Bytes}

theorem coerceRows_eq_ok (h : ∀ row ∈ rows, row.length = mem.numHeads) :
    mem.coerceRows rows = .ok rows := by
  refine (Except.mapM_eq_ok (g := id) fun row hrow => ?_).trans (by rw [List.map_id])
  rw [if_neg (not_not.mpr (h row hrow))]
  rfl

/-- A store that fetches rows: the memory checks the number of their bytes. -/
theorem fetchRaw_of_store {store : PyStore σ} (hsource : mem.source = .store store)
    (hrows : ∀ row ∈ rows, row.length = mem.numHeads) (hne : rows ≠ []) {s : σ}
    (hfetch : store.fetch rows.flatten s = (.ok raw, s)) :
    mem.fetchRaw rows s =
      if raw.length = rows.length * mem.recordBytes then (.ok raw, s)
      else (.error (.runtimeError (s!"store returned {raw.length} bytes for {rows.length} tokens, "
        ++ s!"expected {rows.length * mem.recordBytes}")), s) := by
  rw [fetchRaw, coerceRows_eq_ok hrows, PyM.bind_of_ok (PyM.lift_apply _ _), if_neg hne, hsource]
  refine (PyM.bind_of_ok hfetch).trans ?_
  by_cases hlen : raw.length = rows.length * mem.recordBytes
  · rw [if_neg (not_not.mpr hlen), if_pos hlen]
    rfl
  · rw [if_pos hlen, if_neg hlen]
    rfl

/-- An index that finds the rows and a view that reads their slots: the memory checks the number of
the bytes. -/
theorem fetchRaw_of_view {view : PyView σ} {lookup : PyLookup σ} {slots : List ℤ}
    (hsource : mem.source = .view view (some lookup))
    (hrows : ∀ row ∈ rows, row.length = mem.numHeads) (hne : rows ≠ []) {s s' : σ}
    (hslots : rows.mapM lookup s = (.ok slots, s'))
    (hread : view.readRecords slots s' = (.ok raw, s')) :
    mem.fetchRaw rows s =
      if raw.length = rows.length * mem.recordBytes then (.ok raw, s')
      else (.error (.runtimeError (s!"view returned {raw.length} bytes for {rows.length} records, "
        ++ s!"expected {rows.length * mem.recordBytes}")), s') := by
  rw [fetchRaw, coerceRows_eq_ok hrows, PyM.bind_of_ok (PyM.lift_apply _ _), if_neg hne, hsource]
  refine ((PyM.bind_of_ok hslots).trans (PyM.bind_of_ok hread)).trans ?_
  by_cases hlen : raw.length = rows.length * mem.recordBytes
  · rw [if_neg (not_not.mpr hlen), if_pos hlen]
    rfl
  · rw [if_pos hlen, if_neg hlen]
    rfl

/-- Rows that are accepted have a row id for every head. -/
theorem eq_of_coerceRows_ok {rows' : List (List ℤ)} (h : mem.coerceRows rows = .ok rows') :
    rows' = rows ∧ ∀ row ∈ rows, row.length = mem.numHeads := by
  have hrows : ∀ row ∈ rows, row.length = mem.numHeads := by
    intro row hrow
    obtain ⟨row', hrow'⟩ := Except.forall_of_mapM_eq_ok h row hrow
    by_contra hlen
    rw [if_pos hlen] at hrow'
    cases hrow'
  exact ⟨Except.ok.inj (h.symm.trans (coerceRows_eq_ok hrows)), hrows⟩

/-- Bytes that are returned have the length of the records of the rows. -/
theorem length_of_fetchRaw_ok {s s' : σ} (h : mem.fetchRaw rows s = (.ok raw, s')) :
    raw.length = rows.length * mem.recordBytes := by
  obtain ⟨rows', t, hrows, hrest⟩ := PyM.bind_eq_ok_iff.mp h
  obtain ⟨rfl, -⟩ := eq_of_coerceRows_ok (congrArg Prod.fst hrows)
  by_cases hnil : rows' = []
  · rw [if_pos hnil] at hrest
    cases hrest
    rw [hnil, List.length_nil, List.length_nil, Nat.zero_mul]
  rw [if_neg hnil] at hrest
  -- whatever the source returns, its length is checked
  have hchecked : ∀ {raw' : Bytes} {e : PyError} {t : σ},
      (do if raw'.length ≠ rows'.length * mem.recordBytes then throw e
          pure raw' : PyM σ Bytes) t = (.ok raw, s') →
        raw.length = rows'.length * mem.recordBytes := by
    intro raw' e t hcheck
    by_cases hlen : raw'.length = rows'.length * mem.recordBytes
    · rw [if_neg (not_not.mpr hlen)] at hcheck
      cases hcheck
      exact hlen
    · rw [if_pos hlen] at hcheck
      cases hcheck
  cases hsource : mem.source with
  | store store =>
    rw [hsource] at hrest
    obtain ⟨raw', t', -, hcheck⟩ := PyM.bind_eq_ok_iff.mp hrest
    exact hchecked hcheck
  | view view slotIndex =>
    rw [hsource] at hrest
    -- slots of an index, or slots in sequence
    cases slotIndex
    all_goals
      obtain ⟨slots, t', -, hread⟩ := PyM.bind_eq_ok_iff.mp hrest
      obtain ⟨raw', t'', -, hcheck⟩ := PyM.bind_eq_ok_iff.mp hread
      exact hchecked hcheck

end Fetch

end PleMemory

/-- One fed token batch and its result. -/
structure PleStep where
  /-- The tokens that were fed. -/
  tokens : List ℤ
  /-- Their row ids. -/
  rowids : List (List ℤ)
  /-- Their raw bytes. -/
  raw : Bytes
deriving DecidableEq, Repr

/-- State of one request. -/
structure PleSequence where
  /-- The newest tokens, which later row ids look back to. -/
  history : List ℤ
  /-- All tokens fed so far. -/
  tokens : List ℤ
  /-- The newest `keepSteps` steps. -/
  steps : List PleStep
  /-- The last step. -/
  last : Option PleStep
  /-- Number of steps that are kept. -/
  keepSteps : ℕ
deriving DecidableEq, Repr

namespace PleSequence

variable {σ : Type}

/-- A new sequence, starting from a given history or after separators. -/
def new (mem : PleMemory σ) (history : Option (List ℤ)) (keepSteps : ℤ) : PleSequence where
  history := history.getD (List.replicate (mem.ngramSize - 1) mem.eos)
  tokens := []
  steps := []
  last := none
  keepSteps := keepSteps.toNat

/-- Record a step: the deque drops its oldest step when it is full. -/
def pushStep (seq : PleSequence) (step : PleStep) : PleSequence :=
  { seq with
    steps := (seq.steps ++ [step]).drop (seq.steps.length + 1 - seq.keepSteps)
    last := some step }

/-- Feed a token batch: compute its row ids, fetch their bytes, and update the history. -/
def feed (mem : PleMemory σ) (seq : PleSequence) (tok : List ℤ) :
    PyM σ (PleStep × PleSequence) := do
  if tok = [] then
    let step : PleStep := ⟨[], [], []⟩
    return (step, seq.pushStep step)
  let rows ← PyM.lift (mem.rowidsForTokens tok (some seq.history))
  let raw ← mem.fetchRaw rows
  let step : PleStep := ⟨tok, rows, raw⟩
  -- the history is cut to what the longest n-gram looks back at
  let keep := max 1 (mem.ngramSize - 1)
  let seq := { seq with
    tokens := seq.tokens ++ tok
    history := Py.lastItems (seq.history ++ tok) keep }
  return (step, seq.pushStep step)

/-- Feed one token batch after another. -/
def feedAll (mem : PleMemory σ) : PleSequence → List (List ℤ) → PyM σ (List PleStep × PleSequence)
  | seq, [] => return ([], seq)
  | seq, tok :: toks => do
    let (step, seq) ← seq.feed mem tok
    let (steps, seq) ← feedAll mem seq toks
    return (step :: steps, seq)

end PleSequence

end EngramDB
