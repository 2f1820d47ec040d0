import EngramDB.Python.Adapter
import EngramDB.Python.DiskPleEmbedding.Bookkeeping
import EngramDB.Scripts.Agreement

/-!
# The disk-backed n-gram embedding

`DiskPleNGramEmbedding` computes the row ids of a batch of tokens and looks the rows up in a
`DiskPleEmbedding`. It keeps the last tokens of every row of the batch as the context of the next
call. With the parameters of the released checkpoint the row ids come from the native extension,
else from `ple_rowids`.

A result is given by the bytes of its rows. The conversion to `float32`, the scale and the shape are
left out.
-/

namespace EngramDB

namespace Py

/-- `xs[i:]`. -/
def sliceFrom {α : Type} (xs : List α) (i : ℤ) : List α :=
  if i < 0 then xs.drop (xs.length - (-i).toNat) else xs.drop i.toNat

/-- A number as an unsigned word of 32 bits. -/
def word32 (x : ℤ) : Py UInt32 :=
  if 0 ≤ x ∧ x < 2 ^ 32 then .ok (.ofNat x.toNat) else .error .overflowError

end Py

/-- The arguments of the constructor. -/
structure NGramArgs where
  /-- `store.fetch`. -/
  fetch : List ℤ → Py Bytes
  /-- Number of rows of the table. -/
  numEmbeddings : Option ℤ
  /-- Entries of the rows of all heads together. -/
  embeddingDim : ℕ
  /-- Number of heads, unless the sizes of their tables are given. -/
  numHeads : ℕ
  /-- Multiplier of the token at each distance. -/
  layerMultipliers : Option (List ℤ)
  /-- Bytes of one entry. -/
  itemsize : ℕ
  /-- Bound on the cache. -/
  cacheSize : ℤ
  /-- Whether there is a timeout for waiting on a prefetch. -/
  hasPrefetchTimeout : Bool
  /-- The separator token. -/
  eos : ℤ
  /-- Table size of every head. -/
  primeSizes : Option (List ℤ)
  /-- First row of every head. -/
  offsets : Option (List ℤ)
  /-- Tokens of the longest n-gram. -/
  ngramSize : ℤ
  /-- Heads of the n-grams of one length. -/
  headsPerNgram : ℤ
  /-- The number of rows of the table is rounded up to a multiple of it. -/
  divisor : ℤ

/-- The fields that `forward` uses and does not change. -/
structure DiskPleNGramEmbedding where
  /-- Table size of every head. -/
  primeSizes : List ℤ
  /-- First row of every head. -/
  headOffsets : List ℤ
  /-- Tokens of the longest n-gram. -/
  ngramSize : ℤ
  /-- Heads of the n-grams of one length. -/
  headsPerNgram : ℤ
  /-- Multiplier of the token at each distance. -/
  layerMultipliers : List ℤ
  /-- The separator token. -/
  eos : ℤ
  /-- The table of the rows. -/
  table : DiskPleEmbedding

/-- The fields that change. -/
structure NGramState where
  /-- The last tokens of every row of the batch. -/
  context : List (List ℤ)
  /-- The state of the table. -/
  table : DiskPleBooks

namespace DiskPleNGramEmbedding

/-- The multipliers that the constructor uses when it gets none. -/
def DEFAULT_MULTIPLIERS : List ℤ := [23703573157769, 20109073645365, 8052911324071]

/-- The constructor. The rows of a head are as wide as the embedding, divided by the number of
heads. -/
def new (args : NGramArgs) : Py DiskPleNGramEmbedding := do
  let primeSizes :=
    args.primeSizes.getD (PleAdapter.headVocabSizes PleAdapter.PLE_BASE args.numHeads)
  let headOffsets := args.offsets.getD (PleAdapter.headOffsets (some primeSizes))
  -- the padded size of the table is a division by `divisor`
  if args.numEmbeddings = none ∧ args.divisor = 0 then
    throw .zeroDivisionError
  -- and the width of a head is one by the number of heads
  if primeSizes = [] then
    throw .zeroDivisionError
  pure {
    primeSizes
    headOffsets
    ngramSize := args.ngramSize
    headsPerNgram := args.headsPerNgram
    layerMultipliers := Py.orDefault args.layerMultipliers DEFAULT_MULTIPLIERS
    eos := args.eos
    table := {
      fetch := args.fetch
      embeddingDim := args.embeddingDim / primeSizes.length
      itemsize := args.itemsize
      cacheSize := args.cacheSize
      hasPrefetchTimeout := args.hasPrefetchTimeout } }

/-- A new embedding has no context. -/
def start : NGramState := ⟨[], DiskPleBooks.new⟩

/-- `rowids_for_seq_with_history` of the package: the native function, which takes words of 32
bits. -/
def rowidsForSeqWithHistory (history tokens : List ℤ) : Py (List (List ℤ)) := do
  let hist ← history.mapM Py.word32
  let tok ← tokens.mapM Py.word32
  match PleSpec.real.rowidsForSeqWithHistory (ε := Empty) hist tok with
  | .ok rows => pure (pyTable rows)
  | .error _ => throw .panic

variable (mod : DiskPleNGramEmbedding)

/-- `_native_standard`. -/
def nativeStandard : Bool :=
  mod.layerMultipliers = DEFAULT_MULTIPLIERS ∧ mod.ngramSize = 3 ∧ mod.headsPerNgram = 8 ∧
    mod.eos = PleAdapter.PLE_EOS ∧
    mod.primeSizes = PleAdapter.headVocabSizes PleAdapter.PLE_BASE PleAdapter.PLE_HEADS

/-- `ple_rowids` with the parameters of the module. -/
def ownRowids (seq history : List ℤ) : Py (List (List ℤ)) :=
  PleAdapter.pleRowids seq mod.layerMultipliers mod.eos (some mod.primeSizes) (some mod.headOffsets)
    mod.ngramSize.toNat mod.headsPerNgram.toNat (some history)

/-- Row ids of `seq`, from the native function when possible. A panic is no `Exception`. -/
def rowsFor (seq history : List ℤ) : Py (List (List ℤ)) :=
  if mod.nativeStandard then
    match rowidsForSeqWithHistory history seq with
    | .ok rows => .ok rows
    | .error .panic => .error .panic
    | .error _ => mod.ownRowids seq history
  else mod.ownRowids seq history

/-- Contexts of separators are added until there is one for every row of the batch. -/
def pad (context : List (List ℤ)) (batchSize : ℕ) : List (List ℤ) :=
  context ++ List.replicate (batchSize - context.length)
    (List.replicate (mod.ngramSize - 1).toNat mod.eos)

/-- `(history + seq)[-(self.ngram_size - 1):]`. -/
def keep (history seq : List ℤ) : List ℤ := Py.sliceFrom (history ++ seq) (-(mod.ngramSize - 1))

/-- The loop over the batch: the row ids of every row, after which its context is advanced. -/
def advance : ℕ → List (List ℤ) → List (List ℤ) → Py (List (List (List ℤ))) × List (List ℤ)
  | _, [], context => (.ok [], context)
  | b, seq :: rest, context =>
    let history := context.getD b []
    match mod.rowsFor seq history with
    | .error e => (.error e, context)
    | .ok rows =>
      let (batchRows, context) := advance (b + 1) rest (context.set b (mod.keep history seq))
      (batchRows.map fun batchRows => rows :: batchRows, context)

/-- `torch.tensor(batch_rows, dtype=torch.int64)`, as the list of its entries. -/
def rids (batchRows : List (List (List ℤ))) : Py (List ℤ) :=
  let flat := batchRows.flatten.flatten
  if ∀ r ∈ flat, -2 ^ 63 ≤ r ∧ r < 2 ^ 63 then .ok flat
  else .error (.runtimeError "Overflow when unpacking long long")

/-- Look the rows of a batch up, while the store answers as `fetch` and the prefetches go on as in
`env`. -/
def forward (s : NGramState) (input : InputIds) (fetch : List ℤ → Py Bytes) (env : Progress) :
    Py Bytes × NGramState :=
  let context := mod.pad s.context input.rows.length
  match mod.advance 0 input.rows context with
  | (.error e, context) => (.error e, { s with context })
  | (.ok batchRows, context) =>
    match rids batchRows with
    | .error e => (.error e, { s with context })
    | .ok rids =>
      let (raw, table) := s.table.forward { mod.table with fetch } rids env
      (raw, { context, table })

/-- Start to fetch the rows of a batch. No context is advanced. -/
def prefetch (s : NGramState) (input : InputIds) (submit : Py Unit) : Py Unit × NGramState :=
  let context := mod.pad s.context input.rows.length
  match input.rows.zipIdx.mapM fun (seq, b) => mod.rowsFor seq (context.getD b []) with
  | .error e => (.error e, { s with context })
  | .ok batchRows =>
    let (result, table) := s.table.prefetch batchRows.flatten.flatten submit
    (result, { context, table })

end DiskPleNGramEmbedding

/-- A call on the embedding, with what happens during it. -/
inductive NGramCall where
  /-- `prefetch(input_ids)`. -/
  | prefetch (input : InputIds) (submit : Py Unit)
  /-- `forward(input_ids)`. -/
  | forward (input : InputIds) (fetch : List ℤ → Py Bytes) (env : Progress)
  /-- `reset_history()`. -/
  | resetHistory
  /-- `close()`. -/
  | close

namespace DiskPleNGramEmbedding

/-- The state after a call. What an exception interrupts has changed the state as far as it got. -/
def step (mod : DiskPleNGramEmbedding) (s : NGramState) : NGramCall → NGramState
  | .prefetch input submit => (mod.prefetch s input submit).2
  | .forward input fetch env => (mod.forward s input fetch env).2
  | .resetHistory => { s with context := [] }
  | .close => { s with table := s.table.close }

/-- The states of an embedding after some calls. -/
def Reachable (mod : DiskPleNGramEmbedding) (s : NGramState) : Prop :=
  ∃ calls : List NGramCall, calls.foldl mod.step start = s

end DiskPleNGramEmbedding

end EngramDB
