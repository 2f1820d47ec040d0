import EngramDB.Foundations.Streaming
import EngramDB.Keygen.Primes
import EngramDB.Keygen.Shift
import Mathlib.Data.UInt

/-!
# Row ids of the keygen crate

`PleSpec.rowidsForSeqWithHistory` hashes a token sequence to sixteen row ids per position: eight
from the pair of the last two tokens and eight from the triple of the last three. Each block mixes
the products of the tokens with the multipliers, reduces the mix by the prime of every head and adds
the offset of the head. Tokens are `u32`, the mix is a wrapping `u64`.

* `real_primeSizes`: the sixteen primes of the real specification;
* `rowidsForSeqWithHistory_eq`: a row depends on what is seen looking back from its position.
-/

namespace EngramDB

open Ngram

def PLE_MULTIPLIERS : Vector UInt64 3 := #v[23703573157769, 20109073645365, 8052911324071]
def PLE_EOS : UInt32 := 248044
def PLE_NGRAM_SIZE : ℕ := 3
def PLE_HEADS_PER_NGRAM : ℕ := 8
def PLE_HEADS : ℕ := 16
def PLE_BASE : ℕ := 20000000
def PLE_DIVISOR : UInt64 := 128
def PLE_SHARDS : UInt64 := 128
def PLE_ROWS_PER_SHARD : UInt64 := 2500012

/-- Specification of the hashed table. -/
structure PleSpec where
  /-- Multiplier of the token at each distance. -/
  multipliers : Vector UInt64 3
  /-- Table size of each head. -/
  primeSizes : List UInt64
  /-- First row of each head. -/
  headOffsets : List UInt64
  /-- Divisor of each head, equal to its table size. -/
  divisors : List UInt64
  /-- Sum of the table sizes. -/
  total : UInt64
  /-- `total`, rounded up to a multiple of `PLE_DIVISOR`. -/
  padded : UInt64
  /-- Rows in each shard. -/
  rowsPerShard : UInt64
  /-- Number of shards. -/
  shards : UInt64
  /-- The separator token. -/
  eos : UInt32

/-- `v`, rounded up to a multiple of `d`. -/
def roundUp (v d : UInt64) : UInt64 := (v + d - 1) / d * d

namespace PleSpec

/-- The offset loop: each head starts where the tables of the heads before it end. -/
def offsetsFrom (acc : UInt64) : List UInt64 → List UInt64
  | [] => []
  | s :: sizes => acc :: offsetsFrom (acc + s) sizes

/-- Table sizes of the heads: the first sixteen primes from `PLE_BASE` on. -/
def realSizes : List UInt64 :=
  (List.range PLE_HEADS).map fun i => UInt64.ofNat (nthPrimeAfter (PLE_BASE - 1) (i + 1))

/-- The specification of the released checkpoint. -/
def real : PleSpec where
  multipliers := PLE_MULTIPLIERS
  primeSizes := realSizes
  headOffsets := offsetsFrom 0 realSizes
  divisors := realSizes
  total := realSizes.sum
  padded := roundUp realSizes.sum PLE_DIVISOR
  rowsPerShard := PLE_ROWS_PER_SHARD
  shards := PLE_SHARDS
  eos := PLE_EOS

variable (spec : PleSpec)

/-- The mix of the first `ngramOrder` tokens of a column: the token of the position itself, then
the token one place back, and so on. -/
def mix (column : List UInt32) (ngramOrder : ℕ) : UInt64 :=
  (((column.take ngramOrder).drop 1).zip (spec.multipliers.toList.drop 1)).foldl
    (fun mixed p => mixed ^^^ p.1.toUInt64 * p.2)
    ((column.getD 0 0).toUInt64 * spec.multipliers[0])

/-- The row id of head `gi` for a mix. A missing head and a zero divisor panic. -/
def rowid {ε : Type} (mixed : UInt64) (gi : ℕ) : Outcome ε UInt32 := do
  let size ← Outcome.index spec.divisors gi
  let off ← Outcome.index spec.headOffsets gi
  if size = 0 then throw .panic
  pure (mixed % size + off).toUInt32

/-- The sixteen row ids of a column: the heads of the pair, then the heads of the triple. The index
`shiftRange + h` runs through the row in order. -/
def row {ε : Type} (column : List UInt32) : Outcome ε (List UInt32) := do
  let blocks ← [2, 3].mapM fun ngramOrder =>
    (List.range PLE_HEADS_PER_NGRAM).mapM fun h =>
      spec.rowid (spec.mix column ngramOrder) ((ngramOrder - 2) * PLE_HEADS_PER_NGRAM + h)
  pure blocks.flatten

/-- Row ids of every position of `tokens`, with `history` as the tokens before. -/
def rowidsForSeqWithHistory {ε : Type} (history tokens : List UInt32) :
    Outcome ε (List (List UInt32)) := do
  let hist := history ++ tokens
  let shifted := (List.range PLE_NGRAM_SIZE).map fun shift =>
    shiftRightIgnoreEos hist shift spec.eos
  let idsAll ← (List.range hist.length).mapM fun pos =>
    spec.row (shifted.map fun shiftedRow => shiftedRow.getD pos 0)
  pure (idsAll.drop (hist.length - tokens.length))

/-- Row ids of every position of `tokens`, starting after separators. -/
def rowidsForSeq {ε : Type} (tokens : List UInt32) : Outcome ε (List (List UInt32)) :=
  spec.rowidsForSeqWithHistory (List.replicate (PLE_NGRAM_SIZE - 1) spec.eos) tokens

section Rows

variable {spec : PleSpec} {ε : Type}

/-- The rows of a sequence are computed along the stream of its history and its tokens. -/
theorem rowidsForSeqWithHistory_eq (history tokens : List UInt32) :
    spec.rowidsForSeqWithHistory (ε := ε) history tokens =
      rowsFrom spec.eos PLE_NGRAM_SIZE spec.row history tokens := by
  simp only [rowidsForSeqWithHistory, rowsFrom]
  rw [Except.mapM_congr (fun pos hpos => congrArg _ (map_getD_shiftRightIgnoreEos hpos))]

/-- Whether a row id can be computed depends on the head alone. -/
private theorem sameFault_rowid (m m' : UInt64) (gi : ℕ) :
    Except.SameFault (spec.rowid (ε := ε) m gi) (spec.rowid (ε := ε) m' gi) := by
  refine Except.SameFault.bind_self _ fun size => Except.SameFault.bind_self _ fun off => ?_
  split_ifs
  · exact Except.SameFault.refl _
  · exact Except.sameFault_ok _ _

/-- Whether a row can be computed does not depend on the tokens. -/
theorem sameFault_row (column column' : List UInt32) :
    Except.SameFault (spec.row (ε := ε) column) (spec.row column') :=
  (Except.SameFault.mapM fun _ _ => Except.SameFault.mapM fun _ _ =>
    sameFault_rowid _ _ _).bind fun _ _ => Except.sameFault_ok _ _

/-- Tokens older than the last two of the history change nothing. -/
theorem rowidsForSeqWithHistory_append (older : List UInt32) {recent : List UInt32}
    (h : PLE_NGRAM_SIZE - 1 ≤ recent.length) (tokens : List UInt32) :
    spec.rowidsForSeqWithHistory (ε := ε) (older ++ recent) tokens =
      spec.rowidsForSeqWithHistory recent tokens := by
  have hlen : 2 ≤ recent.length := h
  have hne : recent ≠ [] := List.ne_nil_of_length_pos (by omega)
  rw [rowidsForSeqWithHistory_eq, rowidsForSeqWithHistory_eq]
  exact rowsFrom_append_history (fun _ _ => sameFault_row _ _) older (n := PLE_NGRAM_SIZE)
    (by simp only [PLE_NGRAM_SIZE]; omega) hne tokens

/-- Chunk by chunk, with the last two tokens as the history of the next chunk, the row ids are
those of the whole sequence. -/
theorem chunkRows_rowidsForSeqWithHistory (c : List UInt32) (cs : List (List UInt32)) :
    chunkRows (spec.rowidsForSeqWithHistory (ε := ε)) (PLE_NGRAM_SIZE - 1)
        (List.replicate (PLE_NGRAM_SIZE - 1) spec.eos) (c :: cs) =
      spec.rowidsForSeq (c ++ cs.flatten) := by
  have hrows : spec.rowidsForSeqWithHistory (ε := ε) =
      rowsFrom spec.eos PLE_NGRAM_SIZE spec.row := by
    funext history tokens
    exact rowidsForSeqWithHistory_eq history tokens
  rw [rowidsForSeq, hrows]
  exact chunkRows_rowsFrom (fun _ _ => sameFault_row _ _) (by decide) (by decide)
    (by simp [PLE_NGRAM_SIZE])
    c cs

end Rows

end PleSpec

end EngramDB
