import EngramDB.Keygen.Primes
import EngramDB.Keygen.Shift
import EngramDB.Python.Basic

/-!
# Row ids of the Python modules

`ple_math` and `ple_adapter` each have the row-id function, written alike, over unbounded integers
and with every parameter of the hash as an argument. `pleRowids` is that function over the module's
own default table sizes and offsets; `PleMath` and `PleAdapter` are the two modules.

`pleRowids_eq`: the rows are computed along the stream of the history and the tokens.
-/

namespace EngramDB

open Ngram

/-- The product of the token `order` places back with its multiplier. -/
def pleTerm (multipliers column : List ℤ) (order : ℕ) : Py ℤ := do
  let token ← Py.item column order
  let multiplier ← Py.item multipliers order
  pure (token * multiplier)

/-- The mix of the first `ngram` tokens of a column. -/
def pleMix (multipliers column : List ℤ) (ngram : ℕ) : Py ℤ := do
  let first ← pleTerm multipliers column 0
  (List.range' 1 (ngram - 1)).foldlM (fun mixed order => do
    let term ← pleTerm multipliers column order
    pure (Int.xor mixed term)) first

/-- The row id of head `h` for a mix. -/
def pleHead (sizes offsets : List ℤ) (mixed : ℤ) (h : ℕ) : Py ℤ := do
  let size ← Py.item sizes h
  let r ← Py.mod mixed size
  let off ← Py.item offsets h
  pure (r + off)

/-- The row ids of one position, from the column of the tokens seen looking back from it. -/
def pleRow (multipliers sizes offsets : List ℤ) (ngramSize headsPerNgram : ℕ) (column : List ℤ) :
    Py (List ℤ) := do
  let blocks ← (List.range' 2 (ngramSize - 1)).mapM fun ngram => do
    let mixed ← pleMix multipliers column ngram
    (List.range' ((ngram - 2) * headsPerNgram) headsPerNgram).mapM (pleHead sizes offsets mixed)
  pure blocks.flatten

/-- The row ids of every token of `tokens`. Without a history the sequence starts after two
separators. -/
def pleRowids (headVocabSizes : List ℤ) (headOffsets : List ℤ → List ℤ)
    (tokens multipliers : List ℤ)
    (eos : ℤ) (sizes offsets : Option (List ℤ)) (ngramSize headsPerNgram : ℕ)
    (history : Option (List ℤ)) : Py (List (List ℤ)) := do
  let sizes := Py.orDefault sizes headVocabSizes
  let offsets := Py.orDefault offsets (headOffsets sizes)
  let hist := (history.getD [eos, eos]) ++ tokens
  let shifted := (List.range ngramSize).map fun sh => shiftRightIgnoreEos hist sh eos
  let idsAll ← (List.range hist.length).mapM fun pos =>
    pleRow multipliers sizes offsets ngramSize headsPerNgram
      (shifted.map fun row => row.getD pos 0)
  pure (if tokens = [] then [] else Py.lastItems idsAll tokens.length)

/-- The running sums of all sizes but the last, from `0` on. -/
def runningOffsets (sizes : List ℤ) : List ℤ := List.scanl (· + ·) 0 sizes.dropLast

namespace PleMath

def PLE_EOS : ℤ := 248044
def PLE_NGRAM_SIZE : ℕ := 3
def PLE_HEADS_PER_NGRAM : ℕ := 8
def PLE_HEADS : ℕ := 16
def PLE_BASE : ℕ := 20000000
def DEFAULT_MULTIPLIERS : List ℤ := [23703573157769, 20109073645365, 8052911324071]

/-- Table sizes of `heads` heads: the primes from `base` on. -/
def headVocabSizes (base heads : ℕ) : List ℤ :=
  (List.range heads).map fun i => (nthPrimeAfter (base - 1) (i + 1) : ℤ)

/-- First row of every head. -/
def headOffsets (sizes : Option (List ℤ)) : List ℤ :=
  runningOffsets (Py.orDefault sizes (headVocabSizes PLE_BASE PLE_HEADS))

/-- `ple_math.ple_rowids`. -/
def pleRowids (tokens multipliers : List ℤ) (eos : ℤ) (sizes offsets : Option (List ℤ))
    (ngramSize headsPerNgram : ℕ) (history : Option (List ℤ)) : Py (List (List ℤ)) :=
  EngramDB.pleRowids (headVocabSizes PLE_BASE PLE_HEADS) (fun sizes => headOffsets (some sizes))
    tokens multipliers eos sizes offsets ngramSize headsPerNgram history

end PleMath

namespace PleAdapter

def PLE_EOS : ℤ := 248044
def PLE_NGRAM_SIZE : ℕ := 3
def PLE_HEADS_PER_NGRAM : ℕ := 8
def PLE_HEADS : ℕ := 16
def PLE_BASE : ℕ := 20000000

/-- Table sizes of `heads` heads: the primes from `base` on. -/
def headVocabSizes (base heads : ℕ) : List ℤ :=
  (List.range heads).map fun i => (nthPrimeAfter (base - 1) (i + 1) : ℤ)

/-- First row of every head. -/
def headOffsets (sizes : Option (List ℤ)) : List ℤ :=
  runningOffsets (Py.orDefault sizes (headVocabSizes PLE_BASE PLE_HEADS))

/-- `ple_adapter.ple_rowids`. -/
def pleRowids (tokens multipliers : List ℤ) (eos : ℤ) (sizes offsets : Option (List ℤ))
    (ngramSize headsPerNgram : ℕ) (history : Option (List ℤ)) : Py (List (List ℤ)) :=
  EngramDB.pleRowids (headVocabSizes PLE_BASE PLE_HEADS) (fun sizes => headOffsets (some sizes))
    tokens multipliers eos sizes offsets ngramSize headsPerNgram history

end PleAdapter

section Rows

variable {multipliers sizes offsets : List ℤ} {ngramSize headsPerNgram : ℕ}

/-- Whether a mix can be computed does not depend on the tokens of its column. -/
private theorem sameFault_pleMix {column column' : List ℤ} (h : column.length = column'.length)
    (ngram : ℕ) :
    Except.SameFault (pleMix multipliers column ngram) (pleMix multipliers column' ngram) := by
  have hterm : ∀ order, Except.SameFault (pleTerm multipliers column order)
      (pleTerm multipliers column' order) := fun order =>
    (Py.sameFault_item h order).bind fun _ _ =>
      Except.SameFault.bind_self _ fun _ => Except.sameFault_ok _ _
  refine (hterm 0).bind fun _ _ => Except.SameFault.foldlM (fun order _ _ _ => ?_) _ _
  exact (hterm order).bind fun _ _ => Except.sameFault_ok _ _

/-- Whether a row can be computed does not depend on the tokens of its column. -/
private theorem sameFault_pleRow {column column' : List ℤ} (h : column.length = column'.length) :
    Except.SameFault (pleRow multipliers sizes offsets ngramSize headsPerNgram column)
      (pleRow multipliers sizes offsets ngramSize headsPerNgram column') := by
  refine Except.SameFault.bind (Except.SameFault.mapM fun ngram _ => ?_)
    fun _ _ => Except.sameFault_ok _ _
  refine (sameFault_pleMix h ngram).bind fun mixed mixed' => Except.SameFault.mapM fun h _ => ?_
  refine Except.SameFault.bind_self _ fun size => ?_
  refine (Py.sameFault_mod mixed mixed' size).bind fun _ _ => ?_
  exact Except.SameFault.bind_self _ fun _ => Except.sameFault_ok _ _

/-- The rows are computed along the stream of the history and the tokens. -/
theorem pleRowids_eq (headVocabSizes : List ℤ) (headOffsets : List ℤ → List ℤ) (tokens : List ℤ)
    (eos : ℤ) (sizes offsets : Option (List ℤ)) (history : Option (List ℤ)) :
    pleRowids headVocabSizes headOffsets tokens multipliers eos sizes offsets ngramSize
        headsPerNgram history =
      rowsFrom eos ngramSize
        (pleRow multipliers (Py.orDefault sizes headVocabSizes)
          (Py.orDefault offsets (headOffsets (Py.orDefault sizes headVocabSizes)))
          ngramSize headsPerNgram)
        (history.getD [eos, eos]) tokens := by
  simp only [pleRowids, rowsFrom]
  rw [Except.mapM_congr (fun pos hpos => congrArg _ (map_getD_shiftRightIgnoreEos hpos))]
  refine Except.bind_mapM_congr fun idsAll hlen => ?_
  rw [List.length_range] at hlen
  congr 1
  split_ifs with hnil
  · rw [List.drop_of_length_le (by rw [hlen, hnil]; simp)]
  · have hpos : tokens.length ≠ 0 := fun h => hnil (List.length_eq_zero_iff.mp h)
    rw [Py.lastItems, if_neg hpos, hlen]

end Rows

/-- The row function of `ple_math` for the given arguments. -/
def PleMath.rowOf (multipliers : List ℤ) (sizes offsets : Option (List ℤ))
    (ngramSize headsPerNgram : ℕ) (column : List ℤ) : Py (List ℤ) :=
  let sizes := Py.orDefault sizes (headVocabSizes PLE_BASE PLE_HEADS)
  pleRow multipliers sizes (Py.orDefault offsets (headOffsets (some sizes))) ngramSize headsPerNgram
    column

theorem PleMath.pleRowids_eq (tokens multipliers : List ℤ) (eos : ℤ)
    (sizes offsets : Option (List ℤ)) (ngramSize headsPerNgram : ℕ) (history : Option (List ℤ)) :
    PleMath.pleRowids tokens multipliers eos sizes offsets ngramSize headsPerNgram history =
      rowsFrom eos ngramSize (rowOf multipliers sizes offsets ngramSize headsPerNgram)
        (history.getD [eos, eos]) tokens := by
  rw [PleMath.pleRowids, EngramDB.pleRowids_eq]
  rfl

theorem PleMath.sameFault_rowOf {multipliers : List ℤ} {sizes offsets : Option (List ℤ)} {eos : ℤ}
    {ngramSize headsPerNgram : ℕ} (past past' : List ℤ) :
    Except.SameFault
      (rowOf multipliers sizes offsets ngramSize headsPerNgram (lookBack eos ngramSize past))
      (rowOf multipliers sizes offsets ngramSize headsPerNgram (lookBack eos ngramSize past')) :=
  sameFault_pleRow (by rw [length_lookBack, length_lookBack])

/-- Tokens older than the last `ngramSize - 1` of an explicit history change nothing. -/
theorem PleMath.pleRowids_append_history {ngramSize : ℕ} (hngram : 2 ≤ ngramSize)
    (older : List ℤ) {recent : List ℤ} (h : ngramSize - 1 ≤ recent.length)
    (tokens multipliers : List ℤ) (eos : ℤ) (sizes offsets : Option (List ℤ)) (headsPerNgram : ℕ) :
    PleMath.pleRowids tokens multipliers eos sizes offsets ngramSize headsPerNgram
        (some (older ++ recent)) =
      PleMath.pleRowids tokens multipliers eos sizes offsets ngramSize headsPerNgram
        (some recent) := by
  have hne : recent ≠ [] := List.ne_nil_of_length_pos (by omega)
  rw [PleMath.pleRowids_eq, PleMath.pleRowids_eq]
  exact rowsFrom_append_history PleMath.sameFault_rowOf older (by omega) hne tokens

end EngramDB
