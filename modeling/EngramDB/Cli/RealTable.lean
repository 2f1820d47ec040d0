import EngramDB.Cli.Prep
import EngramDB.Io.Batch.Structure
import EngramDB.Python.PleMemory
import EngramDB.Python.RealRows
import Mathlib.Order.CompletePartialOrder
import Mathlib.Order.Interval.Set.Basic

/-!
# Row ids are addresses of the real table

The real table has 128 shards of 2,500,012 rows. Every head has a range of rows of its own, the
ranges lie one behind the other below the total, and no row id leaves the range of its head.

* `real_headRange`: the range of a head, and `disjoint_headRange`: no two heads share a row;
* `mem_headRange_rowid`: a row id lies in the range of its head for every mix, and the narrowing
  cast loses nothing;
* `PleSpec.realRowid_inRange`, `PleMemory.rowids_inRange`: the rows of the crate and of a memory are
  rows of the table;
* `real_addresses`: so a gather of any of them stays inside the files.
-/

namespace EngramDB

open Ngram

/-- The layout of the real table. -/
def realLayout : Layout := Layout.new 128 2500012 160 1

theorem realLayout_totalRows : realLayout.totalRows = 320001536 := by decide

namespace PleSpec

/-- The rows of a head. -/
def headRange (spec : PleSpec) (h : ℕ) : Set ℕ :=
  Set.Ico (spec.headOffsets.getD h 0).toNat
    ((spec.headOffsets.getD h 0).toNat + (spec.primeSizes.getD h 0).toNat)

/-- `k` is a row id that the specification gives to some tokens and history. -/
def Computes (spec : PleSpec) (k : ℕ) : Prop :=
  ∃ history tokens rows, spec.rowidsForSeqWithHistory (ε := Empty) history tokens = .ok rows ∧
    ∃ row ∈ rows, ∃ r ∈ row, k = r.toNat

/-- The offset of a head `h` of the real specification is the entry of `realOffsets`: `hh` puts the
head among the sixteen. -/
theorem toNat_real_headOffset {h : ℕ} (hh : h ∈ List.range PLE_HEADS) :
    (real.headOffsets.getD h 0).toNat = realOffsets.getD h 0 := by
  obtain ⟨-, hoffset, -, hbound⟩ := real_heads h hh
  rw [real_headOffsets, List.getD_eq_getElem?_getD, List.getElem?_map, hoffset, Option.map_some,
    Option.getD_some, UInt64.toNat_ofNat']
  exact Nat.mod_eq_of_lt (by omega)

/-- The table size of a head of the real specification. -/
theorem toNat_real_primeSize {h : ℕ} (hh : h ∈ List.range PLE_HEADS) :
    (real.primeSizes.getD h 0).toNat = realPrimes.getD h 1 := by
  obtain ⟨hprime, -, -, hbound⟩ := real_heads h hh
  rw [real, realSizes_eq, List.getD_eq_getElem?_getD, List.getElem?_map, hprime, Option.map_some,
    Option.getD_some, UInt64.toNat_ofNat']
  exact Nat.mod_eq_of_lt (by omega)

/-- The rows of a head, by the primes and their running sums. -/
theorem real_headRange {h : ℕ} (hh : h ∈ List.range PLE_HEADS) :
    real.headRange h =
      Set.Ico (realOffsets.getD h 0) (realOffsets.getD h 0 + realPrimes.getD h 1) := by
  rw [headRange, toNat_real_headOffset hh, toNat_real_primeSize hh]

/-- Each range starts where the one before it ends, or later. -/
theorem realOffsets_steps : ∀ h ∈ List.range PLE_HEADS, ∀ h' ∈ List.range PLE_HEADS, h < h' →
    realOffsets.getD h 0 + realPrimes.getD h 1 ≤ realOffsets.getD h' 0 := by
  decide

/-- Two different heads of the sixteen (`hne`) share no row, as their ranges lie one after
another. -/
theorem disjoint_headRange {h h' : ℕ} (hh : h ∈ List.range PLE_HEADS)
    (hh' : h' ∈ List.range PLE_HEADS) (hne : h ≠ h') :
    Disjoint (real.headRange h) (real.headRange h') := by
  rw [real_headRange hh, real_headRange hh', Set.disjoint_left]
  rintro k ⟨hlo, hhi⟩ ⟨hlo', hhi'⟩
  rcases Nat.lt_or_gt_of_ne hne with hlt | hgt
  · have hstep := realOffsets_steps h hh h' hh' hlt
    omega
  · have hstep := realOffsets_steps h' hh' h hh hgt
    omega

/-- The total of the real specification. -/
theorem toNat_real_total : real.total.toNat = 320001446 := by
  have htotal : real.total = (realPrimes.map UInt64.ofNat).sum := by
    rw [← realSizes_eq]
    rfl
  rw [htotal]
  decide

/-- The rows of a head lie below the total, for a head that exists (`hh`) and a row of its range
(`hk`). -/
private theorem headRange_lt_total {h k : ℕ} (hh : h ∈ List.range PLE_HEADS)
    (hk : k ∈ real.headRange h) :
    k < real.total.toNat := by
  have hall : ∀ h ∈ List.range PLE_HEADS,
      realOffsets.getD h 0 + realPrimes.getD h 1 ≤ 320001446 := by decide
  have hle := hall h hh
  rw [real_headRange hh] at hk
  obtain ⟨-, hlt⟩ := hk
  rw [toNat_real_total]
  omega

/-- The row id of a head is the remainder plus the offset, which the cast keeps, in the range of the
head. -/
theorem mem_headRange_rowid {ε : Type} (mixed : UInt64) {h : ℕ} (hh : h ∈ List.range PLE_HEADS) :
    ∃ r, real.rowid (ε := ε) mixed h = .ok r ∧
      r.toNat = mixed.toNat % (real.divisors.getD h 0).toNat + (real.headOffsets.getD h 0).toNat ∧
      r.toNat ∈ real.headRange h := by
  obtain ⟨-, -, hpos, -⟩ := real_heads h hh
  have hsize : (real.divisors.getD h 0).toNat = realPrimes.getD h 1 := toNat_real_primeSize hh
  have hr := toNat_realRowid mixed hh
  refine ⟨realRowid mixed h, rowid_real mixed hh, ?_, ?_⟩
  · rw [hr, hsize, toNat_real_headOffset hh]
  · have hlt := Nat.mod_lt mixed.toNat hpos
    rw [real_headRange hh, hr]
    exact ⟨by omega, by omega⟩

/-- Every row id of the real specification is a row of the real table. -/
theorem realRowid_inRange {k : ℕ} (hk : real.Computes k) : realLayout.InRange k := by
  obtain ⟨history, tokens, rows, hrows, row, hrow, r, hr, rfl⟩ := hk
  rw [rowidsForSeqWithHistory_real] at hrows
  cases hrows
  obtain ⟨i, -, rfl⟩ := List.mem_map.mp hrow
  obtain ⟨h, hh, rfl⟩ := List.mem_map.mp hr
  rw [Layout.InRange, realLayout_totalRows, toNat_realRowid _ hh]
  exact headRow_lt hh _

/-- The windows of `prep` and `bench-real` are sequences, so their rows are row ids of the
specification. -/
theorem computes_of_mem_windowRow {tokens : List UInt32} {t : ℕ} {row : List UInt32}
    (hrow : Cli.windowRow (ε := Empty) real tokens t = .ok row) {r : UInt32} (hr : r ∈ row) :
    real.Computes r.toNat := by
  obtain ⟨first, -, hrow⟩ := Except.bind_eq_ok_iff.mp hrow
  obtain ⟨second, -, hrow⟩ := Except.bind_eq_ok_iff.mp hrow
  obtain ⟨third, -, hrow⟩ := Except.bind_eq_ok_iff.mp hrow
  obtain ⟨ids, hids, hrow⟩ := Except.bind_eq_ok_iff.mp hrow
  rw [Outcome.index] at hrow
  split at hrow
  next ids' hfirst =>
    cases hrow
    exact ⟨_, _, ids, hids, row, List.mem_of_getElem? hfirst, r, hr, rfl⟩
  next => cases hrow

end PleSpec

namespace Cli

/-- The keys of `bench-real` are row ids of the specification. -/
theorem computes_of_mem_benchRealKeys {tokens : List UInt32} {keys : List UInt64}
    (hkeys : benchRealKeys (ε := Empty) tokens = .ok keys) {k : UInt64} (hk : k ∈ keys) :
    PleSpec.real.Computes k.toNat := by
  obtain ⟨rows, hrows, hkeys⟩ := Except.bind_eq_ok_iff.mp hkeys
  cases hkeys
  obtain ⟨r, hr, rfl⟩ := List.mem_map.mp hk
  obtain ⟨row, hrow, hr⟩ := List.mem_flatten.mp hr
  obtain ⟨t, -, ht⟩ := Except.exists_of_mem_mapM hrows hrow
  rw [UInt32.toNat_toUInt64]
  exact PleSpec.computes_of_mem_windowRow ht hr

end Cli

namespace PleMemory

variable {σ : Type}

/-- The table sizes and the offsets of the memory are those of the released table; multipliers and
separator may be any. -/
structure UsesRealTable (mem : PleMemory σ) : Prop where
  /-- The primes. -/
  primeSizes : mem.primeSizes = PleMath.headVocabSizes PleMath.PLE_BASE PleMath.PLE_HEADS
  /-- Their running sums. -/
  offsets : mem.offsets = PleMath.headOffsets (some mem.primeSizes)
  /-- Pairs and triples. -/
  ngramSize : mem.ngramSize = PleMath.PLE_NGRAM_SIZE
  /-- Eight heads each. -/
  headsPerNgram : mem.headsPerNgram = PleMath.PLE_HEADS_PER_NGRAM

/-- The constructor makes such a memory when it is given no table sizes. -/
theorem usesRealTable_of_new {args : Args σ} {mem : PleMemory σ} (hnew : new args = .ok mem)
    (hsizes : args.primeSizes = none) (hoffsets : args.offsets = none)
    (hheads : args.numHeads = none)
    (hngram : args.ngramSize = none) (hper : args.headsPerNgram = none) : mem.UsesRealTable := by
  have hmade := madeFrom_of_new hnew
  refine ⟨?_, ?_, ?_, ?_⟩
  · rw [hmade.primeSizes, hsizes, hheads]
    rfl
  · rw [hmade.offsets, hoffsets]
    rfl
  · rw [hmade.ngramSize, hngram]
    rfl
  · rw [hmade.headsPerNgram, hper]
    rfl

/-- `k` is a row id that the memory computes for some tokens and history. -/
def Computes (mem : PleMemory σ) (k : ℕ) : Prop :=
  ∃ tokens history rows, mem.rowidsForTokens tokens history = .ok rows ∧
    ∃ row ∈ rows, ∃ r ∈ row, r = (k : ℤ)

/-- A head reduces any mix, also a negative one, to a row of the table. -/
private theorem pleHead_inRange {mixed r : ℤ} {h : ℕ} (hh : h ∈ List.range PLE_HEADS)
    (hr : pleHead (castColumn realPrimes) (castColumn realOffsets) mixed h = .ok r) :
    0 ≤ r ∧ realLayout.InRange r.toNat := by
  obtain ⟨hprime, hoffset, hpos, hbound⟩ := real_heads h hh
  have hsize : Py.item (castColumn realPrimes) h = .ok ((realPrimes.getD h 1 : ℕ) : ℤ) :=
    Py.item_eq_ok (by rw [castColumn, List.getElem?_map, hprime]; rfl)
  have hoff : Py.item (castColumn realOffsets) h = .ok ((realOffsets.getD h 0 : ℕ) : ℤ) :=
    Py.item_eq_ok (by rw [castColumn, List.getElem?_map, hoffset]; rfl)
  have hne : ((realPrimes.getD h 1 : ℕ) : ℤ) ≠ 0 := by omega
  rw [pleHead, hsize, Except.ok_bind, Py.mod, if_neg hne] at hr
  obtain ⟨rest, hrest, hr⟩ := Except.bind_eq_ok_iff.mp hr
  cases hrest
  rw [hoff] at hr
  cases hr
  -- Python's remainder lies between zero and the prime, also for a negative mix
  have hlo := Int.fmod_nonneg_of_pos mixed (by omega : (0 : ℤ) < (realPrimes.getD h 1 : ℕ))
  have hhi := Int.fmod_lt_of_pos mixed (by omega : (0 : ℤ) < (realPrimes.getD h 1 : ℕ))
  rw [Layout.InRange, realLayout_totalRows]
  exact ⟨by omega, by omega⟩

/-- Every row id of a memory over the real table is a row of the table, for any integers as
tokens. -/
theorem rowids_inRange {mem : PleMemory σ} (hmem : mem.UsesRealTable) {tokens : List ℤ}
    {history : Option (List ℤ)} {rows : List (List ℤ)}
    (hrows : mem.rowidsForTokens tokens history = .ok rows) {row : List ℤ} (hrow : row ∈ rows)
    {r : ℤ} (hr : r ∈ row) : 0 ≤ r ∧ realLayout.InRange r.toNat := by
  have hsizes : mem.primeSizes = castColumn realPrimes :=
    hmem.primeSizes.trans PleMath.headVocabSizes_real
  have hoffsets : mem.offsets = castColumn realOffsets := by
    rw [hmem.offsets, hsizes, PleMath.headOffsets_real]
  rw [rowidsForTokens, PleMath.pleRowids_eq, hsizes, hoffsets, hmem.ngramSize,
    hmem.headsPerNgram] at hrows
  -- the row of some column
  obtain ⟨all, hall, hrows⟩ := Except.bind_eq_ok_iff.mp hrows
  cases hrows
  obtain ⟨pos, -, hpos⟩ := Except.exists_of_mem_mapM hall (List.mem_of_mem_drop hrow)
  obtain ⟨blocks, hblocks, hpos⟩ := Except.bind_eq_ok_iff.mp hpos
  cases hpos
  -- the block of pairs or of triples
  obtain ⟨block, hblock, hr⟩ := List.mem_flatten.mp hr
  obtain ⟨ngram, hngram, hblock⟩ := Except.exists_of_mem_mapM hblocks hblock
  obtain ⟨mixed, -, hblock⟩ := Except.bind_eq_ok_iff.mp hblock
  obtain ⟨h, hh, hr⟩ := Except.exists_of_mem_mapM hblock hr
  refine pleHead_inRange ?_ hr
  simp only [List.mem_range'_1, List.mem_range, PleMath.PLE_NGRAM_SIZE,
    PleMath.PLE_HEADS_PER_NGRAM, PLE_HEADS] at hngram hh ⊢
  omega

end PleMemory

/-- Every row id of a sequence lies in the range of its head, which the narrowing cast keeps, and is
located inside the real table; the ranges of the heads are disjoint and lie below the total; the
rows of `prep` and `bench-real` are such row ids; and a gather of row ids of the crate or of a
memory from a table with this layout, whatever its files hold, indexes nothing out of bounds. -/
theorem real_addresses {σ : Type} (history tokens : List UInt32) :
    (∃ rows, PleSpec.real.rowidsForSeqWithHistory (ε := Empty) history tokens = .ok rows ∧
      rows.length = tokens.length ∧ ∀ row ∈ rows, row.length = PLE_HEADS ∧
        ∀ h r, row[h]? = some r → r.toNat ∈ PleSpec.real.headRange h ∧
          (∃ mixed : UInt64, PleSpec.real.rowid (ε := Empty) mixed h = .ok r ∧
            r.toNat = mixed.toNat % (PleSpec.real.divisors.getD h 0).toNat +
              (PleSpec.real.headOffsets.getD h 0).toNat) ∧
          ∃ place, (∀ ε : Type, (realLayout.locate r.toNat : Outcome ε _) = .ok place) ∧
            realLayout.Holds place) ∧
    (∀ h ∈ List.range PLE_HEADS, ∀ h' ∈ List.range PLE_HEADS, h ≠ h' →
      Disjoint (PleSpec.real.headRange h) (PleSpec.real.headRange h')) ∧
    (∀ h ∈ List.range PLE_HEADS, ∀ k ∈ PleSpec.real.headRange h, k < PleSpec.real.total.toNat) ∧
    PleSpec.real.total ≤ PleSpec.real.padded ∧
    (∀ tokens t row, Cli.windowRow (ε := Empty) PleSpec.real tokens t = .ok row →
      ∀ r ∈ row, PleSpec.real.Computes r.toNat) ∧
    ∀ (g : BadgeGather) (sched : Schedule JobResult) (keys : List ℕ) (out : Bytes) (threads : ℕ),
      g.layout = realLayout → keys ≠ [] → out.length = keys.length * g.layout.width →
      (∀ k ∈ keys, PleSpec.real.Computes k ∨
        ∃ mem : PleMemory σ, mem.UsesRealTable ∧ mem.Computes k) →
      ∃ out', g.gatherPp sched keys out threads = .ok out' := by
  refine ⟨?_, fun h hh h' hh' => PleSpec.disjoint_headRange hh hh',
    fun h hh k => PleSpec.headRange_lt_total hh, ?_,
    fun tokens t row hrow r hr => PleSpec.computes_of_mem_windowRow hrow hr, ?_⟩
  · refine ⟨_, PleSpec.rowidsForSeqWithHistory_real history tokens, length_rowsOf .., ?_⟩
    intro row hrow
    obtain ⟨i, hi, rfl⟩ := List.mem_map.mp hrow
    refine ⟨Cli.length_realRowids _, fun h r hr => ?_⟩
    have hh : h ∈ List.range PLE_HEADS := by
      have hlt := (List.getElem?_eq_some_iff.mp hr).1
      rw [Cli.length_realRowids] at hlt
      exact List.mem_range.mpr hlt
    -- each head of the row is a row id of the published parameters
    rw [PleSpec.realRowids, List.getElem?_map, List.getElem?_range (List.mem_range.mp hh)] at hr
    obtain rfl := Option.some.inj hr
    obtain ⟨r, hrowid, hcast, hrange⟩ := PleSpec.mem_headRange_rowid (ε := Empty) _ hh
    rw [PleSpec.rowid_real _ hh] at hrowid
    obtain rfl := Except.ok.inj hrowid
    refine ⟨hrange, ⟨_, PleSpec.rowid_real _ hh, hcast⟩, ?_⟩
    -- and the head ranges lie in the table
    refine Layout.InRange.holds ?_ (by decide)
    rw [Layout.InRange, realLayout_totalRows, PleSpec.toNat_realRowid _ hh]
    exact headRow_lt hh _
  · rw [UInt64.le_iff_toNat_le, PleSpec.toNat_real_total, PleSpec.real_grid.2]
    decide
  · intro g sched keys out threads hlayout hne hout hkeys
    have hrange : ∀ k ∈ keys, g.layout.InRange k := by
      intro k hk
      rw [hlayout]
      -- the ids come from the command line or from the Python memory; both lie in the table
      rcases hkeys k hk with hreal | ⟨mem, hmem, tokens, history, rows, hrows, row,
        hrow, r, hr, rfl⟩
      · exact PleSpec.realRowid_inRange hreal
      · exact (PleMemory.rowids_inRange hmem hrows hrow hr).2
    obtain ⟨out', hok, -⟩ := BadgeGather.gatherPp_eq_ok sched hne hrange (by rw [hlayout]; decide)
      (by rw [hlayout]; decide) hout threads
    exact ⟨out', hok⟩

end EngramDB
