import EngramDB.Core.CountIndex
import EngramDB.Foundations.SortedSearch
import EngramDB.Foundations.TopK
import Mathlib.Data.Prod.Lex

/-!
# The rows that stay in memory

`TierManager::from_counts_dump` picks the rows with the greatest counts out of the dump of a count
index, as many as fit in a budget. The reader of the dump is lenient: a field that is no number
counts as zero, and so do the fields of a line that has none. Row 0 is its mark for such a line, and
is skipped. So row 0 is never picked, even if it was counted: `isTop_iff` says when the rows are the
top of the counts all the same.
-/

namespace EngramDB

open Grouping TopK

/-- The rows that stay in memory. -/
structure TierManager where
  /-- The rows in increasing order. -/
  hotRows : List UInt64
  /-- The budget in bytes. -/
  ramBudgetBytes : UInt64

namespace TierManager

/-- A field of a dump. -/
def parseField (field : List Char) : UInt64 :=
  match Text.parseU64 field with
  | .ok n => n
  | .error _ => 0

/-- The row id and the count of a line. -/
def parseLine (line : List Char) : UInt64 × UInt64 :=
  match Text.splitWhitespace line with
  | a :: b :: _ => (parseField a, parseField b)
  | _ => (0, 0)

/-- The heap of a dump: the count and the row id of every line that has one. -/
def heapOf (text : List Char) : List (UInt64 × UInt64) :=
  (((Text.lines text).map parseLine).filter fun fields => fields.1 ≠ 0).map Prod.swap

/-- The order of the heap: by count, then by row id. -/
def heapKey (e : UInt64 × UInt64) : ℕ ×ₗ ℕ := toLex (e.1.toNat, e.2.toNat)

/-- Number of rows that fit in the budget. -/
def maxRows (budgetBytes rowBytes : UInt64) : ℕ := (budgetBytes / max rowBytes 1).toNat

/-- Pick rows by a dump of counts. -/
def fromCountsDump (text : List Char) (budgetBytes rowBytes : UInt64) : TierManager where
  hotRows := Sorting.sortByKey UInt64.toNat
    ((popLoop heapKey (maxRows budgetBytes rowBytes) (heapOf text)).1.map Prod.snd)
  ramBudgetBytes := budgetBytes

/-- The row stays in memory: it is found by binary search. -/
def isHot (tm : TierManager) (rowid : UInt64) : Bool :=
  tm.hotRows[SortedSearch.partitionPoint (fun r => decide (r.toNat < rowid.toNat)) tm.hotRows]? =
    some rowid

/-! ### What is picked -/

variable {idx : CountIndex} {order : IterOrder (UInt64 × UInt32)} {budgetBytes rowBytes : UInt64}

/-- The counted rows but row 0. -/
def nonzeroRows (idx : CountIndex) : List UInt64 := idx.counts.keys.filter fun r => r ≠ 0

/-- The digits of a word are read back as this word. -/
theorem parseField_toDigits (n : UInt64) : parseField (Nat.toDigits 10 n.toNat) = n := by
  rw [parseField, Text.parseU64_toDigits]

/-- A line of the dump is read back as its entry. -/
private theorem parseLine_dumpLine (e : UInt64 × UInt32) :
    parseLine (CountIndex.dumpLine e) = (e.1, e.2.toUInt64) := by
  rw [parseLine, CountIndex.dumpLine,
    Text.splitWhitespace_pair (Text.isWord_toDigits _) (Text.isWord_toDigits _)]
  dsimp only
  rw [parseField_toDigits, ← UInt32.toNat_toUInt64, parseField_toDigits]

/-- A line of the dump contains no newline. -/
private theorem newline_notMem_dumpLine (e : UInt64 × UInt32) : '\n' ∉ CountIndex.dumpLine e := by
  rw [CountIndex.dumpLine, List.mem_append, List.mem_cons]
  rintro (h | h | h)
  · exact Text.newline_notMem_toDigits _ h
  · exact absurd h (by decide)
  · exact Text.newline_notMem_toDigits _ h

/-- The heap of a dump has the counts of the rows. -/
private theorem heapOf_writeDump (idx : CountIndex) (order : IterOrder (UInt64 × UInt32)) :
    (heapOf (idx.writeDump order)).Perm ((nonzeroRows idx).map fun r => (idx.count r, r)) := by
  have hlines : (Text.lines (idx.writeDump order)).map parseLine =
      (idx.iter order).map fun e => (e.1, e.2.toUInt64) := by
    rw [CountIndex.writeDump, Text.lines_unlines, List.map_map]
    · exact List.map_congr_left fun e _ => parseLine_dumpLine e
    · intro line hline
      obtain ⟨e, -, rfl⟩ := List.mem_map.mp hline
      exact newline_notMem_dumpLine e
  have hcount : ∀ e ∈ idx.iter order, (e.1, e.2.toUInt64) = (e.1, idx.count e.1) := by
    intro e he
    rw [CountIndex.count, OrderedDict.getD_eq_of_get? (CountIndex.mem_iter.mp he)]
  -- the dump lists every row once, in some order
  have hkeys : ((idx.iter order).map Prod.fst).Perm idx.counts.keys :=
    (CountIndex.perm_iter idx order).map Prod.fst
  -- and row 0 does not enter the heap
  have hheap : heapOf (idx.writeDump order) =
      (((idx.iter order).map Prod.fst).filter fun r => r ≠ 0).map fun r => (idx.count r, r) := by
    rw [heapOf, hlines, List.map_congr_left hcount, List.filter_map, List.filter_map, List.map_map,
      List.map_map]
    rfl
  rw [hheap]
  exact (hkeys.filter _).map _

/-- The order of the heap is that of the counts first. -/
private theorem count_le_of_heapKey_le {c c' r r' : UInt64}
    (h : heapKey (c, r) ≤ heapKey (c', r')) :
    c.toNat ≤ c'.toNat := by
  rw [heapKey, heapKey, Prod.Lex.toLex_le_toLex] at h
  rcases h with hlt | ⟨heq, -⟩
  · exact Nat.le_of_lt hlt
  · exact Nat.le_of_eq heq

/-- The rows that are picked from a dump have the greatest counts of all but row 0. -/
theorem topSplit_hotRows (idx : CountIndex) (order : IterOrder (UInt64 × UInt32))
    (budgetBytes rowBytes : UInt64) :
    ∃ rest, TopSplit (fun r => (idx.count r).toNat) (maxRows budgetBytes rowBytes) (nonzeroRows idx)
      (fromCountsDump (idx.writeDump order) budgetBytes rowBytes).hotRows rest := by
  have hheap := (topSplit_popLoop heapKey (maxRows budgetBytes rowBytes) _).of_perm
    (heapOf_writeDump idx order)
  have hsnd : ∀ r, (idx.count r, r).2 = r := fun _ => rfl
  have hrows : TopSplit (fun r => (idx.count r).toNat) (maxRows budgetBytes rowBytes)
      (nonzeroRows idx) _ _ := hheap.of_map hsnd fun _ _ => count_le_of_heapKey_le
  exact ⟨_, hrows.perm_picked (Sorting.perm_sortByKey UInt64.toNat _).symm⟩

/-- The rows with the greatest counts among those that were counted, `k` of them. -/
structure IsTop (idx : CountIndex) (k : ℕ) (hot : List UInt64) : Prop where
  /-- The rows strictly increase. -/
  pairwise : hot.Pairwise (· < ·)
  /-- There are as many as were counted, up to `k`. -/
  length_eq : hot.length = min k idx.counts.keys.length
  /-- They were counted. -/
  counted : ∀ r ∈ hot, r ∈ idx.counts.keys
  /-- No other row that was counted has a greater count. -/
  le : ∀ r ∈ hot, ∀ s ∈ idx.counts.keys, s ∉ hot → idx.count s ≤ idx.count r

/-- No row is listed twice. -/
theorem nodup_nonzeroRows (idx : CountIndex) : (nonzeroRows idx).Nodup :=
  idx.counts.nodup.filter _

/-- The rows that are listed are those that were counted, but for row 0. -/
theorem mem_nonzeroRows {r : UInt64} : r ∈ nonzeroRows idx ↔ r ∈ idx.counts.keys ∧ r ≠ 0 := by
  rw [nonzeroRows, List.mem_filter, decide_eq_true_eq]

/-- The rows that are picked strictly increase. -/
theorem pairwise_hotRows (idx : CountIndex) (order : IterOrder (UInt64 × UInt32))
    (budgetBytes rowBytes : UInt64) :
    (fromCountsDump (idx.writeDump order) budgetBytes rowBytes).hotRows.Pairwise (· < ·) := by
  obtain ⟨rest, h⟩ := topSplit_hotRows idx order budgetBytes rowBytes
  have hnodup := (List.nodup_append.mp (h.perm.nodup_iff.mpr (nodup_nonzeroRows idx))).1
  have hkeys : List.Nodup (List.map UInt64.toNat _) := hnodup.map fun _ _ h => UInt64.toNat_inj.mp h
  have hpicked := ((Sorting.perm_sortByKey UInt64.toNat _).map UInt64.toNat).nodup_iff.mp hkeys
  exact (Sorting.pairwise_lt_sortByKey hpicked).imp fun h => UInt64.lt_iff_toNat_lt.mpr h

/-- Every row but row 0 is picked by its count. -/
private theorem isTop_of_notMem (h : 0 ∉ idx.counts.keys) :
    IsTop idx (maxRows budgetBytes rowBytes)
      (fromCountsDump (idx.writeDump order) budgetBytes rowBytes).hotRows := by
  obtain ⟨rest, htop⟩ := topSplit_hotRows idx order budgetBytes rowBytes
  have hall : nonzeroRows idx = idx.counts.keys := by
    refine List.filter_eq_self.mpr fun r hr => decide_eq_true fun h0 => ?_
    exact h (h0 ▸ hr)
  rw [hall] at htop
  exact ⟨pairwise_hotRows idx order budgetBytes rowBytes, htop.length_picked,
    fun r hr => htop.mem_picked hr,
    fun r hr s hs hnot => UInt64.le_iff_toNat_le.mpr (htop.le r hr s (htop.mem_rest hs hnot))⟩

/-- If there are enough rows with at least the count of row 0, no row with a smaller one is
picked. -/
private theorem count_zero_le (hmany : maxRows budgetBytes rowBytes ≤
      ((nonzeroRows idx).filter fun r => idx.count 0 ≤ idx.count r).length) {r : UInt64}
    (hr : r ∈ (fromCountsDump (idx.writeDump order) budgetBytes rowBytes).hotRows) :
    idx.count 0 ≤ idx.count r := by
  obtain ⟨rest, htop⟩ := topSplit_hotRows idx order budgetBytes rowBytes
  by_contra hlt
  -- every row with at least the count of row 0 is picked before `r`
  have hpicked : ((nonzeroRows idx).filter fun r => idx.count 0 ≤ idx.count r) ⊆
      (fromCountsDump (idx.writeDump order) budgetBytes rowBytes).hotRows.erase r := by
    intro s hs
    rw [List.mem_filter, decide_eq_true_eq] at hs
    have hne : s ≠ r := fun h => hlt (h ▸ hs.2)
    refine (List.mem_erase_of_ne hne).mpr ?_
    by_contra hnot
    have hle := htop.le r hr s (htop.mem_rest hs.1 hnot)
    exact hlt (UInt64.le_trans hs.2 (UInt64.le_iff_toNat_le.mpr hle))
  have hlen := (List.subperm_of_subset ((nodup_nonzeroRows idx).filter _) hpicked).length_le
  rw [List.length_erase_of_mem hr, htop.length_picked] at hlen
  have hpos := List.length_pos_of_mem hr
  rw [htop.length_picked] at hpos
  omega

/-- The rows that are picked are the top of the counts iff row 0 was not counted, or as many other
rows as fit in the budget have at least its count. A row is hot iff it was picked. -/
theorem isTop_iff (idx : CountIndex) (order : IterOrder (UInt64 × UInt32))
    (budgetBytes rowBytes : UInt64) :
    (IsTop idx (maxRows budgetBytes rowBytes)
        (fromCountsDump (idx.writeDump order) budgetBytes rowBytes).hotRows ↔
      0 ∉ idx.counts.keys ∨ maxRows budgetBytes rowBytes ≤
        ((nonzeroRows idx).filter fun r => idx.count 0 ≤ idx.count r).length) ∧
    ∀ r, (fromCountsDump (idx.writeDump order) budgetBytes rowBytes).isHot r = true ↔
      r ∈ (fromCountsDump (idx.writeDump order) budgetBytes rowBytes).hotRows := by
  have hpairwise := pairwise_hotRows idx order budgetBytes rowBytes
  obtain ⟨rest, htop⟩ := topSplit_hotRows idx order budgetBytes rowBytes
  refine ⟨⟨fun h => ?_, ?_⟩, fun r => ?_⟩
  · by_cases hzero : 0 ∈ idx.counts.keys
    · -- row 0 is not picked, so all rows that are picked have at least its count
      have hnot :
          0 ∉ (fromCountsDump (idx.writeDump order) budgetBytes rowBytes).hotRows := fun hmem =>
        (mem_nonzeroRows.mp (htop.mem_picked hmem)).2 rfl
      have hsub : (fromCountsDump (idx.writeDump order) budgetBytes rowBytes).hotRows ⊆
          (nonzeroRows idx).filter fun r => idx.count 0 ≤ idx.count r := fun r hr =>
        List.mem_filter.mpr ⟨htop.mem_picked hr, decide_eq_true (h.le r hr 0 hzero hnot)⟩
      have hnodup := (List.nodup_append.mp (htop.perm.nodup_iff.mpr (nodup_nonzeroRows idx))).1
      have hlen := (List.subperm_of_subset hnodup hsub).length_le
      have hless : (nonzeroRows idx).length < idx.counts.keys.length :=
        List.length_filter_lt_length_iff_exists.mpr ⟨0, hzero, by simp⟩
      have hboth := htop.length_picked.symm.trans h.length_eq
      rw [htop.length_picked] at hlen
      exact .inr (by omega)
    · exact .inl hzero
  -- without row 0, or with enough rows that count as much, nothing is missed
  · rintro (hzero | hmany)
    · exact isTop_of_notMem hzero
    · have hle : (nonzeroRows idx).length ≤ idx.counts.keys.length := List.length_filter_le _ _
      have hfew :=
        List.length_filter_le (fun r => decide (idx.count 0 ≤ idx.count r)) (nonzeroRows idx)
      refine ⟨hpairwise, ?_, fun r hr => (mem_nonzeroRows.mp (htop.mem_picked hr)).1,
        fun r hr s hs hnot => ?_⟩
      · rw [htop.length_picked]
        omega
      · by_cases hs0 : s = 0
        · rw [hs0]
          exact count_zero_le hmany hr
        · have hrest := htop.mem_rest (mem_nonzeroRows.mpr ⟨hs, hs0⟩) hnot
          exact UInt64.le_iff_toNat_le.mpr (htop.le r hr s hrest)
  · rw [isHot, decide_eq_true_eq]
    exact SortedSearch.getElem?_partitionPoint_iff (fun _ _ h => UInt64.toNat_inj.mp h)
      (hpairwise.imp fun h => Nat.le_of_lt (UInt64.lt_iff_toNat_lt.mp h))

/-- Row 0 is not picked, although it is the only row that was counted. -/
theorem not_isTop_of_row_zero : ¬ ∀ (idx : CountIndex) (order : IterOrder (UInt64 × UInt32))
    (budgetBytes rowBytes : UInt64), IsTop idx (maxRows budgetBytes rowBytes)
      (fromCountsDump (idx.writeDump order) budgetBytes rowBytes).hotRows := by
  intro h
  have hlength := (h ⟨⟨[(0, 1)], by decide⟩⟩ (.asPushed _) 160 160).length_eq
  have hnone : (fromCountsDump ((CountIndex.mk ⟨[(0, 1)], by decide⟩).writeDump (.asPushed _)) 160
      160).hotRows = [] := by decide
  rw [hnone] at hlength
  exact absurd hlength (by decide)

end TierManager

end EngramDB
