import EngramDB.Core.CountIndex.Streams
import EngramDB.Io.Tiers

/-!
# From a stream of row ids to the rows that stay in memory

`engramdb index` counts a stream and writes a count file and a dump, and `from_counts_dump` picks
rows by the dump. Neither the order of the stream nor the pieces in which it arrives nor the order
in which the hash map is visited shows in the files (`cmdIndex_eq`), and the rows that are picked
are the most frequent of the stream, row 0 left out (`cmdIndex_hotRows`).
-/

namespace EngramDB

open Grouping TopK

namespace CountIndex

variable {src src' : List Bytes} {rowids rowids' : List UInt64}

/-- `engramdb index`: the count file and the dump. Each visits the hash map in an order of its
own. -/
def cmdIndex (order order' : IterOrder (UInt64 × UInt32)) (src : List Bytes) :
    Except (IoError × String) (Bytes × List Char) := do
  let idx ← buildFromBinStream src
  pure (idx.writeBin order, idx.writeDump order')

/-- The index of a stream. -/
def ofStream (rowids : List UInt64) : CountIndex := ⟨rowids.foldl OrderedDict.bump .empty⟩

theorem mem_keys_ofStream {r : UInt64} : r ∈ (ofStream rowids).counts.keys ↔ r ∈ rowids := by
  show r ∈ (rowids.foldl (fun (d : OrderedDict UInt64 UInt32) a =>
    d.modify (id a) 0 ((fun _ v => v + 1) a)) OrderedDict.empty).keys ↔ _
  rw [OrderedDict.mem_keys_foldl_modify, OrderedDict.keys_empty]
  simp

/-- The index of a stream depends on how often the row ids occur. -/
theorem get?_ofStream (r : UInt64) : (ofStream rowids).counts.get? r =
    if r ∈ rowids then some ((· + 1)^[rowids.count r] 0) else none := by
  split_ifs with hr
  · obtain ⟨c, hc⟩ := Option.isSome_iff_exists.mp
      (OrderedDict.get?_isSome_iff.mpr (mem_keys_ofStream.mpr hr))
    have hgetD : (ofStream rowids).counts.getD r 0 = (· + 1)^[rowids.count r] 0 :=
      OrderedDict.getD_foldl_bump rowids .empty r
    rw [OrderedDict.getD_eq_of_get? hc] at hgetD
    rw [hc, hgetD]
  · exact OrderedDict.get?_eq_none_iff.mpr fun hmem => hr (mem_keys_ofStream.mp hmem)

private theorem get?_ofStream_congr (h : rowids.Perm rowids') (r : UInt64) :
    (ofStream rowids).counts.get? r = (ofStream rowids').counts.get? r := by
  rw [get?_ofStream, get?_ofStream, h.count_eq]
  exact if_congr h.mem_iff rfl rfl

private theorem buildFromBinStream_eq_ofStream (hpieces : Pieces src) (haligned : Aligned src)
    (hsrc : src.flatten = encodeRowids rowids) :
    buildFromBinStream src = .ok (ofStream rowids) := by
  have hlength : rowids.length < src.flatten.length + 1 := by
    rw [hsrc, length_encodeRowids]
    omega
  rw [buildFromBinStream, countFrom_of_aligned hpieces haligned hsrc hlength]
  rfl

/-- The files of an index depend on how often the row ids occur. -/
theorem cmdIndex_eq (hpieces : Pieces src) (haligned : Aligned src)
    (hsrc : src.flatten = encodeRowids rowids) (hperm : rowids.Perm rowids')
    (order order' visit visit' : IterOrder (UInt64 × UInt32)) :
    cmdIndex order order' src =
      .ok ((ofStream rowids').writeBin visit, (ofStream rowids').writeDump visit') := by
  have hget := get?_ofStream_congr hperm
  have hbuild := buildFromBinStream_eq_ofStream hpieces haligned hsrc
  simp only [cmdIndex, hbuild, Except.ok_bind, writeBin, writeDump, iter_congr hget order visit,
    iter_congr hget order' visit']
  rfl

end CountIndex

namespace TierManager

open CountIndex

variable {src src' : List Bytes} {rowids rowids' : List UInt64}

/-- The rows of a stream but row 0, each once. -/
def streamRows (rowids : List UInt64) : List UInt64 := (rowids.filter fun r => r ≠ 0).dedup

/-- The most frequent rows of a stream but row 0, `k` of them. -/
structure IsTopOf (rowids : List UInt64) (k : ℕ) (tm : TierManager) : Prop where
  /-- The rows strictly increase. -/
  pairwise : tm.hotRows.Pairwise (· < ·)
  /-- There are as many as the stream has, up to `k`. -/
  length_eq : tm.hotRows.length = min k (streamRows rowids).length
  /-- They are rows of the stream, and not row 0. -/
  mem : ∀ r ∈ tm.hotRows, r ∈ rowids ∧ r ≠ 0
  /-- No other row of the stream but row 0 is more frequent. -/
  le : ∀ r ∈ tm.hotRows, ∀ s ∈ rowids, s ≠ 0 → s ∉ tm.hotRows → rowids.count s ≤ rowids.count r
  /-- The search finds these rows and no others. -/
  isHot_iff : ∀ r, tm.isHot r = true ↔ r ∈ tm.hotRows

private theorem perm_nonzeroRows_ofStream (rowids : List UInt64) :
    (nonzeroRows (ofStream rowids)).Perm (streamRows rowids) := by
  refine (List.perm_ext_iff_of_nodup (nodup_nonzeroRows _) (List.nodup_dedup _)).mpr fun r => ?_
  rw [mem_nonzeroRows, mem_keys_ofStream, List.mem_dedup, List.mem_filter,
    decide_eq_true_eq]

/-- The rows that are picked from the dump of a stream. -/
private theorem isTopOf_ofStream (hcount : ∀ r, rowids.count r < 2 ^ 32)
    (order : IterOrder (UInt64 × UInt32)) (budgetBytes rowBytes : UInt64) :
    IsTopOf rowids (maxRows budgetBytes rowBytes)
      (fromCountsDump ((ofStream rowids).writeDump order) budgetBytes rowBytes) := by
  obtain ⟨rest, htop⟩ := topSplit_hotRows (ofStream rowids) order budgetBytes rowBytes
  have hpairwise := pairwise_hotRows (ofStream rowids) order budgetBytes rowBytes
  have hmem := fun r hr => mem_nonzeroRows.mp (htop.mem_picked (a := r) hr)
  refine ⟨hpairwise, ?_, fun r hr => ?_, fun r hr s hs hs0 hnot => ?_, fun r => ?_⟩
  · rw [htop.length_picked, (perm_nonzeroRows_ofStream rowids).length_eq]
  · exact ⟨mem_keys_ofStream.mp (hmem r hr).1, (hmem r hr).2⟩
  · have hrest := htop.mem_rest (mem_nonzeroRows.mpr ⟨mem_keys_ofStream.mpr hs, hs0⟩) hnot
    have hle := htop.le r hr s hrest
    rwa [ofStream, count_of_stream s (hcount s), count_of_stream r (hcount r)] at hle
  · rw [isHot, decide_eq_true_eq]
    exact SortedSearch.getElem?_partitionPoint_iff (fun _ _ h => UInt64.toNat_inj.mp h)
      (hpairwise.imp fun h => Nat.le_of_lt (UInt64.lt_iff_toNat_lt.mp h))

/-- Two streams of the same row ids, in any order and in any pieces of whole row ids, have the same
count file and the same dump. The count file reads back as the numbers of occurrences, and what is
picked from the dump are the most frequent rows but row 0. -/
theorem cmdIndex_hotRows (hpieces : Pieces src) (haligned : Aligned src)
    (hsrc : src.flatten = encodeRowids rowids) (hpieces' : Pieces src') (haligned' : Aligned src')
    (hsrc' : src'.flatten = encodeRowids rowids') (hperm : rowids.Perm rowids')
    (hcount : ∀ r, rowids.count r < 2 ^ 32) (budgetBytes rowBytes : UInt64) :
    ∃ bin dump, (∀ order order', cmdIndex order order' src = .ok (bin, dump)) ∧
      (∀ order order', cmdIndex order order' src' = .ok (bin, dump)) ∧
      (∀ r, ((fromBin bin).count r).toNat = rowids.count r) ∧
      IsTopOf rowids (maxRows budgetBytes rowBytes) (fromCountsDump dump budgetBytes rowBytes) := by
  refine ⟨_, _, fun order order' => cmdIndex_eq hpieces haligned hsrc (.refl _) order order'
    (.asPushed _) (.asPushed _), fun order order' => cmdIndex_eq hpieces' haligned' hsrc' hperm.symm
    order order' (.asPushed _) (.asPushed _), fun r => ?_,
    isTopOf_ofStream hcount _ budgetBytes rowBytes⟩
  rw [count, OrderedDict.getD, get?_fromBin_writeBin, ← OrderedDict.getD, ← count]
  exact count_of_stream r (hcount r)

theorem cmdIndex_hotRows_threeRowids :
    ∃ bin dump, (∀ order order', cmdIndex order order' [[5, 0, 0, 0, 0, 0, 0, 0],
        [3, 0, 0, 0, 0, 0, 0, 0, 5, 0, 0, 0, 0, 0, 0, 0]] = .ok (bin, dump)) ∧
      (∀ order order', cmdIndex order order' [[3, 0, 0, 0, 0, 0, 0, 0, 5, 0, 0, 0, 0, 0, 0, 0],
        [5, 0, 0, 0, 0, 0, 0, 0]] = .ok (bin, dump)) ∧
      (∀ r, ((fromBin bin).count r).toNat = [5, 3, 5].count r) ∧
      IsTopOf [5, 3, 5] (maxRows 160 160) (fromCountsDump dump 160 160) := by
  have hcount : ∀ r : UInt64, [5, 3, 5].count r < 2 ^ 32 := fun r =>
    Nat.lt_of_le_of_lt List.count_le_length (by decide)
  have hsrc : ([[5, 0, 0, 0, 0, 0, 0, 0],
      [3, 0, 0, 0, 0, 0, 0, 0, 5, 0, 0, 0, 0, 0, 0, 0]] : List Bytes).flatten =
        encodeRowids [5, 3, 5] := by
    decide
  have hsrc' : ([[3, 0, 0, 0, 0, 0, 0, 0, 5, 0, 0, 0, 0, 0, 0, 0],
      [5, 0, 0, 0, 0, 0, 0, 0]] : List Bytes).flatten = encodeRowids [3, 5, 5] := by
    decide
  have hperm : ([5, 3, 5] : List UInt64).Perm [3, 5, 5] := by
    decide
  refine cmdIndex_hotRows ?_ ?_ hsrc ?_ ?_ hsrc' hperm hcount 160 160
  all_goals
    intro piece hpiece
    rcases List.mem_cons.mp hpiece with rfl | hpiece
    · decide
    · rw [List.mem_singleton.mp hpiece]
      decide

end TierManager

end EngramDB
