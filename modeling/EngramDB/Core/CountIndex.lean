import EngramDB.Core.Layout
import EngramDB.Foundations.Chunks
import EngramDB.Foundations.Grouping
import EngramDB.Foundations.LittleEndian
import EngramDB.Foundations.Sorting
import EngramDB.Foundations.Tally
import EngramDB.Foundations.Text
import Mathlib.Data.List.TakeWhile
import Mathlib.Data.UInt

/-!
# How often every row is used

A `CountIndex` counts the row ids of a stream, in a hash map that is written in the order of the row
ids.

* `mem_iter`, `pairwise_iter`, `iter_congr`: the entries, in strictly increasing order of the row
  ids. They depend on the counts alone, not on the order in which the map is visited;
* `fromBin_writeBin`: a count file reads back as its entries;
* `writeBin_eq_iff`: two indexes have the same file iff they have the same counts.
-/

namespace EngramDB

open Chunking Grouping

/-- How often every row id was counted. -/
structure CountIndex where
  /-- The counts: a hash map. -/
  counts : OrderedDict UInt64 UInt32

namespace CountIndex

/-- The count of a row id. -/
def count (idx : CountIndex) (rowid : UInt64) : UInt64 := (idx.counts.getD rowid 0).toUInt64

/-- The entries in the order of the row ids. The map is visited in some order. -/
def iter (idx : CountIndex) (order : IterOrder (UInt64 × UInt32)) : List (UInt64 × UInt32) :=
  Sorting.sortByKey (fun e => e.1.toNat) (order.list idx.counts.entries)

/-! ### Files -/

/-- The record of an entry: eight bytes of the row id, four of the count. -/
def record (e : UInt64 × UInt32) : Bytes :=
  LittleEndian.encode 8 e.1.toNat ++ LittleEndian.encode 4 e.2.toNat

/-- The count file. -/
def writeBin (idx : CountIndex) (order : IterOrder (UInt64 × UInt32)) : Bytes :=
  (idx.iter order).flatMap record

/-- The line of an entry in a dump. -/
def dumpLine (e : UInt64 × UInt32) : List Char :=
  Nat.toDigits 10 e.1.toNat ++ ' ' :: Nat.toDigits 10 e.2.toNat

/-- The dump: a line for each entry. -/
def writeDump (idx : CountIndex) (order : IterOrder (UInt64 × UInt32)) : List Char :=
  Text.unlines ((idx.iter order).map dumpLine)

/-- The entry of a record. -/
def entryOf (chunk : Bytes) : UInt64 × UInt32 :=
  (UInt64.ofNat (LittleEndian.decode (chunk.take 8)),
    UInt32.ofNat (LittleEndian.decode ((chunk.drop 8).take 4)))

/-- Read a count file, up to a record that is cut off. A later record of a row id replaces an
earlier one. -/
def fromBin (data : Bytes) : CountIndex :=
  ⟨OrderedDict.empty.update
    (((chunks 12 data).takeWhile fun chunk => chunk.length = 12).map entryOf)⟩

/-! ### Streams -/

/-- One read of at most `room` bytes from a reader that delivers its bytes in pieces: the bytes, and
what the reader has left. -/
def read (room : ℕ) : List Bytes → Bytes × List Bytes
  | [] => ([], [])
  | piece :: rest =>
    (piece.take room, if room < piece.length then piece.drop room :: rest else rest)

/-- The error of a read that ends inside a row id: its kind and its message. -/
def partialRowid : IoError × String := (.unexpectedEof, "partial rowid")

/-- The loop of `build_from_bin_stream`: eight bytes are read, and counted as a row id. A count
wraps at 32 bits. Every round takes bytes from the reader. -/
def countFrom : ℕ → OrderedDict UInt64 UInt32 → List Bytes →
    Except (IoError × String) (OrderedDict UInt64 UInt32)
  | 0, counts, _ => .ok counts
  | fuel + 1, counts, src =>
    let (buf, src) := read 8 src
    if buf.length = 0 then .ok counts
    else if buf.length ≠ 8 then .error partialRowid
    else countFrom fuel (counts.bump (UInt64.ofNat (LittleEndian.decode buf))) src

/-- Count the row ids of a reader. -/
def buildFromBinStream (src : List Bytes) : Except (IoError × String) CountIndex :=
  (countFrom (src.flatten.length + 1) .empty src).map CountIndex.mk

/-! ### The entries -/

section Entries

variable {idx idx' : CountIndex} {order order' : IterOrder (UInt64 × UInt32)}

/-- Visiting the index in any order visits its entries. -/
theorem perm_iter (idx : CountIndex) (order : IterOrder (UInt64 × UInt32)) :
    (idx.iter order).Perm idx.counts.entries :=
  (Sorting.perm_sortByKey _ _).trans (order.list_perm _)

/-- An entry is a count of the map. -/
theorem mem_iter {e : UInt64 × UInt32} : e ∈ idx.iter order ↔ idx.counts.get? e.1 = some e.2 := by
  rw [(perm_iter idx order).mem_iff, OrderedDict.get?_eq_some_iff]

/-- No row id has two entries. -/
theorem nodup_rowids (idx : CountIndex) : (idx.counts.entries.map fun e => e.1.toNat).Nodup := by
  have hmap : (idx.counts.entries.map fun e => e.1.toNat) = idx.counts.keys.map UInt64.toNat := by
    rw [OrderedDict.keys, List.map_map]
    rfl
  rw [hmap]
  exact idx.counts.nodup.map fun _ _ h => UInt64.toNat_inj.mp h

/-- Indexes with the same counts are visited with the same entries, in some orders. -/
private theorem perm_visited {idx idx' : CountIndex}
    (h : ∀ r, idx.counts.get? r = idx'.counts.get? r)
    (order order' : IterOrder (UInt64 × UInt32)) :
    (order.list idx.counts.entries).Perm (order'.list idx'.counts.entries) := by
  have hentries : idx.counts.entries.Perm idx'.counts.entries := by
    refine (List.perm_ext_iff_of_nodup idx.counts.nodup.of_map idx'.counts.nodup.of_map).mpr
      fun e => ?_
    rw [← OrderedDict.get?_eq_some_iff, ← OrderedDict.get?_eq_some_iff, h]
  exact (order.list_perm _).trans (hentries.trans (order'.list_perm _).symm)

/-- The entries come in strictly increasing order of the row ids. -/
theorem pairwise_iter (idx : CountIndex) (order : IterOrder (UInt64 × UInt32)) :
    (idx.iter order).Pairwise fun a b => a.1 < b.1 := by
  have hnodup :=
    ((order.list_perm idx.counts.entries).map fun e => e.1.toNat).nodup_iff.mpr (nodup_rowids idx)
  exact (Sorting.pairwise_lt_sortByKey hnodup).imp fun h => UInt64.lt_iff_toNat_lt.mpr h

/-- The entries that are visited, which are sorted, depend on the counts alone (`h`), and not on the
order in which the map is gone through. -/
theorem iter_congr (h : ∀ r, idx.counts.get? r = idx'.counts.get? r)
    (order order' : IterOrder (UInt64 × UInt32)) : idx.iter order = idx'.iter order' := by
  have hnodup :=
    ((order.list_perm idx.counts.entries).map fun e => e.1.toNat).nodup_iff.mpr (nodup_rowids idx)
  exact Sorting.sortByKey_congr hnodup (perm_visited h order order')

end Entries

/-! ### The count file -/

section File

variable {idx idx' : CountIndex} {order order' : IterOrder (UInt64 × UInt32)}

/-- The record of an entry has twelve bytes. -/
theorem length_record (e : UInt64 × UInt32) : (record e).length = 12 := by
  rw [record, List.length_append, LittleEndian.length_encode, LittleEndian.length_encode]

/-- The record of an entry is read back as the entry. -/
private theorem entryOf_record (e : UInt64 × UInt32) : entryOf (record e) = e := by
  have hrowid : (record e).take 8 = LittleEndian.encode 8 e.1.toNat :=
    List.take_left' (LittleEndian.length_encode _ _)
  have hcount : ((record e).drop 8).take 4 = LittleEndian.encode 4 e.2.toNat := by
    rw [record, List.drop_left' (LittleEndian.length_encode _ _)]
    exact List.take_of_length_le (LittleEndian.length_encode _ _).le
  rw [entryOf, hrowid, hcount, LittleEndian.decode_encode_of_lt e.1.toNat_lt,
    LittleEndian.decode_encode_of_lt e.2.toNat_lt, UInt64.ofNat_toNat, UInt32.ofNat_toNat]

/-- A count file is cut into its records. -/
private theorem chunks_writeBin (idx : CountIndex) (order : IterOrder (UInt64 × UInt32)) :
    chunks 12 (idx.writeBin order) = (idx.iter order).map record := by
  rw [writeBin, List.flatMap_def]
  refine chunks_flatten (by decide) fun chunk hchunk => ?_
  obtain ⟨e, -, rfl⟩ := List.mem_map.mp hchunk
  exact length_record e

/-- Reading a count file back, the map has the entries of the file. -/
theorem fromBin_writeBin (idx : CountIndex) (order : IterOrder (UInt64 × UInt32)) :
    (fromBin (idx.writeBin order)).counts.entries = idx.iter order := by
  have hwhole : (((idx.iter order).map record).takeWhile fun chunk => chunk.length = 12) =
      (idx.iter order).map record := by
    refine List.takeWhile_eq_self_iff.mpr fun chunk hchunk => ?_
    obtain ⟨e, -, rfl⟩ := List.mem_map.mp hchunk
    exact decide_eq_true (length_record e)
  have hentries : ((idx.iter order).map record).map entryOf = idx.iter order := by
    rw [List.map_map]
    exact (List.map_congr_left fun e _ => entryOf_record e).trans (List.map_id _)
  have hkeys : ((idx.iter order).map Prod.fst).Nodup :=
    ((perm_iter idx order).map Prod.fst).nodup_iff.mpr idx.counts.nodup
  rw [fromBin, chunks_writeBin, hwhole, hentries]
  exact OrderedDict.entries_update_of_nodup hkeys

/-- The map that is read back has the counts of the index. -/
theorem get?_fromBin_writeBin (r : UInt64) :
    (fromBin (idx.writeBin order)).counts.get? r = idx.counts.get? r := by
  ext c
  rw [OrderedDict.get?_eq_some_iff, fromBin_writeBin, mem_iter]

/-- Indexes with the same counts, and no others, have the same file. -/
theorem writeBin_eq_iff :
    idx.writeBin order = idx'.writeBin order' ↔ ∀ r, idx.counts.get? r = idx'.counts.get? r := by
  constructor
  · intro h r
    rw [← get?_fromBin_writeBin, h, get?_fromBin_writeBin]
  · intro h
    rw [writeBin, writeBin, iter_congr h order order']

/-- Two indexes count a row id alike iff they have the same value for it, or none has one and the
other has 0. -/
theorem count_eq_iff {r : UInt64} :
    idx.count r = idx'.count r ↔ idx.counts.getD r 0 = idx'.counts.getD r 0 := by
  rw [count, count, ← UInt64.toNat_inj, UInt32.toNat_toUInt64, UInt32.toNat_toUInt64,
    UInt32.toNat_inj]

/-- Where no row id is counted zero times, indexes that answer alike have the same counts. -/
private theorem get?_eq_iff_count_eq (h : ∀ r, idx.counts.get? r ≠ some 0)
    (h' : ∀ r, idx'.counts.get? r ≠ some 0) :
    (∀ r, idx.counts.get? r = idx'.counts.get? r) ↔ ∀ r, idx.count r = idx'.count r := by
  refine forall_congr' fun r => ?_
  rw [count_eq_iff, OrderedDict.getD, OrderedDict.getD]
  have hr := h r
  have hr' := h' r
  cases hc : idx.counts.get? r with
  | none =>
    cases hc' : idx'.counts.get? r with
    | none => simp
    | some c' =>
      rw [hc'] at hr'
      simpa [eq_comm] using hr'
  | some c =>
    rw [hc] at hr
    cases hc' : idx'.counts.get? r with
    | none => simpa using hr
    | some c' => simp

/-- A count file reads back as the index that it was written from: every row id has its count, and
the entries are the same. They come once each, in strictly increasing order of the row ids. Two
indexes have the same file iff they have the same counts, whatever the order in which they were
filled and are visited; where no row id is counted zero times, iff they answer alike. -/
theorem countFile_canonical (idx : CountIndex) (order order' : IterOrder (UInt64 × UInt32)) :
    (∀ r, (fromBin (idx.writeBin order)).count r = idx.count r) ∧
      (fromBin (idx.writeBin order)).iter order' = idx.iter order ∧
      (idx.iter order).Pairwise (fun a b => a.1 < b.1) ∧
      (∀ e, e ∈ idx.iter order ↔ idx.counts.get? e.1 = some e.2) ∧
      ∀ idx' : CountIndex,
        (idx.writeBin order = idx'.writeBin order' ↔ ∀ r, idx.counts.get? r = idx'.counts.get? r) ∧
        ((∀ r, idx.counts.get? r ≠ some 0) → (∀ r, idx'.counts.get? r ≠ some 0) →
          (idx.writeBin order = idx'.writeBin order' ↔ ∀ r, idx.count r = idx'.count r)) := by
  refine ⟨fun r => ?_, iter_congr (fun r => get?_fromBin_writeBin r) order' order,
    pairwise_iter idx order, fun e => mem_iter, fun idx' => ⟨writeBin_eq_iff, fun h h' => ?_⟩⟩
  · rw [count_eq_iff, OrderedDict.getD, get?_fromBin_writeBin, OrderedDict.getD]
  · rw [writeBin_eq_iff, get?_eq_iff_count_eq h h']

/-- The answers alone do not determine the file. An index that was read from a record with the count
zero answers like the index of an empty file, but it is written with its record. -/
theorem not_canonical_of_zero_record :
    ¬ ∀ (idx idx' : CountIndex) (order : IterOrder (UInt64 × UInt32)),
      (∀ r, idx.count r = idx'.count r) → idx.writeBin order = idx'.writeBin order := by
  intro hcanonical
  have hread : fromBin (record (5, 0)) = ⟨OrderedDict.empty.set 5 0⟩ := rfl
  have halike : ∀ r, (fromBin (record (5, 0))).count r = (fromBin []).count r := by
    intro r
    rw [count_eq_iff, hread, OrderedDict.getD]
    by_cases hr : r = 5
    · rw [hr, OrderedDict.get?_set_self]
      rfl
    · rw [OrderedDict.get?_set_of_ne hr]
      rfl
  have hfiles := hcanonical _ _ (IterOrder.asPushed _) halike
  revert hfiles
  decide

end File

end CountIndex

end EngramDB
