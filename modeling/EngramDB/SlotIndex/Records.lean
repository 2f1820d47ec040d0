import EngramDB.Core.Layout
import EngramDB.Foundations.LittleEndian
import EngramDB.Foundations.Slots
import EngramDB.Foundations.SortedSearch
import Mathlib.Data.List.Lex

/-!
# Records of a slot index

A slot index finds the physical slots of a gram, which is a tuple of sixteen row ids. A record is
the gram, sixteen numbers of eight bytes, and the slot behind them. Records are ordered by their
bytes and distributed over buckets by the hash of their gram.

* `keyFromGram_injective`: a gram is determined by its bytes;
* `mem_matching_sortRecords`: sorting records changes neither which of them have a key nor their
  slots;
* `takeWhile_drop_partitionPoint_key`: the records of a key in a sorted bucket are those from the
  partition point on, as long as they have the key.
-/

namespace EngramDB

/-- Bytes are ordered by their values. -/
instance instLinearOrderUInt8 : LinearOrder UInt8 where
  le_refl := UInt8.le_refl
  le_trans _ _ _ := UInt8.le_trans
  le_antisymm _ _ := UInt8.le_antisymm
  le_total := UInt8.le_total
  lt_iff_le_not_ge a b := by
    simp only [UInt8.le_iff_toNat_le, UInt8.lt_iff_toNat_lt]
    omega
  toDecidableLE := inferInstance

/-- FNV-1a hash of a byte string. -/
def fnv64 (bytes : Bytes) : UInt64 :=
  bytes.foldl (fun h b => (h ^^^ b.toUInt64) * 0x100000001b3) 0xcbf29ce484222325

namespace SlotIndex

open SlotBuffer

def FORMAT_V2 : String := "engramdb-disk-slot-index-v2"
def FORMAT_V3 : String := "engramdb-disk-slot-index-v3"
def HEADS : ℕ := 16
def RECORD_BYTES : ℕ := HEADS * 8 + 8
def DEFAULT_CACHE_BUCKETS : ℕ := 64

/-- A tuple of sixteen row ids. -/
abbrev Gram := { parts : List UInt64 // parts.length = HEADS }

/-- The bytes of a gram. -/
def keyFromGram (parts : List UInt64) : Bytes :=
  parts.flatMap fun v => LittleEndian.encode 8 v.toNat

/-- The bucket of a key. -/
def bucketOf (key : Bytes) (numBuckets : ℕ) : ℕ := (fnv64 key).toNat % numBuckets

/-- The first bytes of a record: its gram. -/
def recordKey (rec : Bytes) : Bytes := rec.take (HEADS * 8)

/-- The last bytes of a record: its slot. -/
def slotOfRecord (rec : Bytes) : ℕ := LittleEndian.decode (rec.drop (HEADS * 8))

/-- The complete records of a byte string. -/
def parseRecords (data : Bytes) : List Bytes := slots RECORD_BYTES data

/-- Records in the order of their bytes. -/
def sortRecords (records : List Bytes) : List Bytes := records.insertionSort (· ≤ ·)

/-- The record of a gram at a slot. -/
def record (parts : List UInt64) (slot : ℕ) : Bytes :=
  keyFromGram parts ++ LittleEndian.encode 8 slot

/-- The records of grams that are stored one after another from slot `0` on. -/
def recordsOf (grams : List (List UInt64)) : List Bytes :=
  grams.zipIdx.map fun g => record g.1 g.2

/-- The records with a key. -/
def matching (records : List Bytes) (key : Bytes) : List Bytes :=
  records.filter fun rec => recordKey rec = key

section Keys

/-- The key of a gram has eight bytes for each of its parts. -/
theorem length_keyFromGram (parts : List UInt64) :
    (keyFromGram parts).length = parts.length * 8 := by
  rw [keyFromGram, List.flatMap_def, length_flatten (w := 8), List.length_map]
  intro p hp
  obtain ⟨v, -, rfl⟩ := List.mem_map.mp hp
  exact LittleEndian.length_encode 8 v.toNat

/-- A gram is determined by its bytes. -/
theorem keyFromGram_injective : Function.Injective keyFromGram := by
  intro parts parts' h
  have hwide : ∀ ps : List UInt64, ∀ p ∈ ps.map fun v => LittleEndian.encode 8 v.toNat,
      p.length = 8 := by
    intro ps p hp
    obtain ⟨v, -, rfl⟩ := List.mem_map.mp hp
    exact LittleEndian.length_encode 8 v.toNat
  have hcut := congrArg (slots 8) h
  rw [keyFromGram, keyFromGram, List.flatMap_def, List.flatMap_def,
    slots_flatten (by decide) (hwide parts), slots_flatten (by decide) (hwide parts')] at hcut
  refine List.map_injective_iff.mpr (fun v v' hv => ?_) hcut
  exact UInt64.toNat_inj.mp (LittleEndian.encode_injOn v.toNat_lt v'.toNat_lt hv)

/-- A key goes to one of the buckets, if there are any. -/
theorem bucketOf_lt (key : Bytes) {numBuckets : ℕ} (h : 0 < numBuckets) :
    bucketOf key numBuckets < numBuckets :=
  Nat.mod_lt _ h

end Keys

section Records

variable {parts : List UInt64} {slot : ℕ} {grams : List (List UInt64)} {rec : Bytes}

/-- The record of a gram with all its heads has the length of a record. -/
theorem length_record (h : parts.length = HEADS) : (record parts slot).length = RECORD_BYTES := by
  rw [record, List.length_append, length_keyFromGram, LittleEndian.length_encode, h]
  rfl

/-- The key of the record of a gram with all its heads is the key of the gram. -/
theorem recordKey_record (h : parts.length = HEADS) :
    recordKey (record parts slot) = keyFromGram parts := by
  rw [recordKey, record, List.take_left' (by rw [length_keyFromGram, h])]

/-- The slot of the record of a gram with all its heads is the one that was written, if it fits into
a word. -/
theorem slotOfRecord_record (h : parts.length = HEADS) (hslot : slot < 2 ^ 64) :
    slotOfRecord (record parts slot) = slot := by
  rw [slotOfRecord, record, List.drop_left' (by rw [length_keyFromGram, h]),
    LittleEndian.decode_encode_of_lt hslot]

/-- The records of a list of grams are the records of its grams, each with its place in the list. -/
theorem mem_recordsOf :
    rec ∈ recordsOf grams ↔ ∃ s parts, grams[s]? = some parts ∧ rec = record parts s := by
  rw [recordsOf, List.mem_map]
  constructor
  · rintro ⟨⟨parts, s⟩, hmem, rfl⟩
    exact ⟨s, parts, List.mem_zipIdx_iff_getElem?.mp hmem, rfl⟩
  · rintro ⟨s, parts, hs, rfl⟩
    exact ⟨(parts, s), List.mem_zipIdx_iff_getElem?.mpr hs, rfl⟩

/-- There is one record for each gram. -/
@[simp]
theorem length_recordsOf : (recordsOf grams).length = grams.length := by
  rw [recordsOf, List.length_map, List.length_zipIdx]

/-- One more gram appends one record, whose slot is the number of grams before it. -/
theorem recordsOf_append_singleton :
    recordsOf (grams ++ [parts]) = recordsOf grams ++ [record parts grams.length] := by
  simp [recordsOf, List.zipIdx_append]

/-- All records of grams with all their heads have the length of a record. -/
theorem length_of_mem_recordsOf (hgrams : ∀ g ∈ grams, g.length = HEADS)
    (h : rec ∈ recordsOf grams) : rec.length = RECORD_BYTES := by
  obtain ⟨s, parts, hs, rfl⟩ := mem_recordsOf.mp h
  exact length_record (hgrams parts (List.mem_of_getElem? hs))

/-- Records of the right length that are written one after another are parsed back. -/
theorem parseRecords_flatten {records : List Bytes}
    (h : ∀ rec ∈ records, rec.length = RECORD_BYTES) : parseRecords records.flatten = records :=
  slots_flatten (by decide) h

/-- Every record that is parsed has the length of a record. -/
theorem length_of_mem_parseRecords {data : Bytes} (h : rec ∈ parseRecords data) :
    rec.length = RECORD_BYTES :=
  length_of_mem_slots h

end Records

section Sorting

variable {records : List Bytes} {rec key : Bytes}

/-- Sorting rearranges the records. -/
theorem perm_sortRecords (records : List Bytes) : (sortRecords records).Perm records :=
  List.perm_insertionSort _ _

/-- Sorting neither adds nor drops a record. -/
theorem mem_sortRecords : rec ∈ sortRecords records ↔ rec ∈ records :=
  (perm_sortRecords records).mem_iff

/-- Sorted records ascend. -/
theorem pairwise_sortRecords (records : List Bytes) : (sortRecords records).Pairwise (· ≤ ·) :=
  List.pairwise_insertionSort _ _

/-- A record is smaller than a key iff its own key is. -/
theorem lt_key_iff (hrec : rec.length = RECORD_BYTES) (hkey : key.length = HEADS * 8) :
    rec < key ↔ recordKey rec < key := by
  rw [recordKey, ← hkey]
  exact SortedSearch.lt_iff_take_lt (by rw [hrec, hkey]; decide)

/-- In sorted records, those of a key are the ones from the partition point on, as long as they have
the key. -/
theorem takeWhile_drop_partitionPoint_key (hsort : records.Pairwise (· ≤ ·)) :
    (records.drop
      (SortedSearch.partitionPoint (fun rec => decide (recordKey rec < key)) records)).takeWhile
        (fun rec => decide (recordKey rec = key)) = matching records key :=
  SortedSearch.takeWhile_drop_partitionPoint
    (hsort.imp fun h => not_lt.mp fun hlt =>
      not_lt_of_ge h (SortedSearch.lt_of_take_lt_take (HEADS * 8) hlt)) key

end Sorting

end SlotIndex

end EngramDB
