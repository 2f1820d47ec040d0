import EngramDB.Foundations.OrderedDict
import EngramDB.SlotIndex.Build

/-!
# Looking up grams in a slot index

A reader loads the bucket of a gram, keeps the last loaded buckets in a small cache, and searches
the sorted records of the bucket for the gram. `contains_slot` tells whether one of the records of a
gram has a given slot, and fails if there is no record. `verify_from_keys_file` checks all grams of
a keys file in this way.

* `scanRecords_eq`: the answer of a scan depends on the slots of the records with the key alone;
* `Serves.containsSlot`, `Serves.lookups`: whatever the cache holds, a reader answers like the
  records in the files.
-/

namespace EngramDB

namespace SlotIndex

open SlotBuffer

/-- `as_str()`. -/
def JsonValue.asStr : JsonValue → Option String
  | .str s => some s
  | _ => none

/-- `as_u64()`. -/
def JsonValue.asU64 : JsonValue → Option ℕ
  | .num n => some n
  | _ => none

/-- The value of an option, or an error. -/
def orError {α : Type} (x : Option α) (message : String) : Except String α :=
  match x with
  | some a => .ok a
  | none => .error message

/-- A reader of an index. -/
structure DiskSlotIndexReader where
  /-- The directory. -/
  dir : IndexDir
  /-- Number of buckets. -/
  numBuckets : ℕ
  /-- Number of records. -/
  count : ℕ
  /-- The records of the loaded buckets, in the order in which they were loaded. -/
  cache : OrderedDict ℕ (List Bytes)
  /-- How many buckets are kept. -/
  cacheCapacity : ℕ
  /-- The data file and the offsets of the buckets, when there is one file for all buckets. -/
  single : Option (Bytes × List ℕ)

namespace DiskSlotIndexReader

/-- Open the files of layout `v3`: the data file and the offsets of its buckets. -/
def openSingle (dir : IndexDir) (numBuckets : ℕ) : Except String (Bytes × List ℕ) := do
  let dataFile ← orError dir.dataBin "No such file or directory (os error 2)"
  let offData ← orError dir.offsetsBin "No such file or directory (os error 2)"
  let offVec := (slots 8 offData).map LittleEndian.decode
  if offVec.length = numBuckets + 1 then return (dataFile, offVec)
  else throw s!"offsets.bin has {offVec.length} entries, expected {numBuckets + 1}"

/-- Open the files that the layout has besides those of the buckets. -/
def openLayout (dir : IndexDir) (format : String) (numBuckets : ℕ) :
    Except String (Option (Bytes × List ℕ)) :=
  if format = FORMAT_V2 then .ok none
  else if format = FORMAT_V3 then (openSingle dir numBuckets).map some
  else .error (s!"unsupported slot index format: {format} "
    ++ s!"(expected {FORMAT_V2} or {FORMAT_V3})")

/-- Open the index in a directory. -/
def openDir (dir : IndexDir) (cacheCapacity : ℕ) : Except String DiskSlotIndexReader := do
  let fields ← orError dir.indexJson s!"slot index not found: {dir.path}/index.json"
  let format ← orError ((fields.lookup "format").bind JsonValue.asStr) "index.json missing format"
  let numBuckets ← orError ((fields.lookup "num_buckets").bind JsonValue.asU64)
    "index.json missing num_buckets"
  let count ← orError ((fields.lookup "count").bind JsonValue.asU64) "index.json missing count"
  let single ← openLayout dir format numBuckets
  return { dir, numBuckets, count, cache := .empty, cacheCapacity := max cacheCapacity 1, single }

/-- Load the records of a bucket. A region that ends before it begins overflows. -/
def readBucket (r : DiskSlotIndexReader) (bucket : ℕ) : Outcome String (List Bytes) :=
  match r.single with
  | some (dataFile, offsets) => do
    let start ← Outcome.index offsets bucket
    let stop ← Outcome.index offsets (bucket + 1)
    -- nothing to read, so the file is not touched
    if start = stop then return []
    if stop < start then throw .panic
    if dataFile.length < stop then throw (.error "failed to fill whole buffer")
    return parseRecords (Bucketing.region dataFile start stop)
  | none =>
    match r.dir.buckets bucket with
    | some data => return parseRecords data
    | none => return []

/-- The records of a bucket, from the cache or loaded. A full cache drops its oldest bucket. -/
def records (r : DiskSlotIndexReader) (bucket : ℕ) :
    Outcome String (List Bytes × DiskSlotIndexReader) :=
  match r.cache.get? bucket with
  | some records => return (records, r)
  | none => do
    let records ← r.readBucket bucket
    let cache := if r.cacheCapacity ≤ r.cache.keys.length then r.cache.popFirst else r.cache
    return (records, { r with cache := cache.set bucket records })

/-- Look for a slot among the records with a key that stand in front. -/
def scanRecords (parts : List UInt64) (slot : ℕ) (foundAny : Bool) :
    List Bytes → Outcome String Bool
  | rec :: rest =>
    if recordKey rec = keyFromGram parts then
      if slotOfRecord rec = slot then .ok true else scanRecords parts slot true rest
    else if foundAny then .ok false else .error (.error s!"rowid tuple not found: {parts}")
  | [] => if foundAny then .ok false else .error (.error s!"rowid tuple not found: {parts}")

/-- Whether a gram is stored at a slot, and the reader afterwards. -/
def containsSlot (r : DiskSlotIndexReader) (parts : Gram) (slot : ℕ) :
    Outcome String Bool × DiskSlotIndexReader :=
  if r.numBuckets = 0 then (.error .panic, r)
  else
    let key := keyFromGram parts.1
    match r.records (bucketOf key r.numBuckets) with
    | .error e => (.error e, r)
    | .ok (records, r) =>
      let start := SortedSearch.partitionPoint (fun probe => decide (recordKey probe < key)) records
      (scanRecords parts.1 slot false (records.drop start), r)

/-- The answers to lookups that are made one after another. -/
def lookups : DiskSlotIndexReader → List (Gram × ℕ) → List (Outcome String Bool)
  | _, [] => []
  | r, (parts, slot) :: queries =>
    let (res, r) := r.containsSlot parts slot
    res :: lookups r queries

/-- The reader after lookups that are made one after another. -/
def after (r : DiskSlotIndexReader) (queries : List (Gram × ℕ)) : DiskSlotIndexReader :=
  queries.foldl (fun r q => (r.containsSlot q.1 q.2).2) r

end DiskSlotIndexReader

/-- State of a verification. -/
structure Verify where
  /-- The reader. -/
  reader : DiskSlotIndexReader
  /-- The row ids of the gram that is being read. -/
  parts : List UInt64
  /-- The slot of the gram that is being read. -/
  slot : ℕ
  /-- Number of grams that were found. -/
  verified : ℕ

/-- A verification at one line. -/
def verifyLine (st : Verify) (line : Except String (List Char)) : Outcome String Verify := do
  let s := Text.trim (← Outcome.ofExcept line)
  if s = [] then return st
  match Text.parseU64 s with
  | .error e => throw (.error e.message)
  | .ok v =>
    let parts := st.parts ++ [v]
    -- the gram is complete: its slot must be among those of the index
    if h : parts.length = HEADS then
      match st.reader.containsSlot ⟨parts, h⟩ st.slot with
      | (.error e, _) => throw e
      | (.ok false, _) =>
        throw (.error (s!"slot mismatch at gram {st.slot}: expected {st.slot}, "
          ++ "no matching record had that slot"))
      | (.ok true, reader) => return ⟨reader, [], st.slot + 1, st.verified + 1⟩
    else return { st with parts }

/-- Verify an index against a keys file: the number of its grams. -/
def verifyFromKeysFile (keys : KeysFile) (dir : IndexDir) (cacheCapacity : ℕ) :
    Outcome String ℕ := do
  let reader ← Outcome.ofExcept (DiskSlotIndexReader.openDir dir cacheCapacity)
  let lines ← Outcome.ofExcept keys
  let st ← lines.foldlM verifyLine ⟨reader, [], 0, 0⟩
  if st.parts ≠ [] then throw (.error "keys file has incomplete rowid tuple")
  if st.verified ≠ st.reader.count then
    throw (.error s!"slot index count {st.reader.count} != keys file count {st.verified}")
  return st.verified

/-- The slots of a gram, when bucket `b` holds the records `content b`. -/
def slotsOf (content : ℕ → List Bytes) (numBuckets : ℕ) (parts : List UInt64) : List ℕ :=
  (matching (content (bucketOf (keyFromGram parts) numBuckets)) (keyFromGram parts)).map
    slotOfRecord

/-- The answer to a lookup of a gram that has the given slots. -/
def answer (gramSlots : List ℕ) (parts : List UInt64) (slot : ℕ) : Outcome String Bool :=
  if gramSlots = [] then .error (.error s!"rowid tuple not found: {parts}")
  else .ok (decide (slot ∈ gramSlots))

section Answers

variable {parts : List UInt64} {slot : ℕ}

/-- A scan that has already seen a record with the key. -/
private theorem scanRecords_true (records : List Bytes) :
    DiskSlotIndexReader.scanRecords parts slot true records =
      .ok (decide (slot ∈ (records.takeWhile
        fun rec => decide (recordKey rec = keyFromGram parts)).map slotOfRecord)) := by
  induction records with
  | nil => rfl
  | cons rec rest ih =>
    rw [DiskSlotIndexReader.scanRecords, List.takeWhile_cons]
    by_cases hkey : recordKey rec = keyFromGram parts
    · simp only [hkey, if_true, decide_true, List.map_cons, List.mem_cons]
      by_cases hslot : slotOfRecord rec = slot
      · simp [hslot]
      · simp [hslot, ih, Ne.symm hslot]
    · simp [hkey]

/-- A scan answers by the slots of the records with the key that stand in front. -/
theorem scanRecords_eq (records : List Bytes) :
    DiskSlotIndexReader.scanRecords parts slot false records =
      answer ((records.takeWhile
        fun rec => decide (recordKey rec = keyFromGram parts)).map slotOfRecord) parts slot := by
  cases records with
  | nil => rfl
  | cons rec rest =>
    rw [DiskSlotIndexReader.scanRecords, List.takeWhile_cons, scanRecords_true]
    by_cases hkey : recordKey rec = keyFromGram parts
    · simp only [hkey, if_true, decide_true, List.map_cons, answer, List.mem_cons, reduceCtorEq,
        if_false]
      by_cases hslot : slotOfRecord rec = slot
      · simp [hslot]
      · simp [hslot, Ne.symm hslot]
    · simp [hkey, answer]

end Answers

section Serves

variable {r : DiskSlotIndexReader} {numBuckets : ℕ} {content : ℕ → List Bytes}

/-- The files of a reader hold the records `content` in its buckets, and so does its cache. -/
structure Serves (r : DiskSlotIndexReader) (numBuckets : ℕ) (content : ℕ → List Bytes) : Prop where
  numBuckets_eq : r.numBuckets = numBuckets
  numBuckets_pos : 0 < numBuckets
  readBucket_eq : ∀ b < numBuckets, r.readBucket b = .ok (content b)
  sorted : ∀ b < numBuckets, (content b).Pairwise (· ≤ ·)
  agrees : r.cache.Agrees content

/-- The records of a bucket are found in the cache or loaded, whatever is in the cache. -/
theorem Serves.records (h : Serves r numBuckets content) {b : ℕ} (hb : b < numBuckets) :
    ∃ r', r.records b = .ok (content b, r') ∧ r'.count = r.count ∧
      Serves r' numBuckets content := by
  rw [DiskSlotIndexReader.records]
  cases hget : r.cache.get? b with
  | some records =>
    exact ⟨r, by rw [h.agrees.eq_of_get? hget]; rfl, rfl, h⟩
  | none =>
    refine ⟨_, Except.bind_eq_ok_iff.mpr ⟨content b, h.readBucket_eq b hb, rfl⟩, rfl,
      h.numBuckets_eq, h.numBuckets_pos, h.readBucket_eq, h.sorted, ?_⟩
    refine OrderedDict.Agrees.set ?_ b
    split_ifs
    · exact h.agrees.popFirst
    · exact h.agrees

/-- A lookup of a slot answers by the records in the files (`h`), and leaves a reader that serves
them. -/
theorem Serves.containsSlot (h : Serves r numBuckets content) (parts : Gram) (slot : ℕ) :
    ∃ r', r.containsSlot parts slot =
        (answer (slotsOf content numBuckets parts.1) parts.1 slot, r') ∧
      r'.count = r.count ∧ Serves r' numBuckets content := by
  have hbucket := bucketOf_lt (keyFromGram parts.1) h.numBuckets_pos
  obtain ⟨r', hrecords, hcount, hserves⟩ := h.records hbucket
  refine ⟨r', ?_, hcount, hserves⟩
  rw [DiskSlotIndexReader.containsSlot, h.numBuckets_eq,
    if_neg (Nat.pos_iff_ne_zero.mp h.numBuckets_pos)]
  simp only [hrecords]
  rw [scanRecords_eq, takeWhile_drop_partitionPoint_key (h.sorted _ hbucket), slotsOf]

/-- A gram is found at the slots of its records. -/
theorem Serves.containsSlot_eq_ok_true_iff (h : Serves r numBuckets content)
    (parts : Gram) (slot : ℕ) :
    (r.containsSlot parts slot).1 = .ok true ↔ slot ∈ slotsOf content numBuckets parts.1 := by
  obtain ⟨r', hres, -⟩ := h.containsSlot parts slot
  rw [hres, answer]
  by_cases hnil : slotsOf content numBuckets parts.1 = []
  · simp [hnil]
  · simp [hnil]

/-- Lookups leave the files as they are, so that a reader that serves some buckets (`h`) serves them
afterwards. -/
theorem Serves.after (h : Serves r numBuckets content) (queries : List (Gram × ℕ)) :
    Serves (r.after queries) numBuckets content := by
  induction queries generalizing r with
  | nil => exact h
  | cons q queries ih =>
    obtain ⟨r', hres, -, h'⟩ := h.containsSlot q.1 q.2
    refine ih ?_
    show Serves (r.containsSlot q.1 q.2).2 numBuckets content
    rw [hres]
    exact h'

/-- Lookups answer by the records in the files, in whatever order they are made. -/
theorem Serves.lookups (h : Serves r numBuckets content) (queries : List (Gram × ℕ)) :
    r.lookups queries =
      queries.map fun q => answer (slotsOf content numBuckets q.1.1) q.1.1 q.2 := by
  induction queries generalizing r with
  | nil => rfl
  | cons q queries ih =>
    obtain ⟨r', hres, -, h'⟩ := h.containsSlot q.1 q.2
    rw [DiskSlotIndexReader.lookups, hres, List.map_cons]
    exact congrArg _ (ih h')

end Serves

end SlotIndex

end EngramDB
