import EngramDB.Foundations.Chunks
import EngramDB.Python.Basic
import EngramDB.SlotIndex.Denotes

/-!
# The slot index of the Python package

`DiskSlotIndex` writes and reads the directories of a slot index. A record is a row tuple and its
slot, and a tuple is hashed to a bucket, with BLAKE2b or with the FNV-1a hash of the native index.
The build streams the tuples twice, to count the records of the buckets and to place them, then
sorts every bucket. The buckets have a file each, or one file for all of them. A lookup loads the
bucket of a tuple, keeps the buckets that were used last in a cache, and bisects the records.

The digest of BLAKE2b is a parameter. Temporary files are left out, and so are the statistics.

* `rowKey_tuple`: a tuple of numbers of 64 bits has the key that the native index gives it;
* `fnv1a_eq`: both FNV-1a hashes agree;
* `Serves.lookupAll`: whatever the cache holds, a lookup answers by the records in the files.
-/

namespace EngramDB

open SlotBuffer Bucketing Chunking SlotIndex

namespace Py

/-- `struct.pack("<Q", x)`. -/
def packU64 (x : ℤ) : Py Bytes :=
  if 0 ≤ x ∧ x < 2 ^ 64 then .ok (LittleEndian.encode 8 x.toNat) else .error .structError

/-- `numpy.zeros(n, dtype=int64)`. -/
def zeros (n : ℕ) : Py (List ℕ) :=
  if 2 ^ 63 ≤ n then .error (.valueError "Maximum allowed dimension exceeded")
  else if 2 ^ 63 ≤ n * 8 then
    .error (.valueError ("array is too big; `arr.size * arr.dtype.itemsize` is larger than the "
      ++ "maximum possible size."))
  else .ok (List.replicate n 0)

/-- The first of the slots that were found. -/
def firstSlot {α : Type} : List α → Py α
  | [] => .error .keyError
  | slot :: _ => .ok slot

end Py

namespace SlotIndex.JsonValue

/-- `str(x)` of a value that `dict.get` gives. -/
def pyStr : Option JsonValue → String
  | some (.str s) => s
  | some (.num n) => toString n
  | some (.bool b) => if b then "True" else "False"
  | none => "None"

/-- `int(x)`. The builders write no number as a string. -/
def toInt : JsonValue → Py ℕ
  | .num n => .ok n
  | .bool b => .ok (if b then 1 else 0)
  | .str s => .error (.valueError s!"invalid literal for int() with base 10: '{s}'")

end SlotIndex.JsonValue

/-- An open index. -/
structure DiskSlotIndex where
  /-- The directory. -/
  directory : IndexDir
  /-- The layout. -/
  format : String
  /-- The hash that gives a tuple its bucket. -/
  hashName : String
  /-- Row ids of a tuple. -/
  heads : ℕ
  /-- Number of buckets. -/
  numBuckets : ℕ
  /-- Number of records. -/
  count : ℕ
  /-- How many buckets are kept. -/
  cacheBuckets : ℕ
  /-- The records of the buckets that were used last. -/
  cache : OrderedDict ℕ (List Bytes)
  /-- Whether the index was closed. -/
  closed : Bool
  /-- `data.bin`, for the layout with one file. -/
  dataFile : Option Bytes
  /-- The offsets of the buckets in this file. -/
  offsets : Option (List ℕ)

namespace DiskSlotIndex

def FORMAT : String := "engramdb-disk-slot-index-v1"
def FORMAT_V2 : String := "engramdb-disk-slot-index-v2"
def FORMAT_V3 : String := "engramdb-disk-slot-index-v3"
def RECORD_BYTES : ℕ := 16 * 8 + 8
def FNV_OFFSET : ℕ := 0xCBF29CE484222325
def FNV_PRIME : ℕ := 0x100000001B3

/-- The bytes of a tuple. -/
def rowKey (row : List ℤ) : Py Bytes := do
  if row.length ≠ 16 then throw .structError
  return (← row.mapM Py.packU64).flatten

/-- The FNV-1a hash of a key. -/
def fnv1a (key : Bytes) : ℕ :=
  key.foldl (fun h b => ((h ^^^ b.toNat) * FNV_PRIME) &&& 0xFFFFFFFFFFFFFFFF) FNV_OFFSET

/-- The bucket of a key under FNV-1a. -/
def fnv1aBucket (key : Bytes) (numBuckets : ℕ) : Py ℕ := Py.modNat (fnv1a key) numBuckets

/-- The bucket of a key. -/
def bucketId (blake2b : Bytes → Bytes) (key : Bytes) (numBuckets : ℕ) (hashName : String) : Py ℕ :=
  if hashName = "fnv1a-64" then fnv1aBucket key numBuckets
  else Py.modNat (LittleEndian.decode (blake2b key)) numBuckets

/-! ### Opening -/

/-- `meta[key]`. -/
def metaItem (fields : List (String × JsonValue)) (key : String) : Py JsonValue :=
  match fields.lookup key with
  | some v => .ok v
  | none => .error .keyError

/-- The files of the layout with one file: the data file and the offsets. -/
def openSingle (directory : IndexDir) (numBuckets : ℕ) : Py (Bytes × List ℕ) := do
  let some data := directory.dataBin
    | throw (.osError s!"[Errno 2] No such file or directory: '{directory.path}/data.bin'")
  let some offData := directory.offsetsBin
    | throw (.osError s!"[Errno 2] No such file or directory: '{directory.path}/offsets.bin'")
  if offData.length % 8 ≠ 0 then
    throw (.valueError "offsets.bin size is not a multiple of 8")
  let offsets := (chunks 8 offData).map LittleEndian.decode
  if offsets.length ≠ numBuckets + 1 then
    throw (.valueError s!"offsets.bin has {offsets.length} entries, expected {numBuckets + 1}")
  return (data, offsets)

/-- Open the index in a directory. -/
def openDir (directory : IndexDir) (cacheBuckets : ℤ) : Py DiskSlotIndex := do
  let some fields := directory.indexJson
    | throw (.osError s!"disk slot index not found: {directory.path}/index.json")
  let fmt := fields.lookup "format"
  if fmt ∉ [some (.str FORMAT), some (.str FORMAT_V2), some (.str FORMAT_V3)] then
    throw (.valueError s!"unsupported disk slot index format: {JsonValue.pyStr fmt}")
  -- `hash` is the only field with a default
  let hashName := JsonValue.pyStr (some ((fields.lookup "hash").getD (.str "blake2b")))
  let heads ← (← metaItem fields "heads").toInt
  let numBuckets ← (← metaItem fields "num_buckets").toInt
  let count ← (← metaItem fields "count").toInt
  let self : DiskSlotIndex :=
    { directory, format := JsonValue.pyStr fmt, hashName, heads, numBuckets, count
      cacheBuckets := (max 1 cacheBuckets).toNat
      cache := .empty, closed := false, dataFile := none, offsets := none }
  -- only the single file is opened here, a bucket file when it is read
  if fmt = some (.str FORMAT_V3) then
    let (data, offsets) ← openSingle directory numBuckets
    return { self with dataFile := some data, offsets := some offsets }
  else return self

/-! ### Building -/

/-- The slot of tuple number `i`. -/
def slotOf (slots : Option (List ℤ)) (i : ℕ) : Py ℤ :=
  match slots with
  | none => .ok i
  | some slots =>
    match slots[i]? with
    | some slot => .ok slot
    | none => .error .stopIteration

/-- State of the first pass. -/
structure Counting where
  /-- `raw.bin`. -/
  raw : Bytes
  /-- Records of each bucket. -/
  counts : List ℕ
  /-- Number of records. -/
  count : ℕ

/-- The first pass at one tuple. A file that gets too large is noticed when its buffer is
written. -/
def countRow (blake2b : Bytes → Bytes) (numBuckets : ℕ) (hashName : String)
    (slots : Option (List ℤ)) (st : Counting) (row : List ℤ) : Py Counting := do
  let key ← rowKey row
  let slot ← slotOf slots st.count
  let bucket ← bucketId blake2b key numBuckets hashName
  let record := key ++ (← Py.packU64 slot)
  if maxFileBytes < st.raw.length + record.length then throw (.osError "[Errno 27] File too large")
  return {
    raw := st.raw ++ record
    counts := st.counts.modify bucket (· + 1)
    count := st.count + 1 }

/-- The second pass at one record: it is placed in the region of its bucket. -/
def placeRecord (blake2b : Bytes → Bytes) (numBuckets : ℕ) (hashName : String) (offsets : List ℕ)
    (st : Scatter UInt8) (record : Bytes) : Py (Scatter UInt8) := do
  let bucket ← bucketId blake2b (record.take 128) numBuckets hashName
  let pos := offsets.getD bucket 0 + st.cursors.getD bucket 0 * RECORD_BYTES
  return { buffer := store st.buffer pos record, cursors := st.cursors.modify bucket (· + 1) }

/-- The sorted records of a region, one after another. -/
def sortedRecords (grouped : Bytes) (start stop : ℕ) : Bytes :=
  (sortRecords (chunks RECORD_BYTES (region grouped start stop))).flatten

/-- Write the file of one bucket. -/
def writeBucket (offsets : List ℕ) (grouped : Bytes) (files : ℕ → Option Bytes) (bucket : ℕ) :
    ℕ → Option Bytes :=
  let start := offsets.getD bucket 0
  let stop := offsets.getD (bucket + 1) 0
  if start = stop then files
  else Function.update files bucket (some (sortedRecords grouped start stop))

/-- Write one bucket to the data file: the file and the offsets written so far. -/
def appendBucket (offsets : List ℕ) (grouped : Bytes) (out : Bytes × List ℕ) (bucket : ℕ) :
    Bytes × List ℕ :=
  let start := offsets.getD bucket 0
  let stop := offsets.getD (bucket + 1) 0
  let last := out.2.getLast?.getD 0
  if start = stop then (out.1, out.2 ++ [last])
  else
    let buf := sortedRecords grouped start stop
    (out.1 ++ buf, out.2 ++ [last + buf.length])

/-- The layout of an index. -/
def formatOf (hashName : String) (singleFile : Bool) : String :=
  if singleFile then FORMAT_V3 else if hashName = "fnv1a-64" then FORMAT_V2 else FORMAT

/-- The fields of `index.json`. -/
def metaOf (heads numBuckets count cacheBuckets : ℕ) (hashName : String) (singleFile : Bool) :
    List (String × JsonValue) :=
  [("format", .str (formatOf hashName singleFile)),
    ("hash", .str hashName),
    ("heads", .num heads),
    ("num_buckets", .num numBuckets),
    ("count", .num count),
    ("record_bytes", .num RECORD_BYTES),
    ("cache_buckets", .num cacheBuckets),
    ("single_file", .bool singleFile)]

/-- Both passes: the number of records, the offsets of the buckets and the placed records. -/
def groupRows (blake2b : Bytes → Bytes) (rowids : List (List ℤ)) (numBuckets : ℕ)
    (slots : Option (List ℤ)) (hashName : String) : Py (ℕ × List ℕ × Bytes) := do
  let st ← rowids.foldlM (countRow blake2b numBuckets hashName slots)
    ⟨[], ← Py.zeros numBuckets, 0⟩
  let _ ← Py.zeros (numBuckets + 1)
  let offsets := Bucketing.offsets (st.counts.map (· * RECORD_BYTES))
  let grouped ← (chunks RECORD_BYTES st.raw).foldlM
    (placeRecord blake2b numBuckets hashName offsets)
    ⟨List.replicate (offsets.getD numBuckets 0) 0, ← Py.zeros numBuckets⟩
  return (st.count, offsets, grouped.buffer)

/-- Write the buckets and the description. -/
def writeIndex (heads numBuckets cacheBuckets : ℕ) (hashName : String) (singleFile : Bool)
    (count : ℕ) (offsets : List ℕ) (grouped : Bytes) (outputDir : IndexDir) : IndexDir :=
  let dir :=
    if singleFile then
      let (data, dataOffsets) :=
        (List.range numBuckets).foldl (appendBucket offsets grouped) ([], [0])
      -- the files of the other layout are left as they are
      { outputDir with
        dataBin := some data
        offsetsBin := some (dataOffsets.flatMap (LittleEndian.encode 8)) }
    else
      { outputDir with
        buckets := (List.range numBuckets).foldl (writeBucket offsets grouped) outputDir.buckets }
  -- the description comes last
  { dir with
    indexJson := some (metaOf heads numBuckets count cacheBuckets hashName singleFile) }

/-- Build an index into a directory: the index, which is opened, and the directory afterwards. -/
def build (blake2b : Bytes → Bytes) (rowids : List (List ℤ)) (outputDir : IndexDir)
    (heads numBuckets cacheBuckets : ℕ) (slots : Option (List ℤ)) (hashName : String)
    (singleFile : Bool) : Py DiskSlotIndex × IndexDir :=
  if heads ≠ 16 then
    -- `NotImplementedError` is a `RuntimeError`
    (.error (.runtimeError "DiskSlotIndex currently supports heads=16"), outputDir)
  else if hashName ∉ ["blake2b", "fnv1a-64"] then
    (.error (.valueError s!"unsupported hash_name: {hashName}"), outputDir)
  else
    match groupRows blake2b rowids numBuckets slots hashName with
    | .error e => (.error e, outputDir)
    | .ok (count, offsets, grouped) =>
      let dir := writeIndex heads numBuckets cacheBuckets hashName singleFile count offsets grouped
        outputDir
      (openDir dir cacheBuckets, dir)

/-! ### Lookups -/

/-- `file.read(stop - start)` at the position `start`: a negative size reads all that is there. -/
def readAt (file : Bytes) (start stop : ℕ) : Bytes :=
  if stop < start then file.drop start else region file start stop

/-- The records of a bucket in the files, if it has a file. -/
def readBucket (self : DiskSlotIndex) (bucket : ℕ) : Py (Option (List Bytes)) :=
  match self.offsets, self.dataFile with
  | some offsets, some dataFile => do
    let start ← Py.item offsets bucket
    let stop ← Py.item offsets (bucket + 1)
    if start = stop then return some []
    return some (chunks RECORD_BYTES (readAt dataFile start stop))
  | _, _ => return (self.directory.buckets bucket).map (chunks RECORD_BYTES)

/-- The records of a bucket, from the cache or loaded. A bucket without a file is not kept. -/
def loadBucket (bucket : ℕ) : PyM DiskSlotIndex (List Bytes) := fun self =>
  match self.cache.get? bucket with
  | some records => (.ok records, { self with cache := self.cache.moveToEnd bucket })
  | none =>
    match self.readBucket bucket with
    | .error e => (.error e, self)
    | .ok none => (.ok [], self)
    | .ok (some records) =>
      let cache := self.cache.set bucket records
      (.ok records, { self with
        cache := if self.cacheBuckets < cache.keys.length then cache.popFirst else cache })

/-- `bisect.bisect_left(records, key)`. -/
def bisectLeft (records : List Bytes) (key : Bytes) : ℕ :=
  SortedSearch.partitionPoint (fun rec => decide (rec < key)) records

/-- The key of a row, and the records of its bucket from the place of the key on. -/
def probe (blake2b : Bytes → Bytes) (row : List ℤ) : PyM DiskSlotIndex (Bytes × List Bytes) := do
  let self ← get
  if self.closed then throw (.valueError "DiskSlotIndex is closed")
  let key ← PyM.lift (rowKey row)
  let bucket ← PyM.lift (bucketId blake2b key self.numBuckets self.hashName)
  let records ← loadBucket bucket
  return (key, records.drop (bisectLeft records key))

/-- A slot of a row. -/
def lookup (blake2b : Bytes → Bytes) (row : List ℤ) : PyM DiskSlotIndex ℕ := do
  let (key, records) ← probe blake2b row
  match records with
  | rec :: _ => if key.isPrefixOf rec then return slotOfRecord rec else throw .keyError
  | [] => throw .keyError

/-- All slots of a row. -/
def lookupAll (blake2b : Bytes → Bytes) (row : List ℤ) : PyM DiskSlotIndex (List ℕ) := do
  let (key, records) ← probe blake2b row
  let out := (records.takeWhile key.isPrefixOf).map slotOfRecord
  if out = [] then throw .keyError
  return out

/-- A lookup. -/
inductive Call where
  /-- `lookup(row)`. -/
  | lookup (row : List ℤ)
  /-- `lookup_all(row)`. -/
  | lookupAll (row : List ℤ)

/-- The index after a lookup. -/
def Call.run (blake2b : Bytes → Bytes) (self : DiskSlotIndex) : Call → DiskSlotIndex
  | .lookup row => (DiskSlotIndex.lookup blake2b row self).2
  | .lookupAll row => (DiskSlotIndex.lookupAll blake2b row self).2

/-- The index after lookups, one after another. -/
def after (blake2b : Bytes → Bytes) (self : DiskSlotIndex) (calls : List Call) : DiskSlotIndex :=
  calls.foldl (Call.run blake2b) self

/-- Close the index. -/
def close (self : DiskSlotIndex) : DiskSlotIndex :=
  { self with dataFile := none, cache := .empty, closed := true }

/-! ### Keys -/

/-- The tuple of a gram. -/
def tupleOf (parts : Gram) : List ℤ := parts.1.map fun v => (v.toNat : ℤ)

theorem packU64_natCast {n : ℕ} (h : n < 2 ^ 64) :
    Py.packU64 n = .ok (LittleEndian.encode 8 n) := by
  rw [Py.packU64, if_pos ⟨Int.natCast_nonneg n, by exact_mod_cast h⟩, Int.toNat_natCast]

/-- A tuple of numbers of 64 bits has the key that the native index gives it. -/
theorem rowKey_tupleOf (parts : Gram) : rowKey (tupleOf parts) = .ok (keyFromGram parts.1) := by
  have hpack : ∀ l : List UInt64, (l.map fun v => (v.toNat : ℤ)).mapM Py.packU64 =
      (.ok (l.map fun v => LittleEndian.encode 8 v.toNat) : Py (List Bytes)) := by
    intro l
    induction l with
    | nil => rfl
    | cons v l ih => rw [List.map_cons, List.mapM_cons, packU64_natCast v.toNat_lt, ih]; rfl
  have hlength : (tupleOf parts).length = 16 := by
    rw [tupleOf, List.length_map, parts.2]
    rfl
  rw [rowKey, if_neg (not_not.mpr hlength), tupleOf, hpack, keyFromGram, List.flatMap_def]
  rfl

/-- The hash of a key on numbers is the hash on words. -/
theorem fnv1a_eq (key : Bytes) : fnv1a key = (fnv64 key).toNat := by
  have hstep : ∀ (h : UInt64) (b : UInt8),
      ((h.toNat ^^^ b.toNat) * FNV_PRIME) &&& 0xFFFFFFFFFFFFFFFF =
        ((h ^^^ b.toUInt64) * 0x100000001b3).toNat := by
    intro h b
    have hmask : (0xFFFFFFFFFFFFFFFF : ℕ) = 2 ^ 64 - 1 := by decide
    rw [hmask, Nat.and_two_pow_sub_one_eq_mod, UInt64.toNat_mul, UInt64.toNat_xor,
      UInt8.toNat_toUInt64]
    rfl
  suffices hfold : ∀ h : UInt64,
      key.foldl (fun h b => ((h ^^^ b.toNat) * FNV_PRIME) &&& 0xFFFFFFFFFFFFFFFF) h.toNat =
        (key.foldl (fun h b => (h ^^^ b.toUInt64) * 0x100000001b3) h).toNat from
    hfold 0xcbf29ce484222325
  induction key with
  | nil => intro _; rfl
  | cons b key ih => intro h; rw [List.foldl_cons, List.foldl_cons, hstep, ih]

/-- The number that gives a key its bucket. -/
def hashOf (blake2b : Bytes → Bytes) (hashName : String) (key : Bytes) : ℕ :=
  if hashName = "fnv1a-64" then (fnv64 key).toNat else LittleEndian.decode (blake2b key)

theorem bucketId_eq_ok {blake2b : Bytes → Bytes} {numBuckets : ℕ} (h : 0 < numBuckets)
    (key : Bytes) (hashName : String) :
    bucketId blake2b key numBuckets hashName = .ok (hashOf blake2b hashName key % numBuckets) := by
  rw [bucketId, hashOf, fnv1aBucket, Py.modNat, Py.modNat, fnv1a_eq,
    if_neg (Nat.pos_iff_ne_zero.mp h), if_neg (Nat.pos_iff_ne_zero.mp h)]
  split_ifs <;> rfl

/-! ### Lookups on stored records -/

section Serves

variable {ix : DiskSlotIndex} {blake2b : Bytes → Bytes} {numBuckets : ℕ}
  {content : ℕ → List Bytes} {hashName : String}

/-- The records of a key in a sorted bucket are those from the place of the key on, as long as they
begin with it. -/
theorem takeWhile_drop_bisectLeft {records : List Bytes} {key : Bytes}
    (hwide : ∀ rec ∈ records, rec.length = SlotIndex.RECORD_BYTES)
    (hsort : records.Pairwise (· ≤ ·)) (hkey : key.length = HEADS * 8) :
    (records.drop (bisectLeft records key)).takeWhile key.isPrefixOf = matching records key := by
  have hbegins : key.isPrefixOf = fun rec => decide (recordKey rec = key) := by
    funext rec
    rw [Bool.eq_iff_iff, List.isPrefixOf_iff_prefix, List.prefix_iff_eq_take, hkey, recordKey,
      decide_eq_true_eq, eq_comm]
  have hplace : bisectLeft records key =
      SortedSearch.partitionPoint (fun rec => decide (recordKey rec < key)) records :=
    SortedSearch.partitionPoint_congr fun rec hrec => by
      rw [decide_eq_decide]
      exact lt_key_iff (hwide rec hrec) hkey
  rw [hbegins, hplace]
  exact takeWhile_drop_partitionPoint_key hsort

/-- An open index whose files hold the records `content` in the buckets, and so does its cache. -/
structure Serves (hashName : String) (numBuckets : ℕ) (content : ℕ → List Bytes)
    (ix : DiskSlotIndex) : Prop where
  hashName_eq : ix.hashName = hashName
  numBuckets_eq : ix.numBuckets = numBuckets
  numBuckets_pos : 0 < numBuckets
  not_closed : ix.closed = false
  readBucket_eq : ∀ b < numBuckets, ∃ file, ix.readBucket b = .ok file ∧ file.getD [] = content b
  width : ∀ b < numBuckets, ∀ rec ∈ content b, rec.length = SlotIndex.RECORD_BYTES
  sorted : ∀ b < numBuckets, (content b).Pairwise (· ≤ ·)
  agrees : ix.cache.Agrees content

/-- The cache of an open index does not matter, as long as it agrees with the files. -/
theorem Serves.withCache (h : Serves hashName numBuckets content ix)
    {cache : OrderedDict ℕ (List Bytes)} (hcache : cache.Agrees content) :
    Serves hashName numBuckets content { ix with cache := cache } where
  hashName_eq := h.hashName_eq
  numBuckets_eq := h.numBuckets_eq
  numBuckets_pos := h.numBuckets_pos
  not_closed := h.not_closed
  readBucket_eq := h.readBucket_eq
  width := h.width
  sorted := h.sorted
  agrees := hcache

theorem Serves.loadBucket (h : Serves hashName numBuckets content ix) {b : ℕ}
    (hb : b < numBuckets) :
    ∃ ix', loadBucket b ix = (.ok (content b), ix') ∧
      Serves hashName numBuckets content ix' := by
  unfold DiskSlotIndex.loadBucket
  cases hget : ix.cache.get? b with
  | some records =>
    refine ⟨_, ?_, h.withCache (h.agrees.moveToEnd b)⟩
    rw [h.agrees.eq_of_get? hget]
  | none =>
    obtain ⟨file, hread, hfile⟩ := h.readBucket_eq b hb
    rw [hread]
    cases file with
    | none => exact ⟨ix, by rw [← hfile]; rfl, h⟩
    | some records =>
      obtain rfl : records = content b := hfile
      refine ⟨_, rfl, h.withCache ?_⟩
      split_ifs
      · exact (h.agrees.set b).popFirst
      · exact h.agrees.set b

/-- The slots of a gram in the records `content`. -/
def storedSlots (blake2b : Bytes → Bytes) (hashName : String) (numBuckets : ℕ)
    (content : ℕ → List Bytes) (parts : Gram) : List ℕ :=
  (matching (content (hashOf blake2b hashName (keyFromGram parts.1) % numBuckets))
    (keyFromGram parts.1)).map slotOfRecord

/-- A probe with a row that has a key (`hkey`) loads the bucket of that key and skips the records
below it. -/
theorem Serves.probe_of_key (h : Serves hashName numBuckets content ix) {row : List ℤ} {key : Bytes}
    (hkey : rowKey row = .ok key) :
    ∃ ix', probe blake2b row ix =
        (.ok (key, (content (hashOf blake2b hashName key % numBuckets)).drop
          (bisectLeft (content (hashOf blake2b hashName key % numBuckets)) key)), ix') ∧
      Serves hashName numBuckets content ix' := by
  have hbucket : bucketId blake2b key ix.numBuckets ix.hashName =
      .ok (hashOf blake2b hashName key % numBuckets) := by
    rw [h.numBuckets_eq, h.hashName_eq]
    exact bucketId_eq_ok h.numBuckets_pos _ _
  obtain ⟨ix', hload, hserves⟩ := h.loadBucket
    (Nat.mod_lt (hashOf blake2b hashName key) h.numBuckets_pos)
  refine ⟨ix', ?_, hserves⟩
  have hget : (get : PyM DiskSlotIndex DiskSlotIndex) ix = (.ok ix, ix) := rfl
  have hrow : (PyM.lift (rowKey row) : PyM DiskSlotIndex Bytes) ix = (.ok key, ix) := by
    rw [PyM.lift_apply, hkey]
  rw [probe, PyM.bind_of_ok hget, h.not_closed, if_neg Bool.false_ne_true]
  refine (PyM.bind_of_ok hrow).trans ?_
  rw [hbucket]
  exact (PyM.bind_of_ok (PyM.lift_apply _ _)).trans (PyM.bind_of_ok hload)

/-- A probe of a row that has no key fails before a bucket is loaded. -/
theorem Serves.probe_of_error (h : Serves hashName numBuckets content ix)
    {row : List ℤ} {e : PyError}
    (hkey : rowKey row = .error e) : probe blake2b row ix = (.error e, ix) := by
  have hget : (get : PyM DiskSlotIndex DiskSlotIndex) ix = (.ok ix, ix) := rfl
  have hrow : (PyM.lift (rowKey row) : PyM DiskSlotIndex Bytes) ix = (.error e, ix) := by
    rw [PyM.lift_apply, hkey]
  rw [probe, PyM.bind_of_ok hget, h.not_closed, if_neg Bool.false_ne_true]
  exact PyM.bind_of_error hrow

/-- A probe of any row leaves the files as they are. -/
theorem Serves.probe_snd (h : Serves hashName numBuckets content ix) (row : List ℤ) :
    Serves hashName numBuckets content (probe blake2b row ix).2 := by
  cases hkey : rowKey row with
  | ok key =>
    obtain ⟨ix', hprobe, hserves⟩ := h.probe_of_key hkey
    rw [hprobe]
    exact hserves
  | error e =>
    rw [h.probe_of_error hkey]
    exact h

/-- A lookup of all slots answers by the records in the files (`h`), and raises when there are
none. -/
theorem Serves.lookupAll (h : Serves hashName numBuckets content ix) (blake2b : Bytes → Bytes)
    (parts : Gram) :
    (lookupAll blake2b (tupleOf parts) ix).1 =
      if storedSlots blake2b hashName numBuckets content parts = [] then .error .keyError
      else .ok (storedSlots blake2b hashName numBuckets content parts) := by
  have hb := Nat.mod_lt (hashOf blake2b hashName (keyFromGram parts.1)) h.numBuckets_pos
  obtain ⟨ix', hprobe, -⟩ := h.probe_of_key (rowKey_tupleOf parts)
  rw [DiskSlotIndex.lookupAll, PyM.bind_of_ok hprobe]
  simp only [takeWhile_drop_bisectLeft (h.width _ hb) (h.sorted _ hb)
    (by rw [length_keyFromGram, parts.2])]
  rw [storedSlots]
  split_ifs <;> rfl

/-- A lookup of one slot answers by the first of the records. -/
theorem Serves.lookup (h : Serves hashName numBuckets content ix) (blake2b : Bytes → Bytes)
    (parts : Gram) :
    (lookup blake2b (tupleOf parts) ix).1 =
      Py.firstSlot (storedSlots blake2b hashName numBuckets content parts) := by
  have hb := Nat.mod_lt (hashOf blake2b hashName (keyFromGram parts.1)) h.numBuckets_pos
  obtain ⟨ix', hprobe, -⟩ := h.probe_of_key (rowKey_tupleOf parts)
  have hmatching := takeWhile_drop_bisectLeft (h.width _ hb) (h.sorted _ hb)
    (by rw [length_keyFromGram, parts.2] : (keyFromGram parts.1).length = HEADS * 8)
  rw [DiskSlotIndex.lookup, PyM.bind_of_ok hprobe, storedSlots, ← hmatching]
  cases (content (hashOf blake2b hashName (keyFromGram parts.1) % numBuckets)).drop
      (bisectLeft (content (hashOf blake2b hashName (keyFromGram parts.1) % numBuckets))
        (keyFromGram parts.1)) with
  | nil => rfl
  | cons rec records =>
    rw [List.takeWhile_cons]
    dsimp only
    split_ifs <;> rfl

/-- A row that has no key (`hkey`) is refused by both lookups, with the error of the key. -/
theorem Serves.refuses (h : Serves hashName numBuckets content ix) {row : List ℤ} {e : PyError}
    (hkey : rowKey row = .error e) :
    (DiskSlotIndex.lookup blake2b row ix).1 = .error e ∧
      (DiskSlotIndex.lookupAll blake2b row ix).1 = .error e := by
  rw [DiskSlotIndex.lookup, DiskSlotIndex.lookupAll, PyM.bind_of_error (h.probe_of_error hkey),
    PyM.bind_of_error (h.probe_of_error hkey)]
  exact ⟨rfl, rfl⟩

/-- A lookup of any row leaves the files as they are. -/
theorem Serves.step (h : Serves hashName numBuckets content ix) (blake2b : Bytes → Bytes)
    (call : Call) : Serves hashName numBuckets content (call.run blake2b ix) := by
  cases call with
  | lookup row =>
    rw [Call.run, DiskSlotIndex.lookup, PyM.bind_snd]
    · exact h.probe_snd row
    · rintro ⟨key, records⟩ s
      cases records with
      | nil => rfl
      | cons rec records => dsimp only; split_ifs <;> rfl
  | lookupAll row =>
    rw [Call.run, DiskSlotIndex.lookupAll, PyM.bind_snd]
    · exact h.probe_snd row
    · rintro ⟨key, records⟩ s
      dsimp only
      split_ifs <;> rfl

/-- Lookups of any rows, one after another, leave the files as they are. -/
theorem Serves.after (h : Serves hashName numBuckets content ix) (blake2b : Bytes → Bytes)
    (calls : List Call) : Serves hashName numBuckets content (after blake2b ix calls) := by
  induction calls generalizing ix with
  | nil => exact h
  | cons call calls ih => exact ih (h.step blake2b call)

end Serves

end DiskSlotIndex

end EngramDB
