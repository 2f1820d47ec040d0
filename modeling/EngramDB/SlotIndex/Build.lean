import EngramDB.Foundations.Bucketing
import EngramDB.Foundations.Outcome
import EngramDB.Foundations.Text
import EngramDB.SlotIndex.Records

/-!
# Building a slot index

`build_from_keys_file` reads the row ids of a keys file, one on every line, and sixteen for a gram.
The first pass writes the records of the grams one after another and counts those of every bucket.
The second pass distributes them over the buckets, and the third sorts every bucket. Layout `v2` has
one file for every bucket that is not empty, layout `v3` has one file for all buckets and a table of
their offsets.

The files of the first two passes are temporary and are truncated before they are written, so a
build that fails there leaves the index as it was.

* `Splits`: the numbers read so far as complete grams and a rest;
* `Pass1.Reads.line`: the state of the first pass after a line;
* `groupRecords_spec`: the counts of the buckets, and their regions after the second pass;
* `groupRecords_isOk`: a keys file of whole grams can be grouped;
* `emitBuckets_apply`, `emitSingle_eq`: what the third pass writes.
-/

namespace EngramDB

namespace SlotIndex

open SlotBuffer Bucketing

/-- A keys file: an error when it is opened, or what reading each line gives. An error is given by
its message. -/
abbrev KeysFile := Except String (List (Except String (List Char)))

/-- A keys file with a given text. -/
def KeysFile.ofText (text : List Char) : KeysFile := .ok ((Text.lines text).map .ok)

/-- A value in the description of an index. -/
inductive JsonValue where
  /-- A string. -/
  | str (s : String)
  /-- A number. -/
  | num (n : ℕ)
  /-- A truth value. -/
  | bool (b : Bool)
deriving DecidableEq, Repr

/-- The files of an index directory. -/
structure IndexDir where
  /-- The name of the directory. -/
  path : String
  /-- The fields of `index.json`. -/
  indexJson : Option (List (String × JsonValue))
  /-- `data.bin`. -/
  dataBin : Option Bytes
  /-- `offsets.bin`. -/
  offsetsBin : Option Bytes
  /-- The files of the directory `buckets`. -/
  buckets : ℕ → Option Bytes

/-- A directory without files. -/
def IndexDir.empty (path : String) : IndexDir := ⟨path, none, none, none, fun _ => none⟩

/-- What a build reports. -/
structure BuildStats where
  /-- Number of records. -/
  count : ℕ
  /-- Their bytes. -/
  bytes : ℕ
deriving DecidableEq, Repr

/-- The largest size of a file. -/
def maxFileBytes : ℕ := 2 ^ 63 - 1

/-- State of the first pass. -/
structure Pass1 where
  /-- Records of each bucket. -/
  counts : List ℕ
  /-- The records that were written. -/
  raw : Bytes
  /-- The row ids of the gram that is being read. -/
  parts : List UInt64
  /-- The slot of the gram that is being read. -/
  slot : ℕ
deriving DecidableEq, Repr

/-- The first pass at a complete gram: its record gets the next slot. -/
def pass1Gram (numBuckets : ℕ) (st : Pass1) (parts : List UInt64) : Except String Pass1 :=
  let key := keyFromGram parts
  if maxFileBytes < st.raw.length + RECORD_BYTES then .error "File too large (os error 27)"
  else .ok {
    counts := st.counts.modify (bucketOf key numBuckets) (· + 1)
    raw := st.raw ++ (key ++ LittleEndian.encode 8 st.slot)
    parts := []
    slot := st.slot + 1 }

/-- The first pass at one line. -/
def pass1Line (numBuckets : ℕ) (st : Pass1) (line : Except String (List Char)) :
    Except String Pass1 := do
  let s := Text.trim (← line)
  if s = [] then return st
  match Text.parseU64 s with
  | .error e => throw s!"invalid rowid at line {st.slot * HEADS + st.parts.length + 1}: {e.message}"
  | .ok v =>
    let parts := st.parts ++ [v]
    if parts.length = HEADS then pass1Gram numBuckets st parts
    else return { st with parts }

/-- The first pass: the counts of the buckets and the records. -/
def pass1 (keys : KeysFile) (numBuckets : ℕ) : Except String (List ℕ × Bytes) := do
  let st ← (← keys).foldlM (pass1Line numBuckets) ⟨List.replicate numBuckets 0, [], [], 0⟩
  if st.parts ≠ [] then
    throw (s!"keys file ended with {st.parts.length} rowids in an incomplete "
      ++ s!"{HEADS}-head tuple")
  return (st.counts, st.raw)

/-- The bucket of a record. -/
def recordBucket (numBuckets : ℕ) (rec : Bytes) : ℕ := bucketOf (recordKey rec) numBuckets

/-- The second pass: every record is stored in the region of its bucket. -/
def pass2 (raw grouped : Bytes) (offsets : List ℕ) : Except String Bytes := do
  let numBuckets := offsets.length - 1
  let st := (parseRecords raw).foldl (place RECORD_BYTES (recordBucket numBuckets) offsets)
    ⟨grouped, List.replicate numBuckets 0⟩
  if raw.length % RECORD_BYTES ≠ 0 then throw "truncated raw record during scatter"
  return st.buffer

/-- The first two passes: the counts and the offsets of the buckets, and the grouped records. -/
def groupRecords (keys : KeysFile) (numBuckets : ℕ) : Except String (List ℕ × List ℕ × Bytes) := do
  if numBuckets = 0 then throw "num_buckets must be > 0"
  let (counts, raw) ← pass1 keys numBuckets
  let offsets := offsets (counts.map (· * RECORD_BYTES))
  let grouped ← pass2 raw (List.replicate (offsets.getD numBuckets 0) 0) offsets
  return (counts, offsets, grouped)

/-- The sorted records of a region. -/
def sortedRegion (grouped : Bytes) (start stop : ℕ) : Bytes :=
  (sortRecords (parseRecords (region grouped start stop))).flatten

/-- The third pass at one bucket, for one file a bucket. -/
def emitBucket (offsets : List ℕ) (grouped : Bytes) (files : ℕ → Option Bytes) (bucket : ℕ) :
    ℕ → Option Bytes :=
  let start := offsets.getD bucket 0
  let stop := offsets.getD (bucket + 1) 0
  if start = stop then files
  else Function.update files bucket (some (sortedRegion grouped start stop))

/-- The third pass at one bucket, for one file: the file and the offsets written so far. -/
def emitSingle (offsets : List ℕ) (grouped : Bytes) (out : Bytes × List ℕ) (bucket : ℕ) :
    Bytes × List ℕ :=
  let start := offsets.getD bucket 0
  let stop := offsets.getD (bucket + 1) 0
  let cur := out.2.getLast?.getD 0
  if start = stop then (out.1, out.2 ++ [cur])
  else
    let buf := sortedRegion grouped start stop
    (out.1 ++ buf, out.2 ++ [cur + buf.length])

/-- The fields of `index.json`. -/
def indexMeta (numBuckets count : ℕ) (singleFile : Bool) : List (String × JsonValue) :=
  [("format", .str (if singleFile then FORMAT_V3 else FORMAT_V2)),
    ("hash", .str "fnv1a-64"),
    ("heads", .num HEADS),
    ("num_buckets", .num numBuckets),
    ("count", .num count),
    ("record_bytes", .num RECORD_BYTES),
    ("cache_buckets", .num DEFAULT_CACHE_BUCKETS),
    ("single_file", .bool singleFile)]

/-- The third pass. -/
def emit (numBuckets : ℕ) (singleFile : Bool) (counts offsets : List ℕ) (grouped : Bytes)
    (dir : IndexDir) : IndexDir :=
  let dir :=
    if singleFile then
      let (data, dataOffsets) :=
        (List.range numBuckets).foldl (emitSingle offsets grouped) ([], [0])
      { dir with
        dataBin := some data
        offsetsBin := some (dataOffsets.flatMap (LittleEndian.encode 8)) }
    else
      { dir with
        buckets := (List.range numBuckets).foldl (emitBucket offsets grouped) dir.buckets }
  -- the description comes last
  { dir with indexJson := some (indexMeta numBuckets counts.sum singleFile) }

/-- Build an index into a directory: what is reported, and the directory afterwards. -/
def buildFromKeysFileOpt (keys : KeysFile) (numBuckets : ℕ) (singleFile : Bool) (dir : IndexDir) :
    Except String BuildStats × IndexDir :=
  match groupRecords keys numBuckets with
  | .error e => (.error e, dir)
  | .ok (counts, offsets, grouped) =>
    (.ok ⟨counts.sum, offsets.getD numBuckets 0⟩,
      emit numBuckets singleFile counts offsets grouped dir)

/-- The number on a line. -/
def lineNumber (line : List Char) : Option UInt64 := (Text.parseU64 (Text.trim line)).toOption

/-- The numbers of a keys file. -/
def KeysFile.numbers (keys : KeysFile) : List UInt64 :=
  match keys with
  | .ok lines => lines.filterMap fun line => line.toOption.bind lineNumber
  | .error _ => []

/-- The complete grams of a keys file. -/
def KeysFile.grams (keys : KeysFile) : List (List UInt64) := slots HEADS keys.numbers

/-- The sorted records of a bucket. -/
def bucketRecords (grams : List (List UInt64)) (numBuckets bucket : ℕ) : List Bytes :=
  sortRecords ((recordsOf grams).filter fun rec => recordBucket numBuckets rec = bucket)

section Splits

variable {grams : List (List UInt64)} {parts numbers : List UInt64} {v : UInt64}

/-- The numbers read so far are complete grams and the first parts of the next one. -/
structure Splits (grams : List (List UInt64)) (parts numbers : List UInt64) : Prop where
  numbers_eq : numbers = grams.flatten ++ parts
  length_gram : ∀ g ∈ grams, g.length = HEADS
  length_parts : parts.length < HEADS

/-- No numbers are no grams and no rest. -/
theorem splits_nil : Splits [] [] [] := ⟨rfl, by simp, Nat.zero_lt_succ 15⟩

/-- A number that completes a gram (`hfull`) moves the rest into the grams. -/
theorem Splits.gram (h : Splits grams parts numbers) (hfull : (parts ++ [v]).length = HEADS) :
    Splits (grams ++ [parts ++ [v]]) [] (numbers ++ [v]) where
  numbers_eq := by rw [h.numbers_eq]; simp
  length_gram g hg := by
    rcases List.mem_append.mp hg with hg | hg
    · exact h.length_gram g hg
    · rw [List.mem_singleton.mp hg, hfull]
  length_parts := Nat.zero_lt_succ 15

/-- A number that does not complete a gram (`hfull`) joins the rest. -/
theorem Splits.part (h : Splits grams parts numbers) (hfull : (parts ++ [v]).length ≠ HEADS) :
    Splits grams (parts ++ [v]) (numbers ++ [v]) where
  numbers_eq := by rw [h.numbers_eq, List.append_assoc]
  length_gram := h.length_gram
  length_parts := by
    have hparts := h.length_parts
    rw [List.length_append, List.length_singleton] at hfull ⊢
    omega

/-- The numbers are sixteen for every gram and those of the rest. -/
theorem Splits.length_numbers (h : Splits grams parts numbers) :
    numbers.length = grams.length * HEADS + parts.length := by
  rw [h.numbers_eq, List.length_append, length_flatten h.length_gram]

/-- Nothing is left over iff the numbers are whole grams. -/
theorem Splits.parts_eq_nil (h : Splits grams parts numbers) (hdvd : HEADS ∣ numbers.length) :
    parts = [] := by
  rw [h.length_numbers] at hdvd
  exact List.length_eq_zero_iff.mp (Nat.eq_zero_of_dvd_of_lt
    ((Nat.dvd_add_right (Nat.dvd_mul_left HEADS grams.length)).mp hdvd) h.length_parts)

/-- When nothing is left over, the grams are those of the numbers. -/
theorem Splits.slots_eq (h : Splits grams [] numbers) : slots HEADS numbers = grams := by
  rw [h.numbers_eq, List.append_nil, slots_flatten (by decide) h.length_gram]

end Splits

section Pass1

variable {numBuckets : ℕ} {grams : List (List UInt64)} {numbers : List UInt64} {st st' : Pass1}

/-- The first pass has read `numbers`, of which `grams` are complete. -/
structure Pass1.Reads (numBuckets : ℕ) (grams : List (List UInt64)) (numbers : List UInt64)
    (st : Pass1) : Prop where
  splits : Splits grams st.parts numbers
  counts_eq : st.counts = Bucketing.counts numBuckets (recordBucket numBuckets) (recordsOf grams)
  raw_eq : st.raw = (recordsOf grams).flatten
  slot_eq : st.slot = grams.length
  fits : grams.length * RECORD_BYTES ≤ maxFileBytes

/-- The first pass has written one record for every gram it has read. -/
theorem Pass1.Reads.length_raw (h : st.Reads numBuckets grams numbers) :
    st.raw.length = grams.length * RECORD_BYTES := by
  rw [h.raw_eq, length_flatten fun rec => length_of_mem_recordsOf h.splits.length_gram,
    length_recordsOf]

/-- Before the first line nothing is read and nothing is counted. -/
theorem Pass1.reads_start :
    Pass1.Reads numBuckets [] [] ⟨List.replicate numBuckets 0, [], [], 0⟩ where
  splits := splits_nil
  counts_eq := counts_nil.symm
  raw_eq := rfl
  slot_eq := rfl
  fits := Nat.zero_le _

/-- When a number completes a gram (`hfull`) and the first pass takes it (`hgram`), the gram gets
the next slot. -/
theorem Pass1.Reads.gram (h : st.Reads numBuckets grams numbers) {v : UInt64}
    (hfull : (st.parts ++ [v]).length = HEADS)
    (hgram : pass1Gram numBuckets st (st.parts ++ [v]) = .ok st') :
    st'.Reads numBuckets (grams ++ [st.parts ++ [v]]) (numbers ++ [v]) := by
  rw [pass1Gram] at hgram
  split_ifs at hgram with hlarge
  obtain rfl := Except.ok.inj hgram
  exact {
    splits := h.splits.gram hfull
    counts_eq := by
      rw [recordsOf_append_singleton, counts_append_singleton, h.counts_eq, recordBucket,
        recordKey_record hfull]
    raw_eq := by
      rw [recordsOf_append_singleton, List.flatten_append, h.raw_eq, h.slot_eq]
      simp [record]
    slot_eq := by rw [h.slot_eq, List.length_append, List.length_singleton]
    fits := by
      rw [h.length_raw] at hlarge
      rw [List.length_append, List.length_singleton, Nat.add_mul, Nat.one_mul]
      exact Nat.le_of_not_lt hlarge }

/-- When the first pass takes a line (`hline`), it has read the number on the line, if there is
one. -/
theorem Pass1.Reads.line (h : st.Reads numBuckets grams numbers)
    {line : Except String (List Char)} (hline : pass1Line numBuckets st line = .ok st') :
    ∃ grams', st'.Reads numBuckets grams' (numbers ++ (line.toOption.bind lineNumber).toList) := by
  cases line with
  | error e => cases hline
  | ok cs =>
    simp only [pass1Line, bind, Except.bind] at hline
    simp only [Except.toOption, Option.bind_some, lineNumber]
    by_cases hblank : Text.trim cs = []
    · rw [if_pos hblank] at hline
      obtain rfl : st = st' := Except.ok.inj hline
      exact ⟨grams, by simpa [hblank, Text.parseU64] using h⟩
    · rw [if_neg hblank] at hline
      cases hparse : Text.parseU64 (Text.trim cs) with
      | error e =>
        rw [hparse] at hline
        cases hline
      | ok v =>
        rw [hparse] at hline
        by_cases hfull : (st.parts ++ [v]).length = HEADS
        · exact ⟨_, h.gram hfull (by simpa only [if_pos hfull] using hline)⟩
        · simp only [if_neg hfull] at hline
          obtain rfl := Except.ok.inj hline
          exact ⟨grams, h.splits.part hfull, h.counts_eq, h.raw_eq, h.slot_eq, h.fits⟩

/-- There is room for a gram while the file does not get too large. -/
private theorem Pass1.Reads.pass1Gram_isOk (h : st.Reads numBuckets grams numbers) {v : UInt64}
    (hfull : (st.parts ++ [v]).length = HEADS)
    (hroom : (numbers ++ [v]).length / HEADS * RECORD_BYTES ≤ maxFileBytes) :
    ∃ st', pass1Gram numBuckets st (st.parts ++ [v]) = .ok st' := by
  have hlen : (numbers ++ [v]).length = (grams.length + 1) * HEADS := by
    rw [(h.splits.gram hfull).length_numbers, List.length_append, List.length_singleton,
      List.length_nil, Nat.add_zero]
  rw [hlen, Nat.mul_div_cancel _ (by decide), Nat.add_mul, Nat.one_mul, ← h.length_raw] at hroom
  exact ⟨_, if_neg (Nat.not_lt.mpr hroom)⟩

/-- The first pass goes on at a line that is blank or a number, while there is room. -/
private theorem Pass1.Reads.pass1Line_isOk (h : st.Reads numBuckets grams numbers) {cs : List Char}
    (hcs : Text.trim cs = [] ∨ (lineNumber cs).isSome)
    (hroom : (numbers ++ (lineNumber cs).toList).length / HEADS * RECORD_BYTES ≤ maxFileBytes) :
    ∃ st', pass1Line numBuckets st (.ok cs) = .ok st' := by
  simp only [pass1Line, bind, Except.bind]
  by_cases hblank : Text.trim cs = []
  · rw [if_pos hblank]
    exact ⟨st, rfl⟩
  · have hnum := hcs.resolve_left hblank
    rw [if_neg hblank]
    rw [lineNumber] at hnum hroom
    cases hparse : Text.parseU64 (Text.trim cs) with
    | error e =>
      rw [hparse] at hnum
      cases hnum
    | ok v =>
      rw [hparse] at hroom
      by_cases hfull : (st.parts ++ [v]).length = HEADS
      · obtain ⟨st', hst'⟩ := h.pass1Gram_isOk hfull hroom
        exact ⟨st', by simpa only [if_pos hfull] using hst'⟩
      · simp only [if_neg hfull]
        exact ⟨_, rfl⟩

/-- The first pass over the lines of a file, when none of them fails (`hlines`): their numbers are
appended, in order. -/
theorem Pass1.Reads.foldlM {lines : List (Except String (List Char))}
    (h : st.Reads numBuckets grams numbers)
    (hlines : lines.foldlM (pass1Line numBuckets) st = .ok st') :
    ∃ grams', st'.Reads numBuckets grams'
      (numbers ++ lines.filterMap fun line => line.toOption.bind lineNumber) := by
  induction lines generalizing st grams numbers with
  | nil =>
    obtain rfl : st = st' := Except.ok.inj hlines
    exact ⟨grams, by simpa using h⟩
  | cons line lines ih =>
    rw [List.foldlM_cons] at hlines
    obtain ⟨st₁, hline, hrest⟩ := Except.bind_eq_ok_iff.mp hlines
    obtain ⟨grams₁, h₁⟩ := h.line hline
    obtain ⟨grams', h'⟩ := ih h₁ hrest
    refine ⟨grams', ?_⟩
    rw [List.append_assoc] at h'
    rw [List.filterMap_cons]
    cases hnum : line.toOption.bind lineNumber with
    | none => simpa [hnum] using h'
    | some v => simpa [hnum] using h'

/-- The first pass reads all lines of a text of numbers that is not too long. -/
private theorem Pass1.Reads.foldlM_isOk {lines : List (List Char)}
    (h : st.Reads numBuckets grams numbers)
    (hlines : ∀ cs ∈ lines, Text.trim cs = [] ∨ (lineNumber cs).isSome)
    (hroom : (numbers ++ lines.filterMap lineNumber).length / HEADS * RECORD_BYTES ≤ maxFileBytes) :
    ∃ st', (lines.map Except.ok).foldlM (pass1Line numBuckets) st = .ok st' := by
  induction lines generalizing st grams numbers with
  | nil => exact ⟨st, rfl⟩
  | cons cs lines ih =>
    have hsplit : (cs :: lines).filterMap lineNumber =
        (lineNumber cs).toList ++ lines.filterMap lineNumber := by
      rw [List.filterMap_cons]
      cases lineNumber cs <;> rfl
    rw [hsplit, ← List.append_assoc] at hroom
    have hroom₁ :
        (numbers ++ (lineNumber cs).toList).length / HEADS * RECORD_BYTES ≤ maxFileBytes := by
      refine Nat.le_trans (Nat.mul_le_mul_right _ (Nat.div_le_div_right ?_)) hroom
      exact (List.sublist_append_left _ _).length_le
    obtain ⟨st₁, hline⟩ := h.pass1Line_isOk (hlines cs (by simp)) hroom₁
    obtain ⟨grams₁, h₁⟩ := h.line hline
    obtain ⟨st', hrest⟩ := ih h₁ (fun c hc => hlines c (by simp [hc])) hroom
    refine ⟨st', ?_⟩
    rw [List.map_cons, List.foldlM_cons, hline]
    exact hrest

end Pass1

section Regions

variable {f : Bytes → ℕ} {records : List Bytes} {n : ℕ} {offs : List ℕ} {grouped rec : Bytes}

/-- The sorted records of a bucket, when `f` gives the bucket of a record. -/
def sortedBucket (f : Bytes → ℕ) (records : List Bytes) (b : ℕ) : List Bytes :=
  sortRecords (records.filter fun rec => f rec = b)

/-- A buffer holds the records of every bucket in the region of the bucket. -/
structure Regions (f : Bytes → ℕ) (records : List Bytes) (n : ℕ) (offs : List ℕ) (grouped : Bytes) :
    Prop where
  width : ∀ rec ∈ records, rec.length = RECORD_BYTES
  getD_offs : ∀ b ≤ n, offs.getD b 0 = before f records b * RECORD_BYTES
  region_eq : ∀ b < n, region grouped (offs.getD b 0) (offs.getD (b + 1) 0) =
    (records.filter fun rec => f rec = b).flatten

/-- A bucket has the records that go there, and no others. -/
theorem mem_sortedBucket {b : ℕ} : rec ∈ sortedBucket f records b ↔ rec ∈ records ∧ f rec = b := by
  rw [sortedBucket, mem_sortRecords, List.mem_filter, decide_eq_true_eq]

/-- The records of a bucket ascend. -/
theorem pairwise_sortedBucket (f : Bytes → ℕ) (records : List Bytes) (b : ℕ) :
    (sortedBucket f records b).Pairwise (· ≤ ·) :=
  pairwise_sortRecords _

/-- Records that are counted and then distributed stand in their regions. -/
theorem regions_scatter (hwide : ∀ rec ∈ records, rec.length = RECORD_BYTES)
    (hbucket : ∀ rec ∈ records, f rec < n) :
    Regions f records n (offsets ((counts n f records).map (· * RECORD_BYTES)))
      (records.foldl (place RECORD_BYTES f (offsets ((counts n f records).map (· * RECORD_BYTES))))
        ⟨List.replicate ((offsets ((counts n f records).map (· * RECORD_BYTES))).getD n 0) 0,
          List.replicate n 0⟩).buffer := by
  have hoffs : ∀ b ≤ n, (offsets ((counts n f records).map (· * RECORD_BYTES))).getD b 0 =
      before f records b * RECORD_BYTES := by
    intro b hb
    rw [List.getD_eq_getElem?_getD, getElem?_offsets_counts _ hb, Option.getD_some]
  refine ⟨hwide, hoffs, fun b hb => ?_⟩
  rw [hoffs b (Nat.le_of_lt hb), hoffs (b + 1) hb]
  refine region_scatter hwide hbucket ?_ hb
  rw [List.length_replicate, hoffs n (Nat.le_refl _), before_eq_length hbucket]

/-- The region of a bucket, cut into records and sorted, are the records of the bucket. -/
theorem Regions.sortedRegion_eq (h : Regions f records n offs grouped) {b : ℕ} (hb : b < n) :
    sortedRegion grouped (offs.getD b 0) (offs.getD (b + 1) 0) =
      (sortedBucket f records b).flatten := by
  rw [sortedRegion, h.region_eq b hb, parseRecords_flatten, sortedBucket]
  exact fun rec hrec => h.width rec (List.mem_of_mem_filter hrec)

/-- The region of a bucket (`hb`) is empty iff no record goes to the bucket. -/
theorem Regions.offs_eq_iff (h : Regions f records n offs grouped) {b : ℕ} (hb : b < n) :
    offs.getD b 0 = offs.getD (b + 1) 0 ↔ sortedBucket f records b = [] := by
  rw [h.getD_offs b (Nat.le_of_lt hb), h.getD_offs (b + 1) hb, before_succ, Nat.add_mul,
    List.countP_eq_length_filter, ← List.length_eq_zero_iff, sortedBucket,
    (perm_sortRecords _).length_eq, RECORD_BYTES, HEADS]
  omega

/-- Nothing is left out where no region is written: an empty region (`hempty`) has no records. -/
private theorem Regions.sortedRegion_eq_nil (h : Regions f records n offs grouped) {b : ℕ}
    (hb : b < n) (hempty : offs.getD b 0 = offs.getD (b + 1) 0) :
    sortedRegion grouped (offs.getD b 0) (offs.getD (b + 1) 0) = [] := by
  rw [h.sortedRegion_eq hb, (h.offs_eq_iff hb).mp hempty, List.flatten_nil]

/-- The parts of the buckets in one file. -/
def parts (content : ℕ → List Bytes) (n : ℕ) : List Bytes :=
  (List.range n).map fun b => (content b).flatten

/-- Part `b` of the data file has the records of bucket `b`. -/
theorem getElem?_parts (content : ℕ → List Bytes) {b : ℕ} (hb : b < n) :
    (parts content n)[b]? = some (content b).flatten := by
  simp [parts, hb]

/-- Records of the right length (`hwide`), each of which goes to a bucket (`hbucket`), fill the
parts of the data file together. -/
theorem sum_length_parts (hwide : ∀ rec ∈ records, rec.length = RECORD_BYTES)
    (hbucket : ∀ rec ∈ records, f rec < n) :
    ((parts (sortedBucket f records) n).map List.length).sum = records.length * RECORD_BYTES := by
  have hlength : (parts (sortedBucket f records) n).map List.length =
      (counts n f records).map fun k => id k * RECORD_BYTES := by
    rw [parts, counts, List.map_map, List.map_map]
    refine List.map_congr_left fun b _ => ?_
    rw [Function.comp_apply, Function.comp_apply,
      length_flatten fun rec hrec => hwide rec (mem_sortedBucket.mp hrec).1, sortedBucket,
      (perm_sortRecords _).length_eq, List.countP_eq_length_filter, id]
  rw [hlength, List.sum_map_mul_right, List.map_id, Bucketing.sum_counts hbucket]

end Regions

section Grouping

variable {keys : KeysFile} {numBuckets : ℕ}

/-- The numbers of a keys file are those of its lines that are numbers. -/
theorem KeysFile.numbers_ofText (text : List Char) :
    (KeysFile.ofText text).numbers = (Text.lines text).filterMap lineNumber := by
  rw [KeysFile.ofText, KeysFile.numbers, List.filterMap_map]
  rfl

/-- Every gram has sixteen numbers. -/
theorem length_of_mem_grams {g : List UInt64} (h : g ∈ keys.grams) : g.length = HEADS :=
  length_of_mem_slots h

/-- The first pass leaves the counts and the records of the grams. -/
theorem pass1_spec {cs : List ℕ} {raw : Bytes} (h : pass1 keys numBuckets = .ok (cs, raw)) :
    cs = counts numBuckets (recordBucket numBuckets) (recordsOf keys.grams) ∧
      raw = (recordsOf keys.grams).flatten ∧
      keys.grams.length * RECORD_BYTES ≤ maxFileBytes := by
  cases keys with
  | error e => cases h
  | ok lines =>
    obtain ⟨lines', hopen, h⟩ := Except.bind_eq_ok_iff.mp h
    obtain rfl := Except.ok.inj hopen
    obtain ⟨st, hrun, hst⟩ := Except.bind_eq_ok_iff.mp h
    obtain ⟨grams, hreads⟩ := Pass1.reads_start.foldlM hrun
    by_cases hparts : st.parts = []
    · simp only [hparts, ne_eq, not_true_eq_false, if_false] at hst
      have hgrams : KeysFile.grams (.ok lines) = grams := by
        have hsplits := hreads.splits
        rw [hparts, List.nil_append] at hsplits
        rw [KeysFile.grams, KeysFile.numbers, hsplits.slots_eq]
      obtain ⟨rfl, rfl⟩ := Prod.mk.inj (Except.ok.inj hst)
      rw [hgrams]
      exact ⟨hreads.counts_eq, hreads.raw_eq, hreads.fits⟩
    · simp only [hparts, ne_eq, not_false_eq_true, if_true] at hst
      cases hst

/-- The first pass succeeds on a text of whole grams that is not too long. -/
private theorem pass1_isOk {text : List Char}
    (hlines : ∀ cs ∈ Text.lines text, Text.trim cs = [] ∨ (lineNumber cs).isSome)
    (hheads : HEADS ∣ (KeysFile.ofText text).numbers.length)
    (hroom : (KeysFile.ofText text).numbers.length / HEADS * RECORD_BYTES ≤ maxFileBytes) :
    ∃ res, pass1 (.ofText text) numBuckets = .ok res := by
  rw [KeysFile.numbers_ofText] at hheads hroom
  have hstart : Pass1.Reads numBuckets [] [] _ := Pass1.reads_start
  obtain ⟨st, hrun⟩ := hstart.foldlM_isOk hlines hroom
  obtain ⟨grams, hreads⟩ := Pass1.reads_start.foldlM hrun
  rw [List.nil_append, List.filterMap_map] at hreads
  have hparts := hreads.splits.parts_eq_nil hheads
  refine ⟨(st.counts, st.raw), Except.bind_eq_ok_iff.mpr ⟨_, rfl,
    Except.bind_eq_ok_iff.mpr ⟨st, hrun, ?_⟩⟩⟩
  simp only [hparts, ne_eq, not_true_eq_false, if_false]
  rfl

/-- The second pass stores every record of the first, all of one length (`h`), into the region of
its bucket. -/
theorem pass2_flatten {records : List Bytes} (h : ∀ rec ∈ records, rec.length = RECORD_BYTES)
    (grouped : Bytes) (offs : List ℕ) :
    pass2 records.flatten grouped offs =
      .ok (records.foldl (place RECORD_BYTES (recordBucket (offs.length - 1)) offs)
        ⟨grouped, List.replicate (offs.length - 1) 0⟩).buffer := by
  rw [pass2, parseRecords_flatten h]
  simp only [length_flatten h, Nat.mul_mod_left, ne_eq, not_true_eq_false, if_false]
  rfl

/-- The buckets of the grams of a keys file, grouped in one buffer. -/
structure Grouped (keys : KeysFile) (numBuckets : ℕ) (cs offs : List ℕ) (grouped : Bytes) :
    Prop where
  numBuckets_pos : 0 < numBuckets
  sum_counts : cs.sum = keys.grams.length
  fits : keys.grams.length * RECORD_BYTES ≤ maxFileBytes
  getD_offs : ∀ b ≤ numBuckets,
    offs.getD b 0 = before (recordBucket numBuckets) (recordsOf keys.grams) b * RECORD_BYTES
  region_eq : ∀ b < numBuckets, region grouped (offs.getD b 0) (offs.getD (b + 1) 0) =
    ((recordsOf keys.grams).filter fun rec => recordBucket numBuckets rec = b).flatten

/-- The grouped records of the keys lie in the regions of their buckets. -/
theorem Grouped.regions {cs offs : List ℕ} {grouped : Bytes}
    (h : Grouped keys numBuckets cs offs grouped) :
    Regions (recordBucket numBuckets) (recordsOf keys.grams) numBuckets offs grouped where
  width _ := length_of_mem_recordsOf fun _ => length_of_mem_grams
  getD_offs := h.getD_offs
  region_eq := h.region_eq

/-- The first two passes group the records of the grams by their buckets. -/
theorem groupRecords_spec {cs offs : List ℕ} {grouped : Bytes}
    (h : groupRecords keys numBuckets = .ok (cs, offs, grouped)) :
    Grouped keys numBuckets cs offs grouped := by
  have hpos : 0 < numBuckets := by
    rcases Nat.eq_zero_or_pos numBuckets with rfl | hpos
    · cases h
    · exact hpos
  rw [groupRecords, if_neg (Nat.pos_iff_ne_zero.mp hpos)] at h
  obtain ⟨⟨cs', raw⟩, hpass1, h⟩ := Except.bind_eq_ok_iff.mp h
  obtain ⟨rfl, rfl, hfits⟩ := pass1_spec hpass1
  obtain ⟨grouped', hpass2, h⟩ := Except.bind_eq_ok_iff.mp h
  obtain ⟨rfl, rfl, rfl⟩ : _ = cs ∧ _ = offs ∧ grouped' = grouped := by
    have hres := Except.ok.inj h
    exact ⟨congrArg (·.1) hres, congrArg (·.2.1) hres, congrArg (·.2.2) hres⟩
  have hwide : ∀ rec ∈ recordsOf keys.grams, rec.length = RECORD_BYTES :=
    fun rec => length_of_mem_recordsOf fun g => length_of_mem_grams
  have hbucket : ∀ rec ∈ recordsOf keys.grams, recordBucket numBuckets rec < numBuckets :=
    fun rec _ => bucketOf_lt _ hpos
  have hregions := regions_scatter hwide hbucket
  rw [pass2_flatten hwide, length_offsets, List.length_map, length_counts, Nat.add_sub_cancel]
    at hpass2
  obtain rfl := Except.ok.inj hpass2
  refine ⟨hpos, ?_, hfits, hregions.getD_offs, hregions.region_eq⟩
  rw [Bucketing.sum_counts hbucket, length_recordsOf]

/-- A text of whole grams that is not too long can be grouped. -/
theorem groupRecords_isOk {text : List Char}
    (hlines : ∀ cs ∈ Text.lines text, Text.trim cs = [] ∨ (lineNumber cs).isSome)
    (hheads : HEADS ∣ (KeysFile.ofText text).numbers.length)
    (hroom : (KeysFile.ofText text).numbers.length / HEADS * RECORD_BYTES ≤ maxFileBytes)
    (hpos : 0 < numBuckets) : ∃ res, groupRecords (.ofText text) numBuckets = .ok res := by
  obtain ⟨⟨cs, raw⟩, hpass1⟩ := @pass1_isOk numBuckets text hlines hheads hroom
  obtain ⟨-, rfl, -⟩ := pass1_spec hpass1
  have hwide : ∀ rec ∈ recordsOf (KeysFile.ofText text).grams, rec.length = RECORD_BYTES :=
    fun rec => length_of_mem_recordsOf fun g => length_of_mem_grams
  rw [groupRecords, if_neg (Nat.pos_iff_ne_zero.mp hpos)]
  exact ⟨_, Except.bind_eq_ok_iff.mpr ⟨_, hpass1,
    Except.bind_eq_ok_iff.mpr ⟨_, pass2_flatten hwide _ _, rfl⟩⟩⟩

end Grouping

section Emit

variable {keys : KeysFile} {numBuckets : ℕ} {cs offs : List ℕ} {grouped : Bytes}

/-- The third pass writes a file for every bucket that is not empty and leaves the other files. -/
theorem Grouped.emitBuckets_apply (h : Grouped keys numBuckets cs offs grouped)
    (files : ℕ → Option Bytes) (b : ℕ) :
    (List.range numBuckets).foldl (emitBucket offs grouped) files b =
      if b < numBuckets ∧ bucketRecords keys.grams numBuckets b ≠ [] then
        some (bucketRecords keys.grams numBuckets b).flatten
      else files b := by
  refine (foldl_update_apply files _ numBuckets b).trans ?_
  by_cases hb : b < numBuckets
  · rw [h.regions.sortedRegion_eq hb]
    exact if_congr (and_congr_right fun _ => not_congr (h.regions.offs_eq_iff hb)) rfl rfl
  · rw [if_neg fun hc => hb hc.1, if_neg fun hc => hb hc.1]

/-- The regions of the buckets in one file. -/
def bucketParts (grams : List (List UInt64)) (numBuckets : ℕ) : List Bytes :=
  (List.range numBuckets).map fun b => (bucketRecords grams numBuckets b).flatten

/-- The third pass writes all buckets of a grouped buffer (`h`) one after another, and the offsets
between them. -/
theorem Grouped.emitSingle_eq (h : Grouped keys numBuckets cs offs grouped) :
    (List.range numBuckets).foldl (emitSingle offs grouped) ([], [0]) =
      ((bucketParts keys.grams numBuckets).flatten,
        offsets ((bucketParts keys.grams numBuckets).map List.length)) := by
  have hparts : (List.range numBuckets).map (fun b => sortedRegion grouped (offs.getD b 0)
      (offs.getD (b + 1) 0)) = bucketParts keys.grams numBuckets :=
    List.map_congr_left fun b hb => h.regions.sortedRegion_eq (List.mem_range.mp hb)
  rw [← hparts]
  exact foldl_concat fun b hb => h.regions.sortedRegion_eq_nil hb

end Emit

end SlotIndex

end EngramDB
