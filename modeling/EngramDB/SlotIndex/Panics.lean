import EngramDB.Foundations.Json
import EngramDB.Foundations.Machine
import EngramDB.SlotIndex.Reader

/-!
# Panics of the slot index reader

The reader takes the number of buckets from `index.json` and the places of the buckets from
`offsets.bin`. The functions with the suffix `64` are the code of the reader word for word, for
files with any contents: `openFiles64`, `readBucket64`, `records64`, `containsSlot64`. Memory is
asked for. A sum or a difference that leaves the machine words panics, as in a build that checks its
arithmetic; a build that does not goes on with the wrapped number.

* `readBucket64_eq`, `containsSlot64_eq`: a reader whose regions are ordered and fit into memory
  answers like one that computes with natural numbers;
* `Reads64.containsSlot64`: one lookup panics iff there are no buckets or its region is bad, and it
  leaves a reader of the same kind;
* `survives_iff`: no panic iff there are buckets, the memory for the offsets is there, and every
  bucket that is looked up has a good region.
-/

namespace EngramDB

namespace SlotIndex

open SlotBuffer

/-- The files of an index directory, whatever they contain. -/
structure IndexFiles where
  /-- The name of the directory. -/
  path : String
  /-- `index.json`: the message of the parser, or the value. -/
  indexJson : Option (Except String Json.Value)
  /-- `data.bin`. -/
  dataBin : Option Bytes
  /-- `offsets.bin`. -/
  offsetsBin : Option Bytes
  /-- The files of the directory `buckets`. -/
  buckets : ℕ → Option Bytes

/-- The files that lookups read. -/
def IndexFiles.dir (files : IndexFiles) : IndexDir where
  path := files.path
  indexJson := none
  dataBin := files.dataBin
  offsetsBin := files.offsetsBin
  buckets := files.buckets

namespace DiskSlotIndexReader

variable (a : Allocator)

/-- The fields of `index.json`: the format, the number of buckets and the number of records. -/
def readMeta (files : IndexFiles) : Except String (String × UInt64 × UInt64) := do
  let json ← orError files.indexJson s!"slot index not found: {files.path}/index.json"
  let m ← json
  let format ← orError ((m.get "format").bind Json.Value.asStr) "index.json missing format"
  let numBuckets ← orError ((m.get "num_buckets").bind Json.Value.asU64)
    "index.json missing num_buckets"
  let count ← orError ((m.get "count").bind Json.Value.asU64) "index.json missing count"
  return (format, numBuckets, count)

/-- Open the files of layout `v3`. The memory for the offsets is asked for before they are
counted. -/
def openSingle64 (files : IndexFiles) (numBuckets : ℕ) : Outcome String (Bytes × List ℕ) := do
  let dataFile ← Outcome.ofExcept (orError files.dataBin "No such file or directory (os error 2)")
  let offData ← Outcome.ofExcept (orError files.offsetsBin "No such file or directory (os error 2)")
  let capacity ← checkedAdd numBuckets 1
  if ¬ a.allocates (capacity * 8) then throw .panic
  let offVec := (slots 8 offData).map LittleEndian.decode
  if offVec.length ≠ capacity then
    throw (.error s!"offsets.bin has {offVec.length} entries, expected {capacity}")
  return (dataFile, offVec)

/-- Open the index in a directory. -/
def openFiles64 (files : IndexFiles) (cacheCapacity : ℕ) : Outcome String DiskSlotIndexReader := do
  let (format, numBuckets, count) ← Outcome.ofExcept (readMeta files)
  let single ←
    if format = FORMAT_V2 then pure none
    else if format = FORMAT_V3 then some <$> openSingle64 a files numBuckets.toNat
    else throw (.error (s!"unsupported slot index format: {format} "
      ++ s!"(expected {FORMAT_V2} or {FORMAT_V3})"))
  return {
    dir := files.dir
    numBuckets := numBuckets.toNat
    count := count.toNat
    cache := .empty
    cacheCapacity := max cacheCapacity 1
    single }

/-- Load the records of a bucket. The system seeks below `2 ^ 63` only. -/
def readBucket64 (r : DiskSlotIndexReader) (bucket : ℕ) : Outcome String (List Bytes) :=
  match r.single with
  | some (dataFile, offsets) => do
    let start ← Outcome.index offsets bucket
    let stop ← Outcome.index offsets (bucket + 1)
    if start = stop then return []
    let len ← checkedSub stop start
    if ¬ a.allocates len then throw .panic
    if 2 ^ 63 ≤ start then throw (.error "Invalid argument (os error 22)")
    if dataFile.length < stop then throw (.error "failed to fill whole buffer")
    return parseRecords (Bucketing.region dataFile start stop)
  | none =>
    match r.dir.buckets bucket with
    | some data => return parseRecords data
    | none => return []

/-- The records of a bucket, from the cache or loaded. -/
def records64 (r : DiskSlotIndexReader) (bucket : ℕ) :
    Outcome String (List Bytes × DiskSlotIndexReader) :=
  match r.cache.get? bucket with
  | some records => return (records, r)
  | none => do
    let records ← r.readBucket64 a bucket
    let cache := if r.cacheCapacity ≤ r.cache.keys.length then r.cache.popFirst else r.cache
    return (records, { r with cache := cache.set bucket records })

/-- Whether a gram is stored at a slot, and the reader afterwards. The remainder by no buckets
panics. -/
def containsSlot64 (r : DiskSlotIndexReader) (parts : Gram) (slot : ℕ) :
    Outcome String Bool × DiskSlotIndexReader :=
  if r.numBuckets = 0 then (.error .panic, r)
  else
    let key := keyFromGram parts.1
    match r.records64 a (bucketOf key r.numBuckets) with
    | .error e => (.error e, r)
    | .ok (records, r) =>
      let start := SortedSearch.partitionPoint (fun probe => decide (recordKey probe < key)) records
      (scanRecords parts.1 slot false (records.drop start), r)

/-- The answers to lookups that are made one after another. -/
def lookups64 : DiskSlotIndexReader → List (Gram × ℕ) → List (Outcome String Bool)
  | _, [] => []
  | r, (parts, slot) :: queries =>
    let (res, r) := r.containsSlot64 a parts slot
    res :: lookups64 r queries

end DiskSlotIndexReader

/-- The region of a bucket does not end before it begins, and there is memory for it. -/
def GoodRegion (a : Allocator) (offsets : List ℕ) (bucket : ℕ) : Prop :=
  let start := offsets.getD bucket 0
  let stop := offsets.getD (bucket + 1) 0
  start ≤ stop ∧ (start = stop ∨ a.allocates (stop - start))

/-- The regions of a reader: there is nothing to check when every bucket has its own file. -/
def GoodBucket (a : Allocator) (single : Option (Bytes × List ℕ)) (bucket : ℕ) : Prop :=
  ∀ p, single = some p → GoodRegion a p.2 bucket

open DiskSlotIndexReader

section Reading

variable {a : Allocator} {r : DiskSlotIndexReader} {bucket : ℕ}

/-- A scan of records does not panic. -/
private theorem scanRecords_ne_panic (parts : List UInt64) (slot : ℕ) (foundAny : Bool)
    (records : List Bytes) :
    scanRecords parts slot foundAny records ≠ .error .panic := by
  induction records generalizing foundAny with
  | nil =>
    rw [scanRecords]
    split_ifs <;> rintro ⟨⟩
  | cons rec rest ih =>
    rw [scanRecords]
    split_ifs
    · rintro ⟨⟩
    · exact ih true
    · rintro ⟨⟩
    · rintro ⟨⟩

theorem index_eq_getD {offsets : List ℕ} {i : ℕ} (hi : i < offsets.length) :
    (Outcome.index offsets i : Outcome String ℕ) = .ok (offsets.getD i 0) :=
  Outcome.index_eq_ok (by simp [List.getD, hi])

/-- Loading a bucket, by the start and the end of its region. -/
theorem readBucket64_of_single {dataFile : Bytes} {offsets : List ℕ}
    (hsingle : r.single = some (dataFile, offsets)) (hlen : bucket + 1 < offsets.length)
    {start stop : ℕ}
    (hstart : offsets.getD bucket 0 = start) (hstop : offsets.getD (bucket + 1) 0 = stop) :
    r.readBucket64 a bucket =
      if start = stop then .ok []
      else if start ≤ stop ∧ a.allocates (stop - start) then
        if 2 ^ 63 ≤ start then .error (.error "Invalid argument (os error 22)")
        else if dataFile.length < stop then .error (.error "failed to fill whole buffer")
        else .ok (parseRecords (Bucketing.region dataFile start stop))
      else .error .panic := by
  rw [readBucket64, hsingle]
  simp only [index_eq_getD (Nat.lt_of_succ_lt hlen), index_eq_getD hlen, hstart,
    hstop, Except.ok_bind]
  -- an empty region is not read
  by_cases heq : start = stop
  · rw [if_pos heq, if_pos heq]
    rfl
  rw [if_neg heq, if_neg heq]
  -- the difference panics if it is negative, and the buffer if there is no memory for it
  by_cases hle : start ≤ stop
  · rw [checkedSub_eq_ok hle, Except.ok_bind]
    by_cases hmem : a.allocates (stop - start)
    · have hregion : start ≤ stop ∧ a.allocates (stop - start) = true := ⟨hle, hmem⟩
      rw [if_neg (not_not_intro hmem), if_pos hregion]
      -- the seek and the read fail with an error
      by_cases hseek : 2 ^ 63 ≤ start
      · rw [if_pos hseek, if_pos hseek]
        rfl
      rw [if_neg hseek, if_neg hseek]
      by_cases hdata : dataFile.length < stop
      · rw [if_pos hdata, if_pos hdata]
        rfl
      · rw [if_neg hdata, if_neg hdata]
        rfl
    · have hregion : ¬ (start ≤ stop ∧ a.allocates (stop - start) = true) := fun h => hmem h.2
      rw [if_pos hmem, if_neg hregion]
      rfl
  · have hregion : ¬ (start ≤ stop ∧ a.allocates (stop - start) = true) := fun h => hle h.1
    rw [checkedSub_eq_panic hle, if_neg hregion]
    rfl

/-- A bucket is loaded without a panic iff its region is good. -/
private theorem readBucket64_eq_panic_iff
    (hlen : ∀ p, r.single = some p → bucket + 1 < p.2.length) :
    r.readBucket64 a bucket = .error .panic ↔ ¬ GoodBucket a r.single bucket := by
  cases hsingle : r.single with
  | none =>
    -- a bucket with a file of its own never panics
    refine iff_of_false (fun h => ?_) (not_not_intro fun p hp => by cases hp)
    rw [readBucket64, hsingle] at h
    dsimp only at h
    cases hfile : r.dir.buckets bucket with
    | none =>
      rw [hfile] at h
      cases h
    | some data =>
      rw [hfile] at h
      cases h
  | some p =>
    obtain ⟨dataFile, offsets⟩ := p
    have hgood : GoodBucket a (some (dataFile, offsets)) bucket ↔ GoodRegion a offsets bucket :=
      ⟨fun h => h _ rfl, fun h q hq => by cases hq; exact h⟩
    rw [readBucket64_of_single hsingle (hlen _ hsingle) rfl rfl, hgood, GoodRegion]
    -- an empty region is good and is not read
    by_cases heq : offsets.getD bucket 0 = offsets.getD (bucket + 1) 0
    · rw [if_pos heq]
      exact iff_of_false (by rintro ⟨⟩) (not_not_intro ⟨Nat.le_of_eq heq, .inl heq⟩)
    rw [if_neg heq, or_iff_right heq]
    split_ifs with hregion
    · exact iff_of_false (by rintro ⟨⟩) (not_not_intro hregion)
    · exact iff_of_false (by rintro ⟨⟩) (not_not_intro hregion)
    · exact iff_of_false (by rintro ⟨⟩) (not_not_intro hregion)
    · exact iff_of_true rfl hregion

/-- A good region that starts where the system seeks is loaded as by natural numbers. -/
theorem readBucket64_eq (hlen : ∀ p, r.single = some p → bucket + 1 < p.2.length)
    (h : GoodBucket a r.single bucket) (hseek : ∀ p, r.single = some p →
      p.2.getD bucket 0 < 2 ^ 63) :
    r.readBucket64 a bucket = r.readBucket bucket := by
  cases hsingle : r.single with
  | none =>
    cases hdata : r.dir.buckets bucket <;> simp only [readBucket64, readBucket, hsingle, hdata]
  | some p =>
    obtain ⟨dataFile, offsets⟩ := p
    obtain ⟨hle, hmem⟩ := h _ hsingle
    have hbound : bucket + 1 < offsets.length := hlen _ hsingle
    rw [readBucket64_of_single hsingle hbound rfl rfl, readBucket, hsingle]
    simp only [index_eq_getD (Nat.lt_of_succ_lt hbound), index_eq_getD hbound, Except.ok_bind]
    by_cases heq : offsets.getD bucket 0 = offsets.getD (bucket + 1) 0
    · rw [if_pos heq, if_pos heq]
      rfl
    · rw [if_neg heq, if_neg heq, if_pos ⟨hle, hmem.resolve_left heq⟩,
        if_neg (Nat.not_le.mpr (hseek _ hsingle)), if_neg (Nat.not_lt.mpr hle)]
      split_ifs <;> rfl

/-- So is a bucket that is looked up. -/
theorem containsSlot64_eq {parts : Gram}
    (hlen : ∀ p, r.single = some p → bucketOf (keyFromGram parts.1) r.numBuckets + 1 < p.2.length)
    (h : GoodBucket a r.single (bucketOf (keyFromGram parts.1) r.numBuckets))
    (hseek : ∀ p, r.single = some p →
      p.2.getD (bucketOf (keyFromGram parts.1) r.numBuckets) 0 < 2 ^ 63) (slot : ℕ) :
    r.containsSlot64 a parts slot = r.containsSlot parts slot := by
  have hrecords : r.records64 a (bucketOf (keyFromGram parts.1) r.numBuckets) =
      r.records (bucketOf (keyFromGram parts.1) r.numBuckets) := by
    cases hcached : r.cache.get? (bucketOf (keyFromGram parts.1) r.numBuckets) <;>
      simp only [records64, records, hcached, readBucket64_eq hlen h hseek]
  cases hloaded : r.records (bucketOf (keyFromGram parts.1) r.numBuckets) <;>
    simp only [containsSlot64, containsSlot, hrecords, hloaded]

end Reading

section Runs

variable {a : Allocator} {r : DiskSlotIndexReader} {numBuckets : ℕ}
  {single : Option (Bytes × List ℕ)}

/-- A reader of these buckets. Only buckets with good regions are in the cache. -/
structure Reads64 (a : Allocator) (numBuckets : ℕ) (single : Option (Bytes × List ℕ))
    (r : DiskSlotIndexReader) : Prop where
  numBuckets_eq : r.numBuckets = numBuckets
  single_eq : r.single = single
  cached : ∀ b ∈ r.cache.keys, GoodBucket a single b

/-- The records of a bucket are found without a panic iff its region is good. -/
theorem Reads64.records64 (h : Reads64 a numBuckets single r)
    (hlen : ∀ p, single = some p → p.2.length = numBuckets + 1) {b : ℕ} (hb : b < numBuckets) :
    (r.records64 a b = .error .panic ↔ ¬ GoodBucket a single b) ∧
      ∀ records r', r.records64 a b = .ok (records, r') → Reads64 a numBuckets single r' := by
  have hpanic : r.readBucket64 a b = .error .panic ↔ ¬ GoodBucket a single b := by
    rw [← h.single_eq]
    refine readBucket64_eq_panic_iff fun p hp => ?_
    rw [hlen p (h.single_eq.symm.trans hp)]
    omega
  rw [DiskSlotIndexReader.records64]
  cases hget : r.cache.get? b with
  | some records =>
    have hgood := h.cached b (OrderedDict.get?_isSome_iff.mp (by rw [hget]; rfl))
    refine ⟨iff_of_false (by rintro ⟨⟩) (not_not_intro hgood), fun _ _ heq => ?_⟩
    cases heq
    exact h
  | none =>
    dsimp only
    cases hread : r.readBucket64 a b with
    | error fault =>
      rw [hread, Except.error.injEq] at hpanic
      exact ⟨Except.error.injEq fault Fault.panic ▸ hpanic, fun _ _ heq => by cases heq⟩
    | ok records =>
      rw [hread] at hpanic
      have hgood : GoodBucket a single b := not_not.mp fun hbad => by cases hpanic.mpr hbad
      refine ⟨iff_of_false (by rintro ⟨⟩) (not_not_intro hgood), fun _ _ heq => ?_⟩
      cases heq
      refine ⟨h.numBuckets_eq, h.single_eq, fun c hc => ?_⟩
      -- a bucket of the new cache was there before, or is the one that was loaded
      have hkeys : c ∈ r.cache.keys ∨ c = b := by
        have hold : ∀ {d : OrderedDict ℕ (List Bytes)}, d.keys ⊆ r.cache.keys →
            c ∈ (d.set b records).keys → c ∈ r.cache.keys ∨ c = b := by
          intro d hsub hmem
          rw [OrderedDict.keys_set] at hmem
          split_ifs at hmem
          · exact .inl (hsub hmem)
          · exact (List.mem_append.mp hmem).imp (fun hc => hsub hc) List.mem_singleton.mp
        refine hold ?_ hc
        split_ifs
        · rw [OrderedDict.keys_popFirst]
          exact List.tail_subset _
        · exact List.Subset.refl _
      rcases hkeys with hc | rfl
      · exact h.cached c hc
      · exact hgood

/-- One lookup panics iff there are no buckets or its region is bad. The reader stays one of these
buckets. -/
theorem Reads64.containsSlot64 (h : Reads64 a numBuckets single r)
    (hlen : ∀ p, single = some p → p.2.length = numBuckets + 1) (parts : Gram) (slot : ℕ) :
    ((r.containsSlot64 a parts slot).1 = .error .panic ↔
        numBuckets = 0 ∨ ¬ GoodBucket a single (bucketOf (keyFromGram parts.1) numBuckets)) ∧
      Reads64 a numBuckets single (r.containsSlot64 a parts slot).2 := by
  rw [DiskSlotIndexReader.containsSlot64, h.numBuckets_eq]
  by_cases hzero : numBuckets = 0
  · rw [if_pos hzero]
    exact ⟨iff_of_true rfl (.inl hzero), h⟩
  · rw [if_neg hzero]
    have hb : bucketOf (keyFromGram parts.1) numBuckets < numBuckets :=
      bucketOf_lt _ (Nat.pos_of_ne_zero hzero)
    obtain ⟨hpanic, hnext⟩ := h.records64 hlen hb
    rw [or_iff_right hzero, ← hpanic]
    dsimp only
    cases hrec : r.records64 a (bucketOf (keyFromGram parts.1) numBuckets) with
    | error fault => exact ⟨by simp only [Except.error.injEq], h⟩
    | ok p =>
      obtain ⟨records, r'⟩ := p
      exact ⟨iff_of_false (scanRecords_ne_panic _ _ _ _) (by rintro ⟨⟩), hnext records r' hrec⟩

/-- Lookups panic iff there are no buckets or one of the regions is bad. -/
theorem Reads64.lookups64 (h : Reads64 a numBuckets single r)
    (hlen : ∀ p, single = some p → p.2.length = numBuckets + 1) (queries : List (Gram × ℕ)) :
    (∀ res ∈ r.lookups64 a queries, res ≠ .error .panic) ↔ ∀ q ∈ queries,
      numBuckets ≠ 0 ∧ GoodBucket a single (bucketOf (keyFromGram q.1.1) numBuckets) := by
  induction queries generalizing r with
  | nil => simp [DiskSlotIndexReader.lookups64]
  | cons q queries ih =>
    obtain ⟨hpanic, hnext⟩ := h.containsSlot64 hlen q.1 q.2
    rw [DiskSlotIndexReader.lookups64, List.forall_mem_cons, List.forall_mem_cons, ih hnext]
    refine and_congr_left fun _ => ?_
    rw [ne_eq, hpanic, not_or, not_not]

end Runs

/-! ### Opening and looking up -/

/-- Opening an index and looking up grams never panics. -/
def Survives (a : Allocator) (files : IndexFiles) (cacheCapacity : ℕ) (queries : List (Gram × ℕ)) :
    Prop :=
  openFiles64 a files cacheCapacity ≠ .error .panic ∧
    ∀ r, openFiles64 a files cacheCapacity = .ok r →
      ∀ res ∈ r.lookups64 a queries, res ≠ .error .panic

/-- The offsets that the files of layout `v3` give. -/
def offsetTable (files : IndexFiles) : Option (List ℕ) :=
  files.dataBin.bind fun _ => files.offsetsBin.map fun offData =>
    (slots 8 offData).map LittleEndian.decode

/-- Whether files can be opened and looked up. In layout `v2`, there is a bucket. In layout `v3`,
there is memory for one offset more than buckets, and if the offsets are that many, the regions are
good. -/
def Sound (a : Allocator) (files : IndexFiles) (queries : List (Gram × ℕ)) : Prop :=
  ∀ format numBuckets count, readMeta files = .ok (format, numBuckets, count) →
    (format = FORMAT_V2 → queries ≠ [] → numBuckets ≠ 0) ∧
    (format = FORMAT_V3 → ∀ offsets, offsetTable files = some offsets →
      a.allocates ((numBuckets.toNat + 1) * 8) ∧
      (offsets.length = numBuckets.toNat + 1 → ∀ q ∈ queries, numBuckets ≠ 0 ∧
        GoodRegion a offsets (bucketOf (keyFromGram q.1.1) numBuckets.toNat)))

section Survives

variable {a : Allocator} {files : IndexFiles} {cacheCapacity : ℕ} {queries : List (Gram × ℕ)}

/-- Opening an index of layout `v3`: a file is missing, or there is memory for the offsets or
not. -/
private theorem openSingle64_cases (a : Allocator) (files : IndexFiles) (n : ℕ) :
    (offsetTable files = none ∧ ∃ e, openSingle64 a files n = .error (.error e)) ∨
      ∃ dataFile offsets, offsetTable files = some offsets ∧
        openSingle64 a files n =
          if a.allocates ((n + 1) * 8) then
            if offsets.length = n + 1 then .ok (dataFile, offsets)
            else .error (.error s!"offsets.bin has {offsets.length} entries, expected {n + 1}")
          else .error .panic := by
  rw [openSingle64, offsetTable]
  cases hdata : files.dataBin with
  | none => exact .inl ⟨rfl, _, rfl⟩
  | some dataFile =>
    cases hoff : files.offsetsBin with
    | none => exact .inl ⟨rfl, _, rfl⟩
    | some offData =>
      refine .inr ⟨dataFile, _, rfl, ?_⟩
      simp only [orError, Outcome.ofExcept_ok, Except.ok_bind]
      by_cases hmem : a.allocates ((n + 1) * 8) = true
      · have hbytes := a.lt_of_allocates hmem
        rw [checkedAdd_eq_ok (show n + 1 < 2 ^ 64 by omega), Except.ok_bind,
          if_neg (not_not_intro hmem), if_pos hmem]
        by_cases hlen : ((slots 8 offData).map LittleEndian.decode).length = n + 1
        · rw [if_neg (not_not_intro hlen), if_pos hlen]
          rfl
        · rw [if_pos hlen, if_neg hlen]
          rfl
      · rw [if_neg hmem]
        -- the sum leaves the words, or the memory is not there
        by_cases hadd : n + 1 < 2 ^ 64
        · rw [checkedAdd_eq_ok hadd, Except.ok_bind, if_pos hmem]
          rfl
        · rw [checkedAdd_eq_panic hadd]
          rfl

/-- Opening files whose description could be read (`hmeta`): by its format, as buckets of their own
or as one file with offsets, or as an error. -/
private theorem openFiles64_of_meta (a : Allocator) (cacheCapacity : ℕ) {format : String}
    {numBuckets count : UInt64} (hmeta : readMeta files = .ok (format, numBuckets, count)) :
    openFiles64 a files cacheCapacity = (do
      let single ←
        if format = FORMAT_V2 then pure none
        else if format = FORMAT_V3 then some <$> openSingle64 a files numBuckets.toNat
        else throw (.error (s!"unsupported slot index format: {format} "
          ++ s!"(expected {FORMAT_V2} or {FORMAT_V3})"))
      return ⟨files.dir, numBuckets.toNat, count.toNat, .empty, max cacheCapacity 1, single⟩) := by
  rw [openFiles64, hmeta]
  rfl

/-- A reader that was just opened. -/
theorem reads64_empty (a : Allocator) (dir : IndexDir) (numBuckets count capacity : ℕ)
    (single : Option (Bytes × List ℕ)) :
    Reads64 a numBuckets single ⟨dir, numBuckets, count, .empty, capacity, single⟩ :=
  ⟨rfl, rfl, fun b hb => by cases hb⟩

theorem survives_of_error {e : String} (h : openFiles64 a files cacheCapacity = .error (.error e)) :
    Survives a files cacheCapacity queries :=
  ⟨by rw [h]; rintro ⟨⟩, fun r hr => by rw [h] at hr; cases hr⟩

theorem survives_iff_of_ok {r : DiskSlotIndexReader}
    (h : openFiles64 a files cacheCapacity = .ok r) :
    Survives a files cacheCapacity queries ↔
      ∀ res ∈ r.lookups64 a queries, res ≠ .error .panic := by
  rw [Survives, h]
  refine ⟨fun hs => hs.2 r rfl, fun hs => ⟨by rintro ⟨⟩, fun r' hr' => ?_⟩⟩
  cases hr'
  exact hs

/-- Opening an index and looking up grams, with any number of buckets in the cache, never panics iff
the files are sound for the lookups: an index of format `v2` that is asked has a bucket, and one of
format `v3` gets memory for its offsets and, where these are as many as its buckets need, has good
regions for the grams that are looked up. -/
theorem survives_iff (a : Allocator) (files : IndexFiles) (cacheCapacity : ℕ)
    (queries : List (Gram × ℕ)) :
    Survives a files cacheCapacity queries ↔ Sound a files queries := by
  cases hmeta : readMeta files with
  | error e =>
    -- without a description nothing is opened, and nothing can panic
    have hopen : openFiles64 a files cacheCapacity = .error (.error e) := by
      rw [openFiles64, hmeta]
      rfl
    refine iff_of_true (survives_of_error hopen) fun format numBuckets count h => ?_
    rw [hmeta] at h
    cases h
  | ok p =>
    obtain ⟨format, numBuckets, count⟩ := p
    -- with one, the condition is about its own format and bucket count
    have hsound : Sound a files queries ↔ (format = FORMAT_V2 → queries ≠ [] → numBuckets ≠ 0) ∧
        (format = FORMAT_V3 → ∀ offsets, offsetTable files = some offsets →
          a.allocates ((numBuckets.toNat + 1) * 8) ∧
          (offsets.length = numBuckets.toNat + 1 → ∀ q ∈ queries, numBuckets ≠ 0 ∧
            GoodRegion a offsets (bucketOf (keyFromGram q.1.1) numBuckets.toNat))) :=
      ⟨fun h => h format numBuckets count hmeta, fun h _ _ _ h' => by
        rw [hmeta] at h'
        cases h'
        exact h⟩
    have hzero : numBuckets.toNat ≠ 0 ↔ numBuckets ≠ 0 := by
      rw [ne_eq, ne_eq, ← UInt64.toNat_inj]
      rfl
    have hopen := openFiles64_of_meta a cacheCapacity hmeta
    rw [hsound]
    by_cases hv2 : format = FORMAT_V2
    · -- every bucket has its own file
      have hv3 : format ≠ FORMAT_V3 := by
        rw [hv2]
        decide
      rw [if_pos hv2] at hopen
      rw [survives_iff_of_ok hopen, (reads64_empty ..).lookups64 (by rintro _ ⟨⟩)]
      constructor
      · intro h
        refine ⟨fun _ hne => ?_, fun heq => absurd heq hv3⟩
        obtain ⟨q, hq⟩ := List.exists_mem_of_ne_nil _ hne
        exact hzero.mp (h q hq).1
      · rintro ⟨h, -⟩ q hq
        exact ⟨hzero.mpr (h hv2 (List.ne_nil_of_mem hq)), by rintro _ ⟨⟩⟩
    rw [if_neg hv2] at hopen
    by_cases hv3 : format = FORMAT_V3
    · rw [if_pos hv3] at hopen
      -- one file for all buckets, with the table of their offsets
      rcases openSingle64_cases a files numBuckets.toNat with ⟨htable, e, hsingle⟩ |
        ⟨dataFile, offsets, htable, hsingle⟩
      · rw [hsingle] at hopen
        refine iff_of_true (survives_of_error hopen) ⟨fun h => absurd h hv2, fun _ offsets h => ?_⟩
        rw [htable] at h
        cases h
      rw [htable]
      by_cases hmem : a.allocates ((numBuckets.toNat + 1) * 8) = true
      · rw [if_pos hmem] at hsingle
        by_cases hlen : offsets.length = numBuckets.toNat + 1
        · -- the offsets are as many as they should be, so lookups find their regions
          rw [if_pos hlen] at hsingle
          rw [hsingle] at hopen
          rw [survives_iff_of_ok hopen, (reads64_empty ..).lookups64 (by rintro _ ⟨⟩; exact hlen)]
          constructor
          · intro h
            refine ⟨fun heq => absurd heq hv2, fun _ offsets' heq => ?_⟩
            cases heq
            exact ⟨hmem, fun _ q hq => ⟨hzero.mp (h q hq).1, (h q hq).2 _ rfl⟩⟩
          · rintro ⟨-, h⟩ q hq
            obtain ⟨hne, hregion⟩ := (h hv3 offsets rfl).2 hlen q hq
            refine ⟨hzero.mpr hne, fun p hp => ?_⟩
            cases hp
            exact hregion
        · rw [if_neg hlen] at hsingle
          rw [hsingle] at hopen
          -- another number of offsets is an error already when the files are opened
          refine iff_of_true (survives_of_error hopen)
            ⟨fun h => absurd h hv2, fun _ offsets' heq => ?_⟩
          cases heq
          exact ⟨hmem, fun h => absurd h hlen⟩
      · rw [if_neg hmem] at hsingle
        rw [hsingle] at hopen
        exact iff_of_false (fun h => h.1 hopen) fun h => hmem (h.2 hv3 offsets rfl).1
    · rw [if_neg hv3] at hopen
      -- any other format is refused
      exact iff_of_true (survives_of_error hopen) ⟨fun h => absurd h hv2, fun h => absurd h hv3⟩

/-- An index of layout `v2` without buckets. -/
def noBuckets : IndexFiles where
  path := "index"
  indexJson := some (.ok (.object [("format", .string FORMAT_V2), ("num_buckets", .posInt 0),
    ("count", .posInt 0)]))
  dataBin := none
  offsetsBin := none
  buckets _ := none

theorem not_survives_noBuckets :
    ¬ Survives (.upTo 4096 (by decide)) noBuckets 64 [(⟨List.replicate 16 0, rfl⟩, 0)] := by
  intro h
  exact h.2 _ rfl _
    (by simp [DiskSlotIndexReader.lookups64, DiskSlotIndexReader.containsSlot64]) rfl

end Survives

end SlotIndex

end EngramDB
