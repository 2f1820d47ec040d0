import EngramDB.Python.DiskSlotIndex.Build

/-!
# Directories of the Python package, read by the native reader

The native reader opens the layouts `v2` and `v3` and takes the bucket of a gram from its FNV-1a
hash, whatever the description of the index says of the hash. A build of layout `v3` may have used
BLAKE2b. In such an index the native reader looks for a gram in the bucket of the wrong hash.

* `foldlM_countRow`: the first pass of a build, and when it fails;
* `build_snd`: what a build writes;
* `holds_runBuilds`: what a run of builds leaves in a directory;
* `readAlike_runBuilds_iff`: both readers find the same slots iff every tuple has the same bucket
  under both hashes, or the hash of the last build is FNV-1a, or its layout is not `v3`.
-/

namespace EngramDB

open SlotBuffer Bucketing Chunking SlotIndex

namespace DiskSlotIndex

/-- The arguments of a build. The slots are those of the tuples in their order. -/
structure BuildCall where
  /-- The tuples. -/
  rowids : List Gram
  /-- Number of buckets. -/
  numBuckets : ℕ
  /-- There is a bucket. -/
  numBuckets_pos : 0 < numBuckets
  /-- The hash that gives a tuple its bucket. -/
  hashName : String
  /-- Whether there is one file for all buckets. -/
  singleFile : Bool
  /-- How many buckets the index that is opened keeps. -/
  cacheBuckets : ℕ

namespace BuildCall

/-- The build: the index that it opens, and the directory. -/
def build (blake2b : Bytes → Bytes) (c : BuildCall) (dir : IndexDir) :
    Py DiskSlotIndex × IndexDir :=
  DiskSlotIndex.build blake2b (c.rowids.map tupleOf) dir 16 c.numBuckets
    c.cacheBuckets none c.hashName
    c.singleFile

/-- The hash is one that builds accept, the counts of the buckets are an array, and the records fit
into a file. -/
def Succeeds (c : BuildCall) : Prop :=
  c.hashName ∈ ["blake2b", "fnv1a-64"] ∧ (c.numBuckets + 1) * 8 < 2 ^ 63 ∧
    c.rowids.length * SlotIndex.RECORD_BYTES ≤ maxFileBytes

instance (c : BuildCall) : Decidable c.Succeeds := inferInstanceAs (Decidable (_ ∧ _))

/-- The build is not for the native reader, its hash is that of the native reader, or every tuple
has the same bucket under both hashes. -/
def SameBuckets (blake2b : Bytes → Bytes) (c : BuildCall) : Prop :=
  c.singleFile = false ∨ c.hashName = "fnv1a-64" ∨ ∀ parts ∈ c.rowids,
    bucketOf (keyFromGram parts.1) c.numBuckets =
      LittleEndian.decode (blake2b (keyFromGram parts.1)) % c.numBuckets

instance (blake2b : Bytes → Bytes) (c : BuildCall) : Decidable (c.SameBuckets blake2b) :=
  inferInstanceAs (Decidable (_ ∨ _))

/-- The grams of a build. -/
def grams (c : BuildCall) : List (List UInt64) := c.rowids.map Subtype.val

/-- The bucket of a key. -/
def bucketOfKey (blake2b : Bytes → Bytes) (c : BuildCall) (key : Bytes) : ℕ :=
  hashOf blake2b c.hashName key % c.numBuckets

/-- The records of a bucket. -/
def content (blake2b : Bytes → Bytes) (c : BuildCall) (b : ℕ) : List Bytes :=
  sortedBucket (fun rec => c.bucketOfKey blake2b (recordKey rec)) (recordsOf c.grams) b

/-- The fields of `index.json`. -/
def fields (c : BuildCall) : List (String × JsonValue) :=
  metaOf 16 c.numBuckets c.rowids.length c.cacheBuckets c.hashName c.singleFile

/-- The directory with the files of an index. A bucket without records has no file of its own, and
an older file stays. -/
def written (blake2b : Bytes → Bytes) (c : BuildCall) (dir : IndexDir) : IndexDir :=
  if c.singleFile then
    { dir with
      dataBin := some (parts (c.content blake2b) c.numBuckets).flatten
      offsetsBin := some ((Bucketing.offsets
        ((parts (c.content blake2b) c.numBuckets).map List.length)).flatMap (LittleEndian.encode 8))
      indexJson := some c.fields }
  else
    { dir with
      buckets := fun b =>
        if b < c.numBuckets ∧ c.content blake2b b ≠ [] then some (c.content blake2b b).flatten
        else dir.buckets b
      indexJson := some c.fields }

end BuildCall

/-- The directory after a run of builds, some of which may fail. -/
def runBuilds (blake2b : Bytes → Bytes) (dir : IndexDir) (calls : List BuildCall) : IndexDir :=
  calls.foldl (fun dir c => (c.build blake2b dir).2) dir

/-- The last build that succeeds. -/
def lastBuilt (calls : List BuildCall) : Option BuildCall :=
  (calls.filter fun c => c.Succeeds).getLast?

/-- When the native reader opens a directory, so does the Python package, and after any lookups on
both, the native reader finds a gram at the slots at which the package does. -/
def ReadAlike (blake2b : Bytes → Bytes) (dir : IndexDir) : Prop :=
  ∀ cacheCapacity r, DiskSlotIndexReader.openDir dir cacheCapacity = .ok r →
    ∀ cacheBuckets, ∃ ix, openDir dir cacheBuckets = .ok ix ∧
      ∀ asked calls (parts : Gram) (slot : ℕ),
        ((r.after asked).containsSlot parts slot).1 = .ok true ↔
          ∃ slots, (lookupAll blake2b (tupleOf parts) (after blake2b ix calls)).1 = .ok slots ∧
            slot ∈ slots

section Passes

variable {blake2b : Bytes → Bytes} {numBuckets : ℕ} {hashName : String}

/-- Every gram of a build has its heads. -/
theorem length_of_mem_map_val {rows : List Gram} {g : List UInt64} (h : g ∈ rows.map Subtype.val) :
    g.length = HEADS := by
  obtain ⟨parts, -, rfl⟩ := List.mem_map.mp h
  exact parts.2

/-- The first pass counts and writes the records of the tuples, unless they do not fit into a
file. -/
theorem foldlM_countRow (hpos : 0 < numBuckets) (rows : List Gram) :
    (rows.map tupleOf).foldlM (countRow blake2b numBuckets hashName none)
        ⟨[], List.replicate numBuckets 0, 0⟩ =
      if rows.length * SlotIndex.RECORD_BYTES ≤ maxFileBytes then
        .ok (counted blake2b hashName numBuckets (recordsOf (rows.map Subtype.val)))
      else .error (.osError "[Errno 27] File too large") := by
  induction rows using List.reverseRecOn with
  | nil =>
    rw [if_pos (by simp), List.map_nil, recordsOf, List.map_nil, List.zipIdx_nil, List.map_nil,
      counted, counts_nil]
    rfl
  | append_singleton rows parts ih =>
    rw [List.map_append, List.foldlM_append, ih, List.map_append, List.map_singleton,
      List.map_singleton, recordsOf_append_singleton, List.length_append, List.length_singleton,
      Nat.add_mul, Nat.one_mul]
    by_cases hfits : rows.length * SlotIndex.RECORD_BYTES ≤ maxFileBytes
    · have hcount : rows.length < 2 ^ 64 := by
        simp only [SlotIndex.RECORD_BYTES, HEADS, maxFileBytes] at hfits
        omega
      have hraw : (recordsOf (rows.map Subtype.val)).flatten.length =
          rows.length * SlotIndex.RECORD_BYTES := by
        rw [length_flatten fun rec => length_of_mem_recordsOf fun g => length_of_mem_map_val,
          length_recordsOf, List.length_map]
      -- without given slots a row gets the number of rows before it
      have hslot : slotOf none (counted blake2b hashName numBuckets
          (recordsOf (rows.map Subtype.val))).count = .ok (rows.length : ℤ) := by
        rw [counted, length_recordsOf, List.length_map]
        rfl
      rw [if_pos hfits, Except.ok_bind, List.foldlM_cons, countRow_eq hpos _ hslot hcount]
      simp only [counted, hraw]
      rw [counts_append_singleton, List.flatten_append, List.flatten_singleton, List.length_append,
        List.length_singleton, List.length_map, recordBucket, recordKey_record parts.2]
      -- the last row is the one that can make the file too large
      by_cases hroom : rows.length * SlotIndex.RECORD_BYTES + SlotIndex.RECORD_BYTES ≤ maxFileBytes
      · rw [if_pos hroom, if_neg (Nat.not_lt.mpr hroom)]
        rfl
      · rw [if_neg hroom, if_pos (Nat.not_le.mp hroom)]
        rfl
    · rw [if_neg hfits, if_neg fun h => hfits (Nat.le_trans (Nat.le_add_right _ _) h)]
      rfl

end Passes

section Builds

variable {c : BuildCall}

/-- A build writes one record for every tuple. -/
theorem length_recordsOf_grams : (recordsOf c.grams).length = c.rowids.length := by
  rw [length_recordsOf, BuildCall.grams, List.length_map]

/-- Every record of a build has the length of a record. -/
theorem width_recordsOf_grams (rec : Bytes) (h : rec ∈ recordsOf c.grams) :
    rec.length = SlotIndex.RECORD_BYTES :=
  length_of_mem_recordsOf (fun _ => length_of_mem_map_val) h

/-- The passes place the records of the tuples in the regions of their buckets. -/
private theorem groupRows_of_succeeds (blake2b : Bytes → Bytes) (h : c.Succeeds) :
    ∃ offs grouped, groupRows blake2b (c.rowids.map tupleOf) c.numBuckets none c.hashName =
        .ok (c.rowids.length, offs, grouped) ∧
      Regions (recordBucket blake2b c.hashName c.numBuckets) (recordsOf c.grams) c.numBuckets offs
        grouped := by
  obtain ⟨-, hbuckets, hfits⟩ := h
  rw [← length_recordsOf_grams]
  refine groupRows_of_counted c.numBuckets_pos hbuckets width_recordsOf_grams ?_
  rw [foldlM_countRow c.numBuckets_pos, if_pos hfits]
  rfl

/-- The passes fail when the counts are too many or the records do not fit. -/
private theorem groupRows_of_not_succeeds (blake2b : Bytes → Bytes)
    (hname : c.hashName ∈ ["blake2b", "fnv1a-64"]) (h : ¬ c.Succeeds) :
    ∃ e, groupRows blake2b (c.rowids.map tupleOf) c.numBuckets none c.hashName = .error e := by
  rw [groupRows]
  rcases Nat.lt_or_ge (c.numBuckets * 8) (2 ^ 63) with hn | hn
  · rw [zeros_eq_ok hn, Except.ok_bind, foldlM_countRow c.numBuckets_pos]
    by_cases hfits : c.rowids.length * SlotIndex.RECORD_BYTES ≤ maxFileBytes
    · obtain ⟨e, he⟩ := exists_zeros_eq_error (n := c.numBuckets + 1)
        (Nat.le_of_not_lt fun hlt => h ⟨hname, hlt, hfits⟩)
      rw [if_pos hfits, Except.ok_bind, he]
      exact ⟨e, rfl⟩
    · rw [if_neg hfits]
      exact ⟨_, rfl⟩
  · obtain ⟨e, he⟩ := exists_zeros_eq_error hn
    rw [he]
    exact ⟨e, rfl⟩

/-- A build writes an index when it succeeds, and nothing else. -/
theorem build_snd (blake2b : Bytes → Bytes) (c : BuildCall) (dir : IndexDir) :
    (c.build blake2b dir).2 = if c.Succeeds then c.written blake2b dir else dir := by
  rw [BuildCall.build, DiskSlotIndex.build, if_neg (by simp)]
  by_cases hname : c.hashName ∈ ["blake2b", "fnv1a-64"]
  · rw [if_neg (not_not.mpr hname)]
    by_cases hs : c.Succeeds
    · obtain ⟨offs, grouped, hgroup, hregions⟩ := groupRows_of_succeeds blake2b hs
      rw [if_pos hs, hgroup]
      exact writeIndex_eq hregions _ _ _ _ _ _
    · obtain ⟨e, he⟩ := groupRows_of_not_succeeds blake2b hname hs
      rw [if_neg hs, he]
  · rw [if_pos hname, if_neg fun h => hname h.1]

end Builds

section Runs

variable {blake2b : Bytes → Bytes} {c : BuildCall} {last : Option BuildCall} {dir : IndexDir}
  {calls : List BuildCall}

/-- What a directory holds when `last` is the last build that succeeded. -/
structure Holds (blake2b : Bytes → Bytes) (last : Option BuildCall) (dir : IndexDir) : Prop where
  /-- The file of a bucket, of this or an older build, is a sequence of sorted records. -/
  bucket_eq : ∀ b data, dir.buckets b = some data → ∃ records : List Bytes, data = records.flatten ∧
    (∀ rec ∈ records, rec.length = SlotIndex.RECORD_BYTES) ∧ records.Pairwise (· ≤ ·)
  /-- The description is that of the last build. -/
  indexJson_eq : dir.indexJson = last.map BuildCall.fields
  /-- The data file is that of the last build, if it has one. -/
  dataBin_eq : ∀ c ∈ last, c.singleFile →
    dir.dataBin = some (parts (c.content blake2b) c.numBuckets).flatten
  /-- The offsets are those of the last build, if it has some. -/
  offsetsBin_eq : ∀ c ∈ last, c.singleFile → dir.offsetsBin = some ((Bucketing.offsets
    ((parts (c.content blake2b) c.numBuckets).map List.length)).flatMap (LittleEndian.encode 8))
  /-- The last build succeeded. -/
  succeeds : ∀ c ∈ last, c.Succeeds

/-- An empty directory holds no build. -/
private theorem holds_empty (blake2b : Bytes → Bytes) (path : String) :
    Holds blake2b none (.empty path) where
  bucket_eq _ _ h := by cases h
  indexJson_eq := rfl
  dataBin_eq _ h := by cases h
  offsetsBin_eq _ h := by cases h
  succeeds _ h := by cases h

/-- The records of a bucket have their width. -/
theorem width_content {b : ℕ} (rec : Bytes) (h : rec ∈ c.content blake2b b) :
    rec.length = SlotIndex.RECORD_BYTES :=
  width_recordsOf_grams rec (mem_sortedBucket.mp h).1

/-- A build that succeeds (`hs`) leaves its own index, whatever the directory held before (`h`). -/
theorem Holds.written (h : Holds blake2b last dir) (hs : c.Succeeds) :
    Holds blake2b (some c) (c.written blake2b dir) := by
  rw [BuildCall.written]
  cases hsingle : c.singleFile with
  | true =>
    exact {
      bucket_eq := h.bucket_eq
      indexJson_eq := rfl
      dataBin_eq := by rintro _ ⟨⟩ -; rfl
      offsetsBin_eq := by rintro _ ⟨⟩ -; rfl
      succeeds := by rintro _ ⟨⟩; exact hs }
  | false =>
    exact {
      bucket_eq := by
        intro b data hdata
        -- a bucket that has no rows now keeps the file of an earlier build
        simp only [Bool.false_eq_true, if_false] at hdata
        split_ifs at hdata with hb
        · exact ⟨c.content blake2b b, (Option.some.inj hdata).symm, width_content,
            pairwise_sortedBucket _ _ b⟩
        · exact h.bucket_eq b data hdata
      indexJson_eq := rfl
      dataBin_eq := by
        rintro _ ⟨⟩ hc
        rw [hsingle] at hc
        cases hc
      offsetsBin_eq := by
        rintro _ ⟨⟩ hc
        rw [hsingle] at hc
        cases hc
      succeeds := by rintro _ ⟨⟩; exact hs }

/-- A run of builds leaves the index of the last build that succeeds. -/
theorem holds_runBuilds (blake2b : Bytes → Bytes) (calls : List BuildCall) (path : String) :
    Holds blake2b (lastBuilt calls) (runBuilds blake2b (.empty path) calls) := by
  induction calls using List.reverseRecOn with
  | nil => exact holds_empty blake2b path
  | append_singleton calls c ih =>
    rw [runBuilds, List.foldl_append, lastBuilt, List.filter_append, List.filter_singleton]
    show Holds _ _ (c.build blake2b (runBuilds blake2b (.empty path) calls)).2
    rw [build_snd]
    by_cases hs : c.Succeeds
    · simp only [hs, decide_true, cond_true, if_true, List.getLast?_append, List.getLast?_singleton,
        Option.some_or]
      exact ih.written hs
    · simp only [hs, decide_false, cond_false, if_false, List.append_nil]
      exact ih

/-- The records that readers find in the buckets of the last index. -/
def BuildCall.contentIn (blake2b : Bytes → Bytes) (c : BuildCall) (dir : IndexDir) :
    ℕ → List Bytes :=
  if c.singleFile then c.content blake2b else dir.bucketFile

/-- A directory that holds a build (`h`) has, for each bucket, no file or a file of complete
records. -/
theorem Holds.buckets (h : Holds blake2b last dir) (b : ℕ) :
    dir.buckets b = none ∧ dir.bucketFile b = [] ∨
      dir.buckets b = some (dir.bucketFile b).flatten := by
  rw [IndexDir.bucketFile]
  cases hdata : dir.buckets b with
  | none => exact .inl ⟨rfl, rfl⟩
  | some data =>
    obtain ⟨records, rfl, hwide, -⟩ := h.bucket_eq b data hdata
    dsimp only
    exact .inr (by rw [parseRecords_flatten hwide])

/-- Every record of a bucket file has the length of a record. -/
private theorem width_bucketFile {b : ℕ} (rec : Bytes) (hrec : rec ∈ dir.bucketFile b) :
    rec.length = SlotIndex.RECORD_BYTES := by
  rw [IndexDir.bucketFile] at hrec
  cases hdata : dir.buckets b with
  | none => rw [hdata] at hrec; cases hrec
  | some data => rw [hdata] at hrec; exact length_of_mem_parseRecords hrec

/-- A directory that holds a build has sorted buckets. -/
theorem Holds.sorted_bucketFile (h : Holds blake2b last dir) : dir.Sorted := by
  intro b
  rw [IndexDir.bucketFile]
  cases hdata : dir.buckets b with
  | none => exact .nil
  | some data =>
    obtain ⟨records, rfl, hwide, hsort⟩ := h.bucket_eq b data hdata
    dsimp only
    rw [parseRecords_flatten hwide]
    exact hsort

/-- The parts of the data file are smaller than a file can be. -/
theorem sum_length_parts_lt (hs : c.Succeeds) :
    ((parts (c.content blake2b) c.numBuckets).map List.length).sum < 2 ^ 64 := by
  have hsum : ((parts (c.content blake2b) c.numBuckets).map List.length).sum = _ :=
    sum_length_parts width_recordsOf_grams fun rec _ =>
      Nat.mod_lt (hashOf blake2b c.hashName (recordKey rec)) c.numBuckets_pos
  rw [hsum, length_recordsOf_grams]
  exact Nat.lt_of_le_of_lt hs.2.2 (by decide)

/-- The native reader finds the records that are there, in a layout that it opens. -/
theorem Holds.native_serves (h : Holds blake2b (some c) dir)
    (hlayout : c.singleFile = true ∨ c.hashName = "fnv1a-64") (cacheCapacity : ℕ) :
    ∃ r, DiskSlotIndexReader.openDir dir cacheCapacity = .ok r ∧
      SlotIndex.Serves r c.numBuckets (c.contentIn blake2b dir) := by
  have hjson : dir.indexJson = some c.fields := h.indexJson_eq
  rw [BuildCall.contentIn]
  cases hsingle : c.singleFile with
  | true =>
    -- one file: the reader computes the regions from the offsets that the builder wrote
    have hfiles := openSingle_parts (h.dataBin_eq c rfl hsingle) (h.offsetsBin_eq c rfl hsingle)
      (sum_length_parts_lt (h.succeeds c rfl))
    have hformat : (c.fields.lookup "format").bind JsonValue.asStr = some SlotIndex.FORMAT_V3 := by
      rw [BuildCall.fields, hsingle]
      rfl
    have hlayout : DiskSlotIndexReader.openLayout dir SlotIndex.FORMAT_V3 c.numBuckets =
        .ok (some ((parts (c.content blake2b) c.numBuckets).flatten,
          Bucketing.offsets ((parts (c.content blake2b) c.numBuckets).map List.length))) := by
      rw [DiskSlotIndexReader.openLayout, if_neg (by decide), if_pos rfl, hfiles]
      rfl
    refine ⟨_, openDir_of_fields hjson hformat rfl rfl hlayout cacheCapacity, ?_⟩
    exact {
      numBuckets_eq := rfl
      numBuckets_pos := c.numBuckets_pos
      readBucket_eq :=
        fun b hb => readBucket_single (c.content blake2b) (fun _ => width_content) rfl hb
      sorted := fun b _ => pairwise_sortedBucket _ _ b
      agrees := OrderedDict.agrees_empty }
  | false =>
    -- a file for each bucket: the reader knows only the hash of the second format
    rw [hsingle] at hlayout
    have hformat : (c.fields.lookup "format").bind JsonValue.asStr = some SlotIndex.FORMAT_V2 := by
      rw [BuildCall.fields, hsingle, hlayout.resolve_left Bool.false_ne_true]
      rfl
    have hlayout :
        DiskSlotIndexReader.openLayout dir SlotIndex.FORMAT_V2 c.numBuckets = .ok none := by
      rw [DiskSlotIndexReader.openLayout, if_pos rfl]
    refine ⟨_, openDir_of_fields hjson hformat rfl rfl hlayout cacheCapacity, ?_⟩
    exact {
      numBuckets_eq := rfl
      numBuckets_pos := c.numBuckets_pos
      readBucket_eq := fun b _ => by
        rw [DiskSlotIndexReader.readBucket]
        simp only [IndexDir.bucketFile, Bool.false_eq_true, if_false]
        cases dir.buckets b <;> rfl
      sorted := fun b _ => h.sorted_bucketFile b
      agrees := OrderedDict.agrees_empty }

/-- The native reader opens no index of layout `v1` (`hsingle`) whose hash is not its own
(`hname`). -/
private theorem Holds.native_refuses (h : Holds blake2b (some c) dir)
    (hsingle : c.singleFile = false)
    (hname : c.hashName ≠ "fnv1a-64") (cacheCapacity : ℕ) (r : DiskSlotIndexReader) :
    DiskSlotIndexReader.openDir dir cacheCapacity ≠ .ok r := by
  have hjson : dir.indexJson = some c.fields := h.indexJson_eq
  have hformat : formatOf c.hashName c.singleFile = FORMAT := by
    rw [formatOf, hsingle, if_neg Bool.false_ne_true, if_neg hname]
  have hfields : c.fields.lookup "format" = some (.str FORMAT) := by
    rw [BuildCall.fields, metaOf, hformat]
    rfl
  intro hopen
  rw [DiskSlotIndexReader.openDir, hjson] at hopen
  obtain ⟨fields, hfields', hopen⟩ := Except.bind_eq_ok_iff.mp hopen
  obtain rfl := Except.ok.inj hfields'
  rw [hfields] at hopen
  obtain ⟨format, hformat', hopen⟩ := Except.bind_eq_ok_iff.mp hopen
  obtain rfl := Except.ok.inj hformat'
  obtain ⟨n, -, hopen⟩ := Except.bind_eq_ok_iff.mp hopen
  obtain ⟨count, -, hopen⟩ := Except.bind_eq_ok_iff.mp hopen
  obtain ⟨single, hlayout, -⟩ := Except.bind_eq_ok_iff.mp hopen
  rw [DiskSlotIndexReader.openLayout, if_neg (by decide), if_neg (by decide)] at hlayout
  cases hlayout

/-- The directory holds the index of the last build, with the records that readers find. -/
private theorem Holds.holdsIndex (h : Holds blake2b (some c) dir) :
    HoldsIndex (c.contentIn blake2b dir) c.numBuckets c.rowids.length c.cacheBuckets c.hashName
      c.singleFile dir := by
  rw [BuildCall.contentIn]
  cases hsingle : c.singleFile with
  | true =>
    rw [if_pos rfl]
    exact {
      numBuckets_pos := c.numBuckets_pos
      indexJson_eq := by rw [h.indexJson_eq, ← hsingle]; rfl
      dataBin_eq := fun _ => h.dataBin_eq c rfl hsingle
      offsetsBin_eq := fun _ => h.offsetsBin_eq c rfl hsingle
      fits := fun _ => sum_length_parts_lt (h.succeeds c rfl)
      buckets := fun hfalse => by cases hfalse
      width := fun _ _ => width_content
      sorted := fun b _ => pairwise_sortedBucket _ _ b }
  | false =>
    rw [if_neg Bool.false_ne_true]
    exact {
      numBuckets_pos := c.numBuckets_pos
      indexJson_eq := by rw [h.indexJson_eq, ← hsingle]; rfl
      dataBin_eq := fun htrue => by cases htrue
      offsetsBin_eq := fun htrue => by cases htrue
      fits := fun htrue => by cases htrue
      buckets := fun _ b _ => h.buckets b
      width := fun _ _ => width_bucketFile
      sorted := fun b _ => h.sorted_bucketFile b }

/-- The package opens a directory that holds a build (`h`) and finds the records that are there. -/
theorem Holds.serves (h : Holds blake2b (some c) dir) (cacheBuckets : ℤ) :
    ∃ ix, openDir dir cacheBuckets = .ok ix ∧
      Serves c.hashName c.numBuckets (c.contentIn blake2b dir) ix :=
  h.holdsIndex.serves cacheBuckets

end Runs

section ReadAlike

variable {blake2b : Bytes → Bytes} {c : BuildCall} {dir : IndexDir}

/-- A lookup gives the slots of a gram, if there are some. -/
theorem Serves.exists_lookupAll_iff {ix : DiskSlotIndex} {hashName : String} {numBuckets : ℕ}
    {content : ℕ → List Bytes} (h : Serves hashName numBuckets content ix)
    (parts : Gram) (slot : ℕ) :
    (∃ slots, (DiskSlotIndex.lookupAll blake2b (tupleOf parts) ix).1 = .ok slots ∧ slot ∈ slots) ↔
      slot ∈ storedSlots blake2b hashName numBuckets content parts := by
  rw [h.lookupAll]
  by_cases hnil : storedSlots blake2b hashName numBuckets content parts = []
  · simp [hnil]
  · simp [hnil]

/-- Both readers of an index that both open find the slots of a gram in the bucket that each
takes. -/
theorem Holds.readAlike_iff (h : Holds blake2b (some c) dir)
    (hlayout : c.singleFile = true ∨ c.hashName = "fnv1a-64") :
    ReadAlike blake2b dir ↔ ∀ (parts : Gram) (slot : ℕ),
      slot ∈ slotsOf (c.contentIn blake2b dir) c.numBuckets parts.1 ↔
        slot ∈ storedSlots blake2b c.hashName c.numBuckets (c.contentIn blake2b dir) parts := by
  constructor
  · intro halike parts slot
    obtain ⟨r, hopen, hserves⟩ := h.native_serves hlayout 1
    obtain ⟨ix, hopen', hserves'⟩ := h.serves 1
    obtain ⟨ix', hix, hslots⟩ := halike 1 r hopen 1
    obtain rfl : ix = ix' := Except.ok.inj (hopen'.symm.trans hix)
    rw [← hserves.containsSlot_eq_ok_true_iff, ← hserves'.exists_lookupAll_iff]
    exact hslots [] [] parts slot
  · intro hslots cacheCapacity r hopen cacheBuckets
    obtain ⟨r', hopen', hserves⟩ := h.native_serves hlayout cacheCapacity
    obtain rfl : r = r' := Except.ok.inj (hopen.symm.trans hopen')
    obtain ⟨ix, hix, hserves'⟩ := h.serves cacheBuckets
    refine ⟨ix, hix, fun asked calls parts slot => ?_⟩
    rw [(hserves.after asked).containsSlot_eq_ok_true_iff,
      (hserves'.after blake2b calls).exists_lookupAll_iff]
    exact hslots parts slot

/-- Under FNV-1a both readers take the same bucket. -/
theorem slotsOf_eq_storedSlots (content : ℕ → List Bytes) (numBuckets : ℕ) (parts : Gram) :
    slotsOf content numBuckets parts.1 =
      storedSlots blake2b "fnv1a-64" numBuckets content parts := by
  rw [slotsOf, storedSlots, hashOf, if_pos rfl, bucketOf]

/-- A build that succeeds has no more grams than there are words, for its slots fit into them. -/
theorem length_grams_le (hs : c.Succeeds) : c.grams.length ≤ 2 ^ 64 := by
  have hfits := hs.2.2
  rw [BuildCall.grams, List.length_map]
  simp only [SlotIndex.RECORD_BYTES, HEADS, maxFileBytes] at hfits
  omega

/-- In the index of a build, the native reader finds a gram where it stands, if the gram is in the
bucket that the reader takes. -/
private theorem mem_slotsOf_content (hs : c.Succeeds) (parts : Gram) (slot : ℕ) :
    slot ∈ slotsOf (c.content blake2b) c.numBuckets parts.1 ↔
      c.grams[slot]? = some parts.1 ∧
        c.bucketOfKey blake2b (keyFromGram parts.1) = bucketOf (keyFromGram parts.1) c.numBuckets :=
  mem_map_slotOfRecord_sortedBucket (fun _ => length_of_mem_map_val) (length_grams_le hs) _

/-- In the index of a build, the package finds a gram where it stands. -/
private theorem mem_storedSlots_content (hs : c.Succeeds) (parts : Gram) (slot : ℕ) :
    slot ∈ storedSlots blake2b c.hashName c.numBuckets (c.content blake2b) parts ↔
      c.grams[slot]? = some parts.1 :=
  (mem_map_slotOfRecord_sortedBucket (fun _ => length_of_mem_map_val) (length_grams_le hs)
    (c.bucketOfKey blake2b)).trans (and_iff_left rfl)

/-- An index with one file and the hash BLAKE2b is read alike iff every tuple has the same bucket
under both hashes. -/
private theorem Holds.readAlike_iff_sameBuckets (h : Holds blake2b (some c) dir) :
    ReadAlike blake2b dir ↔ c.SameBuckets blake2b := by
  have hs := h.succeeds c rfl
  by_cases hname : c.hashName = "fnv1a-64"
  · refine iff_of_true ((h.readAlike_iff (.inr hname)).mpr fun parts slot => ?_) (.inr (.inl hname))
    rw [hname, slotsOf_eq_storedSlots]
  cases hsingle : c.singleFile with
  | false =>
    -- layout `v1`, which the native reader refuses
    refine iff_of_true (fun cacheCapacity r hopen => ?_) (.inl hsingle)
    exact absurd hopen (h.native_refuses hsingle hname cacheCapacity r)
  | true =>
    have hcontent : c.contentIn blake2b dir = c.content blake2b := by
      rw [BuildCall.contentIn, if_pos hsingle]
    have hkey :
        ∀ key, c.bucketOfKey blake2b key = LittleEndian.decode (blake2b key) % c.numBuckets := by
      intro key
      rw [BuildCall.bucketOfKey, hashOf, if_neg hname]
    rw [h.readAlike_iff (.inl hsingle), hcontent]
    simp only [mem_slotsOf_content hs, mem_storedSlots_content hs, hkey]
    rw [BuildCall.SameBuckets, hsingle]
    simp only [Bool.true_eq_false, hname, false_or]
    constructor
    · intro hsame parts hparts
      obtain ⟨slot, hslot⟩ := List.mem_iff_getElem?.mp hparts
      have hgram : c.grams[slot]? = some parts.1 := by
        rw [BuildCall.grams, List.getElem?_map, hslot, Option.map_some]
      exact ((hsame parts slot).mpr hgram).2.symm
    · intro hsame parts slot
      refine and_iff_left_of_imp fun hgram => ?_
      rw [BuildCall.grams, List.getElem?_map] at hgram
      obtain ⟨parts', hparts', heq⟩ := Option.map_eq_some_iff.mp hgram
      obtain rfl := Subtype.ext heq
      exact (hsame _ (List.mem_of_getElem? hparts')).symm

end ReadAlike

/-- After any run of builds, the native reader either refuses the directory or finds every gram at
the slots at which the package finds it, iff in the last build that succeeded the buckets are those
of both hashes. -/
theorem readAlike_runBuilds_iff (blake2b : Bytes → Bytes) (calls : List BuildCall) (path : String) :
    ReadAlike blake2b (runBuilds blake2b (.empty path) calls) ↔
      ∀ c ∈ lastBuilt calls, c.SameBuckets blake2b := by
  have h := holds_runBuilds blake2b calls path
  cases hlast : lastBuilt calls with
  | none =>
    rw [hlast] at h
    refine iff_of_true (fun cacheCapacity r hopen => ?_) (fun c hc => by cases hc)
    have hjson : (runBuilds blake2b (.empty path) calls).indexJson = none := h.indexJson_eq
    rw [DiskSlotIndexReader.openDir, hjson] at hopen
    cases hopen
  | some c =>
    rw [hlast] at h
    rw [h.readAlike_iff_sameBuckets]
    simp

/-- The digest of the key of sixteen sevens. -/
def sevensDigest (_ : Bytes) : Bytes := [46, 27, 3, 113, 141, 194, 103, 69]

/-- One tuple, two buckets in one file, and the default hash: the package finds the tuple and the
native reader does not. -/
theorem not_readAlike_sevens :
    let sevens : Gram := ⟨List.replicate 16 7, rfl⟩
    let call : BuildCall := ⟨[sevens], 2, by decide, "blake2b", true, 64⟩
    let dir := (call.build sevensDigest (.empty "index")).2
    ((openDir dir 64).map fun ix => (lookupAll sevensDigest (tupleOf sevens) ix).1) =
      .ok (.ok [0]) ∧
    ((DiskSlotIndexReader.openDir dir 64).map fun r => (r.containsSlot sevens 0).1) =
      .ok (.error
        (.error "rowid tuple not found: [7, 7, 7, 7, 7, 7, 7, 7, 7, 7, 7, 7, 7, 7, 7, 7]")) ∧
    ¬ ReadAlike sevensDigest dir := by
  intro sevens call dir
  have hpackage : ((openDir dir 64).map fun ix => (lookupAll sevensDigest (tupleOf sevens) ix).1) =
      .ok (.ok [0]) := by decide +kernel
  have hnative : ((DiskSlotIndexReader.openDir dir 64).map fun r => (r.containsSlot sevens 0).1) =
      .ok (.error (.error
        "rowid tuple not found: [7, 7, 7, 7, 7, 7, 7, 7, 7, 7, 7, 7, 7, 7, 7, 7]")) := by
    decide +kernel
  refine ⟨hpackage, hnative, fun halike => ?_⟩
  cases hopen : DiskSlotIndexReader.openDir dir 64 with
  | error e =>
    rw [hopen] at hnative
    cases hnative
  | ok r =>
    obtain ⟨ix, hix, hslots⟩ := halike 64 r hopen 64
    rw [hopen] at hnative
    rw [hix] at hpackage
    have hfound := (hslots [] [] sevens 0).mpr ⟨[0], Except.ok.inj hpackage, by simp⟩
    cases hfound.symm.trans (Except.ok.inj hnative)

end DiskSlotIndex

end EngramDB
