import EngramDB.Python.DiskSlotIndex

/-!
# What a build of the Python package leaves

The passes of a build take the records of the tuples to the files of their buckets, whatever slots
the tuples have.

* `countRow_eq`: the first pass at one tuple;
* `groupRows_of_counted`: the second pass, after a first pass that counted records;
* `writeIndex_eq`: the files that the last pass writes;
* `HoldsIndex.serves`: a directory with these files is opened and serves the records;
* `serves_of_build`: an index that is built into an empty directory serves the records of its
  tuples.
-/

namespace EngramDB

open SlotBuffer Bucketing Chunking SlotIndex

namespace DiskSlotIndex

section Passes

variable {blake2b : Bytes → Bytes} {numBuckets : ℕ} {hashName : String}

/-- The bucket of a record. -/
def recordBucket (blake2b : Bytes → Bytes) (hashName : String) (numBuckets : ℕ) (rec : Bytes) : ℕ :=
  hashOf blake2b hashName (recordKey rec) % numBuckets

/-- The first pass at one tuple, whose slot is a word (`hslot`, `hlt`), for a positive number of
buckets (`hpos`). -/
theorem countRow_eq (hpos : 0 < numBuckets) (st : Counting) {slots : Option (List ℤ)} {slot : ℕ}
    (hslot : slotOf slots st.count = .ok (slot : ℤ)) (hlt : slot < 2 ^ 64) (parts : Gram) :
    countRow blake2b numBuckets hashName slots st (tupleOf parts) =
      if maxFileBytes < st.raw.length + SlotIndex.RECORD_BYTES then
        .error (.osError "[Errno 27] File too large")
      else .ok {
        raw := st.raw ++ record parts.1 slot
        counts :=
          st.counts.modify (hashOf blake2b hashName (keyFromGram parts.1) % numBuckets) (· + 1)
        count := st.count + 1 } := by
  have hlength : (keyFromGram parts.1 ++ LittleEndian.encode 8 slot).length =
      SlotIndex.RECORD_BYTES := length_record parts.2
  rw [countRow, rowKey_tupleOf, Except.ok_bind, hslot, Except.ok_bind, bucketId_eq_ok hpos,
    Except.ok_bind, packU64_natCast hlt, Except.ok_bind]
  simp only [hlength]
  split_ifs <;> rfl

/-- The second pass places the records one after another and never raises, for a positive number of
buckets (`hpos`). -/
private theorem foldlM_placeRecord (hpos : 0 < numBuckets) (offs : List ℕ) (records : List Bytes)
    (st : Scatter UInt8) :
    records.foldlM (placeRecord blake2b numBuckets hashName offs) st =
      .ok (records.foldl
        (place SlotIndex.RECORD_BYTES (recordBucket blake2b hashName numBuckets) offs)
        st) := by
  have hplace : ∀ s, ∀ rec ∈ records, placeRecord blake2b numBuckets hashName offs s rec =
      pure (place SlotIndex.RECORD_BYTES (recordBucket blake2b hashName numBuckets)
        offs s rec) := by
    intro s rec _
    rw [placeRecord, bucketId_eq_ok hpos]
    rfl
  exact (Except.foldlM_congr_of_mem hplace st).trans List.foldlM_pure

theorem zeros_eq_ok {n : ℕ} (h : n * 8 < 2 ^ 63) : Py.zeros n = .ok (List.replicate n 0) := by
  rw [Py.zeros, if_neg (by omega), if_neg (by omega)]

theorem exists_zeros_eq_error {n : ℕ} (h : 2 ^ 63 ≤ n * 8) : ∃ e, Py.zeros n = .error e := by
  rw [Py.zeros]
  split_ifs
  · exact ⟨_, rfl⟩
  · exact ⟨_, rfl⟩

theorem chunks_records {records : List Bytes}
    (h : ∀ rec ∈ records, rec.length = SlotIndex.RECORD_BYTES) :
    chunks RECORD_BYTES records.flatten = records :=
  chunks_flatten (by decide) h

/-- The state of the first pass after tuples with these records. -/
def counted (blake2b : Bytes → Bytes) (hashName : String) (numBuckets : ℕ) (records : List Bytes) :
    Counting where
  raw := records.flatten
  counts := counts numBuckets (recordBucket blake2b hashName numBuckets) records
  count := records.length

/-- After a first pass that counted records, the second pass places them in the regions of their
buckets. -/
theorem groupRows_of_counted (hpos : 0 < numBuckets) (hbuckets : (numBuckets + 1) * 8 < 2 ^ 63)
    {rowids : List (List ℤ)} {slots : Option (List ℤ)} {records : List Bytes}
    (hwide : ∀ rec ∈ records, rec.length = SlotIndex.RECORD_BYTES)
    (hcounted : rowids.foldlM (countRow blake2b numBuckets hashName slots)
      ⟨[], List.replicate numBuckets 0, 0⟩ = .ok (counted blake2b hashName numBuckets records)) :
    ∃ offs grouped, groupRows blake2b rowids numBuckets slots hashName =
        .ok (records.length, offs, grouped) ∧
      Regions (recordBucket blake2b hashName numBuckets) records numBuckets offs grouped := by
  have hregions := regions_scatter hwide fun rec _ =>
    Nat.mod_lt (hashOf blake2b hashName (recordKey rec)) hpos
  refine ⟨_, _, ?_, hregions⟩
  rw [groupRows, zeros_eq_ok (by omega), Except.ok_bind, hcounted, Except.ok_bind,
    zeros_eq_ok hbuckets, Except.ok_bind]
  simp only [counted, chunks_records hwide, foldlM_placeRecord hpos, Except.ok_bind]
  rfl

end Passes

section Files

variable {f : Bytes → ℕ} {records : List Bytes} {n : ℕ} {offs : List ℕ} {grouped : Bytes}

/-- The region of a bucket, cut into records and sorted, are the records of the bucket. -/
theorem sortedRecords_eq (h : Regions f records n offs grouped) {b : ℕ} (hb : b < n) :
    sortedRecords grouped (offs.getD b 0) (offs.getD (b + 1) 0) =
      (sortedBucket f records b).flatten := by
  rw [sortedRecords, h.region_eq b hb, chunks_records, sortedBucket]
  exact fun rec hrec => h.width rec (List.mem_of_mem_filter hrec)

/-- The data file and the offsets of the buckets, after the last pass. -/
private theorem foldl_appendBucket (h : Regions f records n offs grouped) :
    (List.range n).foldl (appendBucket offs grouped) ([], [0]) =
      ((parts (sortedBucket f records) n).flatten,
        Bucketing.offsets ((parts (sortedBucket f records) n).map List.length)) := by
  have hparts : (List.range n).map (fun b => sortedRecords grouped (offs.getD b 0)
      (offs.getD (b + 1) 0)) = parts (sortedBucket f records) n :=
    List.map_congr_left fun b hb => sortedRecords_eq h (List.mem_range.mp hb)
  rw [← hparts]
  refine foldl_concat fun b hb hempty => ?_
  rw [sortedRecords_eq h hb, (h.offs_eq_iff hb).mp hempty, List.flatten_nil]

/-- The files of the buckets after the last pass: those with records are written from their regions
(`h`), the others stay. -/
private theorem foldl_writeBucket (h : Regions f records n offs grouped)
    (files : ℕ → Option Bytes) :
    (List.range n).foldl (writeBucket offs grouped) files = fun b =>
      if b < n ∧ sortedBucket f records b ≠ [] then some (sortedBucket f records b).flatten
      else files b := by
  funext b
  refine (foldl_update_apply files _ n b).trans ?_
  by_cases hb : b < n
  · rw [sortedRecords_eq h hb]
    exact if_congr (and_congr_right fun _ => not_congr (h.offs_eq_iff hb)) rfl rfl
  · rw [if_neg fun hc => hb hc.1, if_neg fun hc => hb hc.1]

/-- A directory with the files of an index whose buckets hold `content`. A bucket without records
has no file of its own, and an older file stays. -/
def indexFiles (content : ℕ → List Bytes) (numBuckets : ℕ) (singleFile : Bool)
    (fields : List (String × JsonValue)) (dir : IndexDir) : IndexDir :=
  if singleFile then
    { dir with
      dataBin := some (parts content numBuckets).flatten
      offsetsBin := some ((Bucketing.offsets
        ((parts content numBuckets).map List.length)).flatMap (LittleEndian.encode 8))
      indexJson := some fields }
  else
    { dir with
      buckets := fun b =>
        if b < numBuckets ∧ content b ≠ [] then some (content b).flatten else dir.buckets b
      indexJson := some fields }

/-- The last pass over regions that are filled (`h`) writes the files of the index, in either
layout. -/
theorem writeIndex_eq (h : Regions f records n offs grouped) (heads cacheBuckets count : ℕ)
    (hashName : String) (singleFile : Bool) (dir : IndexDir) :
    writeIndex heads n cacheBuckets hashName singleFile count offs grouped dir =
      indexFiles (sortedBucket f records) n singleFile
        (metaOf heads n count cacheBuckets hashName singleFile) dir := by
  simp only [writeIndex, indexFiles, foldl_appendBucket h, foldl_writeBucket h]
  cases singleFile <;> rfl

end Files

section Open

variable {content : ℕ → List Bytes} {numBuckets count cacheBuckets : ℕ} {hashName : String}
  {singleFile : Bool} {dir : IndexDir}

/-- A directory with an index whose buckets hold the sorted records `content`. -/
structure HoldsIndex (content : ℕ → List Bytes) (numBuckets count cacheBuckets : ℕ)
    (hashName : String) (singleFile : Bool) (dir : IndexDir) : Prop where
  /-- There is a bucket. -/
  numBuckets_pos : 0 < numBuckets
  /-- The description is that of the index. -/
  indexJson_eq : dir.indexJson =
    some (metaOf 16 numBuckets count cacheBuckets hashName singleFile)
  /-- The data file is that of the index, if it has one. -/
  dataBin_eq : singleFile → dir.dataBin = some (parts content numBuckets).flatten
  /-- The offsets are those of the index, if it has some. -/
  offsetsBin_eq : singleFile → dir.offsetsBin = some ((Bucketing.offsets
    ((parts content numBuckets).map List.length)).flatMap (LittleEndian.encode 8))
  /-- The offsets are numbers of eight bytes. -/
  fits : singleFile → ((parts content numBuckets).map List.length).sum < 2 ^ 64
  /-- Without a data file, a bucket has its own file unless it is empty. -/
  buckets : singleFile = false → ∀ b < numBuckets,
    dir.buckets b = none ∧ content b = [] ∨ dir.buckets b = some (content b).flatten
  /-- A record has its width. -/
  width : ∀ b < numBuckets, ∀ rec ∈ content b, rec.length = SlotIndex.RECORD_BYTES
  /-- The records of a bucket are sorted. -/
  sorted : ∀ b < numBuckets, (content b).Pairwise (· ≤ ·)

/-- The table of the offsets is read as it was written. -/
theorem chunks_offsets (offs : List ℕ) :
    chunks 8 (offs.flatMap (LittleEndian.encode 8)) = offs.map (LittleEndian.encode 8) ∧
      (offs.flatMap (LittleEndian.encode 8)).length = offs.length * 8 := by
  have hwide : ∀ p ∈ offs.map (LittleEndian.encode 8), p.length = 8 := by
    intro p hp
    obtain ⟨o, -, rfl⟩ := List.mem_map.mp hp
    exact LittleEndian.length_encode 8 o
  rw [List.flatMap_def]
  exact ⟨chunks_flatten (by decide) hwide, by rw [length_flatten hwide, List.length_map]⟩

/-- The files of layout `v3` are opened as they were written. -/
theorem HoldsIndex.openSingle
    (h : HoldsIndex content numBuckets count cacheBuckets hashName singleFile dir)
    (hsingle : singleFile = true) :
    openSingle dir numBuckets = .ok ((parts content numBuckets).flatten,
      Bucketing.offsets ((parts content numBuckets).map List.length)) := by
  have hsum := h.fits hsingle
  rw [DiskSlotIndex.openSingle, h.dataBin_eq hsingle, h.offsetsBin_eq hsingle]
  set offs := Bucketing.offsets ((parts content numBuckets).map List.length) with hoffs
  have hlength : offs.length = numBuckets + 1 := by simp [hoffs, parts]
  have hdecode :
      (chunks 8 (offs.flatMap (LittleEndian.encode 8))).map LittleEndian.decode = offs := by
    rw [(chunks_offsets offs).1, List.map_map]
    refine (List.map_congr_left fun o ho => ?_).trans (List.map_id offs)
    exact LittleEndian.decode_encode_of_lt (Nat.lt_of_le_of_lt (le_sum_of_mem_offsets ho) hsum)
  simp only [(chunks_offsets offs).2, Nat.mul_mod_left, hdecode, hlength, ne_eq, not_true_eq_false,
    if_false]
  rfl

/-- A directory that holds an index (`h`) is opened, and the description says what is opened. -/
theorem HoldsIndex.openDir_eq
    (h : HoldsIndex content numBuckets count cacheBuckets hashName singleFile dir) (cacheSize : ℤ) :
    let ix : DiskSlotIndex :=
      { directory := dir, format := formatOf hashName singleFile, hashName, heads := 16,
        numBuckets, count
        cacheBuckets := (max 1 cacheSize).toNat, cache := .empty, closed := false
        dataFile := none, offsets := none }
    openDir dir cacheSize = .ok (if singleFile then
      { ix with
        dataFile := some (parts content numBuckets).flatten
        offsets := some (Bucketing.offsets ((parts content numBuckets).map List.length)) }
      else ix) := by
  -- the format that the builder writes is one that the reader knows
  have hmem : some (JsonValue.str (formatOf hashName singleFile)) ∈
      [some (.str FORMAT), some (.str FORMAT_V2), some (.str FORMAT_V3)] := by
    rw [formatOf]
    split_ifs <;> simp
  intro ix
  rw [DiskSlotIndex.openDir, h.indexJson_eq]
  dsimp only
  set fields := metaOf 16 numBuckets count cacheBuckets hashName singleFile with hfields
  have hformat : fields.lookup "format" = some (.str (formatOf hashName singleFile)) := rfl
  rw [hformat, if_neg (not_not.mpr hmem)]
  have hheads : metaItem fields "heads" = .ok (.num 16) := rfl
  have hbuckets : metaItem fields "num_buckets" = .ok (.num numBuckets) := rfl
  have hcount : metaItem fields "count" = .ok (.num count) := rfl
  simp only [hheads, hbuckets, hcount, JsonValue.toInt, Except.ok_bind]
  cases hsingle : singleFile with
  | true =>
    have hv3 : some (JsonValue.str (formatOf hashName true)) = some (.str FORMAT_V3) := rfl
    rw [if_pos hv3, h.openSingle hsingle, if_pos rfl]
    simp only [ix, hsingle]
    rfl
  | false =>
    -- a directory of bucket files is never of the third format
    have hne : some (JsonValue.str (formatOf hashName false)) ≠ some (.str FORMAT_V3) := by
      rw [formatOf, if_neg Bool.false_ne_true]
      split_ifs <;> decide
    rw [if_neg hne, if_neg Bool.false_ne_true]
    simp only [ix, hsingle]
    rfl

/-- An index that a directory holds (`h`) is opened, and serves the records of its buckets. -/
theorem HoldsIndex.serves
    (h : HoldsIndex content numBuckets count cacheBuckets hashName singleFile dir) (cacheSize : ℤ) :
    ∃ ix, openDir dir cacheSize = .ok ix ∧ Serves hashName numBuckets content ix := by
  refine ⟨_, h.openDir_eq cacheSize, ?_⟩
  cases hsingle : singleFile with
  | true =>
    rw [if_pos rfl]
    exact {
      hashName_eq := rfl
      numBuckets_eq := rfl
      numBuckets_pos := h.numBuckets_pos
      not_closed := rfl
      readBucket_eq := by
        intro b hb
        obtain ⟨start, stop, hstart, hstop, hle, hend, hregion⟩ :=
          exists_region_flatten (getElem?_parts content hb)
        -- the region between two offsets is the bucket that was written there
        have hrecords : chunks RECORD_BYTES (readAt (parts content numBuckets).flatten
            start stop) = content b := by
          rw [readAt, if_neg (Nat.not_lt.mpr hle), hregion, chunks_records (h.width b hb)]
        simp only [readBucket, Py.item_eq_ok hstart, Py.item_eq_ok hstop, Except.ok_bind, hrecords]
        split_ifs with heq
        · refine ⟨_, rfl, ?_⟩
          rw [← hrecords, readAt, if_neg (Nat.not_lt.mpr hle), region, heq, Nat.sub_self,
            List.take_zero]
          rfl
        · exact ⟨_, rfl, rfl⟩
      width := h.width
      sorted := h.sorted
      agrees := OrderedDict.agrees_empty }
  | false =>
    rw [if_neg Bool.false_ne_true]
    exact {
      hashName_eq := rfl
      numBuckets_eq := rfl
      numBuckets_pos := h.numBuckets_pos
      not_closed := rfl
      readBucket_eq := by
        intro b hb
        refine ⟨_, rfl, ?_⟩
        rcases h.buckets hsingle b hb with ⟨hnone, hnil⟩ | hsome
        · rw [hnone, hnil]
          rfl
        · rw [hsome, Option.map_some, chunks_records (h.width b hb)]
          rfl
      width := h.width
      sorted := h.sorted
      agrees := OrderedDict.agrees_empty }

end Open

section Entries

variable {blake2b : Bytes → Bytes} {numBuckets : ℕ} {hashName : String} {entries : List (Gram × ℕ)}

/-- The records of tuples with given slots. -/
def entryRecords (entries : List (Gram × ℕ)) : List Bytes := entries.map fun e => record e.1.1 e.2

/-- The tuples of entries. -/
def entryRows (entries : List (Gram × ℕ)) : List (List ℤ) := entries.map fun e => tupleOf e.1

/-- The slots of entries. -/
def entrySlots (entries : List (Gram × ℕ)) : List ℤ := entries.map fun e => (e.2 : ℤ)

theorem width_entryRecords (rec : Bytes) (h : rec ∈ entryRecords entries) :
    rec.length = SlotIndex.RECORD_BYTES := by
  obtain ⟨e, -, rfl⟩ := List.mem_map.mp h
  exact length_record e.1.2

/-- A first pass that goes through has counted the records of the tuples, and they fit into a file.
The entries that were read are in front. -/
private theorem counted_of_foldlM (hpos : 0 < numBuckets) (hslots : ∀ e ∈ entries, e.2 < 2 ^ 64)
    {front rest : List (Gram × ℕ)} (hentries : entries = front ++ rest)
    (hfits : (entryRecords front).flatten.length ≤ maxFileBytes) {st : Counting}
    (h : (entryRows rest).foldlM (countRow blake2b numBuckets hashName (some (entrySlots entries)))
      (counted blake2b hashName numBuckets (entryRecords front)) = .ok st) :
    st = counted blake2b hashName numBuckets (entryRecords entries) ∧
      (entryRecords entries).flatten.length ≤ maxFileBytes := by
  induction rest generalizing front with
  | nil =>
    rw [List.append_nil] at hentries
    rw [hentries]
    exact ⟨(Except.ok.inj h).symm, hfits⟩
  | cons e rest ih =>
    have hmem : e ∈ entries := by simp [hentries]
    -- the row has its own slot, as many slots have been used as rows were counted
    have hslot : slotOf (some (entrySlots entries))
        (counted blake2b hashName numBuckets (entryRecords front)).count = .ok (e.2 : ℤ) := by
      have hget : (entrySlots entries)[(entryRecords front).length]? = some (e.2 : ℤ) := by
        simp [entrySlots, entryRecords, hentries]
      simp only [slotOf, counted, hget]
    have hrows : entryRows (e :: rest) = tupleOf e.1 :: entryRows rest := rfl
    rw [hrows, List.foldlM_cons, countRow_eq hpos _ hslot (hslots e hmem)] at h
    split_ifs at h with hlarge
    · cases h
    · rw [Except.ok_bind] at h
      have hrecords : entryRecords (front ++ [e]) = entryRecords front ++ [record e.1.1 e.2] := by
        rw [entryRecords, List.map_append]
        rfl
      -- counting the row gives the counts of the records up to and including it
      have hstep :
          (⟨(counted blake2b hashName numBuckets (entryRecords front)).raw ++ record e.1.1 e.2,
            (counted blake2b hashName numBuckets (entryRecords front)).counts.modify
              (hashOf blake2b hashName (keyFromGram e.1.1) % numBuckets) (· + 1),
            (counted blake2b hashName numBuckets (entryRecords front)).count + 1⟩ : Counting) =
              counted blake2b hashName numBuckets (entryRecords (front ++ [e])) := by
        rw [hrecords]
        simp only [counted, List.flatten_append, List.flatten_singleton, List.length_append,
          List.length_singleton]
        rw [counts_append_singleton, recordBucket, recordKey_record e.1.2]
      rw [hstep] at h
      refine ih (by rw [hentries, List.append_assoc]; rfl) ?_ h
      rw [hrecords, List.flatten_append, List.flatten_singleton, List.length_append,
        length_record e.1.2]
      exact Nat.not_lt.mp hlarge

/-- The records of an index that is built from entries. -/
def entryContent (blake2b : Bytes → Bytes) (hashName : String) (numBuckets : ℕ)
    (entries : List (Gram × ℕ)) : ℕ → List Bytes :=
  sortedBucket (recordBucket blake2b hashName numBuckets) (entryRecords entries)

/-- Both passes over entries, when they go through: both arrays of counts were created, and the
records fit into a file. -/
private theorem groupRows_entries (hpos : 0 < numBuckets) (hslots : ∀ e ∈ entries, e.2 < 2 ^ 64)
    {grouped : ℕ × List ℕ × Bytes}
    (h : groupRows blake2b (entryRows entries) numBuckets (some (entrySlots entries)) hashName =
      .ok grouped) :
    (entryRecords entries).flatten.length ≤ maxFileBytes ∧
      Regions (recordBucket blake2b hashName numBuckets)
        (entryRecords entries) numBuckets grouped.2.1
        grouped.2.2 := by
  -- an array of counters that was made fits in memory
  have hzeros : ∀ n x, Py.zeros n = .ok x → n * 8 < 2 ^ 63 := by
    intro n x hx
    by_contra hlarge
    obtain ⟨e, he⟩ := exists_zeros_eq_error (Nat.le_of_not_lt hlarge)
    rw [he] at hx
    cases hx
  -- the two passes of the grouping: count the rows of each bucket, then place them
  have hpasses := h
  rw [groupRows] at hpasses
  obtain ⟨first, hfirst, hpasses⟩ := Except.bind_eq_ok_iff.mp hpasses
  obtain ⟨st, hcount, hpasses⟩ := Except.bind_eq_ok_iff.mp hpasses
  obtain ⟨second, hsecond, -⟩ := Except.bind_eq_ok_iff.mp hpasses
  have hbuckets : (numBuckets + 1) * 8 < 2 ^ 63 := hzeros _ _ hsecond
  rw [zeros_eq_ok (by omega)] at hfirst
  obtain rfl := Except.ok.inj hfirst
  have hstart : (⟨[], List.replicate numBuckets 0, 0⟩ : Counting) =
      counted blake2b hashName numBuckets (entryRecords []) := by
    rw [counted, entryRecords, List.map_nil, counts_nil]
    rfl
  have hrun := hcount
  rw [hstart] at hrun
  obtain ⟨rfl, hfits⟩ := counted_of_foldlM hpos hslots (List.nil_append entries).symm
    (Nat.zero_le _) hrun
  obtain ⟨offs, placed, hgroup, hregions⟩ :=
    groupRows_of_counted hpos hbuckets width_entryRecords hcount
  obtain rfl := Except.ok.inj (h.symm.trans hgroup)
  exact ⟨hfits, hregions⟩

/-- The last pass over the records of entries leaves their index in an empty directory. -/
private theorem holdsIndex_entries (hpos : 0 < numBuckets)
    (hfits : (entryRecords entries).flatten.length ≤ maxFileBytes) (path : String)
    (count cacheBuckets : ℕ) (singleFile : Bool) :
    HoldsIndex (entryContent blake2b hashName numBuckets entries) numBuckets count
      cacheBuckets hashName
      singleFile
        (indexFiles (entryContent blake2b hashName numBuckets entries) numBuckets singleFile
        (metaOf 16 numBuckets count cacheBuckets hashName singleFile) (.empty path)) where
  numBuckets_pos := hpos
  indexJson_eq := by
    rw [indexFiles]
    split_ifs <;> rfl
  dataBin_eq := by
    intro hsingle
    rw [indexFiles, if_pos hsingle]
  offsetsBin_eq := by
    intro hsingle
    rw [indexFiles, if_pos hsingle]
  fits := by
    intro _
    -- the regions together are as long as the records
    have hsum : ((parts (entryContent blake2b hashName numBuckets entries) numBuckets).map
        List.length).sum = _ :=
      sum_length_parts width_entryRecords fun rec _ =>
        Nat.mod_lt (hashOf blake2b hashName (recordKey rec)) hpos
    rw [hsum]
    rw [length_flatten width_entryRecords] at hfits
    simp only [maxFileBytes] at hfits
    omega
  buckets := by
    intro hsingle b hb
    rw [indexFiles, hsingle, if_neg Bool.false_ne_true]
    by_cases hnil : entryContent blake2b hashName numBuckets entries b = []
    · exact .inl ⟨if_neg fun h => h.2 hnil, hnil⟩
    · exact .inr (if_pos ⟨hb, hnil⟩)
  width := fun b _ rec hrec => width_entryRecords rec (mem_sortedBucket.mp hrec).1
  sorted := fun b _ => pairwise_sortedBucket _ _ b

/-- The index that a build returns is opened from the directory that the build leaves. -/
theorem openDir_of_build {rowids : List (List ℤ)} {outputDir dir : IndexDir}
    {heads cacheBuckets : ℕ} {slots : Option (List ℤ)} {singleFile : Bool} {ix : DiskSlotIndex}
    (hbuild : build blake2b rowids outputDir heads numBuckets cacheBuckets slots
      hashName singleFile =
      (.ok ix, dir)) : openDir dir cacheBuckets = .ok ix := by
  rw [build] at hbuild
  by_cases hheads : heads ≠ 16
  · rw [if_pos hheads] at hbuild
    cases hbuild
  rw [if_neg hheads] at hbuild
  by_cases hname : hashName ∉ ["blake2b", "fnv1a-64"]
  · rw [if_pos hname] at hbuild
    cases hbuild
  rw [if_neg hname] at hbuild
  cases hgroup : groupRows blake2b rowids numBuckets slots hashName with
  | error e =>
    rw [hgroup] at hbuild
    cases hbuild
  | ok grouped =>
    rw [hgroup] at hbuild
    obtain ⟨hopen, rfl⟩ := Prod.mk.inj hbuild
    exact hopen

/-- When a build into an empty directory returns an index, the index and every index that is opened
later serve the records of the entries. -/
theorem serves_of_build (hpos : 0 < numBuckets)
    (hslots : ∀ e ∈ entries, e.2 < 2 ^ 64) {path : String}
    {cacheBuckets : ℕ} {singleFile : Bool} {ix : DiskSlotIndex} {dir : IndexDir}
    (hbuild : build blake2b (entryRows entries) (.empty path) 16 numBuckets cacheBuckets
      (some (entrySlots entries)) hashName singleFile = (.ok ix, dir)) (cacheSize : ℤ) :
    ∃ ix', openDir dir cacheSize = .ok ix' ∧
      Serves hashName numBuckets (entryContent blake2b hashName numBuckets entries) ix' := by
  rw [build, if_neg (by simp)] at hbuild
  by_cases hname : hashName ∉ ["blake2b", "fnv1a-64"]
  · rw [if_pos hname] at hbuild
    cases hbuild
  · rw [if_neg hname] at hbuild
    cases hgroup : groupRows blake2b (entryRows entries) numBuckets (some (entrySlots entries))
        hashName with
    | error e =>
      rw [hgroup] at hbuild
      cases hbuild
    | ok grouped =>
      obtain ⟨hfits, hregions⟩ := groupRows_entries hpos hslots hgroup
      obtain ⟨count, offs, placed⟩ := grouped
      rw [hgroup] at hbuild
      obtain ⟨-, rfl⟩ := Prod.mk.inj hbuild
      rw [writeIndex_eq hregions]
      exact (holdsIndex_entries hpos hfits path count cacheBuckets singleFile).serves cacheSize

end Entries

end DiskSlotIndex

end EngramDB
