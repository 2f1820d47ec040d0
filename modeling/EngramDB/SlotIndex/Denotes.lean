import EngramDB.SlotIndex.Reader

/-!
# A slot index denotes its keys file

An index that is built into an empty directory finds a gram at the slots at which the gram stands in
the keys file, and at no others. What a build leaves in a directory that had files is described as
well: a bucket without records keeps the file that it had.

* `Grouped.openDir_emit`: the buckets of an index after a build;
* `mem_slotsOf_bucketRecords`: the slots of a gram in the buckets of a keys file;
* `build_denotes`: the answers of an index, and its verification.
-/

namespace EngramDB

namespace SlotIndex

open SlotBuffer Bucketing DiskSlotIndexReader

/-- The records in the file of a bucket. -/
def IndexDir.bucketFile (dir : IndexDir) (b : ℕ) : List Bytes :=
  match dir.buckets b with
  | some data => parseRecords data
  | none => []

/-- The files of the buckets are sorted. -/
def IndexDir.Sorted (dir : IndexDir) : Prop := ∀ b, (dir.bucketFile b).Pairwise (· ≤ ·)

/-- The records that a reader finds in bucket `b` after a build into `dir`: those of the bucket, or
those of an older file where the build writes none. -/
def builtContent (grams : List (List UInt64)) (numBuckets : ℕ) (singleFile : Bool) (dir : IndexDir)
    (b : ℕ) : List Bytes :=
  if singleFile ∨ bucketRecords grams numBuckets b ≠ [] then bucketRecords grams numBuckets b
  else dir.bucketFile b

/-- The bucket files of an empty directory are sorted. -/
theorem IndexDir.sorted_empty (path : String) : (IndexDir.empty path).Sorted := fun _ => .nil

section Open

variable {keys : KeysFile} {numBuckets : ℕ} {cs offs : List ℕ} {grouped : Bytes}
  {dir : IndexDir} {grams : List (List UInt64)}

/-- The records of a bucket have the length of a record, if all grams have their heads. -/
theorem length_of_mem_bucketRecords (hgrams : ∀ g ∈ grams, g.length = HEADS) {b : ℕ} {rec : Bytes}
    (h : rec ∈ bucketRecords grams numBuckets b) : rec.length = RECORD_BYTES :=
  length_of_mem_recordsOf hgrams (List.mem_of_mem_filter (mem_sortRecords.mp h))

/-- The records of a bucket are parsed back from its file, if all grams have their heads. -/
theorem parseRecords_bucketRecords (hgrams : ∀ g ∈ grams, g.length = HEADS) (b : ℕ) :
    parseRecords (bucketRecords grams numBuckets b).flatten = bucketRecords grams numBuckets b :=
  parseRecords_flatten fun _ => length_of_mem_bucketRecords hgrams

/-- The table of the offsets is read as it was written. -/
private theorem decode_offsets {offs : List ℕ} (h : ∀ o ∈ offs, o < 2 ^ 64) :
    (slots 8 (offs.flatMap (LittleEndian.encode 8))).map LittleEndian.decode = offs := by
  rw [List.flatMap_def, slots_flatten (by decide), List.map_map]
  · refine (List.map_congr_left fun o ho => ?_).trans (List.map_id offs)
    exact LittleEndian.decode_encode_of_lt (h o ho)
  · intro p hp
    obtain ⟨o, -, rfl⟩ := List.mem_map.mp hp
    exact LittleEndian.length_encode 8 o

/-- The region of a bucket in one file is found through the offsets. -/
theorem readBucket_single (content : ℕ → List Bytes)
    (hcontent : ∀ b, ∀ rec ∈ content b, rec.length = RECORD_BYTES) {r : DiskSlotIndexReader}
    (hsingle : r.single = some ((parts content numBuckets).flatten,
      offsets ((parts content numBuckets).map List.length)))
    {b : ℕ} (hb : b < numBuckets) : r.readBucket b = .ok (content b) := by
  obtain ⟨start, stop, hstart, hstop, hle, hend, hregion⟩ :=
    exists_region_flatten (getElem?_parts content hb)
  rw [readBucket, hsingle]
  simp only [Outcome.index_eq_ok hstart, Outcome.index_eq_ok hstop, bind, Except.bind]
  rw [← parseRecords_flatten (hcontent b), ← hregion, if_neg (Nat.not_lt.mpr hle),
    if_neg (Nat.not_lt.mpr hend)]
  split_ifs with heq
  · rw [region, heq, Nat.sub_self, List.take_zero]
    rfl
  · rfl

/-- The regions in one file are smaller than a file can be. -/
theorem Grouped.sum_bucketParts_lt (h : Grouped keys numBuckets cs offs grouped) :
    ((bucketParts keys.grams numBuckets).map List.length).sum < 2 ^ 64 := by
  have hsum : ((bucketParts keys.grams numBuckets).map List.length).sum = _ :=
    sum_length_parts h.regions.width fun rec _ => bucketOf_lt _ h.numBuckets_pos
  rw [hsum, length_recordsOf]
  exact Nat.lt_of_le_of_lt h.fits (by decide)

/-- The files of layout `v3` are opened as they were written. -/
theorem openSingle_parts {content : ℕ → List Bytes}
    (hdata : dir.dataBin = some (parts content numBuckets).flatten)
    (hoffs : dir.offsetsBin = some ((offsets ((parts content numBuckets).map List.length)).flatMap
      (LittleEndian.encode 8)))
    (hsum : ((parts content numBuckets).map List.length).sum < 2 ^ 64) :
    openSingle dir numBuckets = .ok ((parts content numBuckets).flatten,
      offsets ((parts content numBuckets).map List.length)) := by
  have hdecode := decode_offsets fun o ho => Nat.lt_of_le_of_lt (le_sum_of_mem_offsets ho) hsum
  have hlength :
      (offsets ((parts content numBuckets).map List.length)).length = numBuckets + 1 := by
    simp [parts]
  simp only [openSingle, hdata, hoffs, orError, bind, Except.bind, hdecode, hlength]
  rfl

/-- An index that was written into a single file opens with its buckets, one behind the other, and
their offsets. -/
private theorem Grouped.openSingle_emit (h : Grouped keys numBuckets cs offs grouped) :
    openSingle (emit numBuckets true cs offs grouped dir) numBuckets =
      .ok ((bucketParts keys.grams numBuckets).flatten,
        offsets ((bucketParts keys.grams numBuckets).map List.length)) :=
  openSingle_parts (by simp only [emit, if_true, h.emitSingle_eq]; rfl)
    (by simp only [emit, if_true, h.emitSingle_eq]; rfl) h.sum_bucketParts_lt

/-- An index is opened by the fields of its description. -/
theorem openDir_of_fields {fields : List (String × JsonValue)} {format : String} {count : ℕ}
    {single : Option (Bytes × List ℕ)} (hjson : dir.indexJson = some fields)
    (hformat : (fields.lookup "format").bind JsonValue.asStr = some format)
    (hbuckets : (fields.lookup "num_buckets").bind JsonValue.asU64 = some numBuckets)
    (hcount : (fields.lookup "count").bind JsonValue.asU64 = some count)
    (hsingle : openLayout dir format numBuckets = .ok single) (cacheCapacity : ℕ) :
    openDir dir cacheCapacity =
      .ok ⟨dir, numBuckets, count, .empty, max cacheCapacity 1, single⟩ := by
  rw [openDir, hjson]
  refine Except.bind_eq_ok_iff.mpr ⟨fields, rfl, ?_⟩
  rw [hformat, hbuckets, hcount]
  exact Except.bind_eq_ok_iff.mpr ⟨_, rfl, Except.bind_eq_ok_iff.mpr ⟨_, rfl,
    Except.bind_eq_ok_iff.mpr ⟨_, rfl, Except.bind_eq_ok_iff.mpr ⟨_, hsingle, rfl⟩⟩⟩⟩

/-- An index is opened by its description (`hjson`), if the files of its layout can be opened
(`hsingle`), with an empty cache. -/
theorem openDir_eq_ok {count : ℕ} {singleFile : Bool} {single : Option (Bytes × List ℕ)}
    (hjson : dir.indexJson = some (indexMeta numBuckets count singleFile))
    (hsingle : openLayout dir (if singleFile then FORMAT_V3 else FORMAT_V2) numBuckets = .ok single)
    (cacheCapacity : ℕ) :
    openDir dir cacheCapacity =
      .ok ⟨dir, numBuckets, count, .empty, max cacheCapacity 1, single⟩ :=
  openDir_of_fields hjson rfl rfl rfl hsingle cacheCapacity

/-- In a sorted directory, every bucket is sorted after a build. -/
theorem pairwise_builtContent (hdir : dir.Sorted) (singleFile : Bool) (b : ℕ) :
    (builtContent grams numBuckets singleFile dir b).Pairwise (· ≤ ·) := by
  rw [builtContent]
  split_ifs
  · exact pairwise_sortRecords _
  · exact hdir b

/-- The index after a build into a directory with sorted files. -/
theorem Grouped.openDir_emit (h : Grouped keys numBuckets cs offs grouped) (hdir : dir.Sorted)
    (singleFile : Bool) (cacheCapacity : ℕ) :
    ∃ r, openDir (emit numBuckets singleFile cs offs grouped dir) cacheCapacity = .ok r ∧
      r.count = keys.grams.length ∧
      Serves r numBuckets (builtContent keys.grams numBuckets singleFile dir) := by
  have hgrams : ∀ g ∈ keys.grams, g.length = HEADS := fun _ => length_of_mem_grams
  cases singleFile with
  | true =>
    -- one file: its offsets are those of the buckets that were emitted
    refine ⟨⟨emit numBuckets true cs offs grouped dir, numBuckets, cs.sum, .empty,
      max cacheCapacity 1, some ((bucketParts keys.grams numBuckets).flatten,
        offsets ((bucketParts keys.grams numBuckets).map List.length))⟩, ?_, h.sum_counts, rfl,
      h.numBuckets_pos, fun b hb => ?_, fun b _ => pairwise_builtContent hdir _ b,
      OrderedDict.agrees_empty⟩
    · refine openDir_eq_ok rfl ?_ cacheCapacity
      rw [if_pos rfl, openLayout, if_neg (by decide), if_pos rfl, h.openSingle_emit]
      rfl
    · rw [builtContent, if_pos (.inl rfl)]
      exact readBucket_single (bucketRecords keys.grams numBuckets)
        (fun _ _ => length_of_mem_bucketRecords hgrams) rfl hb
  | false =>
    refine ⟨⟨emit numBuckets false cs offs grouped dir, numBuckets, cs.sum, .empty,
      max cacheCapacity 1, none⟩, openDir_eq_ok rfl rfl cacheCapacity, h.sum_counts, rfl,
      h.numBuckets_pos, fun b hb => ?_, fun b _ => pairwise_builtContent hdir _ b,
      OrderedDict.agrees_empty⟩
    · simp only [readBucket, emit, Bool.false_eq_true, if_false, h.emitBuckets_apply, builtContent,
        false_or]
      -- an empty bucket has no file of its own, but the directory can hold one from before
      by_cases hempty : bucketRecords keys.grams numBuckets b = []
      · simp only [hempty, ne_eq, not_true_eq_false, and_false, if_false, IndexDir.bucketFile]
        cases dir.buckets b <;> rfl
      · simp only [hb, hempty, ne_eq, not_false_eq_true, and_self, if_true,
          parseRecords_bucketRecords hgrams]
        rfl

end Open

section Slots

variable {grams : List (List UInt64)} {numBuckets : ℕ} {parts : List UInt64}

/-- The slots of a gram are those of the records with its key in its bucket. -/
theorem mem_slotsOf {content : ℕ → List Bytes} {s : ℕ} :
    s ∈ slotsOf content numBuckets parts ↔
      ∃ rec ∈ content (bucketOf (keyFromGram parts) numBuckets),
        recordKey rec = keyFromGram parts ∧ slotOfRecord rec = s := by
  simp [slotsOf, matching, and_assoc]

/-- In the bucket that a function of the key gives, a gram has the slots at which it stands. -/
theorem mem_map_slotOfRecord_sortedBucket (hgrams : ∀ g ∈ grams, g.length = HEADS)
    (hfits : grams.length ≤ 2 ^ 64) (f : Bytes → ℕ) {b s : ℕ} :
    s ∈ (matching (sortedBucket (fun rec => f (recordKey rec)) (recordsOf grams) b)
        (keyFromGram parts)).map slotOfRecord ↔
      grams[s]? = some parts ∧ f (keyFromGram parts) = b := by
  simp only [matching, List.mem_map, List.mem_filter, mem_sortedBucket, decide_eq_true_eq]
  constructor
  · rintro ⟨rec, ⟨⟨hrec, hb⟩, hkey⟩, rfl⟩
    obtain ⟨s, g, hs, rfl⟩ := mem_recordsOf.mp hrec
    have hg := hgrams g (List.mem_of_getElem? hs)
    have hlt := (List.getElem?_eq_some_iff.mp hs).1
    rw [hkey] at hb
    rw [recordKey_record hg] at hkey
    rw [slotOfRecord_record hg (by omega), hs, keyFromGram_injective hkey]
    exact ⟨rfl, hb⟩
  · rintro ⟨hs, hb⟩
    have hg := hgrams parts (List.mem_of_getElem? hs)
    have hlt := (List.getElem?_eq_some_iff.mp hs).1
    refine ⟨record parts s, ⟨⟨mem_recordsOf.mpr ⟨s, parts, hs, rfl⟩, ?_⟩, recordKey_record hg⟩,
      slotOfRecord_record hg (by omega)⟩
    rw [recordKey_record hg, hb]

/-- In the buckets of a keys file, a gram has the slots at which it stands in the file. -/
theorem mem_slotsOf_bucketRecords (hgrams : ∀ g ∈ grams, g.length = HEADS)
    (hfits : grams.length ≤ 2 ^ 64) {s : ℕ} :
    s ∈ slotsOf (bucketRecords grams numBuckets) numBuckets parts ↔ grams[s]? = some parts :=
  (mem_map_slotOfRecord_sortedBucket hgrams hfits fun key => bucketOf key numBuckets).trans
    (and_iff_left rfl)

/-- `contains_slot` answers by the grams of a keys file. -/
structure Answers (grams : List (List UInt64)) (query : Gram × ℕ) (res : Outcome String Bool) :
    Prop where
  /-- The gram stands at the slot. -/
  ok_true_iff : res = .ok true ↔ grams[query.2]? = some query.1.1
  /-- The gram stands elsewhere only. -/
  ok_false_iff : res = .ok false ↔ query.1.1 ∈ grams ∧ grams[query.2]? ≠ some query.1.1
  /-- The gram does not occur. -/
  error_iff : (∃ e, res = .error (.error e)) ↔ query.1.1 ∉ grams

/-- An answer by the slots of a gram is the answer by the grams. -/
private theorem answers_answer {gramSlots : List ℕ} {query : Gram × ℕ}
    (h : ∀ s, s ∈ gramSlots ↔ grams[s]? = some query.1.1) :
    Answers grams query (answer gramSlots query.1.1 query.2) := by
  have hmem : query.1.1 ∈ grams ↔ gramSlots ≠ [] := by
    rw [List.mem_iff_getElem?, ne_eq, List.eq_nil_iff_forall_not_mem, not_forall_not]
    exact exists_congr fun s => (h s).symm
  rw [answer]
  by_cases hnil : gramSlots = []
  · have hnone : grams[query.2]? ≠ some query.1.1 := by
      rw [ne_eq, ← h, hnil]
      exact List.not_mem_nil
    rw [if_pos hnil]
    exact {
      ok_true_iff := by simp [hnone]
      ok_false_iff := by simp [hmem, hnil]
      error_iff := by simp [hmem, hnil] }
  · rw [if_neg hnil]
    exact {
      ok_true_iff := by simp [h]
      ok_false_iff := by simp [h, hmem, hnil]
      error_iff := by simp [hmem, hnil] }

end Slots

section Verify

variable {numBuckets count : ℕ} {content : ℕ → List Bytes} {all grams : List (List UInt64)}
  {numbers : List UInt64} {st : Verify}

/-- A verification has found the grams that are complete so far. -/
structure Verify.Reads (numBuckets : ℕ) (content : ℕ → List Bytes) (count : ℕ)
    (grams : List (List UInt64)) (numbers : List UInt64) (st : Verify) : Prop where
  splits : Splits grams st.parts numbers
  serves : Serves st.reader numBuckets content
  count_eq : st.reader.count = count
  slot_eq : st.slot = grams.length
  verified_eq : st.verified = grams.length

/-- A verification goes on at a line that is blank or a number, when a gram that the line completes
is found at its slot. -/
theorem Verify.Reads.line (h : st.Reads numBuckets content count grams numbers) {cs : List Char}
    (hcs : Text.trim cs = [] ∨ (lineNumber cs).isSome)
    (hfound : ∀ g s, (slots HEADS (numbers ++ (lineNumber cs).toList))[s]? = some g →
      answer (slotsOf content numBuckets g) g s = .ok true) :
    ∃ st' grams', verifyLine st (.ok cs) = .ok st' ∧
      st'.Reads numBuckets content count grams' (numbers ++ (lineNumber cs).toList) := by
  simp only [verifyLine, Outcome.ofExcept_ok, bind, Except.bind]
  by_cases hblank : Text.trim cs = []
  · rw [if_pos hblank]
    exact ⟨st, grams, rfl, by simpa [lineNumber, hblank, Text.parseU64, Except.toOption] using h⟩
  · have hnum := hcs.resolve_left hblank
    rw [if_neg hblank]
    rw [lineNumber] at hnum hfound ⊢
    cases hparse : Text.parseU64 (Text.trim cs) with
    | error e =>
      rw [hparse] at hnum
      cases hnum
    | ok v =>
      rw [hparse] at hfound
      simp only [Except.toOption, Option.toList_some] at hfound ⊢
      -- the sixteenth part completes the gram, which the index holds at this slot
      by_cases hfull : (st.parts ++ [v]).length = HEADS
      · have hsplits := h.splits.gram hfull
        obtain ⟨r', hres, hcount, hserves⟩ := h.serves.containsSlot ⟨st.parts ++ [v], hfull⟩ st.slot
        have hlast : (slots HEADS (numbers ++ [v]))[grams.length]? = some (st.parts ++ [v]) := by
          rw [hsplits.slots_eq, List.getElem?_concat_length]
        rw [h.slot_eq, hfound _ _ hlast, ← h.slot_eq] at hres
        simp only [dif_pos hfull, hres]
        exact ⟨_, _, rfl, hsplits, hserves, hcount.trans h.count_eq,
          by rw [h.slot_eq, List.length_append, List.length_singleton],
          by rw [h.verified_eq, List.length_append, List.length_singleton]⟩
      · simp only [dif_neg hfull]
        exact ⟨_, grams, rfl, h.splits.part hfull, h.serves, h.count_eq, h.slot_eq, h.verified_eq⟩

/-- The grams of the first numbers are the first grams. -/
private theorem getElem?_slots_append {numbers rest : List UInt64} {s : ℕ} {g : List UInt64}
    (h : (slots HEADS numbers)[s]? = some g) : (slots HEADS (numbers ++ rest))[s]? = some g := by
  have hs : s < numbers.length / HEADS := by
    have hlt := (List.getElem?_eq_some_iff.mp h).1
    rwa [length_slots] at hlt
  have hs' : s < (numbers ++ rest).length / HEADS := by
    refine Nat.lt_of_lt_of_le hs (Nat.div_le_div_right ?_)
    rw [List.length_append]
    exact Nat.le_add_right _ _
  have hend : (s + 1) * HEADS ≤ numbers.length :=
    Nat.le_trans (Nat.mul_le_mul_right _ hs) (Nat.div_mul_le_self _ _)
  rw [Nat.add_mul, Nat.one_mul] at hend
  rw [getElem?_slots hs, Option.some.injEq] at h
  rw [getElem?_slots hs', ← h, slot, slot, List.drop_append_of_le_length (by omega),
    List.take_append_of_le_length (by rw [List.length_drop]; omega)]

/-- A verification reads the grams of a text one after another. -/
theorem Verify.Reads.foldlM {lines : List (List Char)}
    (h : st.Reads numBuckets content count grams numbers)
    (hlines : ∀ cs ∈ lines, Text.trim cs = [] ∨ (lineNumber cs).isSome)
    (hfound : ∀ g s, (slots HEADS (numbers ++ lines.filterMap lineNumber))[s]? = some g →
      answer (slotsOf content numBuckets g) g s = .ok true) :
    ∃ st' grams', (lines.map Except.ok).foldlM verifyLine st = .ok st' ∧
      st'.Reads numBuckets content count grams' (numbers ++ lines.filterMap lineNumber) := by
  induction lines generalizing st grams numbers with
  | nil => exact ⟨st, grams, rfl, by simpa using h⟩
  | cons cs lines ih =>
    have hsplit : (cs :: lines).filterMap lineNumber =
        (lineNumber cs).toList ++ lines.filterMap lineNumber := by
      rw [List.filterMap_cons]
      cases lineNumber cs <;> rfl
    rw [hsplit, ← List.append_assoc] at hfound ⊢
    obtain ⟨st₁, grams₁, hline, h₁⟩ := h.line (hlines cs (by simp)) fun g s hs =>
      hfound g s (getElem?_slots_append hs)
    obtain ⟨st', grams', hrest, h'⟩ := ih h₁ (fun c hc => hlines c (by simp [hc])) hfound
    refine ⟨st', grams', ?_, h'⟩
    rw [List.map_cons, List.foldlM_cons, hline]
    exact hrest

/-- An index in which every gram of a text is found at its slot passes the verification. -/
theorem Serves.verifyFromKeysFile {text : List Char} {dir : IndexDir} {cacheCapacity : ℕ}
    {r : DiskSlotIndexReader} (hserves : Serves r numBuckets content)
    (hopen : openDir dir cacheCapacity = .ok r)
    (hcount : r.count = (KeysFile.ofText text).grams.length)
    (hlines : ∀ line ∈ Text.lines text, Text.trim line = [] ∨ (lineNumber line).isSome)
    (hheads : HEADS ∣ (KeysFile.ofText text).numbers.length)
    (hfound : ∀ g s, (KeysFile.ofText text).grams[s]? = some g →
      answer (slotsOf content numBuckets g) g s = .ok true) :
    SlotIndex.verifyFromKeysFile (.ofText text) dir cacheCapacity =
      .ok (KeysFile.ofText text).grams.length := by
  rw [KeysFile.grams, KeysFile.numbers_ofText] at *
  have hstart : Verify.Reads numBuckets content r.count [] [] ⟨r, [], 0, 0⟩ :=
    ⟨splits_nil, hserves, rfl, rfl, rfl⟩
  obtain ⟨st, grams, hrun, hreads⟩ := hstart.foldlM hlines hfound
  have hsplits := hreads.splits
  have hparts := hsplits.parts_eq_nil hheads
  rw [hparts, List.nil_append] at hsplits
  rw [hsplits.slots_eq] at hcount ⊢
  refine Except.bind_eq_ok_iff.mpr ⟨r, by rw [hopen]; rfl, Except.bind_eq_ok_iff.mpr
    ⟨_, rfl, Except.bind_eq_ok_iff.mpr ⟨st, hrun, ?_⟩⟩⟩
  simp only [hparts, hreads.verified_eq, hreads.count_eq, hcount, ne_eq,
    not_true_eq_false, if_false]
  rfl

end Verify

section Build

variable {keys : KeysFile} {numBuckets : ℕ} {singleFile : Bool} {dir dir' : IndexDir}
  {stats : BuildStats}

/-- A build that succeeds has grouped the records of its keys file. -/
theorem exists_grouped_of_build
    (h : buildFromKeysFileOpt keys numBuckets singleFile dir = (.ok stats, dir')) :
    ∃ cs offs grouped, Grouped keys numBuckets cs offs grouped ∧
      dir' = emit numBuckets singleFile cs offs grouped dir := by
  rw [buildFromKeysFileOpt] at h
  cases hgroup : groupRecords keys numBuckets with
  | error e =>
    rw [hgroup] at h
    cases h
  | ok res =>
    obtain ⟨cs, offs, grouped⟩ := res
    rw [hgroup] at h
    exact ⟨cs, offs, grouped, groupRecords_spec hgroup, (congrArg Prod.snd h).symm⟩

/-- In a directory without files, a build leaves the records of its keys file. -/
theorem builtContent_empty (grams : List (List UInt64)) (numBuckets : ℕ) (singleFile : Bool)
    (path : String) :
    builtContent grams numBuckets singleFile (.empty path) = bucketRecords grams numBuckets := by
  funext b
  rw [builtContent]
  split_ifs with h
  · rfl
  · rw [not_or, not_not] at h
    exact h.2.symm

/-- When the second pass is done (`h`), there are no more grams than slot numbers. -/
theorem Grouped.length_grams_le {cs offs : List ℕ} {grouped : Bytes}
    (h : Grouped keys numBuckets cs offs grouped) : keys.grams.length ≤ 2 ^ 64 := by
  have hfits := h.fits
  simp only [RECORD_BYTES, HEADS, maxFileBytes] at hfits
  omega

end Build

/-- An index that is built into an empty directory denotes its keys file, whose lines are blank or
numbers (`hlines`), sixteen for each gram (`hheads`): lookups, in any order and with any cache,
answer by the grams of the file, and the verification finds all of them. The build fails only when
its temporary file gets larger than a file can be. -/
theorem build_denotes {text : List Char} {numBuckets : ℕ}
    (hlines : ∀ line ∈ Text.lines text, Text.trim line = [] ∨ (lineNumber line).isSome)
    (hheads : HEADS ∣ (KeysFile.ofText text).numbers.length) (hbuckets : 1 ≤ numBuckets)
    (singleFile : Bool) (path : String) :
    ((KeysFile.ofText text).grams.length * RECORD_BYTES ≤ maxFileBytes →
      ∃ stats dir, buildFromKeysFileOpt (.ofText text) numBuckets singleFile (.empty path) =
        (.ok stats, dir)) ∧
    ∀ stats dir, buildFromKeysFileOpt (.ofText text) numBuckets singleFile (.empty path) =
        (.ok stats, dir) → ∀ cacheCapacity,
      (∃ r, openDir dir cacheCapacity = .ok r ∧ ∀ queries,
        List.Forall₂ (Answers (KeysFile.ofText text).grams) queries (r.lookups queries)) ∧
      verifyFromKeysFile (.ofText text) dir cacheCapacity =
        .ok (KeysFile.ofText text).grams.length := by
  refine ⟨fun hroom => ?_, fun stats dir hbuild cacheCapacity => ?_⟩
  · rw [KeysFile.grams, length_slots] at hroom
    obtain ⟨⟨cs, offs, grouped⟩, hgroup⟩ := groupRecords_isOk hlines hheads hroom hbuckets
    exact ⟨_, _, by rw [buildFromKeysFileOpt, hgroup]⟩
  · obtain ⟨cs, offs, grouped, hgrouped, rfl⟩ := exists_grouped_of_build hbuild
    obtain ⟨r, hopen, hcount, hserves⟩ :=
      hgrouped.openDir_emit (IndexDir.sorted_empty path) singleFile cacheCapacity
    rw [builtContent_empty] at hserves
    -- the buckets hold each gram at its position, and nothing else
    have hslots : ∀ g s, s ∈ slotsOf (bucketRecords (KeysFile.ofText text).grams numBuckets)
        numBuckets g ↔ (KeysFile.ofText text).grams[s]? = some g := fun g s =>
      mem_slotsOf_bucketRecords (fun _ => length_of_mem_grams) hgrouped.length_grams_le
    refine ⟨⟨r, hopen, fun queries => ?_⟩, ?_⟩
    · rw [hserves.lookups, List.forall₂_map_right_iff, List.forall₂_same]
      exact fun q _ => answers_answer (hslots q.1.1)
    · refine hserves.verifyFromKeysFile hopen hcount hlines hheads fun g s hs => ?_
      have hmem := (hslots g s).mpr hs
      rw [answer, if_neg (List.ne_nil_of_mem hmem), decide_eq_true hmem]

theorem build_denotes_oneGram :
    ∃ stats dir, buildFromKeysFileOpt (.ofText (Text.unlines (List.replicate 16 ['7']))) 4 false
        (.empty "index") = (.ok stats, dir) ∧ ∀ cacheCapacity,
      (∃ r, openDir dir cacheCapacity = .ok r ∧ ∀ queries,
        List.Forall₂ (Answers [List.replicate 16 7]) queries (r.lookups queries)) ∧
      verifyFromKeysFile (.ofText (Text.unlines (List.replicate 16 ['7']))) dir cacheCapacity =
        .ok 1 := by
  have h := @build_denotes (Text.unlines (List.replicate 16 ['7'])) 4 (by decide) (by decide)
    (by decide) false "index"
  have hgrams : (KeysFile.ofText (Text.unlines (List.replicate 16 ['7']))).grams =
      [List.replicate 16 7] := by decide
  rw [hgrams] at h
  obtain ⟨stats, dir, hbuild⟩ := h.1 (by decide)
  exact ⟨stats, dir, hbuild, h.2 stats dir hbuild⟩

end SlotIndex

end EngramDB
