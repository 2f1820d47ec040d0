import EngramDB.SlotIndex.Rebuild
import Mathlib.Data.List.Dedup
import Mathlib.Data.List.Perm.Subperm
import Mathlib.Data.List.TakeWhile

/-!
# What a verification proves

`verify_from_keys_file` looks up every gram of a keys file at its slot, and compares the number of
the grams with the count in `index.json`. It does not look at what else the buckets hold, in
whatever order.

* `containsSlot_eq_ok_true_iff`: in files of any contents, a lookup answers by the records that the
  search of its bucket reaches;
* `Verify.Found.foldlM`: a verification that goes on has found the grams that it has read;
* `proves_iff`: when a verification returns, lookups answer by the keys file and by nothing else iff
  the count in `index.json` is the number of different records that lookups reach.
-/

namespace EngramDB

namespace SlotIndex

open SlotBuffer DiskSlotIndexReader

/-- The records with a key at the place where the search for the key ends. -/
def run (records : List Bytes) (key : Bytes) : List Bytes :=
  (records.drop
    (SortedSearch.partitionPoint (fun rec => decide (recordKey rec < key)) records)).takeWhile
    fun rec => decide (recordKey rec = key)

namespace DiskSlotIndexReader

/-- The records that the files have for a bucket, if they can be read. -/
def stored (r : DiskSlotIndexReader) (b : ℕ) : List Bytes :=
  match r.readBucket b with
  | .ok records => records
  | .error _ => []

/-- The records that lookups reach, each once. -/
def reached (r : DiskSlotIndexReader) : List Bytes :=
  (List.range r.numBuckets).flatMap fun b =>
    ((r.stored b).filter fun rec => bucketOf (recordKey rec) r.numBuckets = b ∧
      rec ∈ run (r.stored b) (recordKey rec)).dedup

end DiskSlotIndexReader

/-- The count in `index.json` is the number of different records that lookups reach. -/
def IndexDir.CountsRecords (dir : IndexDir) : Prop :=
  ∀ cacheCapacity r, openDir dir cacheCapacity = .ok r → r.count = r.reached.length

/-- A keys file has `n` grams, and lookups in a directory find every gram where it stands and
nothing else, whatever was looked up before. -/
structure Proves (keys : KeysFile) (dir : IndexDir) (n : ℕ) : Prop where
  /-- The numbers of the file are `n` grams. -/
  length_numbers : keys.numbers.length = n * HEADS
  /-- A gram is found at a slot iff it stands there. -/
  containsSlot_iff : ∀ cacheCapacity r, openDir dir cacheCapacity = .ok r →
    ∀ asked (parts : Gram) slot,
    ((r.after asked).containsSlot parts slot).1 = .ok true ↔
      slot < n ∧ keys.grams[slot]? = some parts.1

section Records

variable {rec : Bytes} {parts : List UInt64} {slot : ℕ}

/-- Bytes of the width of a record are the record of a gram at a slot. -/
theorem exists_record (h : rec.length = RECORD_BYTES) :
    ∃ parts : Gram, ∃ slot < 2 ^ 64, rec = record parts.1 slot := by
  have hkey : (recordKey rec).length = HEADS * 8 := by
    rw [recordKey, List.length_take, h]
    rfl
  have hlow : (rec.drop (HEADS * 8)).length = 8 := by
    rw [List.length_drop, h]
    rfl
  have hparts :
      ((slots 8 (recordKey rec)).map fun p => UInt64.ofNat (LittleEndian.decode p)).length =
        HEADS := by
    rw [List.length_map, length_slots, hkey]
    rfl
  refine ⟨⟨_, hparts⟩, slotOfRecord rec, ?_, ?_⟩
  · have hlt := LittleEndian.decode_lt (rec.drop (HEADS * 8))
    rwa [hlow] at hlt
  -- the last eight bytes are the slot, the bytes before them the words of the gram
  · have hslot : LittleEndian.encode 8 (slotOfRecord rec) = rec.drop (HEADS * 8) := by
      have hbytes := LittleEndian.encode_decode (rec.drop (HEADS * 8))
      rwa [hlow] at hbytes
    have hwords : ∀ p ∈ slots 8 (recordKey rec),
        LittleEndian.encode 8 (UInt64.ofNat (LittleEndian.decode p)).toNat = p := by
      intro p hp
      have hwide : p.length = 8 := length_of_mem_slots hp
      have hlt := LittleEndian.decode_lt p
      rw [hwide] at hlt
      rw [UInt64.toNat_ofNat_of_lt' hlt]
      conv_lhs => rw [← hwide]
      exact LittleEndian.encode_decode p
    have hgram : keyFromGram ((slots 8 (recordKey rec)).map fun p =>
        UInt64.ofNat (LittleEndian.decode p)) = recordKey rec := by
      rw [keyFromGram, List.flatMap_map, List.flatMap_def, List.map_congr_left hwords, List.map_id']
      exact flatten_slots ⟨HEADS, by rw [hkey, Nat.mul_comm]⟩
    rw [record, hgram, hslot, recordKey, List.take_append_drop]

/-- Records of grams are the same only for the same gram at the same slot. -/
theorem record_inj {parts' : List UInt64} {slot' : ℕ} (hparts : parts.length = HEADS)
    (hparts' : parts'.length = HEADS) (hslot : slot < 2 ^ 64) (hslot' : slot' < 2 ^ 64)
    (h : record parts slot = record parts' slot') : parts = parts' ∧ slot = slot' := by
  have hkey := congrArg recordKey h
  have hlow := congrArg slotOfRecord h
  rw [recordKey_record hparts, recordKey_record hparts'] at hkey
  rw [slotOfRecord_record hparts hslot, slotOfRecord_record hparts' hslot'] at hlow
  exact ⟨keyFromGram_injective hkey, hlow⟩

/-- The records of a run are stored and have its key. -/
theorem mem_run {records : List Bytes} {key : Bytes} (h : rec ∈ run records key) :
    rec ∈ records ∧ recordKey rec = key := by
  rw [run] at h
  have hkey := List.mem_takeWhile_imp h
  exact ⟨List.mem_of_mem_drop ((List.takeWhile_sublist _).subset h), of_decide_eq_true hkey⟩

end Records

section Reached

variable {r : DiskSlotIndexReader} {rec : Bytes}

/-- Every stored record has the length of a record. -/
theorem length_of_mem_stored {b : ℕ} (h : rec ∈ r.stored b) : rec.length = RECORD_BYTES := by
  rw [stored] at h
  cases hread : r.readBucket b with
  | error e =>
    rw [hread] at h
    cases h
  | ok records =>
    rw [hread] at h
    suffices hparsed : ∃ data, records = [] ∨ records = parseRecords data by
      obtain ⟨data, rfl | rfl⟩ := hparsed
      · cases h
      · exact length_of_mem_parseRecords h
    rw [readBucket] at hread
    cases hsingle : r.single with
    | some files =>
      -- layout `v3`
      obtain ⟨data, offsets⟩ := files
      rw [hsingle] at hread
      obtain ⟨start, -, hread⟩ := Except.bind_eq_ok_iff.mp hread
      obtain ⟨stop, -, hread⟩ := Except.bind_eq_ok_iff.mp hread
      dsimp only at hread
      split_ifs at hread
      · exact ⟨[], .inl (Except.ok.inj hread).symm⟩
      -- a region that ends before it begins, or beyond the file
      · cases hread
      · cases hread
      · cases hread
      · exact ⟨_, .inr (Except.ok.inj hread).symm⟩
    | none =>
      rw [hsingle] at hread
      cases hfile : r.dir.buckets b with
      | none =>
        rw [hfile] at hread
        exact ⟨[], .inl (Except.ok.inj hread).symm⟩
      | some data =>
        rw [hfile] at hread
        exact ⟨data, .inr (Except.ok.inj hread).symm⟩

/-- A record is reached iff the search for its key in the bucket of the key arrives at it. -/
theorem mem_reached : rec ∈ r.reached ↔ 0 < r.numBuckets ∧
    rec ∈ run (r.stored (bucketOf (recordKey rec) r.numBuckets)) (recordKey rec) := by
  simp only [reached, List.mem_flatMap, List.mem_range, List.mem_dedup, List.mem_filter,
    Bool.decide_and, Bool.and_eq_true, decide_eq_true_eq]
  constructor
  · rintro ⟨b, hb, -, rfl, hrun⟩
    exact ⟨by omega, hrun⟩
  · rintro ⟨hpos, hrun⟩
    exact ⟨_, bucketOf_lt _ hpos, (mem_run hrun).1, rfl, hrun⟩

/-- No record is reached twice. -/
private theorem nodup_reached : r.reached.Nodup := by
  rw [reached, List.nodup_flatMap]
  refine ⟨fun b _ => List.nodup_dedup _, ?_⟩
  refine (List.nodup_range).imp fun {b b'} hne rec hrec hrec' => hne ?_
  -- the bucket of a record is that of its key
  simp only [List.mem_dedup, List.mem_filter, Bool.decide_and, Bool.and_eq_true,
    decide_eq_true_eq] at hrec hrec'
  exact hrec.2.1.symm.trans hrec'.2.1

/-- Every record that is reached has the length of a record. -/
private theorem length_of_mem_reached (h : rec ∈ r.reached) : rec.length = RECORD_BYTES :=
  length_of_mem_stored (mem_run (mem_reached.mp h).2).1

end Reached

section Lookups

variable {r : DiskSlotIndexReader} {cache : OrderedDict ℕ (List Bytes)}

/-- Whatever agrees with the files in the cache, the records of a bucket are those in the files,
unless they cannot be read. -/
private theorem records_of_agrees (h : cache.Agrees r.stored) (b : ℕ) :
    (∃ cache', DiskSlotIndexReader.records { r with cache } b =
      .ok (r.stored b, { r with cache := cache' }) ∧
      cache'.Agrees r.stored) ∨
    ∃ e, DiskSlotIndexReader.records { r with cache } b = .error e ∧ r.stored b = [] := by
  rw [DiskSlotIndexReader.records]
  cases hget : cache.get? b with
  | some records =>
    obtain rfl := h.eq_of_get? hget
    exact .inl ⟨cache, rfl, h⟩
  | none =>
    have hsame : DiskSlotIndexReader.readBucket { r with cache } b = r.readBucket b := rfl
    dsimp only
    rw [hsame]
    cases hread : r.readBucket b with
    | error e => exact .inr ⟨e, rfl, by rw [stored, hread]⟩
    | ok records =>
      have hstored : r.stored b = records := by rw [stored, hread]
      refine .inl ⟨_, by rw [hstored]; rfl, ?_⟩
      rw [← hstored]
      refine OrderedDict.Agrees.set ?_ b
      split_ifs
      · exact h.popFirst
      · exact h

/-- A lookup leaves the files as they are, and finds a gram at a slot iff it reaches the record of
the gram with the slot. -/
theorem containsSlot_of_agrees (h : cache.Agrees r.stored) (parts : Gram) (slot : ℕ) :
    (∃ cache', (DiskSlotIndexReader.containsSlot { r with cache } parts slot).2 =
      { r with cache := cache' } ∧
      cache'.Agrees r.stored) ∧
    ((DiskSlotIndexReader.containsSlot { r with cache } parts slot).1 = .ok true ↔
      slot < 2 ^ 64 ∧ record parts.1 slot ∈ r.reached) := by
  have hkey : recordKey (record parts.1 slot) = keyFromGram parts.1 := recordKey_record parts.2
  rw [mem_reached, hkey, DiskSlotIndexReader.containsSlot]
  by_cases hzero : r.numBuckets = 0
  · rw [if_pos hzero]
    exact ⟨⟨cache, rfl, h⟩, by simp [hzero]⟩
  rw [if_neg hzero]
  dsimp only
  obtain ⟨cache', hrecords, hcache'⟩ | ⟨e, herror, hnil⟩ :=
    records_of_agrees h (bucketOf (keyFromGram parts.1) r.numBuckets)
  · simp only [hrecords]
    refine ⟨⟨cache', rfl, hcache'⟩, ?_⟩
    rw [scanRecords_eq, ← run]
    -- an empty run is an error, so only a run with the slot is answered with true
    have hanswer : answer ((run (r.stored (bucketOf (keyFromGram parts.1) r.numBuckets))
        (keyFromGram parts.1)).map slotOfRecord) parts.1 slot = .ok true ↔
          slot ∈ (run (r.stored (bucketOf (keyFromGram parts.1) r.numBuckets))
            (keyFromGram parts.1)).map slotOfRecord := by
      rw [answer]
      split_ifs with hempty
      · simp [hempty]
      · simp
    rw [hanswer, List.mem_map]
    constructor
    -- the records of the run have the key, so the gram that was asked for
    · rintro ⟨rec, hrec, rfl⟩
      obtain ⟨hmem, hparts⟩ := mem_run hrec
      obtain ⟨parts', slot, hslot, rfl⟩ := exists_record (length_of_mem_stored hmem)
      rw [recordKey_record parts'.2] at hparts
      rw [keyFromGram_injective hparts] at hrec
      rw [slotOfRecord_record parts'.2 hslot]
      exact ⟨hslot, Nat.pos_of_ne_zero hzero, hrec⟩
    · rintro ⟨hslot, -, hrec⟩
      exact ⟨_, hrec, slotOfRecord_record parts.2 hslot⟩
  · simp only [herror]
    refine ⟨⟨cache, rfl, h⟩, iff_of_false (fun hok => by cases hok) fun hmem => ?_⟩
    rw [hnil] at hmem
    cases (mem_run hmem.2.2).1

/-- Lookups leave the files as they are, and a cache that agrees with the records (`h`) in
agreement. -/
private theorem after_of_agrees (h : cache.Agrees r.stored) (asked : List (Gram × ℕ)) :
    ∃ cache', DiskSlotIndexReader.after { r with cache } asked = { r with cache := cache' } ∧
      cache'.Agrees r.stored := by
  induction asked generalizing cache with
  | nil => exact ⟨cache, rfl, h⟩
  | cons q asked ih =>
    obtain ⟨⟨cache₁, hnext, hcache₁⟩, -⟩ := containsSlot_of_agrees h q.1 q.2
    obtain ⟨cache', hrest, hcache'⟩ := ih hcache₁
    refine ⟨cache', ?_, hcache'⟩
    rw [← hrest, ← hnext]
    rfl

end Lookups

section Open

variable {dir : IndexDir} {r r' : DiskSlotIndexReader} {cacheCapacity cacheCapacity' : ℕ}

/-- An index is opened with the same files whatever the bound on the cache. -/
theorem openDir_eq (dir : IndexDir) (cacheCapacity : ℕ) : openDir dir cacheCapacity =
    (openDir dir 0).map fun r => { r with cacheCapacity := max cacheCapacity 1 } := by
  simp only [openDir]
  cases orError dir.indexJson s!"slot index not found: {dir.path}/index.json" with
  | error e => rfl
  | ok fields =>
    simp only [Except.ok_bind]
    cases orError ((fields.lookup "format").bind JsonValue.asStr) "index.json missing format" with
    | error e => rfl
    | ok format =>
      simp only [Except.ok_bind]
      cases orError ((fields.lookup "num_buckets").bind JsonValue.asU64)
          "index.json missing num_buckets" with
      | error e => rfl
      | ok numBuckets =>
        simp only [Except.ok_bind]
        cases orError ((fields.lookup "count").bind JsonValue.asU64) "index.json missing count" with
        | error e => rfl
        | ok count =>
          simp only [Except.ok_bind]
          cases openLayout dir format numBuckets <;> rfl

/-- A reader that was just opened has nothing in its cache. -/
theorem cache_of_openDir (h : openDir dir cacheCapacity = .ok r) : r.cache = .empty := by
  obtain ⟨fields, -, h⟩ := Except.bind_eq_ok_iff.mp h
  obtain ⟨format, -, h⟩ := Except.bind_eq_ok_iff.mp h
  obtain ⟨numBuckets, -, h⟩ := Except.bind_eq_ok_iff.mp h
  obtain ⟨count, -, h⟩ := Except.bind_eq_ok_iff.mp h
  obtain ⟨single, -, h⟩ := Except.bind_eq_ok_iff.mp h
  obtain rfl := Except.ok.inj h
  rfl

/-- Two readers that were opened on one directory (`h`, `h'`), with any caches, have the same count
and reach the same records. -/
theorem sameFiles_of_openDir (h : openDir dir cacheCapacity = .ok r)
    (h' : openDir dir cacheCapacity' = .ok r') : r'.count = r.count ∧ r'.reached = r.reached := by
  rw [openDir_eq] at h h'
  cases hopen : openDir dir 0 with
  | error e =>
    rw [hopen] at h
    cases h
  | ok r₀ =>
    rw [hopen] at h h'
    obtain rfl := Except.ok.inj h
    obtain rfl := Except.ok.inj h'
    exact ⟨rfl, rfl⟩

end Open

section Verify

variable {r : DiskSlotIndexReader} {grams : List (List UInt64)} {numbers : List UInt64}
  {st st' : Verify}

/-- A verification has found the grams that it has read so far. -/
structure Verify.Found (r : DiskSlotIndexReader) (grams : List (List UInt64))
    (numbers : List UInt64) (st : Verify) : Prop where
  splits : Splits grams st.parts numbers
  reader_eq : ∃ cache, st.reader = { r with cache } ∧ cache.Agrees r.stored
  slot_eq : st.slot = grams.length
  verified_eq : st.verified = grams.length
  found : ∀ slot parts, grams[slot]? = some parts → slot < 2 ^ 64 ∧ record parts slot ∈ r.reached

/-- A gram is complete: the verification goes on only if it finds the gram. -/
theorem Verify.Found.gram (h : st.Found r grams numbers) {v : UInt64}
    (hfull : (st.parts ++ [v]).length = HEADS)
    (htrue : (st.reader.containsSlot ⟨st.parts ++ [v], hfull⟩ st.slot).1 = .ok true) :
    Verify.Found r (grams ++ [st.parts ++ [v]]) (numbers ++ [v])
      ⟨(st.reader.containsSlot ⟨st.parts ++ [v], hfull⟩ st.slot).2, [], st.slot + 1,
        st.verified + 1⟩ := by
  obtain ⟨cache, hreader, hcache⟩ := h.reader_eq
  rw [hreader] at htrue ⊢
  obtain ⟨hnext, hiff⟩ := containsSlot_of_agrees hcache ⟨st.parts ++ [v], hfull⟩ st.slot
  have hfound := hiff.mp htrue
  refine ⟨h.splits.gram hfull, hnext, ?_, ?_, fun slot parts hslot => ?_⟩
  · rw [h.slot_eq, List.length_append, List.length_singleton]
  · rw [h.verified_eq, List.length_append, List.length_singleton]
  · rcases Nat.lt_or_ge slot grams.length with hlt | hge
    · rw [List.getElem?_append_left hlt] at hslot
      exact h.found slot parts hslot
    · -- the new gram
      rw [List.getElem?_append_right hge, List.getElem?_singleton] at hslot
      split_ifs at hslot with hzero
      obtain rfl := Option.some.inj hslot
      have hlast : slot = st.slot := by
        rw [h.slot_eq]
        omega
      rw [hlast]
      exact hfound

/-- A verification goes on only at a line that can be read and that is blank or a number. -/
theorem Verify.Found.line (h : st.Found r grams numbers) {line : Except String (List Char)}
    (hline : verifyLine st line = .ok st') :
    ∃ grams', st'.Found r grams' (numbers ++ (line.toOption.bind lineNumber).toList) := by
  cases line with
  | error e => cases hline
  | ok cs =>
    simp only [verifyLine, Outcome.ofExcept_ok, Except.ok_bind] at hline
    by_cases hblank : Text.trim cs = []
    · rw [if_pos hblank] at hline
      obtain rfl : st = st' := Except.ok.inj hline
      exact ⟨grams, by simpa [lineNumber, hblank, Text.parseU64, Except.toOption] using h⟩
    · rw [if_neg hblank] at hline
      cases hparse : Text.parseU64 (Text.trim cs) with
      | error e =>
        rw [hparse] at hline
        cases hline
      | ok v =>
        -- the line is a number of the file
        have hnumber :
            ((Except.ok cs : Except String (List Char)).toOption.bind lineNumber).toList = [v] := by
          simp [lineNumber, hparse, Except.toOption]
        rw [hnumber]
        rw [hparse] at hline
        dsimp only at hline
        split_ifs at hline with hfull
        -- the number completes a gram, which the index is asked for
        · cases hres : st.reader.containsSlot ⟨st.parts ++ [v], hfull⟩ st.slot with
          | mk res reader =>
            rw [hres] at hline
            rcases res with e | _ | _
            · cases hline
            · cases hline
            · have hgram := h.gram hfull (congrArg Prod.fst hres)
              rw [hres] at hgram
              obtain rfl := Except.ok.inj hline
              exact ⟨_, hgram⟩
        · obtain rfl := Except.ok.inj hline
          exact ⟨grams, h.splits.part hfull, h.reader_eq, h.slot_eq, h.verified_eq, h.found⟩

/-- A verification that goes through all lines has found the grams that it has read. -/
theorem Verify.Found.foldlM (h : st.Found r grams numbers)
    {lines : List (Except String (List Char))} (hlines : lines.foldlM verifyLine st = .ok st') :
    ∃ grams', st'.Found r grams'
      (numbers ++ lines.filterMap fun line => line.toOption.bind lineNumber) := by
  induction lines generalizing st grams numbers with
  | nil =>
    obtain rfl : st = st' := Except.ok.inj hlines
    exact ⟨grams, by rwa [List.filterMap_nil, List.append_nil]⟩
  | cons line lines ih =>
    rw [List.foldlM_cons] at hlines
    obtain ⟨st₁, hline, hlines⟩ := Except.bind_eq_ok_iff.mp hlines
    obtain ⟨grams₁, h₁⟩ := h.line hline
    have hsplit : (line :: lines).filterMap (fun line => line.toOption.bind lineNumber) =
        (line.toOption.bind lineNumber).toList ++
          lines.filterMap fun line => line.toOption.bind lineNumber := by
      rw [List.filterMap_cons]
      cases line.toOption.bind lineNumber <;> rfl
    rw [hsplit, ← List.append_assoc]
    exact ih h₁ hlines

/-- What a verification that returns has seen. -/
structure Seen (keys : KeysFile) (r : DiskSlotIndexReader) (n : ℕ) : Prop where
  /-- The numbers of the keys file are whole grams. -/
  length_numbers : keys.numbers.length = n * HEADS
  /-- There are as many grams as the description counts records. -/
  count_eq : r.count = n
  /-- There are as many grams. -/
  length_grams : keys.grams.length = n
  /-- The record of every gram is reached. -/
  found : ∀ slot parts, keys.grams[slot]? = some parts →
    slot < 2 ^ 64 ∧ record parts slot ∈ r.reached

/-- A verification returns when it has found all grams and their number is the count of the
records. -/
private theorem seen_of_verify {keys : KeysFile} {dir : IndexDir} {cacheCapacity n : ℕ}
    (h : verifyFromKeysFile keys dir cacheCapacity = .ok n) :
    ∃ r, openDir dir cacheCapacity = .ok r ∧ Seen keys r n := by
  obtain ⟨r, hopen, h⟩ := Except.bind_eq_ok_iff.mp h
  obtain ⟨lines, hkeys, h⟩ := Except.bind_eq_ok_iff.mp h
  obtain ⟨st, hrun, h⟩ := Except.bind_eq_ok_iff.mp h
  have hopen' : openDir dir cacheCapacity = .ok r := by
    cases hdir : openDir dir cacheCapacity with
    | error e =>
      rw [hdir] at hopen
      cases hopen
    | ok r' =>
      rw [hdir] at hopen
      rw [Except.ok.inj hopen]
  refine ⟨r, hopen', ?_⟩
  have hnumbers : keys.numbers = lines.filterMap fun line => line.toOption.bind lineNumber := by
    cases keys with
    | error e => cases hkeys
    | ok lines' =>
      obtain rfl : lines' = lines := Except.ok.inj hkeys
      rfl
  have hempty : (OrderedDict.empty : OrderedDict ℕ (List Bytes)).Agrees r.stored :=
    OrderedDict.agrees_empty
  have hcache : r.cache = .empty := cache_of_openDir hopen'
  -- before the first line nothing is seen, and afterwards what the lines hold
  have hstart : Verify.Found r [] [] ⟨r, [], 0, 0⟩ :=
    ⟨splits_nil, ⟨.empty, by rw [← hcache], hempty⟩, rfl, rfl,
      fun slot parts hslot => by cases hslot⟩
  obtain ⟨grams, hfound⟩ := hstart.foldlM hrun
  rw [List.nil_append, ← hnumbers] at hfound
  -- the run ends with no part left and as many grams as the index counts
  dsimp only at h
  split_ifs at h with hparts _ hcount
  · cases h
  · cases h
  · cases h
  rw [not_not] at hparts hcount
  obtain rfl : st.verified = n := Except.ok.inj h
  have hsplits := hfound.splits
  rw [hparts] at hsplits
  have hgrams : keys.grams = grams := hsplits.slots_eq
  obtain ⟨cache, hreader, -⟩ := hfound.reader_eq
  refine ⟨?_, ?_, ?_, ?_⟩
  · rw [hsplits.length_numbers, hfound.verified_eq, List.length_nil, Nat.add_zero]
  · rw [hcount, hreader]
  · rw [hgrams, hfound.verified_eq]
  · rw [hgrams]
    exact hfound.found

/-- The records of the grams that a verification has found are different. -/
private theorem Seen.nodup_recordsOf {keys : KeysFile} {n : ℕ} (h : Seen keys r n) :
    (recordsOf keys.grams).Nodup := by
  rw [List.nodup_iff_getElem?_ne_getElem?]
  intro i j hij hj heq
  rw [length_recordsOf] at hj
  rw [recordsOf, List.getElem?_map, List.getElem?_map, List.getElem?_zipIdx, List.getElem?_zipIdx,
    List.getElem?_eq_getElem hj, List.getElem?_eq_getElem (Nat.lt_trans hij hj)] at heq
  have hi := h.found i _ (List.getElem?_eq_getElem (Nat.lt_trans hij hj))
  have hj' := h.found j _ (List.getElem?_eq_getElem hj)
  have hrecord := Option.some.inj heq
  simp only [Nat.zero_add] at hrecord
  obtain ⟨-, hslot⟩ := record_inj (length_of_mem_grams (List.getElem_mem _))
    (length_of_mem_grams (List.getElem_mem _)) hi.1 hj'.1 hrecord
  omega

/-- When all grams were seen, lookups reach the records of all of them. -/
private theorem Seen.recordsOf_subset {keys : KeysFile} {n : ℕ} (h : Seen keys r n) :
    recordsOf keys.grams ⊆ r.reached := by
  intro rec hrec
  obtain ⟨slot, parts, hslot, rfl⟩ := mem_recordsOf.mp hrec
  exact (h.found slot parts hslot).2

/-- Lookups in a directory find a gram at a slot iff they reach its record. -/
theorem containsSlot_eq_ok_true_iff {dir : IndexDir} {cacheCapacity : ℕ}
    (hopen : openDir dir cacheCapacity = .ok r) (asked : List (Gram × ℕ))
    (parts : Gram) (slot : ℕ) :
    ((r.after asked).containsSlot parts slot).1 = .ok true ↔
      slot < 2 ^ 64 ∧ record parts.1 slot ∈ r.reached := by
  have hcache : r.cache = .empty := cache_of_openDir hopen
  have hr : r = { r with cache := .empty } := by rw [← hcache]
  have hempty : (OrderedDict.empty : OrderedDict ℕ (List Bytes)).Agrees r.stored :=
    OrderedDict.agrees_empty
  obtain ⟨cache, hafter, hagrees⟩ := after_of_agrees hempty asked
  rw [← hr] at hafter
  rw [hafter]
  exact (containsSlot_of_agrees hagrees parts slot).2

/-- After a verification, lookups answer by the grams alone iff they reach no other record. -/
private theorem Seen.proves_iff_subset {keys : KeysFile} {dir : IndexDir} {cacheCapacity n : ℕ}
    (h : Seen keys r n) (hopen : openDir dir cacheCapacity = .ok r) :
    Proves keys dir n ↔ r.reached ⊆ recordsOf keys.grams := by
  constructor
  · intro hproves rec hrec
    obtain ⟨parts, slot, hslot, rfl⟩ := exists_record (length_of_mem_reached hrec)
    have htrue := (containsSlot_eq_ok_true_iff hopen [] parts slot).mpr ⟨hslot, hrec⟩
    obtain ⟨-, hgram⟩ := (hproves.containsSlot_iff cacheCapacity r hopen [] parts slot).mp htrue
    exact mem_recordsOf.mpr ⟨slot, parts.1, hgram, rfl⟩
  · intro hsub
    refine ⟨h.length_numbers, fun cacheCapacity' r' hopen' asked parts slot => ?_⟩
    rw [containsSlot_eq_ok_true_iff hopen', (sameFiles_of_openDir hopen hopen').2]
    constructor
    · rintro ⟨hslot, hrec⟩
      obtain ⟨slot', parts', hgram, heq⟩ := mem_recordsOf.mp (hsub hrec)
      obtain ⟨rfl, rfl⟩ :=
        record_inj parts.2 (length_of_mem_grams (List.mem_of_getElem? hgram)) hslot
        (h.found slot' parts' hgram).1 heq
      refine ⟨?_, hgram⟩
      rw [← h.length_grams]
      exact (List.getElem?_eq_some_iff.mp hgram).1
    · rintro ⟨-, hgram⟩
      exact h.found slot parts.1 hgram

end Verify

/-- When a verification returns `n` (`h`), the keys file has that many grams and lookups in the
directory find them and nothing else, iff the count in `index.json` is the number of different
records that lookups reach. -/
theorem proves_iff {keys : KeysFile} {dir : IndexDir} {cacheCapacity n : ℕ}
    (h : verifyFromKeysFile keys dir cacheCapacity = .ok n) :
    Proves keys dir n ↔ dir.CountsRecords := by
  obtain ⟨r, hopen, hseen⟩ := seen_of_verify h
  have hcounts : dir.CountsRecords ↔ r.count = r.reached.length := by
    constructor
    · intro hdir
      exact hdir cacheCapacity r hopen
    · intro hcount cacheCapacity' r' hopen'
      obtain ⟨hcount', hreached'⟩ := sameFiles_of_openDir hopen hopen'
      rw [hcount', hreached', hcount]
  have hlength : (recordsOf keys.grams).length = r.count := by
    rw [length_recordsOf, hseen.length_grams, hseen.count_eq]
  have hsubperm := List.subperm_of_subset hseen.nodup_recordsOf hseen.recordsOf_subset
  rw [hseen.proves_iff_subset hopen, hcounts, ← hlength]
  constructor
  · intro hsub
    exact Nat.le_antisymm hsubperm.length_le (List.subperm_of_subset nodup_reached hsub).length_le
  · intro heq
    exact (hsubperm.perm_of_length_le (Nat.le_of_eq heq.symm)).symm.subset

/-- The keys file of one gram. -/
def otherGramKeys : KeysFile := .ofText (Text.unlines (List.replicate 15 ['7'] ++ [['8']]))

theorem proves_iff_oneBuild :
    Proves otherGramKeys (runBuilds (.empty "index") [⟨otherGramKeys, 2, false⟩]) 1 ↔
      (runBuilds (.empty "index") [⟨otherGramKeys, 2, false⟩]).CountsRecords :=
  have hverify : verifyFromKeysFile otherGramKeys
      (runBuilds (.empty "index") [⟨otherGramKeys, 2, false⟩]) 1 = .ok 1 := by decide +kernel
  proves_iff hverify

/-- A build into the directory of an older index leaves a bucket of it in place. The verification
returns, and a lookup finds the older gram, which the keys file does not have. -/
theorem not_proves_staleBucket :
    let dir := runBuilds (.empty "index")
      [⟨.ofText (Text.unlines (List.replicate 16 ['7'])), 2, false⟩, ⟨otherGramKeys, 2, false⟩]
    verifyFromKeysFile otherGramKeys dir 1 = .ok 1 ∧ ¬ Proves otherGramKeys dir 1 := by
  intro dir
  have hfound : ((openDir dir 1).map fun r => (r.containsSlot ⟨List.replicate 16 7, rfl⟩ 0).1) =
      .ok (.ok true) := by decide +kernel
  refine ⟨by decide +kernel, fun h => ?_⟩
  cases hopen : openDir dir 1 with
  | error e =>
    rw [hopen] at hfound
    cases hfound
  | ok r =>
    rw [hopen] at hfound
    obtain ⟨-, hgram⟩ := (h.containsSlot_iff 1 r hopen [] ⟨List.replicate 16 7, rfl⟩ 0).mp
      (Except.ok.inj hfound)
    revert hgram
    decide +kernel

end SlotIndex

end EngramDB
