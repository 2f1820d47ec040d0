import EngramDB.Io.View.Rebuild
import EngramDB.Python.DiskSlotIndex.NativeReads
import EngramDB.Python.Extension

/-!
# A table and its view return the same bytes

A view is built from row ids, and a slot index from the keys file that this build wrote. A memory
over the view and the index then returns, for tuples that occur among the row ids, the bytes that a
memory over the table returns, when it is given the size of a head.

* `numbers_keysText`: the row ids that a build writes to its keys file are read;
* `holdsIndex_emit`: a directory of the native index, as the Python package opens it;
* `BuiltStores.fetchRaw_store`, `BuiltStores.fetchRaw_view`: the bytes that both memories return;
* `BuiltStores.fetchAlike_iff`: they are the same iff the size of a head is given as 160 bytes.
-/

namespace EngramDB

open SlotBuffer Bucketing SlotIndex

/-! ### The keys file -/

/-- The digits of a number of 64 bits are read back as this number. -/
theorem lineNumber_toDigits (v : UInt64) : lineNumber (Nat.toDigits 10 v.toNat) = some v := by
  rw [lineNumber, Text.trim_toDigits, Text.parseU64_toDigits]
  rfl

/-- The lines of a keys file are the digits of its keys. -/
theorem lines_keysText (keys : List ℕ) :
    Text.lines (View.keysText keys) = keys.map (Nat.toDigits 10) := by
  refine Text.lines_unlines fun line hline => ?_
  obtain ⟨k, -, rfl⟩ := List.mem_map.mp hline
  exact Text.newline_notMem_toDigits k

/-- The row ids that a build writes to its keys file are read. -/
theorem numbers_keysText (keys : List UInt64) :
    (KeysFile.ofText (View.keysText (keys.map UInt64.toNat))).numbers = keys := by
  rw [KeysFile.numbers_ofText, lines_keysText, List.map_map, List.filterMap_map]
  refine (List.filterMap_congr fun v _ => ?_).trans List.filterMap_some
  exact lineNumber_toDigits v

/-! ### The index -/

namespace DiskSlotIndex

/-- The lookup of an index, for a memory. -/
def slotLookup (blake2b : Bytes → Bytes) : PyLookup DiskSlotIndex := fun row => do
  let slot ← lookup blake2b row
  return (slot : ℤ)

/-- A gram that is stored (`hslots`) is found, at the first of its slots. -/
theorem Serves.slotLookup {ix : DiskSlotIndex} {hashName : String} {numBuckets : ℕ}
    {content : ℕ → List Bytes} (h : Serves hashName numBuckets content ix) {blake2b : Bytes → Bytes}
    {parts : Gram} {slot : ℕ} {rest : List ℕ}
    (hslots : storedSlots blake2b hashName numBuckets content parts = slot :: rest) :
    ∃ ix', slotLookup blake2b (tupleOf parts) ix = (.ok (slot : ℤ), ix') ∧
      Serves hashName numBuckets content ix' := by
  have hres := h.lookup blake2b parts
  have hstep := h.step blake2b (.lookup (tupleOf parts))
  rw [hslots] at hres
  refine ⟨_, PyM.bind_of_ok (Prod.ext hres rfl), hstep⟩

/-- A build of the native index into an empty directory leaves an index that the package holds. -/
theorem holdsIndex_emit {keys : KeysFile} {numBuckets : ℕ} {cs offs : List ℕ} {grouped : Bytes}
    (h : Grouped keys numBuckets cs offs grouped) (singleFile : Bool) (path : String) :
    HoldsIndex (bucketRecords keys.grams numBuckets) numBuckets cs.sum
      DEFAULT_CACHE_BUCKETS "fnv1a-64"
      singleFile (emit numBuckets singleFile cs offs grouped (.empty path)) where
  numBuckets_pos := h.numBuckets_pos
  indexJson_eq := by cases singleFile <;> rfl
  dataBin_eq := by
    rintro rfl
    simp only [emit, if_true, h.emitSingle_eq]
    rfl
  offsetsBin_eq := by
    rintro rfl
    simp only [emit, if_true, h.emitSingle_eq]
    rfl
  fits _ := h.sum_bucketParts_lt
  buckets := by
    rintro rfl b hb
    simp only [emit, Bool.false_eq_true, if_false, h.emitBuckets_apply]
    by_cases hnil : bucketRecords keys.grams numBuckets b = []
    · exact .inl ⟨if_neg fun hc => hc.2 hnil, hnil⟩
    · exact .inr (if_pos ⟨hb, hnil⟩)
  width b _ rec hrec := length_of_mem_bucketRecords (fun _ => length_of_mem_grams) hrec
  sorted b _ := pairwise_sortRecords _

end DiskSlotIndex

/-! ### Both stores -/

/-- A table, and a view and an index of some of its rows. The view is built from row ids, the index
from the keys file that this build wrote. -/
structure BuiltStores where
  /-- The table. -/
  store : Native.Store
  /-- The row ids. -/
  keys : List UInt64
  /-- What the system does while the view is built. -/
  env : View.BuildEnv
  /-- The path of the keys file. -/
  keysOut : String
  /-- The files before the view is built. -/
  before : ViewFiles
  /-- The files afterwards. -/
  after : ViewFiles
  /-- The text of the keys file. -/
  text : List Char
  /-- Number of buckets of the index. -/
  numBuckets : ℕ
  /-- Whether the index has one file for all buckets. -/
  singleFile : Bool
  /-- The name of its directory. -/
  path : String
  /-- What the build of the index reports. -/
  stats : BuildStats
  /-- The directory of the index. -/
  dir : IndexDir
  /-- The table has the rows, and reads return all bytes that exist. -/
  serves : View.Serves store.batch (keys.map UInt64.toNat)
  /-- A file has less than `2 ^ 63` bytes. -/
  length_lt : ∀ f ∈ store.batch.files, f.length < 2 ^ 63
  /-- All of the keys file reaches it. -/
  keysKept : env.keysKept = none
  /-- The view was built. -/
  built : View.buildViewFromKeys env store.batch (keys.map UInt64.toNat) (.ofNat View.RECORD_BYTES)
    (some keysOut) before = (.ok (), after)
  /-- The build wrote the keys file. -/
  keys_eq : after.keys = some text
  /-- The index was built into an empty directory. -/
  indexed :
    buildFromKeysFileOpt (.ofText text) numBuckets singleFile (.empty path) = (.ok stats, dir)

namespace BuiltStores

variable (b : BuiltStores)

/-- The grams. -/
def grams : List (List UInt64) := slots HEADS b.keys

/-- The row ids of tuples, one after another. -/
def rowids (rows : List Gram) : List UInt64 := rows.flatMap Subtype.val

/-- Both memories can be made, the one over the view with this size of a head, and whatever the size
of the cache and the lookups before, both return the same bytes for all tuples that are grams, if
there is memory for their rows. -/
def FetchAlike (blake2b : Bytes → Bytes) (headDim : Option ℤ) : Prop :=
  ∀ cacheBuckets : ℤ, ∃ view ix, Native.View.new b.after = .ok view ∧
    DiskSlotIndex.openDir b.dir cacheBuckets = .ok ix ∧
      ∀ sys : Native.System, sys.os.Delivers → ∃ memI memP : PleMemory DiskSlotIndex,
        PleMemory.new { store := some (b.store.object sys) } = .ok memI ∧
          PleMemory.new
            { view := some (view.object sys)
              slotIndex := some (DiskSlotIndex.slotLookup blake2b)
              headDim := headDim } = .ok memP ∧
          ∀ calls rows, (∀ row ∈ rows, row.1 ∈ b.grams) →
            b.store.RowsFit sys.memory (rowids rows) → ∃ raw, ∀ x,
              (memI.fetchRaw (rows.map DiskSlotIndex.tupleOf) x).1 = .ok raw ∧
                (memP.fetchRaw (rows.map DiskSlotIndex.tupleOf)
                  (DiskSlotIndex.after blake2b ix calls)).1 = .ok raw

variable {b}

/-- The keys file of a build is the text of its keys. -/
private theorem text_eq (b : BuiltStores) : b.text = View.keysText (b.keys.map UInt64.toNat) := by
  have hkeys := b.keys_eq
  obtain ⟨-, hafter⟩ := View.eq_of_buildViewFromKeys_ok (by decide) b.serves.toFits b.built
  rw [hafter] at hkeys
  simp only [Option.map_some, View.keysAfter, b.keysKept, Option.some.injEq] at hkeys
  exact hkeys.symm

/-- The index has the grams. -/
theorem grams_ofText (b : BuiltStores) : (KeysFile.ofText b.text).grams = b.grams := by
  rw [KeysFile.grams, text_eq, numbers_keysText, grams]

/-- The index of a build is made from its own keys file, grouped into its buckets. -/
theorem exists_grouped (b : BuiltStores) : ∃ cs offs grouped,
    Grouped (.ofText b.text) b.numBuckets cs offs grouped ∧
      b.dir = emit b.numBuckets b.singleFile cs offs grouped (.empty b.path) :=
  exists_grouped_of_build b.indexed

/-- The slots of a build fit into a word. -/
theorem length_grams_lt (b : BuiltStores) : b.keys.length / View.HEAD_W < 2 ^ 64 := by
  obtain ⟨cs, offs, grouped, hgrouped, -⟩ := b.exists_grouped
  have hfits := hgrouped.fits
  rw [grams_ofText, grams, length_slots] at hfits
  simp only [RECORD_BYTES, HEADS, maxFileBytes] at hfits
  rw [View.HEAD_W]
  omega

/-- When nothing fails, whole grams can be stored both ways, unless their index gets larger than a
file can be. -/
theorem exists_builtStores {store : Native.Store} {keys : List UInt64}
    (hserves : View.Serves store.batch (keys.map UInt64.toNat))
    (hfiles : ∀ f ∈ store.batch.files, f.length < 2 ^ 63) (hdvd : HEADS ∣ keys.length)
    (hroom : keys.length / HEADS * RECORD_BYTES ≤ maxFileBytes) {numBuckets : ℕ}
    (hbuckets : 1 ≤ numBuckets) (singleFile : Bool) :
    ∃ b : BuiltStores, b.store = store ∧ b.keys = keys ∧ b.numBuckets = numBuckets ∧
      b.singleFile = singleFile := by
  have hslot : View.RECORD_BYTES ≤ (UInt64.ofNat View.RECORD_BYTES).toNat := by decide
  -- the view is built from the key lines, and the index from the lines that this build kept
  have hbuilt := View.buildViewFromKeys_eq_ok View.faultless_faultlessEnv hslot hserves.toFits
    (by rwa [List.length_map]) (some "keys.txt") View.noFiles
  have hlines : ∀ line ∈ Text.lines (View.keysText (keys.map UInt64.toNat)),
      Text.trim line = [] ∨ (lineNumber line).isSome := by
    intro line hline
    rw [lines_keysText, List.map_map] at hline
    obtain ⟨v, -, rfl⟩ := List.mem_map.mp hline
    exact .inr (by rw [Function.comp_apply, lineNumber_toDigits]; rfl)
  obtain ⟨⟨cs, offs, grouped⟩, hgroup⟩ := groupRecords_isOk hlines
    (by rwa [numbers_keysText]) (by rwa [numbers_keysText]) hbuckets
  exact ⟨{
    store, keys, numBuckets, singleFile
    env := View.faultlessEnv
    keysOut := "keys.txt"
    before := View.noFiles
    after := _
    text := _
    path := "index"
    stats := _
    dir := _
    serves := hserves
    length_lt := hfiles
    keysKept := rfl
    built := hbuilt
    keys_eq := rfl
    indexed := by rw [buildFromKeysFileOpt, hgroup] }, rfl, rfl, rfl, rfl⟩

/-! ### The bytes of both memories -/

/-- The rows of tuples. -/
def bytes (b : BuiltStores) (rows : List Gram) : Bytes :=
  (rows.map fun row => View.gramRows b.store.batch (row.1.map UInt64.toNat)).flatten

variable {rows : List Gram} {sys : Native.System}

/-- The grams of a build are its keys, sixteen by sixteen. -/
private theorem mem_slots_of_mem_grams {parts : List UInt64} (h : parts ∈ b.grams) :
    parts.map UInt64.toNat ∈ slots View.HEAD_W (b.keys.map UInt64.toNat) := by
  rw [slots_map]
  exact List.mem_map_of_mem h

/-- Rows that are grams of the build have the bytes of one record each. -/
theorem length_bytes (hrows : ∀ row ∈ rows, row.1 ∈ b.grams) :
    (b.bytes rows).length = rows.length * View.RECORD_BYTES := by
  rw [bytes, length_flatten, List.length_map]
  intro p hp
  obtain ⟨row, hrow, rfl⟩ := List.mem_map.mp hp
  exact b.serves.length_gramRows (mem_slots_of_mem_grams (hrows row hrow))

/-- The tuple of a gram has sixteen row ids. -/
theorem length_of_mem_map_tupleOf {row : List ℤ} (h : row ∈ rows.map DiskSlotIndex.tupleOf) :
    row.length = 16 := by
  obtain ⟨parts, -, rfl⟩ := List.mem_map.mp h
  rw [DiskSlotIndex.tupleOf, List.length_map, parts.2]
  rfl

/-- The row ids of tuples that are grams are row ids of the view. -/
theorem rowids_subset (hrows : ∀ row ∈ rows, row.1 ∈ b.grams) : rowids rows ⊆ b.keys := by
  intro v hv
  obtain ⟨row, hrow, hmem⟩ := List.mem_flatMap.mp hv
  obtain ⟨i, -, hi⟩ := List.mem_map.mp (hrows row hrow)
  rw [← hi] at hmem
  exact List.mem_of_mem_drop (List.mem_of_mem_take hmem)

/-- The tuples of some grams, one behind the other, are the row ids of the grams. -/
private theorem flatten_tupleOf (rows : List Gram) :
    (rows.map DiskSlotIndex.tupleOf).flatten = (rowids rows).map fun v => (v.toNat : ℤ) := by
  rw [rowids, List.map_flatMap, List.flatMap_def]
  rfl

/-- The stored rows of the row ids of some grams are the bytes of the grams. -/
private theorem flatten_storedRow (b : BuiltStores) (rows : List Gram) :
    (((rowids rows).map UInt64.toNat).map b.store.batch.storedRow).flatten = b.bytes rows := by
  rw [rowids, List.map_flatMap, List.map_flatMap, List.flatMap_def,
    List.flatten_flatten, List.map_map]
  rfl

/-- A memory over the table (`hnew`) returns the rows that the table returns. -/
theorem fetchRaw_store {memI : PleMemory DiskSlotIndex}
    (hnew : PleMemory.new { store := some (b.store.object sys) } = .ok memI)
    (hrows : ∀ row ∈ rows, row.1 ∈ b.grams) (hfits : b.store.RowsFit sys.memory (rowids rows))
    (x : DiskSlotIndex) :
    (memI.fetchRaw (rows.map DiskSlotIndex.tupleOf) x).1 = .ok (b.bytes rows) := by
  rcases eq_or_ne rows [] with rfl | hne
  · rfl
  have hfrom := PleMemory.madeFrom_of_new hnew
  have hsource : memI.source = .store (b.store.object sys) := (Except.ok.inj hfrom.source).symm
  have hheads : memI.numHeads = 16 := hfrom.numHeads
  have hwidth : memI.headDim = View.ROW_BYTES := by
    have hdim := hfrom.headDim
    rw [hsource] at hdim
    have hcast : ((b.store.width.toNat : ℕ) : ℤ) = memI.headDim := Except.ok.inj hdim
    rw [← b.serves.width_eq, b.store.width_layout]
    exact_mod_cast hcast.symm
  have hserves : View.Serves b.store.batch ((rowids rows).map UInt64.toNat) :=
    b.serves.of_subset (List.map_subset _ (rowids_subset hrows))
  -- the row ids of a row fit the words of the native store, so the call goes through
  have hfetch : (b.store.object sys : PyStore DiskSlotIndex).fetch
      (rows.map DiskSlotIndex.tupleOf).flatten x = (.ok (b.bytes rows), x) := by
    rw [flatten_tupleOf]
    simp only [Native.Store.object, Py.mapM_word, Except.ok_bind,
      Native.Store.fetch_eq_ok hserves b.length_lt hfits, flatten_storedRow]
    rfl
  rw [PleMemory.fetchRaw_of_store hsource
    (fun row hrow => by rw [length_of_mem_map_tupleOf hrow, hheads])
    (by simpa using hne) hfetch, if_pos]
  rw [length_bytes hrows, List.length_map, PleMemory.recordBytes, hheads, hwidth]
  rfl

/-- The index is opened and serves the records of the grams. -/
private theorem exists_index (b : BuiltStores) (cacheBuckets : ℤ) :
    ∃ ix, DiskSlotIndex.openDir b.dir cacheBuckets = .ok ix ∧
      DiskSlotIndex.Serves "fnv1a-64" b.numBuckets (bucketRecords b.grams b.numBuckets) ix := by
  obtain ⟨cs, offs, grouped, hgrouped, hdir⟩ := b.exists_grouped
  rw [hdir, ← grams_ofText]
  exact (DiskSlotIndex.holdsIndex_emit hgrouped b.singleFile b.path).serves cacheBuckets

/-- The view is opened and shows the grams. -/
private theorem exists_view (b : BuiltStores) : ∃ view, Native.View.new b.after = .ok view ∧
    View.Shows b.store.batch (.ofNat View.RECORD_BYTES) (b.keys.map UInt64.toNat) view.reader := by
  obtain ⟨r, hopen, hshows⟩ := View.shows_of_build b.serves (by decide)
    (by rw [List.length_map]; exact b.length_grams_lt) b.built
  exact ⟨⟨r⟩, by rw [Native.View.new, hopen]; rfl, hshows⟩

/-- A gram is stored at the slots at which it stands. -/
theorem mem_storedSlots (b : BuiltStores) (blake2b : Bytes → Bytes) (parts : Gram) (slot : ℕ) :
    slot ∈ DiskSlotIndex.storedSlots blake2b "fnv1a-64" b.numBuckets
        (bucketRecords b.grams b.numBuckets) parts ↔ b.grams[slot]? = some parts.1 := by
  have hle : b.grams.length ≤ 2 ^ 64 := by
    rw [grams, length_slots]
    exact Nat.le_of_lt b.length_grams_lt
  rw [← DiskSlotIndex.slotsOf_eq_storedSlots]
  exact mem_slotsOf_bucketRecords (fun _ => length_of_mem_slots) hle

/-- The first slot of a gram. -/
def firstSlot (b : BuiltStores) (blake2b : Bytes → Bytes) (parts : Gram) : ℕ :=
  (DiskSlotIndex.storedSlots blake2b "fnv1a-64" b.numBuckets (bucketRecords b.grams b.numBuckets)
    parts).headD 0

/-- The first slot of a gram has the gram, and the index finds it. -/
theorem exists_slotLookup (blake2b : Bytes → Bytes) {parts : Gram} (hparts : parts.1 ∈ b.grams)
    {ix : DiskSlotIndex}
    (hix : DiskSlotIndex.Serves "fnv1a-64" b.numBuckets (bucketRecords b.grams b.numBuckets) ix) :
    b.grams[b.firstSlot blake2b parts]? = some parts.1 ∧
      ∃ ix', DiskSlotIndex.slotLookup blake2b (DiskSlotIndex.tupleOf parts) ix =
          (.ok (b.firstSlot blake2b parts : ℤ), ix') ∧
        DiskSlotIndex.Serves "fnv1a-64" b.numBuckets (bucketRecords b.grams b.numBuckets) ix' := by
  obtain ⟨i, hi⟩ := List.mem_iff_getElem?.mp hparts
  have hmem := (b.mem_storedSlots blake2b parts i).mpr hi
  rw [firstSlot]
  cases hslots : DiskSlotIndex.storedSlots blake2b "fnv1a-64" b.numBuckets
      (bucketRecords b.grams b.numBuckets) parts with
  | nil =>
    rw [hslots] at hmem
    cases hmem
  | cons slot rest =>
    refine ⟨(b.mem_storedSlots blake2b parts slot).mp ?_, hix.slotLookup hslots⟩
    rw [hslots]
    exact List.mem_cons_self

/-- Slots below `2 ^ 64` (`h`) are taken as words, and the words are the slots. -/
private theorem mapM_word_natCast {slots : List ℕ} (h : ∀ slot ∈ slots, slot < 2 ^ 64) :
    (slots.map fun slot : ℕ => (slot : ℤ)).mapM Py.word = .ok (slots.map UInt64.ofNat) ∧
      (slots.map UInt64.ofNat).map UInt64.toNat = slots := by
  have hword : (slots.map UInt64.ofNat).map UInt64.toNat = slots := by
    rw [List.map_map]
    refine (List.map_congr_left fun slot hslot => ?_).trans (List.map_id slots)
    exact UInt64.toNat_ofNat_of_lt' (h slot hslot)
  refine ⟨?_, hword⟩
  conv_lhs => rw [← hword, List.map_map]
  exact Py.mapM_word _

/-- A memory over the view and the index that has the size of a head returns the rows. -/
theorem fetchRaw_view {view : Native.View} {blake2b : Bytes → Bytes}
    {memP : PleMemory DiskSlotIndex}
    (hsource : memP.source = .view (view.object sys) (some (DiskSlotIndex.slotLookup blake2b)))
    (hheads : memP.numHeads = 16) (hdim : memP.headDim = View.ROW_BYTES) (hos : sys.os.Delivers)
    (hview : View.Shows b.store.batch (.ofNat View.RECORD_BYTES)
      (b.keys.map UInt64.toNat) view.reader)
    {ix : DiskSlotIndex}
    (hix : DiskSlotIndex.Serves "fnv1a-64" b.numBuckets (bucketRecords b.grams b.numBuckets) ix)
    (hrows : ∀ row ∈ rows, row.1 ∈ b.grams)
    (hmem : rows ≠ [] → sys.memory.allocates (rows.length * View.RECORD_BYTES)) :
    (memP.fetchRaw (rows.map DiskSlotIndex.tupleOf) ix).1 = .ok (b.bytes rows) := by
  rcases eq_or_ne rows [] with rfl | hne
  · rfl
  have hslotBytes :
      view.reader.slotBytes.toNat = View.RECORD_BYTES := by rw [hview.slotBytes_eq]; rfl
  -- the slots that the index gives
  obtain ⟨ix', hslots, -⟩ := PyM.mapM_of_ok (f := fun row : Gram =>
      DiskSlotIndex.slotLookup blake2b (DiskSlotIndex.tupleOf row))
    (g := fun row => (b.firstSlot blake2b row : ℤ)) (l := rows)
    (fun row hrow ix hix => (exists_slotLookup blake2b (hrows row hrow) hix).2) hix
  have hrecord : ∀ row ∈ rows, b.firstSlot blake2b row < view.reader.count ∧
      view.reader.record (b.firstSlot blake2b row) =
        View.gramRows b.store.batch (row.1.map UInt64.toNat) := by
    intro row hrow
    have hgram := (exists_slotLookup blake2b (hrows row hrow) hix).1
    have hslot : (slots View.HEAD_W (b.keys.map UInt64.toNat))[b.firstSlot blake2b row]? =
        some (row.1.map UInt64.toNat) := by
      rw [slots_map, List.getElem?_map]
      exact congrArg (Option.map (List.map UInt64.toNat)) hgram
    refine ⟨?_, hview.record_eq_gramRows b.serves rfl hslot⟩
    rw [hview.count_eq, ← length_slots]
    exact (List.getElem?_eq_some_iff.mp hslot).1
  -- the records in these slots
  have hread : (view.object sys : PyView DiskSlotIndex).readRecords
      (rows.map fun row => (b.firstSlot blake2b row : ℤ)) ix' = (.ok (b.bytes rows), ix') := by
    have hin : ∀ i ∈ rows.map (b.firstSlot blake2b), i < view.reader.count := by
      intro i hi
      obtain ⟨row, hrow, rfl⟩ := List.mem_map.mp hi
      exact (hrecord row hrow).1
    obtain ⟨hmap, hback⟩ := mapM_word_natCast fun i hi => (hin i hi).trans_le
      (hview.count_eq.le.trans (by rw [List.length_map]; exact b.length_grams_lt.le))
    rw [List.map_map] at hmap
    have hrecords := Native.View.readRecords_eq_ok hos hin
      (by rw [List.length_map, hslotBytes]; exact hmem hne)
    have hbytes :
        ((rows.map (b.firstSlot blake2b)).map view.reader.record).flatten = b.bytes rows := by
      rw [List.map_map, bytes]
      exact congrArg List.flatten (List.map_congr_left fun row hrow => (hrecord row hrow).2)
    have hcall : (do
        let indices ← (rows.map fun row => (b.firstSlot blake2b row : ℤ)).mapM Py.word
        Py.ofOutcome sys.describe (view.readRecords sys (indices.map UInt64.toNat))) =
        .ok (b.bytes rows) := by
      refine (congrArg (· >>= _) hmap).trans ?_
      rw [Except.ok_bind, hback, hrecords, hbytes]
      rfl
    simp only [Native.View.object, hcall]
    rfl
  rw [PleMemory.fetchRaw_of_view hsource
    (fun row hrow => by rw [length_of_mem_map_tupleOf hrow, hheads]) (by simpa using hne)
    (by rw [List.mapM_map]; exact hslots) hread, if_pos]
  rw [length_bytes hrows, List.length_map, PleMemory.recordBytes, hheads, hdim]
  rfl

/-! ### When both are alike -/

/-- Memory for the rows of tuples is memory for their records. -/
private theorem allocates_of_rowsFit (hfits : b.store.RowsFit sys.memory (rowids rows))
    (hne : rows ≠ []) :
    sys.memory.allocates (rows.length * View.RECORD_BYTES) := by
  have hlen : (rowids rows).length = rows.length * 16 := by
    rw [rowids, List.flatMap_def, length_flatten (w := 16), List.length_map]
    intro p hp
    obtain ⟨row, -, rfl⟩ := List.mem_map.mp hp
    exact row.2
  rcases hfits with hnil | ⟨hmem, hfits⟩
  · have hpos := List.length_pos_iff.mpr hne
    rw [hnil] at hlen
    simp only [List.length_nil] at hlen
    omega
  · have hout := hfits.out_le
    have hwidth : b.store.width.toNat = View.ROW_BYTES := by
      rw [← b.store.width_layout, b.serves.width_eq]
    rw [hwidth] at hmem hout
    rw [List.length_map, b.serves.width_eq] at hout
    refine sys.memory.allocates_of_le (Nat.le_trans ?_ hout) hmem
    rw [hlen, View.RECORD_BYTES, View.HEAD_W, Nat.mul_assoc]

/-- With all the memory of a 64-bit machine there is memory for the rows of one tuple. -/
private theorem rowsFit_singleton {row : Gram} (hrow : row.1 ∈ b.grams) :
    b.store.RowsFit (.upTo (2 ^ 63 - 1) (by decide)) (rowids [row]) := by
  have hserves : View.Serves b.store.batch ((rowids [row]).map UInt64.toNat) :=
    b.serves.of_subset (List.map_subset _ (rowids_subset fun r hr => by
      rw [List.mem_singleton.mp hr]
      exact hrow))
  -- one row is sixteen row ids of 160 bytes
  have hlen : ((rowids [row]).map UInt64.toNat).length = 16 := by
    rw [List.length_map, rowids, List.flatMap_singleton]
    exact row.2
  have hwidth : b.store.width.toNat = 160 := by
    rw [← b.store.width_layout]
    exact b.serves.width_eq
  have hrowBytes : b.store.batch.layout.rowBytes = 160 := by
    rw [← b.serves.width_eq_rowBytes]
    exact b.serves.width_eq
  have hne : (rowids [row]).map UInt64.toNat ≠ [] := List.ne_nil_of_length_pos (by omega)
  rw [List.length_map] at hlen
  refine .inr ⟨?_, hne, hserves.inRange, ?_, fun job hjob => ?_, hserves.width_le, ?_⟩
  · rw [hlen, hwidth]
    decide
  · rw [BadgeGather.PageFits, hrowBytes]
    decide
  · -- a job has no more pairs than there are row ids
    have hsub := ((List.sublist_flatten_of_mem (List.mem_map_of_mem hjob)).length_le.trans_eq
      (BadgeGather.jobPairs_perm (g := b.store.batch) hne b.store.threads).length_eq)
    rw [List.length_zipIdx, List.length_map, hlen] at hsub
    rw [hrowBytes]
    exact decide_eq_true (by omega)
  · rw [List.length_map, hlen, hwidth, b.serves.width_eq]
    decide

/-- A system with all the memory of a 64-bit machine, whose reads are never short. -/
def largeSystem : Native.System where
  memory := .upTo (2 ^ 63 - 1) (by decide)
  os := fullPread
  gathers := Schedule.inOrder _
  reads := Schedule.inOrder _
  describe _ := ""

/-- Over the view no memory is made without the size of a head. -/
theorem not_fetchAlike_none (b : BuiltStores) (blake2b : Bytes → Bytes) :
    ¬ b.FetchAlike blake2b none := by
  intro halike
  obtain ⟨view, ix, -, -, hboth⟩ := halike 1
  obtain ⟨memI, memP, -, hnew, -⟩ := hboth largeSystem fullPread_full.delivers
  rw [PleMemory.new_of_view rfl rfl rfl] at hnew
  cases hnew

/-- There is a gram, unless there is no row id. -/
theorem exists_gram (hne : b.keys ≠ []) : ∃ row : Gram, row.1 ∈ b.grams := by
  obtain ⟨hdvd, -⟩ := View.eq_of_buildViewFromKeys_ok (by decide) b.serves.toFits b.built
  rw [List.length_map] at hdvd
  have hpos := List.length_pos_iff.mpr hne
  have hcount : 0 < b.grams.length := by
    rw [grams, length_slots]
    exact Nat.div_pos (Nat.le_of_dvd hpos hdvd) (by decide)
  obtain ⟨parts, hparts⟩ := List.exists_mem_of_length_pos hcount
  exact ⟨⟨parts, length_of_mem_slots hparts⟩, hparts⟩

/-- Memories that return the same bytes have heads of the same size, when there is a gram. -/
private theorem eq_of_fetchAlike {blake2b : Bytes → Bytes} {headDim : ℤ}
    (halike : b.FetchAlike blake2b (some headDim)) (hne : b.keys ≠ []) : headDim = 160 := by
  obtain ⟨view, ix, -, -, hboth⟩ := halike 1
  obtain ⟨memI, memP, hnewI, hnewP, hfetch⟩ := hboth largeSystem fullPread_full.delivers
  obtain ⟨row, hrow⟩ := exists_gram hne
  have hrows : ∀ r ∈ [row], r.1 ∈ b.grams := fun r hr => by
    rw [List.mem_singleton.mp hr]
    exact hrow
  have hfits := rowsFit_singleton hrow
  obtain ⟨raw, hraw⟩ := hfetch [] [row] hrows hfits
  have hbytes := (hraw ix).1
  rw [fetchRaw_store hnewI hrows hfits] at hbytes
  have hlenP := PleMemory.length_of_fetchRaw_ok (Prod.ext (hraw ix).2 rfl)
  rw [← Except.ok.inj hbytes, length_bytes hrows] at hlenP
  -- sixteen heads, so the size of a head is a sixteenth of the record
  have hfrom := PleMemory.madeFrom_of_new hnewP
  have hheads : memP.numHeads = 16 := hfrom.numHeads
  have hdim : headDim = memP.headDim := Except.ok.inj hfrom.headDim
  rw [PleMemory.recordBytes, hheads] at hlenP
  simp only [List.length_singleton, List.length_map, View.RECORD_BYTES, View.HEAD_W,
    View.ROW_BYTES] at hlenP
  omega

/-- Both memories return the same bytes for tuples that are grams iff the size of a head is given as
160 bytes, or there is no gram and the size that is given is positive. -/
theorem fetchAlike_iff (b : BuiltStores) (blake2b : Bytes → Bytes) (headDim : Option ℤ) :
    b.FetchAlike blake2b headDim ↔
      headDim = some 160 ∨ b.keys = [] ∧ ∃ h, 0 < h ∧ headDim = some h := by
  constructor
  · intro halike
    cases headDim with
    | none => exact absurd halike (b.not_fetchAlike_none blake2b)
    | some h =>
      by_cases hne : b.keys = []
      -- with no key at all any positive head dimension will do
      · obtain ⟨view, ix, -, -, hboth⟩ := halike 1
        obtain ⟨memI, memP, -, hnew, -⟩ := hboth largeSystem fullPread_full.delivers
        have hdim : h = memP.headDim := Except.ok.inj (PleMemory.madeFrom_of_new hnew).headDim
        have hpos := memP.headDim_pos
        exact .inr ⟨hne, h, by omega, rfl⟩
      · exact .inl (congrArg some (eq_of_fetchAlike halike hne))
  · intro hgiven cacheBuckets
    obtain ⟨h, hpos, rfl, hcond⟩ : ∃ h, 0 < h ∧ headDim = some h ∧ (h = 160 ∨ b.keys = []) := by
      rcases hgiven with rfl | ⟨hnil, h, hpos, rfl⟩
      · exact ⟨160, by decide, rfl, .inl rfl⟩
      · exact ⟨h, hpos, rfl, .inr hnil⟩
    obtain ⟨view, hview, hshows⟩ := b.exists_view
    obtain ⟨ix, hix, hserves⟩ := b.exists_index cacheBuckets
    refine ⟨view, ix, hview, hix, fun sys hos => ?_⟩
    -- the memory over the store takes its head dimension from the width of the store
    have hwidth : b.store.width.toNat = 160 := by
      rw [← b.store.width_layout]
      exact b.serves.width_eq
    obtain ⟨memI, hnewI, -, -, -⟩ := PleMemory.exists_new (some (b.store.object sys)) none none none
      rfl rfl (by simp) (by rw [hwidth]; decide)
    obtain ⟨memP, hnewP, hsource, hheads, hdim⟩ := PleMemory.exists_new none
      (some (view.object sys)) (some (DiskSlotIndex.slotLookup blake2b))
        (some h) rfl rfl (by simp) hpos
    refine ⟨memI, memP, hnewI, hnewP, fun calls rows hrows hfits => ⟨b.bytes rows, fun x => ?_⟩⟩
    refine ⟨fetchRaw_store hnewI hrows hfits x, ?_⟩
    rcases hcond with rfl | hnil
    · exact fetchRaw_view hsource hheads hdim hos hshows (hserves.after blake2b calls) hrows
        (allocates_of_rowsFit hfits)
    · -- without row ids there is no gram to ask for
      have hrows_nil : rows = [] := by
        rw [List.eq_nil_iff_forall_not_mem]
        intro row hrow
        have hmem := hrows row hrow
        rw [grams, hnil] at hmem
        cases hmem
      rw [hrows_nil]
      rfl

/-- A store of one row of 160 sevens. -/
def sevensStore : Native.Store where
  batch := View.sevens
  width := 160
  layout_eq := ⟨1, 1, rfl⟩
  threads := DEFAULT_GATHER_THREADS

/-- One gram of sevens, stored both ways. -/
theorem exists_sevens : ∃ b : BuiltStores, b.store = sevensStore ∧ b.keys = List.replicate 16 0 ∧
    b.numBuckets = 4 ∧ b.singleFile = false := by
  have hserves :
      View.Serves sevensStore.batch ((List.replicate 16 (0 : UInt64)).map UInt64.toNat) :=
    View.ViewPath.serves_sevens 16
  have hfiles : ∀ f ∈ sevensStore.batch.files, f.length < 2 ^ 63 := by
    intro f hf
    rw [List.mem_singleton.mp hf, List.length_replicate]
    decide
  exact exists_builtStores hserves hfiles (by decide) (by decide) (by decide : 1 ≤ 4) false

theorem fetchAlike_iff_sevens : ∃ b : BuiltStores, b.keys = List.replicate 16 0 ∧
    b.FetchAlike (fun _ => []) (some 160) := by
  obtain ⟨b, -, hkeys, -, -⟩ := exists_sevens
  exact ⟨b, hkeys, (fetchAlike_iff b _ _).mpr (.inl rfl)⟩

/-- Without the size of a head, no memory can be made over the view of one gram of sevens. -/
theorem not_fetchAlike_sevens : ∃ b : BuiltStores,
    b.store = sevensStore ∧ b.keys = List.replicate 16 0 ∧
    b.numBuckets = 4 ∧ b.singleFile = false ∧ ¬ b.FetchAlike (fun _ => []) none := by
  obtain ⟨b, hstore, hkeys, hbuckets, hsingle⟩ := exists_sevens
  exact ⟨b, hstore, hkeys, hbuckets, hsingle, b.not_fetchAlike_none _⟩

end BuiltStores

end EngramDB
